import Accumulator.Flow.Check

/-!
# Text of flow programs

The variables of a function come first, then its blocks in the order of the walk. Each line ends
with the users of what it shows.
-/

namespace Accumulator.Flow

open Text (bytes)

namespace Program

def renderPayload (p : Program) : Payload → Except Fault Bytes
  | .var _ => .error .misplacedVariable
  | .const v => .ok (bytes s!"const {v}")
  | .elemAddr a i => .ok (bytes s!"elemaddr %{a}, %{i}")
  | .elemAddrIndirect a i => .ok (bytes s!"elemaddr_indirect %{a}, %{i}")
  | .store d s => .ok (bytes s!"store %{d}, %{s}")
  | .storeIndirect d s => .ok (bytes s!"store_indirect %{d}, %{s}")
  | .load s => .ok (bytes s!"load %{s}")
  | .loadIndirect s => .ok (bytes s!"load_indirect %{s}")
  | .loadPair s => .ok (bytes s!"load_pair %{s}")
  | .alu op l r => .ok (bytes s!"{op.name} %{l}, %{r}")
  | .stop => .ok (bytes "end")
  | .ret => .ok (bytes "ret")
  | .call callee args => do
    let g ← lookup p.funcs callee
    return bytes "call " ++ g.name ++ bytes s!" {renderIds args}"
  | .branch t => .ok (bytes s!"br b{t}")
  | .branchIf t c a b => .ok (bytes s!"{t.name} %{c}, b{a}, b{b}")
  | .read => .ok (bytes "read")
  | .write s => .ok (bytes s!"write %{s}")

end Program

namespace Func

def renderVar (f : Func) (id : Id) : Except Fault Bytes := do
  match ← f.var? id with
  | none => throw .outOfRange
  | some v =>
    let size := if v.size > 1 then s!"[{v.size}]" else ""
    let mark := if v.byRef then " ref" else ""
    return bytes s!"\t{v.kind.name} %{id} " ++ v.name ++
      bytes s!"{size}{mark}\t; refs {(← f.refs id).length}\n"

end Func

namespace Program

def renderBlock (p : Program) (f : Func) (b : BlockId) : Except Fault Bytes := do
  let lines ← (← f.code b).toList.mapM fun id => do
    let s ← f.slot id
    return bytes s!"\t%{id} = " ++ (← p.renderPayload s.payload) ++
      bytes s!"\t; refs {renderIds s.refs}\n"
  return bytes s!"b{b}:\n" ++ lines.flatten

def renderFunc (p : Program) (f : Func) : Except Fault Bytes := do
  let mark := if f.isMain then " main" else ""
  let vars ← (f.params ++ f.locals).mapM f.renderVar
  let blocks ← f.walk (fun _ => f) (fun text b => return text ++ (← p.renderBlock f b)) []
  return bytes "func " ++ f.name ++ bytes s!"{mark}\n" ++ vars.flatten ++ blocks

def render (p : Program) : Except Fault Bytes :=
  List.flatten <$> p.funcs.toList.mapM p.renderFunc

end Program

end Accumulator.Flow
