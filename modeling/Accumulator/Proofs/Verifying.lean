import Mathlib
import Accumulator.Proofs.Straight

/-!
# What edits keep and what the checks decide

Two facts about every function that was made by edits. Its slots agree with each other: users are
listed once per operand, and an instruction stands once in the block that its slot names and nowhere
else. And it passes the checks exactly if its blocks, its operands and the order of its values are as
they should be.
-/

namespace Accumulator.Flow.Func

variable {f : Func} {s : Slot} {d : Id}

/-- A sum of two constants. -/
def summing : Func :=
  { name := "main"
    isMain := true
    entry := 0
    blocks := #[#[0, 1, 2, 3, 4]]
    slots := #[
      { payload := .const 5, block := 0, refs := [2, 2] },
      { payload := .const 7, block := 0 },
      { payload := .alu .add 0 0, block := 0, refs := [3] },
      { payload := .write 2, block := 0 },
      { payload := .stop, block := 0 }] }

/-- The sum when the second constant has taken the place of the first. -/
def summingOther : Func :=
  { summing with
    blocks := #[#[1, 2, 3, 4]]
    slots := #[
      { payload := .const 5, dead := true },
      { payload := .const 7, block := 0, refs := [2, 2] },
      { payload := .alu .add 1 1, block := 0, refs := [3] },
      { payload := .write 2, block := 0 },
      { payload := .stop, block := 0 }] }

lemma summingOther_made : Made summingOther := by
  have hmade : Made summing :=
    Made.straight [] [.const 5, .const 7, .alu .add 0 0, .write 2, .stop] (by decide)
  obtain ⟨g, huses, herase⟩ :
      ∃ g, summing.replaceUses 0 1 = .ok g ∧ g.erase 0 = .ok summingOther := by
    rw [← bind_eq_ok]
    decide +kernel
  exact (hmade.replaceUses huses).erase herase

lemma summingOther_verify : summingOther.verify = .ok (.ok ()) :=
  verify_single rfl (by decide) (by decide) rfl

lemma Sound.count_listing (hf : Sound f) {b : BlockId} {l : List Id} (hl : f.listing? b = some l)
    (hd : d ∈ l) : l.count d = 1 :=
  List.count_eq_one_of_mem (hf.nodup hl) hd

lemma Sound.not_mem_other (hf : Sound f) (hs : f.at? d = some s) {b : BlockId} {l : List Id}
    (hl : f.listing? b = some l) (hb : b ≠ s.block) : d ∉ l := by
  intro hd
  exact hb (hf.block_of_mem hl hd hs).1.symm

lemma Sound.unplaced (hf : Sound f) (hs : f.at? d = some s)
    (h : s.dead = true ∨ ∃ v, s.payload = .var v) : s.block = noBlock := by
  by_contra hb
  obtain ⟨l, hl, hd⟩ := hf.placed hs hb
  obtain ⟨-, hdead, hvar⟩ := hf.block_of_mem hl hd hs
  rcases h with h | ⟨v, hv⟩
  · simp [hdead] at h
  · exact hvar v hv

/-- In a function that was made by edits, each slot lists an instruction that was not erased as often
as the slot is among its operands, and lists nothing else. An instruction stands in the block that
its slot names, once, and in no other; variables and erased instructions stand in none. -/
theorem Made.users_and_places (h : Made f) (hs : f.at? d = some s) :
    (∀ u x, f.live? u = some x → s.refs.count u = x.operands.count d) ∧
      (∀ u, f.live? u = none → u ∉ s.refs) ∧
      (s.block ≠ noBlock → ∃ l, f.listing? s.block = some l ∧ l.count d = 1) ∧
      (∀ b l, f.listing? b = some l → b ≠ s.block → d ∉ l) ∧
      (s.block = noBlock → ∀ b l, f.listing? b = some l → d ∉ l) ∧
      ((s.dead = true ∨ ∃ v, s.payload = .var v) →
        s.block = noBlock ∧ ∀ b l, f.listing? b = some l → d ∉ l) := by
  obtain ⟨hf, -⟩ := h.sound
  refine ⟨fun u x hx => ?_, fun u hu => ?_, fun hb => ?_, fun b l hl hb => hf.not_mem_other hs hl hb,
    fun hb b l hl => hf.not_mem_of_noBlock hs hb hl, fun hgone => ?_⟩
  · rw [hf.refs hs, uses_of_live hx]
  · rw [← List.count_eq_zero, hf.refs hs, uses_of_none hu]
  · obtain ⟨l, hl, hd⟩ := hf.placed hs hb
    exact ⟨l, hl, hf.count_listing hl hd⟩
  · have hb := hf.unplaced hs hgone
    exact ⟨hb, fun b l hl => hf.not_mem_of_noBlock hs hb hl⟩

/-- The constant that was erased is in no block, and the other is listed by its user twice. -/
theorem summingOther_users :
    Made summingOther ∧ summingOther.live? 2 = some (.alu .add 1 1) ∧
      ([2, 2] : List Id).count 2 = (Payload.alu .add 1 1).operands.count 1 ∧
      ∀ b l, summingOther.listing? b = some l → 0 ∉ l := by
  have hone := summingOther_made.users_and_places (d := 1) (s := ⟨.const 7, {}, 0, [2, 2], false⟩) rfl
  have hzero := summingOther_made.users_and_places (d := 0) (s := ⟨.const 5, {}, noBlock, [], true⟩) rfl
  exact ⟨summingOther_made, rfl, hone.1 2 (.alu .add 1 1) rfl, hzero.2.2.2.2.1 rfl⟩

lemma closes_iff {l : List Id} :
    f.Closes l ↔ ∃ pre t x, l = pre ++ [t] ∧ f.live? t = some x ∧ x.isTerminal = true ∧
      ∀ i ∈ pre, ∃ y, f.live? i = some y ∧ y.isTerminal = false := by
  constructor
  · intro h
    have hne : l ≠ [] := by
      rintro rfl
      exact h
    obtain ⟨pre, t, rfl⟩ := (List.eq_nil_or_concat' l).resolve_left hne
    obtain ⟨hpre, x, hx, hterm⟩ := (closes_append (by simp)).mp h
    exact ⟨pre, t, x, rfl, hx, hterm, hpre⟩
  · rintro ⟨pre, t, x, rfl, hx, hterm, hpre⟩
    exact (closes_append (by simp)).mpr ⟨hpre, x, hx, hterm⟩

lemma Sound.refs_of_dead (hf : Sound f)
    (hops : ∀ {u x}, f.live? u = some x → ∀ e ∈ x.operands, (f.live? e).isSome)
    (hs : f.at? d = some s) (hdead : s.dead = true) : s.refs = [] := by
  refine hf.refs_eq_nil hs fun u x hx hd => ?_
  have := hops hx d hd
  simp [live?_of_at? hs, hdead] at this

/-- A function that was made by edits passes the checks exactly if its entry is a block; every block
that control may come to has code, ends in its only terminal instruction and branches to blocks;
no operand was erased and no erased slot has users; and in those blocks every operand that is no
variable stands in front of its user. -/
theorem Made.verify_ok_iff (h : Made f) :
    f.verify = .ok (.ok ()) ↔
      (f.listing? f.entry).isSome ∧
      (∀ b, f.Reaches b → ∃ pre t x, f.listing? b = some (pre ++ [t]) ∧ f.live? t = some x ∧
        x.isTerminal = true ∧ (∀ i ∈ pre, ∃ y, f.live? i = some y ∧ y.isTerminal = false) ∧
        ∀ c ∈ x.targets, (f.listing? c).isSome) ∧
      (∀ u x, f.live? u = some x → ∀ d ∈ x.operands, (f.live? d).isSome) ∧
      (∀ d s, f.at? d = some s → s.dead = true → s.refs = []) ∧
      ∀ b pre u post x, f.Reaches b → f.listing? b = some (pre ++ u :: post) →
        f.live? u = some x → ∀ d ∈ x.operands, (f.varOf? d).isSome ∨ d ∈ pre := by
  obtain ⟨hf, -⟩ := h.sound
  rw [hf.verify_iff]
  constructor
  · intro hw
    have hblock : ∀ b, f.Reaches b → (f.listing? b).isSome := by
      intro b hb
      obtain ⟨l, hl, -⟩ := hw.closes hb
      simp [hl]
    refine ⟨hblock _ Relation.ReflTransGen.refl, fun b hb => ?_, fun u x hx => hw.operands hx,
      fun d s hs hdead => hf.refs_of_dead hw.operands hs hdead,
      fun b pre u post x hb hl hx => hw.ordered hb hl hx⟩
    obtain ⟨l, hl, hcl⟩ := hw.closes hb
    obtain ⟨pre, t, x, rfl, hx, hterm, hpre⟩ := closes_iff.mp hcl
    refine ⟨pre, t, x, hl, hx, hterm, hpre, fun c hc => ?_⟩
    exact hblock c (hw.reaches_target hb hl (by simp) hx hc)
  · rintro ⟨-, hcode, hops, -, horder⟩
    refine ⟨fun {b} hb => ?_, fun hx => hops _ _ hx, fun hb hl hx => horder _ _ _ _ _ hb hl hx⟩
    obtain ⟨pre, t, x, hl, hx, hterm, hpre, -⟩ := hcode b hb
    exact ⟨pre ++ [t], hl, closes_iff.mpr ⟨pre, t, x, rfl, hx, hterm, hpre⟩⟩

/-- The function with the erased constant passes the checks, and its blocks end as they should. -/
theorem summingOther_checked :
    Made summingOther ∧ summingOther.verify = .ok (.ok ()) ∧
      ∀ b, summingOther.Reaches b → ∃ pre t x, summingOther.listing? b = some (pre ++ [t]) ∧
        summingOther.live? t = some x ∧ x.isTerminal = true := by
  refine ⟨summingOther_made, summingOther_verify, fun b hb => ?_⟩
  obtain ⟨-, hcode, -⟩ := summingOther_made.verify_ok_iff.mp summingOther_verify
  obtain ⟨pre, t, x, hl, hx, hterm, -⟩ := hcode b hb
  exact ⟨pre, t, x, hl, hx, hterm⟩

end Accumulator.Flow.Func
