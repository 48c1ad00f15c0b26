import Mathlib
import Accumulator.Proofs.Coalescing
import Accumulator.Proofs.SpillMeaning

/-!
# Values in registers

The machine code of an instruction finds the values it needs in the accumulator `a` and in the
second register `b`, and nothing but the order of the code puts them there. `Func.track` follows
which values the two registers hold, and `Func.InPlace` says that every instruction that control may
come to finds its values. `Settled` adds what else is true of spilled code and is kept, together with
this, by each of the coalescing rules.
-/

namespace Accumulator.Flow

/-- The values in the accumulator and in the second register, as far as they are known. -/
structure Held where
  a : Option Id := none
  b : Option Id := none
  deriving DecidableEq, Repr

namespace Held

variable {h h' : Held} {σ : Id → Id} {B : Id → Prop}

/-- The values that an instruction needs are there: the last one in the accumulator, the one before
in the second register. -/
def Offers (h : Held) : List Id → Prop
  | [] => True
  | [z] => h.a = some z
  | [y, z] => h.b = some y ∧ h.a = some z
  | _ => False

instance : (l : List Id) → Decidable (h.Offers l)
  | [] => isTrue trivial
  | [z] => inferInstanceAs (Decidable (h.a = some z))
  | [y, z] => inferInstanceAs (Decidable (h.b = some y ∧ h.a = some z))
  | _ :: _ :: _ :: _ => isFalse id

lemma Offers.cases {l : List Id} (hl : h.Offers l) {d : Id} (hd : d ∈ l) :
    h.a = some d ∨ ∃ z, l = [d, z] ∧ h.b = some d ∧ h.a = some z := by
  match l, hl with
  | [z], ha =>
    obtain rfl : d = z := by simpa using hd
    exact Or.inl ha
  | [y, z], hyz =>
    rcases List.mem_pair.mp hd with rfl | rfl
    · exact Or.inr ⟨z, rfl, hyz⟩
    · exact Or.inl hyz.2

/-- Registers `h'` hold the renamed values of `h`, in `b` at least those that `B` asks for. -/
def Carries (B : Id → Prop) (σ : Id → Id) (h h' : Held) : Prop :=
  (∀ y, h.a = some y → h'.a = some (σ y)) ∧ ∀ y, B y → h.b = some y → h'.b = some (σ y)

end Held

namespace Func

variable {f f' g : Func} {u i y z : Id} {c b : BlockId} {x : Payload} {h h' : Held} {σ : Id → Id}
  {l pre mid mid' post : List Id} {v : Id}

/-- What the code of instruction `u` leaves in the registers. -/
def leaves (f : Func) (u : Id) (h : Held) : Payload → Held
  | .const _ => { h with a := some u }
  | .load s => if (f.varOf? s).isSome then ⟨some u, h.a⟩ else { h with a := some u }
  | .loadIndirect _ | .read | .elemAddrIndirect _ _ => ⟨some u, h.a⟩
  | .loadPair _ => { h with b := some u }
  | .elemAddr _ _ | .alu _ _ _ => ⟨some u, none⟩
  | .store d _ => if (f.varOf? d).isSome then { h with b := none } else h
  | .storeIndirect _ _ => { h with b := none }
  | .call _ _ => {}
  | .write _ | .branch _ | .branchIf _ _ _ _ | .stop | .ret | .var _ => h

/-- The registers behind an instruction. -/
def track (f : Func) (h : Held) (u : Id) : Held :=
  match f.live? u with
  | none => h
  | some x => f.leaves u h x

/-- The registers behind some code at the start of a block. -/
def held (f : Func) (code : List Id) : Held := code.foldl f.track {}

/-- Every instruction that control may come to finds the values it needs. -/
def InPlace (f : Func) : Prop :=
  ∀ {c pre u post x}, f.Reaches c → f.listing? c = some (pre ++ u :: post) → f.live? u = some x →
    (f.held pre).Offers (f.needs x)

lemma held_append : f.held (pre ++ l) = l.foldl f.track (f.held pre) := by
  rw [held, List.foldl_append, held]

lemma held_concat : f.held (pre ++ [u]) = f.track (f.held pre) u := by
  rw [held_append, List.foldl_cons, List.foldl_nil]

lemma track_of_live (hx : f.live? u = some x) : f.track h u = f.leaves u h x := by
  rw [track, hx]

lemma leaves_a (hy : (f.leaves u h x).a = some y) :
    (y = u ∧ x.produces = true) ∨ h.a = some y := by
  cases x with
  | const | loadIndirect | read | elemAddr | elemAddrIndirect | alu =>
    exact Or.inl ⟨(Option.some.inj hy).symm, rfl⟩
  | load s =>
    simp only [leaves] at hy
    split at hy <;> exact Or.inl ⟨(Option.some.inj hy).symm, rfl⟩
  | store d s =>
    simp only [leaves] at hy
    split at hy <;> exact Or.inr hy
  | call => simp [leaves] at hy
  | _ => exact Or.inr hy

lemma leaves_b (hy : (f.leaves u h x).b = some y) :
    (y = u ∧ x.produces = true) ∨ h.a = some y ∨ h.b = some y := by
  cases x with
  | loadIndirect | read | elemAddrIndirect => exact Or.inr (Or.inl hy)
  | loadPair => exact Or.inl ⟨(Option.some.inj hy).symm, rfl⟩
  | load s =>
    simp only [leaves] at hy
    split at hy
    · exact Or.inr (Or.inl hy)
    · exact Or.inr (Or.inr hy)
  | store d s =>
    simp only [leaves] at hy
    split at hy
    · cases hy
    · exact Or.inr (Or.inr hy)
  | elemAddr | alu | storeIndirect | call => simp [leaves] at hy
  | _ => exact Or.inr (Or.inr hy)

lemma foldl_track_a (hl : y ∉ l) (hy : (l.foldl f.track h).a = some y) : h.a = some y := by
  induction l generalizing h with
  | nil => exact hy
  | cons u l ih =>
    have hne : y ≠ u := fun hyu => hl (by simp [hyu])
    have hu := ih (fun hmem => hl (by simp [hmem])) hy
    unfold track at hu
    split at hu
    · exact hu
    · exact (leaves_a hu).resolve_left fun hyu => hne hyu.1

lemma foldl_track_b (hl : y ∉ l) (hy : (l.foldl f.track h).b = some y) :
    h.a = some y ∨ h.b = some y := by
  induction l generalizing h with
  | nil => exact Or.inr hy
  | cons u l ih =>
    have hne : y ≠ u := fun hyu => hl (by simp [hyu])
    have hl' : y ∉ l := fun hmem => hl (by simp [hmem])
    rcases ih hl' hy with hu | hu
    · unfold track at hu
      split at hu
      · exact Or.inl hu
      · exact Or.inl ((leaves_a hu).resolve_left fun hyu => hne hyu.1)
    · unfold track at hu
      split at hu
      · exact Or.inr hu
      · exact (leaves_b hu).resolve_left fun hyu => hne hyu.1

lemma held_congr {code : List Id} (hlive : ∀ u ∈ code, f'.live? u = f.live? u)
    (hvars : ∀ d, f'.varOf? d = f.varOf? d) : f'.held code = f.held code := by
  induction code using List.reverseRecOn with
  | nil => rfl
  | append_singleton l u ih =>
    rw [held_concat, held_concat, ih fun v hv => hlive v (by simp [hv]), track, track,
      hlive u (by simp)]
    cases f.live? u with
    | none => rfl
    | some x => cases x <;> simp only [leaves, hvars]

lemma produces_of_held {code : List Id}
    (hy : (f.held code).a = some y ∨ (f.held code).b = some y) :
    y ∈ code ∧ ∃ x, f.live? y = some x ∧ x.produces = true := by
  induction code using List.reverseRecOn with
  | nil => simp [held] at hy
  | append_singleton l u ih =>
    rw [held_concat, track] at hy
    have hold : (f.held l).a = some y ∨ (f.held l).b = some y →
        y ∈ l ++ [u] ∧ ∃ x, f.live? y = some x ∧ x.produces = true := by
      intro hy
      obtain ⟨hmem, hx⟩ := ih hy
      exact ⟨by simp [hmem], hx⟩
    split at hy
    · exact hold hy
    · rename_i x hx
      have hnew : y = u ∧ x.produces = true →
          y ∈ l ++ [u] ∧ ∃ x, f.live? y = some x ∧ x.produces = true := by
        rintro ⟨rfl, hp⟩
        exact ⟨by simp, x, hx, hp⟩
      rcases hy with hy | hy
      · exact (leaves_a hy).elim hnew fun ha => hold (Or.inl ha)
      · exact (leaves_b hy).elim hnew hold

lemma leaves_rename (hvar : ∀ d ∈ x.operands, (f'.varOf? (σ d)).isSome = (f.varOf? d).isSome) :
    f'.leaves u h (x.rename σ) = f.leaves u h x := by
  cases x with
  | load s =>
    have := hvar s (by simp [Payload.operands])
    simp only [Payload.rename, Payload.operands, List.map, Payload.withOperands, leaves, this]
  | store d s =>
    have := hvar d (by simp [Payload.operands])
    simp only [Payload.rename, Payload.operands, List.map, Payload.withOperands, leaves, this]
  | _ => rfl

lemma carries_leaves {B : Id → Prop} (hc : Held.Carries B σ h h') (hu : σ u = u) :
    Held.Carries B σ (f.leaves u h x) (f.leaves u h' x) := by
  obtain ⟨ha, hb⟩ := hc
  cases x <;> simp only [Func.leaves] <;> (try split) <;> exact ⟨by grind, by grind⟩

/-- A value that some instruction needs in the second register. -/
def Seconds (f : Func) (y : Id) : Prop :=
  ∃ u x z, f.Runs u ∧ f.live? u = some x ∧ f.needs x = [y, z]

/-- All values are in place. Every one is used, by instructions that control may come to; one that is
needed in the second register is used once. -/
structure Settled (f : Func) : Prop where
  inPlace : f.InPlace
  named : ∀ {u x}, f.Runs u → f.live? u = some x → ∀ d ∈ f.named x, (f.varOf? d).isSome
  single : ∀ {u x y z}, f.Runs u → f.live? u = some x → f.needs x = [y, z] →
    f.users y = {u} ∧ y ≠ z
  used : ∀ {i}, f.Producer i → (f.users i).Nonempty
  within : ∀ {i u}, f.Producer i → u ∈ f.users i → f.Runs u

lemma Settled.behind (hset : Settled f) (hf : Tidy f) (hc : f.Reaches c)
    (hl : f.listing? c = some (pre ++ i :: post)) (hx : f.live? i = some x)
    (hp : x.produces = true) (hu : u ∈ f.users i) : u ∈ post := by
  obtain ⟨d, m, hd, hm, hum⟩ := hset.within ⟨c, _, x, hc, hl, by simp, hx, hp⟩ hu
  obtain ⟨z, hz, hop⟩ := hu
  obtain ⟨p, q, rfl⟩ := List.append_of_mem hum
  have hip : i ∈ p := by
    refine (hf.wellFormed.ordered hd hm hz i hop).resolve_left ?_
    rw [hf.sound.varOf?_of_mem hl (by simp)]
    simp
  obtain rfl : d = c := hf.sound.block_unique hm (i := i) (by simp [hip]) hl (by simp)
  obtain ⟨p₁, p₂, rfl⟩ := List.append_of_mem hip
  obtain ⟨-, rfl⟩ := hf.sound.split_unique hl (show _ = some (p₁ ++ i :: (p₂ ++ u :: q)) by
    simpa using hm)
  simp

/-- What the windows of the rules have in common. The value `t` is stored by `s` and loaded again as
`r`; of the users of `r` and those of `t` one kind is made of the two. The rest of the window are
loads of variables. -/
structure Merging (f f' : Func) (pre mid mid' : List Id) (σ : Id → Id) (v s r t : Id) : Prop where
  store : f.live? s = some (.store v t)
  var : (f.varOf? v).isSome
  mem_store : s ∈ mid
  mem_load : r ∈ mid
  reload : f.live? r = some (.load v)
  ne : r ≠ t
  loads : ∀ u ∈ mid, u ≠ s → ∃ w, f.live? u = some (.load w) ∧ (f.varOf? w).isSome
  target : ∃ P Q, pre ++ mid = P ++ t :: Q ∧ ∀ w ∈ Q, w ∈ mid
  into : σ r = t
  inj : ∀ d e, (f.at? d).isSome → (f.at? e).isSome → σ d = σ e →
    d = e ∨ (d = r ∧ e = t) ∨ (d = t ∧ e = r)
  last : (f.held (pre ++ mid)).a = some r
  new : ∀ i ∈ mid',
    (∃ d w, d ∈ mid ∧ d ≠ s ∧ d ≠ t ∧ σ d = i ∧ (f.varOf? w).isSome ∧
      (f'.live? i = some (.load w) ∨ f'.live? i = some (.loadPair w))) ∨
    (i = s ∧ f'.live? s = some (.store v t) ∧ (∃ p, mid' = [s, p]) ∧
      ∃ a, f.live? a = some (.load v) ∧ mid = [s, a, r])

lemma held_load (hx : f.live? u = some (.load v)) (hv : (f.varOf? v).isSome) :
    f.held (pre ++ [u]) = ⟨some u, (f.held pre).a⟩ := by
  rw [held_concat, track_of_live hx, leaves, if_pos hv]

lemma held_store {s t : Id} (hx : f.live? s = some (.store v t)) (hv : (f.varOf? v).isSome) :
    f.held (pre ++ [s]) = ⟨(f.held pre).a, none⟩ := by
  rw [held_concat, track_of_live hx, leaves, if_pos hv]

lemma held_loadPair (hx : f.live? u = some (.loadPair v)) :
    f.held (pre ++ [u]) = ⟨(f.held pre).a, some u⟩ := by
  rw [held_concat, track_of_live hx, leaves]

lemma needs_load (hv : (f.varOf? v).isSome) : f.needs (.load v) = [] := if_pos hv

lemma needs_store {t : Id} (hv : (f.varOf? v).isSome) : f.needs (.store v t) = [t] := if_pos hv

lemma mem_users_store {s t : Id} (hs : f.live? s = some (.store v t)) : s ∈ f.users t :=
  ⟨_, hs, by simp [Payload.operands]⟩

lemma Settled.not_seconds_of_store (hset : Settled f) {s t : Id} (hs : f.live? s = some (.store v t))
    (hv : (f.varOf? v).isSome) : ¬ f.Seconds t := by
  rintro ⟨u, x, z, hu, hx, hneeds⟩
  obtain rfl : s = u := by
    have := mem_users_store hs
    rwa [(hset.single hu hx hneeds).1] at this
  obtain rfl := Option.some.inj (hx.symm.trans hs)
  simp [needs_store hv] at hneeds

/-- Two values loaded one after the other, the first of which is used at all: the second one is not
needed in `b`, which the first one has to leave before. -/
lemma Settled.not_seconds_of_loads (hset : Settled f) (hf : Tidy f) (hr : f.Reaches b)
    {a e : Id} (hl : f.listing? b = some ((pre ++ [a]) ++ e :: post))
    (ha : f.live? a = some (.load v)) (he : f.live? e = some (.load v))
    (hv : (f.varOf? v).isSome) : ¬ f.Seconds e := by
  rintro ⟨u, x, z, hu, hx, hneeds⟩
  have hnd := hf.sound.nodup hl
  have hae : a ≠ e := by
    rintro rfl
    simp [List.nodup_append] at hnd
  have hheld : f.held (pre ++ [a] ++ [e]) = ⟨some e, some a⟩ := by
    rw [held_load he hv, held_load ha hv]
  have hla : f.listing? b = some (pre ++ a :: (e :: post)) := by simpa using hl
  have hne : a ∉ post ∧ e ∉ post := by
    simp only [List.nodup_append, List.nodup_cons, List.mem_cons, List.mem_append] at hnd
    grind
  obtain ⟨w, y, hy, hop⟩ := hset.used ⟨b, _, _, hr, hla, by simp, ha, rfl⟩
  have hwpost : w ∈ post := by
    have hmem := hset.behind hf hr hla ha rfl ⟨y, hy, hop⟩
    refine (List.mem_cons.mp hmem).resolve_left ?_
    rintro rfl
    obtain rfl := Option.some.inj (hy.symm.trans he)
    obtain rfl : a = v := by simpa [Payload.operands] using hop
    rw [hf.sound.varOf?_of_mem hla (by simp)] at hv
    cases hv
  have hupost : u ∈ post := by
    refine hset.behind hf hr hl he rfl ?_
    rw [(hset.single hu hx hneeds).1]
    rfl
  have hcode : ∀ {p q : List Id} {k : Id}, post = p ++ k :: q →
      f.listing? b = some (((pre ++ [a]) ++ [e] ++ p) ++ k :: q) := by
    intro p q k hpq
    rw [hl, hpq]
    simp
  have hnota : ∀ {p q : List Id} {k : Id}, post = p ++ k :: q →
      (f.held (pre ++ [a] ++ [e] ++ p)).a ≠ some a := by
    intro p q k hpq hheld'
    rw [held_append, hheld] at hheld'
    have hap : a ∉ p := fun hmem => hne.1 (by simp [hpq, hmem])
    have := foldl_track_a hap hheld'
    exact hae (Option.some.inj this).symm
  have hsecond : ∀ {p q : List Id}, post = p ++ w :: q →
      ∃ k, f.needs y = [a, k] ∧ (f.held (pre ++ [a] ++ [e] ++ p)).b = some a ∧
        (f.held (pre ++ [a] ++ [e] ++ p)).a = some k := by
    intro p q hpq
    have hin := hset.inPlace hr (hcode hpq) hy
    have hmem : a ∈ f.needs y := by
      refine ((mem_operands_iff f).mp hop).resolve_right fun hn => ?_
      have := hset.named ⟨b, _, hr, hcode hpq, by simp⟩ hy a hn
      rw [hf.sound.varOf?_of_mem hla (by simp)] at this
      cases this
    exact (hin.cases hmem).resolve_left (hnota hpq)
  obtain ⟨p, q, hpq⟩ := List.append_of_mem hwpost
  obtain ⟨k, hny, hb, hk⟩ := hsecond hpq
  have hfind : ∀ {p q : List Id}, post = p ++ u :: q →
      (f.held (pre ++ [a] ++ [e] ++ p)).b = some e := by
    intro p q hpq
    have hin := hset.inPlace hr (hcode hpq) hx
    rw [hneeds] at hin
    exact hin.1
  have hup : u ∈ p ++ w :: q := hpq ▸ hupost
  rcases List.mem_append.mp hup with hup | hup
  · -- The second value would push the first one out of `b` before its use.
    obtain ⟨p₁, p₂, rfl⟩ := List.append_of_mem hup
    have hpq' : post = p₁ ++ u :: (p₂ ++ w :: q) := by simpa using hpq
    have hb' := hfind hpq'
    rw [← List.append_assoc, held_append] at hb
    have hap : a ∉ u :: p₂ := fun hmem => hne.1 (by rw [hpq']; simp only [List.mem_cons, List.mem_append] at hmem ⊢; tauto)
    rcases foldl_track_b hap hb with h' | h'
    · exact hnota hpq' h'
    · rw [hb'] at h'
      exact hae (Option.some.inj h').symm
  · rcases List.mem_cons.mp hup with rfl | hup
    · have := hfind hpq
      rw [hb] at this
      exact hae (Option.some.inj this)
    · obtain ⟨q₁, q₂, rfl⟩ := List.append_of_mem hup
      have hpq' : post = (p ++ w :: q₁) ++ u :: q₂ := by simpa using hpq
      have hb' := hfind hpq'
      rw [← List.append_assoc, held_append] at hb'
      have hep : e ∉ w :: q₁ := fun hmem => hne.2 (by rw [hpq']; simp only [List.mem_cons, List.mem_append] at hmem ⊢; tauto)
      rcases foldl_track_b hep hb' with h' | h'
      · have hke : k = e := Option.some.inj (hk.symm.trans h')
        have hwu : w ∈ f.users e := ⟨y, hy, (mem_operands_iff f).mpr (Or.inl (by simp [hny, hke]))⟩
        rw [(hset.single hu hx hneeds).1] at hwu
        obtain rfl : w = u := hwu
        have := hf.sound.nodup (hcode hpq')
        simp [List.nodup_append] at this
      · rw [hb] at h'
        exact hae (Option.some.inj h')

lemma instead_inj {old new d e : Id} (h : instead old new d = instead old new e) :
    d = e ∨ (d = old ∧ e = new) ∨ (d = new ∧ e = old) := by
  unfold instead at h
  grind

lemma paired_inj {a k p t d e : Id} (hd : d ≠ p) (he : e ≠ p) (ht : t ≠ p)
    (h : paired a k p t d = paired a k p t e) : d = e ∨ (d = k ∧ e = t) ∨ (d = t ∧ e = k) := by
  unfold paired at h
  grind

lemma merging_of_loads {m s t a k p : Id} (hnd : ((pre ++ [t]) ++ ([s, a, k] ++ post)).Nodup)
    (hst : f.live? s = some (.store v t)) (ha : f.live? a = some (.load m))
    (hk : f.live? k = some (.load v)) (hm : (f.varOf? m).isSome) (hv : (f.varOf? v).isSome)
    (ht : (f.at? t).isSome) (hp : f.at? p = none)
    (hnew : ∀ i ∈ mid', i = p ∧ f'.live? i = some (.loadPair m) ∨
      i = s ∧ f'.live? s = some (.store v t) ∧ mid' = [s, p] ∧ m = v) :
    Merging f f' (pre ++ [t]) [s, a, k] mid' (paired a k p t) v s k t := by
  have hne : ∀ {d : Id}, (f.at? d).isSome → d ≠ p := by
    rintro d hd rfl
    rw [hp] at hd
    cases hd
  have hka : k ≠ a := by
    rintro rfl
    simp [List.nodup_append] at hnd
  refine ⟨hst, hv, by simp, by simp, hk, ?_, ?_, ⟨pre, [s, a, k], by simp, by simp⟩, ?_, ?_, ?_, ?_⟩
  · rintro rfl
    simp [List.nodup_append] at hnd
  · intro u hu hus
    simp only [List.mem_cons, List.not_mem_nil, or_false] at hu
    rcases hu with rfl | rfl | rfl
    · exact absurd rfl hus
    · exact ⟨m, ha, hm⟩
    · exact ⟨v, hk, hv⟩
  · simp [paired, hka]
  · intro d e hd he hde
    exact paired_inj (hne hd) (hne he) (hne ht) hde
  · rw [show (pre ++ [t]) ++ [s, a, k] = (pre ++ [t] ++ [s, a]) ++ [k] by simp, held_load hk hv]
  · intro i hi
    have has : a ≠ s := by
      rintro rfl
      simp [List.nodup_append] at hnd
    have hat : a ≠ t := by
      rintro rfl
      simp [List.nodup_append] at hnd
    rcases hnew i hi with ⟨rfl, hload⟩ | ⟨rfl, hst', hmid', rfl⟩
    · exact Or.inl ⟨a, m, by simp, has, hat, by simp [paired], hm, Or.inr hload⟩
    · exact Or.inr ⟨rfl, hst', ⟨p, hmid'⟩, a, ha, rfl⟩

section Window

variable (hf : Tidy f) (hset : Settled f) (hr : f.Reaches b)
  (hwin : Window f f' b pre mid mid' post σ) (hs : Shape f f' v pre mid mid' σ)
include hf hwin hs

lemma Shape.merging : ∃ s r t, Merging f f' pre mid mid' σ v s r t := by
  have hnd := hf.sound.nodup hwin.before
  cases hs with
  | @drop pre v x s l hst hl hv =>
    refine ⟨s, l, x, hst, hv.isSome, by simp, by simp, hl, ?_, ?_, ⟨pre, [s, l], by simp, by simp⟩,
      by simp, fun d e _ _ => instead_inj, ?_, by simp⟩
    · rintro rfl
      simp [List.nodup_append] at hnd
    · intro u hu hne
      obtain rfl : u = l := by simpa [hne] using hu
      exact ⟨v, hl, hv.isSome⟩
    · rw [show (pre ++ [x]) ++ [s, l] = (pre ++ [x] ++ [s]) ++ [l] by simp, held_load hl hv.isSome]
  | @swap pre v x y s l₁ l₂ l₃ h₁ hst h₂ h₃ hx hy hyv hv h₁' h₂' =>
    have hne : ∀ {u w : Id}, f.live? u = some (.load w) → u ≠ s := by
      rintro u w hu rfl
      cases hu.symm.trans hst
    have h31 : l₃ ≠ l₁ := by
      rintro rfl
      simp [List.nodup_append] at hnd
    have h21 : l₂ ≠ l₁ := by
      rintro rfl
      simp [List.nodup_append] at hnd
    have h23 : l₂ ≠ l₃ := by
      rintro rfl
      simp [List.nodup_append] at hnd
    refine ⟨s, l₃, l₁, hst, hv.isSome, by simp, by simp, h₃, h31, ?_,
      ⟨pre, [s, l₂, l₃], by simp, by simp⟩, by simp, fun d e _ _ => instead_inj, ?_, ?_⟩
    · intro u hu hus
      simp only [List.mem_cons, List.not_mem_nil, or_false] at hu
      rcases hu with rfl | rfl | rfl | rfl
      · exact ⟨x, h₁, hx⟩
      · exact absurd rfl hus
      · exact ⟨y, h₂, hy⟩
      · exact ⟨v, h₃, hv.isSome⟩
    · rw [show pre ++ [l₁, s, l₂, l₃] = (pre ++ [l₁, s, l₂]) ++ [l₃] by simp,
        held_load h₃ hv.isSome]
    · intro i hi
      left
      rcases List.mem_pair.mp hi with rfl | rfl
      · exact ⟨i, y, by simp, hne h₂, h21, instead_of_ne h23, hy, Or.inl h₂'⟩
      · exact ⟨l₃, x, by simp, hne h₃, h31, by simp, hx, Or.inl h₁'⟩
  | @pair pre v x m s a c p hst ha hc hm hmv hv hp hfresh =>
    have hx := hf.sound.operands hst x (by simp [Payload.operands])
    refine ⟨s, c, x, merging_of_loads hnd hst ha hc hm hv.isSome hx hfresh fun i hi => ?_⟩
    obtain rfl : i = p := by simpa using hi
    exact Or.inl ⟨rfl, hp⟩
  | @double pre v x s a c p hst ha hc hv hst' hp hfresh =>
    have hx := hf.sound.operands hst x (by simp [Payload.operands])
    refine ⟨s, c, x, merging_of_loads hnd hst ha hc hv.isSome hv.isSome hx hfresh fun i hi => ?_⟩
    rcases List.mem_pair.mp hi with rfl | rfl
    · exact Or.inr ⟨rfl, hst', rfl, rfl⟩
    · exact Or.inl ⟨rfl, hp⟩

omit hs in
lemma Window.live_pre (hr : f.Reaches b) (hi : i ∈ pre) : f'.live? i = f.live? i := by
  rw [hwin.live_map (hwin.disjoint hf.sound (Or.inl hi))]
  cases hx : f.live? i with
  | none => rfl
  | some x =>
    rw [Option.map_some, Payload.rename_of_fixed]
    intro op hop
    obtain ⟨p, q, hpq⟩ := List.append_of_mem hi
    have hl : f.listing? b = some (p ++ i :: (q ++ (mid ++ post))) := by
      rw [hwin.before, hpq]
      simp
    apply hwin.fixed
    rcases hf.wellFormed.ordered hr hl hx op hop with hv | hin
    · exact (hwin.var hf.sound hv).1
    · exact (hwin.disjoint hf.sound (Or.inl (by simp [hpq, hin]))).1

omit hs in
lemma Window.live_other (hc : f.Reaches c) (hcb : c ≠ b) (hl : f.listing? c = some l)
    (hi : i ∈ l) : f'.live? i = f.live? i := by
  rw [hwin.live_map (hwin.other hf.sound hcb hl hi)]
  cases hx : f.live? i with
  | none => rfl
  | some x =>
    rw [Option.map_some, Payload.rename_of_fixed]
    intro op hop
    obtain ⟨p, q, rfl⟩ := List.append_of_mem hi
    apply hwin.fixed
    rcases hf.wellFormed.ordered hc hl hx op hop with hv | hin
    · exact (hwin.var hf.sound hv).1
    · exact (hwin.other hf.sound hcb hl (by simp [hin])).1

lemma Window.varOf?_operand (hx : f.live? u = some x) {d : Id} (hd : d ∈ x.operands) :
    (f'.varOf? (σ d)).isSome = (f.varOf? d).isSome := by
  by_cases hm : d ∈ mid
  · have hmem : σ d ∈ pre ++ (mid' ++ post) := by
      rcases (hwin.operand hf.sound hf.wellFormed hs hf.storeless hx hd).2.1 hm with hin | hin
      · simp [hin]
      · simp [hin]
    rw [hwin.sound.varOf?_of_mem hwin.listing_self hmem,
      hf.sound.varOf?_of_mem hwin.before (by simp [hm])]
  · rw [hwin.fixed d hm, hwin.vars]

omit hs in
lemma Window.held_pre (hr : f.Reaches b) {p q : List Id} (hpq : pre = p ++ q) :
    f'.held p = f.held p :=
  held_congr (fun _ hu => hwin.live_pre hf hr (by simp [hpq, hu])) hwin.vars

include hset hr

omit hf hs in
lemma Window.held_stored {s t : Id} {p q : List Id} (hst : f.live? s = some (.store v t))
    (hv : (f.varOf? v).isSome) (hp : pre ++ mid = p ++ s :: q) : (f.held p).a = some t := by
  have hl : f.listing? b = some (p ++ s :: (q ++ post)) := by
    rw [hwin.before, ← List.append_assoc, hp]
    simp
  have hin := hset.inPlace hr hl hst
  rwa [needs_store hv] at hin

lemma Shape.carries : Held.Carries f.Seconds σ (f.held (pre ++ mid)) (f'.held (pre ++ mid')) := by
  have hpre : f'.held pre = f.held pre := hwin.held_pre hf hr (q := []) (by simp)
  have hvars : ∀ {w : Id}, (f.varOf? w).isSome → (f'.varOf? w).isSome := by
    intro w hw
    rwa [hwin.vars]
  have hnd := hf.sound.nodup hwin.before
  cases hs with
  | @drop pre v x s l hst hl hv =>
    have hx := hwin.held_stored hset hr hst hv.isSome (p := pre ++ [x]) (q := [l]) rfl
    have hold : f.held ((pre ++ [x]) ++ [s, l]) = ⟨some l, some x⟩ := by
      rw [show (pre ++ [x]) ++ [s, l] = (pre ++ [x] ++ [s]) ++ [l] by simp, held_load hl hv.isSome,
        held_store hst hv.isSome, hx]
    rw [hold, List.append_nil, hpre]
    refine ⟨fun y hy => ?_, fun y hB hy => ?_⟩
    · obtain rfl := Option.some.inj hy
      rw [hx, instead_self]
    · obtain rfl := Option.some.inj hy
      exact absurd hB (hset.not_seconds_of_store hst hv.isSome)
  | @swap pre v x y s l₁ l₂ l₃ h₁ hst h₂ h₃ hx hy hyv hv h₁' h₂' =>
    have hold : f.held (pre ++ [l₁, s, l₂, l₃]) = ⟨some l₃, some l₂⟩ := by
      rw [show pre ++ [l₁, s, l₂, l₃] = (pre ++ [l₁, s] ++ [l₂]) ++ [l₃] by simp,
        held_load h₃ hv.isSome, held_load h₂ hy]
    have hnew : f'.held (pre ++ [l₂, l₁]) = ⟨some l₁, some l₂⟩ := by
      rw [show pre ++ [l₂, l₁] = (pre ++ [l₂]) ++ [l₁] by simp, held_load h₁' (hvars hx),
        held_load h₂' (hvars hy)]
    rw [hold, hnew]
    refine ⟨fun k hk => ?_, fun k _ hk => ?_⟩
    · obtain rfl := Option.some.inj hk
      rw [instead_self]
    · obtain rfl := Option.some.inj hk
      rw [instead_of_ne]
      rintro rfl
      simp [List.nodup_append] at hnd
  | @pair pre v x m s a c p hst ha hc hm hmv hv hp hfresh =>
    have hx := hwin.held_stored hset hr hst hv.isSome (p := pre ++ [x]) (q := [a, c]) rfl
    have hold : f.held ((pre ++ [x]) ++ [s, a, c]) = ⟨some c, some a⟩ := by
      rw [show (pre ++ [x]) ++ [s, a, c] = (pre ++ [x] ++ [s] ++ [a]) ++ [c] by simp,
        held_load hc hv.isSome, held_load ha hm]
    have hca : c ≠ a := by
      rintro rfl
      simp [List.nodup_append] at hnd
    rw [hold, held_loadPair hp, hpre]
    refine ⟨fun k hk => ?_, fun k _ hk => ?_⟩
    · obtain rfl := Option.some.inj hk
      rw [hx]
      simp [paired, hca]
    · obtain rfl := Option.some.inj hk
      simp [paired]
  | @double pre v x s a c p hst ha hc hv hst' hp hfresh =>
    have hx := hwin.held_stored hset hr hst hv.isSome (p := pre ++ [x]) (q := [a, c]) rfl
    have hold : f.held ((pre ++ [x]) ++ [s, a, c]) = ⟨some c, some a⟩ := by
      rw [show (pre ++ [x]) ++ [s, a, c] = (pre ++ [x] ++ [s] ++ [a]) ++ [c] by simp,
        held_load hc hv.isSome, held_load ha hv.isSome]
    have hnew : f'.held ((pre ++ [x]) ++ [s, p]) = ⟨some x, some p⟩ := by
      rw [show (pre ++ [x]) ++ [s, p] = (pre ++ [x] ++ [s]) ++ [p] by simp, held_loadPair hp,
        held_store hst' (hvars hv.isSome), hpre, hx]
    have hca : c ≠ a := by
      rintro rfl
      simp [List.nodup_append] at hnd
    rw [hold, hnew]
    refine ⟨fun k hk => ?_, fun k _ hk => ?_⟩
    · obtain rfl := Option.some.inj hk
      simp [paired, hca]
    · obtain rfl := Option.some.inj hk
      simp [paired]

lemma Window.carries {p q : List Id} (hpq : post = p ++ q) :
    Held.Carries f.Seconds σ (f.held (pre ++ mid ++ p)) (f'.held (pre ++ mid' ++ p)) := by
  induction p using List.reverseRecOn generalizing q with
  | nil => simpa using hs.carries hf hset hr hwin
  | append_singleton p u ih =>
    have hu : u ∈ post := by simp [hpq]
    have hdis := hwin.disjoint hf.sound (Or.inr hu)
    have hp := ih (q := u :: q) (by simpa using hpq)
    rw [← List.append_assoc, ← List.append_assoc, held_concat, held_concat, track, track,
      hwin.live_map hdis]
    cases hx : f.live? u with
    | none => exact hp
    | some x =>
      rw [Option.map_some]
      dsimp only
      rw [leaves_rename fun d hd => hwin.varOf?_operand hf hs hx hd]
      exact carries_leaves hp (hwin.fixed u hdis.1)

omit hset in
lemma Window.runs_old (hu : f'.Runs u) (hm' : u ∉ mid') : f.Runs u ∧ u ∉ mid := by
  obtain ⟨c, l, hc, hl, hul⟩ := hu
  rw [hwin.reaches_iff hf.sound hf.wellFormed hr hs] at hc
  by_cases hcb : c = b
  · subst hcb
    obtain rfl := Option.some.inj (hwin.listing_self.symm.trans hl)
    have hside : u ∈ pre ∨ u ∈ post := by
      simp only [List.mem_append] at hul
      tauto
    refine ⟨⟨c, _, hc, hwin.before, ?_⟩, (hwin.disjoint hf.sound hside).1⟩
    simp only [List.mem_append]
    tauto
  · rw [hwin.listing_of_ne hcb] at hl
    exact ⟨⟨c, l, hc, hl, hul⟩, (hwin.other hf.sound hcb hl hul).1⟩

omit hset in
lemma Window.runs_new (hu : u ∈ mid' ∨ f.Runs u ∧ u ∉ mid) : f'.Runs u := by
  have hreach := fun c => hwin.reaches_iff (c := c) hf.sound hf.wellFormed hr hs
  rcases hu with hu | ⟨⟨c, l, hc, hl, hul⟩, hm⟩
  · exact ⟨b, _, (hreach b).mpr hr, hwin.listing_self, by simp [hu]⟩
  · by_cases hcb : c = b
    · subst hcb
      obtain rfl := Option.some.inj (hwin.before.symm.trans hl)
      refine ⟨c, _, (hreach c).mpr hc, hwin.listing_self, ?_⟩
      simp only [List.mem_append] at hul ⊢
      tauto
    · exact ⟨c, l, (hreach c).mpr hc, by rw [hwin.listing_of_ne hcb, hl], hul⟩

omit hset hr hf hs in
lemma Window.not_mem_new (hu : (f.at? u).isSome) (hm : u ∉ mid) : u ∉ mid' := by
  intro hm'
  rcases hwin.fresh u hm' with hin | hnone
  · exact hm hin
  · rw [hnone] at hu
    cases hu

omit hset hr hf hs in
lemma Window.users_keep (hu : u ∈ f.users i) (hm : u ∉ mid) : u ∈ f'.users (σ i) := by
  obtain ⟨x, hx, hop⟩ := hu
  refine ⟨x.rename σ, ?_, ?_⟩
  · rw [hwin.live_map ⟨hm, hwin.not_mem_new (at?_isSome_of_live hx) hm⟩, hx]
    rfl
  · rw [Payload.operands_rename]
    exact List.mem_map_of_mem hop

omit hset hr hf hs in
lemma Window.users_cases (hu : u ∈ f'.users i) :
    u ∈ mid' ∨ u ∉ mid ∧ u ∉ mid' ∧ ∃ d, u ∈ f.users d ∧ σ d = i := by
  obtain ⟨y, hy, hop⟩ := hu
  refine (hwin.live_cases hy).imp_right ?_
  rintro ⟨hm, hm', x, hx, rfl⟩
  rw [Payload.operands_rename] at hop
  obtain ⟨d, hd, rfl⟩ := List.mem_map.mp hop
  exact ⟨hm, hm', d, ⟨x, hx, hd⟩, rfl⟩

omit hset hr hf hwin hs in
lemma Merging.user_of_mem {s r t d : Id} (hm : Merging f f' pre mid mid' σ v s r t) (hu : u ∈ mid)
    (hud : u ∈ f.users d) (hd : f.varOf? d = none) : u = s ∧ d = t := by
  obtain ⟨x, hx, hop⟩ := hud
  by_cases hus : u = s
  · subst hus
    obtain rfl := Option.some.inj (hx.symm.trans hm.store)
    refine ⟨rfl, ?_⟩
    have hdt : d = v ∨ d = t := by simpa [Payload.operands] using hop
    refine hdt.resolve_left ?_
    rintro rfl
    have := hm.var
    rw [hd] at this
    cases this
  · obtain ⟨w, hw, hvar⟩ := hm.loads u hu hus
    obtain rfl := Option.some.inj (hx.symm.trans hw)
    obtain rfl : d = w := by simpa [Payload.operands] using hop
    rw [hd] at hvar
    cases hvar

omit hs in
lemma Merging.users_target {s r t : Id} (hm : Merging f f' pre mid mid' σ v s r t)
    (hu : u ∈ f.users t) : u = s := by
  obtain ⟨P, Q, hPQ, hQ⟩ := hm.target
  have hl : f.listing? b = some (P ++ t :: (Q ++ post)) := by
    rw [hwin.before, ← List.append_assoc, hPQ]
    simp
  have hvar := hf.sound.varOf?_of_mem hl (j := t) (by simp)
  obtain ⟨p, q, hpq⟩ := List.append_of_mem (List.mem_append_right pre hm.mem_store)
  obtain ⟨-, x, hx, hp⟩ := produces_of_held (Or.inl (hwin.held_stored hset hr hm.store hm.var hpq))
  rcases List.mem_append.mp (hset.behind hf hr hl hx hp hu) with hin | hin
  · exact (hm.user_of_mem (hQ u hin) hu hvar).1
  · exfalso
    obtain ⟨p, q, rfl⟩ := List.append_of_mem hin
    obtain ⟨y, hy, hop⟩ := hu
    have hlu : f.listing? b = some ((pre ++ mid ++ p) ++ u :: q) := by
      rw [hwin.before]
      simp
    have hruns : f.Runs u := ⟨b, _, hr, hlu, by simp⟩
    have hneed : t ∈ f.needs y := by
      refine ((mem_operands_iff f).mp hop).resolve_right fun hn => ?_
      have := hset.named hruns hy t hn
      rw [hvar] at this
      cases this
    rcases (hset.inPlace hr hlu hy).cases hneed with ha | ⟨z, hz, -⟩
    · have htp : t ∉ p := by
        intro hmem
        have := (hf.sound.not_mem_pre hl).2
        simp [hmem] at this
      rw [held_append] at ha
      exact hm.ne (Option.some.inj (hm.last.symm.trans (foldl_track_a htp ha)))
    · exact hset.not_seconds_of_store hm.store hm.var ⟨u, y, z, hruns, hy, hz⟩

lemma Window.inPlace : f'.InPlace := by
  intro c p u q x' hc hl hx'
  rw [hwin.reaches_iff hf.sound hf.wellFormed hr hs] at hc
  by_cases hcb : c = b
  · subst hcb
    have heq : p ++ u :: q = pre ++ (mid' ++ post) :=
      Option.some.inj (hl.symm.trans hwin.listing_self)
    have hplace : ∀ {A B : List Id}, pre ++ (mid' ++ post) = A ++ u :: B → p = A := by
      intro A B hAB
      exact (hwin.sound.split_unique hl (by rw [hwin.listing_self, hAB])).1
    have hu : u ∈ pre ++ (mid' ++ post) := by simp [← heq]
    rcases List.mem_append.mp hu with hup | hup
    · obtain ⟨A, B, hAB⟩ := List.append_of_mem hup
      obtain rfl := hplace (A := A) (B := B ++ (mid' ++ post)) (by simp [hAB])
      rw [hwin.live_pre hf hr hup] at hx'
      rw [hwin.held_pre hf hr hAB, needs_congr fun d _ => hwin.vars d]
      have hold : f.listing? c = some (p ++ u :: (B ++ (mid ++ post))) := by
        rw [hwin.before, hAB]
        simp
      exact hset.inPlace hr hold hx'
    · by_cases hm' : u ∈ mid'
      · obtain ⟨s, r, t, hm⟩ := hs.merging hf hwin
        have hvars : ∀ {w : Id}, (f.varOf? w).isSome → (f'.varOf? w).isSome := by
          intro w hw
          rwa [hwin.vars]
        rcases hm.new u hm' with ⟨d, w, -, -, -, -, hw, hload | hload⟩ |
          ⟨rfl, hst, ⟨k, hmid'⟩, a, -, hmid⟩
        · obtain rfl := Option.some.inj (hx'.symm.trans hload)
          rw [needs_load (hvars hw)]
          trivial
        · obtain rfl := Option.some.inj (hx'.symm.trans hload)
          trivial
        · obtain rfl := hplace (A := pre) (B := k :: post) (by simp [hmid'])
          obtain rfl := Option.some.inj (hx'.symm.trans hst)
          rw [needs_store (hvars hm.var), hwin.held_pre hf hr (q := []) (by simp)]
          exact hwin.held_stored hset hr hm.store hm.var (q := [a, r]) (by rw [hmid])
      · have hupost := (List.mem_append.mp hup).resolve_left hm'
        obtain ⟨A, B, hAB⟩ := List.append_of_mem hupost
        obtain rfl := hplace (A := pre ++ mid' ++ A) (B := B) (by simp [hAB])
        obtain ⟨-, -, x, hx, rfl⟩ := (hwin.live_cases hx').resolve_left hm'
        have hlu : f.listing? c = some ((pre ++ mid ++ A) ++ u :: B) := by
          rw [hwin.before, hAB]
          simp
        have hin := hset.inPlace hr hlu hx
        obtain ⟨ha, hb⟩ := hwin.carries hf hset hr hs hAB
        rw [needs_rename fun d hd => hwin.varOf?_operand hf hs hx hd]
        match hn : f.needs x, hin with
        | [], _ => trivial
        | [z], hz => exact ha z hz
        | [y, z], ⟨hy, hz⟩ => exact ⟨hb y ⟨u, x, z, ⟨c, _, hr, hlu, by simp⟩, hx, hn⟩ hy, ha z hz⟩
  · rw [hwin.listing_of_ne hcb] at hl
    have hlive : ∀ j ∈ p ++ u :: q, f'.live? j = f.live? j :=
      fun j hj => hwin.live_other hf hc hcb hl hj
    rw [hlive u (by simp)] at hx'
    rw [needs_congr fun d _ => hwin.vars d, held_congr (fun j hj => hlive j (by simp [hj])) hwin.vars]
    exact hset.inPlace hc hl hx'

omit hset in
lemma Window.binary_old {x' : Payload} {y' z' : Id} (hu : f'.Runs u) (hx' : f'.live? u = some x')
    (hneeds : f'.needs x' = [y', z']) : ∃ x y z, f.Runs u ∧ u ∉ mid ∧ f.live? u = some x ∧
      f.needs x = [y, z] ∧ x' = x.rename σ ∧ σ y = y' ∧ σ z = z' := by
  obtain ⟨s, r, t, hm⟩ := hs.merging hf hwin
  have hvars : ∀ {w : Id}, (f.varOf? w).isSome → (f'.varOf? w).isSome := by
    intro w hw
    rwa [hwin.vars]
  have hm' : u ∉ mid' := by
    intro hm'
    rcases hm.new u hm' with ⟨d', w, -, -, -, -, hw, hload | hload⟩ | ⟨rfl, hst, -⟩
    · obtain rfl := Option.some.inj (hx'.symm.trans hload)
      simp [needs_load (hvars hw)] at hneeds
    · obtain rfl := Option.some.inj (hx'.symm.trans hload)
      cases hneeds
    · obtain rfl := Option.some.inj (hx'.symm.trans hst)
      simp [needs_store (hvars hm.var)] at hneeds
  obtain ⟨hru, hum⟩ := hwin.runs_old hf hr hs hu hm'
  obtain ⟨-, -, x, hx, rfl⟩ := (hwin.live_cases hx').resolve_left hm'
  rw [needs_rename fun d hd => hwin.varOf?_operand hf hs hx hd] at hneeds
  match hn : f.needs x, hneeds with
  | [y, z], hneeds =>
    obtain ⟨rfl, rfl⟩ : σ y = y' ∧ σ z = z' := by simpa using hneeds
    exact ⟨x, y, z, hru, hum, hx, hn, rfl, rfl, rfl⟩

omit hr hwin hs in
lemma Settled.varOf?_second (hru : f.Runs u) (hx : f.live? u = some x) (hn : f.needs x = [y, z]) :
    f.varOf? y = none := by
  obtain ⟨c, l, hc, hl, hul⟩ := hru
  obtain ⟨p, q, rfl⟩ := List.append_of_mem hul
  have hin := hset.inPlace hc hl hx
  rw [hn] at hin
  obtain ⟨hmem, -⟩ := produces_of_held (Or.inr hin.1)
  exact hf.sound.varOf?_of_mem hl (by simp [hmem])

lemma Window.single {x' : Payload} {y' z' : Id} (hu : f'.Runs u) (hx' : f'.live? u = some x')
    (hneeds : f'.needs x' = [y', z']) : f'.users y' = {u} ∧ y' ≠ z' := by
  obtain ⟨s, r, t, hm⟩ := hs.merging hf hwin
  obtain ⟨x, y, z, hru, hum, hx, hn, rfl, rfl, rfl⟩ := hwin.binary_old hf hr hs hu hx' hneeds
  obtain ⟨huy, hyz⟩ := hset.single hru hx hn
  have hsecond : f.Seconds y := ⟨u, x, z, hru, hx, hn⟩
  have hop : ∀ d ∈ [y, z], d ∈ x.operands :=
    fun d hd => (mem_operands_iff f).mpr (Or.inl (hn ▸ hd))
  have hat : ∀ {w d : Id}, w ∈ f.users d → (f.at? d).isSome :=
    fun ⟨_, hw, hd⟩ => hf.sound.operands hw _ hd
  have huser : ∀ d ∈ [y, z], u ∈ f.users d := fun d hd => ⟨x, hx, hop d hd⟩
  have hyt : y ≠ t := by
    rintro rfl
    exact hset.not_seconds_of_store hm.store hm.var hsecond
  have hmerge : ∀ {w d : Id}, w ∈ f.users d → w ∉ mid → σ d = σ y → d = y := by
    intro w d hw hwm hdy
    rcases hm.inj d y (hat hw) (hat (huser y (by simp))) hdy with h' | ⟨-, h'⟩ | ⟨hdt, -⟩
    · exact h'
    · exact absurd h' hyt
    · rw [hdt] at hw
      rw [hm.users_target hf hset hr hwin hw] at hwm
      exact absurd hm.mem_store hwm
  constructor
  · ext w
    constructor
    · intro hw
      rcases hwin.users_cases hw with hwm | ⟨hwm, -, d, hwd, hdy⟩
      · exfalso
        have hσvar : f'.varOf? (σ y) = none := by
          have hiff := hwin.varOf?_operand hf hs hx (hop y (by simp))
          rw [hset.varOf?_second hf hru hx hn] at hiff
          simpa using hiff
        obtain ⟨k, hk, hyk⟩ := hw
        rcases hm.new w hwm with ⟨d', e, -, -, -, -, he, hload | hload⟩ | ⟨rfl, hst, -, a, ha, hmid⟩
        · obtain rfl := Option.some.inj (hk.symm.trans hload)
          have hye : σ y = e := by simpa [Payload.operands] using hyk
          rw [hye, hwin.vars] at hσvar
          rw [hσvar] at he
          cases he
        · obtain rfl := Option.some.inj (hk.symm.trans hload)
          have hye : σ y = e := by simpa [Payload.operands] using hyk
          rw [hye, hwin.vars] at hσvar
          rw [hσvar] at he
          cases he
        · obtain rfl := Option.some.inj (hk.symm.trans hst)
          have hye : σ y = v ∨ σ y = t := by simpa [Payload.operands] using hyk
          rcases hye with hye | hye
          · have := hm.var
            rw [← hwin.vars, ← hye, hσvar] at this
            cases this
          · have hry : y = r := by
              rcases hm.inj y r (hat (huser y (by simp))) (at?_isSome_of_live hm.reload)
                (by rw [hye, hm.into]) with h' | ⟨h', -⟩ | ⟨h', -⟩
              · exact h'
              · exact h'
              · exact absurd h' hyt
            rw [hry] at hsecond
            have hl : f.listing? b = some (((pre ++ [w]) ++ [a]) ++ r :: post) := by
              rw [hwin.before, hmid]
              simp
            exact hset.not_seconds_of_loads hf hr hl ha hm.reload hm.var hsecond
      · obtain rfl := hmerge hwd hwm hdy
        rwa [huy] at hwd
    · rintro rfl
      exact hwin.users_keep (huser y (by simp)) hum
  · intro hσ
    exact hyz (hmerge (huser z (by simp)) hum hσ.symm).symm

/-- Rewriting keeps the values in place. -/
theorem Window.settled : Settled f' := by
  obtain ⟨s, r, t, hm⟩ := hs.merging hf hwin
  have hvars : ∀ {w : Id}, (f.varOf? w).isSome → (f'.varOf? w).isSome := by
    intro w hw
    rwa [hwin.vars]
  have hvar : ∀ {i : Id}, i ∈ mid → f.varOf? i = none :=
    fun hi => hf.sound.varOf?_of_mem hwin.before (by simp [hi])
  have hmoved : ∀ {d : Id}, d ∈ mid → d ≠ s → d ≠ t → (f'.users (σ d)).Nonempty := by
    intro d hd hds hdt
    obtain ⟨w, hw, -⟩ := hm.loads d hd hds
    obtain ⟨u, hu⟩ := hset.used ⟨b, _, _, hr, hwin.before, by simp [hd], hw, rfl⟩
    exact ⟨u, hwin.users_keep hu fun hum => hdt (hm.user_of_mem hum hu (hvar hd)).2⟩
  have hrs : r ≠ s := by
    rintro rfl
    cases hm.reload.symm.trans hm.store
  refine ⟨hwin.inPlace hf hset hr hs, ?_, ?_, ?_, ?_⟩
  · intro u x' hu hx' d hd
    by_cases hm' : u ∈ mid'
    · rcases hm.new u hm' with ⟨d', w, -, -, -, -, hw, hload | hload⟩ | ⟨rfl, hst, -⟩
      · obtain rfl := Option.some.inj (hx'.symm.trans hload)
        obtain rfl : d = w := by simpa [Func.named, hvars hw] using hd
        exact hvars hw
      · obtain rfl := Option.some.inj (hx'.symm.trans hload)
        obtain rfl : d = w := by simpa [Func.named] using hd
        exact hvars hw
      · obtain rfl := Option.some.inj (hx'.symm.trans hst)
        obtain rfl : d = v := by simpa [Func.named, hvars hm.var] using hd
        exact hvars hm.var
    · obtain ⟨hru, -⟩ := hwin.runs_old hf hr hs hu hm'
      obtain ⟨-, -, x, hx, rfl⟩ := (hwin.live_cases hx').resolve_left hm'
      rw [named_rename fun d hd => hwin.varOf?_operand hf hs hx hd] at hd
      obtain ⟨e, he, rfl⟩ := List.mem_map.mp hd
      rw [hwin.varOf?_operand hf hs hx ((mem_operands_iff f).mpr (Or.inr he))]
      exact hset.named hru hx e he
  · exact fun hu hx' hneeds => hwin.single hf hset hr hs hu hx' hneeds
  · rintro i ⟨c, l, x', hc, hl, hi, hx', hp⟩
    by_cases hm' : i ∈ mid'
    · rcases hm.new i hm' with ⟨d, w, hd, hds, hdt, rfl, -⟩ | ⟨rfl, hst, -⟩
      · exact hmoved hd hds hdt
      · obtain rfl := Option.some.inj (hx'.symm.trans hst)
        cases hp
    · obtain ⟨⟨c', l', hc', hl', hi'⟩, him⟩ := hwin.runs_old hf hr hs ⟨c, l, hc, hl, hi⟩ hm'
      obtain ⟨-, -, x, hx, rfl⟩ := (hwin.live_cases hx').resolve_left hm'
      rw [Payload.produces_rename] at hp
      obtain ⟨u, hu⟩ := hset.used ⟨c', l', x, hc', hl', hi', hx, hp⟩
      by_cases hum : u ∈ mid
      · obtain ⟨-, rfl⟩ := hm.user_of_mem hum hu (hf.sound.varOf?_of_mem hl' hi')
        have := hmoved hm.mem_load hrs hm.ne
        rwa [hm.into] at this
      · have := hwin.users_keep hu hum
        rw [hwin.fixed i him] at this
        exact ⟨u, this⟩
  · rintro i u ⟨c, l, x', hc, hl, hi, hx', hp⟩ hu
    apply hwin.runs_new hf hr hs
    refine (hwin.users_cases hu).imp_right ?_
    rintro ⟨hum, -, d, hud, rfl⟩
    refine ⟨hset.within ?_ hud, hum⟩
    obtain ⟨x, hx, hop⟩ := hud
    by_cases hd : d ∈ mid
    · have hds : d ≠ s := by
        rintro rfl
        exact hf.storeless hx d hop _ _ hm.store
      obtain ⟨w, hw, -⟩ := hm.loads d hd hds
      exact ⟨b, _, _, hr, hwin.before, by simp [hd], hw, rfl⟩
    · rw [hwin.fixed d hd] at hi hx'
      have hd' := hwin.not_mem_new (hf.sound.operands hx d hop) hd
      obtain ⟨⟨c', l', hc', hl', hi'⟩, -⟩ := hwin.runs_old hf hr hs ⟨c, l, hc, hl, hi⟩ hd'
      obtain ⟨-, -, y, hy, rfl⟩ := (hwin.live_cases hx').resolve_left hd'
      rw [Payload.produces_rename] at hp
      exact ⟨c', l', y, hc', hl', hi', hy, hp⟩

end Window

lemma Coalesces.settled (hf : Tidy f) (hset : Settled f) (h : Coalesces f g) : Settled g := by
  induction h with
  | refl => exact hset
  | tail hchain hstep ih =>
    obtain ⟨b, hr, v, pre, mid, mid', post, σ, hwin, hs⟩ := hstep
    exact hwin.settled (Coalesces.keeps hf hchain).1 ih hr hs

lemma Pruned.users_eq (h : Pruned f f') : f'.users i = f.users i := by
  ext u
  constructor
  · rintro ⟨x, hx, hop⟩
    rcases h.live u with hu | ⟨-, -, hu⟩
    · exact ⟨x, by rw [← hu, hx], hop⟩
    · simp [hu] at hx
  · rintro ⟨x, hx, hop⟩
    rcases h.live u with hu | ⟨hv, -, -⟩
    · exact ⟨x, by rw [hu, hx], hop⟩
    · rw [varOf?_of_live hx] at hv
      cases x <;> simp [Payload.asVar, Payload.operands] at hv hop

lemma Pruned.live_of_mem (hf : Tidy f) (h : Pruned f f') (hl : f.listing? c = some l) (hi : i ∈ l) :
    f'.live? i = f.live? i := by
  refine (h.live i).resolve_right fun hpruned => ?_
  exact hf.sound.var_ne hl hi hpruned.1 rfl

lemma Pruned.runs (hf : Tidy f) (h : Pruned f f') (hentry : f'.entry = f.entry) (hu : f'.Runs u) :
    f.Runs u ∧ f'.live? u = f.live? u := by
  obtain ⟨c, l, hc, hl, hul⟩ := hu
  rw [h.code] at hl
  exact ⟨⟨c, l, ((h.tidy hf hentry).2 c).mp hc, hl, hul⟩, h.live_of_mem hf hl hul⟩

lemma Pruned.settled (hf : Tidy f) (hset : Settled f) (h : Pruned f f') (hentry : f'.entry = f.entry) :
    Settled f' := by
  have hreach := (h.tidy hf hentry).2
  have hlive : ∀ {c l i}, f.listing? c = some l → i ∈ l → f'.live? i = f.live? i :=
    fun hl hi => h.live_of_mem hf hl hi
  have hruns : ∀ {u}, f'.Runs u → f.Runs u ∧ f'.live? u = f.live? u := h.runs hf hentry
  have hproducer : ∀ {i}, f'.Producer i → f.Producer i := by
    rintro i ⟨c, l, x, hc, hl, hi, hx, hp⟩
    rw [h.code] at hl
    exact ⟨c, l, x, (hreach c).mp hc, hl, hi, by rw [← hlive hl hi, hx], hp⟩
  constructor
  · intro c pre u post x hc hl hx
    rw [h.code] at hl
    rw [held_congr (fun j hj => hlive hl (by simp [hj])) h.vars, needs_congr fun d _ => h.vars d]
    exact hset.inPlace ((hreach c).mp hc) hl (by rw [← hlive hl (by simp), hx])
  · intro u x hu hx d hd
    obtain ⟨hru, heq⟩ := hruns hu
    rw [named_congr fun d _ => h.vars d] at hd
    rw [h.vars]
    exact hset.named hru (by rw [← heq, hx]) d hd
  · intro u x y z hu hx hneeds
    obtain ⟨hru, heq⟩ := hruns hu
    rw [needs_congr fun d _ => h.vars d] at hneeds
    rw [h.users_eq]
    exact hset.single hru (by rw [← heq, hx]) hneeds
  · intro i hi
    rw [h.users_eq]
    exact hset.used (hproducer hi)
  · intro i u hi hu
    rw [h.users_eq] at hu
    obtain ⟨c, l, hc, hl, hul⟩ := hset.within (hproducer hi) hu
    exact ⟨c, l, (hreach c).mpr hc, by rw [h.code, hl], hul⟩

/-- Coalescing keeps the values in place. -/
theorem Coalesced.settled (hf : Tidy f) (hset : Settled f) (h : Coalesced f f') : Settled f' := by
  obtain ⟨g, hchain, hp⟩ := h.chain
  obtain ⟨ht, hkept⟩ := hchain.keeps hf
  obtain ⟨slots, blocks, hg⟩ := hkept.frame
  obtain ⟨slots', blocks', locals', hf'⟩ := h.rest
  exact hp.settled ht (hchain.settled hf hset) (by rw [hf', hg])

end Func

end Accumulator.Flow
