import Mathlib.Data.BitVec

/-!
# Parts of a word

Some bits of a word, in any order and with any gaps, are a word of their own. What it means to read
and to write such a part, and how reading and writing go together.
-/

namespace Infra

/-- Which bits of a word of `n` bits make up a part, the lowest one first. -/
structure BitSlice (n : Nat) where
  width : Nat
  position : Nat → Nat
  position_lt : ∀ i < width, position i < n
  position_inj : ∀ i < width, ∀ j < width, position i = position j → i = j

namespace BitSlice

variable {n : Nat}

/-- The part of `r` is `x`. -/
def Gets (s : BitSlice n) (r x : BitVec n) : Prop :=
  ∀ j, x.getLsbD j = (decide (j < s.width) && r.getLsbD (s.position j))

/-- `r'` is `r` with another part, which is taken from `v`. -/
structure Puts (s : BitSlice n) (v r r' : BitVec n) : Prop where
  inside : ∀ i < s.width, r'.getLsbD (s.position i) = v.getLsbD i
  outside : ∀ j, (∀ i < s.width, s.position i ≠ j) → r'.getLsbD j = r.getLsbD j

/-- No bit is in both parts. -/
def Disjoint (s t : BitSlice n) : Prop := ∀ i < s.width, ∀ j < t.width, s.position i ≠ t.position j

variable {s t : BitSlice n} {v w r r' x : BitVec n}

theorem Puts.unique (h : s.Puts v r r') (h' : s.Puts v r x) : r' = x := by
  apply BitVec.eq_of_getLsbD_eq
  intro j _
  by_cases hj : ∃ i < s.width, s.position i = j
  · obtain ⟨i, hi, rfl⟩ := hj
    rw [h.inside i hi, h'.inside i hi]
  · have hout : ∀ i < s.width, s.position i ≠ j := fun i hi heq => hj ⟨i, hi, heq⟩
    rw [h.outside j hout, h'.outside j hout]

/-- What was written is read, as far as there is room for it. -/
theorem Puts.gets (h : s.Puts v r r') (hx : s.Gets r' x) : x = (v.setWidth s.width).setWidth n := by
  apply BitVec.eq_of_getLsbD_eq
  intro j hj
  rw [hx j, BitVec.getLsbD_setWidth, BitVec.getLsbD_setWidth]
  by_cases hwidth : j < s.width
  · simp [hwidth, hj, h.inside j hwidth]
  · simp [hwidth]

/-- To write what was read changes nothing. -/
theorem Gets.puts (h : s.Gets r x) : s.Puts x r r :=
  ⟨fun i hi => by simp [h i, hi], fun _ _ => rfl⟩

/-- The order of writes to disjoint parts does not matter. -/
theorem Puts.comm (hdisjoint : s.Disjoint t) {a b c d : BitVec n} (ha : s.Puts v r a)
    (hb : t.Puts w a b) (hc : t.Puts w r c) (hd : s.Puts v c d) : b = d := by
  refine hb.unique ⟨fun j hj => ?_, fun k hk => ?_⟩
  · rw [hd.outside _ fun i hi => hdisjoint i hi j hj, hc.inside j hj]
  · by_cases hs : ∃ i < s.width, s.position i = k
    · obtain ⟨i, hi, rfl⟩ := hs
      rw [hd.inside i hi, ha.inside i hi]
    · have hout : ∀ i < s.width, s.position i ≠ k := fun i hi heq => hs ⟨i, hi, heq⟩
      rw [hd.outside k hout, hc.outside k hk, ha.outside k hout]

end BitSlice

end Infra
