import Mathlib

/-!
# Walks in a binary trie

A finite set of things with numbered bits is a binary trie. A walk starts with the whole set and
at each bit keeps those that have the bit it turns to. Where all have the same bit there is
nothing to choose; at a fork a rule chooses.

`lastZero` is the last fork at which the walk turned to zero. Resuming a walk there (`resume`)
repeats the turns before it, turns to one, and from then on to zero. The main result is that this
visits the set in lexicographic order (`before_of_resume`, `agree_or_before_of_resume`).
-/

namespace Infra

/-- A finite set with numbered bits. -/
structure Trie (α : Type) where
  members : Finset α
  bit : α → Nat → Bool

namespace Trie

variable {α : Type} (T : Trie α) (rule rule' : Nat → Bool) {A : Finset α} {i j n : Nat} {s t u : α}

/-! ## Walks -/

/-- The members of `A` whose bit `i` is `b`. -/
def branch (A : Finset α) (i : Nat) (b : Bool) : Finset α := A.filter fun s => T.bit s i = b

/-- Both values of bit `i` occur. -/
def IsFork (A : Finset α) (i : Nat) : Prop :=
  (T.branch A i false).Nonempty ∧ (T.branch A i true).Nonempty

instance (A : Finset α) (i : Nat) : Decidable (T.IsFork A i) :=
  inferInstanceAs (Decidable (_ ∧ _))

/-- The bit that the walk turns to. -/
def turn (A : Finset α) (i : Nat) : Bool :=
  if T.IsFork A i then rule i else decide (T.branch A i true).Nonempty

/-- What is left after `n` turns. -/
def walk : Nat → Finset α
  | 0 => T.members
  | n + 1 => T.branch (walk n) n (T.turn rule (walk n) n)

/-- The turn at bit `i`. -/
def direction (i : Nat) : Bool := T.turn rule (T.walk rule i) i

/-- The walk meets a fork at bit `i`. -/
def ForkAt (i : Nat) : Prop := T.IsFork (T.walk rule i) i

instance (i : Nat) : Decidable (T.ForkAt rule i) :=
  inferInstanceAs (Decidable (T.IsFork (T.walk rule i) i))

/-- The last of the first `n` bits at which a fork was turned to zero, or `-1`. -/
def lastZero : Nat → Int
  | 0 => -1
  | n + 1 => if T.ForkAt rule n ∧ rule n = false then n else lastZero n

variable {T rule rule'}

theorem mem_branch {b : Bool} : s ∈ T.branch A i b ↔ s ∈ A ∧ T.bit s i = b := by
  rw [branch, Finset.mem_filter]

theorem isFork_of_ne (hs : s ∈ A) (ht : t ∈ A) (h : T.bit s i ≠ T.bit t i) : T.IsFork A i := by
  cases hb : T.bit s i with
  | false =>
    rw [hb] at h
    exact ⟨⟨s, mem_branch.mpr ⟨hs, hb⟩⟩, ⟨t, mem_branch.mpr ⟨ht, (Bool.eq_true_of_not_eq_false
      (Ne.symm h))⟩⟩⟩
  | true =>
    rw [hb] at h
    exact ⟨⟨t, mem_branch.mpr ⟨ht, (Bool.eq_false_of_not_eq_true (Ne.symm h))⟩⟩,
      ⟨s, mem_branch.mpr ⟨hs, hb⟩⟩⟩

theorem turn_of_isFork (h : T.IsFork A i) : T.turn rule A i = rule i := if_pos h

/-- Without a fork the walk goes where everything goes. -/
theorem turn_of_not_isFork (h : ¬ T.IsFork A i) (hs : s ∈ A) : T.turn rule A i = T.bit s i := by
  rw [turn, if_neg h]
  cases hb : T.bit s i with
  | true => exact decide_eq_true ⟨s, mem_branch.mpr ⟨hs, hb⟩⟩
  | false =>
    refine decide_eq_false fun hne => h ⟨⟨s, mem_branch.mpr ⟨hs, hb⟩⟩, hne⟩

theorem branch_turn_nonempty (h : A.Nonempty) : (T.branch A i (T.turn rule A i)).Nonempty := by
  by_cases hf : T.IsFork A i
  · rw [turn_of_isFork hf]
    cases rule i with
    | false => exact hf.1
    | true => exact hf.2
  · obtain ⟨s, hs⟩ := h
    rw [turn_of_not_isFork hf hs]
    exact ⟨s, mem_branch.mpr ⟨hs, rfl⟩⟩

theorem walk_nonempty (h : T.members.Nonempty) : ∀ n, (T.walk rule n).Nonempty
  | 0 => h
  | n + 1 => branch_turn_nonempty (walk_nonempty h n)

/-- **What is left are the members that have all the bits turned to.** -/
theorem mem_walk_iff : s ∈ T.walk rule n ↔
    s ∈ T.members ∧ ∀ i < n, T.bit s i = T.direction rule i := by
  induction n with
  | zero => simp [walk]
  | succ n ih =>
    rw [walk, mem_branch, ih]
    constructor
    · rintro ⟨⟨hs, hbits⟩, hn⟩
      refine ⟨hs, fun i hi => ?_⟩
      rcases Nat.lt_succ_iff_lt_or_eq.mp hi with hlt | rfl
      · exact hbits i hlt
      · exact hn
    · rintro ⟨hs, hbits⟩
      exact ⟨⟨hs, fun i hi => hbits i (by omega)⟩, hbits n (by omega)⟩

theorem mem_walk_of_le (h : s ∈ T.walk rule n) (hi : i ≤ n) : s ∈ T.walk rule i := by
  rw [mem_walk_iff] at h ⊢
  exact ⟨h.1, fun j hj => h.2 j (by omega)⟩

theorem mem_members_of_mem_walk (h : s ∈ T.walk rule n) : s ∈ T.members := (mem_walk_iff.mp h).1

theorem direction_of_forkAt (h : T.ForkAt rule i) : T.direction rule i = rule i :=
  turn_of_isFork h

theorem forkAt_of_ne (hs : s ∈ T.walk rule i) (ht : t ∈ T.walk rule i)
    (h : T.bit s i ≠ T.bit t i) : T.ForkAt rule i := isFork_of_ne hs ht h

/-! ## Two rules -/

/-- Rules that turn the same way leave the same members. -/
theorem walk_eq_of_direction (h : ∀ i < n, T.direction rule i = T.direction rule' i) :
    T.walk rule n = T.walk rule' n := by
  induction n with
  | zero => rfl
  | succ n ih =>
    have hn := h n (by omega)
    have hw := ih fun i hi => h i (by omega)
    show T.branch (T.walk rule n) n (T.direction rule n) = T.branch _ n (T.direction rule' n)
    rw [hn, hw]

/-- **Two rules lead the same way exactly when they agree at the forks that are met.** -/
theorem direction_eq_iff : (∀ i < n, T.direction rule i = T.direction rule' i) ↔
    ∀ i < n, T.ForkAt rule i → rule i = rule' i := by
  constructor
  · intro h i hi hf
    have hw : T.walk rule i = T.walk rule' i := walk_eq_of_direction fun j hj => h j (by omega)
    have hf' : T.ForkAt rule' i := by
      unfold ForkAt at hf ⊢
      rwa [← hw]
    rw [← direction_of_forkAt hf, ← direction_of_forkAt hf', h i hi]
  · intro h
    induction n with
    | zero => intro i hi; omega
    | succ n ih =>
      have hlow := ih fun i hi => h i (by omega)
      intro i hi
      rcases Nat.lt_succ_iff_lt_or_eq.mp hi with hlt | rfl
      · exact hlow i hlt
      · have hw := walk_eq_of_direction hlow
        unfold direction
        rw [← hw]
        by_cases hf : T.IsFork (T.walk rule i) i
        · rw [turn_of_isFork hf, turn_of_isFork hf, h i (by omega) hf]
        · rw [turn, turn, if_neg hf, if_neg hf]

theorem forkAt_iff_of_direction (h : ∀ j < i, T.direction rule j = T.direction rule' j) :
    T.ForkAt rule i ↔ T.ForkAt rule' i := by
  unfold ForkAt
  rw [walk_eq_of_direction h]

theorem lastZero_eq_of_direction (h : ∀ i < n, T.direction rule i = T.direction rule' i) :
    T.lastZero rule n = T.lastZero rule' n := by
  induction n with
  | zero => rfl
  | succ n ih =>
    have hf := forkAt_iff_of_direction fun j hj => h j (Nat.lt_succ_of_lt hj)
    rw [lastZero, lastZero, ih fun i hi => h i (by omega)]
    by_cases hfork : T.ForkAt rule n
    · have hn := h n (by omega)
      rw [direction_of_forkAt hfork, direction_of_forkAt (hf.mp hfork)] at hn
      simp only [hn, hfork, hf.mp hfork]
    · rw [if_neg (fun h => hfork h.1), if_neg (fun h => hfork (hf.mpr h.1))]

/-! ## The last zero -/

theorem le_lastZero (hi : i < n) (hf : T.ForkAt rule i) (hz : rule i = false) :
    (i : Int) ≤ T.lastZero rule n := by
  induction n with
  | zero => omega
  | succ n ih =>
    rw [lastZero]
    split
    · omega
    · next h =>
      rcases Nat.lt_succ_iff_lt_or_eq.mp hi with hlt | rfl
      · exact ih hlt
      · exact absurd ⟨hf, hz⟩ h

theorem lastZero_cases (T : Trie α) (rule : Nat → Bool) (n : Nat) :
    T.lastZero rule n = -1 ∨
      ∃ d < n, T.lastZero rule n = (d : Int) ∧ T.ForkAt rule d ∧ rule d = false := by
  induction n with
  | zero => exact Or.inl rfl
  | succ n ih =>
    rw [lastZero]
    split
    · next h => exact Or.inr ⟨n, by omega, rfl, h.1, h.2⟩
    · rcases ih with h | ⟨d, hd, h⟩
      · exact Or.inl h
      · exact Or.inr ⟨d, by omega, h⟩

/-! ## Lexicographic order -/

/-- `s` and `t` have the same first `n` bits. -/
def Agree (T : Trie α) (n : Nat) (s t : α) : Prop := ∀ i < n, T.bit s i = T.bit t i

/-- At the first of the `n` bits in which they differ, `s` has a zero and `t` a one. -/
def Before (T : Trie α) (n : Nat) (s t : α) : Prop :=
  ∃ i < n, T.Agree i s t ∧ T.bit s i = false ∧ T.bit t i = true

instance (T : Trie α) (n : Nat) (s t : α) : Decidable (T.Agree n s t) :=
  inferInstanceAs (Decidable (∀ i < n, _))

instance (T : Trie α) (n : Nat) (s t : α) : Decidable (T.Before n s t) :=
  inferInstanceAs (Decidable (∃ i < n, _))

theorem Before.irrefl : ¬ T.Before n s s := by
  rintro ⟨i, -, -, h0, h1⟩
  rw [h0] at h1
  exact Bool.false_ne_true h1

theorem Before.trans (h : T.Before n s t) (h' : T.Before n t u) : T.Before n s u := by
  obtain ⟨i, hi, hagree, hs, ht⟩ := h
  obtain ⟨j, hj, hagree', ht', hu⟩ := h'
  rcases Nat.lt_trichotomy i j with hlt | rfl | hgt
  · exact ⟨i, hi, fun k hk => (hagree k hk).trans (hagree' k (by omega)), hs,
      (hagree' i hlt).symm.trans ht⟩
  · rw [ht] at ht'
    exact absurd ht' Bool.true_eq_false_eq_False
  · exact ⟨j, hj, fun k hk => (hagree k (by omega)).trans (hagree' k hk),
      (hagree j hgt).trans ht', hu⟩

/-- Where two members part, the walk to the first meets a fork. -/
theorem agree_or_exists_fork (ht : t ∈ T.walk rule n) (hu : u ∈ T.members) :
    T.Agree n t u ∨ ∃ j < n, T.Agree j t u ∧ T.ForkAt rule j ∧ T.bit t j = rule j ∧
      T.bit u j = !rule j := by
  by_cases h : T.Agree n t u
  · exact Or.inl h
  · right
    have hex : ∃ j, j < n ∧ T.bit t j ≠ T.bit u j := by
      unfold Agree at h
      push Not at h
      exact h
    obtain ⟨j, ⟨hj, hne⟩, hmin⟩ : ∃ j, (j < n ∧ T.bit t j ≠ T.bit u j) ∧
        ∀ k < j, ¬ (k < n ∧ T.bit t k ≠ T.bit u k) :=
      ⟨Nat.find hex, Nat.find_spec hex, fun k hk => Nat.find_min hex hk⟩
    have hagree : T.Agree j t u := fun k hk => by
      by_contra hc
      exact hmin k hk ⟨by omega, hc⟩
    have htj := mem_walk_of_le ht (Nat.le_of_lt hj)
    have huj : u ∈ T.walk rule j :=
      mem_walk_iff.mpr ⟨hu, fun k hk => (hagree k hk).symm.trans ((mem_walk_iff.mp htj).2 k hk)⟩
    have hfork := forkAt_of_ne htj huj hne
    have hbit : T.bit t j = rule j := by
      rw [(mem_walk_iff.mp ht).2 j hj, direction_of_forkAt hfork]
    refine ⟨j, hj, hagree, hfork, hbit, ?_⟩
    rw [hbit] at hne
    exact Bool.eq_not_of_ne (Ne.symm hne)

/-! ## Resuming a walk -/

/-- The turns of `prev` before bit `d`, one at `d`, zero after it. -/
def resume (prev : Nat → Bool) (d : Int) (i : Nat) : Bool :=
  if (i : Int) < d then prev i else decide ((i : Int) = d)

theorem resume_of_lt {prev : Nat → Bool} {d : Int} (h : (i : Int) < d) :
    resume prev d i = prev i := if_pos h

theorem resume_self (prev : Nat → Bool) (i : Nat) : resume prev (i : Int) i = true := by
  simp [resume]

theorem resume_of_gt {prev : Nat → Bool} {d : Int} (h : d < (i : Int)) :
    resume prev d i = false := by
  rw [resume, if_neg (by omega)]
  exact decide_eq_false (by omega)

/-- The walk that always turns to zero finds the first member. -/
theorem agree_or_before_of_first {prev : Nat → Bool} (ht : t ∈ T.walk (resume prev (-1)) n)
    (hu : u ∈ T.members) : T.Agree n t u ∨ T.Before n t u := by
  rcases agree_or_exists_fork ht hu with h | ⟨j, hj, hagree, -, htj, huj⟩
  · exact Or.inl h
  · rw [resume_of_gt (by omega)] at htj huj
    exact Or.inr ⟨j, hj, hagree, htj, huj⟩

/-- A member behind `s` parts from it at the last zero of the walk to `s`, or earlier. -/
theorem le_lastZero_of_before (hs : s ∈ T.walk rule n) (hu : u ∈ T.members) (hi : i < n)
    (hagree : T.Agree i s u) (hsi : T.bit s i = false) (hui : T.bit u i = true) :
    (i : Int) ≤ T.lastZero rule n := by
  have hsw := mem_walk_of_le hs (Nat.le_of_lt hi)
  have huw : u ∈ T.walk rule i :=
    mem_walk_iff.mpr ⟨hu, fun k hk => (hagree k hk).symm.trans ((mem_walk_iff.mp hsw).2 k hk)⟩
  have hfork := forkAt_of_ne hsw huw (by rw [hsi, hui]; exact Bool.false_ne_true)
  refine le_lastZero hi hfork ?_
  rw [← direction_of_forkAt hfork, ← (mem_walk_iff.mp hs).2 i hi, hsi]

/-- Without a last zero there is no member behind. -/
theorem not_before_of_lastZero_neg (hs : s ∈ T.walk rule n) (hd : T.lastZero rule n = -1)
    (hu : u ∈ T.members) : ¬ T.Before n s u := by
  rintro ⟨i, hi, hagree, hsi, hui⟩
  have := le_lastZero_of_before hs hu hi hagree hsi hui
  omega

section resumed

variable {d : Nat} (hs : s ∈ T.walk rule n) (hd : d < n) (hfork : T.ForkAt rule d)
  (hzero : rule d = false) (hlast : T.lastZero rule n = (d : Int))
  (ht : t ∈ T.walk (resume (T.bit s) d) n)

include hs hd

/-- The resumed walk repeats the turns before the last zero. -/
theorem direction_resume : ∀ i < d, T.direction rule i = T.direction (resume (T.bit s) d) i := by
  refine direction_eq_iff.mpr fun i hi hf => ?_
  rw [resume_of_lt (by omega), (mem_walk_iff.mp hs).2 i (by omega), direction_of_forkAt hf]

include ht

theorem agree_of_resume : T.Agree d s t := by
  intro i hi
  rw [(mem_walk_iff.mp hs).2 i (by omega), (mem_walk_iff.mp ht).2 i (by omega)]
  exact direction_resume hs hd i hi

include hfork

theorem bit_of_resume : T.bit t d = true := by
  have hf : T.ForkAt (resume (T.bit s) d) d :=
    (forkAt_iff_of_direction (direction_resume hs hd)).mp hfork
  rw [(mem_walk_iff.mp ht).2 d hd, direction_of_forkAt hf, resume_self]

include hzero

/-- **The resumed walk finds a later member.** -/
theorem before_of_resume : T.Before n s t := by
  refine ⟨d, hd, agree_of_resume hs hd ht, ?_, bit_of_resume hs hd hfork ht⟩
  rw [(mem_walk_iff.mp hs).2 d hd, direction_of_forkAt hfork, hzero]

include hlast

/-- **It finds the next one: every later member is that one or behind it.** -/
theorem agree_or_before_of_resume (hu : u ∈ T.members) (h : T.Before n s u) :
    T.Agree n t u ∨ T.Before n t u := by
  have hst := agree_of_resume hs hd ht
  have htd := bit_of_resume hs hd hfork ht
  obtain ⟨i, hi, hagree, hsi, hui⟩ := h
  have hle := le_lastZero_of_before hs hu hi hagree hsi hui
  rw [hlast] at hle
  rcases Nat.lt_or_eq_of_le (Int.ofNat_le.mp hle) with hlt | rfl
  · -- they part before the last zero, where `t` still goes along with `s`
    exact Or.inr ⟨i, hi, fun k hk => (hst k (by omega)).symm.trans (hagree k hk),
      (hst i hlt).symm.trans hsi, hui⟩
  · -- they part at the last zero, and both `t` and `u` turn to one
    rcases agree_or_exists_fork ht hu with h | ⟨j, hj, hj', -, htj, huj⟩
    · exact Or.inl h
    · have hij : i < j := by
        by_contra hc
        rcases Nat.lt_or_eq_of_le (Nat.le_of_not_lt hc) with hlt | rfl
        · have h1 := (hst j hlt).symm.trans (hagree j hlt)
          rw [htj, huj] at h1
          cases hr : resume (T.bit s) (i : Int) j <;> rw [hr] at h1 <;> simp at h1
        · rw [resume_self] at huj
          rw [hui] at huj
          simp at huj
      rw [resume_of_gt (by omega)] at htj huj
      exact Or.inr ⟨j, hj, hj', htj, huj⟩

end resumed

end Trie

end Infra
