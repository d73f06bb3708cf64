import Owfs.Infra.Bytes

/-!
# Sorted tables

The order of names (`strcmp`), and how `bsearch` finds an entry in a sorted table.
-/

namespace Infra

/-! ## The order of names -/

/-- `strcmp`: the first byte that differs decides, and the end of a string is less than any byte. -/
def strcmp : Bytes → Bytes → Ordering
  | [], [] => .eq
  | [], _ :: _ => .lt
  | _ :: _, [] => .gt
  | a :: s, b :: t => if a < b then .lt else if b < a then .gt else strcmp s t

theorem strcmp_eq_iff (s t : Bytes) : strcmp s t = .eq ↔ s = t := by
  induction s generalizing t with
  | nil => cases t <;> simp [strcmp]
  | cons a s ih =>
    cases t with
    | nil => simp [strcmp]
    | cons b t =>
      rw [strcmp, List.cons.injEq, ← ih]
      by_cases hlt : a < b
      · simp [hlt, BitVec.ne_of_lt hlt]
      · by_cases hgt : b < a
        · simp [hlt, hgt, (BitVec.ne_of_lt hgt).symm]
        · simp [BitVec.le_antisymm (BitVec.not_lt.mp hgt) (BitVec.not_lt.mp hlt)]

theorem strcmp_gt_iff (s t : Bytes) : strcmp s t = .gt ↔ strcmp t s = .lt := by
  induction s generalizing t with
  | nil => cases t <;> simp [strcmp]
  | cons a s ih =>
    cases t with
    | nil => simp [strcmp]
    | cons b t =>
      rw [strcmp, strcmp]
      by_cases hlt : a < b
      · simp [hlt, BitVec.lt_asymm hlt]
      · by_cases hgt : b < a
        · simp [hlt, hgt]
        · simp [hlt, hgt, ih]

theorem strcmp_trans {s t u : Bytes} (hst : strcmp s t = .lt) (htu : strcmp t u = .lt) :
    strcmp s u = .lt := by
  induction s generalizing t u with
  | nil =>
    cases u with
    | nil =>
      rw [← strcmp_gt_iff] at htu
      cases t <;> simp [strcmp] at htu
    | cons c u => rfl
  | cons a s ih =>
    cases t with
    | nil => simp [strcmp] at hst
    | cons b t =>
      cases u with
      | nil => simp [strcmp] at htu
      | cons c u =>
        rw [strcmp] at hst htu ⊢
        grind

/-! ## `bsearch` -/

section

variable {α : Type} (compar : α → Ordering) (xs : List α)

/-- The loop of `bsearch`, between two positions. What it looks for is compared with an entry by
`compar`. -/
def bsearchFrom (l u : Nat) : Option α :=
  if l < u then
    match xs[(l + u) / 2]? with
    | none => none
    | some x =>
      match compar x with
      | .lt => bsearchFrom l ((l + u) / 2)
      | .gt => bsearchFrom ((l + u) / 2 + 1) u
      | .eq => some x
  else none
termination_by u - l

/-- `bsearch` -/
def bsearch : Option α := bsearchFrom compar xs 0 xs.length

variable {compar xs}

/-- Whatever is found is in the table, and is what was looked for. -/
theorem mem_of_bsearchFrom {l u : Nat} {x : α} (h : bsearchFrom compar xs l u = some x) :
    x ∈ xs ∧ compar x = .eq := by
  induction l, u using bsearchFrom.induct compar xs with
  | case1 l u hlt hnone =>
    rw [bsearchFrom, if_pos hlt, hnone] at h
    cases h
  | case2 l u hlt y hy hcmp ih =>
    rw [bsearchFrom, if_pos hlt, hy] at h
    simp only [hcmp] at h
    exact ih h
  | case3 l u hlt y hy hcmp ih =>
    rw [bsearchFrom, if_pos hlt, hy] at h
    simp only [hcmp] at h
    exact ih h
  | case4 l u hlt y hy hcmp =>
    rw [bsearchFrom, if_pos hlt, hy] at h
    simp only [hcmp, Option.some.injEq] at h
    subst h
    exact ⟨List.mem_of_getElem? hy, hcmp⟩
  | case5 l u hlt =>
    rw [bsearchFrom, if_neg hlt] at h
    cases h

/-- What is between the positions is found, in a table in which only one entry is what is looked for
and in which greater entries stand behind smaller ones. -/
theorem bsearchFrom_eq_some (hxs : xs.Pairwise fun a b => compar a ≠ .gt → compar b = .lt)
    {l u i : Nat} {x : α} (hx : xs[i]? = some x) (hcmp : compar x = .eq) (hl : l ≤ i) (hu : i < u)
    (hlen : u ≤ xs.length) :
    bsearchFrom compar xs l u = some x := by
  obtain ⟨hi, rfl⟩ := List.getElem?_eq_some_iff.mp hx
  rw [List.pairwise_iff_getElem] at hxs
  induction l, u using bsearchFrom.induct compar xs with
  | case1 l u hlt hnone =>
    rw [List.getElem?_eq_none_iff] at hnone
    omega
  | case2 l u hlt y hy hy' ih =>
    obtain ⟨hmid, rfl⟩ := List.getElem?_eq_some_iff.mp hy
    rw [bsearchFrom, if_pos hlt, hy]
    simp only [hy']
    -- the middle is greater than what is looked for, so this is not in the upper half
    have hne : i ≠ (l + u) / 2 := by
      rintro rfl
      simp [hy'] at hcmp
    have hnot : ¬(l + u) / 2 < i := by
      intro hlt'
      have := hxs _ _ hmid hi hlt' (by simp [hy'])
      simp [this] at hcmp
    exact ih hl (by omega) (by omega)
  | case3 l u hlt y hy hy' ih =>
    obtain ⟨hmid, rfl⟩ := List.getElem?_eq_some_iff.mp hy
    rw [bsearchFrom, if_pos hlt, hy]
    simp only [hy']
    have hne : i ≠ (l + u) / 2 := by
      rintro rfl
      simp [hy'] at hcmp
    have hnot : ¬i < (l + u) / 2 := by
      intro hlt'
      have := hxs _ _ hi hmid hlt' (by simp [hcmp])
      simp [this] at hy'
    exact ih (by omega) hu hlen
  | case4 l u hlt y hy hy' =>
    obtain ⟨hmid, rfl⟩ := List.getElem?_eq_some_iff.mp hy
    rw [bsearchFrom, if_pos hlt, hy]
    simp only [hy', Option.some.injEq]
    obtain hlt' | heq | hgt' := Nat.lt_trichotomy i ((l + u) / 2)
    · have := hxs _ _ hi hmid hlt' (by simp [hcmp])
      simp [this] at hy'
    · simp [heq]
    · have := hxs _ _ hmid hi hgt' (by simp [hy'])
      simp [this] at hcmp
  | case5 l u hlt => omega

theorem bsearch_eq_some_iff (hxs : xs.Pairwise fun a b => compar a ≠ .gt → compar b = .lt) (x : α) :
    bsearch compar xs = some x ↔ x ∈ xs ∧ compar x = .eq := by
  constructor
  · exact mem_of_bsearchFrom
  · rintro ⟨hx, hcmp⟩
    obtain ⟨i, hi, rfl⟩ := List.mem_iff_getElem.mp hx
    exact bsearchFrom_eq_some hxs (List.getElem?_eq_getElem hi) hcmp (Nat.zero_le _) hi le_rfl

end

/-- In a table that is sorted by its names `bsearch` finds the entry of a name. -/
theorem bsearch_strcmp {α : Type} {name : α → Bytes} {xs : List α}
    (hxs : xs.Pairwise fun a b => strcmp (name a) (name b) = .lt) (s : Bytes) (x : α) :
    bsearch (fun y => strcmp s (name y)) xs = some x ↔ x ∈ xs ∧ s = name x := by
  rw [bsearch_eq_some_iff, strcmp_eq_iff]
  refine hxs.imp fun {a b} hab hne => ?_
  cases hcmp : strcmp s (name a) with
  | lt => exact strcmp_trans hcmp hab
  | eq => rwa [(strcmp_eq_iff _ _).mp hcmp]
  | gt => exact absurd hcmp hne

end Infra
