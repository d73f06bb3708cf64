import Mathlib.Data.List.Basic

/-!
# Ring buffers

A ring of `n` cells holds a queue of at most `n` elements: it is read at the head and written at the
tail, and both go around. An element that is added to a full ring takes the place of the oldest one.
The ring carries its invariant, and `toList` is the queue it stands for, oldest element first.
-/

namespace Infra

/-- The cell behind a cell. -/
def nextCell (n i : Nat) : Nat := if i + 1 = n then 0 else i + 1

theorem nextCell_eq {n i : Nat} (h : i < n) : nextCell n i = (i + 1) % n := by
  unfold nextCell
  split
  · rename_i heq
    rw [heq, Nat.mod_self]
  · rw [Nat.mod_eq_of_lt (by omega)]

theorem nextCell_lt {n i : Nat} (h : i < n) : nextCell n i < n := by
  unfold nextCell
  split <;> omega

/-- A ring of `n` cells that holds `count` elements from `head` on. -/
structure Ring (α : Type) (n : Nat) where
  cells : Nat → α
  head : Nat
  tail : Nat
  count : Nat
  head_lt : head < n
  count_le : count ≤ n
  tail_eq : tail = (head + count) % n

namespace Ring

variable {α : Type} {n : Nat}

/-- An empty ring. -/
def empty (x : α) (h : 0 < n) : Ring α n :=
  ⟨fun _ => x, 0, 0, 0, h, Nat.zero_le _, (Nat.zero_mod _).symm⟩

theorem pos (r : Ring α n) : 0 < n := Nat.zero_lt_of_lt r.head_lt

variable (r : Ring α n)

theorem tail_lt : r.tail < n := by
  rw [r.tail_eq]
  exact Nat.mod_lt _ r.pos

/-- Adds an element, in the place of the oldest one if there is no room. -/
def push (x : α) : Ring α n where
  cells := fun i => if i = r.tail then x else r.cells i
  head := if r.count = n then nextCell n r.head else r.head
  tail := nextCell n r.tail
  count := if r.count = n then n else r.count + 1
  head_lt := by
    split
    · exact nextCell_lt r.head_lt
    · exact r.head_lt
  count_le := by
    have := r.count_le
    split <;> omega
  tail_eq := by
    rw [nextCell_eq r.tail_lt, r.tail_eq, Nat.mod_add_mod]
    split
    · rename_i hfull
      rw [nextCell_eq r.head_lt, hfull, Nat.mod_add_mod, Nat.add_right_comm]
    · rw [Nat.add_assoc]

/-- The oldest element. -/
def front : α := r.cells r.head

/-- Takes the `k` oldest elements away. -/
def drop (k : Nat) (h : k ≤ r.count) : Ring α n where
  cells := r.cells
  head := if n ≤ r.head + k then r.head + k - n else r.head + k
  tail := r.tail
  count := r.count - k
  head_lt := by
    have := r.head_lt
    have := r.count_le
    split <;> omega
  count_le := Nat.le_trans (Nat.sub_le _ _) r.count_le
  tail_eq := by
    rw [r.tail_eq]
    split
    · rw [show r.head + k - n + (r.count - k) = r.head + r.count - n by omega,
        ← Nat.mod_eq_sub_mod (by omega)]
    · rw [show r.head + k + (r.count - k) = r.head + r.count by omega]

/-- The queue, oldest element first. -/
def toList : List α := (List.range r.count).map fun i => r.cells ((r.head + i) % n)

@[simp] theorem length_toList : r.toList.length = r.count := by simp [toList]

theorem getElem?_toList {i : Nat} (h : i < r.count) :
    r.toList[i]? = some (r.cells ((r.head + i) % n)) := by
  simp [toList, h]

/-- The cell at the tail is not in use, or it is the oldest one. -/
theorem ne_tail {i : Nat} (hi : i < r.count) (h : r.count < i + n) : (r.head + i) % n ≠ r.tail := by
  intro heq
  rw [r.tail_eq] at heq
  have hdvd : n ∣ (r.head + r.count) - (r.head + i) :=
    Nat.dvd_of_mod_eq_zero (Nat.sub_mod_eq_zero_of_mod_eq heq.symm)
  have hzero := Nat.eq_zero_of_dvd_of_lt hdvd (by omega)
  omega

theorem toList_push_of_lt (x : α) (h : r.count < n) : (r.push x).toList = r.toList ++ [x] := by
  have hcount : (r.push x).count = r.count + 1 := if_neg (Nat.ne_of_lt h)
  have hhead : (r.push x).head = r.head := if_neg (Nat.ne_of_lt h)
  unfold toList
  rw [hcount, hhead, List.range_succ, List.map_append]
  congr 1
  · refine List.map_congr_left fun i hi => ?_
    exact if_neg (r.ne_tail (List.mem_range.mp hi) (by omega))
  · simp [push, r.tail_eq]

theorem toList_drop (k : Nat) (h : k ≤ r.count) : (r.drop k h).toList = r.toList.drop k := by
  have hle := r.count_le
  refine List.ext_getElem? fun i => ?_
  rw [List.getElem?_drop]
  by_cases hi : i < r.count - k
  · rw [getElem?_toList _ (show i < (r.drop k h).count from hi), getElem?_toList _ (by omega)]
    have hhead : ((r.drop k h).head + i) % n = (r.head + (k + i)) % n := by
      rw [← Nat.add_assoc]
      show ((if n ≤ r.head + k then r.head + k - n else r.head + k) + i) % n = _
      split
      · rw [show r.head + k - n + i = r.head + k + i - n by omega, ← Nat.mod_eq_sub_mod (by omega)]
      · rfl
    rw [hhead]
    rfl
  · rw [List.getElem?_eq_none (by rw [length_toList]; exact Nat.le_of_not_lt hi),
      List.getElem?_eq_none (by rw [length_toList]; omega)]

theorem toList_eq_front_cons (h : 0 < r.count) : r.toList = r.front :: (r.drop 1 h).toList := by
  have hfirst := r.getElem?_toList h
  rw [Nat.add_zero, Nat.mod_eq_of_lt r.head_lt] at hfirst
  rw [toList_drop]
  cases hl : r.toList with
  | nil =>
    rw [hl] at hfirst
    cases hfirst
  | cons x l =>
    rw [hl, List.getElem?_cons_zero, Option.some.injEq] at hfirst
    rw [hfirst]
    rfl

/-- How many elements stand in cells that follow each other. -/
def segment : Nat := if r.head < r.tail then r.count else n - r.head

/-- The elements from the head up to the end of the queue or of the cells. -/
def contiguous : List α := (List.range r.segment).map fun i => r.cells (r.head + i)

theorem segment_bounds (h : 0 < r.count) :
    0 < r.segment ∧ r.segment ≤ r.count ∧ r.head + r.segment ≤ n := by
  have hhead := r.head_lt
  have hle := r.count_le
  have htail := r.tail_eq
  unfold segment
  by_cases hlt : r.head + r.count < n
  · rw [Nat.mod_eq_of_lt hlt] at htail
    rw [if_pos (by omega)]
    omega
  · rw [Nat.mod_eq_sub_mod (by omega), Nat.mod_eq_of_lt (by omega)] at htail
    rw [if_neg (by omega)]
    omega

/-- They are the oldest ones. -/
theorem contiguous_eq (h : 0 < r.count) : r.contiguous = r.toList.take r.segment := by
  obtain ⟨-, hle, hcells⟩ := r.segment_bounds h
  unfold contiguous toList
  rw [← List.map_take, List.take_range, Nat.min_eq_left hle]
  refine List.map_congr_left fun i hi => ?_
  rw [Nat.mod_eq_of_lt]
  have := List.mem_range.mp hi
  omega

/-- Adds elements one after the other. -/
def pushAll (r : Ring α n) (xs : List α) : Ring α n := xs.foldl push r

theorem count_push (x : α) : (r.push x).count = min n (r.count + 1) := by
  have hle := r.count_le
  show (if r.count = n then n else r.count + 1) = _
  split <;> omega

theorem count_pushAll (xs : List α) : (r.pushAll xs).count = min n (r.count + xs.length) := by
  have hle := r.count_le
  induction xs generalizing r with
  | nil => simpa [pushAll] using (Nat.min_eq_right hle).symm
  | cons x xs ih =>
    show ((r.push x).pushAll xs).count = _
    rw [ih _ (r.push x).count_le, count_push, List.length_cons]
    omega

/-- With room for all, they are the last ones of the queue. -/
theorem toList_pushAll {xs : List α} (h : r.count + xs.length ≤ n) :
    (r.pushAll xs).toList = r.toList ++ xs := by
  induction xs generalizing r with
  | nil => simp [pushAll]
  | cons x xs ih =>
    rw [List.length_cons] at h
    have hpush := r.toList_push_of_lt x (by omega)
    have hcount := r.count_push x
    show ((r.push x).pushAll xs).toList = _
    rw [ih _ (by omega), hpush, List.append_assoc]
    rfl

/-- Where `u` was taken out of all that was put in, `s`, elements that are added stay in order if
and only if there was order before and there is room. -/
theorem append_eq_append_pushAll_iff {s u : List α} (h : u.length + r.count ≤ s.length)
    (xs : List α) :
    s ++ xs = u ++ (r.pushAll xs).toList ↔ s = u ++ r.toList ∧ r.count + xs.length ≤ n := by
  constructor
  · intro heq
    have hlength := congrArg List.length heq
    rw [List.length_append, List.length_append, length_toList, count_pushAll] at hlength
    have hroom : r.count + xs.length ≤ n := by omega
    rw [r.toList_pushAll hroom, ← List.append_assoc] at heq
    exact ⟨List.append_cancel_right heq, hroom⟩
  · rintro ⟨rfl, hroom⟩
    rw [r.toList_pushAll hroom, List.append_assoc]

end Ring

end Infra
