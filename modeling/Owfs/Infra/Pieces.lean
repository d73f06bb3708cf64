import Owfs.Infra.Bytes

/-!
# Pieces between separators

A text is cut at its first separators, and pieces are put together again with separators between
them.
-/

namespace Infra

section

variable {α : Type} [DecidableEq α] {sep : α} {s p rest : List α}

/-- What stands before the first separator. -/
def before (sep : α) (s : List α) : List α := s.takeWhile (· ≠ sep)

/-- What stands behind it. -/
def behind (sep : α) (s : List α) : List α := (s.dropWhile (· ≠ sep)).tail

theorem not_mem_before : sep ∉ before sep s := by
  intro h
  have := List.mem_takeWhile_imp h
  simp at this

theorem before_append (h : sep ∉ p) : before sep (p ++ sep :: rest) = p := by
  have hall : ∀ x ∈ p, decide (x ≠ sep) = true := by
    intro x hx
    exact decide_eq_true fun he => h (he ▸ hx)
  rw [before, List.takeWhile_append_of_pos hall, List.takeWhile_cons_of_neg (by simp),
    List.append_nil]

theorem behind_append (h : sep ∉ p) : behind sep (p ++ sep :: rest) = rest := by
  have hall : ∀ x ∈ p, decide (x ≠ sep) = true := by
    intro x hx
    exact decide_eq_true fun he => h (he ▸ hx)
  rw [behind, List.dropWhile_append_of_pos hall, List.dropWhile_cons_of_neg (by simp),
    List.tail_cons]

/-- The first separator and what is around it. -/
theorem before_append_behind (h : sep ∈ s) : before sep s ++ sep :: behind sep s = s := by
  obtain ⟨xs, ys, rfl, hxs⟩ := List.eq_append_cons_of_mem h
  rw [before_append hxs, behind_append hxs]

theorem count_behind (h : sep ∈ s) : s.count sep = (behind sep s).count sep + 1 := by
  nth_rewrite 1 [← before_append_behind h]
  rw [List.count_append, List.count_eq_zero_of_not_mem not_mem_before, List.count_cons_self,
    Nat.zero_add]

/-- The pieces between the first `k` separators. -/
def pieces (sep : α) : (k : Nat) → List α → List (List α)
  | 0, s => [s]
  | k + 1, s => before sep s :: pieces sep k (behind sep s)

theorem length_pieces (sep : α) (k : Nat) (s : List α) : (pieces sep k s).length = k + 1 := by
  induction k generalizing s with
  | zero => rfl
  | succ k ih => rw [pieces, List.length_cons, ih]

/-- Only the last piece can have a separator in it. -/
theorem not_mem_of_mem_dropLast_pieces {k : Nat}
    (h : p ∈ (pieces sep k s).dropLast) : sep ∉ p := by
  induction k generalizing s with
  | zero => exact absurd h List.not_mem_nil
  | succ k ih =>
    have hne : pieces sep k (behind sep s) ≠ [] := by
      intro hnil
      simpa [hnil] using length_pieces sep k (behind sep s)
    rw [pieces, List.dropLast_cons_of_ne_nil hne] at h
    obtain rfl | h := List.mem_cons.mp h
    · exact not_mem_before
    · exact ih h

/-- Pieces that are put together with separators are found again, when at most the last one has a
separator in it. -/
theorem pieces_intercalate {k : Nat} {ps : List (List α)} (hlen : ps.length = k + 1)
    (hps : ∀ p ∈ ps.dropLast, sep ∉ p) : pieces sep k ([sep].intercalate ps) = ps := by
  induction k generalizing ps with
  | zero =>
    obtain ⟨p, rfl⟩ := List.length_eq_one_iff.mp hlen
    simp [pieces, List.intercalate]
  | succ k ih =>
    obtain ⟨p, q, ps, rfl⟩ : ∃ p q qs, ps = p :: q :: qs := by
      match ps, hlen with
      | p :: q :: qs, _ => exact ⟨p, q, qs, rfl⟩
    have hjoin : [sep].intercalate (p :: q :: ps) = p ++ sep :: [sep].intercalate (q :: ps) := by
      simp [List.intercalate, List.intersperse]
    have hp : sep ∉ p := hps p (by simp)
    rw [hjoin, pieces, before_append hp, behind_append hp,
      ih (Nat.succ.inj hlen) fun x hx => hps x (List.mem_cons_of_mem p hx)]

end

/-- `memchr(&b[i], c, n)`: where the first `c` is. -/
def memchr (b : Bytes) (i : Nat) (c : Byte) (n : Nat) : Option (Option Nat) :=
  (slice b i n).map fun d => if c ∈ d then some (i + (before c d).length) else none

theorem memchr_append (a s rest : Bytes) (c : Byte) :
    memchr (a ++ (s ++ rest)) a.length c s.length =
      some (if c ∈ s then some (a.length + (before c s).length) else none) := by
  rw [memchr, slice_append_mid, Option.map_some]

/-- Bytes that are moved to the left over a gap. -/
theorem memmove_left (a gap s rest : Bytes) :
    ∃ rest', memmove (a ++ (gap ++ (s ++ rest))) a.length (a.length + gap.length) s.length =
      some (a ++ (s ++ rest')) ∧
      rest'.length = gap.length + rest.length := by
  have hslice : slice (a ++ (gap ++ (s ++ rest))) (a.length + gap.length) s.length = some s := by
    have := slice_append_mid (a ++ gap) s rest
    rwa [List.length_append, List.append_assoc] at this
  obtain ⟨mid, rest', hsplit, hmid⟩ : ∃ mid rest', gap ++ (s ++ rest) = mid ++ rest' ∧
      mid.length = s.length :=
    ⟨(gap ++ (s ++ rest)).take s.length, (gap ++ (s ++ rest)).drop s.length,
      (List.take_append_drop _ _).symm, by simp; omega⟩
  refine ⟨rest', ?_, ?_⟩
  · rw [memmove, hslice, Option.bind_some, hsplit, blit_append_mid hmid.symm]
  · have := congrArg List.length hsplit
    simp only [List.length_append] at this
    omega

/-- Bytes that are moved to the right by one. -/
theorem memmove_right (a s rest : Bytes) (x : Byte) :
    ∃ y, memmove (a ++ (s ++ x :: rest)) (a.length + 1) a.length s.length =
      some (a ++ (y :: (s ++ rest))) := by
  have hslice : slice (a ++ (s ++ x :: rest)) a.length s.length = some s :=
    slice_append_mid a s (x :: rest)
  obtain ⟨y, mid, hsplit, hmid⟩ : ∃ y mid, s ++ [x] = y :: mid ∧ mid.length = s.length := by
    cases s with
    | nil => exact ⟨x, [], rfl, rfl⟩
    | cons y s => exact ⟨y, s ++ [x], rfl, by simp⟩
  have hblock : a ++ (s ++ x :: rest) = (a ++ [y]) ++ (mid ++ rest) := by
    rw [List.append_cons s x rest, hsplit, List.append_assoc]
    rfl
  refine ⟨y, ?_⟩
  have hblit := blit_append_mid hmid.symm (a ++ [y]) rest
  rw [List.length_append] at hblit
  rw [memmove, hslice, Option.bind_some, hblock]
  simpa using hblit

/-- Nothing changes when the bytes stay where they are. -/
theorem memmove_self {b : Bytes} {i n : Nat} (h : i + n ≤ b.length) : memmove b i i n = some b := by
  have hlen : ((b.drop i).take n).length = n := by
    rw [List.length_take, List.length_drop]
    omega
  rw [memmove, slice, if_pos h, Option.bind_some, blit, if_pos (by rw [hlen]; exact h), hlen,
    List.append_assoc, ← List.drop_drop, List.take_append_drop, List.take_append_drop]

theorem blit_nil {b : Bytes} {i : Nat} (h : i ≤ b.length) : blit b i [] = some b := by
  rw [blit, if_pos (by simpa using h)]
  simp

theorem memmove_zero {b : Bytes} {dst src : Nat} (hdst : dst ≤ b.length) (hsrc : src ≤ b.length) :
    memmove b dst src 0 = some b := by
  rw [memmove, slice, if_pos (by simpa using hsrc), Option.bind_some, List.take_zero, blit_nil hdst]

end Infra
