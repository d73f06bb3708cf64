import Owfs.Infra.Text

/-!
# Segments

A path is made of segments with a separator before each. It is cut at its separators, and put
together again.
-/

namespace Infra

variable {sep : Byte}

/-- The path of some segments. The path without segments is a separator. -/
def separated (sep : Byte) (segments : List Bytes) : Bytes := sep :: [sep].intercalate segments

theorem splitSep_eq_splitOn (sep : Byte) (s : Bytes) : splitSep sep s = s.splitOn sep := by
  induction s with
  | nil => simp [splitSep]
  | cons b s ih =>
    have hcons : (b :: s).splitOn sep = if b == sep then [] :: s.splitOn sep
        else (s.splitOn sep).modifyHead (b :: ·) :=
      List.splitOnP_cons_eq_if_modifyHead b s
    rw [splitSep, ih, hcons]
    obtain ⟨p, ps, hps⟩ := List.exists_cons_of_ne_nil (List.splitOn_ne_nil sep s)
    by_cases hb : b = sep
    · simp [hb]
    · simp [hb, hps]

theorem splitSep_ne_nil (sep : Byte) (s : Bytes) : splitSep sep s ≠ [] := by
  rw [splitSep_eq_splitOn]
  exact List.splitOn_ne_nil sep s

theorem not_mem_of_mem_splitSep {s p : Bytes} (h : p ∈ splitSep sep s) : sep ∉ p := by
  induction s generalizing p with
  | nil =>
    rw [splitSep, List.mem_singleton] at h
    rw [h]
    exact List.not_mem_nil
  | cons b s ih =>
    obtain ⟨q, qs, hqs⟩ := List.exists_cons_of_ne_nil (splitSep_ne_nil sep s)
    rw [hqs] at ih
    rw [splitSep, hqs] at h
    split at h
    · obtain rfl | h := List.mem_cons.mp h
      · exact List.not_mem_nil
      · exact ih h
    · rename_i hb
      obtain rfl | h := List.mem_cons.mp h
      · rw [List.mem_cons, not_or]
        exact ⟨fun he => hb he.symm, ih List.mem_cons_self⟩
      · exact ih (List.mem_cons_of_mem _ h)

theorem separated_splitSep (sep : Byte) (s : Bytes) :
    separated sep (splitSep sep s) = sep :: s := by
  rw [separated, splitSep_eq_splitOn, List.intercalate_splitOn]

theorem separated_eq_flatMap (sep : Byte) {segments : List Bytes} (h : segments ≠ []) :
    separated sep segments = segments.flatMap (sep :: ·) := by
  induction segments with
  | nil => exact absurd rfl h
  | cons x xs ih =>
    cases xs with
    | nil => simp [separated, List.intercalate]
    | cons y ys =>
      rw [List.flatMap_cons, ← ih (List.cons_ne_nil y ys)]
      simp [separated, List.intercalate, List.intersperse]

/-- A path has only one list of segments. -/
theorem separated_inj {a b : List Bytes} (ha : a ≠ []) (hb : b ≠ []) (hasep : ∀ s ∈ a, sep ∉ s)
    (hbsep : ∀ s ∈ b, sep ∉ s) (h : separated sep a = separated sep b) : a = b := by
  rw [← List.splitOn_intercalate sep hasep ha, ← List.splitOn_intercalate sep hbsep hb,
    List.tail_eq_of_cons_eq h]

end Infra
