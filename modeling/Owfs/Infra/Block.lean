import Mathlib.Data.List.Basic
import Mathlib.Data.List.Infix

/-!
# Blocks of memory

A block is the list of what is stored in it. It is enlarged by an `Allocator`, which may refuse, and
leaves new cells as it likes. Storing and loading outside of a block has no result.

What a growing array keeps is that its elements are a prefix of its block.
-/

namespace Infra

variable {α : Type}

/-- `realloc`, and as `realloc none` also `malloc`. -/
structure Allocator (α : Type) where
  realloc : Option (List α) → Nat → Option (List α)
  length_eq : ∀ {old n block}, realloc old n = some block → block.length = n
  keeps : ∀ {old n block}, realloc old n = some block → (old.getD []).take n <+: block

/-- An allocator that grants everything, with `fill` in the new cells. -/
def Allocator.granting (fill : α) : Allocator α where
  realloc old n := some ((old.getD []).take n ++ List.replicate (n - (old.getD []).length) fill)
  length_eq := by
    rintro old n block ⟨⟩
    rw [List.length_append, List.length_take, List.length_replicate]
    omega
  keeps := by
    rintro old n block ⟨⟩
    exact List.prefix_append _ _

namespace Block

/-- `memcpy(&block[offset], a, …)` -/
def store (offset : Nat) (a block : List α) : Option (List α) :=
  if offset + a.length ≤ block.length then
    some (block.take offset ++ a ++ block.drop (offset + a.length))
  else none

/-- The `n` elements from `&block[offset]`. -/
def load (offset n : Nat) (block : List α) : Option (List α) :=
  if offset + n ≤ block.length then some ((block.drop offset).take n) else none

/-- What is in an enlarged block. -/
theorem prefix_realloc (al : Allocator α) {old : Option (List α)} {n : Nat} {block text : List α}
    (h : al.realloc old n = some block) (hold : text <+: old.getD []) (hn : text.length ≤ n) :
    text <+: block := by
  refine List.IsPrefix.trans ?_ (al.keeps h)
  rw [List.prefix_take_iff]
  exact ⟨hold, hn⟩

/-- **Storing behind the elements of a block.** -/
theorem store_behind {text a block : List α} (h : text <+: block)
    (hroom : text.length + a.length ≤ block.length) :
    ∃ block', store text.length a block = some block' ∧ block'.length = block.length ∧
      text ++ a <+: block' := by
  refine ⟨_, if_pos hroom, ?_, ?_⟩
  · simp only [List.length_append, List.length_take, List.length_drop]
    omega
  · rw [← List.prefix_iff_eq_take.mp h]
    exact List.prefix_append _ _

/-- Loading some of the elements of a block. -/
theorem load_of_prefix {before a after block : List α} (h : before ++ a ++ after <+: block) :
    load before.length a.length block = some a := by
  obtain ⟨rest, rfl⟩ := h
  have hlen : before.length + a.length ≤ (before ++ a ++ after ++ rest).length := by
    simp only [List.length_append]
    omega
  rw [load, if_pos hlen, List.append_assoc, List.append_assoc, List.drop_left, List.take_left]

end Block

end Infra
