import Owfs.Infra.Memory

/-!
# Records in memory

A packed record is written field after field, its numbers with the least significant byte first. It
is read through the addresses of its fields.
-/

namespace Infra

/-- The `k` bytes of a number. -/
def wordBytes : Nat → Nat → Bytes
  | 0, _ => []
  | k + 1, n => BitVec.ofNat 8 n :: wordBytes k (n / 256)

/-- The number of some bytes. -/
def wordOf : Bytes → Nat
  | [] => 0
  | b :: bs => b.toNat + 256 * wordOf bs

@[simp] theorem length_wordBytes (k n : Nat) : (wordBytes k n).length = k := by
  induction k generalizing n with
  | zero => rfl
  | succ k ih => rw [wordBytes, List.length_cons, ih]

theorem wordOf_wordBytes (k n : Nat) : wordOf (wordBytes k n) = n % 256 ^ k := by
  induction k generalizing n with
  | zero => rw [Nat.pow_zero, Nat.mod_one]; rfl
  | succ k ih =>
    have hsplit : n % 256 ^ (k + 1) = n % 256 + 256 * (n / 256 % 256 ^ k) := by
      rw [Nat.pow_succ', Nat.mod_mul]
    rw [wordBytes, wordOf, ih, BitVec.toNat_ofNat, hsplit]

namespace Mem

variable {m : Mem} {a : Nat} {x y : Bytes}

/-- The number in the `k` bytes from address `a`. -/
def word (m : Mem) (a k : Nat) : Nat := wordOf (m.read a k)

/-- The bytes `d` stand at address `a`. -/
def At (m : Mem) (a : Nat) (d : Bytes) : Prop := m.read a d.length = d

theorem at_append : m.At a (x ++ y) ↔ m.At a x ∧ m.At (a + x.length) y := by
  have hread : m.read a (x ++ y).length = m.read a x.length ++ m.read (a + x.length) y.length := by
    rw [List.length_append, read, List.range_add, List.map_append, List.map_map]
    simp only [read, Function.comp_def, Nat.add_assoc]
  unfold At
  rw [hread]
  constructor
  · intro h
    exact List.append_inj h (length_read _ _ _)
  · rintro ⟨hx, hy⟩
    rw [hx, hy]

theorem at_cons {b : Byte} : m.At a (b :: x) ↔ m a = b ∧ m.At (a + 1) x := by
  have := at_append (m := m) (a := a) (x := [b]) (y := x)
  simpa [At, read] using this

/-- A field that is a number. -/
theorem word_of_at {k n : Nat} (h : m.At a (wordBytes k n)) : m.word a k = n % 256 ^ k := by
  rw [At, length_wordBytes] at h
  rw [word, h, wordOf_wordBytes]

end Mem

end Infra
