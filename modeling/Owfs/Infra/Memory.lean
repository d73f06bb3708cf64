import Owfs.Infra.Bytes

/-!
# A flat memory

A memory gives a byte to every address. A pointer is an address or NULL. Reading and writing
through NULL faults, unless no byte is moved; a fault is `none`.
-/

namespace Infra

abbrev Mem := Nat → Byte

/-- An address, or NULL. -/
abbrev Ptr := Option Nat

namespace Mem

variable {m : Mem} {a b n k : Nat} {d e : Bytes} {p : Ptr}

/-- The `n` bytes from address `a`. -/
def read (m : Mem) (a n : Nat) : Bytes := (List.range n).map fun i => m (a + i)

/-- The memory after the bytes `d` were written at address `a`. -/
def write (m : Mem) (a : Nat) (d : Bytes) : Mem :=
  fun x => if a ≤ x ∧ x < a + d.length then d.getD (x - a) 0 else m x

@[simp] theorem length_read (m : Mem) (a n : Nat) : (m.read a n).length = n := by
  simp [read]

@[simp] theorem read_zero (m : Mem) (a : Nat) : m.read a 0 = [] := rfl

theorem read_congr {m' : Mem} (h : ∀ x, a ≤ x → x < a + n → m x = m' x) :
    m.read a n = m'.read a n := by
  apply List.map_congr_left
  intro i hi
  rw [List.mem_range] at hi
  exact h (a + i) (by omega) (by omega)

/-- What was written is read back. -/
theorem read_write_self (m : Mem) (a : Nat) (d : Bytes) : (m.write a d).read a d.length = d := by
  apply List.ext_getElem
  · simp
  · intro i hi hd
    simp [read, write, hd]

/-- The ranges `[a, a + n)` and `[b, b + k)` do not meet. -/
def Apart (a n b k : Nat) : Prop := n = 0 ∨ k = 0 ∨ a + n ≤ b ∨ b + k ≤ a

instance : Decidable (Apart a n b k) := by unfold Apart; infer_instance

/-- A write does not change what lies apart from it. -/
theorem read_write_of_apart (h : Apart b d.length a n) : (m.write b d).read a n = m.read a n := by
  apply read_congr
  intro x hlo hhi
  unfold write
  rw [if_neg]
  rintro ⟨h1, h2⟩
  unfold Apart at h
  omega

/-- A second write to the same place hides the first one. -/
theorem write_write (h : e.length = d.length) : (m.write a d).write a e = m.write a e := by
  funext x
  by_cases hx : a ≤ x ∧ x < a + e.length
  · simp only [write, if_pos hx]
  · have hx' : ¬ (a ≤ x ∧ x < a + d.length) := by rwa [h] at hx
    simp only [write, if_neg hx, if_neg hx']

/-! ## Access through a pointer -/

/-- The `n` bytes that `p` points to. -/
def fetch (m : Mem) (p : Ptr) (n : Nat) : Option Bytes :=
  if n = 0 then some [] else p.map (m.read · n)

/-- The memory after the bytes `d` were copied to where `p` points. -/
def deposit (m : Mem) (p : Ptr) (d : Bytes) : Option Mem :=
  if d = [] then some m else p.map (m.write · d)

@[simp] theorem fetch_zero (m : Mem) (p : Ptr) : m.fetch p 0 = some [] := rfl

@[simp] theorem fetch_some (m : Mem) (a n : Nat) : m.fetch (some a) n = some (m.read a n) := by
  unfold fetch
  split
  · next h => rw [h, read_zero]
  · rfl

theorem length_fetch (h : m.fetch p n = some d) : d.length = n := by
  unfold fetch at h
  split at h
  · next hn => rw [← Option.some.inj h, hn, List.length_nil]
  · obtain ⟨a, -, rfl⟩ := Option.map_eq_some_iff.mp h
    exact length_read m a n

/-- The ranges behind two pointers do not meet. -/
def PtrApart (p : Ptr) (n : Nat) (q : Ptr) (k : Nat) : Prop :=
  match p, q with
  | some a, some b => Apart a n b k
  | _, _ => True

instance (p : Ptr) (n : Nat) (q : Ptr) (k : Nat) : Decidable (PtrApart p n q k) := by
  unfold PtrApart
  split <;> infer_instance

/-- Copying to `p` leaves what `q` points to, when the two ranges do not meet. -/
theorem fetch_deposit_of_apart {m' : Mem} {q : Ptr} (h : m.deposit p d = some m')
    (hap : PtrApart p d.length q k) : m'.fetch q k = m.fetch q k := by
  unfold deposit at h
  split at h
  · rw [← Option.some.inj h]
  · obtain ⟨a, rfl, rfl⟩ := Option.map_eq_some_iff.mp h
    unfold fetch
    split
    · rfl
    · cases q with
      | none => rfl
      | some b => exact congrArg some (read_write_of_apart hap)

/-- Whether a copy faults depends on the pointer and on the length only. -/
theorem deposit_eq_none (h : m.deposit p d = none) (hlen : e.length = d.length) :
    m.deposit p e = none := by
  unfold deposit at h ⊢
  split at h
  · cases h
  · next hd =>
    have he : e ≠ [] := by
      rintro rfl
      exact hd (List.length_eq_zero_iff.mp hlen.symm)
    rw [if_neg he, Option.map_eq_none_iff.mp h]
    rfl

/-- A block that was filled is overwritten by a reply of the same length. -/
theorem deposit_deposit {m' : Mem} (h : m.deposit p d = some m') (hlen : e.length = d.length) :
    m'.fetch p d.length = some d ∧ m'.deposit p e = m.deposit p e := by
  unfold deposit at h
  split at h
  · next hd =>
    subst hd
    obtain rfl := List.length_eq_zero_iff.mp hlen
    exact ⟨rfl, by rw [← Option.some.inj h]⟩
  · next hd =>
    obtain ⟨a, rfl, rfl⟩ := Option.map_eq_some_iff.mp h
    refine ⟨by rw [fetch_some, read_write_self], ?_⟩
    have he : e ≠ [] := by
      rintro rfl
      exact hd (List.length_eq_zero_iff.mp hlen.symm)
    simp only [deposit, if_neg he]
    exact congrArg some (write_write hlen)

/-- The little-endian word of four bytes that `p` points to. -/
def fetchUint (m : Mem) (p : Ptr) : Option (BitVec 32) :=
  p.map fun a => m (a + 3) ++ m (a + 2) ++ m (a + 1) ++ m a

end Mem

end Infra
