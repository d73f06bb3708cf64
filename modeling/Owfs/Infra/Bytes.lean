import Mathlib

/-!
# Bytes and memory blocks

Byte strings, 32-bit words in network order, C strings, and a block of memory whose
accesses are checked; first the constants of the system that programs use.

An access to a block answers `none` when it leaves the block. A program that is written with
these operations returns `none` exactly when one of its accesses was out of bounds, so memory
safety is the statement that the result is a `some`.
-/

namespace Infra

abbrev Byte := BitVec 8

abbrev Bytes := List Byte

instance : LawfulBEq Byte := inferInstance

/-! ## Constants of the system -/

/-- Return codes, as `errno` has them. -/
def eio : Int := 5

def enomem : Int := 12

def efault : Int := 14

def einval : Int := 22

def erange : Int := 34

def eloop : Int := 40

def enomsg : Int := 42

def ebadmsg : Int := 74

def emsgsize : Int := 90

def econnaborted : Int := 103

def enobufs : Int := 105

/-- `PATH_MAX` -/
def pathMax : Nat := 4096

/-! ## 32-bit words in network order -/

/-- The four bytes of a word, most significant first. -/
def be32 (x : BitVec 32) : Bytes :=
  [x.extractLsb' 24 8, x.extractLsb' 16 8, x.extractLsb' 8 8, x.extractLsb' 0 8]

/-- The word held by the first four bytes. Missing bytes read as zero. -/
def ofBe32 : Bytes → BitVec 32
  | a :: b :: c :: d :: _ => a ++ b ++ c ++ d
  | _ => 0

@[simp] theorem length_be32 (x : BitVec 32) : (be32 x).length = 4 := rfl

/-- A word written in network order is read back. -/
theorem ofBe32_be32_append (x : BitVec 32) (rest : Bytes) : ofBe32 (be32 x ++ rest) = x := by
  show x.extractLsb' 24 8 ++ x.extractLsb' 16 8 ++ x.extractLsb' 8 8 ++ x.extractLsb' 0 8 = x
  apply BitVec.eq_of_getLsbD_eq
  intro i hi
  simp only [BitVec.getLsbD_append, BitVec.getLsbD_extractLsb']
  by_cases h1 : i < 8
  · simp [h1]
  · by_cases h2 : i - 8 < 8
    · simp [h1, h2, show 8 + (i - 8) = i by omega]
    · by_cases h3 : i - 8 - 8 < 8
      · simp [h1, h2, h3, show 16 + (i - 8 - 8) = i by omega]
      · simp [h1, h2, h3, show 24 + (i - 8 - 8 - 8) = i by omega,
          show i - 8 - 8 - 8 < 8 by omega]

/-- A small natural number read back as a signed word. -/
theorem toInt_ofNat32 {n : Nat} (h : n < 2 ^ 31) : (BitVec.ofNat 32 n).toInt = n := by
  rw [BitVec.toInt_ofNat']
  exact Int.bmod_eq_of_le (by omega) (by omega)

/-- Subtraction of words that does not overflow. -/
theorem toInt_sub32 {x y : BitVec 32} (hlo : -2 ^ 31 ≤ x.toInt - y.toInt)
    (hhi : x.toInt - y.toInt < 2 ^ 31) : (x - y).toInt = x.toInt - y.toInt := by
  rw [BitVec.toInt_sub]
  exact Int.bmod_eq_of_le (by omega) (by omega)

/-- A signed word passed as an unsigned 64-bit number. -/
def sizeT (x : BitVec 32) : Nat := (x.signExtend 64).toNat

theorem sizeT_of_nonneg {x : BitVec 32} (h : 0 ≤ x.toInt) : sizeT x = x.toInt.toNat := by
  have hx : (x.signExtend 64).toInt = x.toInt := BitVec.toInt_signExtend_of_le (by decide)
  rw [BitVec.toInt_eq_toNat_cond (x.signExtend 64)] at hx
  unfold sizeT
  split at hx <;> omega

/-- A negative word becomes a huge size. -/
theorem sizeT_of_neg {x : BitVec 32} (h : x.toInt < 0) : 2 ^ 63 ≤ sizeT x := by
  have hx : (x.signExtend 64).toInt = x.toInt := BitVec.toInt_signExtend_of_le (by decide)
  rw [BitVec.toInt_eq_toNat_cond (x.signExtend 64)] at hx
  unfold sizeT
  split at hx <;> omega

/-! ## C strings -/

/-- The string that starts at the head of `b`: everything before the first NUL. There is none
when the block holds no NUL. -/
def cstring (b : Bytes) : Option Bytes :=
  if 0 ∈ b then some (b.takeWhile (· ≠ 0)) else none

/-- A string without NUL, its terminator and anything behind it. -/
theorem cstring_append {s : Bytes} (hs : 0 ∉ s) (rest : Bytes) :
    cstring (s ++ 0 :: rest) = some s := by
  have hall : ∀ x ∈ s, (decide (x ≠ 0)) = true := by
    intro x hx
    simp only [ne_eq, decide_eq_true_eq]
    intro he
    exact hs (he ▸ hx)
  unfold cstring
  rw [if_pos (by simp), List.takeWhile_append_of_pos hall]
  simp

/-! ## Checked blocks -/

/-- `n` bytes from offset `i`. -/
def slice (b : Bytes) (i n : Nat) : Option Bytes :=
  if i + n ≤ b.length then some ((b.drop i).take n) else none

/-- The block after the bytes `d` were written at offset `i`. -/
def blit (b : Bytes) (i : Nat) (d : Bytes) : Option Bytes :=
  if i + d.length ≤ b.length then some (b.take i ++ d ++ b.drop (i + d.length)) else none

/-- `b[i]` -/
def load (b : Bytes) (i : Nat) : Option Byte := b[i]?

/-- `b[i] = v` -/
def store (b : Bytes) (i : Nat) (v : Byte) : Option Bytes := blit b i [v]

/-- `memmove(&b[dst], &b[src], n)`; the ranges may overlap. -/
def memmove (b : Bytes) (dst src n : Nat) : Option Bytes :=
  (slice b src n).bind (blit b dst)

theorem slice_append_mid (a m c : Bytes) : slice (a ++ (m ++ c)) a.length m.length = some m := by
  simp [slice]

theorem blit_append_mid {m d : Bytes} (h : d.length = m.length) (a c : Bytes) :
    blit (a ++ (m ++ c)) a.length d = some (a ++ (d ++ c)) := by
  have hdrop : (a ++ (m ++ c)).drop (a.length + d.length) = c := by
    rw [h, ← List.drop_drop, List.drop_left, List.drop_left]
  rw [blit, if_pos (by simp; omega), hdrop]
  simp

theorem store_append (a c : Bytes) (x v : Byte) :
    store (a ++ (x :: c)) a.length v = some (a ++ (v :: c)) :=
  blit_append_mid (m := [x]) (d := [v]) rfl a c

theorem load_append (a c : Bytes) (x : Byte) : load (a ++ (x :: c)) a.length = some x := by
  simp [load]

/-- A write keeps the length of the block. -/
theorem length_blit {b d b' : Bytes} {i : Nat} (h : blit b i d = some b') :
    b'.length = b.length := by
  unfold blit at h
  split at h
  · next hle =>
    rw [← Option.some.inj h]
    simp only [List.length_append, List.length_take, List.length_drop]
    omega
  · simp at h

theorem length_slice {b d : Bytes} {i n : Nat} (h : slice b i n = some d) : d.length = n := by
  unfold slice at h
  split at h
  · next hle =>
    rw [← Option.some.inj h]
    simp only [List.length_take, List.length_drop]
    omega
  · simp at h

theorem slice_isSome {b : Bytes} {i n : Nat} (h : i + n ≤ b.length) :
    ∃ d, slice b i n = some d := ⟨_, if_pos h⟩

theorem blit_isSome {b d : Bytes} {i : Nat} (h : i + d.length ≤ b.length) :
    ∃ b', blit b i d = some b' := ⟨_, if_pos h⟩

theorem memmove_isSome {b : Bytes} (dst src n : Nat) (hs : src + n ≤ b.length)
    (hd : dst + n ≤ b.length) : ∃ b', memmove b dst src n = some b' := by
  obtain ⟨d, hslice⟩ := slice_isSome hs
  obtain ⟨b', hblit⟩ := blit_isSome (b := b) (d := d) (i := dst)
    (by rw [length_slice hslice]; exact hd)
  exact ⟨b', by rw [memmove, hslice]; exact hblit⟩

theorem length_memmove {b b' : Bytes} {dst src n : Nat} (h : memmove b dst src n = some b') :
    b'.length = b.length := by
  obtain ⟨d, _, hb⟩ := Option.bind_eq_some_iff.mp h
  exact length_blit hb

end Infra
