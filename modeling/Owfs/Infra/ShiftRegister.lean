import Mathlib.Logic.Function.Iterate
import Owfs.Infra.Bytes

/-!
# Shift registers

A checksum is the remainder of a message by a polynomial over two elements. The register that
computes it takes the bits of the message one after the other, each byte from its least significant
bit on, and is shifted to the right. So the coefficients of the polynomial stand in it the other way
round.
-/

namespace Infra

variable {w : Nat}

/-- The register of `x^w` and the powers of `x` in the list. -/
def polynomial (w : Nat) (exponents : List Nat) : BitVec w :=
  exponents.foldl (fun p e => p ||| (1#w <<< (w - 1 - e))) 0

section

variable (p : BitVec w)

/-- One bit of the message. -/
def clock (c : BitVec w) (bit : Bool) : BitVec w :=
  (c >>> 1) ^^^ (if c.getLsbD 0 ^^ bit then p else 0)

/-- The bits of a byte, in the order in which they are sent. -/
def bitsOf (b : Byte) : List Bool := (List.range 8).map b.getLsbD

/-- The register after a message. -/
def register (seed : BitVec w) (bytes : Bytes) : BitVec w :=
  (bytes.flatMap bitsOf).foldl (clock p) seed

/-- The register with nothing at its input. -/
def shift (c : BitVec w) : BitVec w := clock p c false

theorem register_append (seed : BitVec w) (a b : Bytes) :
    register p seed (a ++ b) = register p (register p seed a) b := by
  rw [register, List.flatMap_append, List.foldl_append, register, register]

theorem shift_xor (c y : BitVec w) : shift p (c ^^^ y) = clock p c (y.getLsbD 0) ^^^ (y >>> 1) := by
  rw [shift, clock, clock, BitVec.getLsbD_xor, Bool.xor_false, BitVec.ushiftRight_xor_distrib]
  ac_rfl

/-- Bits can be put into the register at once, and then be shifted through. -/
theorem foldl_clock (c y : BitVec w) (k : Nat) :
    ((List.range k).map y.getLsbD).foldl (clock p) c ^^^ (y >>> k) = (shift p)^[k] (c ^^^ y) := by
  induction k with
  | zero => simp
  | succ k ih =>
    have hbit : (y >>> k).getLsbD 0 = y.getLsbD k := by
      rw [BitVec.getLsbD_ushiftRight, Nat.add_zero]
    rw [Function.iterate_succ_apply', ← ih, shift_xor, hbit, List.range_succ, List.map_append,
      List.foldl_append, BitVec.shiftRight_add]
    rfl

variable {p}

/-- The bit that comes in on the left tells which one went out on the right. -/
theorem shift_injective (hp : p.msb = true) : Function.Injective (shift p) := by
  intro a b h
  have hw : 0 < w := by
    by_contra hzero
    obtain rfl : w = 0 := by omega
    simp [BitVec.eq_nil p] at hp
  have hbit (i : Nat) (hi : i < w) : (shift p a).getLsbD i = (shift p b).getLsbD i := by rw [h]
  simp only [shift, clock, Bool.xor_false, BitVec.getLsbD_xor, BitVec.getLsbD_ushiftRight] at hbit
  have hlow : a.getLsbD 0 = b.getLsbD 0 := by
    have htop := hbit (w - 1) (by omega)
    rw [BitVec.msb_eq_getLsbD_last] at hp
    rw [BitVec.getLsbD_of_ge a _ (by omega), BitVec.getLsbD_of_ge b _ (by omega)] at htop
    cases ha : a.getLsbD 0 <;> cases hb : b.getLsbD 0 <;> simp_all
  refine BitVec.eq_of_getLsbD_eq fun i hi => ?_
  cases i with
  | zero => exact hlow
  | succ i =>
    have hi' := hbit i (by omega)
    rw [hlow, Bool.xor_left_inj] at hi'
    rwa [Nat.add_comm 1 i] at hi'

end

/-! ## Whole bytes -/

section

theorem setWidth_ushiftRight_eight (b : Byte) : b.setWidth w >>> 8 = 0#w := by
  refine BitVec.eq_of_getLsbD_eq fun i _ => ?_
  rw [BitVec.getLsbD_ushiftRight, BitVec.getLsbD_setWidth, BitVec.getLsbD_of_ge b _ (by omega),
    Bool.and_false, BitVec.getLsbD_zero]

variable {p : BitVec w}

/-- Eight shifts: those of the byte on the right, and the rest only moves. -/
theorem iterate_shift_eight (y : BitVec w) :
    (shift p)^[8] y = (shift p)^[8] ((y.setWidth 8).setWidth w) ^^^ (y >>> 8) := by
  have hbits : (List.range 8).map ((y.setWidth 8).setWidth w).getLsbD =
      (List.range 8).map y.getLsbD := by
    refine List.map_congr_left fun i hi => ?_
    have hi' := List.mem_range.mp hi
    rw [BitVec.getLsbD_setWidth, BitVec.getLsbD_setWidth, decide_eq_true hi', Bool.true_and]
    by_cases hiw : i < w
    · rw [decide_eq_true hiw, Bool.true_and]
    · rw [BitVec.getLsbD_of_ge y i (by omega), Bool.and_false]
  have hall := foldl_clock p 0#w y 8
  have hlow := foldl_clock p 0#w ((y.setWidth 8).setWidth w) 8
  rw [BitVec.zero_xor] at hall hlow
  rw [hbits, setWidth_ushiftRight_eight, BitVec.xor_zero] at hlow
  rw [← hall, hlow]

variable (hw : 8 ≤ w)

include hw

theorem bitsOf_eq (b : Byte) : bitsOf b = (List.range 8).map (b.setWidth w).getLsbD := by
  refine List.map_congr_left fun i hi => ?_
  have hi' := List.mem_range.mp hi
  rw [BitVec.getLsbD_setWidth, decide_eq_true (by omega), Bool.true_and]

/-- The register after one byte. -/
theorem register_singleton (seed : BitVec w) (b : Byte) :
    register p seed [b] = (shift p)^[8] (seed ^^^ b.setWidth w) := by
  have hclock := foldl_clock p seed (b.setWidth w) 8
  rw [setWidth_ushiftRight_eight, BitVec.xor_zero, ← bitsOf_eq hw] at hclock
  rw [← hclock, register, List.flatMap_singleton]

theorem register_cons (seed : BitVec w) (b : Byte) (bytes : Bytes) :
    register p seed (b :: bytes) = register p ((shift p)^[8] (seed ^^^ b.setWidth w)) bytes := by
  rw [← register_singleton hw, ← register_append, List.singleton_append]

/-- Two registers that differ still do so after the same bytes. -/
theorem register_injective (hp : p.msb = true) (bytes : Bytes) :
    Function.Injective (register p · bytes) := by
  induction bytes with
  | nil => exact Function.injective_id
  | cons b bytes ih =>
    intro c c' h
    dsimp only at h
    rw [register_cons hw, register_cons hw] at h
    have hstate : c ^^^ b.setWidth w = c' ^^^ b.setWidth w := (shift_injective hp).iterate 8 (ih h)
    exact (BitVec.xor_left_inj _).mp hstate

/-- A change of one byte changes the register. -/
theorem register_change (hp : p.msb = true) (seed : BitVec w) (a : Bytes) (x y : Byte) (b : Bytes)
    (h : register p seed (a ++ x :: b) = register p seed (a ++ y :: b)) : x = y := by
  rw [register_append, register_append, register_cons hw, register_cons hw] at h
  have hbyte := (shift_injective hp).iterate 8 (register_injective hw hp b h)
  have hset : x.setWidth w = y.setWidth w := (BitVec.xor_right_inj _).mp hbyte
  have htrunc := congrArg (BitVec.setWidth 8) hset
  rwa [BitVec.setWidth_setWidth_of_le _ hw, BitVec.setWidth_setWidth_of_le _ hw, BitVec.setWidth_eq,
    BitVec.setWidth_eq] at htrunc

end

end Infra
