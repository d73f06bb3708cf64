import Owfs.Infra.ShiftRegister
import Owfs.Device.Crc

/-!
# Checksums and polynomials

The table of `CRC8` and the parities of `CRC16` do for a byte at once what the shift registers of
the two polynomials do bit by bit.
-/

namespace Owfs.Device

open Infra

/-- `x^8 + x^5 + x^4 + 1` -/
def crc8Polynomial : BitVec 8 := polynomial 8 [5, 4, 0]

/-- `x^16 + x^15 + x^2 + 1` -/
def crc16Polynomial : BitVec 16 := polynomial 16 [15, 2, 0]

/-! ## CRC8 -/

theorem crc8Table_eq : ∀ x : Byte, crc8Table.getD x.toNat 0 = (shift crc8Polynomial)^[8] x := by
  decide +kernel

theorem crc8Compute_eq (bytes : Bytes) (seed : Byte) :
    crc8Compute bytes seed = register crc8Polynomial seed bytes := by
  induction bytes generalizing seed with
  | nil => rfl
  | cons b bytes ih =>
    rw [register_cons (le_refl 8), BitVec.setWidth_eq, ← crc8Table_eq, ← ih]
    rfl

/-! ## CRC16 -/

/-- What the loop of `CRC16compute` puts into the high bits for a byte. -/
def crc16Byte (x : Byte) : BitVec 32 :=
  let c := x.zeroExtend 32
  (if crc16Table.getD (c &&& 0x0F).toNat 0 ^^^ crc16Table.getD (c >>> 4).toNat 0 ≠ 0 then 0xC001
    else 0#32) ^^^
    (c <<< 6) ^^^ (c <<< 6 <<< 1)

theorem crc16Byte_eq :
    ∀ x : Byte, crc16Byte x = ((shift crc16Polynomial)^[8] (x.setWidth 16)).setWidth 32 := by
  decide +kernel

/-- The byte at the right end of the register and the one that comes in. -/
theorem crc16Step_eq (crc : BitVec 32) (b : Byte) :
    crc16Step crc b = (crc >>> 8) ^^^ crc16Byte (crc.setWidth 8 ^^^ b) := by
  have hc : (b.zeroExtend 32 ^^^ (crc &&& 0xFF)) &&& 0xFF =
      (crc.setWidth 8 ^^^ b).zeroExtend 32 := by
    refine BitVec.eq_of_getLsbD_eq fun i hi => ?_
    have hmask : (0xFF : BitVec 32).getLsbD i = decide (i < 8) := by
      rw [show (0xFF : BitVec 32) = BitVec.ofNat 32 (2 ^ 8 - 1) from rfl, BitVec.getLsbD_ofNat,
        Nat.testBit_two_pow_sub_one, decide_eq_true hi, Bool.true_and]
    simp only [BitVec.getLsbD_and, BitVec.getLsbD_xor, BitVec.getLsbD_setWidth, hmask]
    by_cases h8 : i < 8
    · simp [h8, hi, Bool.xor_comm]
    · simp [h8, BitVec.getLsbD_of_ge b i (by omega)]
  rw [crc16Step, hc, crc16Byte]
  split
  · ac_rfl
  · rw [BitVec.zero_xor]
    ac_rfl

/-- The register stays within 16 bits. -/
theorem foldl_crc16Step (bytes : Bytes) (seed : BitVec 16) :
    bytes.foldl crc16Step (seed.setWidth 32) =
      (register crc16Polynomial seed bytes).setWidth 32 := by
  induction bytes generalizing seed with
  | nil => rfl
  | cons b bytes ih =>
    have hlow : (seed ^^^ b.setWidth 16).setWidth 8 = (seed.setWidth 32).setWidth 8 ^^^ b := by
      rw [BitVec.setWidth_xor, BitVec.setWidth_setWidth_of_le _ (by decide),
        BitVec.setWidth_setWidth_of_le _ (by decide), BitVec.setWidth_eq]
    have hhigh : (seed ^^^ b.setWidth 16) >>> 8 = seed >>> 8 := by
      rw [BitVec.ushiftRight_xor_distrib, setWidth_ushiftRight_eight, BitVec.xor_zero]
    have hstep : crc16Step (seed.setWidth 32) b =
        ((shift crc16Polynomial)^[8] (seed ^^^ b.setWidth 16)).setWidth 32 := by
      rw [crc16Step_eq, crc16Byte_eq, ← hlow, iterate_shift_eight (seed ^^^ b.setWidth 16), hhigh,
        BitVec.xor_comm]
      exact (congrArg _ (BitVec.setWidth_ushiftRight (by decide)).symm).trans
        BitVec.setWidth_xor.symm
    rw [List.foldl_cons, hstep, ih, register_cons (by decide)]

theorem crc16Compute_eq (bytes : Bytes) (seed : BitVec 16) :
    crc16Compute bytes (seed.setWidth 32) = register crc16Polynomial seed bytes := by
  rw [crc16Compute, foldl_crc16Step]
  exact (BitVec.setWidth_setWidth_of_le _ (by decide)).trans (BitVec.setWidth_eq _)

/-! ## Protected strings -/

/-- The complement of a checksum, low byte first. -/
def complementBytes (crc : BitVec 16) : Bytes := [(~~~crc).setWidth 8, ((~~~crc) >>> 8).setWidth 8]

theorem flatMap_bitsOf_complementBytes (crc : BitVec 16) :
    (complementBytes crc).flatMap bitsOf = (List.range 16).map (~~~crc).getLsbD := by
  have hrange : List.range 16 = List.range 8 ++ (List.range 8).map (8 + ·) := rfl
  rw [complementBytes, List.flatMap_cons, List.flatMap_singleton, hrange, List.map_append,
    List.map_map]
  congr 1
  · refine List.map_congr_left fun i hi => ?_
    rw [BitVec.getLsbD_setWidth, decide_eq_true (List.mem_range.mp hi), Bool.true_and]
  · refine List.map_congr_left fun i hi => ?_
    rw [BitVec.getLsbD_setWidth, decide_eq_true (List.mem_range.mp hi), Bool.true_and,
      BitVec.getLsbD_ushiftRight]
    rfl

/-- Behind a message, the complement of its checksum leaves the same in the register for all
messages. -/
theorem register_complementBytes (crc : BitVec 16) :
    register crc16Polynomial crc (complementBytes crc) = crc16Residue := by
  have hclock := foldl_clock crc16Polynomial crc (~~~crc) 16
  have hones : crc ^^^ ~~~crc = BitVec.allOnes 16 := by
    refine BitVec.eq_of_getLsbD_eq fun i hi => ?_
    rw [BitVec.getLsbD_xor, BitVec.getLsbD_not, BitVec.getLsbD_allOnes, decide_eq_true hi,
      Bool.true_and, Bool.xor_not_self]
  rw [BitVec.ushiftRight_eq_zero (le_refl 16), BitVec.xor_zero, hones] at hclock
  rw [register, flatMap_bitsOf_complementBytes, hclock]
  decide +kernel

/-- The complement of the checksum is what the other end expects. -/
theorem crc16_complementBytes (bytes : Bytes) :
    crc16 (bytes ++ complementBytes (crc16Compute bytes 0)) = 0 := by
  have hzero : crc16Compute bytes 0 = register crc16Polynomial 0 bytes := crc16Compute_eq bytes 0
  refine crc16Seeded_eq_zero_iff.mpr ((crc16Compute_eq _ 0).trans ?_)
  rw [register_append, hzero, register_complementBytes]

/-- **The checksums.** They are the registers of their polynomials; a string can be taken in parts;
a string with its checksum is good, and is not any more when one byte of it is changed. -/
theorem crc_spec :
    (∀ (bytes : Bytes) (seed : Byte),
      crc8Compute bytes seed = register (polynomial 8 [5, 4, 0]) seed bytes) ∧
      (∀ (bytes : Bytes) (seed : BitVec 16),
        crc16Compute bytes (seed.setWidth 32) = register (polynomial 16 [15, 2, 0]) seed bytes) ∧
      (∀ (a b : Bytes) (seed : Byte),
        crc8Compute (a ++ b) seed = crc8Compute b (crc8Compute a seed)) ∧
      (∀ (a b : Bytes) (seed : BitVec 16), crc16Compute (a ++ b) (seed.setWidth 32)
        = crc16Compute b ((crc16Compute a (seed.setWidth 32)).setWidth 32)) ∧
      (∀ bytes : Bytes, crc8 (bytes ++ [crc8 bytes]) = 0) ∧
      (∀ bytes : Bytes, crc16 (bytes ++ complementBytes (crc16Compute bytes 0)) = 0) ∧
      (∀ (a : Bytes) (x y : Byte) (b : Bytes), x ≠ y → crc8 (a ++ x :: b) = 0 →
      crc8 (a ++ y :: b) ≠ 0) ∧
      ∀ (a : Bytes) (x y : Byte) (b : Bytes), x ≠ y → crc16 (a ++ x :: b) = 0 →
      crc16 (a ++ y :: b) ≠ 0 := by
  refine ⟨crc8Compute_eq, crc16Compute_eq, crc8Compute_append, ?_, ?_, crc16_complementBytes, ?_,
    ?_⟩
  · intro a b seed
    rw [crc16Compute_eq, crc16Compute_eq, crc16Compute_eq, register_append]
  · intro bytes
    exact (crc8_concat_eq_zero_iff bytes _).mpr rfl
  · intro a x y b hne hx hy
    have hcrc : register crc8Polynomial 0 (a ++ x :: b) =
        register crc8Polynomial 0 (a ++ y :: b) := by
      rw [← crc8Compute_eq, ← crc8Compute_eq]
      exact hx.trans hy.symm
    exact hne (register_change (le_refl 8) (by decide) 0 a x y b hcrc)
  · intro a x y b hne hx hy
    have hx' : register crc16Polynomial 0 (a ++ x :: b) = crc16Residue :=
      (crc16Compute_eq _ 0).symm.trans (crc16Seeded_eq_zero_iff.mp hx)
    have hy' : register crc16Polynomial 0 (a ++ y :: b) = crc16Residue :=
      (crc16Compute_eq _ 0).symm.trans (crc16Seeded_eq_zero_iff.mp hy)
    exact hne (register_change (by decide) (by decide) 0 a x y b (hx'.trans hy'.symm))

/-- A byte with its checksum, and another byte in its place. -/
theorem crc_spec_changed :
    (crc8 [0x02, 0xBC] = 0 ∧ crc8 [0x03, 0xBC] ≠ 0) ∧
      crc16 (0x02 :: complementBytes (crc16Compute [0x02] 0)) = 0 ∧
      crc16 (0x03 :: complementBytes (crc16Compute [0x02] 0)) ≠ 0 := by
  have hgood : crc16 ([0x02] ++ complementBytes (crc16Compute [0x02] 0)) = 0 :=
    crc_spec.2.2.2.2.2.1 [0x02]
  exact ⟨⟨by decide, crc_spec.2.2.2.2.2.2.1 [] 0x02 0x03 [0xBC] (by decide) (by decide)⟩, hgood,
    crc_spec.2.2.2.2.2.2.2 [] 0x02 0x03 _ (by decide) hgood⟩

end Owfs.Device
