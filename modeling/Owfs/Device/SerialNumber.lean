import Owfs.Device.Crc

/-!
# Serial numbers

Bits of a byte string (`ow_getbit.c`), numbered from the least significant bit of the first byte,
and the eight bytes that name a 1-Wire slave.
-/

namespace Owfs.Device

open Infra

/-! ## Bits -/

/-- `UT_getbit` -/
def utGetbit (buf : Bytes) (loc : Nat) : Bool := (buf.getD (loc / 8) 0).getLsbD (loc % 8)

/-- `UT_setbit` -/
def utSetbit (buf : Bytes) (loc : Nat) (bit : Bool) : Bytes :=
  let b := buf.getD (loc / 8) 0
  buf.set (loc / 8)
    (if bit then b ||| (1#8 <<< (loc % 8)) else b &&& ~~~(1#8 <<< (loc % 8)))

/-- `UT_get2bit` -/
def utGet2bit (buf : Bytes) (loc : Nat) : BitVec 2 :=
  (buf.getD (loc / 4) 0).extractLsb' (2 * (loc % 4)) 2

/-- The masks of `UT_set2bit`. -/
def set2bitMask (p : Byte) (k : Nat) (bits : Byte) : Byte :=
  match k with
  | 0 => (p &&& 0xFC) ||| bits
  | 1 => (p &&& 0xF3) ||| (bits <<< 2)
  | 2 => (p &&& 0xCF) ||| (bits <<< 4)
  | _ => (p &&& 0x3F) ||| (bits <<< 6)

/-- `UT_set2bit` -/
def utSet2bit (buf : Bytes) (loc : Nat) (bits : BitVec 2) : Bytes :=
  buf.set (loc / 4) (set2bitMask (buf.getD (loc / 4) 0) (loc % 4) (bits.zeroExtend 8))

@[simp] theorem length_utSetbit (buf : Bytes) (loc : Nat) (bit : Bool) :
    (utSetbit buf loc bit).length = buf.length := List.length_set

@[simp] theorem length_utSet2bit (buf : Bytes) (loc : Nat) (bits : BitVec 2) :
    (utSet2bit buf loc bits).length = buf.length := List.length_set

/-- One bit of a byte after the masks of `UT_setbit`. -/
theorem getLsbD_setMask (b : Byte) {k j : Nat} (hj : j < 8) (bit : Bool) :
    (if bit then b ||| (1#8 <<< k) else b &&& ~~~(1#8 <<< k)).getLsbD j
      = if j = k then bit else b.getLsbD j := by
  have hone : (1#8 <<< k).getLsbD j = decide (j = k) := by
    rw [BitVec.getLsbD_shiftLeft, BitVec.getLsbD_one]
    by_cases h : j = k
    · simp [h, show k < 8 by omega]
    · simp [h]
      omega
  cases bit with
  | true =>
    rw [if_pos rfl, BitVec.getLsbD_or, hone]
    by_cases h : j = k <;> simp [h]
  | false =>
    rw [if_neg Bool.false_ne_true, BitVec.getLsbD_and, BitVec.getLsbD_not, hone]
    by_cases h : j = k <;> simp [h, hj]

theorem utGetbit_utSetbit {buf : Bytes} {loc : Nat} (h : loc < 8 * buf.length) (bit : Bool)
    (j : Nat) : utGetbit (utSetbit buf loc bit) j = if j = loc then bit else utGetbit buf j := by
  have hmask := getLsbD_setMask (buf.getD (loc / 8) 0) (k := loc % 8) (j := j % 8) (by omega) bit
  unfold utGetbit utSetbit
  simp only [List.getD_eq_getElem?_getD, List.getElem?_set] at hmask ⊢
  by_cases hbyte : loc / 8 = j / 8
  · rw [if_pos hbyte, if_pos (by omega), Option.getD_some, hmask, hbyte]
    have : j % 8 = loc % 8 ↔ j = loc := by omega
    simp only [this]
  · rw [if_neg hbyte, if_neg (by omega)]

/-- One pair of a byte after the masks of `UT_set2bit`. -/
theorem extract_set2bitMask (p : Byte) (bits : BitVec 2) : ∀ k < 4, ∀ j < 4,
    (set2bitMask p k (bits.zeroExtend 8)).extractLsb' (2 * j) 2
      = if j = k then bits else p.extractLsb' (2 * j) 2 := by
  intro k hk j hj
  interval_cases k <;> interval_cases j <;>
    (apply BitVec.eq_of_getLsbD_eq; intro i hi; interval_cases i <;> simp [set2bitMask])

theorem utGet2bit_utSet2bit {buf : Bytes} {loc : Nat} (h : loc < 4 * buf.length)
    (bits : BitVec 2) (j : Nat) :
    utGet2bit (utSet2bit buf loc bits) j = if j = loc then bits else utGet2bit buf j := by
  have hmask := extract_set2bitMask (buf.getD (loc / 4) 0) bits (loc % 4) (by omega) (j % 4)
    (by omega)
  unfold utGet2bit utSet2bit
  simp only [List.getD_eq_getElem?_getD, List.getElem?_set] at hmask ⊢
  by_cases hbyte : loc / 4 = j / 4
  · rw [if_pos hbyte, if_pos (by omega), Option.getD_some, hmask, hbyte]
    have : j % 4 = loc % 4 ↔ j = loc := by omega
    simp only [this]
  · rw [if_neg hbyte, if_neg (by omega)]

/-! ## Serial numbers -/

/-- The eight bytes of a slave: family code, six bytes of number, checksum. -/
structure SerialNumber where
  bytes : Bytes
  length_bytes : bytes.length = 8
deriving DecidableEq

namespace SerialNumber

variable {sn sn' : SerialNumber}

theorem eq_of_bytes : ∀ {a b : SerialNumber}, a.bytes = b.bytes → a = b
  | ⟨_, _⟩, ⟨_, _⟩, rfl => rfl

/-- All bytes zero. -/
def zero : SerialNumber := ⟨List.replicate 8 0, rfl⟩

/-- Bit `i`, `i < 64`. -/
def bit (sn : SerialNumber) (i : Nat) : Bool := utGetbit sn.bytes i

/-- `UT_setbit(sn, i, b)` -/
def setBit (sn : SerialNumber) (i : Nat) (b : Bool) : SerialNumber where
  bytes := utSetbit sn.bytes i b
  length_bytes := by rw [length_utSetbit, sn.length_bytes]

/-- `sn[0]`, the family code. -/
def family (sn : SerialNumber) : Byte := sn.bytes.getD 0 0

/-- The checksum is good. -/
def CrcValid (sn : SerialNumber) : Prop := crc8 sn.bytes = 0

instance (sn : SerialNumber) : Decidable sn.CrcValid := inferInstanceAs (Decidable (_ = _))

theorem bit_setBit {i : Nat} (h : i < 64) (b : Bool) (j : Nat) :
    (sn.setBit i b).bit j = if j = i then b else sn.bit j :=
  utGetbit_utSetbit (by rw [sn.length_bytes]; exact h) b j

/-- A byte is known from its bits. -/
theorem getD_eq_of_bit {k : Nat} (h : ∀ i, i / 8 = k → sn.bit i = sn'.bit i) :
    sn.bytes.getD k 0 = sn'.bytes.getD k 0 := by
  apply BitVec.eq_of_getLsbD_eq
  intro j hj
  have := h (8 * k + j) (by omega)
  unfold bit utGetbit at this
  rwa [show (8 * k + j) / 8 = k by omega, show (8 * k + j) % 8 = j by omega] at this

/-- A serial number is known from its 64 bits. -/
theorem ext_bit (h : ∀ i < 64, sn.bit i = sn'.bit i) : sn = sn' := by
  apply eq_of_bytes
  apply List.ext_getElem (by rw [sn.length_bytes, sn'.length_bytes])
  intro k hk hk'
  have hbyte : sn.bytes.getD k 0 = sn'.bytes.getD k 0 :=
    getD_eq_of_bit fun i hi => h i (by rw [sn.length_bytes] at hk; omega)
  rwa [List.getD_eq_getElem _ _ hk, List.getD_eq_getElem _ _ hk'] at hbyte

/-- The last byte is the checksum of the first seven, so these decide. -/
theorem eq_of_bit_of_crcValid (hs : sn.CrcValid) (hs' : sn'.CrcValid)
    (h : ∀ i < 56, sn.bit i = sn'.bit i) : sn = sn' := by
  apply eq_of_bytes
  have hfront : sn.bytes.take 7 = sn'.bytes.take 7 := by
    apply List.ext_getElem (by simp [sn.length_bytes, sn'.length_bytes])
    intro k hk hk'
    have hk7 : k < 7 := by rw [List.length_take] at hk; omega
    have hbyte : sn.bytes.getD k 0 = sn'.bytes.getD k 0 :=
      getD_eq_of_bit fun i hi => h i (by omega)
    rw [List.getElem_take, List.getElem_take]
    rwa [List.getD_eq_getElem _ _ (by rw [sn.length_bytes]; omega),
      List.getD_eq_getElem _ _ (by rw [sn'.length_bytes]; omega)] at hbyte
  have hsplit : ∀ {t : SerialNumber}, t.CrcValid →
      t.bytes = t.bytes.take 7 ++ [crc8 (t.bytes.take 7)] := by
    intro t ht
    obtain ⟨b, hb⟩ : ∃ b, t.bytes.drop 7 = [b] :=
      List.length_eq_one_iff.mp (by rw [List.length_drop, t.length_bytes])
    have hcut : t.bytes = t.bytes.take 7 ++ [b] := by rw [← hb, List.take_append_drop]
    unfold CrcValid at ht
    rw [hcut, crc8_concat_eq_zero_iff] at ht
    rw [← ht]
    exact hcut
  rw [hsplit hs, hsplit hs', hfront]

end SerialNumber

end Owfs.Device
