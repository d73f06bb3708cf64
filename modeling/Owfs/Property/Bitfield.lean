import Owfs.Bus.BitData
import Owfs.Infra.BitSlice

/-!
# Bit fields

Some properties are a few bits of a register that is a property of its own. `FS_r_bitfield` and
`FS_w_bitfield` are for bits next to each other, `FS_r_bit_array` and `FS_w_bit_array` for bits at
equal distances (`ow_bitfield.c`).

The register is what the other property, the sibling, is read and written as. An `int` has 32 bits,
and a shift by 32 or more has no value. The bytes of an `int` are in memory with the lowest one
first.
-/

namespace Owfs.Property

open Infra Owfs.Device

/-- `struct bitfield`, apart from the name of the register -/
structure Bitfield where
  size : Nat
  shift : Nat
deriving DecidableEq

/-- `x << n` -/
def shiftLeft (x : BitVec 32) (n : Nat) : Option (BitVec 32) :=
  if n < 32 then some (x <<< n) else none

/-- `x >> n` -/
def shiftRight (x : BitVec 32) (n : Nat) : Option (BitVec 32) :=
  if n < 32 then some (x >>> n) else none

/-- `( 0x01 << bf->size ) - 1` -/
def Bitfield.mask (bf : Bitfield) : Option (BitVec 32) := (shiftLeft 1 bf.size).map (· - 1)

/-- `FS_r_bitfield` -/
def fsRBitfield (bf : Bitfield) (val : BitVec 32) : Option (BitVec 32) := do
  let mask ← bf.mask
  let shifted ← shiftRight val bf.shift
  some (shifted &&& mask)

/-- `FS_w_bitfield` -/
def fsWBitfield (bf : Bitfield) (v val : BitVec 32) : Option (BitVec 32) := do
  let mask ← bf.mask
  let field ← shiftLeft mask bf.shift
  let added ← shiftLeft (v &&& mask) bf.shift
  some (val &&& ~~~field ||| added)

/-- `UT_uint32_to_bytes` -/
def utUint32ToBytes (num : BitVec 32) : Bytes :=
  [num.extractLsb' 0 8, num.extractLsb' 8 8, num.extractLsb' 16 8, num.extractLsb' 24 8]

/-- `UT_uint32` -/
def utUint32 (p : Bytes) : BitVec 32 := p.getD 3 0 ++ p.getD 2 0 ++ p.getD 1 0 ++ p.getD 0 0

/-- `FS_r_bit_array`. The bytes of `array` are zero at first. -/
def fsRBitArray (elements : Nat) (bf : Bitfield) (val : BitVec 32) : BitVec 32 :=
  utUint32 ((List.range elements).foldl
    (fun array i => utSetbit array i (utGetbit (utUint32ToBytes val) (i * bf.size + bf.shift)))
      (utUint32ToBytes 0))

/-- `FS_w_bit_array` -/
def fsWBitArray (elements : Nat) (bf : Bitfield) (v val : BitVec 32) : BitVec 32 :=
  utUint32 ((List.range elements).foldl
    (fun data i => utSetbit data (i * bf.size + bf.shift) (utGetbit (utUint32ToBytes v) i))
      (utUint32ToBytes val))

/-! ## Fields -/

/-- A property that is a part of a register -/
inductive Field where
  | bits (bf : Bitfield)
  | array (elements : Nat) (bf : Bitfield)
deriving DecidableEq

namespace Field

/-- It has at least one bit, and all its bits are in the register. -/
def Valid : Field → Prop
  | .bits bf => 1 ≤ bf.size ∧ bf.shift + bf.size ≤ 32
  | .array elements bf => 1 ≤ elements ∧ 1 ≤ bf.size ∧ (elements - 1) * bf.size + bf.shift < 32

def read : Field → BitVec 32 → Option (BitVec 32)
  | .bits bf, val => fsRBitfield bf val
  | .array elements bf, val => some (fsRBitArray elements bf val)

def write : Field → BitVec 32 → BitVec 32 → Option (BitVec 32)
  | .bits bf, v, val => fsWBitfield bf v val
  | .array elements bf, v, val => some (fsWBitArray elements bf v val)

def width : Field → Nat
  | .bits bf => bf.size
  | .array elements _ => elements

def position : Field → Nat → Nat
  | .bits bf, i => bf.shift + i
  | .array _ bf, i => i * bf.size + bf.shift

/-- The part of the register -/
def slice (f : Field) (h : f.Valid) : BitSlice 32 where
  width := f.width
  position := f.position
  position_lt := by
    intro i hi
    cases f with
    | bits bf =>
      simp only [Valid, width, position] at *
      omega
    | array elements bf =>
      simp only [Valid, width, position] at *
      have hle := Nat.mul_le_mul_right bf.size (show i ≤ elements - 1 by omega)
      omega
  position_inj := by
    intro i _ j _ heq
    cases f with
    | bits bf =>
      simp only [position] at heq
      omega
    | array elements bf =>
      simp only [position] at heq
      exact Nat.eq_of_mul_eq_mul_right h.2.1 (by omega)

/-! ## Bits next to each other -/

theorem getLsbD_mask :
    ∀ size < 32, ∀ j < 32, ((1 : BitVec 32) <<< size - 1).getLsbD j = decide (j < size) := by
  decide +kernel

theorem read_bits {bf : Bitfield} (h : (bits bf).Valid) (hsize : bf.size < 32) (r : BitVec 32) :
    ∃ x, (bits bf).read r = some x ∧ ((bits bf).slice h).Gets r x := by
  have hshift : bf.shift < 32 := by
    have := h.2
    have := h.1
    omega
  refine ⟨(r >>> bf.shift) &&& ((1 : BitVec 32) <<< bf.size - 1), ?_, fun j => ?_⟩
  · simp [read, fsRBitfield, Bitfield.mask, shiftLeft, shiftRight, hsize, hshift]
  · rw [BitVec.getLsbD_and, BitVec.getLsbD_ushiftRight]
    by_cases hj : j < 32
    · rw [getLsbD_mask _ hsize j hj, Bool.and_comm]
      rfl
    · rw [BitVec.getLsbD_of_ge _ _ (by omega), BitVec.getLsbD_of_ge _ (_ : Nat) (by omega)]
      simp [slice, position, BitVec.getLsbD_of_ge _ _ (show 32 ≤ bf.shift + j by omega)]

/-- A bit after the write. -/
theorem getLsbD_written {bf : Bitfield} (hsize : bf.size < 32) (v r : BitVec 32) {j : Nat}
    (hj : j < 32) :
    (r &&& ~~~(((1 : BitVec 32) <<< bf.size - 1) <<< bf.shift) |||
      (v &&& ((1 : BitVec 32) <<< bf.size - 1)) <<< bf.shift).getLsbD j
      = if bf.shift ≤ j ∧ j < bf.shift + bf.size then v.getLsbD (j - bf.shift)
        else r.getLsbD j := by
  rw [BitVec.getLsbD_or, BitVec.getLsbD_and, BitVec.getLsbD_not, BitVec.getLsbD_shiftLeft,
    BitVec.getLsbD_shiftLeft, BitVec.getLsbD_and, getLsbD_mask _ hsize (j - bf.shift) (by omega)]
  by_cases hlo : bf.shift ≤ j
  · by_cases hhi : j < bf.shift + bf.size
    · simp [hj, hlo, hhi, show ¬j < bf.shift by omega, show j - bf.shift < bf.size by omega]
    · simp [hj, hlo, hhi, show ¬j < bf.shift by omega, show ¬j - bf.shift < bf.size by omega]
  · simp [hj, hlo, show j < bf.shift by omega]

theorem write_bits {bf : Bitfield} (h : (bits bf).Valid) (hsize : bf.size < 32) (v r : BitVec 32) :
    ∃ r', (bits bf).write v r = some r' ∧ ((bits bf).slice h).Puts v r r' := by
  have hshift : bf.shift < 32 := by
    have := h.2
    have := h.1
    omega
  refine ⟨r &&& ~~~(((1 : BitVec 32) <<< bf.size - 1) <<< bf.shift) |||
    (v &&& ((1 : BitVec 32) <<< bf.size - 1)) <<< bf.shift, ?_, fun i hi => ?_, fun j hj => ?_⟩
  · simp only [write, fsWBitfield, Bitfield.mask, shiftLeft, if_pos hsize, if_pos hshift,
      Option.map_some, Option.bind_eq_bind, Option.bind_some]
  · change i < bf.size at hi
    change BitVec.getLsbD _ (bf.shift + i) = _
    have hend := h.2
    rw [getLsbD_written hsize v r (by omega), if_pos (by omega), Nat.add_sub_cancel_left]
  · by_cases hj' : j < 32
    · rw [getLsbD_written hsize v r hj', if_neg]
      rintro ⟨hlo, hhi⟩
      refine hj (j - bf.shift) (show j - bf.shift < bf.size by omega) ?_
      change bf.shift + (j - bf.shift) = j
      omega
    · rw [BitVec.getLsbD_of_ge _ j (by omega), BitVec.getLsbD_of_ge _ j (by omega)]

/-! ## Bits at equal distances -/

/-- Which byte a bit is in. -/
theorem bit_cases (j : Nat) :
    (∃ k < 8, j = k) ∨ (∃ k < 8, j = 8 + k) ∨ (∃ k < 8, j = 16 + k) ∨
    (∃ k < 8, j = 24 + k) ∨ 32 ≤ j := by
  by_cases h1 : j < 8
  · exact .inl ⟨j, h1, rfl⟩
  by_cases h2 : j < 16
  · exact .inr (.inl ⟨j - 8, by omega, by omega⟩)
  by_cases h3 : j < 24
  · exact .inr (.inr (.inl ⟨j - 16, by omega, by omega⟩))
  by_cases h4 : j < 32
  · exact .inr (.inr (.inr (.inl ⟨j - 24, by omega, by omega⟩)))
  · exact .inr (.inr (.inr (.inr (by omega))))

theorem utGetbit_utUint32ToBytes (num : BitVec 32) (j : Nat) :
    utGetbit (utUint32ToBytes num) j = num.getLsbD j := by
  obtain ⟨k, hk, rfl⟩ | ⟨k, hk, rfl⟩ | ⟨k, hk, rfl⟩ | ⟨k, hk, rfl⟩ | hj := bit_cases j
  · simp [utGetbit, utUint32ToBytes, Nat.div_eq_of_lt hk, Nat.mod_eq_of_lt hk, hk]
  · simp [utGetbit, utUint32ToBytes, show (8 + k) / 8 = 1 by omega, Nat.mod_eq_of_lt hk, hk]
  · simp [utGetbit, utUint32ToBytes, show (16 + k) / 8 = 2 by omega, show (16 + k) % 8 = k by omega,
      hk]
  · simp [utGetbit, utUint32ToBytes, show (24 + k) / 8 = 3 by omega, show (24 + k) % 8 = k by omega,
      hk]
  · rw [utGetbit, List.getD_eq_default _ _ (show 4 ≤ j / 8 by omega), BitVec.getLsbD_of_ge num j hj]
    simp

theorem getLsbD_utUint32 {p : Bytes} (h : p.length = 4) (j : Nat) :
    (utUint32 p).getLsbD j = utGetbit p j := by
  change BitVec.getLsbD (w := 8 + 8 + 8 + 8) (p.getD 3 0 ++ p.getD 2 0 ++ p.getD 1 0 ++ p.getD 0 0)
    j = _
  rw [BitVec.getLsbD_append, BitVec.getLsbD_append, BitVec.getLsbD_append, utGetbit]
  obtain ⟨k, hk, rfl⟩ | ⟨k, hk, rfl⟩ | ⟨k, hk, rfl⟩ | ⟨k, hk, rfl⟩ | hj := bit_cases j
  · simp only [hk, if_true, Nat.div_eq_of_lt hk, Nat.mod_eq_of_lt hk]
  · simp only [show ¬8 + k < 8 by omega, show 8 + k - 8 = k by omega, hk, if_true, if_false,
      show (8 + k) / 8 = 1 by omega, show (8 + k) % 8 = k by omega]
  · simp only [show ¬16 + k < 8 by omega, show ¬16 + k - 8 < 8 by omega,
      show 16 + k - 8 - 8 =
        k by omega, hk, if_true, if_false, show (16 + k) / 8 = 2 by omega, show (16 +
        k) % 8 = k by omega]
  · simp only [show ¬24 + k < 8 by omega, show ¬24 + k - 8 < 8 by omega,
      show ¬24 + k - 8 - 8 < 8 by omega,
      show 24 + k - 8 - 8 - 8 = k by omega, if_false, show (24 + k) / 8 = 3 by omega,
      show (24 + k) % 8 = k by omega]
  · simp only [show ¬j < 8 by omega, show ¬j - 8 < 8 by omega, show ¬j - 8 - 8 < 8 by omega,
      if_false]
    rw [List.getD_eq_default _ _ (show p.length ≤ j / 8 by omega),
      BitVec.getLsbD_of_ge _ _ (by omega)]
    exact BitVec.getLsbD_zero.symm

/-- The loop of both functions: some bits are set one after another. -/
theorem foldl_utSetbit {data : Bytes} {position : Nat → Nat} (bit : Nat → Bool) {n : Nat}
    (hlt : ∀ i < n, position i < 8 * data.length)
    (hinj : ∀ i < n, ∀ j < n, position i = position j → i = j) :
    let data' := (List.range n).foldl (fun data i => utSetbit data (position i) (bit i)) data
    data'.length = data.length ∧ (∀ i < n, utGetbit data' (position i) = bit i) ∧
      ∀ j, (∀ i < n, position i ≠ j) → utGetbit data' j = utGetbit data j := by
  induction n with
  | zero => simp
  | succ n ih =>
    obtain ⟨hlength, hinside, houtside⟩ :=
      ih (fun i hi => hlt i (by omega)) fun i hi j hj => hinj i (by omega) j (by omega)
    have hset (j : Nat) :=
      @utGetbit_utSetbit ((List.range n).foldl (fun data i => utSetbit data (position i) (bit i))
        data)
      (position n) (by rw [hlength]; exact hlt n (by omega)) (bit n) j
    simp only [List.range_succ, List.foldl_append, List.foldl_cons, List.foldl_nil]
    refine ⟨by rw [length_utSetbit, hlength], fun i hi => ?_, fun j hj => ?_⟩
    · rw [hset]
      by_cases heq : i = n
      · rw [heq, if_pos rfl]
      · rw [if_neg fun h => heq (hinj i hi n (by omega) h), hinside i (by omega)]
    · rw [hset, if_neg (Ne.symm (hj n (by omega))), houtside j fun i hi => hj i (by omega)]

theorem elements_le {elements : Nat} {bf : Bitfield} (h : (array elements bf).Valid) :
    elements ≤ 32 := by
  obtain ⟨hone, hstride, hlast⟩ := h
  have hle := Nat.mul_le_mul_left (elements - 1) hstride
  omega

theorem read_array {elements : Nat} {bf : Bitfield} (h : (array elements bf).Valid)
    (r : BitVec 32) :
    ((array elements bf).slice h).Gets r (fsRBitArray elements bf r) := by
  have hle := elements_le h
  obtain ⟨hlength, hinside, houtside⟩ := @foldl_utSetbit (utUint32ToBytes 0) id
    (fun i => utGetbit (utUint32ToBytes r) (i * bf.size + bf.shift)) elements
    (fun i hi => show i < 32 by omega) (fun _ _ _ _ heq => heq)
  intro j
  refine (getLsbD_utUint32 hlength j).trans ?_
  by_cases hj : j < elements
  · have hbit := hinside j hj
    rw [utGetbit_utUint32ToBytes] at hbit
    rw [decide_eq_true (show j < ((array elements bf).slice h).width from hj), Bool.true_and]
    exact hbit
  · have hbit := houtside j fun i hi => show i ≠ j by omega
    rw [utGetbit_utUint32ToBytes] at hbit
    rw [decide_eq_false (show ¬j < ((array elements bf).slice h).width from hj), Bool.false_and]
    exact hbit.trans BitVec.getLsbD_zero

theorem write_array {elements : Nat} {bf : Bitfield} (h : (array elements bf).Valid)
    (v r : BitVec 32) :
    ((array elements bf).slice h).Puts v r (fsWBitArray elements bf v r) := by
  obtain ⟨hlength, hinside, houtside⟩ :=
    @foldl_utSetbit (utUint32ToBytes r) (array elements bf).position
    (fun i => utGetbit (utUint32ToBytes v) i) elements ((array elements bf).slice h).position_lt
    ((array elements bf).slice h).position_inj
  refine ⟨fun i hi => ?_, fun j hj => ?_⟩
  · refine (getLsbD_utUint32 hlength _).trans ?_
    rw [← utGetbit_utUint32ToBytes v]
    exact hinside i hi
  · refine (getLsbD_utUint32 hlength j).trans ?_
    rw [← utGetbit_utUint32ToBytes r]
    exact houtside j hj

/-! ## The laws -/

/-- The shift for the mask has a value. -/
def Narrow : Field → Prop
  | .bits bf => bf.size < 32
  | .array _ _ => True

theorem exists_read {f : Field} (h : f.Valid) (hnarrow : f.Narrow) (r : BitVec 32) :
    ∃ x, f.read r = some x ∧ (f.slice h).Gets r x := by
  cases f with
  | bits bf => exact read_bits h hnarrow r
  | array elements bf => exact ⟨_, rfl, read_array h r⟩

theorem exists_write {f : Field} (h : f.Valid) (hnarrow : f.Narrow) (v r : BitVec 32) :
    ∃ r', f.write v r = some r' ∧ (f.slice h).Puts v r r' := by
  cases f with
  | bits bf => exact write_bits h hnarrow v r
  | array elements bf => exact ⟨_, rfl, write_array h v r⟩

/-- No bit of the register belongs to both. -/
def Disjoint (f g : Field) : Prop := ∀ i < f.width, ∀ j < g.width, f.position i ≠ g.position j

/-- What is expected of a part of a register. -/
structure Lawful (f : Field) : Prop where
  /-- What was written is read, reduced to the width of the field, and other bits are as they
  were. -/
  write_read : ∀ v r, ∃ r', f.write v r = some r' ∧
    f.read r' = some ((v.setWidth f.width).setWidth 32) ∧
    ∀ j, (∀ i < f.width, f.position i ≠ j) → r'.getLsbD j = r.getLsbD j
  /-- Writing what was read changes nothing. -/
  read_write : ∀ r, ∃ x, f.read r = some x ∧ f.write x r = some r
  /-- Writes to disjoint fields commute. -/
  comm : ∀ g : Field, g.Valid → f.Disjoint g → ∀ v w r, ∃ r',
    (f.write v r).bind (g.write w) = some r' ∧
    (g.write w r).bind (f.write v) = some r'

/-- A field of the whole register is disjoint from no other one. -/
theorem narrow_of_disjoint {f g : Field} (hf : f.Valid) (hg : g.Valid) (h : f.Disjoint g) :
    g.Narrow := by
  cases g with
  | array => trivial
  | bits bf =>
    by_contra hwide
    have hfirst := (f.slice hf).position_lt 0 (by
      cases f with
      | bits bf => exact hf.1
      | array elements bf => exact hf.1)
    change ¬bf.size < 32 at hwide
    change f.position 0 < 32 at hfirst
    have hend := hg.2
    refine h 0 ?_ (f.position 0) (show f.position 0 < bf.size by omega)
      (show f.position 0 = bf.shift + f.position 0 by omega)
    cases f with
    | bits bf => exact hf.1
    | array elements bf => exact hf.1

theorem lawful_of_narrow {f : Field} (h : f.Valid) (hnarrow : f.Narrow) : f.Lawful where
  write_read v r := by
    obtain ⟨r', hr', hputs⟩ := exists_write h hnarrow v r
    obtain ⟨x, hx, hgets⟩ := exists_read h hnarrow r'
    refine ⟨r', hr', ?_, hputs.outside⟩
    rw [hx, hputs.gets hgets]
    rfl
  read_write r := by
    obtain ⟨x, hx, hgets⟩ := exists_read h hnarrow r
    obtain ⟨r', hr', hputs⟩ := exists_write h hnarrow x r
    refine ⟨x, hx, ?_⟩
    rw [hr', hputs.unique hgets.puts]
  comm g hg hdisjoint v w r := by
    have hgnarrow := narrow_of_disjoint h hg hdisjoint
    obtain ⟨a, ha, hputsa⟩ := exists_write h hnarrow v r
    obtain ⟨b, hb, hputsb⟩ := exists_write hg hgnarrow w a
    obtain ⟨c, hc, hputsc⟩ := exists_write hg hgnarrow w r
    obtain ⟨d, hd, hputsd⟩ := exists_write h hnarrow v c
    have heq : b = d :=
      BitSlice.Puts.comm (s := f.slice h) (t := g.slice hg) hdisjoint hputsa hputsb hputsc hputsd
    refine ⟨b, ?_, ?_⟩
    · rw [ha, Option.bind_some, hb]
    · rw [hc, Option.bind_some, hd, heq]

theorem not_lawful_of_wide {f : Field} (hwide : ¬f.Narrow) : ¬f.Lawful := by
  cases f with
  | array => exact absurd trivial hwide
  | bits bf =>
    change ¬bf.size < 32 at hwide
    intro hlawful
    obtain ⟨x, hx, -⟩ := hlawful.read_write 0
    simp [read, fsRBitfield, Bitfield.mask, shiftLeft, hwide] at hx

end Field

/-- **Bit fields.** A field of a register obeys the laws of a lens if and only if it is not the
whole register as bits next to each other: the shift for its mask would be by 32. -/
theorem field_lawful_iff (f : Field) (h : f.Valid) : f.Lawful ↔ f.Narrow :=
  ⟨fun hlawful => by_contra fun hwide => Field.not_lawful_of_wide hwide hlawful,
    Field.lawful_of_narrow h⟩

/-- `user` of a DS2415 -/
theorem field_lawful_iff_user : (Field.bits ⟨4, 4⟩).Lawful ↔ (Field.bits ⟨4, 4⟩).Narrow :=
  field_lawful_iff (.bits ⟨4, 4⟩) ⟨by decide, by decide⟩

/-- The whole register as one field -/
theorem wholeRegister_not_lawful : (Field.bits ⟨32, 0⟩).Valid ∧ ¬(Field.bits ⟨32, 0⟩).Lawful :=
  ⟨⟨by decide, by decide⟩, Field.not_lawful_of_wide (show ¬32 < 32 by decide)⟩

end Owfs.Property
