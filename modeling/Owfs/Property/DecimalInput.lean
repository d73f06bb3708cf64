import Owfs.Property.Numbers

/-!
# Decimal numbers that are written

A client writes a number as text. `FS_input_integer`, `FS_input_unsigned` and `FS_input_yesno`
(`ow_parseinput.c`) let `strtol` or `strtoul` read it and refuse it if there was an error. But the
result has 64 bits and only the lower 32 of them are kept.
-/

namespace Owfs.Property

open Infra

/-- What the value that is kept stands for. -/
def NumberFormat.Keeps : NumberFormat → BitVec 32 → Int → Prop
  | .integer, n, v => n.toInt = v
  | .unsigned, n, v => (n.toNat : Int) = v
  | .yesno, n, v => n = if v ≠ 0 then 1 else 0

instance : (number : NumberFormat) → (n : BitVec 32) → (v : Int) → Decidable (number.Keeps n v)
  | .integer, n, v => inferInstanceAs (Decidable (n.toInt = v))
  | .unsigned, n, v => inferInstanceAs (Decidable ((n.toNat : Int) = v))
  | .yesno, n, v => inferInstanceAs (Decidable (n = if v ≠ 0 then 1 else 0))

/-- A number is accepted only if it is kept as it is. -/
def NumberFormat.ExactOrRefused (number : NumberFormat) (x : DecimalText) : Prop :=
  (number.owqParseInput x.text).1 = 0 → ∃ v, x.value = some v ∧
    number.Keeps (number.owqParseInput x.text).2 v

/-- The numbers for which this is so: the error is seen, or nothing is lost. -/
def NumberFormat.Fits : NumberFormat → Int → Prop
  | .integer, v => v < -2 ^ 63 ∨ -2 ^ 31 ≤ v ∧ v < 2 ^ 31 ∨ 2 ^ 63 ≤ v
  | .unsigned, v => v ≤ -2 ^ 64 ∨ 0 ≤ v ∧ v < 2 ^ 32 ∨ 2 ^ 64 ≤ v
  | .yesno, v => v < -2 ^ 63 ∨ v = 0 ∨ v % 2 ^ 32 ≠ 0 ∨ 2 ^ 63 ≤ v

/-- What is in a decimal text does not end the string, and no word starts with it. -/
theorem isDecimal_ne : ∀ b : Byte, DecimalText.isDecimal b = true →
    b ≠ 0 ∧ toLower b ≠ chr 'y' ∧ toLower b ≠ chr 'n' ∧ toLower b ≠ chr 'o' := by
  decide +kernel

theorem inputBuffer_decimalText (x : DecimalText) : inputBuffer x.text = x.text :=
  List.takeWhile_eq_self_iff.mpr fun b hb =>
    decide_eq_true (isDecimal_ne b (DecimalText.isDecimal_of_mem_text hb)).1

/-! ## Keeping 32 bits -/

theorem toNat_ofInt_emod_eq_iff (v : Int) :
    ((BitVec.ofInt 32 (v % 2 ^ 64)).toNat : Int) = v ↔ 0 ≤ v ∧ v < 2 ^ 32 := by
  rw [BitVec.toNat_ofInt]
  omega

theorem ofInt_eq_zero_iff (v : Int) : BitVec.ofInt 32 v = 0 ↔ v % 2 ^ 32 = 0 := by
  rw [← BitVec.toNat_inj, BitVec.toNat_ofInt]
  simp
  omega

/-! ## Words -/

theorem not_startsWith {b c : Byte} (h : toLower b ≠ c) (s word : Bytes) :
    startsWith (b :: s) (c :: word) = false := by
  simp [startsWith, h]

/-- A number that is out of range is no word either. -/
theorem fsInputWord_decimalText (x : DecimalText) : (fsInputWord x.text).1 ≠ 0 := by
  rw [fsInputWord]
  cases hdrop : x.text.dropWhile fun b => b == chr ' ' || b == chr '\t' with
  | nil => decide
  | cons b s =>
    have hmem : b ∈ x.text := (List.dropWhile_suffix _).subset (hdrop ▸ List.mem_cons_self)
    obtain ⟨-, hy, hn, ho⟩ := isDecimal_ne b (DecimalText.isDecimal_of_mem_text hmem)
    have hy' : startsWith (b :: s) (ascii "y") = false := not_startsWith hy s _
    have hn' : startsWith (b :: s) (ascii "n") = false := not_startsWith hn s _
    have hon : startsWith (b :: s) (ascii "on") = false := not_startsWith ho s _
    have hoff : startsWith (b :: s) (ascii "off") = false := not_startsWith ho s _
    dsimp only
    rw [hy', hn', hon, hoff]
    decide

/-! ## What is accepted -/

/-- The numbers that `strtol` and `strtoul` can return. -/
def NumberFormat.InRange : NumberFormat → Int → Prop
  | .integer, v | .yesno, v => -2 ^ 63 ≤ v ∧ v < 2 ^ 63
  | .unsigned, v => -2 ^ 64 < v ∧ v < 2 ^ 64

/-- What is kept of a number. -/
def NumberFormat.kept : NumberFormat → Int → BitVec 32
  | .integer, v => BitVec.ofInt 32 v
  | .unsigned, v => BitVec.ofInt 32 (v % 2 ^ 64)
  | .yesno, v => if BitVec.ofInt 32 v ≠ 0 then 1 else 0

section

variable {x : DecimalText} {v : Int}

theorem strtol_text_of_range (h : x.value = some v) (hlo : -2 ^ 63 ≤ v) (hhi : v < 2 ^ 63) :
    strtol x.text = ⟨v, false, true⟩ := by
  rw [x.strtol_text, h]
  dsimp only
  rw [if_neg (Int.not_lt.mpr hlo), if_neg (Int.not_le.mpr hhi)]

theorem range_strtol_text (h : x.value = some v) (hv : ¬(-2 ^ 63 ≤ v ∧ v < 2 ^ 63)) :
    (strtol x.text).range = true := by
  rw [x.strtol_text, h]
  dsimp only
  by_cases hlo : v < -2 ^ 63
  · rw [if_pos hlo]
  · rw [if_neg hlo, if_pos (by omega)]

theorem conversionError_ne_zero {c : Conversion} (h : c.range = true) : conversionError c ≠ 0 := by
  rw [conversionError, if_pos h]
  decide

theorem owqParseInput_eq (number : NumberFormat) (h : x.value = some v) (hv : number.InRange v) :
    number.owqParseInput x.text = (0, number.kept v) := by
  cases number with
  | integer =>
    rw [NumberFormat.owqParseInput, fsInputInteger, inputBuffer_decimalText,
      strtol_text_of_range h hv.1 hv.2]
    rfl
  | unsigned =>
    rw [NumberFormat.owqParseInput, fsInputUnsigned, inputBuffer_decimalText, x.strtoul_text, h]
    dsimp only
    rw [if_neg (by have := hv.1; have := hv.2; omega)]
    rfl
  | yesno =>
    rw [NumberFormat.owqParseInput, fsInputYesno, inputBuffer_decimalText,
      strtol_text_of_range h hv.1 hv.2]
    rfl

theorem owqParseInput_ne_zero (number : NumberFormat) (h : x.value = some v)
    (hv : ¬number.InRange v) :
    (number.owqParseInput x.text).1 ≠ 0 := by
  cases number with
  | integer =>
    rw [NumberFormat.owqParseInput, fsInputInteger, inputBuffer_decimalText]
    exact conversionError_ne_zero (range_strtol_text h hv)
  | unsigned =>
    rw [NumberFormat.owqParseInput, fsInputUnsigned, inputBuffer_decimalText]
    refine conversionError_ne_zero ?_
    rw [x.strtoul_text, h]
    dsimp only
    rw [if_pos (by rw [NumberFormat.InRange] at hv; omega)]
  | yesno =>
    rw [NumberFormat.owqParseInput, fsInputYesno, inputBuffer_decimalText, if_neg]
    · exact fsInputWord_decimalText x
    · rw [range_strtol_text h hv]
      exact fun hrange => Bool.noConfusion hrange.1

/-- Nothing is accepted without a digit. -/
theorem owqParseInput_ne_zero_of_none (number : NumberFormat) (h : x.value = none) :
    (number.owqParseInput x.text).1 ≠ 0 := by
  cases number with
  | integer =>
    rw [NumberFormat.owqParseInput, fsInputInteger, inputBuffer_decimalText, x.strtol_text, h]
    decide
  | unsigned =>
    rw [NumberFormat.owqParseInput, fsInputUnsigned, inputBuffer_decimalText, x.strtoul_text, h]
    decide
  | yesno =>
    rw [NumberFormat.owqParseInput, fsInputYesno, inputBuffer_decimalText, x.strtol_text, h]
    exact fsInputWord_decimalText x

end

theorem keeps_kept_iff (number : NumberFormat) (v : Int) :
    (number.InRange v → number.Keeps (number.kept v) v) ↔ number.Fits v := by
  cases number with
  | integer =>
    rw [NumberFormat.Keeps, NumberFormat.kept, toInt_ofInt_eq_iff, NumberFormat.InRange,
      NumberFormat.Fits]
    omega
  | unsigned =>
    rw [NumberFormat.Keeps, NumberFormat.kept, toNat_ofInt_emod_eq_iff, NumberFormat.InRange,
      NumberFormat.Fits]
    omega
  | yesno =>
    have hkept : ((if BitVec.ofInt 32 v ≠ 0 then 1 else 0 : BitVec 32) = if v ≠ 0 then 1 else 0) ↔
        v = 0 ∨ v % 2 ^ 32 ≠ 0 := by
      simp only [ne_eq, ofInt_eq_zero_iff]
      by_cases hv : v = 0
      · simp [hv]
      · simp [hv]
    rw [NumberFormat.Keeps, NumberFormat.kept, hkept, NumberFormat.InRange, NumberFormat.Fits]
    omega

/-- **Decimal input.** A text of blanks, a sign and digits is kept exactly or refused if and only if
its number fits the format or is out of the range of a 64-bit conversion. -/
theorem exactOrRefused_iff (number : NumberFormat) (x : DecimalText) :
    number.ExactOrRefused x ↔ ∀ v, x.value = some v → number.Fits v := by
  cases hvalue : x.value with
  | none =>
    refine iff_of_true (fun haccept => ?_) nofun
    exact absurd haccept (owqParseInput_ne_zero_of_none number hvalue)
  | some v =>
    have hfits : (∀ w, some v = some w → number.Fits w) ↔ number.Fits v :=
      ⟨fun h => h v rfl, fun h w hw => Option.some.inj hw ▸ h⟩
    rw [hfits, ← keeps_kept_iff]
    constructor
    · intro h hrange
      have hparse := owqParseInput_eq number hvalue hrange
      rw [NumberFormat.ExactOrRefused, hparse, hvalue] at h
      obtain ⟨w, hw, hkeeps⟩ := h rfl
      cases hw
      exact hkeeps
    · intro h haccept
      have hrange : number.InRange v := by
        by_contra hrange
        exact owqParseInput_ne_zero number hvalue hrange haccept
      refine ⟨v, hvalue, ?_⟩
      rw [owqParseInput_eq number hvalue hrange]
      exact h hrange

/-- 2^32 -/
def sampleNumber : DecimalText := ⟨[], .none, ascii "4294967296", nofun, by decide⟩

def sampleNegative : DecimalText := ⟨[], .minus, ascii "1", nofun, by decide⟩

/-- 2^32 is taken for 0, and -1 for 2^32 - 1. -/
theorem wrongNumbers :
    fsInputInteger (ascii "4294967296") = (0, 0) ∧
      ¬NumberFormat.ExactOrRefused .integer sampleNumber ∧
      fsInputUnsigned (ascii "-1") = (0, 4294967295) ∧
      ¬NumberFormat.ExactOrRefused .unsigned sampleNegative ∧
      fsInputYesno (ascii "4294967296") = (0, 0) ∧
      ¬NumberFormat.ExactOrRefused .yesno sampleNumber := by
  have hnumber : sampleNumber.value = some 4294967296 := by decide
  have hnegative : sampleNegative.value = some (-1) := by decide
  refine ⟨by decide, ?_, by decide, ?_, by decide, ?_⟩
  · intro h
    obtain ⟨v, hv, hkeeps⟩ := h (by decide)
    cases hnumber.symm.trans hv
    exact absurd hkeeps (by decide)
  · intro h
    obtain ⟨v, hv, hkeeps⟩ := h (by decide)
    cases hnegative.symm.trans hv
    exact absurd hkeeps (by decide)
  · intro h
    obtain ⟨v, hv, hkeeps⟩ := h (by decide)
    cases hnumber.symm.trans hv
    exact absurd hkeeps (by decide)

end Owfs.Property
