import Owfs.Path.DeviceName
import Owfs.Infra.CString

/-!
# Binary values in a form

`ShowReadWrite` shows a binary value as hexadecimal digits in lines of 32 bytes. When the form is
submitted, `ChangeData` takes the digits out of the text (`hex_only`) and turns them into bytes
(`hex_convert`). Both work in place, on the array that holds the text and its NUL.

`hex_convert` steps over two characters at a time and looks for the NUL only between the steps. With
an odd number of digits it steps over the NUL.
-/

namespace Owfs.Http

open Infra Owfs.Path

/-! ## The code -/

/-- `ShowReadWrite`, for a binary value: the text in the form. `i` is the index of the first
byte. -/
def showBinary (i : Nat) : Bytes → Bytes
  | [] => []
  | b :: bs => num2string b ++ (if bs ≠ [] ∧ (i + 1) % 32 = 0 then [13, 10] else []) ++
      showBinary (i + 1) bs

/-- The loop of `hex_only`. Leaving the array has no result; an array has fewer than `fuel`
characters from `leader` on. -/
def hexOnlyLoop (str : Bytes) (leader trailer : Nat) : Nat → Option Bytes
  | 0 => none
  | fuel + 1 =>
    str[leader]?.bind fun c =>
      if c = 0 then some (str.set trailer 0)
      else if isXdigit c then hexOnlyLoop (str.set trailer c) (leader + 1) (trailer + 1) fuel
      else hexOnlyLoop str (leader + 1) trailer fuel

/-- `hex_only` -/
def hexOnly (str : Bytes) : Option Bytes := hexOnlyLoop str 0 0 (str.length + 1)

/-- The loop of `hex_convert`. `string2num` reads two characters. -/
def hexConvertLoop (str : Bytes) (leader trailer : Nat) : Nat → Option (Bytes × Nat)
  | 0 => none
  | fuel + 1 =>
    str[leader]?.bind fun c =>
      if c = 0 then some (str, trailer)
      else str[leader + 1]?.bind fun d =>
        hexConvertLoop (str.set trailer (string2num [c, d])) (leader + 2) (trailer + 1) fuel

/-- `hex_convert`: the array, and the number of bytes at its start. -/
def hexConvert (str : Bytes) : Option (Bytes × Nat) := hexConvertLoop str 0 0 (str.length + 1)

/-- `ChangeData`, for a binary value: the bytes to be written. -/
def changeData (text : CString) : Option Bytes :=
  (hexOnly (text.1 ++ [0])).bind fun str => (hexConvert str).map fun (str, size) => str.take size

/-! ## What is to be shown -/

/-- The conversion does not leave the array that the text came in. -/
def StaysInArray (text : CString) : Prop := (changeData text).isSome = true

/-- The conversion does not read past the NUL of the string that `hex_only` has left. -/
def StaysInString (text : CString) : Prop :=
  ∃ str digits, hexOnly (text.1 ++ [0]) = some str ∧ cstring str = some digits ∧
    (hexConvert (digits ++ [0])).isSome = true

/-- The digits of a text. -/
def digitsOf (text : CString) : Bytes := text.1.filter isXdigit

/-! ## `hex_only` -/

theorem hexOnlyLoop_eq {s after : Bytes} (hs : 0 ∉ s) :
    ∀ (str : Bytes) (leader trailer fuel : Nat), str.drop leader = s ++ 0 :: after →
      trailer ≤ leader →
      s.length < fuel →
      hexOnlyLoop str leader trailer fuel
        = some (str.take trailer ++ s.filter isXdigit ++ 0 ::
          str.drop (trailer + (s.filter isXdigit).length + 1)) := by
  induction s with
  | nil =>
    intro str leader trailer fuel hdrop hle hfuel
    obtain ⟨fuel, rfl⟩ := Nat.exists_eq_succ_of_ne_zero (Nat.ne_zero_of_lt hfuel)
    have hlen : leader < str.length := by
      by_contra h
      rw [List.drop_eq_nil_of_le (Nat.not_lt.mp h)] at hdrop
      cases hdrop
    have hget : str[leader]? = some 0 := by
      rw [← List.head?_drop, hdrop]
      rfl
    rw [hexOnlyLoop, hget, Option.bind_some, if_pos rfl, List.set_eq_take_append_cons_drop,
      if_pos (by omega)]
    simp
  | cons c s ih =>
    intro str leader trailer fuel hdrop hle hfuel
    obtain ⟨hc, hs⟩ := not_or.mp (mt List.mem_cons.mpr hs)
    obtain ⟨fuel, rfl⟩ := Nat.exists_eq_succ_of_ne_zero (Nat.ne_zero_of_lt hfuel)
    rw [List.length_cons] at hfuel
    have hget : str[leader]? = some c := by
      rw [← List.head?_drop, hdrop]
      rfl
    have hlen : leader < str.length := (List.getElem?_eq_some_iff.mp hget).1
    have hdrop' : str.drop (leader + 1) = s ++ 0 :: after := by
      rw [← List.tail_drop, hdrop]
      rfl
    rw [hexOnlyLoop, hget, Option.bind_some, if_neg (Ne.symm hc)]
    by_cases hx : isXdigit c = true
    · have hset : (str.set trailer c).drop (leader + 1) = s ++ 0 :: after := by
        rw [List.drop_set_of_lt (by omega), hdrop']
      rw [if_pos hx, ih hs _ _ _ _ hset (by omega) (by omega), List.filter_cons_of_pos hx,
        List.drop_set_of_lt (by omega), List.set_eq_take_append_cons_drop, if_pos (by omega),
        List.take_append, List.take_of_length_le (by simp)]
      simp [Nat.min_eq_left (show trailer ≤ str.length by omega), Nat.add_assoc, Nat.add_comm,
        Nat.add_left_comm]
    · rw [if_neg hx, ih hs _ _ _ _ hdrop' (by omega) (by omega), List.filter_cons_of_neg hx]

/-- **`hex_only`** leaves the digits and a NUL, in front of what was there. -/
theorem hexOnly_eq (text : CString) :
    hexOnly (text.1 ++ [0])
      = some (digitsOf text ++ 0 :: (text.1 ++ [0]).drop ((digitsOf text).length + 1)) := by
  have :=
    hexOnlyLoop_eq text.2 (text.1 ++ [0]) 0 0 ((text.1 ++ [0]).length + 1) rfl (Nat.le_refl 0)
      (by simp)
  simpa [hexOnly, digitsOf] using this

/-! ## `hex_convert` -/

/-- The conversion ends if and only if there is a NUL an even number of characters ahead. -/
theorem isSome_hexConvertLoop :
    ∀ (fuel : Nat) (str : Bytes) (leader trailer : Nat), trailer ≤ leader →
    str.length < leader + 2 * fuel →
    ((hexConvertLoop str leader trailer fuel).isSome = true ↔ ∃ k, str[leader + 2 * k]? = some 0)
  | 0, str, leader, trailer, _, hfuel => by
    refine iff_of_false (by simp [hexConvertLoop]) ?_
    rintro ⟨k, hk⟩
    have := (List.getElem?_eq_some_iff.mp hk).1
    omega
  | fuel + 1, str, leader, trailer, hle, hfuel => by
    rw [hexConvertLoop]
    cases hc : str[leader]? with
    | none =>
      refine iff_of_false (by simp) ?_
      rintro ⟨k, hk⟩
      have := (List.getElem?_eq_some_iff.mp hk).1
      have := List.getElem?_eq_none_iff.mp hc
      omega
    | some c =>
      rw [Option.bind_some]
      by_cases hzero : c = 0
      · rw [if_pos hzero]
        exact iff_of_true rfl ⟨0, by rw [Nat.mul_zero, Nat.add_zero, hc, hzero]⟩
      rw [if_neg hzero]
      -- the NUL is not here, so it is two or more characters ahead
      have hahead : (∃ k, str[leader + 2 * k]? = some 0) ↔ ∃ k,
          str[leader + 2 + 2 * k]? = some 0 := by
        constructor
        · rintro ⟨k, hk⟩
          cases k with
          | zero =>
            rw [Nat.mul_zero, Nat.add_zero, hc] at hk
            exact absurd (Option.some.inj hk) hzero
          | succ k => exact ⟨k, by rwa [show leader + 2 + 2 * k = leader + 2 * (k + 1) by omega]⟩
        · rintro ⟨k, hk⟩
          exact ⟨k + 1, by rwa [show leader + 2 * (k + 1) = leader + 2 + 2 * k by omega]⟩
      rw [hahead]
      cases hd : str[leader + 1]? with
      | none =>
        refine iff_of_false (by simp) ?_
        rintro ⟨k, hk⟩
        have := (List.getElem?_eq_some_iff.mp hk).1
        have := List.getElem?_eq_none_iff.mp hd
        omega
      | some d =>
        rw [Option.bind_some,
          isSome_hexConvertLoop fuel _ _ _ (by omega) (by rw [List.length_set]; omega)]
        refine exists_congr fun k => ?_
        rw [List.getElem?_set_ne (by omega)]

theorem isSome_hexConvert (str : Bytes) :
    (hexConvert str).isSome = true ↔ ∃ k, str[2 * k]? = some 0 := by
  rw [hexConvert, isSome_hexConvertLoop _ _ _ _ (Nat.le_refl 0) (by omega)]
  simp only [Nat.zero_add]

theorem isXdigit_nul : isXdigit 0 = false := by decide

/-- The digits of a value are converted to the value. -/
theorem hexConvertLoop_bytes2string {after : Bytes} (bs : Bytes) :
    ∀ (str : Bytes) (leader trailer fuel : Nat), str.drop leader = bytes2string bs ++ 0 :: after →
      trailer ≤ leader → bs.length < fuel →
      ∃ str', hexConvertLoop str leader trailer fuel = some (str', trailer + bs.length) ∧
        str'.take (trailer + bs.length) = str.take trailer ++ bs := by
  induction bs with
  | nil =>
    intro str leader trailer fuel hdrop _ hfuel
    obtain ⟨fuel, rfl⟩ := Nat.exists_eq_succ_of_ne_zero (Nat.ne_zero_of_lt hfuel)
    have hget : str[leader]? = some 0 := by
      rw [← List.head?_drop, hdrop]
      rfl
    refine ⟨str, ?_, (List.append_nil _).symm⟩
    rw [hexConvertLoop, hget, Option.bind_some, if_pos rfl]
    rfl
  | cons b bs ih =>
    intro str leader trailer fuel hdrop hle hfuel
    obtain ⟨fuel, rfl⟩ := Nat.exists_eq_succ_of_ne_zero (Nat.ne_zero_of_lt hfuel)
    rw [List.length_cons] at hfuel
    obtain ⟨c, d, hcd⟩ : ∃ c d, num2string b = [c, d] := ⟨_, _, rfl⟩
    have hdigits := hexDigits_num2string b
    rw [bytes2string, List.flatMap_cons, ← bytes2string, hcd] at hdrop
    have hc : str[leader]? = some c := by
      rw [← List.head?_drop, hdrop]
      rfl
    have hd : str[leader + 1]? = some d := by
      rw [← List.head?_drop, ← List.tail_drop, hdrop]
      rfl
    have hne : c ≠ 0 := by
      rintro rfl
      rw [hcd, List.all_cons, isXdigit_nul] at hdigits
      cases hdigits
    have hlen := (List.getElem?_eq_some_iff.mp hc).1
    have hnum : string2num [c, d] = b := by rw [← hcd, string2num_num2string]
    have hnext : (str.set trailer b).drop (leader + 2) = bytes2string bs ++ 0 :: after := by
      rw [List.drop_set_of_lt (by omega), ← List.drop_drop, hdrop]
      rfl
    obtain ⟨str', hloop, htake⟩ := ih _ (leader + 2) (trailer + 1) fuel hnext (by omega) (by omega)
    refine ⟨str', ?_, ?_⟩
    · rw [hexConvertLoop, hc, Option.bind_some, if_neg hne, hd, Option.bind_some, hnum, hloop,
        List.length_cons]
      congr 2
      omega
    · have hset : (str.set trailer b).take (trailer + 1) = str.take trailer ++ [b] := by
        rw [List.set_eq_take_append_cons_drop, if_pos (by omega), List.take_append,
          List.take_of_length_le (by simp)]
        simp [Nat.min_eq_left (show trailer ≤ str.length by omega)]
      rw [List.length_cons, show trailer + (bs.length + 1) = trailer + 1 + bs.length by omega,
        htake, hset, List.append_assoc, List.singleton_append]

/-! ## Where the NULs are -/

theorem nul_not_mem_digitsOf (text : CString) : 0 ∉ digitsOf text :=
  fun h => text.2 (List.mem_of_mem_filter h)

theorem length_digitsOf_le (text : CString) :
    (digitsOf text).length ≤ text.1.length := List.length_filter_le _ _

/-- The first NUL behind a string is the first one at all. -/
theorem getElem?_append_nul {a after : Bytes} (ha : 0 ∉ a) (j : Nat) :
    (a ++ 0 :: after)[j]? = some 0 ↔ j = a.length ∨ a.length < j ∧
      after[j - a.length - 1]? = some 0 := by
  rcases Nat.lt_trichotomy j a.length with hlt | rfl | hgt
  · refine iff_of_false ?_ (by omega)
    rw [List.getElem?_append_left hlt]
    exact fun h => ha (List.mem_of_getElem? h)
  · simp
  · rw [List.getElem?_append_right (Nat.le_of_lt hgt), List.getElem?_cons, if_neg (by omega)]
    simp only [hgt, true_and]
    exact ⟨.inr, fun h => h.resolve_left (by omega)⟩

/-- What `hex_only` leaves has a NUL behind the digits, and the one that was there before. -/
theorem getElem?_hexOnly (text : CString) (j : Nat) :
    (digitsOf text ++ 0 :: (text.1 ++ [0]).drop ((digitsOf text).length + 1))[j]? = some 0 ↔
      j = (digitsOf text).length ∨ (digitsOf text).length < j ∧ j = text.1.length := by
  rw [getElem?_append_nul (nul_not_mem_digitsOf text)]
  refine or_congr_right (and_congr_right fun hj => ?_)
  rw [List.getElem?_drop,
    show (digitsOf text).length + 1 + (j - (digitsOf text).length - 1) =
      j by omega, getElem?_append_nul text.2]
  simp

theorem staysInArray_iff (text : CString) :
    StaysInArray text ↔ (digitsOf text).length % 2 = 0 ∨ text.1.length % 2 = 0 := by
  have hle := length_digitsOf_le text
  rw [StaysInArray, changeData, hexOnly_eq, Option.bind_some, Option.isSome_map, isSome_hexConvert]
  simp only [getElem?_hexOnly]
  constructor
  · rintro ⟨k, h⟩
    omega
  · intro h
    by_cases heven : (digitsOf text).length % 2 = 0
    · exact ⟨(digitsOf text).length / 2, by omega⟩
    · exact ⟨text.1.length / 2, by omega⟩

theorem staysInString_iff (text : CString) :
    StaysInString text ↔ (digitsOf text).length % 2 = 0 := by
  have hcut : cstring (digitsOf text ++ 0 :: (text.1 ++ [0]).drop ((digitsOf text).length + 1))
      = some (digitsOf text) := cstring_append (nul_not_mem_digitsOf text) _
  have hstring : (hexConvert (digitsOf text ++ [0])).isSome = true ↔
      (digitsOf text).length % 2 = 0 := by
    rw [isSome_hexConvert]
    simp only [getElem?_append_nul (nul_not_mem_digitsOf text), List.getElem?_nil, reduceCtorEq,
      and_false, or_false]
    exact ⟨fun ⟨k, h⟩ => by omega, fun h => ⟨(digitsOf text).length / 2, by omega⟩⟩
  rw [← hstring]
  constructor
  · rintro ⟨str, digits, hstr, hdigits, h⟩
    rw [hexOnly_eq] at hstr
    rw [← Option.some.inj hstr, hcut] at hdigits
    rwa [Option.some.inj hdigits]
  · exact fun h => ⟨_, _, hexOnly_eq text, hcut, h⟩

/-! ## Showing and submitting -/

theorem filter_showBinary (i : Nat) (bs : Bytes) :
    (showBinary i bs).filter isXdigit = bytes2string bs := by
  induction bs generalizing i with
  | nil => rfl
  | cons b bs ih =>
    have hnum : (num2string b).filter isXdigit = num2string b :=
      List.filter_eq_self.mpr (List.all_eq_true.mp (hexDigits_num2string b))
    have hbreak : (if bs ≠ [] ∧ (i + 1) % 32 = 0 then [13, 10] else ([] : Bytes)).filter isXdigit =
        [] := by
      split <;> rfl
    rw [showBinary, List.filter_append, List.filter_append, hnum, hbreak, ih, List.append_nil]
    rfl

theorem nul_not_mem_showBinary (i : Nat) (bs : Bytes) : 0 ∉ showBinary i bs := by
  induction bs generalizing i with
  | nil => exact List.not_mem_nil
  | cons b bs ih =>
    have hnum : 0 ∉ num2string b := by
      intro h
      have := List.all_eq_true.mp (hexDigits_num2string b) 0 h
      rw [isXdigit_nul] at this
      cases this
    have hbreak : (0 : Byte) ∉ if bs ≠ [] ∧ (i + 1) % 32 = 0 then [13, 10] else ([] : Bytes) := by
      split <;> decide
    rw [showBinary, List.mem_append, List.mem_append, not_or, not_or]
    exact ⟨⟨hnum, hbreak⟩, ih (i + 1)⟩

/-- The text in the form, as it is submitted. -/
def shown (bs : Bytes) : CString := ⟨showBinary 0 bs, nul_not_mem_showBinary 0 bs⟩

/-- **A text with the digits of a value is converted to the value.** Line breaks make no
difference. -/
theorem changeData_eq {text : CString} {bs : Bytes} (h : digitsOf text = bytes2string bs) :
    changeData text = some bs := by
  rw [changeData, hexOnly_eq, Option.bind_some, h]
  generalize (text.1 ++ [0]).drop ((bytes2string bs).length + 1) = after
  have hfuel : bs.length < (bytes2string bs ++ 0 :: after).length + 1 := by
    have := (hexDigits_bytes2string bs).1
    rw [List.length_append]
    omega
  obtain ⟨str', hloop, htake⟩ := hexConvertLoop_bytes2string bs _ 0 0 _ rfl (Nat.le_refl 0) hfuel
  rw [Nat.zero_add] at hloop htake
  rw [hexConvert, hloop, Option.map_some]
  exact congrArg some htake

theorem changeData_shown (bs : Bytes) : changeData (shown bs) = some bs :=
  changeData_eq (filter_showBinary 0 bs)

/-- **A value that is shown is submitted as it was, and a text is converted without leaving its
string if and only if it has an even number of digits.** With an odd number the conversion goes on
with what `hex_only` has left behind the digits, and leaves the array as well unless the text was
even. -/
theorem form_roundtrip_and_bounds (bs : Bytes) (text : CString) :
    (changeData (shown bs) = some bs ∧ StaysInString (shown bs)) ∧
    (StaysInString text ↔ (digitsOf text).length % 2 = 0) ∧
    (StaysInArray text ↔ (digitsOf text).length % 2 = 0 ∨ text.1.length % 2 = 0) := by
  refine ⟨⟨changeData_shown bs, ?_⟩, staysInString_iff text, staysInArray_iff text⟩
  rw [staysInString_iff, digitsOf, shown, filter_showBinary, (hexDigits_bytes2string bs).1]
  omega

/-- `ABC` -/
def oddDigits : CString := ⟨[0x41, 0x42, 0x43], by decide⟩

/-- Three digits: the conversion leaves the string, and the array. -/
theorem oddDigits_leave : ¬ StaysInString oddDigits ∧ ¬ StaysInArray oddDigits := by
  rw [staysInString_iff, staysInArray_iff]
  decide

end Owfs.Http
