import Owfs.Infra.Text

/-!
# Decimal numbers

Numbers as `printf` prints them, and `strtol` and `strtoul`, which read them. A `long` has 64 bits.
-/

namespace Infra

/-! ## Printing -/

/-- The byte of a decimal digit. -/
def digit (d : Nat) : Byte := BitVec.ofNat 8 (48 + d)

/-- `%u` -/
def decimal (n : Nat) : Bytes :=
  if n = 0 then [digit 0] else (Nat.digits 10 n).reverse.map digit

/-- `%d` -/
def signedDecimal (i : Int) : Bytes :=
  if i < 0 then chr '-' :: decimal i.natAbs else decimal i.natAbs

/-- A field with a width: blanks on the left. -/
def padLeft (width : Nat) (s : Bytes) : Bytes := List.replicate (width - s.length) (chr ' ') ++ s

/-! ## Reading -/

/-- `isspace` -/
def isSpace (b : Byte) : Bool := b == chr ' ' || (9 ≤ b && b ≤ 13)

/-- What `strtol` and `strtoul` find: the number, whether it was out of range, and whether there was
one at all. -/
structure Conversion where
  value : Int
  range : Bool
  found : Bool
  deriving DecidableEq

/-- A sign, and what follows it. -/
def takeSign : Bytes → Bool × Bytes
  | [] => (false, [])
  | b :: s => if b = chr '-' then (true, s) else if b = chr '+' then (false, s) else (false, b :: s)

/-- The sign and the digits that a number starts with. -/
def takeNumber (s : Bytes) : Bool × Bytes :=
  ((takeSign (s.dropWhile isSpace)).1, (takeSign (s.dropWhile isSpace)).2.takeWhile isDigit)

/-- `strtol(s, &end, 10)` -/
def strtol (s : Bytes) : Conversion :=
  let (negative, ds) := takeNumber s
  let value : Int := if negative then -(digitsValue ds : Int) else digitsValue ds
  if ds = [] then ⟨0, false, false⟩
  else if value < -2 ^ 63 then ⟨-2 ^ 63, true, true⟩
  else if 2 ^ 63 ≤ value then ⟨2 ^ 63 - 1, true, true⟩
  else ⟨value, false, true⟩

/-- `strtoul(s, &end, 10)`; a negative number is taken modulo 2^64. -/
def strtoul (s : Bytes) : Conversion :=
  let (negative, ds) := takeNumber s
  let value := digitsValue ds
  if ds = [] then ⟨0, false, false⟩
  else if 2 ^ 64 ≤ value then ⟨2 ^ 64 - 1, true, true⟩
  else ⟨(if negative then -(value : Int) else value) % 2 ^ 64, false, true⟩

/-! ## Digits -/

theorem digit_sub {d : Nat} (h : d < 10) : (digit d - chr '0').toNat = d := by
  revert d
  decide

theorem isDigit_digit {d : Nat} (h : d < 10) : isDigit (digit d) = true := by
  revert d
  decide

theorem mem_decimal {n : Nat} {b : Byte} (h : b ∈ decimal n) : ∃ d < 10, b = digit d := by
  unfold decimal at h
  split at h
  · exact ⟨0, by decide, List.mem_singleton.mp h⟩
  · obtain ⟨d, hd, rfl⟩ := List.mem_map.mp h
    exact ⟨d, Nat.digits_lt_base (by decide) (List.mem_reverse.mp hd), rfl⟩

theorem isDigit_of_mem_decimal {n : Nat} {b : Byte} (h : b ∈ decimal n) : isDigit b = true := by
  obtain ⟨d, hd, rfl⟩ := mem_decimal h
  exact isDigit_digit hd

theorem decimal_ne_nil (n : Nat) : decimal n ≠ [] := by
  unfold decimal
  split
  · exact List.cons_ne_nil _ _
  · next hn => simpa using Nat.digits_ne_nil_iff_ne_zero.mpr hn

theorem length_decimal_le {n k : Nat} (hk : 0 < k) (h : n < 10 ^ k) : (decimal n).length ≤ k := by
  unfold decimal
  split
  · exact hk
  · rw [List.length_map, List.length_reverse]
    exact (Nat.digits_length_le_iff (by decide) n).mpr h

theorem digitsValue_reverse {ds : List Nat} (hds : ∀ d ∈ ds, d < 10) :
    digitsValue (ds.reverse.map digit) = Nat.ofDigits 10 ds := by
  rw [digitsValue, List.map_reverse, List.foldl_reverse]
  induction ds with
  | nil => rfl
  | cons d ds ih =>
    rw [List.map_cons, List.foldr_cons, ih fun d hd => hds d (List.mem_cons_of_mem _ hd),
      digit_sub (hds d List.mem_cons_self), Nat.ofDigits_cons, Nat.add_comm]

/-- The digits of a number stand for it. -/
theorem digitsValue_decimal (n : Nat) : digitsValue (decimal n) = n := by
  unfold decimal
  split
  · next hn =>
    rw [hn]
    decide
  · rw [digitsValue_reverse fun d hd => Nat.digits_lt_base (by decide) hd, Nat.ofDigits_digits]

/-! ## Reading what was printed -/

theorem dropWhile_isSpace {s : Bytes} (h : ∀ b ∈ s.head?, isSpace b = false) (k : Nat) :
    (List.replicate k (chr ' ') ++ s).dropWhile isSpace = s := by
  rw [List.dropWhile_append_of_pos fun b hb => by rw [List.eq_of_mem_replicate hb]; rfl]
  cases s with
  | nil => rfl
  | cons b s => rw [List.dropWhile_cons_of_neg (by rw [h b rfl]; decide)]

theorem isSpace_digit {d : Nat} (h : d < 10) : isSpace (digit d) = false := by
  revert d
  decide

theorem digit_ne_sign {d : Nat} (h : d < 10) : digit d ≠ chr '-' ∧ digit d ≠ chr '+' := by
  revert d
  decide

theorem exists_decimal (n : Nat) : ∃ d < 10, ∃ ds, decimal n = digit d :: ds := by
  obtain ⟨b, ds, hds⟩ := List.exists_cons_of_ne_nil (decimal_ne_nil n)
  obtain ⟨d, hd, rfl⟩ := mem_decimal (n := n) (by rw [hds]; exact List.mem_cons_self)
  exact ⟨d, hd, ds, hds⟩

theorem takeWhile_isDigit_decimal (n : Nat) : (decimal n).takeWhile isDigit = decimal n :=
  List.takeWhile_eq_self_iff.mpr fun _ hb => isDigit_of_mem_decimal hb

theorem takeNumber_decimal (k n : Nat) :
    takeNumber (List.replicate k (chr ' ') ++ decimal n) = (false, decimal n) := by
  obtain ⟨d, hd, ds, hds⟩ := exists_decimal n
  have hsign : takeSign (decimal n) = (false, decimal n) := by
    rw [hds, takeSign, if_neg (digit_ne_sign hd).1, if_neg (digit_ne_sign hd).2]
  rw [takeNumber, dropWhile_isSpace (by rw [hds]; rintro b ⟨⟩; exact isSpace_digit hd), hsign,
    takeWhile_isDigit_decimal]

theorem takeNumber_signedDecimal (k : Nat) (i : Int) :
    takeNumber (List.replicate k (chr ' ') ++ signedDecimal i) =
      (decide (i < 0), decimal i.natAbs) := by
  unfold signedDecimal
  by_cases hi : i < 0
  · rw [if_pos hi, decide_eq_true hi, takeNumber, dropWhile_isSpace (by rintro b ⟨⟩; decide),
      takeSign, if_pos rfl, takeWhile_isDigit_decimal]
  · rw [if_neg hi, decide_eq_false hi, takeNumber_decimal]

/-- `strtol` reads what `%d` printed, with any number of blanks before it. -/
theorem strtol_signedDecimal (k : Nat) {i : Int} (hlo : -2 ^ 63 ≤ i) (hhi : i < 2 ^ 63) :
    strtol (List.replicate k (chr ' ') ++ signedDecimal i) = ⟨i, false, true⟩ := by
  rw [strtol, takeNumber_signedDecimal]
  have hvalue : (if decide (i < 0) = true then -(digitsValue (decimal i.natAbs) : Int)
      else digitsValue (decimal i.natAbs)) = i := by
    rw [digitsValue_decimal]
    by_cases hi : i < 0
    · rw [if_pos (decide_eq_true hi)]
      omega
    · rw [if_neg (by simpa using hi)]
      omega
  dsimp only
  rw [hvalue, if_neg (decimal_ne_nil _), if_neg (by omega), if_neg (by omega)]

/-- `strtoul` reads what `%u` printed. -/
theorem strtoul_decimal (k : Nat) {n : Nat} (h : n < 2 ^ 64) :
    strtoul (List.replicate k (chr ' ') ++ decimal n) = ⟨n, false, true⟩ := by
  rw [strtoul, takeNumber_decimal]
  dsimp only
  rw [digitsValue_decimal, if_neg (decimal_ne_nil _), if_neg (by omega), if_neg (by decide)]
  congr 1
  omega

/-! ## Any decimal text -/

/-- A sign, or none. -/
inductive Sign where
  | none | plus | minus
deriving DecidableEq

def Sign.text : Sign → Bytes
  | .none => []
  | .plus => [chr '+']
  | .minus => [chr '-']

/-- Blanks, a sign and digits, each of which may be missing. -/
structure DecimalText where
  blanks : Bytes
  sign : Sign
  digits : Bytes
  blanks_space : ∀ b ∈ blanks, isSpace b = true
  digits_digit : ∀ b ∈ digits, isDigit b = true

namespace DecimalText

def text (x : DecimalText) : Bytes := x.blanks ++ (x.sign.text ++ x.digits)

/-- The number that it denotes, if there is a digit. -/
def value (x : DecimalText) : Option Int :=
  if x.digits = [] then none
  else some (if x.sign = .minus then -(digitsValue x.digits : Int) else digitsValue x.digits)

theorem isDigit_ne : ∀ b : Byte, isDigit b = true → isSpace b = false ∧ b ≠ chr '-' ∧
    b ≠ chr '+' := by
  decide +kernel

/-- The characters of a decimal text. -/
def isDecimal (b : Byte) : Bool := isSpace b || isDigit b || b == chr '+' || b == chr '-'

theorem isDecimal_of_mem_text {x : DecimalText} {b : Byte} (h : b ∈ x.text) :
    isDecimal b = true := by
  obtain h | h := List.mem_append.mp h
  · simp [isDecimal, x.blanks_space b h]
  · obtain h | h := List.mem_append.mp h
    · cases hsign : x.sign with
      | none => simp [hsign, Sign.text] at h
      | plus =>
        obtain rfl : b = chr '+' := by simpa [hsign, Sign.text] using h
        decide
      | minus =>
        obtain rfl : b = chr '-' := by simpa [hsign, Sign.text] using h
        decide
    · simp [isDecimal, x.digits_digit b h]

/-- What `strtol` and `strtoul` look at. -/
theorem takeNumber_text (x : DecimalText) :
    takeNumber x.text = (decide (x.sign = .minus), x.digits) := by
  have hdigits : x.digits.takeWhile isDigit = x.digits :=
    List.takeWhile_eq_self_iff.mpr x.digits_digit
  have hdrop : (x.sign.text ++ x.digits).dropWhile isSpace = x.sign.text ++ x.digits := by
    cases hsign : x.sign with
    | none =>
      cases hds : x.digits with
      | nil => rfl
      | cons b ds =>
        have hb := (isDigit_ne b (x.digits_digit b (by rw [hds]; exact List.mem_cons_self))).1
        exact List.dropWhile_cons_of_neg (by rw [hb]; exact Bool.false_ne_true)
    | plus => exact List.dropWhile_cons_of_neg (by decide)
    | minus => exact List.dropWhile_cons_of_neg (by decide)
  have hsign : takeSign (x.sign.text ++ x.digits) = (decide (x.sign = .minus), x.digits) := by
    cases hsign : x.sign with
    | none =>
      cases hds : x.digits with
      | nil => rfl
      | cons b ds =>
        obtain ⟨-, hminus, hplus⟩ :=
          isDigit_ne b (x.digits_digit b (by rw [hds]; exact List.mem_cons_self))
        rw [Sign.text, List.nil_append, takeSign, if_neg hminus, if_neg hplus]
        rfl
    | plus => rfl
    | minus => rfl
  rw [takeNumber, text, List.dropWhile_append_of_pos x.blanks_space, hdrop, hsign, hdigits]

/-- `strtol` of a decimal text -/
theorem strtol_text (x : DecimalText) : strtol x.text = match x.value with
    | none => ⟨0, false, false⟩
    | some v => if v < -2 ^ 63 then ⟨-2 ^ 63, true, true⟩
        else if 2 ^ 63 ≤ v then ⟨2 ^ 63 - 1, true, true⟩ else ⟨v, false, true⟩ := by
  rw [strtol, takeNumber_text, value]
  dsimp only
  by_cases hds : x.digits = []
  · rw [if_pos hds, if_pos hds]
  · rw [if_neg hds, if_neg hds]
    simp only [decide_eq_true_eq]

/-- `strtoul` of a decimal text -/
theorem strtoul_text (x : DecimalText) : strtoul x.text = match x.value with
    | none => ⟨0, false, false⟩
    | some v => if v ≤ -2 ^ 64 ∨ 2 ^ 64 ≤ v then ⟨2 ^ 64 - 1, true, true⟩
        else ⟨v % 2 ^ 64, false, true⟩ := by
  rw [strtoul, takeNumber_text, value]
  dsimp only
  by_cases hds : x.digits = []
  · rw [if_pos hds, if_pos hds]
  · rw [if_neg hds, if_neg hds]
    dsimp only
    by_cases hsign : x.sign = .minus
    · rw [if_pos hsign, if_pos (decide_eq_true hsign)]
      exact if_congr (by omega) rfl rfl
    · rw [if_neg hsign, decide_eq_false hsign, if_neg Bool.false_ne_true]
      exact if_congr (by omega) rfl rfl

end DecimalText

/-! ## Keeping 32 bits -/

/-- An `int` keeps the numbers that it has. -/
theorem toInt_ofInt_eq_iff (v : Int) :
    (BitVec.ofInt 32 v).toInt = v ↔ -2 ^ 31 ≤ v ∧ v < 2 ^ 31 := by
  rw [BitVec.toInt_ofInt]
  constructor
  · intro h
    have hlo := Int.le_bmod (x := v) (m := 2 ^ 32) (by decide)
    have hhi := Int.bmod_lt (x := v) (m := 2 ^ 32) (by decide)
    omega
  · rintro ⟨hlo, hhi⟩
    exact Int.bmod_eq_of_le (by omega) (by omega)

end Infra
