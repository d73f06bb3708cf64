import Owfs.Infra.Bytes

/-!
# Text

Text as the bytes of its characters, in the locale `C`: letters and digits are those of ASCII, and
only the letters of ASCII have two cases.
-/

namespace Infra

/-- The byte of an ASCII character. -/
def chr (c : Char) : Byte := BitVec.ofNat 8 c.toNat

def comma : Byte := chr ','

/-- The bytes of an ASCII string. -/
def ascii (s : String) : Bytes := s.toList.map chr

/-- `[[:digit:]]` -/
def isDigit (b : Byte) : Bool := chr '0' ≤ b && b ≤ chr '9'

/-- `[[:alpha:]]` -/
def isAlpha (b : Byte) : Bool := (chr 'A' ≤ b && b ≤ chr 'Z') || (chr 'a' ≤ b && b ≤ chr 'z')

/-- `[[:xdigit:]]` -/
def isXdigit (b : Byte) : Bool :=
  isDigit b || (chr 'A' ≤ b && b ≤ chr 'F') || (chr 'a' ≤ b && b ≤ chr 'f')

/-- `tolower` -/
def toLower (b : Byte) : Byte := if chr 'A' ≤ b && b ≤ chr 'Z' then b + 32 else b

/-- `toupper` -/
def toUpper (b : Byte) : Byte := if chr 'a' ≤ b && b ≤ chr 'z' then b - 32 else b

/-- The number that decimal digits stand for. -/
def digitsValue (ds : Bytes) : Nat := ds.foldl (fun n d => 10 * n + (d - chr '0').toNat) 0

/-- `atoi` of decimal digits: `strtol` stops at the largest `long`, of which an `int` keeps the low
half. -/
def atoi (ds : Bytes) : Int := (BitVec.ofNat 32 (min (digitsValue ds) (2 ^ 63 - 1))).toInt

/-- The pieces between separators, as successive calls of `strsep` give them. -/
def splitSep (sep : Byte) : Bytes → List Bytes
  | [] => [[]]
  | b :: rest =>
    if b = sep then [] :: splitSep sep rest
    else match splitSep sep rest with
      | piece :: pieces => (b :: piece) :: pieces
      | [] => [[b]]

theorem splitSep_of_not_mem {sep : Byte} {s : Bytes} (h : sep ∉ s) : splitSep sep s = [s] := by
  induction s with
  | nil => rfl
  | cons b rest ih =>
    rw [List.mem_cons, not_or] at h
    rw [splitSep, if_neg (Ne.symm h.1), ih h.2]

end Infra
