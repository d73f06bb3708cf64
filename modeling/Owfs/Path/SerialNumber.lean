import Owfs.Infra.Regex
import Owfs.Device.SerialNumber

/-!
# Serial numbers as text

`Parse_SerialNumber` of `ow_parse_sn.c`, and the hexadecimal digits of `ow_util.c`.
-/

namespace Owfs.Path

open Infra Owfs.Device

/-! ## Hexadecimal digits -/

/-- `_HEXVALUE` -/
def hexValue (c : Byte) : Byte :=
  if isDigit c then c - chr '0'
  else if chr 'A' ≤ c && c ≤ chr 'F' then c - chr 'A' + 10
  else c - chr 'a' + 10

/-- `string2num` -/
def string2num (s : Bytes) : Byte := (hexValue (s.getD 0 0) <<< 4) + hexValue (s.getD 1 0)

/-- `_TOHEXCHAR` -/
def toHexChar (n : Byte) : Byte := if n ≤ 9 then chr '0' + n else chr 'A' - 10 + n

/-- `num2string` -/
def num2string (n : Byte) : Bytes := [toHexChar (n >>> 4), toHexChar (n &&& 0x0F)]

/-- `bytes2string` -/
def bytes2string (b : Bytes) : Bytes := b.flatMap num2string

/-! ## `Parse_SerialNumber` -/

/-- `enum parse_serialnumber`, with the serial number that was stored. -/
inductive ParseSerialNumber where
  | notSn
  | valid (sn : SerialNumber)
  | invalid
deriving DecidableEq

def rxDot : Rx := .opt (.one (· == chr '.'))

/-- `^([[:xdigit:]]{2})\.?([[:xdigit:]]{12})\.?([[:xdigit:]]{2}){0,1}$` -/
def rxSnParse : Rx :=
  .cat (.group (.exactly isXdigit 2)) (.cat rxDot (.cat (.group (.exactly isXdigit 12))
    (.cat rxDot (.opt (.group (.exactly isXdigit 2))))))

/-- The first seven bytes from the texts of the first two groups, and their checksum. -/
def snOfText (family id : Bytes) : SerialNumber where
  bytes :=
    let sn := string2num family :: (List.range 6).map fun i => string2num (id.drop (2 * i))
    sn ++ [crc8Compute sn 0]
  length_bytes := by simp

/-- `Parse_SerialNumber` -/
def parseSerialNumber (snChar : Bytes) : ParseSerialNumber :=
  match rxSnParse.execAtStart true snChar with
  | some ([some family, some id, crc], _) =>
    let sn := snOfText family id
    match crc with
    -- "CRC given"
    | some crc => if string2num crc ≠ sn.bytes.getD 7 0 then .invalid else .valid sn
    | none => .valid sn
  | _ => .notSn

example : parseSerialNumber (ascii "10.67C6697351FF") =
    .valid ⟨[0x10, 0x67, 0xC6, 0x69, 0x73, 0x51, 0xFF, 0x8D], rfl⟩ := by decide

end Owfs.Path
