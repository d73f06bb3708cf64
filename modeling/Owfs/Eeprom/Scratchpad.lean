import Owfs.Transaction.Slave
import Owfs.Transaction.MemoryRead

/-!
# Memories with a scratchpad

Most memories are not written directly. The bytes go into a scratchpad, from where they are read
back and compared, and then the device is told to copy them. The copy is made only if the address
and the ending offset are sent once more.

The memory has rows, and the scratchpad holds one row. The device here makes no errors.
-/

namespace Owfs.Eeprom

open Infra Owfs.Device Owfs.Transaction

/-! ## The device -/

/-- `_1W_WRITE_SCRATCHPAD` -/
def writeScratchpad : Byte := 0x0F

/-- `_1W_READ_SCRATCHPAD` -/
def readScratchpad : Byte := 0xAA

/-- `_1W_COPY_SCRATCHPAD` -/
def copyScratchpad : Byte := 0x55

/-- The state of such a device: the memory, the scratchpad by its offsets, the target address, the
ending offset, and what it was sent since it was selected. -/
structure Scratchpad where
  memory : Mem
  scratch : Mem
  target : Nat
  ending : Nat
  sent : Bytes

namespace Scratchpad

variable (row : Nat)

/-- How many bytes fit behind an address in its row. -/
def room (target : Nat) : Nat := row - target % row

/-- What the device says when its scratchpad is read, after the command. -/
def report (x : Scratchpad) : Bytes :=
  let line :=
    lowHighAddress x.target ++ [BitVec.ofNat 8 x.ending] ++
      x.scratch.read (x.target % row) (room row x.target)
  line ++ complementBytes (crc16Compute (readScratchpad :: line) 0)

/-- What the device says with the next byte; ones if it has nothing to say. Behind a full row it
sends the checksum of all that it was sent. -/
def reply (x : Scratchpad) : Byte :=
  match x.sent with
  | [] => 0xFF
  | command :: rest =>
    if command = readScratchpad then (x.report row).getD rest.length 0xFF
    else match rest with
      | low :: high :: data =>
        if command = readF0 then x.memory (low.toNat + 256 * high.toNat + data.length)
        else if command = writeScratchpad then
          if data.length < room row x.target then 0xFF
          else
            (complementBytes (crc16Compute (command :: low :: high :: data.take (room row x.target))
              0)).getD
              (data.length - room row x.target) 0xFF
        else 0xFF
      | _ => 0xFF

/-- What the device does with the next byte. -/
def next (x : Scratchpad) (b : Byte) : Scratchpad :=
  let x' := { x with sent := x.sent ++ [b] }
  match x.sent with
  | [command, low] =>
    if command = writeScratchpad then { x' with target := low.toNat + 256 * b.toNat } else x'
  | command :: low :: high :: data =>
    if command = writeScratchpad then
      if data.length < room row x.target then
        { x' with
          scratch := x.scratch.write (x.target % row + data.length) [b]
          ending := x.target % row + data.length }
      else x'
    else if command = copyScratchpad ∧ data = [] ∧ low.toNat + 256 * high.toNat = x.target ∧
        b.toNat = x.ending then
      { x' with
        memory := x.memory.write x.target
          (x.scratch.read (x.target % row) (x.ending + 1 - x.target % row)) }
    else x'
  | _ => x'

/-- The device on the bus. -/
def slave : Slave Scratchpad where
  select := fun x => { x with sent := [] }
  byte := fun x b => (x.reply row, x.next row b)

/-! ## What it does with a block -/

variable {row : Nat}

theorem exchange_cons (b : Byte) (d : Bytes) (x : Scratchpad) :
    (slave row).exchange (b :: d) x
      = ((b &&& x.reply row) :: ((slave row).exchange d (x.next row b)).1,
        ((slave row).exchange d (x.next row b)).2) := rfl

/-- A byte that is not answered. -/
theorem exchange_silent {b : Byte} {d : Bytes} {x : Scratchpad} (h : x.reply row = 0xFF) :
    (slave row).exchange (b :: d) x
      = (b :: ((slave row).exchange d (x.next row b)).1,
        ((slave row).exchange d (x.next row b)).2) := by
  have hones : b &&& 0xFF = b := BitVec.and_allOnes
  rw [exchange_cons, h, hones]

theorem write_cons (m : Mem) (a : Nat) (b : Byte) (d : Bytes) :
    (m.write a [b]).write (a + 1) d = m.write a (b :: d) := by
  funext x
  simp only [Mem.write, List.length_cons, List.length_nil]
  by_cases ha : x = a
  · subst ha
    rw [if_neg (by omega), if_pos (by omega), if_pos (by omega)]
    simp
  · by_cases hx : a + 1 ≤ x ∧ x < a + 1 + d.length
    · rw [if_pos hx, if_pos (by omega), show x - a = (x - (a + 1)) + 1 by omega,
        List.getD_cons_succ]
    · rw [if_neg hx, if_neg (by omega), if_neg (by omega)]

/-- The data of a write go into the scratchpad. -/
theorem exchange_data {low high : Byte} (d : Bytes) : ∀ {x : Scratchpad} {data : Bytes},
    x.sent = writeScratchpad :: low :: high :: data → data.length + d.length ≤ room row x.target →
    (slave row).exchange d x = (d,
      { x with
        sent := x.sent ++ d
        scratch := x.scratch.write (x.target % row + data.length) d
        ending := if d = [] then x.ending else x.target % row + data.length + d.length - 1 }) := by
  induction d with
  | nil =>
    intro x data _ _
    have hwrite : x.scratch.write (x.target % row + data.length) [] = x.scratch := by
      funext a
      simp [Mem.write]
    rw [hwrite]
    simp [Slave.exchange]
  | cons b d ih =>
    intro x data hsent hroom
    rw [List.length_cons] at hroom
    have hlt : data.length < room row x.target := by omega
    have hreply : x.reply row = 0xFF := by
      rw [reply, hsent]
      simp [writeScratchpad, readScratchpad, readF0, hlt]
    have hnext : x.next row b = { x with
        sent := x.sent ++ [b]
        scratch := x.scratch.write (x.target % row + data.length) [b]
        ending := x.target % row + data.length } := by
      rw [next, hsent]
      simp [writeScratchpad, hlt]
    have hih := @ih { x with
        sent := x.sent ++ [b]
        scratch := x.scratch.write (x.target % row + data.length) [b]
        ending := x.target % row + data.length } (data ++ [b]) (by simp [hsent])
      (by rw [List.length_append, List.length_singleton]; dsimp only; omega)
    dsimp only at hih
    rw [exchange_silent hreply, hnext, hih]
    simp only [List.length_append, List.length_singleton, ← Nat.add_assoc, write_cons]
    congr 2
    · simp
    · by_cases hd : d = []
      · simp [hd]
      · simp

/-- The command and the address of a write. -/
theorem exchange_header {x : Scratchpad} {offset : Nat} (hoffset : offset < 65536)
    (hsent : x.sent = []) :
    (slave row).exchange (writeScratchpad :: lowHighAddress offset) x
      = (writeScratchpad :: lowHighAddress offset,
        ⟨x.memory, x.scratch, offset, x.ending, writeScratchpad :: lowHighAddress offset⟩) := by
  have hne : writeScratchpad ≠ readScratchpad := by decide
  have haddress := address_lowHigh hoffset
  rw [BitVec.toNat_ofNat, BitVec.toNat_ofNat] at haddress
  rw [lowHighAddress, exchange_silent (by rw [reply, hsent]),
    exchange_silent (by simp [reply, next, hsent, hne]),
    exchange_silent (by simp [reply, next, hsent, hne])]
  simp [Slave.exchange, next, hsent, haddress]

/-- The data behind it. -/
theorem exchange_row {memory scratch : Mem} {offset ending : Nat} {d : Bytes} (hd : d ≠ [])
    (hroom : d.length ≤ room row offset) :
    (slave row).exchange d ⟨memory, scratch, offset, ending,
      writeScratchpad :: lowHighAddress offset⟩
      = (d, ⟨memory, scratch.write (offset % row) d, offset, offset % row + d.length - 1,
          writeScratchpad :: lowHighAddress offset ++ d⟩) := by
  have hdata :=
    @exchange_data row _ _ d ⟨memory, scratch, offset, ending,
      writeScratchpad :: lowHighAddress offset⟩ []
    rfl (by simpa using hroom)
  rw [hdata]
  simp [hd]

/-- The command, the address and the data in one block. -/
theorem exchange_write {x : Scratchpad} {offset : Nat} {d : Bytes} (hoffset : offset < 65536)
    (hd : d ≠ []) (hroom : d.length ≤ room row offset) (hsent : x.sent = []) :
    (slave row).exchange (writeScratchpad :: lowHighAddress offset ++ d) x
      = (writeScratchpad :: lowHighAddress offset ++ d,
        ⟨x.memory, x.scratch.write (offset % row) d, offset, offset % row + d.length - 1,
          writeScratchpad :: lowHighAddress offset ++ d⟩) := by
  rw [Slave.exchange_append, exchange_header hoffset hsent, exchange_row hd hroom]

/-- Behind a full row the device sends the checksum. -/
theorem exchange_checksum {x : Scratchpad} {low high : Byte} {data : Bytes}
    (hsent : x.sent = writeScratchpad :: low :: high :: data)
    (hroom : data.length = room row x.target) :
    ((slave row).exchange (List.replicate 2 0xFF) x).1 = complementBytes (crc16Compute x.sent 0) ∧
      ∃ sent, ((slave row).exchange (List.replicate 2 0xFF) x).2 = { x with sent } := by
  have hnext (b : Byte) : x.next row b = { x with sent := x.sent ++ [b] } := by
    rw [next, hsent]
    simp [writeScratchpad, hroom]
  have hnext' (b : Byte) : ({ x with sent := x.sent ++ [0xFF] } : Scratchpad).next row b
      = { x with sent := x.sent ++ [0xFF] ++ [b] } := by
    rw [next, hsent]
    simp [writeScratchpad, hroom]
  have hones (b : Byte) : 0xFF &&& b = b := BitVec.allOnes_and
  have hne : ¬ writeScratchpad = readScratchpad ∧ ¬ writeScratchpad = readF0 := by decide
  have hreply : x.reply row = (complementBytes (crc16Compute x.sent 0)).getD 0 0xFF := by
    unfold reply
    rw [hsent]
    simp only [if_neg hne.1, if_neg hne.2, if_true]
    rw [if_neg (by omega), ← hroom, List.take_length, Nat.sub_self]
  have hreply' : ({ x with sent := x.sent ++ [0xFF] } : Scratchpad).reply row
      = (complementBytes (crc16Compute x.sent 0)).getD 1 0xFF := by
    unfold reply
    rw [hsent]
    simp only [List.cons_append, if_neg hne.1, if_neg hne.2, if_true, List.length_append,
      List.length_singleton]
    rw [if_neg (by omega), ← hroom, List.take_left, Nat.add_sub_cancel_left]
  rw [show List.replicate 2 (0xFF : Byte) = [0xFF, 0xFF] from rfl, exchange_cons, exchange_cons,
    hnext, hnext', hones, hones, hreply, hreply']
  exact ⟨rfl, _, rfl⟩

/-- Reading changes nothing. -/
theorem next_read {x : Scratchpad} {command : Byte} {data : Bytes}
    (hsent : x.sent = command :: data) (hcommand : command = readScratchpad ∨ command = readF0)
    (b : Byte) : x.next row b = { x with sent := x.sent ++ [b] } := by
  have hne : ¬ command = writeScratchpad ∧ ¬ command = copyScratchpad := by
    rcases hcommand with rfl | rfl <;> decide
  rw [next, hsent]
  match data with
  | [] => rfl
  | [low] => simp [hne.1]
  | low :: high :: data => simp [hne.1, hne.2]

/-- The report is what is read after the command. -/
theorem exchange_report (n : Nat) :
    ∀ {x : Scratchpad} {data : Bytes}, x.sent = readScratchpad :: data →
    data.length + n ≤ (x.report row).length →
    (slave row).exchange (List.replicate n 0xFF) x
      = (((x.report row).drop data.length).take n,
        { x with sent := x.sent ++ List.replicate n 0xFF }) := by
  induction n with
  | zero =>
    intro x data _ _
    simp [Slave.exchange]
  | succ n ih =>
    intro x data hsent hlen
    have hones (b : Byte) : 0xFF &&& b = b := BitVec.allOnes_and
    have hlt : data.length < (x.report row).length := by omega
    have hreply : x.reply row = (x.report row)[data.length] := by
      rw [reply, hsent]
      simp only [if_true]
      exact List.getD_eq_getElem _ _ hlt
    have hih := @ih { x with sent := x.sent ++ [0xFF] } (data ++ [0xFF]) (by simp [hsent]) (by
      rw [List.length_append, List.length_singleton]
      show _ ≤ (x.report row).length
      omega)
    have hsame : ({ x with sent := x.sent ++ [0xFF] } : Scratchpad).report row = x.report row := rfl
    rw [hsame, List.length_append, List.length_singleton] at hih
    rw [List.replicate_succ, exchange_cons, next_read hsent (.inl rfl), hih, hones, hreply,
      List.drop_eq_getElem_cons hlt, List.take_succ_cons]
    simp

theorem exchange_readCommand {x : Scratchpad} (hsent : x.sent = []) :
    (slave row).exchange [readScratchpad] x =
    ([readScratchpad], { x with sent := [readScratchpad] }) := by
  have hnext : x.next row readScratchpad = { x with sent := [readScratchpad] } := by
    rw [next, hsent]
    rfl
  rw [exchange_silent (by rw [reply, hsent]), hnext]
  rfl

/-- The scratchpad is read after the command. -/
theorem exchange_readScratchpad {x : Scratchpad} (hsent : x.sent = [readScratchpad]) {n : Nat}
    (hn : n ≤ (x.report row).length) :
    (slave row).exchange (List.replicate n 0xFF) x
      = ((x.report row).take n, { x with sent := readScratchpad :: List.replicate n 0xFF }) := by
  rw [exchange_report n hsent (by rw [List.length_nil]; omega), hsent]
  rfl

/-- The copy is made when the address and the ending offset are right. -/
theorem exchange_copy {x : Scratchpad} (hsent : x.sent = []) (htarget : x.target < 65536)
    (hending : x.ending < 256) :
    (slave row).exchange (copyScratchpad :: lowHighAddress x.target ++ [BitVec.ofNat 8 x.ending]) x
      = (copyScratchpad :: lowHighAddress x.target ++ [BitVec.ofNat 8 x.ending],
        { x with
          memory :=
        x.memory.write x.target (x.scratch.read (x.target % row) (x.ending + 1 - x.target % row))
          sent := copyScratchpad :: lowHighAddress x.target ++ [BitVec.ofNat 8 x.ending] }) := by
  have hne : ¬ copyScratchpad = readScratchpad ∧ ¬ copyScratchpad = readF0 ∧
      ¬ copyScratchpad = writeScratchpad := by decide
  have haddress := address_lowHigh htarget
  rw [BitVec.toNat_ofNat, BitVec.toNat_ofNat] at haddress
  rw [lowHighAddress, List.cons_append, List.cons_append, List.cons_append, List.nil_append,
    exchange_silent (by rw [reply, hsent]), exchange_silent (by simp [reply, next, hsent, hne]),
    exchange_silent (by simp [reply, next, hsent, hne]),
    exchange_silent (by simp [reply, next, hsent, hne])]
  simp [Slave.exchange, next, hsent, hne, haddress, Nat.mod_eq_of_lt hending]

theorem exchange_memory (n : Nat) : ∀ {x : Scratchpad} {low high : Byte} {data : Bytes},
    x.sent = readF0 :: low :: high :: data →
    (slave row).exchange (List.replicate n 0xFF) x
      = (x.memory.read (low.toNat + 256 * high.toNat + data.length) n,
        { x with sent := x.sent ++ List.replicate n 0xFF }) := by
  induction n with
  | zero =>
    intro x low high data _
    simp [Slave.exchange]
  | succ n ih =>
    intro x low high data hsent
    have hones (b : Byte) : 0xFF &&& b = b := BitVec.allOnes_and
    have hne : ¬ readF0 = readScratchpad := by decide
    have hreply : x.reply row = x.memory (low.toNat + 256 * high.toNat + data.length) := by
      rw [reply, hsent]
      simp [hne]
    have hih := @ih { x with sent := x.sent ++ [0xFF] } low high (data ++ [0xFF]) (by simp [hsent])
    rw [List.length_append, List.length_singleton] at hih
    rw [List.replicate_succ, exchange_cons, next_read hsent (.inr rfl), hih, hones, hreply,
      Nat.add_comm n 1, read_add]
    simp [Mem.read, Nat.add_assoc]

/-- The memory is read without its scratchpad. -/
theorem exchange_readF0 {x : Scratchpad} (hsent : x.sent = []) {offset : Nat}
    (hoffset : offset < 65536) :
    (slave row).exchange (readF0 :: lowHighAddress offset) x
        = (readF0 :: lowHighAddress offset, { x with sent := readF0 :: lowHighAddress offset }) ∧
      ∀ n, (slave row).exchange (List.replicate n 0xFF)
        { x with sent := readF0 :: lowHighAddress offset }
        = (x.memory.read offset n,
          { x with sent := readF0 :: lowHighAddress offset ++ List.replicate n 0xFF }) := by
  have hne : ¬ readF0 = readScratchpad ∧ ¬ readF0 = writeScratchpad := by decide
  constructor
  · rw [lowHighAddress, exchange_silent (by rw [reply, hsent]),
      exchange_silent (by simp [reply, next, hsent, hne]),
      exchange_silent (by simp [reply, next, hsent, hne])]
    simp [Slave.exchange, next, hsent, hne]
  · intro n
    have haddress := address_lowHigh hoffset
    have hmemory :=
      @exchange_memory row n { x with sent := readF0 :: lowHighAddress offset } _ _ [] rfl
    rw [haddress] at hmemory
    rw [hmemory]
    simp

end Scratchpad

end Owfs.Eeprom
