import Owfs.Infra.Memory
import Owfs.Device.Crc

/-!
# Transaction logs

A transaction is a list of items that ends with `TRXN_END` (`ow_transaction.h`). An item names
buffers in memory and says what to do with them: select a slave, send bytes and compare the
echo, read, check a checksum, wait.

`BUS_transaction_nolock` runs the items one at a time through `BUS_transaction_single`. All
results pass through one variable `ret`, here an `Int`: the enumeration `GOOD_OR_BAD`, the byte
of `CRC8` and the `int` of `CRC16` are all stored in it.

A run is `none` when it faults: a failed `assert`, an access through NULL, or a log without end.
Statistics, log messages and the time that a delay takes are left out, and `malloc` succeeds.
-/

namespace Owfs.Transaction

open Infra Owfs.Device

/-! ## Return codes -/

abbrev gbGood : Int := 0
abbrev gbBad : Int := 1
abbrev gbOther : Int := 2

/-- The code of a routine that only knows good and bad. -/
def goodOrBad (ok : Bool) : Int := if ok then gbGood else gbBad

@[simp] theorem goodOrBad_eq_good_iff {ok : Bool} : goodOrBad ok = gbGood ↔ ok = true := by
  cases ok <;> decide

theorem goodOrBad_ne_other (ok : Bool) : goodOrBad ok ≠ gbOther := by
  cases ok <;> decide

/-! ## Items -/

/-- `enum transaction_type` -/
inductive TransactionType where
  | trxnSelect | trxnMatch | trxnBitmatch | trxnModify | trxnBitmodify | trxnCompare
  | trxnBitcompare | trxnRead | trxnBitread | trxnBlind | trxnPower | trxnBitpower | trxnProgram
  | trxnReset | trxnCrc8 | trxnCrc8seeded | trxnCrc16 | trxnCrc16seeded | trxnEnd | trxnVerify
  | trxnNop | trxnDelay | trxnUdelay
  deriving DecidableEq, Repr

/-- `struct transaction_log`: one entry of the array. -/
structure Item where
  out : Ptr
  into : Ptr
  size : Nat
  type : TransactionType
  deriving DecidableEq, Repr

/-- The macros that build the items before `TRXN_END`. The last one has no macro: `ow_2433.c`
turns an item into it. -/
inductive Trxn where
  | nverify
  | averify
  | start
  | reset
  | write (writedata : Ptr) (length : Nat)
  | writeBits (writedata : Ptr) (length : Nat)
  | read (readdata : Ptr) (length : Nat)
  | readBits (readdata : Ptr) (length : Nat)
  | modify (writedata readdata : Ptr) (length : Nat)
  | modifyBits (writedata readdata : Ptr) (length : Nat)
  | compare (data1 data2 : Ptr) (length : Nat)
  | compareBits (data1 data2 : Ptr) (length : Nat)
  | crc8 (data : Ptr) (length : Nat)
  | crc16 (data : Ptr) (length : Nat)
  | crc16Seeded (data : Ptr) (length : Nat) (seed : Ptr)
  | blind (writedata : Ptr) (length : Nat)
  | power (bytePointer : Ptr) (msec : Nat)
  | powerBit (bytePointer : Ptr) (msec : Nat)
  | delay (msec : Nat)
  | program
  | nop
  deriving DecidableEq, Repr

/-- The expansion of a macro. -/
def Trxn.item : Trxn → Item
  | .nverify => ⟨none, none, 0xF0, .trxnVerify⟩
  | .averify => ⟨none, none, 0xEC, .trxnVerify⟩
  | .start => ⟨none, none, 0, .trxnSelect⟩
  | .reset => ⟨none, none, 0, .trxnReset⟩
  | .write p n => ⟨p, none, n, .trxnMatch⟩
  | .writeBits p n => ⟨p, none, n, .trxnBitmatch⟩
  | .read p n => ⟨none, p, n, .trxnRead⟩
  | .readBits p n => ⟨none, p, n, .trxnBitread⟩
  | .modify p q n => ⟨p, q, n, .trxnModify⟩
  | .modifyBits p q n => ⟨p, q, n, .trxnBitmodify⟩
  | .compare p q n => ⟨p, q, n, .trxnCompare⟩
  | .compareBits p q n => ⟨p, q, n, .trxnBitcompare⟩
  | .crc8 p n => ⟨p, none, n, .trxnCrc8⟩
  | .crc16 p n => ⟨p, none, n, .trxnCrc16⟩
  | .crc16Seeded p n seed => ⟨p, seed, n, .trxnCrc16⟩
  | .blind p n => ⟨p, none, n, .trxnBlind⟩
  | .power p msec => ⟨p, p, msec, .trxnPower⟩
  | .powerBit p msec => ⟨p, p, msec, .trxnBitpower⟩
  | .delay msec => ⟨none, none, msec, .trxnDelay⟩
  | .program => ⟨none, none, 0, .trxnProgram⟩
  | .nop => ⟨none, none, 0, .trxnNop⟩

/-- `TRXN_END` -/
def Item.trxnEnd : Item := ⟨none, none, 0, .trxnEnd⟩

/-- The array that a list of macros and `TRXN_END` initialise. -/
def logOf (xs : List Trxn) : List Item := xs.map Trxn.item ++ [.trxnEnd]

@[simp] theorem logOf_nil : logOf [] = [Item.trxnEnd] := rfl

@[simp] theorem logOf_cons (x : Trxn) (xs : List Trxn) : logOf (x :: xs) = x.item :: logOf xs := rfl

theorem Trxn.type_item_ne_end (x : Trxn) : x.item.type ≠ .trxnEnd := by
  cases x <;> exact TransactionType.noConfusion

/-! ## The bus -/

/-- The routines of a bus master, over the state `σ` of the bus. A routine answers whether it
succeeded, or the bytes that came back. `sendbackData` is the adapter's own routine or the
bit-banging that replaces it. -/
structure BusRoutines (σ : Type) where
  select : σ → Bool × σ
  /-- `BUS_select` with `NO_DEVICE` as the selected device -/
  selectNoDevice : σ → Bool × σ
  sendbackData : Bytes → σ → Option Bytes × σ
  sendbackBits : Bytes → σ → Option Bytes × σ
  /-- The routine of an adapter that selects and sends in one go, if it has one. -/
  selectAndSendback : Option (Bytes → σ → Option Bytes × σ)
  powerByte : Byte → Nat → σ → Option Byte × σ
  powerBit : Byte → Nat → σ → Option Byte × σ
  programPulse : σ → Bool × σ
  reset : σ → Bool × σ
  verify : Byte → σ → Bool × σ
  length_sendbackData : ∀ {d s r s'}, sendbackData d s = (some r, s') → r.length = d.length
  length_sendbackBits : ∀ {d s r s'}, sendbackBits d s = (some r, s') → r.length = d.length
  length_selectAndSendback : ∀ f ∈ selectAndSendback, ∀ {d s r s'},
    f d s = (some r, s') → r.length = d.length

/-- What a transaction works on: the buffers and the bus. -/
structure St (σ : Type) where
  mem : Mem
  bus : σ

variable {σ : Type} (bus : BusRoutines σ)

/-- `BUS_sendback_data`: an empty block is not sent. -/
def busSendbackData (data : Bytes) (s : σ) : Option Bytes × σ :=
  if data = [] then (some [], s) else bus.sendbackData data s

/-- `BUS_select_and_sendback` -/
def busSelectAndSendback (data : Bytes) (s : σ) : Option Bytes × σ :=
  match bus.selectAndSendback with
  | some selectAndSendback => selectAndSendback data s
  | none =>
    match bus.select s with
    | (false, s) => (none, s)
    | (true, s) => busSendbackData bus data s

/-- `BUS_compare_bits`: bits are equal when both are zero or both are not. -/
def busCompareBits (data1 data2 : Bytes) : Bool := data1.map (· == 0) == data2.map (· == 0)

/-- `BUS_send_data` -/
def busSendData (data : Bytes) (s : σ) : Int × σ :=
  match busSendbackData bus data s with
  | (none, s) => (gbBad, s)
  | (some resp, s) => (goodOrBad (data == resp), s)

/-- `BUS_send_bits` -/
def busSendBits (data : Bytes) (s : σ) : Int × σ :=
  match bus.sendbackBits data s with
  | (none, s) => (gbBad, s)
  | (some resp, s) => (goodOrBad (busCompareBits data resp), s)

/-- A routine that sends `data` and stores what comes back at `p`. -/
def sendInto (send : Bytes → σ → Option Bytes × σ) (data : Bytes) (p : Ptr) (st : St σ) :
    Option (Int × St σ) :=
  match send data st.bus with
  | (none, s) => some (gbBad, ⟨st.mem, s⟩)
  | (some resp, s) => (st.mem.deposit p resp).map fun mem => (gbGood, ⟨mem, s⟩)

/-- `BUS_readin_data` and `BUS_readin_bits`: the buffer is filled with ones and sent. -/
def readin (send : Bytes → σ → Option Bytes × σ) (p : Ptr) (n : Nat) (st : St σ) :
    Option (Int × St σ) := do
  let mem ← st.mem.deposit p (List.replicate n 0xFF)
  let data ← mem.fetch p n
  sendInto send data p ⟨mem, st.bus⟩

/-- `BUS_PowerByte` and `BUS_PowerBit`, with the byte at `out`. -/
def powered (send : Byte → Nat → σ → Option Byte × σ) (t : Item) (st : St σ) :
    Option (Int × St σ) := do
  let data ← st.mem.fetch t.out 1
  match send (data.headD 0) t.size st.bus with
  | (none, s) => some (gbBad, ⟨st.mem, s⟩)
  | (some resp, s) => (st.mem.deposit t.into [resp]).map fun mem => (gbGood, ⟨mem, s⟩)

/-- The comparison of two buffers with `eq`; NULL is equal to nothing. -/
def compareBuffers (eq : Bytes → Bytes → Bool) (t : Item) (m : Mem) : Bool :=
  match t.into, t.out with
  | some a, some b => eq (m.read a t.size) (m.read b t.size)
  | _, _ => false

/-! ## One item at a time -/

/-- `BUS_transaction_single` -/
def busTransactionSingle (t : Item) (st : St σ) : Option (Int × St σ) :=
  match t.type with
  | .trxnSelect =>
    let (ok, s) := bus.select st.bus
    some (goodOrBad ok, ⟨st.mem, s⟩)
  | .trxnCompare => some (goodOrBad (compareBuffers (· == ·) t st.mem), st)
  | .trxnBitcompare => some (goodOrBad (compareBuffers busCompareBits t st.mem), st)
  | .trxnMatch =>
    if t.into ≠ none then none
    else if t.size = 0 then some (gbGood, st)
    else do
      let data ← st.mem.fetch t.out t.size
      let (ret, s) := busSendData bus data st.bus
      some (ret, ⟨st.mem, s⟩)
  | .trxnBitmatch =>
    if t.into ≠ none then none
    else if t.size = 0 then some (gbGood, st)
    else do
      let data ← st.mem.fetch t.out t.size
      let (ret, s) := busSendBits bus data st.bus
      some (ret, ⟨st.mem, s⟩)
  | .trxnRead =>
    if t.out ≠ none then none
    else if t.size = 0 then some (gbGood, st)
    else readin (busSendbackData bus) t.into t.size st
  | .trxnBitread =>
    if t.out ≠ none then none
    else if t.size = 0 then some (gbGood, st)
    else readin bus.sendbackBits t.into t.size st
  | .trxnModify => do
    let data ← st.mem.fetch t.out t.size
    sendInto (busSendbackData bus) data t.into st
  | .trxnBitmodify => do
    let data ← st.mem.fetch t.out t.size
    sendInto bus.sendbackBits data t.into st
  | .trxnBlind => do
    let data ← st.mem.fetch t.out t.size
    let (resp, s) := busSendbackData bus data st.bus
    some (goodOrBad resp.isSome, ⟨st.mem, s⟩)
  | .trxnPower => powered bus.powerByte t st
  | .trxnBitpower => powered bus.powerBit t st
  | .trxnProgram =>
    let (ok, s) := bus.programPulse st.bus
    some (goodOrBad ok, ⟨st.mem, s⟩)
  | .trxnCrc8 => do
    let data ← st.mem.fetch t.out t.size
    some ((Device.crc8 data).toNat, st)
  | .trxnCrc8seeded => do
    let seed ← st.mem.fetchUint t.into
    let data ← st.mem.fetch t.out t.size
    some ((crc8Compute data (seed.truncate 8)).toNat, st)
  | .trxnCrc16 => do
    let data ← st.mem.fetch t.out t.size
    some (Device.crc16 data, st)
  | .trxnCrc16seeded => do
    let seed ← st.mem.fetchUint t.into
    let data ← st.mem.fetch t.out t.size
    some (Device.crc16Seeded data seed, st)
  | .trxnDelay | .trxnUdelay | .trxnNop => some (gbGood, st)
  | .trxnReset =>
    let (ok, s) := bus.reset st.bus
    some (goodOrBad ok, ⟨st.mem, s⟩)
  | .trxnEnd => some (gbOther, st)
  | .trxnVerify =>
    match bus.selectNoDevice st.bus with
    | (false, s) => some (gbBad, ⟨st.mem, s⟩)
    | (true, s) =>
      let (ok, s) := bus.verify (BitVec.ofNat 8 t.size) s
      some (goodOrBad ok, ⟨st.mem, s⟩)

/-- The loop of `BUS_transaction_nolock`: `gbOTHER` is the flag of the last item. -/
def transactionLoop : List Item → St σ → Option (Int × St σ)
  | [], _ => none
  | t :: ts, st => do
    let (ret, st) ← busTransactionSingle bus t st
    if ret = gbOther then some (gbGood, st)
    else if ret = gbGood then transactionLoop ts st
    else some (ret, st)

end Owfs.Transaction
