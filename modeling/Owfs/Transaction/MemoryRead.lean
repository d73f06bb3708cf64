import Owfs.Transaction.Paged
import Owfs.Device.CrcRegister

/-!
# Reading the memory of a device

`COMMON_read_memory_F0` and `OW_r_crc16` (`ow_memory.c`) read a part of a page. The first takes the
bytes as they come; the second reads up to the end of the page into an array of its own, where the
checksum is tested, and copies from there.

The device here makes no errors. It sends its memory from the address that it was given on, and
after a page the checksum, if the command asks for it.
-/

namespace Owfs.Transaction

open Infra Owfs.Device

/-! ## The device -/

/-- What was sent since the device was selected. -/
def sinceSelect (h : List BusEvent) : Bytes :=
  h.foldl (fun sent e => match e with | .select => [] | .byte b => sent ++ [b]) []

/-- `_1W_READ_F0` -/
def readF0 : Byte := 0xF0

/-- `_1W_READ_A5` -/
def readA5 : Byte := 0xA5

/-- `_1W_READ_AA` -/
def readAA : Byte := 0xAA

/-- The bytes of `LOW_HIGH_ADDRESS` -/
def lowHighAddress (offset : Nat) : Bytes := [BitVec.ofNat 8 offset, BitVec.ofNat 8 (offset >>> 8)]

/-- The bytes of a page from an address on, and the checksum of all that went over the bus. -/
def pageAndCrc (memory : Mem) (pagelen : Nat) (command : Bytes) (address : Nat) : Bytes :=
  let page := memory.read address (pagelen - address % pagelen)
  page ++ complementBytes (crc16Compute (command ++ page) 0)

/-- What the device says after it was sent some bytes; ones if it has nothing to say. -/
def memoryReply (memory : Mem) (pagelen : Nat) : Bytes → Byte
  | command :: low :: high :: rest =>
    let address := low.toNat + 256 * high.toNat
    if command = readF0 then memory (address + rest.length)
    else if command = readA5 ∨ command = readAA then
      (pageAndCrc memory pagelen [command, low, high] address).getD rest.length 0xFF
    else 0xFF
  | _ => 0xFF

/-- The bus is low if the master or the device pulls it down. -/
def memoryBus (memory : Mem) (pagelen : Nat) : ByteBus where
  select := fun _ => true
  answer := fun h b => some (b &&& memoryReply memory pagelen (sinceSelect h))

/-! ## The routines -/

section

variable {σ : Type} (bus : BusRoutines σ) (bundling : Option Nat) (p : Nat)

/-- `COMMON_read_memory_F0`, with its array at `p`. -/
def commonReadMemoryF0 (owq : OneWireQuery) (page pagesize : Nat) (st : St σ) :
    Option (Int × St σ) :=
  let offset := owq.offset + page * pagesize
  busTransactionNolock bus bundling
    (logOf [.start, .write (some p) 3, .read (some owq.buffer) owq.size])
    ⟨st.mem.write p (readF0 :: lowHighAddress offset), st.bus⟩

/-- `OW_r_crc16`. The array at `p` has `3 + pagesize + 2` bytes; to copy from behind it is a fault.
`rest` is an `int`, which is large enough for pages of real devices. -/
def owRCrc16 (code : Byte) (owq : OneWireQuery) (page pagesize : Nat) (st : St σ) :
    Option (Int × St σ) :=
  let offset := owq.offset + page * pagesize
  let rest := pagesize - offset % pagesize
  (busTransactionNolock bus bundling
    (logOf [.start, .write (some p) 3, .read (some (p + 3)) (rest + 2),
      .crc16 (some p) (3 + rest + 2)])
    ⟨st.mem.write p (code :: lowHighAddress offset), st.bus⟩).bind fun r =>
      if r.1 ≠ gbGood then some (gbBad, r.2)
      else if pagesize + 2 < owq.size then none
      else some (gbGood, ⟨r.2.mem.write owq.buffer (r.2.mem.read (p + 3) owq.size), r.2.bus⟩)

/-- `COMMON_read_memory_crc16_A5` and `COMMON_read_memory_crc16_AA` -/
def commonReadMemoryCrc16 (code : Byte) (owq : OneWireQuery) (page pagesize : Nat) (st : St σ) :
    Option (Int × St σ) :=
  (owRCrc16 bus bundling p code owq page pagesize st).map fun r => (if r.1 ≠ 0 then -22 else 0, r.2)

end

/-! ## What the device says -/

section

variable (memory : Mem) (pagelen : Nat)

@[simp] theorem sinceSelect_select (h : List BusEvent) : sinceSelect (h ++ [.select]) = [] := by
  simp [sinceSelect]

@[simp] theorem sinceSelect_byte (h : List BusEvent) (b : Byte) :
    sinceSelect (h ++ [.byte b]) = sinceSelect h ++ [b] := by
  simp [sinceSelect]

/-- The answers to a block, after some bytes were sent. -/
def memoryReplies : Bytes → Bytes → Bytes
  | _, [] => []
  | sent, b :: d => (b &&& memoryReply memory pagelen sent) :: memoryReplies (sent ++ [b]) d

theorem exchange_memoryBus (d : Bytes) (h : List BusEvent) :
    (memoryBus memory pagelen).exchange d h =
    (some (memoryReplies memory pagelen (sinceSelect h) d), h ++ d.map .byte) := by
  induction d generalizing h with
  | nil => simp [ByteBus.exchange, memoryReplies]
  | cons b d ih =>
    rw [ByteBus.exchange, ih, sinceSelect_byte]
    simp [memoryBus, memoryReplies]

/-- The first three bytes come back. -/
theorem memoryReplies_command (command low high : Byte) :
    memoryReplies memory pagelen [] [command, low, high] = [command, low, high] := by
  have hones (b : Byte) : b &&& 0xFF = b := BitVec.and_allOnes
  simp only [memoryReplies, memoryReply, List.nil_append, List.cons_append, hones]

/-- Ones are answered by what the device has to say. -/
theorem memoryReplies_ones (sent : Bytes) (n : Nat) :
    memoryReplies memory pagelen sent (List.replicate n 0xFF) =
    (List.range n).map fun i => memoryReply memory pagelen (sent ++ List.replicate i 0xFF) := by
  induction n generalizing sent with
  | zero => rfl
  | succ n ih =>
    have hones (b : Byte) : 0xFF &&& b = b := BitVec.allOnes_and
    rw [List.replicate_succ, memoryReplies, ih, hones, List.range_succ_eq_map, List.map_cons,
      List.map_map]
    simp [Function.comp_def, List.replicate_succ]

theorem address_lowHigh {offset : Nat} (h : offset < 65536) :
    (BitVec.ofNat 8 offset).toNat + 256 * (BitVec.ofNat 8 (offset >>> 8)).toNat = offset := by
  rw [BitVec.toNat_ofNat, BitVec.toNat_ofNat, Nat.shiftRight_eq_div_pow]
  omega

/-- The memory from an address on. -/
theorem memoryReplies_F0 {offset : Nat} (h : offset < 65536) (n : Nat) :
    memoryReplies memory pagelen (readF0 :: lowHighAddress offset) (List.replicate n 0xFF) =
      memory.read offset n := by
  rw [memoryReplies_ones, Mem.read]
  refine List.map_congr_left fun i _ => ?_
  simp only [lowHighAddress, List.cons_append, List.nil_append, memoryReply, if_pos,
    address_lowHigh h, List.length_replicate]

theorem length_pageAndCrc (command : Bytes) (address : Nat) :
    (pageAndCrc memory pagelen command address).length = pagelen - address % pagelen + 2 := by
  simp [pageAndCrc, complementBytes]

/-- The rest of a page and its checksum. -/
theorem memoryReplies_crc16 {code : Byte} (hcode : code = readA5 ∨ code = readAA) {offset : Nat}
    (h : offset < 65536) :
    memoryReplies memory pagelen (code :: lowHighAddress offset)
      (List.replicate (pagelen - offset % pagelen + 2) 0xFF)
      = pageAndCrc memory pagelen (code :: lowHighAddress offset) offset := by
  have hne : code ≠ readF0 := by
    obtain rfl | rfl := hcode <;> decide
  have hlen := length_pageAndCrc memory pagelen (code :: lowHighAddress offset) offset
  rw [memoryReplies_ones, ← hlen]
  refine List.ext_getElem (by simp) fun i hi hi' => ?_
  rw [List.getElem_map, List.getElem_range]
  simp only [lowHighAddress, List.cons_append, List.nil_append, memoryReply, if_neg hne,
    if_pos hcode, address_lowHigh h, List.length_replicate]
  exact List.getD_eq_getElem _ _ hi'

end

/-! ## One chunk -/

/-- What a read leaves: the bytes of the device are in the buffer, and besides it only the array at
`p` has changed. -/
structure Delivered (memory : Mem) (p n : Nat) (owq : OneWireQuery) (m m' : Mem) : Prop where
  read_eq : m'.read owq.buffer owq.size = memory.read owq.offset owq.size
  frame : ∀ x, (x < p ∨ p + n ≤ x) → (x < owq.buffer ∨ owq.buffer + owq.size ≤ x) → m' x = m x

theorem write_nil (m : Mem) (a : Nat) : m.write a [] = m := by
  funext x
  rw [Mem.write, if_neg]
  simp

theorem read_add (m : Mem) (a n k : Nat) : m.read a (n + k) = m.read a n ++ m.read (a + n) k := by
  rw [Mem.read, List.range_add, List.map_append, List.map_map]
  simp [Mem.read, Function.comp_def, Nat.add_assoc]

theorem take_read (m : Mem) (a : Nat) {n k : Nat} (h : k ≤ n) :
    (m.read a n).take k = m.read a k := by
  obtain ⟨l, rfl⟩ := Nat.exists_eq_add_of_le h
  rw [read_add, List.take_left' (Mem.length_read _ _ _)]

theorem write_frame {m : Mem} {a : Nat} {d : Bytes} {x : Nat} (h : x < a ∨ a + d.length ≤ x) :
    m.write a d x = m x := by
  rw [Mem.write, if_neg]
  omega

section

variable (memory : Mem) (pagelen : Nat) (other : BusRoutines (List BusEvent))
    (bundling : Option Nat)

/-- Whether items are bundled or not, the transaction is good if each of them is. -/
theorem busTransactionNolock_eq_good {log : List Trxn} (hkind : ∀ x ∈ log, x.inBlocks)
    (hspare : log.Pairwise Trxn.Spares) {st st' : St (List BusEvent)}
    (h : transactionLoop ((memoryBus memory pagelen).routines other) (logOf log) st =
      some (gbGood, st')) :
    busTransactionNolock ((memoryBus memory pagelen).routines other) bundling (logOf log) st =
      some (gbGood, st') := by
  cases bundling with
  | none => exact h
  | some maxSize => exact (bundlePack_eq_good_iff _ other maxSize hkind hspare st st').mpr h

theorem transactionLoop_cons {σ : Type} {bus : BusRoutines σ} {t : Item} {ts : List Item}
    {st st₁ : St σ} (h : busTransactionSingle bus t st = some (gbGood, st₁)) :
    transactionLoop bus (t :: ts) st = transactionLoop bus ts st₁ := by
  rw [transactionLoop, h]
  rfl

theorem sendbackData_memoryBus (d : Bytes) (h : List BusEvent) :
    busSendbackData ((memoryBus memory pagelen).routines other) d h =
      (some (memoryReplies memory pagelen (sinceSelect h) d), h ++ d.map .byte) := by
  rw [busSendbackData]
  split
  · rename_i hd
    simp [hd, memoryReplies]
  · exact exchange_memoryBus memory pagelen d h

theorem single_start (st : St (List BusEvent)) :
    busTransactionSingle ((memoryBus memory pagelen).routines other) Trxn.start.item st
      = some (gbGood, ⟨st.mem, st.bus ++ [.select]⟩) := rfl

/-- The command and the address go to the device. -/
theorem single_command {m : Mem} {p : Nat} {command low high : Byte}
    (hp : m.read p 3 = [command, low, high]) {h : List BusEvent} (hh : sinceSelect h = []) :
    busTransactionSingle ((memoryBus memory pagelen).routines other) (Trxn.write (some p) 3).item
      ⟨m, h⟩
      = some (gbGood, ⟨m, h ++ [.byte command, .byte low, .byte high]⟩) := by
  refine (single_eq_good_iff rfl).mpr ⟨[command, low, high], [command, low, high], ?_, ?_, ?_, rfl⟩
  · exact (Mem.fetch_some m p 3).trans (congrArg some hp)
  · rw [sendbackData_memoryBus, hh, memoryReplies_command]
    rfl
  · exact (Mem.fetch_some m p 3).trans (congrArg some hp)

/-- A block of ones is filled by the device. -/
theorem single_read {m : Mem} {q n : Nat} {r : Bytes} {h : List BusEvent}
    (hr : memoryReplies memory pagelen (sinceSelect h) (List.replicate n 0xFF) = r) :
    busTransactionSingle ((memoryBus memory pagelen).routines other) (Trxn.read (some q) n).item
      ⟨m, h⟩
      = some (gbGood, ⟨m.write q r, h ++ (List.replicate n 0xFF).map .byte⟩) := by
  refine (single_eq_good_iff rfl).mpr ⟨List.replicate n 0xFF, r, rfl, ?_, ?_⟩
  · rw [sendbackData_memoryBus, hr]
  · rw [Trxn.Uses, Mem.deposit]
    split
    · rename_i hnil
      rw [hnil, write_nil]
    · rfl

/-- What the device is sent before it is read. -/
theorem sinceSelect_command (h : List BusEvent) (command : Byte) (offset : Nat) :
    sinceSelect (h ++ [.select] ++
      [.byte command, .byte (BitVec.ofNat 8 offset), .byte (BitVec.ofNat 8 (offset >>> 8))])
      = command :: lowHighAddress offset := by
  simp [sinceSelect, lowHighAddress]

/-- The start of both transactions: the device is selected, sent its command and read. -/
theorem transactionLoop_read {p q n offset : Nat} {command : Byte} {r : Bytes}
    (hreply : memoryReplies memory pagelen (command :: lowHighAddress offset)
      (List.replicate n 0xFF) = r) (rest : List Trxn)
    (m : Mem) (h : List BusEvent) :
    ∃ h', transactionLoop ((memoryBus memory pagelen).routines other)
        (logOf (.start :: .write (some p) 3 :: .read (some q) n :: rest))
          ⟨m.write p (command :: lowHighAddress offset), h⟩
      = transactionLoop ((memoryBus memory pagelen).routines other) (logOf rest)
        ⟨(m.write p (command :: lowHighAddress offset)).write q r, h'⟩ := by
  have hcommand : (m.write p (command :: lowHighAddress offset)).read p 3 = command ::
      lowHighAddress offset :=
    Mem.read_write_self m p (command :: lowHighAddress offset)
  rw [← sinceSelect_command h] at hreply
  rw [logOf_cons, transactionLoop_cons (single_start ..), logOf_cons,
    transactionLoop_cons (single_command memory pagelen other hcommand (sinceSelect_select _)),
    logOf_cons, transactionLoop_cons (single_read memory pagelen other hreply)]
  exact ⟨_, rfl⟩

/-- `COMMON_read_memory_F0` reads the device. -/
theorem commonReadMemoryF0_delivers {p : Nat} {owq : OneWireQuery} (hoffset : owq.offset < 65536)
    (pagesize : Nat) (st : St (List BusEvent)) :
    ∃ st', commonReadMemoryF0 ((memoryBus memory pagelen).routines other) bundling p owq 0 pagesize
      st = some (gbGood, st') ∧
      Delivered memory p 3 owq st.mem st'.mem := by
  obtain ⟨h', hloop⟩ := transactionLoop_read memory pagelen other (p := p) (q := owq.buffer)
    (memoryReplies_F0 memory pagelen hoffset owq.size) [] st.mem st.bus
  have hspare : [Trxn.start, .write (some p) 3, .read (some owq.buffer) owq.size].Pairwise
      Trxn.Spares := by
    simp [Trxn.Spares, Trxn.filled, Trxn.sent, Mem.PtrApart]
  refine ⟨⟨(st.mem.write p (readF0 :: lowHighAddress owq.offset)).write owq.buffer
    (memory.read owq.offset owq.size), h'⟩, ?_, ?_, fun x hp hx => ?_⟩
  · rw [commonReadMemoryF0, Nat.zero_mul, Nat.add_zero]
    exact busTransactionNolock_eq_good memory pagelen other bundling (by simp [Trxn.inBlocks])
      hspare hloop
  · have hself :=
      Mem.read_write_self (st.mem.write p (readF0 :: lowHighAddress owq.offset)) owq.buffer
      (memory.read owq.offset owq.size)
    rwa [Mem.length_read] at hself
  · exact (write_frame (by rwa [Mem.length_read])).trans (write_frame hp)

theorem take_pageAndCrc {offset size : Nat} (h : offset % pagelen + size ≤ pagelen)
    (command : Bytes) :
    (pageAndCrc memory pagelen command offset).take size = memory.read offset size := by
  have hrest : pagelen - offset % pagelen = size + (pagelen - offset % pagelen - size) := by omega
  rw [pageAndCrc, hrest, read_add, List.append_assoc, List.take_left' (Mem.length_read _ _ _)]

/-- `OW_r_crc16` reads the device, if the request lies in one page. -/
theorem commonReadMemoryCrc16_delivers {code : Byte} (hcode : code = readA5 ∨ code = readAA)
    {p : Nat} {owq : OneWireQuery} (hoffset : owq.offset < 65536)
    (hpage : owq.offset % pagelen + owq.size ≤ pagelen) (st : St (List BusEvent)) :
    ∃ st', commonReadMemoryCrc16 ((memoryBus memory pagelen).routines other) bundling p code owq 0
      pagelen st
        = some (gbGood, st') ∧
      Delivered memory p (3 + pagelen + 2) owq st.mem st'.mem := by
  have hreply := memoryReplies_crc16 memory pagelen hcode hoffset
  obtain ⟨h', hloop⟩ := transactionLoop_read memory pagelen other (p := p) (q := p + 3) hreply
    [.crc16 (some p) (3 + (pagelen - owq.offset % pagelen) + 2)] st.mem st.bus
  have hread := Mem.read_write_self (st.mem.write p (code :: lowHighAddress owq.offset)) (p + 3)
    (pageAndCrc memory pagelen (code :: lowHighAddress owq.offset) owq.offset)
  have hcommand : ((st.mem.write p (code :: lowHighAddress owq.offset)).write (p + 3)
      (pageAndCrc memory pagelen (code :: lowHighAddress owq.offset)
        owq.offset)).read p 3 = code :: lowHighAddress owq.offset :=
    (Mem.read_write_of_apart (.inr (.inr (.inr (le_refl _))))).trans
      (Mem.read_write_self st.mem p (code :: lowHighAddress owq.offset))
  rw [length_pageAndCrc] at hread
  generalize hm : (st.mem.write p (code :: lowHighAddress owq.offset)).write (p + 3)
    (pageAndCrc memory pagelen (code :: lowHighAddress owq.offset) owq.offset) =
      m at hloop hread hcommand
  have harray : m.read p (3 + (pagelen - owq.offset % pagelen) + 2)
      = (code :: lowHighAddress owq.offset) ++
        pageAndCrc memory pagelen (code :: lowHighAddress owq.offset) owq.offset := by
    rw [Nat.add_assoc, read_add, hread, hcommand]
  have hcrc : busTransactionSingle ((memoryBus memory pagelen).routines other)
      (Trxn.crc16 (some p) (3 + (pagelen - owq.offset % pagelen) + 2)).item ⟨m, h'⟩ =
        some (gbGood, ⟨m, h'⟩) := by
    refine (single_eq_good_iff rfl).mpr
      ⟨[], [], rfl, rfl, ⟨_, (Mem.fetch_some _ _ _).trans (congrArg some harray), ?_⟩, rfl⟩
    rw [pageAndCrc, ← List.append_assoc]
    exact crc16_complementBytes _
  replace hloop := hloop.trans (transactionLoop_cons hcrc)
  have hspare : [Trxn.start, .write (some p) 3,
      .read (some (p + 3)) (pagelen - owq.offset % pagelen + 2),
      .crc16 (some p) (3 + (pagelen - owq.offset % pagelen) + 2)].Pairwise Trxn.Spares := by
    simp [Trxn.Spares, Trxn.filled, Trxn.sent, Mem.PtrApart]
  have htransaction :=
    busTransactionNolock_eq_good memory pagelen other bundling (by simp [Trxn.inBlocks]) hspare
      hloop
  -- the bytes behind the command are the first ones of the page
  have hcopy : m.read (p + 3) owq.size = memory.read owq.offset owq.size := by
    rw [← take_pageAndCrc memory pagelen hpage (code :: lowHighAddress owq.offset), ← hread]
    exact (take_read m (p + 3) (by omega)).symm
  refine ⟨⟨m.write owq.buffer (memory.read owq.offset owq.size), h'⟩, ?_, ?_, fun x hp hx => ?_⟩
  · rw [commonReadMemoryCrc16, owRCrc16]
    simp only [Nat.zero_mul, Nat.add_zero]
    rw [htransaction, Option.bind_some, if_neg (by simp), if_neg (by omega), hcopy]
    rfl
  · have hself := Mem.read_write_self m owq.buffer (memory.read owq.offset owq.size)
    rwa [Mem.length_read] at hself
  · refine (write_frame (by rwa [Mem.length_read])).trans ?_
    rw [← hm, write_frame, write_frame]
    · simp only [lowHighAddress, List.length_cons, List.length_nil]
      omega
    · rw [length_pageAndCrc]
      omega

end

/-! ## All chunks -/

section

variable {memory : Mem} {pagelen p n : Nat} {σ : Type}

/-- A chunk and then the rest. -/
theorem Delivered.append {owq : OneWireQuery} {t : Nat} (ht : t ≤ owq.size) {m m₁ m₂ : Mem}
    (hapart : Mem.Apart p n owq.buffer owq.size)
    (h₁ : Delivered memory p n ⟨owq.buffer, t, owq.offset⟩ m m₁)
    (h₂ : Delivered memory p n ⟨owq.buffer + t, owq.size - t, owq.offset + t⟩ m₁ m₂) :
    Delivered memory p n owq m m₂ := by
  obtain ⟨read₁, frame₁⟩ := h₁
  obtain ⟨read₂, frame₂⟩ := h₂
  dsimp only at read₁ frame₁ read₂ frame₂
  refine ⟨?_, fun x hp hx => ?_⟩
  · have hkeep : m₂.read owq.buffer t = m₁.read owq.buffer t := by
      refine Mem.read_congr fun x hlo hhi => frame₂ x ?_ (.inl hhi)
      unfold Mem.Apart at hapart
      omega
    have hsize : owq.size = t + (owq.size - t) := by omega
    rw [hsize, read_add, read_add, hkeep, read₁, read₂]
  · rw [frame₂ x hp (by omega), frame₁ x hp (by omega)]

/-- A routine that reads a part of a page correctly reads a whole request correctly. -/
theorem runChunks_delivers (hp : pagelen ≠ 0) {call : OneWireQuery → St σ → Option (Int × St σ)}
    (hcall : ∀ c : OneWireQuery, c.offset < 65536 → c.offset % pagelen + c.size ≤ pagelen → ∀ st,
      ∃ st', call c st = some (gbGood, st') ∧ Delivered memory p n c st.mem st'.mem)
    (owq : OneWireQuery) (hrange : owq.offset + owq.size ≤ 65536)
    (hapart : Mem.Apart p n owq.buffer owq.size) (st : St σ) :
    ∃ st', runChunks call (chunks pagelen owq.buffer owq.size owq.offset) st = some (gbGood, st') ∧
      Delivered memory p n owq st.mem st'.mem := by
  obtain ⟨buffer, size, offset⟩ := owq
  dsimp only at hrange hapart ⊢
  induction size using Nat.strong_induction_on generalizing buffer offset st with
  | _ size ih =>
    rw [chunks]
    by_cases hsize : size = 0
    · rw [if_pos (.inl hsize), hsize]
      exact ⟨st, rfl, rfl, fun _ _ _ => rfl⟩
    · obtain ⟨hpos, hle, hpage⟩ := thisPage_spec hp hsize offset
      obtain ⟨st₁, hcall₁, h₁⟩ :=
        hcall ⟨buffer, thisPage pagelen size offset, offset⟩ (by dsimp only; omega) hpage st
      obtain ⟨st₂, hcall₂, h₂⟩ := ih (size - thisPage pagelen size offset) (by omega) st₁
        (buffer + thisPage pagelen size offset) (offset + thisPage pagelen size offset) (by omega)
        (by unfold Mem.Apart at hapart ⊢; omega)
      refine ⟨st₂, ?_, Delivered.append hle hapart h₁ h₂⟩
      rw [if_neg (not_or.mpr ⟨hsize, hp⟩), runChunks, hcall₁, Option.bind_some, if_pos rfl, hcall₂]

end

/-- **Paged requests.** Both loops call their routine on consecutive chunks that each lie in one
page and together are the request, until the first failure. So a request to the memory of a device
without errors, read with or without checksums and with or without bundling, gets exactly the bytes
of the device, and nothing is copied from behind the array of a page. -/
theorem paged_spec {pagelen : Nat} (hp : 0 < pagelen) (owq : OneWireQuery) (page : Nat) :
    (∃ cs, Covers pagelen ⟨owq.buffer, owq.size, owq.offset + pagelen * page⟩ cs ∧
      (∀ (σ : Type) (readwritefunc : Nat → Nat → Nat → σ → Option (Int × σ)) (s : σ),
        commonReadwritePaged readwritefunc owq page pagelen s =
          runChunks (fun c => readwritefunc c.buffer c.size c.offset) cs s) ∧
      ∀ (σ : Type) (readwritefunc : OneWireQuery → Nat → Nat → σ → Option (Int × σ)) (s : σ),
        commonOwqReadwritePaged readwritefunc owq page pagelen s =
        runChunks (fun c => readwritefunc c 0 pagelen) cs s) ∧
    ∀ (memory : Mem) (other : BusRoutines (List BusEvent)) (bundling : Option Nat) (p : Nat)
      (st : St (List BusEvent)), pagelen ≤ 65536 → owq.offset + pagelen * page + owq.size ≤ 65536 →
      Mem.Apart p (3 + pagelen + 2) owq.buffer owq.size →
      (∃ st', commonOwqReadwritePaged
      (commonReadMemoryF0 ((memoryBus memory pagelen).routines other) bundling p) owq page
          pagelen st = some (gbGood, st') ∧
        st'.mem.read owq.buffer owq.size = memory.read (owq.offset + pagelen * page) owq.size) ∧
      ∀ code, code = readA5 ∨ code = readAA →
        ∃ st', commonOwqReadwritePaged
        (commonReadMemoryCrc16 ((memoryBus memory pagelen).routines other) bundling p code) owq
            page pagelen st = some (gbGood, st') ∧
          st'.mem.read owq.buffer owq.size =
            memory.read (owq.offset + pagelen * page) owq.size := by
  have hne : pagelen ≠ 0 := by omega
  refine ⟨⟨_, covers_chunks hne _, ?_, ?_⟩, ?_⟩
  · intro σ readwritefunc s
    exact pagedLoop_eq hne readwritefunc _ _ _ s
  · intro σ readwritefunc s
    exact pagedLoop_eq hne _ _ _ _ s
  · intro memory other bundling p st _ hrange hapart
    refine ⟨?_, fun code hcode => ?_⟩
    · obtain ⟨st', hrun, hdelivered⟩ := runChunks_delivers hne
        (fun c hoffset _ st =>
          commonReadMemoryF0_delivers memory pagelen other bundling (p := p) hoffset pagelen st)
        ⟨owq.buffer, owq.size, owq.offset + pagelen * page⟩ hrange
          (by unfold Mem.Apart at hapart ⊢; dsimp only; omega) st
      exact ⟨st', (pagedLoop_eq hne _ _ _ _ st).trans hrun, hdelivered.read_eq⟩
    · obtain ⟨st', hrun, hdelivered⟩ := runChunks_delivers hne
        (fun c hoffset hpage st =>
          commonReadMemoryCrc16_delivers memory pagelen other bundling hcode (p := p) hoffset hpage
          st)
        ⟨owq.buffer, owq.size, owq.offset + pagelen * page⟩ hrange hapart st
      exact ⟨st', (pagedLoop_eq hne _ _ _ _ st).trans hrun, hdelivered.read_eq⟩

/-- Five bytes from the second byte of page 1 on, in pages of four bytes. -/
theorem paged_spec_pages :
    ∃ st', commonOwqReadwritePaged
      (commonReadMemoryCrc16 ((memoryBus (fun a => BitVec.ofNat 8 (a * a)) 4).routines
        (failingRoutines _)) none 100 readA5) ⟨200, 5, 1⟩ 1 4 ⟨fun _ => 0, []⟩ =
          some (gbGood, st') ∧
      st'.mem.read 200 5 = [25, 36, 49, 64, 81] :=
  ((paged_spec (show 0 < 4 by decide) ⟨200, 5, 1⟩ 1).2 (fun a => BitVec.ofNat 8 (a * a))
    (failingRoutines _) none 100
    ⟨fun _ => 0, []⟩ (by decide) (by decide) (by decide)).2 readA5 (.inl rfl)

/-- On a bus that fails, the first call of the routine returns `-EINVAL` and the loop `gbBAD`. -/
theorem first_failure_not_returned :
    let readwritefunc := commonReadMemoryCrc16 (failingRoutines Unit) none 100 readA5
    ∃ st, readwritefunc ⟨200, 3, 5⟩ 0 4 ⟨fun _ => 0, ()⟩ = some (-22, st) ∧
      commonOwqReadwritePaged readwritefunc ⟨200, 5, 1⟩ 1 4 ⟨fun _ => 0, ()⟩ = some (gbBad, st) ∧
      gbBad ≠ -22 := by
  intro readwritefunc
  let st : St Unit := ⟨Mem.write (fun _ => 0) 100 (readA5 :: lowHighAddress 5), ()⟩
  have hcall : readwritefunc ⟨200, 3, 5⟩ 0 4 ⟨fun _ => 0, ()⟩ = some (-22, st) := rfl
  refine ⟨st, hcall, ?_, by decide⟩
  rw [commonOwqReadwritePaged, pagedLoop, if_neg (by decide), if_neg (by decide)]
  exact (congrArg (Option.bind · _) hcall).trans rfl

end Owfs.Transaction
