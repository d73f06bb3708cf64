import Owfs.Eeprom.Scratchpad

/-!
# Writing a memory through its scratchpad

The routines that write the RAM of the DS1993 and its relatives (`ow_1993.c`) and the DS2433 and
DS28EC20 (`ow_2433.c`), and the functions of the file system above them: a request is cut into
pieces that each lie in one page, and each piece goes into the scratchpad, is read back and
compared, and is copied.

Whatever is written and read in this way, a device without errors is an array of bytes.

The items that `OW_w_23page` turns into `trxn_nop` keep their pointers and their length in the
source, which nothing reads. The locks of the bus are left out.
-/

namespace Owfs.Eeprom

open Infra Owfs.Device Owfs.Transaction

/-! ## The routines -/

section

variable {σ : Type} (bus : BusRoutines σ) (bundling : Option Nat) (p : Nat)

/-- `GB_to_Z_OR_E` -/
def gbToZOrE (r : Int × St σ) : Int × St σ := (if r.1 = gbGood then 0 else -22, r.2)

/-- `OW_w_mem` of `ow_1993.c`, with its array at `p` -/
def owWMem (data size offset : Nat) (st : St σ) : Option (Int × St σ) :=
  returnBadIfBad id
    (busTransactionNolock bus bundling (logOf [.start, .write (some p) 3, .write (some data) size])
      ⟨st.mem.write p (writeScratchpad :: lowHighAddress offset ++ List.replicate 33 0),
        st.bus⟩) fun st =>
  returnBadIfBad id
    (busTransactionNolock bus bundling
      (logOf [.start, .write (some p) 1, .read (some (p + 1)) (3 + size),
        .compare (some data) (some (p + 4)) size])
      ⟨st.mem.write p [readScratchpad], st.bus⟩) fun st =>
  busTransactionNolock bus bundling (logOf [.start, .write (some p) 4, .delay 32])
    ⟨st.mem.write p [copyScratchpad], st.bus⟩

/-- `OW_w_23page`, with its array at `p`. The checksum is read only at the end of a row. -/
def owW23page (family : Byte) (data size offset : Nat) (st : St σ) : Option (Int × St σ) :=
  let array := st.mem.write p (writeScratchpad :: lowHighAddress offset ++ List.replicate 34 0)
  let tcopy : List Trxn :=
    if (offset + size) % 32 ≠ 0 then [.start, .write (some p) (3 + size), .nop, .nop]
    else [.start, .write (some p) (3 + size), .read (some (p + (3 + size))) 2,
      .crc16 (some p) (3 + size + 2)]
  returnBadIfBad id
    (busTransactionNolock bus bundling (logOf tcopy)
      ⟨array.write (p + 3) (array.read data size), st.bus⟩) fun st =>
  returnBadIfBad id
    (busTransactionNolock bus bundling
      (logOf [.start, .write (some p) 1, .read (some (p + 1)) (3 + size),
        .compare (some (p + 4)) (some data) size])
      ⟨st.mem.write p [readScratchpad], st.bus⟩) fun st =>
  busTransactionNolock bus bundling
    (logOf [.start, .write (some p) 4, .delay (if family = 0x23 then 5 else 10)])
    ⟨st.mem.write p [copyScratchpad], st.bus⟩

/-- `FS_r_mem` of both files; they differ in the length of a page, which does not matter for page
0. -/
def fsRMem (pagesize : Nat) (owq : OneWireQuery) (st : St σ) : Option (Int × St σ) :=
  (commonReadMemoryF0 bus bundling p owq 0 pagesize st).map fun r =>
    (if r.1 ≠ 0 then -22 else 0, r.2)

/-- `FS_w_mem` of `ow_1993.c` -/
def fsWMem1993 (owq : OneWireQuery) (st : St σ) : Option (Int × St σ) :=
  (commonReadwritePaged (owWMem bus bundling p) owq 0 32 st).map gbToZOrE

/-- `FS_w_mem` of `ow_2433.c`, for all devices but the DS2431 -/
def fsWMem2433 (family : Byte) (owq : OneWireQuery) (st : St σ) : Option (Int × St σ) :=
  (commonReadwritePaged (owW23page bus bundling p family) owq 0 8 st).map gbToZOrE

end

/-! ## Memory -/

theorem read_write_drop (m : Mem) (a : Nat) {k n : Nat} {d : Bytes} (h : k + n ≤ d.length) :
    (m.write a d).read (a + k) n = (d.drop k).take n := by
  have hlength : ((d.drop k).take n).length = n := by
    rw [List.length_take, List.length_drop]
    omega
  refine List.ext_getElem (by rw [hlength, Mem.length_read]) fun i hi _ => ?_
  rw [Mem.length_read] at hi
  simp only [Mem.read, List.getElem_map, List.getElem_range, List.getElem_take, List.getElem_drop]
  rw [Mem.write, if_pos (by omega), show a + k + i - a = k + i by omega]
  exact List.getD_eq_getElem _ _ (by omega)

theorem read_write_take (m : Mem) (a : Nat) {n : Nat} {d : Bytes} (h : n ≤ d.length) :
    (m.write a d).read a n = d.take n :=
  read_write_drop m a (k := 0) (by omega)

/-- Bytes are read that were not written. -/
theorem read_write_apart (m : Mem) {a b n : Nat} {d : Bytes} (h : b + n ≤ a ∨ a + d.length ≤ b) :
    (m.write a d).read b n = m.read b n :=
  Mem.read_write_of_apart (.inr (.inr (h.symm)))

/-! ## The three steps -/

/-- The scratchpad of a device with this memory holds data for an address. -/
structure Loaded (row : Nat) (memory : Mem) (offset : Nat) (d : Bytes) (x : Scratchpad) : Prop where
  memory_eq : x.memory = memory
  target_eq : x.target = offset
  ending_eq : x.ending = offset % row + d.length - 1
  scratch_eq : x.scratch.read (offset % row) d.length = d

section

variable {row : Nat} (other : BusRoutines Scratchpad) (bundling : Option Nat) {memory m : Mem}
  {x : Scratchpad} {p data size offset : Nat} {d : Bytes}

theorem Loaded.sent (h : Loaded row memory offset d x) (sent : Bytes) :
    Loaded row memory offset d { x with sent } :=
  ⟨h.memory_eq, h.target_eq, h.ending_eq, h.scratch_eq⟩

/-- The address and the ending offset as the device reports them. -/
def status (row offset size : Nat) : Bytes :=
  lowHighAddress offset ++ [BitVec.ofNat 8 (offset % row + size - 1)]

theorem length_status (row offset size : Nat) : (status row offset size).length = 3 := rfl

theorem Loaded.report_eq (h : Loaded row memory offset d x)
    (hroom : d.length ≤ Scratchpad.room row offset) :
    ∃ rest, x.report row = status row offset d.length ++ d ++ rest := by
  have hread : x.scratch.read (offset % row) (Scratchpad.room row offset)
      = d ++ x.scratch.read (offset % row + d.length) (Scratchpad.room row offset - d.length) := by
    conv_lhs => rw [show Scratchpad.room row offset = d.length +
      (Scratchpad.room row offset - d.length) by omega]
    rw [read_add, h.scratch_eq]
  rw [Scratchpad.report]
  simp only [h.target_eq, h.ending_eq, hread, status, List.append_assoc]
  exact ⟨_, rfl⟩

/-- What is in the scratchpad is read back and compared. -/
theorem readback_good (hx : Loaded row memory offset d x) (hd : d.length = size)
    (hroom : size ≤ Scratchpad.room row offset) (hp : m.read p 1 = [readScratchpad])
    (hdata : m.read data size = d) (hapart : Mem.Apart p (4 + size) data size) {a b : Nat}
    (hab : (a = data ∧ b = p + 4) ∨ (a = p + 4 ∧ b = data)) :
    ∃ x', busTransactionNolock ((Scratchpad.slave row).routines other) bundling
        (logOf [.start, .write (some p) 1, .read (some (p + 1)) (3 + size),
          .compare (some a) (some b) size]) ⟨m, x⟩
        = some (gbGood, ⟨m.write (p + 1) (status row offset size ++ d), x'⟩) ∧
      Loaded row memory offset d x' := by
  subst hd
  refine ⟨{ x with sent := readScratchpad :: List.replicate (3 + d.length) 0xFF }, ?_, hx.sent _⟩
  obtain ⟨rest, hreport⟩ := hx.report_eq hroom
  have hlength : (status row offset d.length ++ d).length = 3 + d.length := by
    rw [List.length_append, length_status]
  have htake : (x.report row).take (3 + d.length) = status row offset d.length ++ d := by
    rw [hreport, ← hlength, List.take_left]
  have hspare : [Trxn.start, .write (some p) 1, .read (some (p + 1)) (3 + d.length),
      .compare (some a) (some b) d.length].Pairwise Trxn.Spares := by
    simp [Trxn.Spares, Trxn.filled, Trxn.sent, Mem.PtrApart]
  have hcommand := @Scratchpad.exchange_readCommand row { x with sent := [] } rfl
  have hread := @Scratchpad.exchange_readScratchpad row { x with sent := [readScratchpad] } rfl
    (n := 3 + d.length) (by
      show _ ≤ (x.report row).length
      rw [hreport, List.length_append, hlength]
      omega)
  -- both sides of the comparison are the data
  have hback : (m.write (p + 1) (status row offset d.length ++ d)).read (p + 4) d.length = d := by
    have hdrop :=
      read_write_drop m (p + 1) (k := 3) (n := d.length) (d := status row offset d.length ++ d)
        (by omega)
    rw [List.drop_left' (length_status ..), List.take_length] at hdrop
    exact hdrop
  have hkeep : (m.write (p + 1) (status row offset d.length ++ d)).read data d.length = d := by
    rw [Mem.read_write_of_apart, hdata]
    rw [hlength]
    unfold Mem.Apart at hapart ⊢
    omega
  refine (Slave.busTransactionNolock_eq_good_iff _ other bundling (by simp [Trxn.inBlocks])
    hspare).mpr ?_
  rw [Slave.loop_start, Slave.loop_write _ _ (by rw [hp]; exact congrArg Prod.fst hcommand), hp,
    Slave.loop_read]
  have hstate : ((Scratchpad.slave row).exchange [readScratchpad]
      ((Scratchpad.slave row).select x)).2
      = { x with sent := [readScratchpad] } := congrArg Prod.snd hcommand
  rw [hstate, hread]
  have hsame : ({ x with sent := [readScratchpad] } : Scratchpad).report row = x.report row := rfl
  rw [hsame, htake, Slave.loop_compare, if_pos]
  · rfl
  · rcases hab with ⟨rfl, rfl⟩ | ⟨rfl, rfl⟩
    · rw [hkeep, hback]
    · rw [hkeep, hback]

/-- It is copied. -/
theorem copy_good (hx : Loaded row memory offset d x) (hd : d ≠ []) (hoffset : offset < 65536)
    (hending : offset % row + d.length ≤ 256)
    (hp : m.read p 4 = copyScratchpad :: status row offset d.length) (msec : Nat) :
    ∃ x', busTransactionNolock ((Scratchpad.slave row).routines other) bundling
        (logOf [.start, .write (some p) 4, .delay msec]) ⟨m, x⟩ = some (gbGood, ⟨m, x'⟩) ∧
      x'.memory = memory.write offset d := by
  have hpos : 0 < d.length := List.length_pos_of_ne_nil hd
  have hspare : [Trxn.start, .write (some p) 4, .delay msec].Pairwise Trxn.Spares := by
    simp [Trxn.Spares, Trxn.filled, Trxn.sent, Mem.PtrApart]
  obtain ⟨memory', scratch, target, ending, sent⟩ := x
  obtain ⟨hmemory, htarget, hend, hscratch⟩ := hx
  dsimp only at hmemory htarget hend hscratch
  subst hmemory htarget hend
  have hcopy := @Scratchpad.exchange_copy row
    ⟨memory', scratch, target, target % row + d.length - 1, []⟩ rfl hoffset (by dsimp only; omega)
  dsimp only at hcopy
  rw [show target % row + d.length - 1 + 1 - target % row = d.length by omega, hscratch] at hcopy
  refine ⟨((Scratchpad.slave row).exchange (copyScratchpad :: status row target d.length)
    ⟨memory', scratch, target, target % row + d.length - 1, []⟩).2, ?_, congrArg (fun r =>
      r.2.memory) hcopy⟩
  refine (Slave.busTransactionNolock_eq_good_iff _ other bundling (by simp [Trxn.inBlocks])
    hspare).mpr ?_
  rw [Slave.loop_start, Slave.loop_write _ _ (by rw [hp]; exact congrArg Prod.fst hcopy), hp,
    Slave.loop_delay, Slave.loop_end]
  rfl

/-! ## A piece of a request -/

/-- What a write leaves: the data are in the memory of the device, and of the buffers only the array
at `p` has changed. -/
structure Written (p n : Nat) (owq : OneWireQuery) (st st' : St Scratchpad) : Prop where
  memory_eq : st'.bus.memory = st.bus.memory.write owq.offset (st.mem.read owq.buffer owq.size)
  frame : ∀ a, a < p ∨ p + n ≤ a → st'.mem a = st.mem a

/-- The second and the third step. -/
theorem readback_copy_good (hx : Loaded row memory offset d x) (hd : d.length = size)
    (hsize : 0 < size) (hroom : size ≤ Scratchpad.room row offset) (hoffset : offset < 65536)
    (hending : offset % row + size ≤ 256) (hdata : m.read data size = d)
    (hapart : Mem.Apart p (4 + size) data size) {a b : Nat}
    (hab : (a = data ∧ b = p + 4) ∨ (a = p + 4 ∧ b = data)) (msec : Nat) :
    ∃ st', (returnBadIfBad id
        (busTransactionNolock ((Scratchpad.slave row).routines other) bundling
          (logOf [.start, .write (some p) 1, .read (some (p + 1)) (3 + size),
            .compare (some a) (some b) size])
          ⟨m.write p [readScratchpad], x⟩) fun st =>
        busTransactionNolock ((Scratchpad.slave row).routines other) bundling
          (logOf [.start, .write (some p) 4, .delay msec])
            ⟨st.mem.write p [copyScratchpad], st.bus⟩)
        = some (gbGood, st') ∧
      st'.bus.memory = memory.write offset d ∧ ∀ a, a < p ∨ p + (4 + size) ≤ a →
        st'.mem a = m a := by
  have hne : d ≠ [] := by
    rintro rfl
    simp at hd
    omega
  have hstart : Mem.Apart p 1 data size := by
    unfold Mem.Apart at hapart ⊢
    omega
  obtain ⟨x₁, hread, hx₁⟩ :=
    readback_good other bundling (m := m.write p [readScratchpad]) (p := p) hx hd hroom
    (Mem.read_write_self m p [readScratchpad]) ((Mem.read_write_of_apart hstart).trans hdata) hapart
      hab
  have hcommand : (((m.write p [readScratchpad]).write (p + 1) (status row offset size ++ d)).write
      p [copyScratchpad]).read p 4
      = copyScratchpad :: status row offset d.length := by
    rw [show 4 = 1 + 3 from rfl, read_add, read_write_take _ p (by simp),
      read_write_apart _ (.inr (by simp)), read_write_take _ _ (by simp [length_status]),
      List.take_left' (length_status ..), hd]
    rfl
  obtain ⟨x₂, hcopy, hmemory⟩ := copy_good other bundling hx₁ hne hoffset (by omega) hcommand msec
  refine ⟨⟨((m.write p [readScratchpad]).write (p + 1) (status row offset size ++ d)).write p
    [copyScratchpad], x₂⟩, ?_, hmemory, fun a ha => ?_⟩
  · rw [hread]
    exact hcopy
  · have hlength : (status row offset size ++ d).length = 3 + size := by
      rw [List.length_append, length_status, hd]
    dsimp only
    rw [write_frame (by simp; omega), write_frame (by rw [hlength]; omega),
      write_frame (by simp; omega)]

theorem loaded_write (x : Scratchpad) (offset : Nat) (d : Bytes) (sent : Bytes) :
    Loaded row x.memory offset d ⟨x.memory, x.scratch.write (offset % row) d, offset,
      offset % row + d.length - 1, sent⟩ :=
  ⟨rfl, rfl, rfl, Mem.read_write_self ..⟩

/-- `OW_w_mem` writes a piece of a row. -/
theorem owWMem_writes {owq : OneWireQuery} (hsize : 0 < owq.size) (hoffset : owq.offset < 65536)
    (hpage : owq.offset % 32 + owq.size ≤ 32) (hapart : Mem.Apart p 36 owq.buffer owq.size)
    (st : St Scratchpad) :
    ∃ st', owWMem ((Scratchpad.slave 32).routines other) bundling p owq.buffer owq.size owq.offset
      st = some (gbGood, st') ∧
      Written p 36 owq st st' := by
  obtain ⟨m, x⟩ := st
  have hroom : owq.size ≤ Scratchpad.room 32 owq.offset := by
    unfold Scratchpad.room
    omega
  generalize hm : m.write p (writeScratchpad :: lowHighAddress owq.offset ++ List.replicate 33 0) =
    m₁
  have hp : m₁.read p 3 = writeScratchpad :: lowHighAddress owq.offset := by
    rw [← hm, read_write_take _ _ (by simp)]
    rfl
  have hdata : m₁.read owq.buffer owq.size = m.read owq.buffer owq.size := by
    rw [← hm]
    exact Mem.read_write_of_apart hapart
  have hlength : (m.read owq.buffer owq.size).length = owq.size := Mem.length_read ..
  have hne : m.read owq.buffer owq.size ≠ [] := List.ne_nil_of_length_pos (by omega)
  have hheader := @Scratchpad.exchange_header 32 { x with sent := [] } _ hoffset rfl
  have hrow :=
    @Scratchpad.exchange_row 32 x.memory x.scratch owq.offset x.ending _ hne
      (by rw [hlength]; exact hroom)
  have hspare : [Trxn.start, .write (some p) 3, .write (some owq.buffer) owq.size].Pairwise
      Trxn.Spares := by
    simp [Trxn.Spares, Trxn.filled, Trxn.sent, Mem.PtrApart]
  obtain ⟨x₁, hcopy, hx₁⟩ : ∃ x₁,
      busTransactionNolock ((Scratchpad.slave 32).routines other) bundling
      (logOf [.start, .write (some p) 3, .write (some owq.buffer) owq.size]) ⟨m₁, x⟩ =
        some (gbGood, ⟨m₁, x₁⟩) ∧
      Loaded 32 x.memory owq.offset (m.read owq.buffer owq.size) x₁ := by
    refine ⟨_, ?_, loaded_write x owq.offset (m.read owq.buffer owq.size)
      (writeScratchpad :: lowHighAddress owq.offset ++ m.read owq.buffer owq.size)⟩
    refine (Slave.busTransactionNolock_eq_good_iff _ other bundling (by simp [Trxn.inBlocks])
      hspare).mpr ?_
    rw [Slave.loop_start, Slave.loop_write _ _ (by rw [hp]; exact congrArg Prod.fst hheader), hp,
      show ((Scratchpad.slave 32).exchange (writeScratchpad :: lowHighAddress owq.offset)
        ((Scratchpad.slave 32).select x)).2 = _ from congrArg Prod.snd hheader,
      Slave.loop_write _ _ (by rw [hdata]; exact congrArg Prod.fst hrow), hdata, hrow,
        Slave.loop_end]
  obtain ⟨st', hrest, hmemory, hframe⟩ := readback_copy_good other bundling (p := p)
    hx₁ hlength hsize hroom hoffset (by omega) hdata
    (by unfold Mem.Apart at hapart ⊢; omega) (.inl ⟨rfl, rfl⟩) 32
  refine ⟨st', ?_, hmemory, fun a ha => ?_⟩
  · rw [owWMem]
    dsimp only
    rw [hm, hcopy]
    exact hrest
  · rw [hframe a (by omega), ← hm]
    exact write_frame (by simpa [lowHighAddress] using ha)

/-- `OW_w_23page` writes a piece of a row. -/
theorem owW23page_writes (family : Byte) {owq : OneWireQuery} (hsize : 0 < owq.size)
    (hoffset : owq.offset < 65536) (hpage : owq.offset % 8 + owq.size ≤ 8)
    (hapart : Mem.Apart p 37 owq.buffer owq.size) (st : St Scratchpad) :
    ∃ st', owW23page ((Scratchpad.slave 32).routines other) bundling p family owq.buffer owq.size
      owq.offset st
        = some (gbGood, st') ∧
      Written p 37 owq st st' := by
  obtain ⟨m, x⟩ := st
  have hroom : owq.size ≤ Scratchpad.room 32 owq.offset := by
    unfold Scratchpad.room
    omega
  have hlength : (m.read owq.buffer owq.size).length = owq.size := Mem.length_read ..
  have hne : m.read owq.buffer owq.size ≠ [] := List.ne_nil_of_length_pos (by omega)
  generalize hd : m.read owq.buffer owq.size = d at hlength hne
  -- the array with the data behind the command and the address
  generalize hm : m.write p (writeScratchpad :: lowHighAddress owq.offset ++ List.replicate 34 0) =
    m₁
  have hdata : m₁.read owq.buffer owq.size = d := by
    rw [← hm, ← hd]
    exact Mem.read_write_of_apart hapart
  generalize hm₂ : m₁.write (p + 3) d = m₂
  have hkeep : m₂.read owq.buffer owq.size = d := by
    rw [← hm₂, ← hdata, Mem.read_write_of_apart]
    rw [Mem.length_read]
    unfold Mem.Apart at hapart ⊢
    omega
  have hp : m₂.read p (3 + owq.size) = writeScratchpad :: lowHighAddress owq.offset ++ d := by
    have hself := Mem.read_write_self m₁ (p + 3) d
    rw [hlength] at hself
    rw [read_add, ← hm₂, hself, read_write_apart _ (.inl (le_refl _)), ← hm,
      read_write_take _ _ (by simp)]
    rfl
  have hframe₂ : ∀ a, a < p ∨ p + 37 ≤ a → m₂ a = m a := by
    intro a ha
    rw [← hm₂, ← hm, write_frame (by omega), write_frame (by simpa [lowHighAddress] using ha)]
  have hwrite := @Scratchpad.exchange_write 32 { x with sent := [] } _ _ hoffset hne
    (by rw [hlength]; exact hroom) rfl
  obtain ⟨m₃, x₃, hcopy, hx₃, hkeep₃, hframe₃⟩ : ∃ m₃ x₃,
      busTransactionNolock ((Scratchpad.slave 32).routines other) bundling
      (logOf (if (owq.offset + owq.size) % 32 ≠ 0 then
          [.start, .write (some p) (3 + owq.size), .nop, .nop]
        else [.start, .write (some p) (3 + owq.size), .read (some (p + (3 + owq.size))) 2,
          .crc16 (some p) (3 + owq.size + 2)])) ⟨m₂, x⟩ = some (gbGood, ⟨m₃, x₃⟩) ∧
      Loaded 32 x.memory owq.offset d x₃ ∧ m₃.read owq.buffer owq.size = d ∧ ∀ a, a < p ∨
        p + 37 ≤ a → m₃ a = m₂ a := by
    have hloaded :=
      @loaded_write 32 x owq.offset d (writeScratchpad :: lowHighAddress owq.offset ++ d)
    split
    · -- the piece does not end its row
      have hspare : [Trxn.start, .write (some p) (3 + owq.size), .nop, .nop].Pairwise
          Trxn.Spares := by
        simp [Trxn.Spares, Trxn.filled, Trxn.sent, Mem.PtrApart]
      refine ⟨m₂, _, ?_, hloaded, hkeep, fun _ _ => rfl⟩
      refine (Slave.busTransactionNolock_eq_good_iff _ other bundling (by simp [Trxn.inBlocks])
        hspare).mpr ?_
      rw [Slave.loop_start, Slave.loop_write _ _ (by rw [hp]; exact congrArg Prod.fst hwrite), hp,
        Slave.loop_nop, Slave.loop_nop, Slave.loop_end]
      exact congrArg (fun r => some (gbGood, (⟨m₂, r.2⟩ : St Scratchpad))) hwrite
    · rename_i hend
      have hfull : d.length = Scratchpad.room 32 owq.offset := by
        unfold Scratchpad.room at hroom ⊢
        omega
      obtain ⟨hcrc, sent, hsent⟩ := @Scratchpad.exchange_checksum 32
        ⟨x.memory, x.scratch.write (owq.offset % 32) d, owq.offset, owq.offset % 32 + d.length - 1,
          writeScratchpad :: lowHighAddress owq.offset ++ d⟩ _ _ d rfl hfull
      generalize hcheck : complementBytes
        (crc16Compute (writeScratchpad :: lowHighAddress owq.offset ++ d) 0) = check at hcrc
      have hlengthCheck : check.length = 2 := by
        rw [← hcheck]
        rfl
      have hspare : [Trxn.start, .write (some p) (3 + owq.size),
          .read (some (p + (3 + owq.size))) 2,
          .crc16 (some p) (3 + owq.size + 2)].Pairwise Trxn.Spares := by
        simp [Trxn.Spares, Trxn.filled, Trxn.sent, Mem.PtrApart]
      have hline : (m₂.write (p + (3 + owq.size)) check).read p (3 + owq.size + 2)
          = writeScratchpad :: lowHighAddress owq.offset ++ d ++ check := by
        have hself := Mem.read_write_self m₂ (p + (3 + owq.size)) check
        rw [hlengthCheck] at hself
        rw [read_add, hself, read_write_apart _ (.inl (le_refl _)), hp]
      refine ⟨m₂.write (p + (3 + owq.size)) check, _, ?_, hloaded.sent sent, ?_, fun a ha =>
        write_frame (by omega)⟩
      · refine (Slave.busTransactionNolock_eq_good_iff _ other bundling (by simp [Trxn.inBlocks])
          hspare).mpr ?_
        rw [Slave.loop_start, Slave.loop_write _ _ (by rw [hp]; exact congrArg Prod.fst hwrite), hp,
          show ((Scratchpad.slave 32).exchange (writeScratchpad :: lowHighAddress owq.offset ++ d)
            ((Scratchpad.slave 32).select x)).2 = _ from congrArg Prod.snd hwrite,
          Slave.loop_read, hcrc, hsent,
          Slave.loop_crc16 _ _ (by rw [hline, ← hcheck]; exact crc16_complementBytes _),
            Slave.loop_end]
      · rw [Mem.read_write_of_apart, hkeep]
        rw [hlengthCheck]
        unfold Mem.Apart at hapart ⊢
        omega
  obtain ⟨st', hrest, hmemory, hframe⟩ :=
    readback_copy_good other bundling (p := p) hx₃ hlength hsize hroom hoffset
    (by omega) hkeep₃ (by unfold Mem.Apart at hapart ⊢; omega) (.inr ⟨rfl, rfl⟩)
      (if family = 0x23 then 5 else 10)
  refine ⟨st', ?_, ?_, fun a ha => ?_⟩
  · rw [owW23page]
    dsimp only
    rw [hm, hdata, hm₂, hcopy]
    exact hrest
  · dsimp only
    rw [hmemory, hd]
  · rw [hframe a (by omega), hframe₃ a ha, hframe₂ a ha]

/-! ## Whole requests -/

theorem write_append (m : Mem) (a : Nat) (d e : Bytes) :
    m.write a (d ++ e) = (m.write a d).write (a + d.length) e := by
  funext b
  simp only [Mem.write, List.length_append]
  by_cases hd : a ≤ b ∧ b < a + d.length
  · rw [if_pos (by omega), if_neg (by omega), if_pos hd, List.getD_append _ _ _ _ (by omega)]
  · by_cases he : a + d.length ≤ b ∧ b < a + d.length + e.length
    · rw [if_pos (by omega), if_pos he, List.getD_append_right _ _ _ _ (by omega), Nat.sub_sub]
    · rw [if_neg (by omega), if_neg he, if_neg hd]

/-- A piece and then the rest. -/
theorem Written.append {owq : OneWireQuery} {n t : Nat} (ht : t ≤ owq.size)
    {st st₁ st₂ : St Scratchpad} (hapart : Mem.Apart p n owq.buffer owq.size)
    (h₁ : Written p n ⟨owq.buffer, t, owq.offset⟩ st st₁)
    (h₂ : Written p n ⟨owq.buffer + t, owq.size - t, owq.offset + t⟩ st₁ st₂) :
    Written p n owq st st₂ := by
  obtain ⟨memory₁, frame₁⟩ := h₁
  obtain ⟨memory₂, frame₂⟩ := h₂
  dsimp only at memory₁ memory₂
  refine ⟨?_, fun a ha => by rw [frame₂ a ha, frame₁ a ha]⟩
  have hkeep : st₁.mem.read (owq.buffer + t) (owq.size - t) =
      st.mem.read (owq.buffer + t) (owq.size - t) := by
    refine Mem.read_congr fun a hlo hhi => frame₁ a ?_
    unfold Mem.Apart at hapart
    omega
  rw [memory₂, memory₁, hkeep, show owq.size = t + (owq.size - t) by omega, read_add, write_append,
    Mem.length_read, Nat.add_sub_cancel_left]

/-- A routine that writes a piece of a page writes a whole request. `P` is what is known of the
offsets. -/
theorem runChunks_writes {pagelen n : Nat} (hp : pagelen ≠ 0) {P : Nat → Prop}
    (hP : ∀ size offset, P offset → thisPage pagelen size offset < size →
      P (offset + thisPage pagelen size offset))
    {call : OneWireQuery → St Scratchpad → Option (Int × St Scratchpad)}
    (hcall : ∀ c : OneWireQuery, P c.offset → 0 < c.size → c.offset < 65536 →
      c.offset % pagelen + c.size ≤ pagelen →
      Mem.Apart p n c.buffer c.size → ∀ st, ∃ st', call c st = some (gbGood, st') ∧
      Written p n c st st')
    (owq : OneWireQuery) (hoffset : P owq.offset) (hrange : owq.offset + owq.size ≤ 65536)
    (hapart : Mem.Apart p n owq.buffer owq.size) (st : St Scratchpad) :
    ∃ st', runChunks call (chunks pagelen owq.buffer owq.size owq.offset) st = some (gbGood, st') ∧
      Written p n owq st st' := by
  obtain ⟨buffer, size, offset⟩ := owq
  dsimp only at hoffset hrange hapart ⊢
  induction size using Nat.strong_induction_on generalizing buffer offset st with
  | _ size ih =>
    rw [chunks]
    by_cases hsize : size = 0
    · rw [if_pos (.inl hsize), hsize]
      exact ⟨st, rfl, (write_nil _ _).symm, fun _ _ => rfl⟩
    · obtain ⟨hpos, hle, hpage⟩ := thisPage_spec hp hsize offset
      obtain ⟨st₁, hcall₁, h₁⟩ :=
        hcall ⟨buffer, thisPage pagelen size offset, offset⟩ hoffset hpos (by dsimp only; omega)
          hpage
        (by unfold Mem.Apart at hapart ⊢; dsimp only; omega) st
      obtain ⟨st₂, hcall₂, h₂⟩ : ∃ st₂,
          runChunks call (chunks pagelen (buffer + thisPage pagelen size offset)
          (size - thisPage pagelen size offset)
            (offset + thisPage pagelen size offset)) st₁ = some (gbGood, st₂) ∧
          Written p n ⟨buffer + thisPage pagelen size offset, size - thisPage pagelen size offset,
            offset + thisPage pagelen size offset⟩ st₁ st₂ := by
        by_cases hlast : thisPage pagelen size offset < size
        · exact ih (size - thisPage pagelen size offset) (by omega) st₁
            (buffer + thisPage pagelen size offset)
            (offset + thisPage pagelen size offset) (hP size offset hoffset hlast) (by omega)
            (by unfold Mem.Apart at hapart ⊢; omega)
        · rw [show size - thisPage pagelen size offset = 0 by omega, chunks, if_pos (.inl rfl)]
          exact ⟨st₁, rfl, (write_nil _ _).symm, fun _ _ => rfl⟩
      refine ⟨st₂, ?_, Written.append hle hapart h₁ h₂⟩
      rw [if_neg (not_or.mpr ⟨hsize, hp⟩), runChunks, hcall₁, Option.bind_some, if_pos rfl, hcall₂]

/-- `FS_w_mem` writes the device. -/
theorem fsWMem1993_writes (owq : OneWireQuery) (hrange : owq.offset + owq.size ≤ 65536)
    (hapart : Mem.Apart p 37 owq.buffer owq.size) (st : St Scratchpad) :
    ∃ st', fsWMem1993 ((Scratchpad.slave 32).routines other) bundling p owq st = some (0, st') ∧
      Written p 37 owq st st' := by
  obtain ⟨st', hrun, hwritten⟩ := @runChunks_writes p 32 36 (by decide) (fun _ => True)
    (fun _ _ _ _ => trivial) _ (fun c _ hsize hoffset hpage hapart st =>
      owWMem_writes other bundling hsize hoffset hpage hapart st)
    owq trivial hrange (by unfold Mem.Apart at hapart ⊢; omega) st
  refine ⟨st', ?_, hwritten.memory_eq, fun a ha => hwritten.frame a (by omega)⟩
  rw [fsWMem1993, commonReadwritePaged, pagedLoop_eq (by decide), Nat.mul_zero, Nat.add_zero, hrun]
  rfl

theorem fsWMem2433_writes (family : Byte) (owq : OneWireQuery)
    (hrange : owq.offset + owq.size ≤ 65536) (hapart : Mem.Apart p 37 owq.buffer owq.size)
    (st : St Scratchpad) :
    ∃ st', fsWMem2433 ((Scratchpad.slave 32).routines other) bundling p family owq st =
      some (0, st') ∧
      Written p 37 owq st st' := by
  obtain ⟨st', hrun, hwritten⟩ := @runChunks_writes p 8 37 (by decide) (fun _ => True)
    (fun _ _ _ _ => trivial) _ (fun c _ hsize hoffset hpage hapart st =>
      owW23page_writes other bundling family hsize hoffset hpage hapart st)
    owq trivial hrange hapart st
  refine ⟨st', ?_, hwritten⟩
  rw [fsWMem2433, commonReadwritePaged, pagedLoop_eq (by decide), Nat.mul_zero, Nat.add_zero, hrun]
  rfl

/-- `COMMON_read_memory_F0` changes nothing in the device. -/
theorem commonReadMemoryF0_good {row : Nat} (pagesize : Nat) (owq : OneWireQuery)
    (hoffset : owq.offset < 65536) (m : Mem) (x : Scratchpad) :
    ∃ sent, commonReadMemoryF0 ((Scratchpad.slave row).routines other) bundling p owq 0 pagesize
      ⟨m, x⟩ = some (gbGood,
        ⟨(m.write p (readF0 :: lowHighAddress owq.offset)).write owq.buffer
        (x.memory.read owq.offset owq.size), { x with sent }⟩) := by
  have hspare : [Trxn.start, .write (some p) 3, .read (some owq.buffer) owq.size].Pairwise
      Trxn.Spares := by
    simp [Trxn.Spares, Trxn.filled, Trxn.sent, Mem.PtrApart]
  obtain ⟨hcommand, hread⟩ := @Scratchpad.exchange_readF0 row { x with sent := [] } rfl _ hoffset
  have hp : (m.write p (readF0 :: lowHighAddress owq.offset)).read p 3 = readF0 ::
      lowHighAddress owq.offset :=
    Mem.read_write_self m p (readF0 :: lowHighAddress owq.offset)
  refine ⟨readF0 :: lowHighAddress owq.offset ++ List.replicate owq.size 0xFF, ?_⟩
  rw [commonReadMemoryF0, Nat.zero_mul, Nat.add_zero]
  refine (Slave.busTransactionNolock_eq_good_iff _ other bundling (by simp [Trxn.inBlocks])
    hspare).mpr ?_
  rw [Slave.loop_start, Slave.loop_write _ _ (by rw [hp]; exact congrArg Prod.fst hcommand), hp,
    show ((Scratchpad.slave row).exchange (readF0 :: lowHighAddress owq.offset)
      ((Scratchpad.slave row).select
        x)).2 = _ from congrArg Prod.snd hcommand, Slave.loop_read, hread, Slave.loop_end]

/-- `FS_r_mem` reads the device. -/
theorem fsRMem_reads {row : Nat} (pagesize : Nat) (owq : OneWireQuery)
    (hoffset : owq.offset < 65536) (st : St Scratchpad) :
    ∃ st', fsRMem ((Scratchpad.slave row).routines other) bundling p pagesize owq st =
      some (0, st') ∧
      st'.bus.memory = st.bus.memory ∧
      st'.mem.read owq.buffer owq.size = st.bus.memory.read owq.offset owq.size := by
  obtain ⟨m, x⟩ := st
  obtain ⟨sent, hgood⟩ := @commonReadMemoryF0_good other bundling p row pagesize owq hoffset m x
  have hself := Mem.read_write_self (m.write p (readF0 :: lowHighAddress owq.offset)) owq.buffer
    (x.memory.read owq.offset owq.size)
  rw [Mem.length_read] at hself
  unfold fsRMem
  rw [hgood]
  exact ⟨_, rfl, rfl, hself⟩

end

/-! ## Runs -/

/-- What a program does with the memory of a device. -/
inductive Request where
  | read (offset size : Nat)
  | write (offset : Nat) (data : Bytes)

namespace Request

def offset : Request → Nat
  | read offset _ => offset
  | write offset _ => offset

def size : Request → Nat
  | read _ size => size
  | write _ data => data.length

/-- What an array of bytes answers. -/
def onArray : Request → Mem → Bytes × Mem
  | read offset size, a => (a.read offset size, a)
  | write offset data, a => ([], a.write offset data)

/-- All requests, one after another. -/
def allOnArray : List Request → Mem → List Bytes × Mem
  | [], a => ([], a)
  | r :: rs, a => ((r.onArray a).1 :: (allOnArray rs (r.onArray a).2).1,
      (allOnArray rs (r.onArray a).2).2)

end Request

/-- The two functions of the file system for a memory. -/
structure Driver (σ : Type) where
  r : OneWireQuery → St σ → Option (Int × St σ)
  w : OneWireQuery → St σ → Option (Int × St σ)

/-- The functions for the DS1993 and its relatives, and for the DS2433 and the DS28EC20. -/
inductive Driver.Modelled {σ : Type} (bus : BusRoutines σ) (bundling : Option Nat) (p : Nat) :
    Driver σ → Prop where
  | ds1993 : Modelled bus bundling p ⟨fsRMem bus bundling p 0, fsWMem1993 bus bundling p⟩
  | ds2433 (family : Byte) : Modelled bus bundling p
      ⟨fsRMem bus bundling p 32, fsWMem2433 bus bundling p family⟩

/-- A request with its data in the buffer at `q`, and what the program sees of it. -/
def Driver.serve {σ : Type} (driver : Driver σ) (q : Nat) :
    Request → St σ → Option ((Int × Bytes) × St σ)
  | .read offset size, st => (driver.r ⟨q, size, offset⟩ st).map fun r =>
      ((r.1, r.2.mem.read q size), r.2)
  | .write offset data, st =>
      (driver.w ⟨q, data.length, offset⟩ ⟨st.mem.write q data, st.bus⟩).map fun r =>
      ((r.1, []), r.2)

def Driver.serveAll {σ : Type} (driver : Driver σ) (q : Nat) :
    List Request → St σ → Option (List (Int × Bytes) × St σ)
  | [], st => some ([], st)
  | r :: rs, st => (driver.serve q r st).bind fun a => (driver.serveAll q rs a.2).map fun b =>
      (a.1 :: b.1, b.2)

section

variable (other : BusRoutines Scratchpad) (bundling : Option Nat) {p q : Nat}

/-- One request. -/
theorem Driver.Modelled.serve_eq {driver : Driver Scratchpad}
    (hdriver : driver.Modelled ((Scratchpad.slave 32).routines other) bundling p) {r : Request}
    (hrange : r.offset + r.size ≤ 65536) (hoffset : r.offset < 65536)
    (hapart : Mem.Apart p 37 q r.size) (st : St Scratchpad) :
    ∃ st', driver.serve q r st = some ((0, (r.onArray st.bus.memory).1), st') ∧
      st'.bus.memory = (r.onArray st.bus.memory).2 := by
  cases r with
  | read offset size =>
    obtain ⟨st', hrun, hmemory, hread⟩ : ∃ st', driver.r ⟨q, size, offset⟩ st = some (0, st') ∧
        st'.bus.memory = st.bus.memory ∧ st'.mem.read q size = st.bus.memory.read offset size := by
      cases hdriver with
      | ds1993 => exact fsRMem_reads other bundling 0 ⟨q, size, offset⟩ hoffset st
      | ds2433 family => exact fsRMem_reads other bundling 32 ⟨q, size, offset⟩ hoffset st
    refine ⟨st', ?_, hmemory⟩
    rw [Driver.serve, hrun, Option.map_some, hread]
    rfl
  | write offset data =>
    obtain ⟨st', hrun, hwritten⟩ : ∃ st',
        driver.w ⟨q, data.length, offset⟩ ⟨st.mem.write q data, st.bus⟩ = some (0, st') ∧
        Written p 37 ⟨q, data.length, offset⟩ ⟨st.mem.write q data, st.bus⟩ st' := by
      cases hdriver with
      | ds1993 => exact fsWMem1993_writes other bundling ⟨q, data.length, offset⟩ hrange hapart _
      | ds2433 family =>
        exact fsWMem2433_writes other bundling family ⟨q, data.length, offset⟩ hrange hapart _
    refine ⟨st', ?_, ?_⟩
    · rw [Driver.serve, hrun]
      rfl
    · rw [hwritten.memory_eq, Mem.read_write_self]
      rfl

/-- **Memories.** Any sequence of reads and writes through the functions of the file system, with
transactions bundled or not, is answered by an error-free device as an array of bytes answers it. -/
theorem memory_refines_array {driver : Driver Scratchpad}
    (hdriver : driver.Modelled ((Scratchpad.slave 32).routines other) bundling p)
    {rs : List Request} (hrange : ∀ r ∈ rs, r.offset < 65536 ∧ r.offset + r.size ≤ 65536 ∧
      Mem.Apart p 37 q r.size) (st : St Scratchpad) :
    ∃ st', driver.serveAll q rs st =
      some ((Request.allOnArray rs st.bus.memory).1.map (fun d => (0, d)), st') ∧
      st'.bus.memory = (Request.allOnArray rs st.bus.memory).2 := by
  induction rs generalizing st with
  | nil => exact ⟨st, rfl, rfl⟩
  | cons r rs ih =>
    obtain ⟨hr, hrs⟩ := List.forall_mem_cons.mp hrange
    obtain ⟨st₁, hserve, hmemory⟩ := hdriver.serve_eq other bundling hr.2.1 hr.1 hr.2.2 st
    obtain ⟨st₂, hrest, hmemory₂⟩ := ih hrs st₁
    rw [hmemory] at hrest hmemory₂
    refine ⟨st₂, ?_, hmemory₂⟩
    rw [Driver.serveAll, hserve, Option.bind_some, hrest]
    rfl

/-- A write over the end of a row of the scratchpad, and a read. -/
theorem memory_refines_array_twoRows :
    ∃ st', Driver.serveAll
        ⟨fsRMem ((Scratchpad.slave 32).routines (failingRoutines _)) (some 20) 0 0,
          fsWMem1993 ((Scratchpad.slave 32).routines (failingRoutines _)) (some 20) 0⟩ 100
        [.write 30 [1, 2, 3, 4], .read 29 4] ⟨fun _ => 0, ⟨fun _ => 7, fun _ => 0, 0, 0, []⟩⟩
      = some ([(0, []), (0, [7, 1, 2, 3])], st') := by
  obtain ⟨st', hrun, -⟩ := @memory_refines_array (failingRoutines _) (some 20) 0 100 _ .ds1993
    [.write 30 [1, 2, 3, 4], .read 29 4]
    (by simp [Request.offset, Request.size, Mem.Apart])
      ⟨fun _ => 0, ⟨fun _ => 7, fun _ => 0, 0, 0, []⟩⟩
  exact ⟨st', hrun⟩

end

end Owfs.Eeprom
