import Owfs.Eeprom.Write

/-!
# Writing the DS2431

The DS2431 (`ow_2433.c`) writes only whole rows of eight bytes. `OW_w_2Dpage` reads the row first
when it is given less, and puts its bytes where they belong. But then it compares them with the
start of the row that it reads back, wherever they are in it.

So a write that starts in the middle of a row is refused, unless the row happens to begin with the
same bytes.
-/

namespace Owfs.Eeprom

open Infra Owfs.Device Owfs.Transaction

section

variable {σ : Type} (bus : BusRoutines σ) (bundling : Option Nat) (p : Nat)

/-- `OW_w_2Dpage`, with its array at `p` and the one of `COMMON_read_memory_F0` behind it. What is
read back is compared from the start of the row on. -/
def owW2Dpage (data size offset : Nat) (st : St σ) : Option (Int × St σ) :=
  let pageoff := offset % 8
  let array :=
    st.mem.write p (writeScratchpad :: lowHighAddress (offset - pageoff) ++ List.replicate 11 0)
  returnBadIfBad id
    (if size = 8 then some (gbGood, ⟨array, st.bus⟩)
      else commonReadMemoryF0 bus bundling (p + 14) ⟨p + 3, 8, offset - pageoff⟩ 0 0
        ⟨array, st.bus⟩) fun st =>
  returnBadIfBad id
    (busTransactionNolock bus bundling (logOf [.start, .write (some p) (3 + 8)])
      ⟨st.mem.write (p + 3 + pageoff) (st.mem.read data size), st.bus⟩) fun st =>
  returnBadIfBad id
    (busTransactionNolock bus bundling
      (logOf [.start, .write (some p) 1, .read (some (p + 1)) (3 + 8 + 2),
        .crc16 (some p) (1 + (3 + 8) + 2), .compare (some (p + 4)) (some data) size])
      ⟨st.mem.write p [readScratchpad], st.bus⟩) fun st =>
  busTransactionNolock bus bundling (logOf [.start, .write (some p) 4, .delay 13])
    ⟨st.mem.write p [copyScratchpad], st.bus⟩

/-- `FS_w_mem` of `ow_2433.c`, for the DS2431 -/
def fsWMem2431 (owq : OneWireQuery) (st : St σ) : Option (Int × St σ) :=
  (commonReadwritePaged (owW2Dpage bus bundling p) owq 0 8 st).map gbToZOrE

end

/-! ## A piece of a request -/

/-- The row of an address after the bytes were written, from its start on, begins with the bytes. -/
def Repeats (memory : Mem) (offset : Nat) (d : Bytes) : Prop :=
  (memory.write offset d).read (offset - offset % 8) d.length = d

instance (memory : Mem) (offset : Nat) (d : Bytes) : Decidable (Repeats memory offset d) :=
  inferInstanceAs (Decidable (_ = _))

theorem repeats_of_aligned (memory : Mem) {offset : Nat} (h : offset % 8 = 0) (d : Bytes) :
    Repeats memory offset d := by
  rw [Repeats, h, Nat.sub_zero, Mem.read_write_self]

theorem write_read_apply (m m' : Mem) (a b : Nat) {n i : Nat} (h : i < n) :
    m.write a (m'.read b n) (a + i) = m' (b + i) := by
  rw [Mem.write, Mem.length_read, if_pos (by omega), Nat.add_sub_cancel_left]
  simp [Mem.read, h]

/-- Writing the row is writing the bytes in it. -/
theorem write_row (memory : Mem) {offset : Nat} {d : Bytes} (h : offset % 8 + d.length ≤ 8) :
    memory.write (offset - offset % 8) ((memory.write offset d).read (offset - offset % 8) 8) =
      memory.write offset d := by
  have hle : offset % 8 ≤ offset := Nat.mod_le ..
  funext a
  by_cases ha : offset - offset % 8 ≤ a ∧ a < offset - offset % 8 + 8
  · obtain ⟨i, rfl⟩ := Nat.exists_eq_add_of_le ha.1
    exact write_read_apply _ _ _ _ (by omega)
  · rw [write_frame (by rw [Mem.length_read]; omega), write_frame (by omega)]

section

variable (other : BusRoutines Scratchpad) (bundling : Option Nat) {memory m : Mem} {x : Scratchpad}
  {p data size offset : Nat} {d row : Bytes}

/-- What the scratchpad of a whole row answers, with the checksum. -/
theorem report_row (hx : Loaded 8 memory offset row x) (hrow : row.length = 8)
    (hoffset : offset % 8 = 0) : x.report 8 = status 8 offset 8 ++ row
      ++ complementBytes (crc16Compute (readScratchpad :: (status 8 offset 8 ++ row)) 0) := by
  have hscratch := hx.scratch_eq
  rw [hrow] at hscratch
  rw [Scratchpad.report]
  simp only [hx.target_eq, hx.ending_eq, Scratchpad.room, hoffset, hrow, Nat.sub_zero,
    status] at hscratch ⊢
  rw [hscratch]

/-- The row in the scratchpad is read back with its checksum, and its first bytes are compared. -/
theorem tread_eq (hx : Loaded 8 memory offset row x) (hrow : row.length = 8)
    (hoffset : offset % 8 = 0) (hp : m.read p 1 = [readScratchpad]) (hdata : m.read data size = d)
    (hsize : size ≤ 8) (hapart : Mem.Apart p 14 data size) :
    ∃ check : Bytes, check.length = 2 ∧ ∃ x', Loaded 8 memory offset row x' ∧
      busTransactionNolock ((Scratchpad.slave 8).routines other) bundling
          (logOf [.start, .write (some p) 1, .read (some (p + 1)) (3 + 8 + 2),
            .crc16 (some p) (1 + (3 + 8) + 2), .compare (some (p + 4)) (some data) size]) ⟨m, x⟩
        = some (if row.take size = d then gbGood else gbBad,
          ⟨m.write (p + 1) (status 8 offset 8 ++ row ++ check), x'⟩) := by
  have hreport := report_row hx hrow hoffset
  generalize hcheck : complementBytes
    (crc16Compute (readScratchpad :: (status 8 offset 8 ++ row)) 0) = check at hreport
  have hlengthCheck : check.length = 2 := by
    rw [← hcheck]
    rfl
  have hlength : (status 8 offset 8 ++ row ++ check).length = 3 + 8 + 2 := by
    rw [List.length_append, List.length_append, length_status, hrow, hlengthCheck]
  refine ⟨check, hlengthCheck, { x with sent := readScratchpad :: List.replicate (3 + 8 + 2) 0xFF },
    hx.sent _, ?_⟩
  have hcommand := @Scratchpad.exchange_readCommand 8 { x with sent := [] } rfl
  have hread := @Scratchpad.exchange_readScratchpad 8 { x with sent := [readScratchpad] } rfl
    (n := 3 + 8 + 2) (by
      show _ ≤ (x.report 8).length
      rw [hreport, hlength])
  have hsame : ({ x with sent := [readScratchpad] } : Scratchpad).report 8 = x.report 8 := rfl
  rw [hsame, hreport, List.take_of_length_le (le_of_eq hlength)] at hread
  have harray : (m.write (p + 1) (status 8 offset 8 ++ row ++ check)).read p (1 + (3 + 8) + 2)
      = readScratchpad :: (status 8 offset 8 ++ row) ++ check := by
    have hself := Mem.read_write_self m (p + 1) (status 8 offset 8 ++ row ++ check)
    rw [hlength] at hself
    rw [show 1 + (3 + 8) + 2 = 1 + (3 + 8 + 2) from rfl, read_add, hself,
      read_write_apart _ (.inl (le_refl _)), hp]
    rfl
  have hback : (m.write (p + 1) (status 8 offset 8 ++ row ++ check)).read (p + 4) size =
      row.take size := by
    have hdrop :=
      read_write_drop m (p + 1) (k := 3) (n := size) (d := status 8 offset 8 ++ row ++ check)
        (by omega)
    rw [List.append_assoc, List.drop_left' (length_status ..),
      List.take_append_of_le_length (by omega)] at hdrop
    rw [List.append_assoc]
    exact hdrop
  have hkeep : (m.write (p + 1) (status 8 offset 8 ++ row ++ check)).read data size = d := by
    rw [Mem.read_write_of_apart, hdata]
    rw [hlength]
    unfold Mem.Apart at hapart ⊢
    omega
  have hspare : [Trxn.start, .write (some p) 1, .read (some (p + 1)) (3 + 8 + 2),
      .crc16 (some p) (1 + (3 + 8) + 2)].Pairwise Trxn.Spares := by
    simp [Trxn.Spares, Trxn.filled, Trxn.sent, Mem.PtrApart]
  have hkind : ∀ t ∈ [Trxn.start, .write (some p) 1, .read (some (p + 1)) (3 + 8 + 2),
      .crc16 (some p) (1 + (3 + 8) + 2)], t.inBlocks := by
    simp [Trxn.inBlocks]
  -- good up to the comparison, which decides
  have hgood : busTransactionNolock ((Scratchpad.slave 8).routines other) bundling
      (logOf [.start, .write (some p) 1, .read (some (p + 1)) (3 + 8 + 2),
        .crc16 (some p) (1 + (3 + 8) + 2)]) ⟨m, x⟩
      = some (gbGood, ⟨m.write (p + 1) (status 8 offset 8 ++ row ++ check),
        { x with sent := readScratchpad :: List.replicate (3 + 8 + 2) 0xFF }⟩) := by
    refine (Slave.busTransactionNolock_eq_good_iff _ other bundling hkind hspare).mpr ?_
    rw [Slave.loop_start, Slave.loop_write _ _ (by rw [hp]; exact congrArg Prod.fst hcommand), hp,
      show ((Scratchpad.slave 8).exchange [readScratchpad]
        ((Scratchpad.slave 8).select x)).2 = _ from congrArg Prod.snd hcommand,
      Slave.loop_read, hread,
        Slave.loop_crc16 _ _ (by rw [harray, ← hcheck]; exact crc16_complementBytes _),
      Slave.loop_end]
  refine (busTransactionNolock_compare bundling hkind hgood).trans ?_
  dsimp only
  rw [hback, hkeep]
  by_cases hrow' : row.take size = d
  · rw [if_pos hrow', hrow', beq_self_eq_true]
    rfl
  · rw [if_neg hrow', beq_eq_false_iff_ne.mpr (Ne.symm hrow')]
    rfl

/-- The array before the bytes are put into it. -/
theorem tread_old_good {owq : OneWireQuery} (hoffset : owq.offset < 65536)
    (hapart : Mem.Apart p 17 owq.buffer owq.size) (m : Mem) (x : Scratchpad) :
    ∃ (m₁ : Mem) (sent : Bytes),
      (if owq.size = 8 then
          some (gbGood, (⟨m.write p (writeScratchpad ::
            lowHighAddress (owq.offset - owq.offset % 8) ++
              List.replicate 11 0), x⟩ : St Scratchpad))
        else commonReadMemoryF0 ((Scratchpad.slave 8).routines other) bundling (p + 14)
          ⟨p + 3, 8, owq.offset - owq.offset % 8⟩ 0 0
          ⟨m.write p (writeScratchpad :: lowHighAddress (owq.offset - owq.offset % 8) ++
            List.replicate 11 0), x⟩)
        = some (gbGood, ⟨m₁, if owq.size = 8 then x else { x with sent }⟩) ∧
      m₁.read p 3 = writeScratchpad :: lowHighAddress (owq.offset - owq.offset % 8) ∧
      (owq.size ≠ 8 → ∀ i < 8, m₁ (p + 3 + i) = x.memory (owq.offset - owq.offset % 8 + i)) ∧
      m₁.read owq.buffer owq.size = m.read owq.buffer owq.size ∧ ∀ a, a < p ∨ p + 17 ≤ a →
      m₁ a = m a := by
  generalize hbase : owq.offset - owq.offset % 8 = base
  have hlength : (writeScratchpad :: lowHighAddress base ++ List.replicate 11 0).length = 14 := by
    simp [lowHighAddress]
  have hapart₁ : Mem.Apart p 14 owq.buffer owq.size := by
    unfold Mem.Apart at hapart ⊢
    omega
  by_cases hsize : owq.size = 8
  · refine ⟨m.write p (writeScratchpad :: lowHighAddress base ++ List.replicate 11 0), [],
      by rw [if_pos hsize, if_pos hsize], ?_, fun h => absurd hsize h,
      Mem.read_write_of_apart (by rwa [hlength]), fun a ha => write_frame (by omega)⟩
    rw [read_write_take _ _ (by omega)]
    rfl
  · obtain ⟨sent, hgood⟩ := @commonReadMemoryF0_good other bundling (p + 14) 8 0
      ⟨p + 3, 8, base⟩ (by dsimp only; omega)
        (m.write p (writeScratchpad :: lowHighAddress base ++ List.replicate 11 0)) x
    dsimp only at hgood
    refine ⟨_, sent, by rw [if_neg hsize, if_neg hsize]; exact hgood, ?_, fun _ i hi =>
      write_read_apply _ _ _ _ hi, ?_, fun a ha => ?_⟩
    · rw [read_write_apart _ (.inl (by omega)), read_write_apart _ (.inl (by omega)),
        read_write_take _ _ (by omega)]
      rfl
    · rw [Mem.read_write_of_apart (by rw [Mem.length_read]; unfold Mem.Apart at hapart ⊢; omega),
        Mem.read_write_of_apart (by
          simp only [lowHighAddress, List.length_cons, List.length_nil]
          unfold Mem.Apart at hapart ⊢
          omega),
        Mem.read_write_of_apart (by rwa [hlength])]
    · rw [write_frame (by rw [Mem.length_read]; omega),
        write_frame (by simp only [lowHighAddress, List.length_cons, List.length_nil]; omega),
        write_frame (by omega)]

/-- The array holds the whole row, and so does the scratchpad. -/
theorem tcopy_good {owq : OneWireQuery} (hoffset : owq.offset < 65536)
    (hpage : owq.offset % 8 + owq.size ≤ 8) (hapart : Mem.Apart p 17 owq.buffer owq.size) (m : Mem)
    (x : Scratchpad) :
    ∃ (m₂ : Mem) (x₂ : Scratchpad), Loaded 8 x.memory (owq.offset - owq.offset % 8)
        ((x.memory.write owq.offset (m.read owq.buffer owq.size)).read (owq.offset - owq.offset % 8)
          8) x₂ ∧
      m₂.read owq.buffer owq.size = m.read owq.buffer owq.size ∧
        (∀ a, a < p ∨ p + 17 ≤ a → m₂ a = m a) ∧
      owW2Dpage ((Scratchpad.slave 8).routines other) bundling p owq.buffer owq.size owq.offset
        ⟨m, x⟩ =
        (returnBadIfBad id
            (busTransactionNolock ((Scratchpad.slave 8).routines other) bundling
              (logOf [.start, .write (some p) 1, .read (some (p + 1)) (3 + 8 + 2),
                .crc16 (some p) (1 + (3 + 8) + 2),
                .compare (some (p + 4)) (some owq.buffer) owq.size])
              ⟨m₂.write p [readScratchpad], x₂⟩) fun st =>
          busTransactionNolock ((Scratchpad.slave 8).routines other) bundling
            (logOf [.start, .write (some p) 4, .delay 13])
            ⟨st.mem.write p [copyScratchpad], st.bus⟩) := by
  obtain ⟨m₁, sent, hfirst, hheader, hold, hdata, hframe⟩ :=
    tread_old_good other bundling (p := p) hoffset hapart m x
  generalize hx : (if owq.size = 8 then x else { x with sent }) = x₁ at hfirst
  have hmemory : x₁.memory = x.memory := by
    rw [← hx]
    split <;> rfl
  have hle : owq.offset % 8 ≤ owq.offset := Nat.mod_le ..
  generalize hd : m.read owq.buffer owq.size = d at hdata
  have hlength : d.length = owq.size := by rw [← hd, Mem.length_read]
  generalize hrow : (x.memory.write owq.offset d).read (owq.offset - owq.offset % 8) 8 = row
  have hlengthRow : row.length = 8 := by rw [← hrow, Mem.length_read]
  -- byte by byte: from the data, or from the row that was read
  have hread : (m₁.write (p + 3 + owq.offset % 8) d).read (p + 3) 8 = row := by
    rw [← hrow]
    refine List.map_congr_left fun i hi => ?_
    have hi8 := List.mem_range.mp hi
    simp only [Mem.write]
    by_cases hin : owq.offset % 8 ≤ i ∧ i < owq.offset % 8 + d.length
    · rw [if_pos (by omega), if_pos (by omega)]
      congr 1
      omega
    · rw [if_neg (by omega), if_neg (by omega)]
      exact hold (by omega) i hi8
  have harray : (m₁.write (p + 3 + owq.offset % 8) d).read p (3 + 8)
      = writeScratchpad :: lowHighAddress (owq.offset - owq.offset % 8) ++ row := by
    rw [read_add, hread, read_write_apart _ (.inl (by omega)), hheader]
  have hwrite := @Scratchpad.exchange_write 8 { x₁ with sent := [] }
    (owq.offset - owq.offset % 8) row (by omega) (List.ne_nil_of_length_pos (by omega))
    (by unfold Scratchpad.room; omega) rfl
  have hspare : [Trxn.start, .write (some p) (3 + 8)].Pairwise Trxn.Spares := by
    simp [Trxn.Spares, Trxn.filled, Trxn.sent, Mem.PtrApart]
  have hloaded := @loaded_write 8 x₁ (owq.offset - owq.offset % 8) row
    (writeScratchpad :: lowHighAddress (owq.offset - owq.offset % 8) ++ row)
  rw [hmemory] at hloaded
  refine ⟨m₁.write (p + 3 + owq.offset % 8) d, _, hloaded, ?_, fun a ha => ?_, ?_⟩
  · rw [Mem.read_write_of_apart, hdata]
    rw [hlength]
    unfold Mem.Apart at hapart ⊢
    omega
  · rw [write_frame (by omega), hframe a ha]
  · have hcopy : busTransactionNolock ((Scratchpad.slave 8).routines other) bundling
        (logOf [.start, .write (some p) (3 + 8)]) ⟨m₁.write (p + 3 + owq.offset % 8) d, x₁⟩ =
          some (gbGood, ⟨m₁.write (p + 3 + owq.offset % 8) d,
            ⟨x₁.memory, x₁.scratch.write ((owq.offset - owq.offset % 8) % 8) row,
            owq.offset - owq.offset % 8, (owq.offset - owq.offset % 8) % 8 + row.length - 1,
            writeScratchpad :: lowHighAddress (owq.offset - owq.offset % 8) ++ row⟩⟩) := by
      refine (Slave.busTransactionNolock_eq_good_iff _ other bundling (by simp [Trxn.inBlocks])
        hspare).mpr ?_
      rw [Slave.loop_start, Slave.loop_write _ _ (by rw [harray]; exact congrArg Prod.fst hwrite),
        harray, Slave.loop_end]
      exact congrArg (fun r =>
        some (gbGood, (⟨m₁.write (p + 3 + owq.offset % 8) d, r.2⟩ : St Scratchpad))) hwrite
    rw [owW2Dpage]
    dsimp only
    rw [hfirst]
    unfold returnBadIfBad
    simp only [Option.bind_some, if_true]
    rw [hdata, hcopy, ← hmemory]
    rfl

/-- A piece is written if the row repeats it. -/
theorem owW2Dpage_writes {owq : OneWireQuery} (hoffset : owq.offset < 65536)
    (hpage : owq.offset % 8 + owq.size ≤ 8) (hapart : Mem.Apart p 17 owq.buffer owq.size)
    (st : St Scratchpad)
    (hrepeats : Repeats st.bus.memory owq.offset (st.mem.read owq.buffer owq.size)) :
    ∃ st', owW2Dpage ((Scratchpad.slave 8).routines other) bundling p owq.buffer owq.size owq.offset
      st = some (gbGood, st') ∧
      Written p 17 owq st st' := by
  obtain ⟨m, x⟩ := st
  dsimp only at hrepeats
  obtain ⟨m₂, x₂, hx₂, hdata, hframe, hcall⟩ :=
    tcopy_good other bundling (p := p) hoffset hpage hapart m x
  generalize hd : m.read owq.buffer owq.size = d at hdata hrepeats hx₂
  have hlength : d.length = owq.size := by rw [← hd, Mem.length_read]
  have hle : owq.offset % 8 ≤ owq.offset := Nat.mod_le ..
  generalize hrow : (x.memory.write owq.offset d).read (owq.offset - owq.offset % 8) 8 = row at hx₂
  have hlengthRow : row.length = 8 := by rw [← hrow, Mem.length_read]
  have htake : row.take owq.size = d := by
    rw [← hrow, take_read _ _ (by omega), ← hlength]
    exact hrepeats
  obtain ⟨check, hcheck, x₃, hx₃, hread⟩ :=
    @tread_eq other bundling _ (m₂.write p [readScratchpad]) _ p owq.buffer
    owq.size _ d _ hx₂ hlengthRow (by omega) (Mem.read_write_self m₂ p [readScratchpad])
    ((Mem.read_write_of_apart (by
      simp only [List.length_singleton]
      unfold Mem.Apart at hapart ⊢
      omega)).trans hdata)
    (by omega) (by unfold Mem.Apart at hapart ⊢; omega)
  rw [if_pos htake] at hread
  have hstatus : (status 8 (owq.offset - owq.offset % 8) 8 ++ row ++ check).length = 13 := by
    rw [List.length_append, List.length_append, length_status, hlengthRow, hcheck]
  have hcommand : (((m₂.write p [readScratchpad]).write (p + 1)
      (status 8 (owq.offset - owq.offset % 8) 8 ++ row ++ check)).write p [copyScratchpad]).read p 4
      = copyScratchpad :: status 8 (owq.offset - owq.offset % 8) row.length := by
    rw [show 4 = 1 + 3 from rfl, read_add, read_write_take _ p (by simp),
      read_write_apart _ (.inr (by simp)), read_write_take _ _ (by omega), List.append_assoc,
      List.take_left' (length_status ..), hlengthRow]
    rfl
  obtain ⟨x₄, hcopy, hmemory⟩ :=
    copy_good other bundling hx₃ (List.ne_nil_of_length_pos (by omega)) (by omega) (by omega)
    hcommand 13
  refine ⟨⟨((m₂.write p [readScratchpad]).write (p + 1)
    (status 8 (owq.offset - owq.offset % 8) 8 ++ row ++
      check)).write p [copyScratchpad], x₄⟩, hcall.trans ?_, ?_, fun a ha => ?_⟩
  · rw [hread]
    exact hcopy
  · dsimp only
    rw [hmemory, ← hrow, hd, write_row _ (by omega)]
  · dsimp only
    rw [write_frame (by simp; omega), write_frame (by omega), write_frame (by simp; omega),
      hframe a ha]

/-- A piece is refused otherwise, and nothing is written. -/
theorem owW2Dpage_refuses {owq : OneWireQuery} (hoffset : owq.offset < 65536)
    (hpage : owq.offset % 8 + owq.size ≤ 8) (hapart : Mem.Apart p 17 owq.buffer owq.size)
    (st : St Scratchpad)
    (hrepeats : ¬ Repeats st.bus.memory owq.offset (st.mem.read owq.buffer owq.size)) :
    ∃ st', owW2Dpage ((Scratchpad.slave 8).routines other) bundling p owq.buffer owq.size owq.offset
      st = some (gbBad, st') ∧
      st'.bus.memory = st.bus.memory := by
  obtain ⟨m, x⟩ := st
  dsimp only at hrepeats
  obtain ⟨m₂, x₂, hx₂, hdata, -, hcall⟩ :=
    tcopy_good other bundling (p := p) hoffset hpage hapart m x
  generalize hd : m.read owq.buffer owq.size = d at hdata hrepeats hx₂
  have hlength : d.length = owq.size := by rw [← hd, Mem.length_read]
  have hle : owq.offset % 8 ≤ owq.offset := Nat.mod_le ..
  generalize hrow : (x.memory.write owq.offset d).read (owq.offset - owq.offset % 8) 8 = row at hx₂
  have htake : row.take owq.size ≠ d := by
    rw [← hrow, take_read _ _ (by omega), ← hlength]
    exact hrepeats
  obtain ⟨check, -, x₃, hx₃, hread⟩ :=
    @tread_eq other bundling _ (m₂.write p [readScratchpad]) _ p owq.buffer
    owq.size _ d _ hx₂ (by rw [← hrow, Mem.length_read]) (by omega)
      (Mem.read_write_self m₂ p [readScratchpad])
    ((Mem.read_write_of_apart (by
      simp only [List.length_singleton]
      unfold Mem.Apart at hapart ⊢
      omega)).trans hdata)
    (by omega) (by unfold Mem.Apart at hapart ⊢; omega)
  rw [if_neg htake] at hread
  refine ⟨⟨(m₂.write p [readScratchpad]).write (p + 1)
    (status 8 (owq.offset - owq.offset % 8) 8 ++ row ++ check), x₃⟩, hcall.trans ?_, hx₃.memory_eq⟩
  rw [hread]
  rfl

/-! ## Whole requests -/

/-- Pieces that begin with their rows are all written. -/
theorem rows_write {owq : OneWireQuery} (haligned : owq.size ≠ 0 → owq.offset % 8 = 0)
    (hrange : owq.offset + owq.size ≤ 65536) (hapart : Mem.Apart p 17 owq.buffer owq.size)
    (st : St Scratchpad) :
    ∃ st', runChunks (fun c =>
        owW2Dpage ((Scratchpad.slave 8).routines other) bundling p c.buffer c.size c.offset)
          (chunks 8 owq.buffer owq.size owq.offset) st = some (gbGood, st') ∧
      Written p 17 owq st st' := by
  by_cases hsize : owq.size = 0
  · rw [hsize, chunks, if_pos (.inl rfl)]
    refine ⟨st, rfl, ?_, fun _ _ => rfl⟩
    rw [hsize, Mem.read_zero, write_nil]
  · refine @runChunks_writes p 8 17 (by decide) (fun offset => offset % 8 = 0) ?_ _ ?_ owq
      (haligned hsize) hrange hapart st
    · intro size offset haligned hlt
      unfold thisPage at hlt ⊢
      split at hlt <;> split <;> omega
    · intro c haligned hcsize hcoffset hcpage hcapart st
      exact owW2Dpage_writes other bundling hcoffset hcpage hcapart st
        (repeats_of_aligned _ haligned _)

/-- `FS_w_mem` decides with the first piece. -/
theorem fsWMem2431_eq (owq : OneWireQuery) (hrange : owq.offset + owq.size ≤ 65536)
    (hapart : Mem.Apart p 17 owq.buffer owq.size) (st : St Scratchpad) :
    let first := st.mem.read owq.buffer (thisPage 8 owq.size owq.offset)
    (Repeats st.bus.memory owq.offset first →
      ∃ st', fsWMem2431 ((Scratchpad.slave 8).routines other) bundling p owq st = some (0, st') ∧
      Written p 17 owq st st') ∧
    (¬ Repeats st.bus.memory owq.offset first →
      ∃ st', fsWMem2431 ((Scratchpad.slave 8).routines other) bundling p owq st = some (-22, st') ∧
        st'.bus.memory = st.bus.memory) := by
  intro first
  have hloop : fsWMem2431 ((Scratchpad.slave 8).routines other) bundling p owq st
      = (runChunks (fun c =>
        owW2Dpage ((Scratchpad.slave 8).routines other) bundling p c.buffer c.size c.offset)
          (chunks 8 owq.buffer owq.size owq.offset) st).map gbToZOrE := by
    rw [fsWMem2431, commonReadwritePaged, pagedLoop_eq (by decide), Nat.mul_zero, Nat.add_zero]
  by_cases hsize : owq.size = 0
  · have hchunks : chunks 8 owq.buffer owq.size owq.offset = [] := by
      rw [chunks, if_pos (.inl hsize)]
    have hfirst : first = [] := by
      show st.mem.read owq.buffer (thisPage 8 owq.size owq.offset) = []
      rw [hsize, thisPage, if_pos (by omega), Mem.read_zero]
    refine ⟨fun _ => ⟨st, ?_, ?_, fun _ _ => rfl⟩, fun h => absurd ?_ h⟩
    · rw [hloop, hchunks]
      rfl
    · rw [hsize, Mem.read_zero, write_nil]
    · rw [hfirst, Repeats, List.length_nil, Mem.read_zero]
  · obtain ⟨hpos, hle, hpage⟩ := @thisPage_spec 8 _ (by decide) hsize owq.offset
    generalize ht : thisPage 8 owq.size owq.offset = t at hpos hle hpage
    have hchunks : chunks 8 owq.buffer owq.size owq.offset
        = ⟨owq.buffer, t, owq.offset⟩ ::
          chunks 8 (owq.buffer + t) (owq.size - t) (owq.offset + t) := by
      rw [chunks, if_neg (by omega), ht]
    have hapart₁ : Mem.Apart p 17 owq.buffer t := by
      unfold Mem.Apart at hapart ⊢
      omega
    have hfirst : first = st.mem.read owq.buffer t := by rw [← ht]
    refine ⟨fun hrepeats => ?_, fun hrepeats => ?_⟩
    · obtain ⟨st₁, hcall₁, h₁⟩ := @owW2Dpage_writes other bundling p ⟨owq.buffer, t, owq.offset⟩
        (by dsimp only; omega) hpage hapart₁ st (by rwa [hfirst] at hrepeats)
      -- the other pieces begin with their rows
      have haligned : owq.size - t ≠ 0 → (owq.offset + t) % 8 = 0 := by
        unfold thisPage at ht
        split at ht <;> omega
      have hapart₂ : Mem.Apart p 17 (owq.buffer + t) (owq.size - t) := by
        unfold Mem.Apart at hapart ⊢
        omega
      obtain ⟨st₂, hrun, h₂⟩ := @rows_write other bundling p
        ⟨owq.buffer + t, owq.size - t, owq.offset + t⟩ haligned (by dsimp only; omega) hapart₂ st₁
      refine ⟨st₂, ?_, Written.append hle hapart h₁ h₂⟩
      rw [hloop, hchunks, runChunks, hcall₁, Option.bind_some, if_pos rfl, hrun]
      rfl
    · obtain ⟨st₁, hcall₁, h₁⟩ := @owW2Dpage_refuses other bundling p ⟨owq.buffer, t, owq.offset⟩
        (by dsimp only; omega) hpage hapart₁ st (by rwa [hfirst] at hrepeats)
      refine ⟨st₁, ?_, h₁⟩
      rw [hloop, hchunks, runChunks, hcall₁, Option.bind_some, if_neg (by simp [gbBad, gbGood])]
      rfl

/-! ## Runs -/

/-- What the memory of a DS2431 answers: a write is refused when the row of its first byte would not
begin with the bytes that lie in it. -/
def Request.onRows : Request → Mem → (Int × Bytes) × Mem
  | .read offset size, a => ((0, a.read offset size), a)
  | .write offset data, a =>
    if Repeats a offset (data.take (thisPage 8 data.length offset))
      then ((0, []), a.write offset data) else ((-22, []), a)

def Request.allOnRows : List Request → Mem → List (Int × Bytes) × Mem
  | [], a => ([], a)
  | r :: rs, a => ((r.onRows a).1 :: (allOnRows rs (r.onRows a).2).1,
      (allOnRows rs (r.onRows a).2).2)

/-- The functions for the DS2431. -/
def Driver.ds2431 {σ : Type} (bus : BusRoutines σ) (bundling : Option Nat) (p : Nat) : Driver σ :=
  ⟨fsRMem bus bundling p 32, fsWMem2431 bus bundling p⟩

/-- One request. -/
theorem Driver.ds2431_serve_eq {q : Nat} {r : Request} (hrange : r.offset + r.size ≤ 65536)
    (hoffset : r.offset < 65536) (hapart : Mem.Apart p 17 q r.size) (st : St Scratchpad) :
    ∃ st', (Driver.ds2431 ((Scratchpad.slave 8).routines other) bundling p).serve q r st
        = some ((r.onRows st.bus.memory).1, st') ∧
      st'.bus.memory = (r.onRows st.bus.memory).2 := by
  cases r with
  | read offset size =>
    obtain ⟨st', hrun, hmemory, hread⟩ :=
      @fsRMem_reads other bundling p 8 32 ⟨q, size, offset⟩ hoffset st
    dsimp only at hread
    refine ⟨st', ?_, hmemory⟩
    unfold Driver.serve Driver.ds2431
    dsimp only
    rw [hrun, Option.map_some, hread]
    rfl
  | write offset data =>
    have hpiece :=
      fsWMem2431_eq other bundling (p := p) ⟨q, data.length, offset⟩ hrange hapart
        ⟨st.mem.write q data, st.bus⟩
    have hle : thisPage 8 data.length offset ≤ data.length := by
      unfold thisPage
      split <;> omega
    dsimp only at hpiece
    rw [read_write_take _ _ hle] at hpiece
    unfold Driver.serve Driver.ds2431 Request.onRows
    dsimp only
    split
    · rename_i hrepeats
      obtain ⟨st', hrun, hwritten⟩ := hpiece.1 hrepeats
      refine ⟨st', by rw [hrun]; rfl, ?_⟩
      rw [hwritten.memory_eq, Mem.read_write_self]
    · rename_i hrepeats
      obtain ⟨st', hrun, hmemory⟩ := hpiece.2 hrepeats
      exact ⟨st', by rw [hrun]; rfl, hmemory⟩

/-- **The DS2431.** Any sequence of reads and writes is answered as the rows answer it, bundled or
not: a write from the start of a row is made, and one from the middle of a row is made or refused as
a whole. -/
theorem ds2431_refines_rows {q : Nat} {rs : List Request}
    (hrange : ∀ r ∈ rs, r.offset < 65536 ∧ r.offset + r.size ≤ 65536 ∧ Mem.Apart p 17 q r.size)
    (st : St Scratchpad) :
    ∃ st', (Driver.ds2431 ((Scratchpad.slave 8).routines other) bundling p).serveAll q rs st
        = some ((Request.allOnRows rs st.bus.memory).1, st') ∧
      st'.bus.memory = (Request.allOnRows rs st.bus.memory).2 := by
  induction rs generalizing st with
  | nil => exact ⟨st, rfl, rfl⟩
  | cons r rs ih =>
    obtain ⟨hr, hrs⟩ := List.forall_mem_cons.mp hrange
    obtain ⟨st₁, hserve, hmemory⟩ := Driver.ds2431_serve_eq other bundling hr.2.1 hr.1 hr.2.2 st
    obtain ⟨st₂, hrest, hmemory₂⟩ := ih hrs st₁
    rw [hmemory] at hrest hmemory₂
    refine ⟨st₂, ?_, hmemory₂⟩
    rw [Driver.serveAll, hserve, Option.bind_some, hrest]
    rfl

/-- A row is written, then a byte in the middle of it, then the same byte as the first one, by an
adapter that bundles up to 13 bytes. -/
theorem ds2431_refines_rows_refused :
    ∃ st', (Driver.ds2431 ((Scratchpad.slave 8).routines (failingRoutines _)) (some 13) 0).serveAll
      100
        [.write 16 [1, 2, 3, 4, 5, 6, 7, 8], .write 19 [9], .write 19 [1], .read 16 8]
        ⟨fun _ => 0, ⟨fun _ => 0, fun _ => 0, 0, 0, []⟩⟩
      = some ([(0, []), (-22, []), (0, []), (0, [1, 2, 3, 1, 5, 6, 7, 8])], st') := by
  obtain ⟨st', hrun, -⟩ := @ds2431_refines_rows (failingRoutines _) (some 13) 0 100
    [.write 16 [1, 2, 3, 4, 5, 6, 7, 8], .write 19 [9], .write 19 [1], .read 16 8]
    (by simp [Request.offset, Request.size, Mem.Apart])
      ⟨fun _ => 0, ⟨fun _ => 0, fun _ => 0, 0, 0, []⟩⟩
  refine ⟨st', hrun.trans (congrArg (fun answers => some (answers, st')) ?_)⟩
  decide

end

end Owfs.Eeprom
