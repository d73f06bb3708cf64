import Owfs.Ds1921.Clock
import Owfs.Infra.Decimal
import Owfs.Transaction.MemoryRead

/-!
# The log of a DS1921

A mission takes a sample of the temperature every few minutes. The last 2048 of them are kept: if
the mission may roll over, new samples take the place of the oldest ones. A client can read one
element of the log or all of them, as temperatures, as dates and as seconds (`ow_1921.c`).

A product of two `int` that does not fit an `int` wraps around. An hours register that stands for an
entry behind the table `ampm` is not checked either: the code takes what lies there. This is a fault
here, and no value at all, while a start that is no time is refused in good order.
-/

namespace Owfs.Ds1921

open Infra Owfs.Transaction

/-- `LOG_DATA_ELEMENTS` -/
def logDataElements : Nat := 2048

/-- `struct Mission` -/
structure Mission where
  start : Int
  rollover : Bool
  interval : Nat
  samples : Nat
deriving DecidableEq

/-- The loop of `OW_2mdate`: the year of a mission is not more than 50 years ago. -/
def adjustCentury (year t : Nat) : Nat := if t + 50 < year then adjustCentury year (t + 100) else t
termination_by year - t

/-- `OW_2mdate`, which is told the present time `now`. As in `ow2date`, to read behind `ampm` is a
fault, and `some none` is a time that is refused. -/
def ow2mdate (now : Nat) (data : Bytes) : Option (Option Int) :=
  let register (i : Nat) : Byte := data.getD i 0
  (ampm[((register 1) >>> 4).toNat]?).map fun hours =>
    let t : Tm := { gmtime now with
      sec := 0
      min := fromBcd (register 0)
      hour := ((register 1) &&& 0x0F).toNat + hours
      mday := fromBcd (register 2)
      mon := ((register 3) &&& 0x0F).toNat + 10 * (((register 3) &&& 0x10) >>> 4).toNat
      year := adjustCentury (gmtime now).year (fromBcd (register 4)) }
    if timegm t = -1 then none else some (timegm t)

/-- What `OW_FillMission` makes of the 16 registers at `0x020D`: a fault, no mission, or a
mission. -/
def missionOf (now : Nat) (data : Bytes) : Option (Option Mission) :=
  (ow2mdate now ((data.drop 8).take 5)).map fun start => start.map fun start =>
    { start
      rollover := (data.getD 1 0).getLsbD 3
      interval := 60 * (data.getD 0 0).toNat
      samples := (data.getD 15 0).toNat * 65536 + (data.getD 14 0).toNat * 256 +
        (data.getD 13 0).toNat }

/-- The product of two `int` -/
def intMul (a b : Int) : Int := (BitVec.ofInt 32 (a * b)).toInt

/-- How often the log is full, if it can roll over. -/
def Mission.pass (mission : Mission) : Nat :=
  if mission.rollover then mission.samples / logDataElements else 0

def Mission.off (mission : Mission) : Nat :=
  if mission.rollover then mission.samples % logDataElements else 0

/-! ## Temperatures -/

section

variable {σ F : Type} (bus : BusRoutines σ) (bundling : Option Nat) (p : Nat)

/-- `OW_small_read`. As in `Owfs.Transaction`, the array of the page is at `p`. -/
def owSmallRead (buffer size location : Nat) (st : St σ) : Option (Int × St σ) :=
  commonReadMemoryCrc16 bus bundling p readA5 ⟨buffer, size, location⟩ 0 32 st

/-- `OW_FillMission`. There is no mission when the read is bad. -/
def owFillMission (now data : Nat) (st : St σ) : Option (Option Mission × St σ) :=
  (owSmallRead bus bundling p data 16 0x020D st).bind fun r =>
    if r.1 = gbGood then (missionOf now (r.2.mem.read data 16)).map fun mission => (mission, r.2)
    else some (none, r.2)

/-- `OW_r_logtemp_single`; `temperature` is how the chip counts degrees, and `data` is where its
bytes are read to. There is no value when the read is bad. -/
def owRLogtempSingle (temperature : Byte → F) (mission : Mission) (extension : Nat) (data : Nat)
    (st : St σ) :
    Option (Option F × St σ) :=
  let location :=
    0x1000 + if mission.pass ≠ 0 then (extension + mission.off) % logDataElements else extension
  (owSmallRead bus bundling p data 1 location st).map fun r =>
    (if r.1 = gbGood then some (temperature (r.2.mem data)) else none, r.2)

/-- `OW_r_logtemp_all` -/
def owRLogtempAll (temperature : Byte → F) (mission : Mission) (data : Nat) (st : St σ) :
    Option (Option (List F) × St σ) :=
  (commonOwqReadwritePaged (commonReadMemoryCrc16 bus bundling p readA5)
    ⟨data, logDataElements, 0x1000⟩ 0 32 st).map fun r =>
    (if r.1 = gbGood then
      some ((List.range logDataElements).map fun i =>
        temperature (r.2.mem (data + if mission.pass ≠ 0 then (i + mission.off) % logDataElements
          else i)))
    else none, r.2)

end

/-! ## Dates -/

/-- `OW_r_logdate_single` -/
def owRLogdateSingle (mission : Mission) (extension : Nat) : Int :=
  if mission.pass ≠ 0 then
    mission.start + intMul ((mission.samples : Int) - logDataElements + extension) mission.interval
  else mission.start + intMul extension mission.interval

/-- `OW_r_logdate_all` -/
def owRLogdateAll (mission : Mission) : List Int :=
  if mission.pass ≠ 0 then
    (List.range logDataElements).map fun (i : Nat) =>
      mission.start + intMul ((mission.samples : Int) - logDataElements + i) mission.interval
  else (List.range logDataElements).map fun (i : Nat) => mission.start + intMul i mission.interval

/-- `OW_r_logudate_single`: an `unsigned int` keeps 32 bits. -/
def owRLogudateSingle (mission : Mission) (extension : Nat) : BitVec 32 :=
  if mission.pass ≠ 0 then
    BitVec.ofInt 32 (mission.start +
      intMul ((mission.samples : Int) - logDataElements + extension) mission.interval)
  else BitVec.ofInt 32 (mission.start + intMul extension mission.interval)

/-- `OW_r_logudate_all` -/
def owRLogudateAll (mission : Mission) : List (BitVec 32) :=
  if mission.pass ≠ 0 then
    (List.range logDataElements).map fun (i : Nat) =>
      BitVec.ofInt 32 (mission.start +
        intMul ((mission.samples : Int) - logDataElements + i) mission.interval)
  else (List.range logDataElements).map fun (i : Nat) =>
    BitVec.ofInt 32 (mission.start + intMul i mission.interval)

/-! ## The files -/

section

variable {σ F : Type} (bus : BusRoutines σ) (bundling : Option Nat) (p : Nat) (now data : Nat)

/-- A file of the log is read after the mission is known. -/
def fsRLog {α : Type} (view : Mission → St σ → Option (Option (List α) × St σ)) (st : St σ) :
    Option (Option (List α) × St σ) :=
  (owFillMission bus bundling p now data st).bind fun r =>
    match r.1 with
    | none => some (none, r.2)
    | some mission => view mission r.2

/-- `FS_r_logtemp`; the extension is `none` for all elements. -/
def fsRLogtemp (temperature : Byte → F) (extension : Option Nat) :
    St σ → Option (Option (List F) × St σ) :=
  fsRLog bus bundling p now data fun mission st =>
    match extension with
    | none => owRLogtempAll bus bundling p temperature mission data st
    | some i => (owRLogtempSingle bus bundling p temperature mission i data st).map fun r =>
        (r.1.map ([·]), r.2)

/-- `FS_r_logdate` -/
def fsRLogdate (extension : Option Nat) : St σ → Option (Option (List Int) × St σ) :=
  fsRLog bus bundling p now data fun mission st =>
    match extension with
    | none => some (some (owRLogdateAll mission), st)
    | some i => some (some [owRLogdateSingle mission i], st)

/-- `FS_r_logudate` -/
def fsRLogudate (extension : Option Nat) : St σ → Option (Option (List (BitVec 32)) × St σ) :=
  fsRLog bus bundling p now data fun mission st =>
    match extension with
    | none => some (some (owRLogudateAll mission), st)
    | some i => some (some [owRLogudateSingle mission i], st)

end

/-! ## What the log is -/

/-- The number of the sample that element `i` of the log is. A sample is stored in the cell of its
number, modulo the number of cells. -/
def Mission.sampleNumber (mission : Mission) (i : Nat) : Nat :=
  if mission.rollover ∧ logDataElements ≤ mission.samples then mission.samples - logDataElements + i
    else i

theorem pass_ne_zero_iff (mission : Mission) :
    mission.pass ≠ 0 ↔ mission.rollover = true ∧ logDataElements ≤ mission.samples := by
  unfold Mission.pass logDataElements
  split
  · rename_i hrollover
    simp only [hrollover, true_and]
    omega
  · rename_i hrollover
    simp [hrollover]

/-- The cell that is read is the one of the sample. -/
theorem cell_eq (mission : Mission) {i : Nat} (hi : i < logDataElements) :
    (if mission.pass ≠ 0 then (i + mission.off) % logDataElements else i) = mission.sampleNumber i %
      logDataElements := by
  unfold Mission.sampleNumber
  by_cases hpass : mission.rollover = true ∧ logDataElements ≤ mission.samples
  · rw [if_pos ((pass_ne_zero_iff mission).mpr hpass), if_pos hpass, Mission.off, if_pos hpass.1]
    have hle := hpass.2
    unfold logDataElements at hle ⊢
    omega
  · rw [if_neg fun h => hpass ((pass_ne_zero_iff mission).mp h), if_neg hpass, Nat.mod_eq_of_lt hi]

theorem owRLogdateSingle_eq (mission : Mission) (i : Nat) :
    owRLogdateSingle mission i = mission.start +
      intMul (mission.sampleNumber i) mission.interval := by
  unfold owRLogdateSingle Mission.sampleNumber
  by_cases hpass : mission.rollover = true ∧ logDataElements ≤ mission.samples
  · rw [if_pos ((pass_ne_zero_iff mission).mpr hpass), if_pos hpass]
    have hle := hpass.2
    congr 2
    omega
  · rw [if_neg fun h => hpass ((pass_ne_zero_iff mission).mp h), if_neg hpass]

theorem getElem?_owRLogdateAll (mission : Mission) {i : Nat} (hi : i < logDataElements) :
    (owRLogdateAll mission)[i]? = some (owRLogdateSingle mission i) := by
  unfold owRLogdateAll owRLogdateSingle
  split <;> simp [hi]

theorem getElem?_owRLogudateAll (mission : Mission) {i : Nat} (hi : i < logDataElements) :
    (owRLogudateAll mission)[i]? = some (owRLogudateSingle mission i) := by
  unfold owRLogudateAll owRLogudateSingle
  split <;> simp [hi]

/-- The date is the time of the sample as long as the product is an `int`. -/
theorem owRLogdateSingle_eq_iff (mission : Mission) (i : Nat) :
    owRLogdateSingle mission i = mission.start + mission.sampleNumber i * mission.interval ↔
      mission.sampleNumber i * mission.interval < 2 ^ 31 := by
  have hint := toInt_ofInt_eq_iff ((mission.sampleNumber i : Int) * mission.interval)
  rw [owRLogdateSingle_eq, intMul, add_right_inj, hint]
  constructor
  · rintro ⟨-, hlt⟩
    exact_mod_cast hlt
  · intro hlt
    have hcast : (mission.sampleNumber i : Int) * mission.interval < 2 ^ 31 := by exact_mod_cast hlt
    have hnonneg : (0 : Int) ≤ mission.sampleNumber i * mission.interval := by positivity
    omega

/-- The last element has the largest number. -/
theorem sampleNumber_le (mission : Mission) {i : Nat} (hi : i < logDataElements) :
    mission.sampleNumber i ≤ mission.sampleNumber (logDataElements - 1) := by
  unfold Mission.sampleNumber
  split <;> omega

/-! ## What is read -/

section

variable (memory : Mem) (other : BusRoutines (List BusEvent)) (bundling : Option Nat) (p : Nat)
  {F : Type} (temperature : Byte → F) (mission : Mission) (now data : Nat) (st : St (List BusEvent))

theorem owSmallRead_delivers (buffer : Nat) {size location : Nat} (hlocation : location < 65536)
    (hpage : location % 32 + size ≤ 32) :
    ∃ st', owSmallRead ((memoryBus memory 32).routines other) bundling p buffer size location st =
      some (gbGood, st') ∧
      Delivered memory p 37 ⟨buffer, size, location⟩ st.mem st'.mem :=
  commonReadMemoryCrc16_delivers memory 32 other bundling (.inl rfl) hlocation hpage st

/-- The mission is that of the registers. -/
theorem fsRLog_eq {α : Type}
    (view : Mission → St (List BusEvent) → Option (Option (List α) × St (List BusEvent))) :
    ∃ st', fsRLog ((memoryBus memory 32).routines other) bundling p now data view st =
      (missionOf now (memory.read 0x020D 16)).bind fun
        | none => some (none, st')
        | some mission => view mission st' := by
  obtain ⟨st', hread, hdelivered⟩ := @owSmallRead_delivers memory other bundling p st data 16 0x020D
    (by decide) (by decide)
  refine ⟨st', ?_⟩
  rw [fsRLog, owFillMission, hread, Option.bind_some, if_pos rfl, hdelivered.read_eq]
  rcases missionOf now (memory.read 0x020D 16) with _ | _ | mission <;> rfl

theorem owRLogtempSingle_eq {i : Nat} (hi : i < logDataElements) :
    ∃ st', owRLogtempSingle ((memoryBus memory 32).routines other) bundling p temperature mission i
      data st =
      some (some (temperature (memory (0x1000 + mission.sampleNumber i % logDataElements))),
        st') := by
  have hcell : mission.sampleNumber i % logDataElements < 2048 := Nat.mod_lt _ (by decide)
  obtain ⟨st', hread, hdelivered⟩ := @owSmallRead_delivers memory other bundling p st data 1
    (0x1000 + mission.sampleNumber i % logDataElements) (by omega) (by omega)
  have hbyte := hdelivered.read_eq
  simp only [Mem.read, List.range_one, List.map_cons, List.map_nil, Nat.add_zero, List.cons.injEq,
    and_true] at hbyte
  refine ⟨st', ?_⟩
  rw [owRLogtempSingle, cell_eq mission hi]
  simp only [hread, Option.map_some, if_pos, hbyte]

theorem owRLogtempAll_eq (hapart : Mem.Apart p 37 data logDataElements) :
    ∃ st', owRLogtempAll ((memoryBus memory 32).routines other) bundling p temperature mission data
      st =
      some (some ((List.range logDataElements).map fun i =>
        temperature (memory (0x1000 + mission.sampleNumber i % logDataElements))), st') := by
  obtain ⟨st', hrun, hdelivered⟩ := runChunks_delivers (show 32 ≠ 0 by decide)
    (fun c hoffset hpage st =>
      commonReadMemoryCrc16_delivers memory 32 other bundling (.inl rfl) (p := p) hoffset hpage st)
    ⟨data, logDataElements, 0x1000⟩ (show 0x1000 + 2048 ≤ 65536 by decide) hapart st
  refine ⟨st', ?_⟩
  rw [owRLogtempAll, commonOwqReadwritePaged, pagedLoop_eq (by decide)]
  dsimp only at hrun ⊢
  rw [Nat.mul_zero, Nat.add_zero, hrun, Option.map_some, if_pos rfl]
  refine congrArg (fun vs => some (some vs, st')) (List.map_congr_left fun i hi => ?_)
  have hcell : mission.sampleNumber i % logDataElements < logDataElements :=
    Nat.mod_lt _ (by decide)
  have hbyte := congrArg (·[mission.sampleNumber i % logDataElements]?) hdelivered.read_eq
  simp only [Mem.read, List.getElem?_map, List.getElem?_range hcell, Option.map_some,
    Option.some.injEq] at hbyte
  rw [cell_eq mission (List.mem_range.mp hi), hbyte]

end

/-! ## The views -/

section

variable (memory : Mem) (other : BusRoutines (List BusEvent)) (bundling : Option Nat) (p : Nat)
  {F : Type} (temperature : Byte → F) (now data : Nat)

/-- A file shows `v` as element `i`, whether it is read by itself or with all others. -/
def Shows {α : Type}
    (file : Option Nat → St (List BusEvent) → Option (Option (List α) × St (List BusEvent)))
    (i : Nat) (v : α) :
    Prop :=
  ∀ st, (∃ st', file (some i) st = some (some [v], st')) ∧ ∃ vs st',
    file none st = some (some vs, st') ∧ vs[i]? = some v

/-- Nothing can be read from a file. -/
def Refuses {α : Type}
    (file : Option Nat → St (List BusEvent) → Option (Option (List α) × St (List BusEvent)))
    (i : Nat) : Prop :=
  ∀ st, (∃ st', file (some i) st = some (none, st')) ∧ ∃ st', file none st = some (none, st')

theorem Shows.eq {α : Type}
    {file : Option Nat → St (List BusEvent) → Option (Option (List α) × St (List BusEvent))}
    {i : Nat} {v w : α} (hv : Shows file i v) (hw : Shows file i w) : v = w := by
  obtain ⟨st₁, h₁⟩ := (hv ⟨fun _ => 0, []⟩).1
  obtain ⟨st₂, h₂⟩ := (hw ⟨fun _ => 0, []⟩).1
  simp_all

/-- All three views of an element are of the same sample: its temperature, and its time given that
the date is `date`. -/
structure ViewsAgree (mission : Mission) (i : Nat) (date : Int) : Prop where
  logtemp : Shows (fsRLogtemp ((memoryBus memory 32).routines other) bundling p now data
    temperature) i
    (temperature (memory (0x1000 + mission.sampleNumber i % logDataElements)))
  logdate : Shows (fsRLogdate ((memoryBus memory 32).routines other) bundling p now data) i date
  logudate : Shows (fsRLogudate ((memoryBus memory 32).routines other) bundling p now data) i
    (BitVec.ofInt 32 date)

theorem shows_fsRLog {α : Type}
    {view : Option Nat → Mission → St (List BusEvent) →
      Option (Option (List α) × St (List BusEvent))}
    {mission : Mission} (hmission : missionOf now (memory.read 0x020D 16) = some (some mission))
    {i : Nat} {v : α} (hsingle : ∀ st, ∃ st', view (some i) mission st = some (some [v], st'))
    (hall : ∀ st, ∃ vs st', view none mission st = some (some vs, st') ∧ vs[i]? = some v) :
    Shows (fun extension =>
      fsRLog ((memoryBus memory 32).routines other) bundling p now data (view extension)) i v := by
  refine fun st => ⟨?_, ?_⟩
  · obtain ⟨st₁, hlog⟩ := fsRLog_eq memory other bundling p now data st (view (some i))
    obtain ⟨st₂, hview⟩ := hsingle st₁
    refine ⟨st₂, hlog.trans ?_⟩
    simp only [hmission, Option.bind_some, hview]
  · obtain ⟨st₁, hlog⟩ := fsRLog_eq memory other bundling p now data st (view none)
    obtain ⟨vs, st₂, hview, hv⟩ := hall st₁
    refine ⟨vs, st₂, hlog.trans ?_, hv⟩
    simp only [hmission, Option.bind_some, hview]

theorem refuses_fsRLog {α : Type}
    (view : Option Nat → Mission → St (List BusEvent) →
      Option (Option (List α) × St (List BusEvent)))
    (hmission : missionOf now (memory.read 0x020D 16) = some none) (i : Nat) :
    Refuses (fun extension =>
      fsRLog ((memoryBus memory 32).routines other) bundling p now data (view extension)) i := by
  refine fun st => ⟨?_, ?_⟩
  · obtain ⟨st₁, hlog⟩ := fsRLog_eq memory other bundling p now data st (view (some i))
    refine ⟨st₁, hlog.trans ?_⟩
    simp only [hmission, Option.bind_some]
  · obtain ⟨st₁, hlog⟩ := fsRLog_eq memory other bundling p now data st (view none)
    refine ⟨st₁, hlog.trans ?_⟩
    simp only [hmission, Option.bind_some]

/-- Whatever the registers have, the views are of one sample, and of the date that is computed for
it. -/
theorem viewsAgree_of_missionOf (hapart : Mem.Apart p 37 data logDataElements) {mission : Mission}
    (hmission : missionOf now (memory.read 0x020D 16) = some (some mission)) {i : Nat}
    (hi : i < logDataElements) :
    ViewsAgree memory other bundling p temperature now data mission i
      (owRLogdateSingle mission i) := by
  have hudate : owRLogudateSingle mission i = BitVec.ofInt 32 (owRLogdateSingle mission i) := by
    unfold owRLogudateSingle owRLogdateSingle
    split <;> rfl
  refine ⟨shows_fsRLog memory other bundling p now data hmission (fun st => ?_) (fun st => ?_),
    shows_fsRLog memory other bundling p now data hmission (fun st => ?_) (fun st => ?_),
    shows_fsRLog memory other bundling p now data hmission (fun st => ?_) (fun st => ?_)⟩
  · obtain ⟨st', hsingle⟩ :=
      owRLogtempSingle_eq memory other bundling p temperature mission data st hi
    refine ⟨st', ?_⟩
    simp only [hsingle, Option.map_some]
  · obtain ⟨st', hall⟩ :=
      owRLogtempAll_eq memory other bundling p temperature mission data st hapart
    refine ⟨_, st', hall, ?_⟩
    rw [List.getElem?_map, List.getElem?_range hi, Option.map_some]
  · exact ⟨st, rfl⟩
  · exact ⟨_, st, rfl, getElem?_owRLogdateAll mission hi⟩
  · refine ⟨st, ?_⟩
    simp only [hudate]
  · exact ⟨_, st, rfl, (getElem?_owRLogudateAll mission hi).trans (congrArg some hudate)⟩

/-- What the log should be. Without a start of the mission nothing is read. -/
def LogAgrees : Prop :=
  match missionOf now (memory.read 0x020D 16) with
  -- there is nothing to agree on when the start comes from behind the table
  | none => False
  | some none => ∀ i < logDataElements,
    Refuses (fsRLogtemp ((memoryBus memory 32).routines other) bundling p now data temperature) i ∧
    Refuses (fsRLogdate ((memoryBus memory 32).routines other) bundling p now data) i ∧
    Refuses (fsRLogudate ((memoryBus memory 32).routines other) bundling p now data) i
  | some (some mission) => ∀ i < logDataElements,
    ViewsAgree memory other bundling p temperature now data mission i
      (mission.start + mission.sampleNumber i * mission.interval)

/-- The upper half of the hours register stands for an entry of `ampm`. -/
def HoursListed (memory : Mem) : Prop := (memory (0x020D + 9) >>> 4).toNat < ampm.length

instance (memory : Mem) : Decidable (HoursListed memory) := inferInstanceAs (Decidable (_ < _))

/-- A fault comes from this register only. -/
theorem isSome_missionOf_iff :
    (missionOf now (memory.read 0x020D 16)).isSome ↔ HoursListed memory := by
  have hregister : (((memory.read 0x020D 16).drop 8).take 5).getD 1 0 = memory (0x020D + 9) := rfl
  rw [missionOf, ow2mdate, Option.isSome_map, Option.isSome_map]
  dsimp only
  rw [hregister, HoursListed, isSome_getElem?]

/-- No file can be read when there is a fault. -/
theorem fsRLog_fault {α : Type}
    (view : Mission → St (List BusEvent) → Option (Option (List α) × St (List BusEvent)))
    (hhours : ¬ HoursListed memory) (st : St (List BusEvent)) :
    fsRLog ((memoryBus memory 32).routines other) bundling p now data view st = none := by
  rw [← isSome_missionOf_iff memory now, Option.not_isSome_iff_eq_none] at hhours
  obtain ⟨st', hlog⟩ := fsRLog_eq memory other bundling p now data st view
  rw [hlog, hhours, Option.bind_none]

theorem logAgrees_iff (hapart : Mem.Apart p 37 data logDataElements) :
    LogAgrees memory other bundling p temperature now data ↔ HoursListed memory ∧
      ∀ mission, missionOf now (memory.read 0x020D 16) = some (some mission) →
        mission.sampleNumber (logDataElements - 1) * mission.interval < 2 ^ 31 := by
  rw [← isSome_missionOf_iff memory now]
  unfold LogAgrees
  rcases hmission : missionOf now (memory.read 0x020D 16) with _ | _ | mission
  · simp
  · refine iff_of_true (fun i _ => ⟨?_, ?_, ?_⟩) ⟨rfl, nofun⟩
    · exact refuses_fsRLog memory other bundling p now data _ hmission i
    · exact refuses_fsRLog memory other bundling p now data _ hmission i
    · exact refuses_fsRLog memory other bundling p now data _ hmission i
  · have hviews (i : Nat) (hi : i < logDataElements) :=
      viewsAgree_of_missionOf memory other bundling p temperature now data hapart hmission hi
    constructor
    · refine fun hagree => ⟨rfl, ?_⟩
      rintro _ ⟨rfl⟩
      have hlast : logDataElements - 1 < logDataElements := by decide
      exact (owRLogdateSingle_eq_iff mission _).mp
        ((hviews _ hlast).logdate.eq (hagree _ hlast).logdate)
    · rintro ⟨-, hlt⟩ i hi
      have hle := Nat.mul_le_mul_right mission.interval (sampleNumber_le mission hi)
      rw [← (owRLogdateSingle_eq_iff mission i).mpr (hle.trans_lt (hlt mission rfl))]
      exact hviews i hi

/-- **The log.** The single elements and all elements of the three views are always of the same
sample, with the same date. That date is the start plus the number of the sample times the interval,
for all elements, if and only if the upper half of the hours register is in the table and the time
from the start to the last element fits an `int`. If it is not in the table, each read of an element
goes behind the table. -/
theorem log_iff (hapart : Mem.Apart p 37 data logDataElements) :
    (∀ mission, missionOf now (memory.read 0x020D 16) = some (some mission) →
      ∀ i < logDataElements, ∃ date,
        ViewsAgree memory other bundling p temperature now data mission i date) ∧
    (LogAgrees memory other bundling p temperature now data ↔ HoursListed memory ∧
      ∀ mission, missionOf now (memory.read 0x020D 16) = some (some mission) →
        mission.sampleNumber (logDataElements - 1) * mission.interval < 2 ^ 31) ∧
    (¬ HoursListed memory → ∀ (extension : Option Nat) (st : St (List BusEvent)),
      fsRLogtemp ((memoryBus memory 32).routines other) bundling p now data temperature extension
      st = none ∧
      fsRLogdate ((memoryBus memory 32).routines other) bundling p now data extension st = none ∧
      fsRLogudate ((memoryBus memory 32).routines other) bundling p now data extension st = none) :=
  ⟨fun _ hmission _ hi =>
      ⟨_, viewsAgree_of_missionOf memory other bundling p temperature now data hapart hmission hi⟩,
    logAgrees_iff memory other bundling p temperature now data hapart,
    fun hhours _ st => ⟨fsRLog_fault memory other bundling p now data _ hhours st,
      fsRLog_fault memory other bundling p now data _ hhours st,
      fsRLog_fault memory other bundling p now data _ hhours st⟩⟩

end

/-- The registers of a mission that started on 1 January 2026: the interval, the control register
with or without rollover, the start and the number of samples. -/
def missionMemory (interval control low middle high : Byte) : Mem :=
  Mem.write (fun _ => 0) 0x020D [interval, control, 0, 0, 0, 0, 0, 0, 0x00, 0x00, 0x01, 0x00, 0x26,
    low, middle, high]

theorem missionOf_missionMemory (interval control low middle high : Byte) :
    missionOf 1782864000 ((missionMemory interval control low middle high).read 0x020D 16) =
      some (some ⟨1767225600, control.getLsbD 3, 60 * interval.toNat,
        high.toNat * 65536 + middle.toNat * 256 + low.toNat⟩) := by
  have hread : (missionMemory interval control low middle high).read 0x020D 16 =
      [interval, control, 0, 0, 0, 0, 0, 0, 0x00, 0x00, 0x01, 0x00, 0x26, low, middle, high] :=
        Mem.read_write_self _ _ _
  have hstart : ow2mdate 1782864000 [0x00, 0x00, 0x01, 0x00, 0x26] = some (some 1767225600) := by
    have hyear : adjustCentury 126 26 = 126 := by
      rw [adjustCentury, if_pos (by decide), adjustCentury, if_neg (by decide)]
    have hnow : (gmtime 1782864000).year = 126 := by decide +kernel
    simp only [ow2mdate, List.getD_cons_zero, List.getD_cons_succ, hnow,
      show fromBcd 0x26 = 26 by decide, hyear]
    decide +kernel
  rw [hread, missionOf]
  simp only [List.drop_succ_cons, List.drop_zero, List.take_succ_cons, List.take_zero, hstart]
  rfl

/-- 3000 samples, one every minute. -/
theorem log_iff_minutes :
    LogAgrees (missionMemory 1 8 0xB8 0x0B 0) (failingRoutines _) none 0 id 1782864000 100 := by
  refine (log_iff (missionMemory 1 8 0xB8 0x0B 0) (failingRoutines _) none 0 id 1782864000 100
    (by decide)).2.1.mpr ⟨by decide, ?_⟩
  rw [missionOf_missionMemory]
  rintro _ ⟨rfl⟩
  decide

/-- As many samples as can be counted, at the longest interval; and few samples, but an hours
register of `0x80`. -/
theorem log_overflow :
    ¬ LogAgrees (missionMemory 255 8 0xFF 0xFF 0xFF) (failingRoutines _) none 0 id 1782864000 100 ∧
      ¬ LogAgrees ((missionMemory 1 8 0xB8 0x0B 0).write 0x0216 [0x80]) (failingRoutines _) none 0
      id
        1782864000 100 := by
  refine ⟨fun hagree => ?_, fun hagree => ?_⟩
  · obtain ⟨-, hlt⟩ :=
      (logAgrees_iff (missionMemory 255 8 0xFF 0xFF 0xFF) (failingRoutines _) none 0 id
      1782864000 100 (by decide)).mp hagree
    revert hlt
    rw [missionOf_missionMemory]
    intro hlt
    exact absurd (hlt _ rfl) (by decide)
  · obtain ⟨hhours, -⟩ := (logAgrees_iff ((missionMemory 1 8 0xB8 0x0B 0).write 0x0216 [0x80])
      (failingRoutines _) none 0 id 1782864000 100 (by decide)).mp hagree
    exact absurd hhours (by decide)

end Owfs.Ds1921
