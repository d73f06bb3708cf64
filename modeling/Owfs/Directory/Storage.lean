import Owfs.Device.SerialNumber
import Owfs.Infra.Block

/-!
# The memory of dirblobs and memblobs

A dirblob (`ow_dirblob.c`) keeps serial numbers in a block that grows by ten elements, a memblob
(`ow_memblob.c`) keeps bytes in a block that grows by multiples of an increment. Both remember the
size of the block in `allocated`. For a dirblob this is only a hint while there is no block:
`DirblobClear` and the callers leave a number there without any memory behind it.

The operations are modelled down to their stores, on an allocator that may refuse. An operation
that stores or loads outside of the block, overflows an `int` or divides by zero has no result. The
second component of a state is no part of the program: it lists what was added.
-/

namespace Owfs.Directory

open Infra Owfs.Device

/-! ## `struct dirblob` -/

/-- `ENODEV` -/
def errnoNodev : Int := 19

/-- `struct dirblob`, with the memory behind `snlist`. -/
structure RawDirblob where
  troubled : Bool := false
  allocated : Int := 0
  devices : Nat := 0
  snlist : Option Bytes := none

/-- `DirblobInit`. Some callers then set `db->allocated = last_root_devs`, from a `size_t`. -/
def dirblobInit (hint : Nat) : RawDirblob := { allocated := (BitVec.ofNat 32 hint).toInt }

/-- `DirblobClear` -/
def dirblobClear (db : RawDirblob) : RawDirblob := { allocated := db.devices }

/-- The element at the end of the list. -/
def RawDirblob.put (sn : SerialNumber) (db : RawDirblob) : Option (Int × RawDirblob) :=
  db.snlist.bind fun block =>
    (Block.store (8 * db.devices) sn.bytes block).map fun block =>
      (0, { db with devices := db.devices + 1, snlist := some block })

/-- `DirblobAdd`; `DIRBLOB_ELEMENT_LENGTH * newalloc` is an `int`. -/
def dirblobAdd (al : Allocator Byte) (sn : SerialNumber) (db : RawDirblob) :
    Option (Int × RawDirblob) :=
  if db.troubled then some (-einval, db)
  else if db.allocated ≤ db.devices ∨ db.snlist = none then
    let newalloc := db.allocated + 10
    if 2 ^ 31 ≤ 8 * newalloc then none
    else
      match al.realloc db.snlist (BitVec.ofInt 64 (8 * newalloc)).toNat with
      | some block => RawDirblob.put sn { db with allocated := newalloc, snlist := some block }
      | none => some (-enomem, { db with troubled := true })
  else db.put sn

/-- `DirblobGet` -/
def dirblobGet (deviceIndex : Int) (db : RawDirblob) : Option (Int × Option Bytes) :=
  if db.devices ≤ deviceIndex then some (-errnoNodev, none)
  else if deviceIndex < 0 then none
  else db.snlist.bind fun block => (Block.load (8 * deviceIndex.toNat) 8 block).map fun sn =>
    (0, some sn)

/-- The loop of `DirblobSearch` over the `n` elements from `deviceIndex`. -/
def searchLoop (sn : SerialNumber) (block : Bytes) (deviceIndex : Nat) : Nat → Option Int
  | 0 => some (-1)
  | n + 1 =>
    (Block.load (8 * deviceIndex) 8 block).bind fun b =>
      if b = sn.bytes then some deviceIndex else searchLoop sn block (deviceIndex + 1) n

/-- `DirblobSearch`; `INDEX_BAD` is -1. -/
def dirblobSearch (sn : SerialNumber) (db : RawDirblob) : Option Int :=
  if db.devices < 1 then some (-1) else db.snlist.bind fun block => searchLoop sn block 0 db.devices

/-- `DirblobRecreate` -/
def dirblobRecreate (al : Allocator Byte) (snlist : Bytes) : Option (Int × RawDirblob) :=
  if snlist.length = 0 then some (0, dirblobInit 0)
  else
    match al.realloc none snlist.length with
    | none => some (-enomem, { dirblobInit 0 with troubled := true })
    | some block =>
      (Block.store 0 snlist block).map fun block =>
        (0, { allocated := (snlist.length / 8 : Nat), devices := snlist.length / 8, snlist :=
          some block })

/-! ## `struct memblob` -/

/-- `struct memblob`, with the memory behind `memory_storage`. -/
structure Memblob where
  troubled : Bool := false
  allocated : Nat := 0
  increment : Nat
  used : Nat := 0
  memoryStorage : Option Bytes := none

/-- `MemblobInit` -/
def memblobInit (increment : Nat) : Memblob := { increment := increment }

/-- `MemblobClear` -/
def memblobClear (mb : Memblob) : Memblob := { increment := mb.increment }

/-- `MemblobIncrease`, in the arithmetic of `size_t`. -/
def memblobIncrease (al : Allocator Byte) (length : Nat) (mb : Memblob) : Option (Int × Memblob) :=
  if mb.allocated < (mb.used + length) % 2 ^ 64 ∨ mb.memoryStorage = none then
    if mb.increment = 0 then none
    else
      let increment := (length / mb.increment + 1) * mb.increment % 2 ^ 64
      let newalloc := (mb.allocated + increment) % 2 ^ 64
      match al.realloc mb.memoryStorage newalloc with
      | some block =>
        some (0, { mb with
          allocated := newalloc
          memoryStorage := some block
          used := (mb.used + length) % 2 ^ 64 })
      | none => some (-enomem, { mb with troubled := true })
  else some (0, { mb with used := (mb.used + length) % 2 ^ 64 })

/-- `MemblobAdd`, and `MemblobAddChar` for repetitions of a byte. -/
def memblobAdd (al : Allocator Byte) (data : Bytes) (mb : Memblob) : Option (Int × Memblob) :=
  (memblobIncrease al data.length mb).bind fun (ret, mb') =>
    if ret = 0 then
      mb'.memoryStorage.bind fun block =>
        (Block.store mb.used data block).map fun block =>
          (0, { mb' with memoryStorage := some block })
    else some (ret, mb')

/-- `MemblobAddChar` -/
def memblobAddChar (al : Allocator Byte) (character : Byte) (length : Nat) (mb : Memblob) :
    Option (Int × Memblob) :=
  memblobAdd al (List.replicate length character) mb

/-! ## Dirblobs: one operation -/

variable {al : Allocator Byte} {db : RawDirblob} {sns : List SerialNumber} {sn : SerialNumber}

/-- The bytes of a list of serial numbers. -/
def stored (sns : List SerialNumber) : Bytes := sns.flatMap SerialNumber.bytes

@[simp] theorem length_stored (sns : List SerialNumber) : (stored sns).length = 8 * sns.length := by
  induction sns with
  | nil => rfl
  | cons sn sns ih =>
    rw [stored, List.flatMap_cons, List.length_append, sn.length_bytes, ← stored, ih,
      List.length_cons]
    omega

theorem stored_concat (sns : List SerialNumber) (sn : SerialNumber) :
    stored (sns ++ [sn]) = stored sns ++ sn.bytes := by
  simp [stored]

/-- A dirblob that holds `sns`. -/
structure RawDirblob.Holds (db : RawDirblob) (sns : List SerialNumber) : Prop where
  devices_eq : db.devices = sns.length
  allocated_nonneg : 0 ≤ db.allocated
  null : db.snlist = none → sns = []
  inside : ∀ block, db.snlist = some block → db.devices ≤ db.allocated ∧
    8 * db.allocated ≤ block.length
  prefixed : stored sns <+: db.snlist.getD []

theorem dirblobInit_holds {hint : Nat} (h : hint < 2 ^ 31) : (dirblobInit hint).Holds [] where
  devices_eq := rfl
  allocated_nonneg := by
    show 0 ≤ (BitVec.ofNat 32 hint).toInt
    rw [toInt_ofNat32 h]
    omega
  null _ := rfl
  inside := by rintro block ⟨⟩
  prefixed := List.nil_prefix

theorem dirblobClear_holds (db : RawDirblob) : (dirblobClear db).Holds [] where
  devices_eq := rfl
  allocated_nonneg := Int.natCast_nonneg _
  null _ := rfl
  inside := by rintro block ⟨⟩
  prefixed := List.nil_prefix

/-- An element where there is room for it. -/
theorem RawDirblob.Holds.put (h : db.Holds sns) {block : Bytes} (hblock : db.snlist = some block)
    (hroom : db.devices < db.allocated) (sn : SerialNumber) :
    ∃ db', db.put sn = some (0, db') ∧ db'.Holds (sns ++ [sn]) := by
  obtain ⟨hle, hinside⟩ := h.inside block hblock
  have hdev := h.devices_eq
  have hbegins := h.prefixed
  rw [hblock, Option.getD_some] at hbegins
  obtain ⟨block', hstore, hlen, hbegins'⟩ := Block.store_behind (a := sn.bytes) hbegins (by
    rw [length_stored, sn.length_bytes]
    omega)
  rw [length_stored, ← hdev] at hstore
  refine ⟨{ db with devices := db.devices + 1, snlist := some block' }, ?_, ?_⟩
  · rw [RawDirblob.put, hblock, Option.bind_some, hstore]
    rfl
  · refine ⟨?_, h.allocated_nonneg, ?_, ?_, ?_⟩
    · simp [hdev]
    · rintro ⟨⟩
    · rintro block ⟨⟩
      rw [hlen]
      exact ⟨by show ((db.devices + 1 : Nat) : Int) ≤ db.allocated; omega, hinside⟩
    · rw [stored_concat]
      exact hbegins'

/-- The block of a dirblob can grow by ten elements, or need not. -/
def RawDirblob.MayAdd (db : RawDirblob) : Prop :=
  db.troubled = true ∨ (db.devices < db.allocated ∧ db.snlist ≠ none) ∨
    8 * (db.allocated + 10) < 2 ^ 31

/-- **`DirblobAdd`** adds the element, or leaves what there is. -/
theorem RawDirblob.Holds.add (al : Allocator Byte) (h : db.Holds sns) (hmay : db.MayAdd)
    (sn : SerialNumber) :
    ∃ ret db', dirblobAdd al sn db = some (ret, db') ∧
      db'.Holds (if ret = 0 then sns ++ [sn] else sns) := by
  unfold dirblobAdd
  by_cases htrouble : db.troubled = true
  · rw [if_pos htrouble]
    exact ⟨_, _, rfl, by rwa [if_neg (by decide)]⟩
  rw [if_neg htrouble]
  by_cases hfull : db.allocated ≤ db.devices ∨ db.snlist = none
  · have hfits : 8 * (db.allocated + 10) < 2 ^ 31 := by
      rcases hmay with ht | ⟨hlt, hsome⟩ | hfits
      · exact absurd ht htrouble
      · rcases hfull with hle | hnone
        · omega
        · exact absurd hnone hsome
      · exact hfits
    have hnonneg := h.allocated_nonneg
    have hdev := h.devices_eq
    have hsize : (BitVec.ofInt 64 (8 * (db.allocated + 10))).toNat = 8 *
        (db.allocated + 10).toNat := by
      rw [BitVec.toNat_ofInt, Int.emod_eq_of_lt (by omega) (by omega)]
      omega
    rw [if_pos hfull, if_neg (by omega), hsize]
    cases hgrant : al.realloc db.snlist (8 * (db.allocated + 10).toNat) with
    | none =>
      refine ⟨_, _, rfl, ?_⟩
      rw [if_neg (by decide)]
      exact ⟨h.devices_eq, h.allocated_nonneg, h.null, h.inside, h.prefixed⟩
    | some block =>
      have hlen := al.length_eq hgrant
      have hdevices : (db.devices : Int) ≤ db.allocated := by
        cases hsn : db.snlist with
        | none =>
          rw [hdev, h.null hsn]
          exact hnonneg
        | some old => exact (h.inside old hsn).1
      have hgrown : RawDirblob.Holds
          { db with allocated := db.allocated + 10, snlist := some block } sns := by
        refine ⟨hdev, by show 0 ≤ db.allocated + 10; omega, ?_, ?_, ?_⟩
        · rintro ⟨⟩
        · rintro block ⟨⟩
          rw [hlen]
          exact ⟨by show (db.devices : Int) ≤ db.allocated + 10; omega,
            by show 8 * (db.allocated + 10) ≤ _; omega⟩
        · exact Block.prefix_realloc al hgrant h.prefixed (by rw [length_stored]; omega)
      obtain ⟨db', hput, h'⟩ :=
        hgrown.put rfl (by show (db.devices : Int) < db.allocated + 10; omega) sn
      exact ⟨0, db', hput, by rwa [if_pos rfl]⟩
  · rw [if_neg hfull]
    obtain ⟨hlt, hsome⟩ := not_or.mp hfull
    obtain ⟨block, hblock⟩ := Option.ne_none_iff_exists'.mp hsome
    obtain ⟨db', hput, h'⟩ := h.put hblock (by omega) sn
    exact ⟨0, db', hput, by rwa [if_pos rfl]⟩

/-- The serial numbers of a block of bytes. -/
def elements : Bytes → List SerialNumber
  | b0 :: b1 :: b2 :: b3 :: b4 :: b5 :: b6 :: b7 :: rest =>
      ⟨[b0, b1, b2, b3, b4, b5, b6, b7], rfl⟩ :: elements rest
  | _ => []

theorem stored_elements_begins (b : Bytes) : stored (elements b) <+: b := by
  induction b using elements.induct with
  | case1 b0 b1 b2 b3 b4 b5 b6 b7 rest ih =>
    show [b0, b1, b2, b3, b4, b5, b6, b7] ++ stored (elements rest) <+:
      [b0, b1, b2, b3, b4, b5, b6, b7] ++ rest
    exact (List.prefix_append_right_inj _).mpr ih
  | case2 b hb =>
    rw [elements]
    · exact List.nil_prefix
    · exact hb

theorem length_elements (b : Bytes) : (elements b).length = b.length / 8 := by
  induction b using elements.induct with
  | case1 b0 b1 b2 b3 b4 b5 b6 b7 rest ih =>
    simp only [elements, List.length_cons, ih]
    omega
  | case2 b hb =>
    match b, hb with
    | [], _ | [_], _ | [_, _], _ | [_, _, _], _ | [_, _, _, _], _ | [_, _, _, _, _], _ =>
        simp [elements]
    | [_, _, _, _, _, _], _ | [_, _, _, _, _, _, _], _ => simp [elements]
    | _ :: _ :: _ :: _ :: _ :: _ :: _ :: _ :: _, hb => exact absurd rfl (hb _ _ _ _ _ _ _ _ _)

/-- **`DirblobRecreate`** holds the whole serial numbers of the bytes. -/
theorem dirblobRecreate_holds (al : Allocator Byte) (b : Bytes) :
    ∃ ret db', dirblobRecreate al b = some (ret, db') ∧
      db'.Holds (if ret = 0 then elements b else []) ∧
      (ret = 0 → db'.troubled = false) := by
  unfold dirblobRecreate
  have hempty : (dirblobInit 0).Holds [] := dirblobInit_holds (by decide)
  by_cases hlen : b.length = 0
  · rw [if_pos hlen]
    obtain rfl := List.length_eq_zero_iff.mp hlen
    exact ⟨_, _, rfl, hempty, fun _ => rfl⟩
  rw [if_neg hlen]
  cases hgrant : al.realloc none b.length with
  | none =>
    refine ⟨_, _, rfl, ?_, fun h => absurd h (by decide)⟩
    rw [if_neg (by decide)]
    exact ⟨rfl, hempty.allocated_nonneg, fun _ => rfl, hempty.inside, List.nil_prefix⟩
  | some block =>
    have hblock := al.length_eq hgrant
    obtain ⟨block', hstore, hlen', hbegins⟩ :=
      @Block.store_behind _ [] b block List.nil_prefix (by simp [hblock])
    dsimp only
    rw [List.length_nil] at hstore
    rw [hstore]
    refine ⟨_, _, rfl, ?_, fun _ => rfl⟩
    refine ⟨(length_elements b).symm, Int.natCast_nonneg _, ?_, ?_,
      (stored_elements_begins b).trans hbegins⟩
    · rintro ⟨⟩
    · rintro block ⟨⟩
      rw [hlen', hblock]
      exact ⟨Int.le_refl _, by dsimp only; omega⟩

/-! ## Dirblobs: what is seen -/

/-- Loading an element. -/
theorem load_stored {before after : List SerialNumber} {block : Bytes}
    (h : stored (before ++ sn :: after) <+: block) :
    Block.load (8 * before.length) 8 block = some sn.bytes := by
  have hsplit : stored (before ++ sn :: after) = stored before ++ sn.bytes ++ stored after := by
    simp [stored]
  rw [hsplit] at h
  have := Block.load_of_prefix h
  rwa [length_stored, sn.length_bytes] at this

theorem RawDirblob.Holds.get (h : db.Holds sns) (i : Nat) :
    dirblobGet i db = some (match sns[i]? with
      | some sn => (0, some sn.bytes)
      | none => (-errnoNodev, none)) := by
  unfold dirblobGet
  rw [h.devices_eq]
  by_cases hi : i < sns.length
  · have hne : db.snlist ≠ none := by
      intro hnone
      rw [h.null hnone] at hi
      exact Nat.not_lt_zero i hi
    obtain ⟨block, hblock⟩ := Option.ne_none_iff_exists'.mp hne
    have hbegins := h.prefixed
    rw [hblock, Option.getD_some] at hbegins
    have hsplit : sns = sns.take i ++ sns[i] :: sns.drop (i + 1) := by
      rw [List.getElem_cons_drop, List.take_append_drop]
    have hload : Block.load (8 * i) 8 block = some (sns[i]).bytes := by
      rw [hsplit] at hbegins
      have := load_stored hbegins
      rwa [List.length_take, Nat.min_eq_left (Nat.le_of_lt hi)] at this
    rw [if_neg (by omega), if_neg (by omega), hblock, Option.bind_some, Int.toNat_natCast, hload,
      List.getElem?_eq_getElem hi]
    rfl
  · rw [if_pos (by omega), List.getElem?_eq_none (Nat.not_lt.mp hi)]

/-- The loop of `DirblobSearch` finds the first match behind the elements it has passed. -/
theorem searchLoop_eq {block : Bytes} (sn : SerialNumber) (after : List SerialNumber) :
    ∀ before : List SerialNumber, stored (before ++ after) <+: block →
      searchLoop sn block before.length after.length
        = some (match after.idxOf? sn with
          | some j => ((before.length + j : Nat) : Int)
          | none => -1) := by
  induction after with
  | nil => intro before _; rfl
  | cons x after ih =>
    intro before h
    rw [List.length_cons, searchLoop, load_stored h, Option.bind_some]
    by_cases hx : x = sn
    · subst hx
      rw [if_pos rfl, List.idxOf?_cons, if_pos BEq.rfl]
      rfl
    · have hne : ¬ x.bytes = sn.bytes := fun he => hx (SerialNumber.eq_of_bytes he)
      have hstep := ih (before ++ [x]) (by simpa using h)
      rw [List.length_append, List.length_singleton] at hstep
      rw [if_neg hne, hstep, List.idxOf?_cons, if_neg (by simpa using hx)]
      cases after.idxOf? sn with
      | none => rfl
      | some j =>
        simp only [Option.map_some, Option.some.injEq, Nat.cast_inj]
        omega

theorem RawDirblob.Holds.search (h : db.Holds sns) (sn : SerialNumber) :
    dirblobSearch sn db = some (match sns.idxOf? sn with | some i => (i : Int) | none => -1) := by
  unfold dirblobSearch
  rw [h.devices_eq]
  cases hblock : db.snlist with
  | none =>
    rw [h.null hblock]
    rfl
  | some block =>
    have hbegins := h.prefixed
    rw [hblock, Option.getD_some] at hbegins
    have hloop := searchLoop_eq sn sns [] hbegins
    cases sns with
    | nil => rfl
    | cons x sns =>
      rw [if_neg (by simp), Option.bind_some]
      simpa using hloop

theorem elements_stored (sns : List SerialNumber) : elements (stored sns) = sns := by
  induction sns with
  | nil => rfl
  | cons sn sns ih =>
    obtain ⟨bytes, hlen⟩ := sn
    match bytes, hlen with
    | [b0, b1, b2, b3, b4, b5, b6, b7], _ =>
      show ⟨[b0, b1, b2, b3, b4, b5, b6, b7], _⟩ :: elements (stored sns) = _
      rw [ih]

/-- Two dirblobs have the same elements for whoever asks. -/
structure RawDirblob.SameElements (db db' : RawDirblob) : Prop where
  devices : db.devices = db'.devices
  get : ∀ i, dirblobGet i db = dirblobGet i db'
  search : ∀ sn, dirblobSearch sn db = dirblobSearch sn db'

theorem RawDirblob.Holds.sameElements {db' : RawDirblob} (h : db.Holds sns) (h' : db'.Holds sns) :
    db.SameElements db' where
  devices := h.devices_eq.trans h'.devices_eq.symm
  get i := by
    cases i with
    | ofNat i => exact (h.get i).trans (h'.get i).symm
    | negSucc i =>
      have hneg : ∀ db : RawDirblob, dirblobGet (Int.negSucc i) db = none := by
        intro db
        rw [dirblobGet, if_neg (by omega), if_pos (by omega)]
      rw [hneg, hneg]
  search sn := (h.search sn).trans (h'.search sn).symm

/-- The dirblob is what `sns` says, to all that can be asked, and it can be stored and recreated. -/
structure RawDirblob.Represents (al : Allocator Byte) (db : RawDirblob) (sns : List SerialNumber) :
    Prop where
  storage : 8 * db.devices ≤ (db.snlist.getD []).length
  devices : db.devices = sns.length
  get : ∀ i : Nat, dirblobGet i db
    = some (match sns[i]? with | some sn => (0, some sn.bytes) | none => (-errnoNodev, none))
  search : ∀ sn, dirblobSearch sn db =
    some (match sns.idxOf? sn with | some i => (i : Int) | none => -1)
  recreate : ∃ ret db',
    dirblobRecreate al ((db.snlist.getD []).take (8 * db.devices)) = some (ret, db') ∧
    (ret = 0 → db'.troubled = false ∧ db'.SameElements db)

theorem RawDirblob.Holds.represents (h : db.Holds sns) (al : Allocator Byte) :
    db.Represents al sns := by
  have htake : (db.snlist.getD []).take (8 * db.devices) = stored sns := by
    rw [h.devices_eq, ← length_stored]
    exact (List.prefix_iff_eq_take.mp h.prefixed).symm
  refine ⟨?_, h.devices_eq, h.get, h.search, ?_⟩
  · have := h.prefixed.length_le
    rwa [length_stored, ← h.devices_eq] at this
  · obtain ⟨ret, db', hrecreate, hholds, hpure⟩ := dirblobRecreate_holds al (stored sns)
    rw [htake]
    refine ⟨ret, db', hrecreate, fun hret => ⟨hpure hret, ?_⟩⟩
    rw [if_pos hret, elements_stored] at hholds
    exact hholds.sameElements h

/-! ## Dirblobs: runs -/

/-- An operation that changes a dirblob. -/
inductive DirCall where
  | init (hint : Nat)
  | add (sn : SerialNumber)
  | clear
  | recreate (snlist : Bytes)

/-- One operation, on a dirblob and on the list of what was added to it. -/
def DirCall.step (al : Allocator Byte) (s : RawDirblob × List SerialNumber) :
    DirCall → Option (RawDirblob × List SerialNumber)
  | .init hint => some (dirblobInit hint, [])
  | .add sn => (dirblobAdd al sn s.1).map fun (ret, db) =>
      (db, if ret = 0 then s.2 ++ [sn] else s.2)
  | .clear => some (dirblobClear s.1, [])
  | .recreate snlist => (dirblobRecreate al snlist).map fun (ret, db) =>
      (db, if ret = 0 then elements snlist else [])

/-- No size leaves the range of an `int`. -/
def DirCall.Fits (db : RawDirblob) : DirCall → Prop
  | .init hint => hint < 2 ^ 31
  | .add _ => db.MayAdd
  | .clear => True
  | .recreate snlist => snlist.length < 2 ^ 31

/-- Each call of a run fits in the state before it. -/
def DirFits (al : Allocator Byte) (s : RawDirblob × List SerialNumber) : List DirCall → Prop
  | [] => True
  | call :: calls => call.Fits s.1 ∧ ∀ s', call.step al s = some s' → DirFits al s' calls

theorem DirCall.step_holds {s : RawDirblob × List SerialNumber} (h : s.1.Holds s.2) {call : DirCall}
    (hfits : call.Fits s.1) : ∃ s', call.step al s = some s' ∧ s'.1.Holds s'.2 := by
  cases call with
  | init hint => exact ⟨_, rfl, dirblobInit_holds hfits⟩
  | clear => exact ⟨_, rfl, dirblobClear_holds s.1⟩
  | add sn =>
    obtain ⟨ret, db', hadd, h'⟩ := h.add al hfits sn
    exact ⟨_, by rw [DirCall.step, hadd]; rfl, h'⟩
  | recreate snlist =>
    obtain ⟨ret, db', hrecreate, h', -⟩ := dirblobRecreate_holds al snlist
    exact ⟨_, by rw [DirCall.step, hrecreate]; rfl, h'⟩

theorem DirFits.run_holds {calls : List DirCall} :
    ∀ {s : RawDirblob × List SerialNumber}, s.1.Holds s.2 → DirFits al s calls →
      ∃ s', calls.foldlM (DirCall.step al) s = some s' ∧ s'.1.Holds s'.2 := by
  induction calls with
  | nil => exact fun h _ => ⟨_, rfl, h⟩
  | cons call calls ih =>
    intro s h hfits
    obtain ⟨s', hstep, h'⟩ := DirCall.step_holds h hfits.1
    obtain ⟨s'', hrun, h''⟩ := ih h' (hfits.2 s' hstep)
    exact ⟨s'', by rw [List.foldlM_cons, hstep]; exact hrun, h''⟩

/-! ## Memblobs -/

variable {mb : Memblob} {data : Bytes}

/-- A memblob that holds `data`. -/
structure Memblob.Holds (mb : Memblob) (data : Bytes) : Prop where
  used_eq : mb.used = data.length
  used_le : mb.used ≤ mb.allocated
  allocated_lt : mb.allocated < 2 ^ 64
  inside : mb.allocated ≤ (mb.memoryStorage.getD []).length
  prefixed : data <+: mb.memoryStorage.getD []

theorem memblobInit_holds (increment : Nat) : (memblobInit increment).Holds [] :=
  ⟨rfl, Nat.le_refl 0, Nat.two_pow_pos 64, Nat.le_refl 0, List.nil_prefix⟩

theorem memblobClear_holds (mb : Memblob) : (memblobClear mb).Holds [] :=
  ⟨rfl, Nat.le_refl 0, Nat.two_pow_pos 64, Nat.le_refl 0, List.nil_prefix⟩

/-- `n` more bytes are there, or can be asked for without a size that wraps around. -/
def Memblob.MayAdd (n : Nat) (mb : Memblob) : Prop :=
  (mb.used + n ≤ mb.allocated ∧ mb.memoryStorage ≠ none) ∨
    (mb.increment ≠ 0 ∧ mb.allocated + (n / mb.increment + 1) * mb.increment < 2 ^ 64)

/-- **`MemblobIncrease`** makes room for `n` bytes. -/
theorem Memblob.Holds.increase (al : Allocator Byte) (h : mb.Holds data) {n : Nat}
    (hmay : mb.MayAdd n) :
    (∃ mb', memblobIncrease al n mb = some (-enomem, mb') ∧ mb'.Holds data) ∨
    ∃ mb' block, memblobIncrease al n mb = some (0, mb') ∧ mb'.used = mb.used + n ∧
    mb'.used ≤ mb'.allocated ∧
      mb'.allocated < 2 ^ 64 ∧ mb'.memoryStorage = some block ∧ mb'.allocated ≤ block.length ∧
      data <+: block := by
  obtain ⟨hused, hle, hlt, hinside, hbegins⟩ := h
  have hwide : mb.increment ≠ 0 → n < (n / mb.increment + 1) * mb.increment := by
    intro hne
    rw [Nat.mul_comm]
    exact Nat.lt_mul_div_succ n (Nat.pos_of_ne_zero hne)
  have hmod : (mb.used + n) % 2 ^ 64 = mb.used + n := by
    rcases hmay with ⟨hroom, -⟩ | ⟨hne, hfits⟩
    · exact Nat.mod_eq_of_lt (by omega)
    · have := hwide hne
      exact Nat.mod_eq_of_lt (by omega)
  unfold memblobIncrease
  rw [hmod]
  by_cases hfull : mb.allocated < mb.used + n ∨ mb.memoryStorage = none
  · rw [if_pos hfull]
    obtain ⟨hne, hfits⟩ : mb.increment ≠ 0 ∧
        mb.allocated + (n / mb.increment + 1) * mb.increment < 2 ^ 64 := by
      rcases hmay with ⟨hroom, hsome⟩ | hfits
      · rcases hfull with hlack | hnone
        · omega
        · exact absurd hnone hsome
      · exact hfits
    have hwide := hwide hne
    generalize (n / mb.increment + 1) * mb.increment = grown at hfits hwide
    rw [if_neg hne, Nat.mod_eq_of_lt (a := grown) (by omega)]
    dsimp only
    rw [Nat.mod_eq_of_lt hfits]
    cases hgrant : al.realloc mb.memoryStorage (mb.allocated + grown) with
    | none => exact .inl ⟨_, rfl, hused, hle, hlt, hinside, hbegins⟩
    | some block =>
      refine .inr ⟨_, block, rfl, rfl, ?_, hfits, rfl, ?_, ?_⟩
      · show mb.used + n ≤ mb.allocated + grown
        omega
      · exact (al.length_eq hgrant).ge
      · exact Block.prefix_realloc al hgrant hbegins (by omega)
  · rw [if_neg hfull]
    obtain ⟨hroom, hsome⟩ := not_or.mp hfull
    obtain ⟨block, hblock⟩ := Option.ne_none_iff_exists'.mp hsome
    rw [hblock, Option.getD_some] at hinside hbegins
    exact .inr ⟨_, block, rfl, rfl, Nat.not_lt.mp hroom, hlt, hblock, hinside, hbegins⟩

/-- **`MemblobAdd`** adds the bytes, or leaves what there is. -/
theorem Memblob.Holds.add (al : Allocator Byte) (h : mb.Holds data) {a : Bytes}
    (hmay : mb.MayAdd a.length) :
    ∃ ret mb', memblobAdd al a mb = some (ret, mb') ∧
      mb'.Holds (if ret = 0 then data ++ a else data) := by
  unfold memblobAdd
  obtain ⟨mb', hincrease, h'⟩ | ⟨mb', block, hincrease, hused, hle, hlt, hblock, hinside,
      hbegins⟩ :=
    h.increase al hmay
  · rw [hincrease]
    exact ⟨_, _, rfl, h'⟩
  · obtain ⟨block', hstore, hlen, hbegins'⟩ :=
      Block.store_behind (a := a) hbegins (by rw [← h.used_eq]; omega)
    rw [hincrease, Option.bind_some]
    dsimp only
    rw [if_pos rfl, hblock, Option.bind_some, h.used_eq, hstore]
    refine ⟨_, _, rfl, ?_, hle, hlt, ?_, hbegins'⟩
    · show mb'.used = _
      rw [hused, h.used_eq, if_pos rfl, List.length_append]
    · show mb'.allocated ≤ block'.length
      omega

/-- The memblob is `data`: `MemblobLength` bytes of `MemblobData`. -/
structure Memblob.Represents (mb : Memblob) (data : Bytes) : Prop where
  storage : mb.used ≤ (mb.memoryStorage.getD []).length
  data_eq : (mb.memoryStorage.getD []).take mb.used = data

theorem Memblob.Holds.represents (h : mb.Holds data) : mb.Represents data where
  storage := Nat.le_trans h.used_le h.inside
  data_eq := by
    rw [h.used_eq]
    exact (List.prefix_iff_eq_take.mp h.prefixed).symm

/-- An operation that changes a memblob. -/
inductive MemCall where
  | init (increment : Nat)
  | add (data : Bytes)
  | addChar (character : Byte) (length : Nat)
  | clear

/-- One operation, on a memblob and on what was added to it. -/
def MemCall.step (al : Allocator Byte) (s : Memblob × Bytes) : MemCall → Option (Memblob × Bytes)
  | .init increment => some (memblobInit increment, [])
  | .add data => (memblobAdd al data s.1).map fun (ret, mb) =>
      (mb, if ret = 0 then s.2 ++ data else s.2)
  | .addChar character length =>
    (memblobAddChar al character length s.1).map fun (ret, mb) =>
      (mb, if ret = 0 then s.2 ++ List.replicate length character else s.2)
  | .clear => some (memblobClear s.1, [])

/-- No size wraps around. -/
def MemCall.Fits (mb : Memblob) : MemCall → Prop
  | .init _ => True
  | .add data => mb.MayAdd data.length
  | .addChar _ length => mb.MayAdd length
  | .clear => True

/-- Each call of a run fits in the state before it. -/
def MemFits (al : Allocator Byte) (s : Memblob × Bytes) : List MemCall → Prop
  | [] => True
  | call :: calls => call.Fits s.1 ∧ ∀ s', call.step al s = some s' → MemFits al s' calls

theorem MemCall.step_holds {s : Memblob × Bytes} (h : s.1.Holds s.2) {call : MemCall}
    (hfits : call.Fits s.1) :
    ∃ s', call.step al s = some s' ∧ s'.1.Holds s'.2 := by
  cases call with
  | init increment => exact ⟨_, rfl, memblobInit_holds increment⟩
  | clear => exact ⟨_, rfl, memblobClear_holds s.1⟩
  | add data =>
    obtain ⟨ret, mb', hadd, h'⟩ := h.add al hfits
    exact ⟨_, by rw [MemCall.step, hadd]; rfl, h'⟩
  | addChar character length =>
    have hmay : s.1.MayAdd (List.replicate length character).length := by
      rw [List.length_replicate]
      exact hfits
    obtain ⟨ret, mb', hadd, h'⟩ := h.add al hmay
    exact ⟨_, by rw [MemCall.step, memblobAddChar, hadd]; rfl, h'⟩

theorem MemFits.run_holds {calls : List MemCall} :
    ∀ {s : Memblob × Bytes}, s.1.Holds s.2 → MemFits al s calls →
      ∃ s', calls.foldlM (MemCall.step al) s = some s' ∧ s'.1.Holds s'.2 := by
  induction calls with
  | nil => exact fun h _ => ⟨_, rfl, h⟩
  | cons call calls ih =>
    intro s h hfits
    obtain ⟨s', hstep, h'⟩ := MemCall.step_holds h hfits.1
    obtain ⟨s'', hrun, h''⟩ := ih h' (hfits.2 s' hstep)
    exact ⟨s'', by rw [List.foldlM_cons, hstep]; exact hrun, h''⟩

/-! ## The representation -/

/-- A run of a dirblob, after `DirblobInit`. -/
def dirRun (al : Allocator Byte) (calls : List DirCall) : Option (RawDirblob × List SerialNumber) :=
  calls.foldlM (DirCall.step al) (dirblobInit 0, [])

/-- A run of a memblob, after `MemblobInit`. -/
def memRun (al : Allocator Byte) (increment : Nat) (calls : List MemCall) :
    Option (Memblob × Bytes) :=
  calls.foldlM (MemCall.step al) (memblobInit increment, [])

/-- A run of a dirblob ends with what was added. -/
def DirRepresented (al : Allocator Byte) (calls : List DirCall) : Prop :=
  ∃ db sns, dirRun al calls = some (db, sns) ∧ db.Represents al sns

/-- A run of a memblob ends with what was added. -/
def MemRepresented (al : Allocator Byte) (increment : Nat) (calls : List MemCall) : Prop :=
  ∃ mb data, memRun al increment calls = some (mb, data) ∧ mb.Represents data

/-- **Runs whose sizes fit represent what was added.** -/
theorem runs_represented (al : Allocator Byte) :
    (∀ calls, DirFits al (dirblobInit 0, []) calls → DirRepresented al calls) ∧
    (∀ increment calls, MemFits al (memblobInit increment, []) calls →
    MemRepresented al increment calls) := by
  constructor
  · intro calls hfits
    obtain ⟨⟨db, sns⟩, hrun, h⟩ := hfits.run_holds (dirblobInit_holds (by decide))
    exact ⟨db, sns, hrun, h.represents al⟩
  · intro increment calls hfits
    obtain ⟨⟨mb, data⟩, hrun, h⟩ := hfits.run_holds (memblobInit_holds increment)
    exact ⟨mb, data, hrun, h.represents⟩

theorem runs_represented_sample :
    DirRepresented (Allocator.granting 0) [.init 10, .add SerialNumber.zero] ∧
      MemRepresented (Allocator.granting 0) 4 [.add [0x31], .addChar 0xFF 2] := by
  constructor
  · refine (runs_represented _).1 _ ⟨by show 10 < 2 ^ 31; decide, ?_⟩
    rintro s' ⟨⟩
    exact ⟨.inr (.inr (by decide)), fun _ _ => trivial⟩
  · refine (runs_represented _).2 _ _ ⟨.inr ⟨by decide, by decide⟩, ?_⟩
    rintro s' ⟨⟩
    exact ⟨.inl ⟨by decide, by decide⟩, fun _ _ => trivial⟩

/-- All of the address space at once: the size that is asked for wraps around to 384 bytes. -/
theorem sizeMax_not_represented :
    ¬ MemRepresented (Allocator.granting 0) 1000 [.addChar 0xFF (2 ^ 64 - 1)] := by
  have hlen : (List.replicate (2 ^ 64 - 1) (0xFF : Byte)).length = 2 ^ 64 - 1 :=
    List.length_replicate
  have hsize : (0 + ((2 ^ 64 - 1) / 1000 + 1) * 1000 % 2 ^ 64) % 2 ^ 64 = 384 := by norm_num
  obtain ⟨block, hgrant⟩ : ∃ block, (Allocator.granting (0 : Byte)).realloc none 384 = some block :=
    ⟨_, rfl⟩
  have hblock := (Allocator.granting (0 : Byte)).length_eq hgrant
  have hincrease : memblobIncrease (Allocator.granting 0) (2 ^ 64 - 1) (memblobInit 1000)
      = some (0, ⟨false, 384, 1000, (0 + (2 ^ 64 - 1)) % 2 ^ 64, some block⟩) := by
    rw [memblobIncrease, if_pos (.inr rfl), if_neg (by decide)]
    dsimp only [memblobInit]
    rw [hsize, hgrant]
  have hnone : memblobAddChar (Allocator.granting 0) 0xFF (2 ^ 64 - 1) (memblobInit 1000) =
      none := by
    unfold memblobAddChar
    generalize List.replicate (2 ^ 64 - 1) (0xFF : Byte) = a at hlen
    have hstore : Block.store 0 a block = none := by
      rw [Block.store, if_neg]
      rw [hblock, hlen]
      decide
    rw [memblobAdd, hlen, hincrease, Option.bind_some]
    dsimp only
    rw [if_pos rfl, Option.bind_some, memblobInit, hstore]
    rfl
  rintro ⟨mb, data, hrun, -⟩
  rw [memRun, List.foldlM_cons, MemCall.step, hnone] at hrun
  cases hrun

end Owfs.Directory
