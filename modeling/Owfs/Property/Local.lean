import Owfs.Cache.Operations

/-!
# Reading and writing a property of a local device

`FS_r_local` and `FS_w_local` with everything between them and the cache, for a device on a real
bus. Arrays are read and written as a whole or element by element, as `enum ag_combined` says, and
the cache has a key for each of `.n`, `.ALL` and `.BYTE`.

The device answers as it likes: `Env.read` says what the read function of the property puts into
the buffer at each event, and `Env.clock` what `NOW_TIME` is. Events are numbered in the order in
which they happen. What is written to a device does not matter here; `Host.written` only records
that it happened, and when. Reads and writes of the device succeed, and so does `malloc`.
-/

namespace Owfs.Property

open Infra Owfs.Cache Owfs.Device

/-! ## Queries -/

/-- `pn->extension` -/
inductive Extension where
  | elem (n : Nat)
  | all
  | byte
deriving DecidableEq, Repr

/-- `EXTENSION_ALL` is -1, `EXTENSION_BYTE` -2. -/
def Extension.toInt32 : Extension → BitVec 32
  | .elem n => BitVec.ofNat 32 n
  | .all => BitVec.ofInt 32 (-1)
  | .byte => BitVec.ofInt 32 (-2)

/-- `struct filetype`; `p` is its address. -/
structure Filetype where
  p : BitVec 64
  suglen : Nat
  ag : Option Aggregate
  format : FtFormat
  change : FcChange
  readable : Bool := true
  writable : Bool := true

/-- The part of `struct one_wire_query` that is read here. -/
structure Query where
  sn : SerialNumber
  ft : Filetype
  extension : Extension
  size : Nat
  offset : Nat
  directory : DirectoryName
  uncachedDir : Bool := false
  alarmDir : Bool := false

def Query.name (q : Query) : PropertyName :=
  ⟨q.sn, q.ft.p, q.extension.toInt32, q.ft.change, false, q.uncachedDir, q.alarmDir⟩

/-- `FileLength` -/
def fileLength (ft : Filetype) (extension : Extension) : Nat :=
  match ft.format with
  | .yesno => 1
  | .integer | .unsigned | .float | .pressure | .temperature | .tempgap => 12
  | .date => 24
  | .bitfield => if extension = .byte then 12 else 1
  | .directory | .subdir => 8
  | _ => ft.suglen

/-- The number of elements of an array. -/
def Filetype.elements (ft : Filetype) : Nat := (ft.ag.map Aggregate.elements).getD 0

/-- `FullFileLength` -/
def fullFileLength (ft : Filetype) (extension : Extension) : Nat :=
  let entryLength := fileLength ft extension
  if extension ≠ .all then entryLength
  else if ft.format = .binary then entryLength * ft.elements
  -- "add room for commas"
  else (entryLength + 1) * ft.elements - 1

/-- `adjust_file_size` -/
def adjustFileSize (q : Query) : Query :=
  let length := fullFileLength q.ft q.extension
  if q.offset ≥ length then { q with size := 0 }
  else if q.size + q.offset > length then { q with size := length - q.offset }
  else q

/-! ## The cache of a query -/

/-- How `OWQ_Cache_Add` and `OWQ_Cache_Get` treat a format. -/
inductive Storage where
  | text | value | notCached
deriving DecidableEq, Repr

def storage : FtFormat → Storage
  | .ascii | .vascii | .alias | .binary => .text
  | .integer | .unsigned | .yesno | .date | .float | .pressure | .temperature | .tempgap => .value
  | _ => .notCached

/-- `sizeof(union value_object)` -/
def sizeofValueObject : Nat := 8

/-- What the queries meet: the settings, the clock and the device. -/
structure Env where
  g : Globals
  /-- `SlaveSpecificTag(S_T)` -/
  simultaneousTag : InternalProp
  clock : Nat → Int
  /-- what the read function answers at an event, for an extension, a size and an offset -/
  read : Nat → Extension → Nat → Nat → Bytes

/-- The trees, the number of events so far, and what has been written at which event. -/
structure Host where
  trees : Trees
  tick : Nat := 0
  written : List (Extension × Nat) := []

/-- Events pass. -/
def Host.wait (s : Host) (n : Nat) : Host := { s with tick := s.tick + n }

section

variable (env : Env)

/-- `Cache_Get_Strict` -/
def cacheGetStrict (now : Int) (dsize : Nat) (pn : PropertyName) (trees : Trees) : Option Bytes :=
  (cacheGet env.g now dsize pn trees).filter fun data => data.length = dsize

/-- `Cache_Get_Simultaneous`, with two clock readings. -/
def cacheGetSimultaneous (now now' : Int) (q : Query) (trees : Trees) : Option Bytes :=
  let duration := timeOut env.g.timeouts q.ft.change
  if duration ≤ 0 then none
  else
    let res := cacheGetCommon now sizeofValueObject duration q.name.key trees.temporary
    res.getStat.filter fun _ =>
      match cacheGetSimulTime env.g now' env.simultaneousTag q.directory trees with
      | none => true
      -- "Simultaneous conversion is newer than previous reading"
      | some dwellTimeSimul => ¬ dwellTimeSimul < duration - res.duration

/-- `OWQ_Cache_Get` -/
def owqCacheGet (q : Query) (s : Host) : Option Bytes :=
  let now := env.clock s.tick
  if q.uncachedDir || q.alarmDir then none
  else if q.ft.change = .simultaneousTemperature ∨ q.ft.change = .simultaneousVoltage then
    cacheGetSimultaneous env now (env.clock (s.tick + 1)) q s.trees
  else match q.extension, storage q.ft.format with
    -- "string arrays not supported"
    | .all, .text => none
    | .all, .value =>
      cacheGetStrict env now (q.ft.elements * sizeofValueObject) q.name s.trees
    | _, .text => if q.offset > 0 then none else cacheGet env.g now q.size q.name s.trees
    | _, .value => cacheGetStrict env now sizeofValueObject q.name s.trees
    | _, .notCached => none

/-- `OWQ_Cache_Add` -/
def owqCacheAdd (q : Query) (data : Bytes) (s : Host) : Host :=
  let add := { s with trees := (cacheAdd env.g (env.clock s.tick) (env.clock (s.tick + 1))
    (env.clock (s.tick + 2)) data q.name s.trees).2 }.wait 3
  match q.extension, storage q.ft.format with
  -- "cache of string arrays not supported"
  | .all, .text => s.wait 3
  | _, .text => if q.offset > 0 then s.wait 3 else add
  | _, .value => add
  | _, .notCached => s.wait 3

/-- `OWQ_Cache_Del` -/
def owqCacheDel (q : Query) (s : Host) : Host :=
  { s with trees := cacheDel env.g (env.clock s.tick) q.name s.trees }.wait 1

/-- `OWQ_Cache_Del_ALL` -/
def owqCacheDelAll (q : Query) (s : Host) : Host := owqCacheDel env { q with extension := .all } s

/-- `OWQ_Cache_Del_BYTE` -/
def owqCacheDelByte (q : Query) (s : Host) : Host := owqCacheDel env { q with extension := .byte } s

/-- `OWQ_Cache_Del_parts` -/
def owqCacheDelParts (q : Query) (s : Host) : Host :=
  match q.ft.ag with
  | some ag =>
    (List.range ag.elements).reverse.foldl
      (fun s n => owqCacheDel env { q with extension := .elem n } s) s
  | none => owqCacheDel env q s

/-! ## Reading -/

/-- A piece of an answer: what was obtained for an extension. -/
structure Part where
  extension : Extension
  data : Bytes
deriving DecidableEq, Repr

/-- The read function of the property. -/
def deviceRead (q : Query) (s : Host) : Part × Host :=
  (⟨q.extension, env.read s.tick q.extension q.size q.offset⟩, s.wait 1)

/-- `FS_read_owq` -/
def fsReadOwq (q : Query) (s : Host) : Part × Host :=
  match owqCacheGet env q s with
  | some data => (⟨q.extension, data⟩, s.wait 2)
  | none =>
    let (part, s) := deviceRead env q (s.wait 2)
    (part, owqCacheAdd env q part.data s)

/-- `OWQ_create_separate`, with the default buffer of one byte -/
def Query.separate (q : Query) (extension : Extension) : Query :=
  { q with extension, size := 1, offset := 0 }

/-- `OWQ_allocate_read_buffer` -/
def Query.allocateReadBuffer (q : Query) : Query :=
  let size := fullFileLength q.ft q.extension
  if size > 0 then { q with size, offset := 0 } else q

/-- The loop of `FS_read_in_parts`: `left` bytes remain in the buffer. -/
def readParts (q : Query) : List Nat → Nat → Host → Option (List Part) × Host
  | [], _, s => (some [], s)
  | n :: rest, left, s =>
    let (part, s) := fsReadOwq env { q with extension := .elem n } s
    if storage q.ft.format = .text ∧ left < part.data.length then (none, s)
    else
      let left := if storage q.ft.format = .text then left - part.data.length else left
      let (parts, s) := readParts q rest left s
      (parts.map (part :: ·), s)

/-- `FS_read_in_parts` -/
def fsReadInParts (q : Query) (s : Host) : Option (List Part) × Host :=
  if q.ft.format = .bitfield then
    let (part, s) := fsReadOwq env (q.separate .byte) s
    (some [part], s)
  else
    readParts env (q.separate (.elem 0)).allocateReadBuffer (List.range q.ft.elements) q.size s

/-- The loop of `FS_read_all_bits`. -/
def readBits (q : Query) : List Nat → Host → List Part × Host
  | [], s => ([], s)
  | n :: rest, s =>
    let (part, s) := fsReadOwq env { q with extension := .elem n } s
    let (parts, s) := readBits q rest s
    (part :: parts, s)

/-- `FS_read_all_bits` -/
def fsReadAllBits (q : Query) (s : Host) : Option (List Part) × Host :=
  let (parts, s) := readBits env (q.separate (.elem 0)) (List.range q.ft.elements) s
  (some parts, s)

/-- One part is the whole answer. -/
def single (result : Part × Host) : Option (List Part) × Host := (some [result.1], result.2)

/-- `FS_read_all`: bits come from `.BYTE`. -/
def fsReadAll (q : Query) (s : Host) : Option (List Part) × Host :=
  if q.ft.format = .bitfield then single (fsReadOwq env (q.separate .byte) s)
  else single (fsReadOwq env q s)

/-- `FS_read_a_part` and `FS_read_a_bit`: the element is taken out of the whole. -/
def fsReadAPart (q : Query) (s : Host) : Option (List Part) × Host :=
  if q.ft.format = .bitfield then single (fsReadOwq env (q.separate .byte) s)
  else single (fsReadOwq env (q.separate .all) s)

/-- `FS_r_local`. The answer is put together from the parts. -/
def fsRLocal (q : Query) (s : Host) : Option (List Part) × Host :=
  if ¬ q.ft.readable then (none, s)
  else
    let q := adjustFileSize q
    if q.size = 0 then (some [], s)
    else match q.ft.ag with
    | none => single (fsReadOwq env q s)
    | some ag => match ag.combined, q.extension with
      -- "skip cache test and storing"
      | .sparse, _ => single (deviceRead env q s)
      | .aggregate, .byte => single (fsReadOwq env q s)
      | .aggregate, .all => fsReadAll env q s
      | .aggregate, .elem _ => fsReadAPart env q s
      | .mixed, .byte => single (fsReadOwq env q (owqCacheDelParts env q s))
      | .mixed, .all => fsReadAll env q (owqCacheDelParts env q s)
      | .mixed, .elem _ =>
        single (fsReadOwq env q (owqCacheDelByte env q (owqCacheDelAll env q s)))
      | .separate, .byte => fsReadAllBits env q s
      | .separate, .all => fsReadInParts env q s
      | .separate, .elem _ => single (fsReadOwq env q s)

/-! ## Writing -/

/-- The write function of the property. -/
def deviceWrite (q : Query) (s : Host) : Host :=
  { s with written := (q.extension, s.tick) :: s.written }.wait 1

/-- `FS_write_owq` -/
def fsWriteOwq (q : Query) (s : Host) : Host := owqCacheDel env q (deviceWrite q s)

/-- The loop of `FS_write_in_parts` and `FS_write_as_bits`. -/
def writeParts (q : Query) (s : Host) : Host :=
  (List.range q.ft.elements).foldl (fun s n => fsWriteOwq env { q with extension := .elem n } s) s

/-- `FS_write_all` and `FS_write_all_bits` -/
def fsWriteAll (q : Query) (s : Host) : Host :=
  if q.ft.format = .bitfield then fsWriteOwq env (q.separate .byte) s else fsWriteOwq env q s

/-- `FS_write_a_part` and `FS_write_a_bit`: the whole is read, changed and written. -/
def fsWriteAPart (q : Query) (n : Nat) (s : Host) : Option Host :=
  let whole := if q.ft.format = .bitfield then q.separate .byte else q.separate .all
  let (parts, s) := fsRLocal env whole s
  -- the loop over the elements before `n` counts up `n` itself and does not end
  if storage q.ft.format = .text ∧ n ≠ 0 then none
  else parts.map fun _ => fsWriteOwq env whole s

/-- `FS_w_local`; none where the write does not succeed. -/
def fsWLocal (q : Query) (s : Host) : Option Host :=
  if ¬ q.ft.writable then none
  else match q.ft.ag with
  | none => some (fsWriteOwq env q s)
  | some ag => match ag.combined, q.extension with
    -- "avoid cache"
    | .sparse, _ => some (deviceWrite q s)
    | .aggregate, .byte => some (fsWriteOwq env q s)
    | .aggregate, .all => some (fsWriteAll env q s)
    | .aggregate, .elem n => fsWriteAPart env q n s
    | .mixed, .byte => some (fsWriteOwq env q (owqCacheDelParts env q s))
    | .mixed, .all => some (fsWriteAll env q (owqCacheDelParts env q s))
    | .mixed, .elem _ => some (fsWriteOwq env q (owqCacheDelByte env q (owqCacheDelAll env q s)))
    | .separate, .byte => some (writeParts env (q.separate (.elem 0)) s)
    | .separate, .all => some (writeParts env (q.separate (.elem 0)) s)
    | .separate, .elem _ => some (fsWriteOwq env q s)

end

end Owfs.Property
