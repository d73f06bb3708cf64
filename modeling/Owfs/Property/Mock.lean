import Owfs.Property.Local

/-!
# The mock bus

A bus of type `bus_mock` has no devices behind it. A write puts the value into the persistent tree
of the cache ("write even unwritable to the cache for testing"), and a read looks for it there;
if it is not found, the answer is made up by `FS_read_fake`.

`Cache_Add` and `Cache_Get` both have a "special handling of Mock", but `OWQ_Cache_Get` sends the
properties of a simultaneous conversion to `Cache_Get_Simultaneous`, which has none and looks in
the temporary trees only. What was written to such a property is never read again.

Scalar properties are modelled, on any number of devices. What a number or a date is parsed to,
what is made up and what a static property reads from the device are given by `MockEnv`, anew for
each step, with the settings and the clock.
-/

namespace Owfs.Property

open Infra Owfs.Cache Owfs.Device

/-! ## The cache of a query on any bus -/

/-- The name of the property; `mock` tells a bus of type `bus_mock`. -/
def Query.nameOn (mock : Bool) (q : Query) : PropertyName := { q.name with mock }

/-- `OWQ_Cache_Get` -/
def owqCacheGetOn (env : Env) (mock : Bool) (q : Query) (s : Host) : Option Bytes :=
  let now := env.clock s.tick
  if q.uncachedDir || q.alarmDir then none
  else if q.ft.change = .simultaneousTemperature ∨ q.ft.change = .simultaneousVoltage then
    cacheGetSimultaneous env now (env.clock (s.tick + 1)) q s.trees
  else match q.extension, storage q.ft.format with
    | .all, .text => none
    | .all, .value =>
      cacheGetStrict env now (q.ft.elements * sizeofValueObject) (q.nameOn mock) s.trees
    | _, .text => if q.offset > 0 then none else cacheGet env.g now q.size (q.nameOn mock) s.trees
    | _, .value => cacheGetStrict env now sizeofValueObject (q.nameOn mock) s.trees
    | _, .notCached => none

/-- `OWQ_Cache_Add` -/
def owqCacheAddOn (env : Env) (mock : Bool) (q : Query) (data : Bytes) (s : Host) : Host :=
  let add := { s with trees := (cacheAdd env.g (env.clock s.tick) (env.clock (s.tick + 1))
    (env.clock (s.tick + 2)) data (q.nameOn mock) s.trees).2 }.wait 3
  match q.extension, storage q.ft.format with
  | .all, .text => s.wait 3
  | _, .text => if q.offset > 0 then s.wait 3 else add
  | _, .value => add
  | _, .notCached => s.wait 3

theorem owqCacheGetOn_false (env : Env) (q : Query) (s : Host) :
    owqCacheGetOn env false q s = owqCacheGet env q s := rfl

theorem owqCacheAddOn_false (env : Env) (q : Query) (data : Bytes) (s : Host) :
    owqCacheAddOn env false q data s = owqCacheAdd env q data s := rfl

/-! ## Properties and accesses -/

/-- The properties by their addresses. -/
structure Filetypes where
  filetype : BitVec 64 → Filetype
  p_filetype : ∀ p, (filetype p).p = p

/-- A scalar property of a device on the mock bus, other than `alias`. -/
structure MockProperty (fts : Filetypes) where
  sn : SerialNumber
  p : BitVec 64
  directory : DirectoryName
  scalar : (fts.filetype p).ag = none

/-- How a client asks: the size and offset of its buffer, and the directories on its path. -/
structure MockAccess where
  size : Nat
  offset : Nat
  uncachedDir : Bool := false
  alarmDir : Bool := false
deriving DecidableEq

section

variable {fts : Filetypes}

def MockProperty.ft (pr : MockProperty fts) : Filetype := fts.filetype pr.p

def MockProperty.query (pr : MockProperty fts) (a : MockAccess) : Query :=
  ⟨pr.sn, pr.ft, .elem 0, a.size, a.offset, pr.directory, a.uncachedDir, a.alarmDir⟩

def MockProperty.key (pr : MockProperty fts) : TreeKey := ⟨pr.sn, pr.p, 0⟩

/-- The filetype belongs to a simultaneous conversion. -/
def Filetype.simultaneous (ft : Filetype) : Bool :=
  ft.change = .simultaneousTemperature || ft.change = .simultaneousVoltage

/-! ## Writing -/

/-- What happens outside the cache. -/
structure MockEnv extends Env where
  /-- what `FS_read_fake` makes up at an event, for a size and an offset -/
  fake : Nat → Nat → Nat → Bytes
  /-- the `union value_object` that `FS_input_integer` and the like make of the buffer -/
  parseValue : FtFormat → Bytes → Option Bytes
  length_parseValue : ∀ {format buffer value}, parseValue format buffer = some value →
    value.length = sizeofValueObject

/-- `FS_check_length` -/
def fsCheckLength (ft : Filetype) (size offset : Nat) : Nat :=
  let filelength := fileLength ft (.elem 0)
  let size := if filelength < size then filelength else size
  if offset > filelength then 0
  else if offset + size > filelength then filelength - offset
  else size

/-- `OWQ_parse_input` of a scalar. -/
def owqParseInput (env : MockEnv) (ft : Filetype) (buffer : Bytes) (offset : Nat) : Option Bytes :=
  match ft.format with
  | .directory | .subdir | .unknown => none
  | .ascii | .vascii | .alias | .binary =>
    some (buffer.take (fsCheckLength ft buffer.length offset))
  | format => env.parseValue format buffer

/-- What a write returns. -/
inductive WriteReturn where
  | ok | notSupported | invalidInput
deriving DecidableEq, Repr

/-- `FS_write_post_stats` with `FS_write_real`. -/
def fsWriteMock (env : MockEnv) (pr : MockProperty fts) (a : MockAccess) (buffer : Bytes)
    (s : Host) : WriteReturn × Host :=
  match owqParseInput env pr.ft buffer a.offset with
  | none => (.invalidInput, s)
  | some data =>
    -- "write even unwritable to the cache for testing"
    (if pr.ft.writable then .ok else .notSupported,
      owqCacheAddOn env.toEnv true (pr.query a) data s)

/-! ## Reading -/

/-- `FS_read_owq` on the mock bus. -/
def fsReadOwqMock (env : MockEnv) (q : Query) (s : Host) : Bytes × Host :=
  match owqCacheGetOn env.toEnv true q s with
  | some data => (data, s.wait 2)
  | none =>
    let data := env.read (s.tick + 2) q.extension q.size q.offset
    (data, owqCacheAddOn env.toEnv true q data (s.wait 3))

/-- `FS_r_local` with `adapter_mock`; none is `-ENOTSUP`. -/
def fsReadMock (env : MockEnv) (pr : MockProperty fts) (a : MockAccess) (s : Host) :
    Option Bytes × Host :=
  if ¬ pr.ft.readable then (none, s)
  else
    let q := adjustFileSize (pr.query a)
    if q.size = 0 then (some [], s)
    else if q.ft.change ≠ .static ∧ q.ft.format ≠ .alias then
      match owqCacheGetOn env.toEnv true q s with
      | some data => (some data, s.wait 2)
      | none => (some (env.fake (s.tick + 2) q.size q.offset), s.wait 3)
    else
      let (data, s) := fsReadOwqMock env q s
      (some data, s)

/-! ## Runs -/

inductive MockOp (fts : Filetypes) where
  | write (pr : MockProperty fts) (a : MockAccess) (buffer : Bytes)
  | read (pr : MockProperty fts) (a : MockAccess)
  /-- anything that other parts of the library do with the temporary trees -/
  | elsewhere (temporary : CacheData)

def mockStep (s : Host) : MockEnv × MockOp fts → Host
  | (env, .write pr a buffer) => (fsWriteMock env pr a buffer s).2
  | (env, .read pr a) => (fsReadMock env pr a s).2
  | (_, .elsewhere temporary) => { s with trees := { s.trees with temporary } }

def mockRun (s : Host) (steps : List (MockEnv × MockOp fts)) : Host := steps.foldl mockStep s

/-- The accesses name the same property of the same device. -/
def MockProperty.Same (pr pr' : MockProperty fts) : Prop := pr'.sn = pr.sn ∧ pr'.p = pr.p

instance (pr pr' : MockProperty fts) : Decidable (pr.Same pr') :=
  inferInstanceAs (Decidable (_ ∧ _))

/-- The value that a step writes to the property. -/
def MockProperty.written (pr : MockProperty fts) : MockEnv × MockOp fts → Option Bytes
  | (env, .write pr' a buffer) =>
    if pr.Same pr' then owqParseInput env pr'.ft buffer a.offset else none
  | _ => none

/-- The value of the last write to the property. -/
def MockProperty.lastWritten (pr : MockProperty fts) (steps : List (MockEnv × MockOp fts)) :
    Option Bytes :=
  steps.foldl (fun last step => (pr.written step).or last) none

/-! ## Accesses that go through the cache -/

/-- A write reaches the cache. -/
structure MockAccess.Stores (ft : Filetype) (a : MockAccess) : Prop where
  notAlarm : a.alarmDir = false
  fromStart : storage ft.format = .text → a.offset = 0

/-- A read asks the cache for a value of the given length. -/
structure MockAccess.Asks (ft : Filetype) (length : Nat) (a : MockAccess) : Prop where
  notUncached : a.uncachedDir = false
  notAlarm : a.alarmDir = false
  text : storage ft.format = .text → a.offset = 0 ∧ length ≤ a.size
  value : storage ft.format = .value → 0 < a.size ∧ a.offset < fileLength ft (.elem 0)

/-- The writes to the property reach the cache. A property of format `ft_alias` is read like one
on a real bus, and what its device answers goes into the cache unless something is there. -/
def MockProperty.Stored (pr : MockProperty fts) : MockEnv × MockOp fts → Prop
  | (_, .write pr' a _) => pr.Same pr' → a.Stores pr.ft
  | (_, .read pr' a) => pr.Same pr' → pr.ft.format = .alias →
    a.Asks pr.ft (fileLength pr.ft (.elem 0))
  | (_, .elsewhere _) => True

/-- Every read returns the value of the last write, in every run. -/
def MockProperty.Remembered (pr : MockProperty fts) : Prop :=
  ∀ (steps : List (MockEnv × MockOp fts)) (s : Host) (env : MockEnv) (a : MockAccess)
    (value : Bytes), (∀ step ∈ steps, pr.Stored step) → pr.lastWritten steps = some value →
    a.Asks pr.ft value.length → (fsReadMock env pr a (mockRun s steps)).1 = some value

/-! ## The persistent tree -/

/-- What the persistent tree holds under a key. -/
def Host.stored (s : Host) (tk : TreeKey) : Option Bytes :=
  (s.trees.persistentTree.lookup tk).map TreeNode.data

/-- `Cache_Add_Persistent` -/
def Host.store (s : Host) (tn : TreeNode) : Host := { s with trees := (s.trees.addPersistent tn).2 }

theorem stored_store_self (s : Host) (tn : TreeNode) :
    (s.store tn).stored tn.tk = some tn.data := by
  show ((s.trees.persistentTree.insert tn.tk tn).lookup tn.tk).map TreeNode.data = some tn.data
  rw [AList.lookup_insert]
  rfl

theorem stored_store_of_ne {tk : TreeKey} {tn : TreeNode} (s : Host) (h : tk ≠ tn.tk) :
    (s.store tn).stored tk = s.stored tk :=
  congrArg (Option.map TreeNode.data) (AList.lookup_insert_ne h)

@[simp] theorem stored_wait (s : Host) (n : Nat) (tk : TreeKey) :
    (s.wait n).stored tk = s.stored tk := rfl

theorem getStat_getPersistent (trees : Trees) (dsize : Nat) (duration : Int) (tk : TreeKey) :
    (trees.getPersistent dsize duration tk).getStat =
      ((trees.persistentTree.lookup tk).map TreeNode.data).filter fun data =>
        data.length ≤ dsize := by
  unfold Trees.getPersistent
  cases trees.persistentTree.lookup tk with
  | none => rfl
  | some tn =>
    dsimp only
    by_cases h : tn.data.length ≤ dsize
    · simp [h, GetResult.getStat, Option.filter]
    · simp [h, GetResult.getStat, Option.filter]

variable {pr pr' : MockProperty fts} {a : MockAccess} {env : MockEnv} {s : Host}
    {data value : Bytes}

theorem nameOn_key (pr : MockProperty fts) (a : MockAccess) :
    ((pr.query a).nameOn true).key = pr.key := by
  have hp : pr.ft.p = pr.p := fts.p_filetype pr.p
  simp only [Query.nameOn, Query.name, PropertyName.key, MockProperty.query, MockProperty.key, hp]
  rfl

theorem isThisPersistent_nameOn (q : Query) : (q.nameOn true).isThisPersistent = true := by
  simp [PropertyName.isThisPersistent, Query.nameOn]

theorem cacheAdd_mock (g : Globals) (made now flipTime : Int) (data : Bytes)
    (pr : MockProperty fts) (a : MockAccess) (trees : Trees) :
    (cacheAdd g made now flipTime data ((pr.query a).nameOn true) trees).2 =
      if a.alarmDir then trees else (trees.addPersistent ⟨pr.key, 1 + made, data⟩).2 := by
  unfold cacheAdd
  rw [nameOn_key, isThisPersistent_nameOn]
  have halarm : ((pr.query a).nameOn true).alarmDir = a.alarmDir := rfl
  rw [halarm]
  cases a.alarmDir with
  | true => rfl
  | false => rfl

theorem cacheGet_mock (g : Globals) (now : Int) (dsize : Nat) (trees : Trees)
    (huncached : a.uncachedDir = false) (halarm : a.alarmDir = false) :
    cacheGet g now dsize ((pr.query a).nameOn true) trees =
      ((trees.persistentTree.lookup pr.key).map TreeNode.data).filter
        fun data => data.length ≤ dsize := by
  have hdirs : (((pr.query a).nameOn true).uncachedDir || ((pr.query a).nameOn true).alarmDir) =
      false := by
    show (a.uncachedDir || a.alarmDir) = false
    rw [huncached, halarm]
    rfl
  unfold cacheGet
  rw [hdirs, isThisPersistent_nameOn, nameOn_key, ← getStat_getPersistent trees dsize 1]
  rfl

/-! ## Additions -/

/-- The value goes into the persistent tree, unless the access does not reach the cache. -/
theorem owqCacheAddOn_query (env : MockEnv) (pr : MockProperty fts) (a : MockAccess) (data : Bytes)
    (s : Host) :
    owqCacheAddOn env.toEnv true (pr.query a) data s =
      (if a.alarmDir = true ∨ storage pr.ft.format = .notCached ∨
          storage pr.ft.format = .text ∧ a.offset > 0 then
        s
      else s.store ⟨pr.key, 1 + env.clock s.tick, data⟩).wait 3 := by
  have hft : (pr.query a).ft = pr.ft := rfl
  have hext : (pr.query a).extension = .elem 0 := rfl
  have hoff : (pr.query a).offset = a.offset := rfl
  unfold owqCacheAddOn
  simp only [hft, hext, hoff, cacheAdd_mock, Host.store]
  cases storage pr.ft.format with
  | text =>
    by_cases h : a.offset > 0
    · simp [h]
    · cases a.alarmDir with
      | true => simp [h]
      | false => simp [h]
  | value =>
    cases a.alarmDir with
    | true => simp
    | false => simp
  | notCached => simp

/-- An addition changes the entry of its own property at most. -/
theorem stored_owqCacheAddOn_of_ne {tk : TreeKey} (h : tk ≠ pr.key) :
    (owqCacheAddOn env.toEnv true (pr.query a) data s).stored tk = s.stored tk := by
  rw [owqCacheAddOn_query, stored_wait]
  split
  · rfl
  · exact stored_store_of_ne s h

/-- What a write that reaches the cache leaves there. -/
theorem stored_owqCacheAddOn_self (hcached : storage pr.ft.format ≠ .notCached)
    (h : a.Stores pr.ft) :
    (owqCacheAddOn env.toEnv true (pr.query a) data s).stored pr.key = some data := by
  have hreach : ¬ (a.alarmDir = true ∨ storage pr.ft.format = .notCached ∨
      storage pr.ft.format = .text ∧ a.offset > 0) := by
    rintro (halarm | hnot | ⟨htext, hoff⟩)
    · rw [h.notAlarm] at halarm
      cases halarm
    · exact hcached hnot
    · rw [h.fromStart htext] at hoff
      omega
  rw [owqCacheAddOn_query, stored_wait, if_neg hreach]
  exact stored_store_self s _

/-! ## Look-ups -/

theorem adjustFileSize_mock (pr : MockProperty fts) (a : MockAccess) :
    adjustFileSize (pr.query a) =
      pr.query { a with size := min a.size (fileLength pr.ft (.elem 0) - a.offset) } := by
  have hlength : fullFileLength (pr.query a).ft (pr.query a).extension =
      fileLength pr.ft (.elem 0) := rfl
  have hoff : (pr.query a).offset = a.offset := rfl
  have hsize : (pr.query a).size = a.size := rfl
  unfold adjustFileSize
  simp only [hlength, hoff, hsize]
  by_cases hout : a.offset ≥ fileLength pr.ft (.elem 0)
  · rw [if_pos hout, Nat.sub_eq_zero_of_le hout, Nat.min_zero]
    rfl
  · rw [if_neg hout]
    by_cases hlong : a.size + a.offset > fileLength pr.ft (.elem 0)
    · rw [if_pos hlong, Nat.min_eq_right (by omega)]
      rfl
    · rw [if_neg hlong, Nat.min_eq_left (by omega)]

/-- The values that a property can hold. -/
structure Filetype.Holds (ft : Filetype) (value : Bytes) : Prop where
  text : storage ft.format = .text → value.length ≤ fileLength ft (.elem 0)
  value : storage ft.format = .value → value.length = sizeofValueObject

/-- A read that asks the cache finds what is in the persistent tree. -/
theorem owqCacheGetOn_of_stored (hcached : storage pr.ft.format ≠ .notCached)
    (hsimul : pr.ft.simultaneous = false) (hstored : s.stored pr.key = some value)
    (hvalue : pr.ft.Holds value) (ha : a.Asks pr.ft value.length) :
    owqCacheGetOn env.toEnv true (pr.query a) s = some value := by
  have hft : (pr.query a).ft = pr.ft := rfl
  have hext : (pr.query a).extension = .elem 0 := rfl
  have hoff : (pr.query a).offset = a.offset := rfl
  have hsize : (pr.query a).size = a.size := rfl
  have hdirs : ((pr.query a).uncachedDir || (pr.query a).alarmDir) = false := by
    show (a.uncachedDir || a.alarmDir) = false
    rw [ha.notUncached, ha.notAlarm]
    rfl
  have hchange : ¬ (pr.ft.change = .simultaneousTemperature ∨
      pr.ft.change = .simultaneousVoltage) := by
    simpa [Filetype.simultaneous] using hsimul
  have hget : ∀ dsize, value.length ≤ dsize → cacheGet env.g (env.clock s.tick) dsize
      ((pr.query a).nameOn true) s.trees = some value := by
    intro dsize hd
    rw [cacheGet_mock env.g (env.clock s.tick) dsize s.trees ha.notUncached ha.notAlarm]
    have hlookup : (s.trees.persistentTree.lookup pr.key).map TreeNode.data = some value := hstored
    rw [hlookup]
    simp [Option.filter, hd]
  unfold owqCacheGetOn
  simp only [hdirs, hft, hext, hoff, hsize]
  rw [if_neg Bool.false_ne_true, if_neg hchange]
  cases hstorage : storage pr.ft.format with
  | text =>
    obtain ⟨hzero, hle⟩ := ha.text hstorage
    simp only [hzero]
    exact hget a.size hle
  | value =>
    have hlen := hvalue.value hstorage
    simp only [cacheGetStrict]
    rw [hget sizeofValueObject hlen.le]
    simp [Option.filter, hlen]
  | notCached => exact absurd hstorage hcached

/-! ## Steps -/

theorem MockProperty.Same.ft_eq (h : pr.Same pr') : pr'.ft = pr.ft := by
  unfold MockProperty.ft
  rw [h.2]

theorem MockProperty.Same.key_eq (h : pr.Same pr') : pr'.key = pr.key := by
  unfold MockProperty.key
  rw [h.1, h.2]

theorem key_ne_of_not_same (h : ¬ pr.Same pr') : pr.key ≠ pr'.key := by
  intro hkey
  have hsn : pr.sn = pr'.sn := congrArg TreeKey.sn hkey
  have hp : pr.p = pr'.p := congrArg TreeKey.p hkey
  exact h ⟨hsn.symm, hp.symm⟩

theorem length_take_fsCheckLength_le (ft : Filetype) (buffer : Bytes) (offset : Nat) :
    (buffer.take (fsCheckLength ft buffer.length offset)).length ≤ fileLength ft (.elem 0) := by
  rw [List.length_take]
  unfold fsCheckLength
  dsimp only
  split_ifs
  · omega
  · omega
  · omega
  · omega
  · omega

/-- What is parsed is a value of the property. -/
theorem holds_of_owqParseInput {ft : Filetype} {buffer : Bytes} {offset : Nat}
    (h : owqParseInput env ft buffer offset = some value) : ft.Holds value := by
  unfold owqParseInput at h
  refine ⟨fun htext => ?_, fun hval => ?_⟩
  · have hbuffer : value = buffer.take (fsCheckLength ft buffer.length offset) := by
      cases hformat : ft.format <;> simp [hformat, storage] at htext h ⊢ <;> exact h.symm
    rw [hbuffer]
    exact length_take_fsCheckLength_le ft buffer offset
  · cases hformat : ft.format <;> simp [hformat, storage] at hval h <;>
      exact env.length_parseValue h

theorem holds_of_written {step : MockEnv × MockOp fts} (h : pr.written step = some value) :
    pr.ft.Holds value := by
  obtain ⟨env, op⟩ := step
  cases op with
  | write pr' a buffer =>
    simp only [MockProperty.written] at h
    split_ifs at h with hsame
    rw [← hsame.ft_eq]
    exact holds_of_owqParseInput h
  | read pr' a => cases h
  | elsewhere temporary => cases h

/-- The persistent tree has the value of the last write. -/
def MockProperty.Kept (pr : MockProperty fts) (s : Host) (last : Option Bytes) : Prop :=
  ∀ value, last = some value → s.stored pr.key = some value ∧ pr.ft.Holds value

theorem MockProperty.Kept.of_stored {s' : Host} {last : Option Bytes} (h : pr.Kept s last)
    (hs : s'.stored pr.key = s.stored pr.key) : pr.Kept s' last := by
  intro value hlast
  rw [hs]
  exact h value hlast

theorem MockProperty.Kept.write {last : Option Bytes} {buffer : Bytes}
    (hcached : storage pr.ft.format ≠ .notCached) (h : pr.Kept s last)
    (hstores : pr.Same pr' → a.Stores pr.ft) :
    pr.Kept (fsWriteMock env pr' a buffer s).2
      ((pr.written (env, .write pr' a buffer)).or last) := by
  unfold fsWriteMock MockProperty.written
  dsimp only
  cases hparse : owqParseInput env pr'.ft buffer a.offset with
  | none =>
    simp only [ite_self, Option.none_or]
    exact h
  | some data =>
    dsimp only
    by_cases hsame : pr.Same pr'
    · rw [if_pos hsame, Option.some_or]
      rintro value ⟨⟩
      rw [hsame.ft_eq] at hparse
      have hself : (owqCacheAddOn env.toEnv true (pr'.query a) data s).stored pr'.key = some data :=
        stored_owqCacheAddOn_self (by rw [hsame.ft_eq]; exact hcached)
          (by rw [hsame.ft_eq]; exact hstores hsame)
      rw [hsame.key_eq] at hself
      exact ⟨hself, holds_of_owqParseInput hparse⟩
    · rw [if_neg hsame, Option.none_or]
      exact h.of_stored (stored_owqCacheAddOn_of_ne (key_ne_of_not_same hsame))

/-- A whole buffer asks for every value of the property. -/
theorem MockAccess.Asks.adjusted (hvalue : pr.ft.Holds value) (ha : a.Asks pr.ft value.length) :
    MockAccess.Asks pr.ft value.length
      { a with size := min a.size (fileLength pr.ft (.elem 0) - a.offset) } := by
  refine ⟨ha.notUncached, ha.notAlarm, fun htext => ?_, fun hval => ?_⟩
  · obtain ⟨hzero, hle⟩ := ha.text htext
    have hlen := hvalue.text htext
    exact ⟨hzero, by show _ ≤ min _ _; rw [hzero]; omega⟩
  · obtain ⟨hsize, hoff⟩ := ha.value hval
    exact ⟨by show 0 < min _ _; omega, hoff⟩

theorem MockAccess.Asks.mono {ft : Filetype} {m n : Nat} (h : a.Asks ft n)
    (hle : storage ft.format = .text → m ≤ n) : a.Asks ft m :=
  ⟨h.notUncached, h.notAlarm, fun htext => ⟨(h.text htext).1, (hle htext).trans (h.text htext).2⟩,
    h.value⟩

theorem MockProperty.Kept.read {last : Option Bytes} (hcached : storage pr.ft.format ≠ .notCached)
    (hstatic : pr.ft.change ≠ .static) (hsimul : pr.ft.simultaneous = false) (h : pr.Kept s last)
    (hasks : pr.Same pr' → pr.ft.format = .alias → a.Asks pr.ft (fileLength pr.ft (.elem 0))) :
    pr.Kept (fsReadMock env pr' a s).2 last := by
  unfold fsReadMock
  rw [adjustFileSize_mock]
  dsimp only
  split_ifs with hreadable hzero hmock
  · exact h
  · split
    · exact h.of_stored (stored_wait s 2 _)
    · exact h.of_stored (stored_wait s 3 _)
  · -- the property is read like one on a real bus
    by_cases hsame : pr.Same pr'
    · have halias : pr.ft.format = .alias := by
        by_contra hne
        refine hmock ⟨?_, ?_⟩
        · show pr'.ft.change ≠ .static
          rw [hsame.ft_eq]
          exact hstatic
        · show pr'.ft.format ≠ .alias
          rw [hsame.ft_eq]
          exact hne
      intro value hlast
      obtain ⟨hstored, hvalue⟩ := h value hlast
      have hasks' : a.Asks pr'.ft value.length := by
        rw [hsame.ft_eq]
        exact (hasks hsame halias).mono hvalue.text
      have hvalue' : pr'.ft.Holds value := by
        rw [hsame.ft_eq]
        exact hvalue
      rw [fsReadOwqMock, owqCacheGetOn_of_stored (by rw [hsame.ft_eq]; exact hcached)
        (by rw [hsame.ft_eq]; exact hsimul) (by rw [hsame.key_eq]; exact hstored) hvalue'
        (hasks'.adjusted hvalue')]
      exact ⟨hstored, hvalue⟩
    · refine h.of_stored ?_
      unfold fsReadOwqMock
      split
      · exact stored_wait s 2 _
      · exact stored_owqCacheAddOn_of_ne (key_ne_of_not_same hsame)
  · exact h

/-- One step keeps the value of the last write. -/
theorem MockProperty.Kept.step {last : Option Bytes} {step : MockEnv × MockOp fts}
    (hcached : storage pr.ft.format ≠ .notCached) (hstatic : pr.ft.change ≠ .static)
    (hsimul : pr.ft.simultaneous = false) (h : pr.Kept s last) (hstep : pr.Stored step) :
    pr.Kept (mockStep s step) ((pr.written step).or last) := by
  obtain ⟨env, op⟩ := step
  cases op with
  | write pr' a buffer => exact h.write hcached hstep
  | read pr' a => exact h.read hcached hstatic hsimul hstep
  | elsewhere temporary => exact h.of_stored rfl

/-- A run keeps it. -/
theorem MockProperty.Kept.run (hcached : storage pr.ft.format ≠ .notCached)
    (hstatic : pr.ft.change ≠ .static) (hsimul : pr.ft.simultaneous = false)
    (steps : List (MockEnv × MockOp fts)) (hsteps : ∀ step ∈ steps, pr.Stored step) (s : Host) :
    pr.Kept (mockRun s steps) (pr.lastWritten steps) := by
  unfold mockRun MockProperty.lastWritten
  have hinit : pr.Kept s none := fun _ hnone => nomatch hnone
  generalize (none : Option Bytes) = last at hinit ⊢
  induction steps generalizing s last with
  | nil => exact hinit
  | cons step rest ih =>
    have hfirst := hinit.step hcached hstatic hsimul (hsteps step (List.mem_cons_self ..))
    exact ih (fun st hst => hsteps st (List.mem_cons_of_mem _ hst)) _ _ hfirst

/-! ## Reads after a run -/

/-- A read that asks the cache gets the value. -/
theorem fsReadMock_of_kept (hcached : storage pr.ft.format ≠ .notCached)
    (hreadable : pr.ft.readable = true) (hsimul : pr.ft.simultaneous = false)
    (h : pr.Kept s (some value)) (ha : a.Asks pr.ft value.length) :
    (fsReadMock env pr a s).1 = some value := by
  obtain ⟨hstored, hvalue⟩ := h value rfl
  have hget := @owqCacheGetOn_of_stored _ _ _ env _ _ hcached hsimul hstored hvalue
    (ha.adjusted hvalue)
  unfold fsReadMock
  rw [adjustFileSize_mock, if_neg (not_not.mpr hreadable)]
  dsimp only
  split_ifs with hzero hmock
  · -- an empty buffer: only the empty text is asked for with it
    have hlen : value.length = 0 := by
      cases hstorage : storage pr.ft.format with
      | text =>
        have hle := ((ha.adjusted hvalue).text hstorage).2
        exact Nat.le_zero.mp (hle.trans hzero.le)
      | value =>
        have hpos := ((ha.adjusted hvalue).value hstorage).1
        exact absurd hzero hpos.ne'
      | notCached => exact absurd hstorage hcached
    rw [List.length_eq_zero_iff.mp hlen]
  · rw [hget]
  · rw [fsReadOwqMock, hget]

theorem holds_of_lastWritten {steps : List (MockEnv × MockOp fts)}
    (h : pr.lastWritten steps = some value) : pr.ft.Holds value := by
  induction steps using List.reverseRecOn with
  | nil => cases h
  | append_singleton steps step ih =>
    rw [MockProperty.lastWritten, List.foldl_append] at h
    rcases Option.or_eq_some_iff.mp h with hstep | ⟨-, hlast⟩
    · exact holds_of_written hstep
    · exact ih hlast

theorem remembered_of_not_simultaneous (hcached : storage pr.ft.format ≠ .notCached)
    (hstatic : pr.ft.change ≠ .static) (hreadable : pr.ft.readable = true)
    (hsimul : pr.ft.simultaneous = false) : pr.Remembered := by
  intro steps s env a value hsteps hlast ha
  have hkept := MockProperty.Kept.run hcached hstatic hsimul steps hsteps s
  rw [hlast] at hkept
  exact fsReadMock_of_kept hcached hreadable hsimul hkept ha

/-- A property without room for a character holds the empty text only. -/
theorem remembered_of_fileLength_eq_zero (hcached : storage pr.ft.format ≠ .notCached)
    (hreadable : pr.ft.readable = true) (hlength : fileLength pr.ft (.elem 0) = 0) :
    pr.Remembered := by
  intro steps s env a value hsteps hlast ha
  have hvalue := holds_of_lastWritten hlast
  have hempty : value = [] := by
    cases hstorage : storage pr.ft.format with
    | text =>
      have hle := hvalue.text hstorage
      exact List.length_eq_zero_iff.mp (Nat.le_zero.mp (hle.trans hlength.le))
    | value =>
      have hoff := (ha.value hstorage).2
      omega
    | notCached => exact absurd hstorage hcached
  unfold fsReadMock
  rw [adjustFileSize_mock, if_neg (not_not.mpr hreadable), hlength, hempty]
  simp [MockProperty.query]

/-! ## Simultaneous conversions -/

/-- `Cache_Get_Simultaneous` does not look in the persistent tree. -/
theorem owqCacheGetOn_of_simultaneous (hsimul : pr.ft.simultaneous = true)
    (hempty : s.trees.temporary.entry pr.key = none) :
    owqCacheGetOn env.toEnv true (pr.query a) s = none := by
  have hchange : pr.ft.change = .simultaneousTemperature ∨ pr.ft.change = .simultaneousVoltage := by
    simpa [Filetype.simultaneous] using hsimul
  have hft : (pr.query a).ft = pr.ft := rfl
  have hkey : (pr.query a).name.key = pr.key := nameOn_key pr a
  have hfind : ∀ now duration, findForGet now duration pr.key s.trees.temporary = none := by
    intro now duration
    cases hget : findForGet now duration pr.key s.trees.temporary with
    | none => rfl
    | some tn =>
      rw [entry_of_findForGet hget] at hempty
      cases hempty
  unfold owqCacheGetOn
  dsimp only
  rw [hft, if_pos hchange]
  split_ifs with hdirs
  · rfl
  · unfold cacheGetSimultaneous
    dsimp only
    split_ifs with hduration
    · rfl
    · rw [hkey, cacheGetCommon, hfind]
      rfl

/-- Nothing is in the temporary trees, and every answer that is not found is one byte. -/
def unrelatedEnv : MockEnv where
  g := ⟨⟨15, 300, 60, 120⟩, 0⟩
  simultaneousTag := ⟨0x3000, .volatile⟩
  clock := fun _ => 0
  read := fun _ _ _ _ => [1]
  fake := fun _ _ _ => [1]
  parseValue := fun _ _ => some (List.replicate sizeofValueObject 0)
  length_parseValue := by
    rintro - - value ⟨⟩
    rfl

theorem owqParseInput_unrelatedEnv {ft : Filetype} (hcached : storage ft.format ≠ .notCached) :
    ∃ value, owqParseInput unrelatedEnv ft [] 0 = some value ∧ value ≠ [1] := by
  cases hstorage : storage ft.format with
  | text =>
    refine ⟨[], ?_, by decide⟩
    unfold owqParseInput
    cases hformat : ft.format <;> simp [hformat, storage] at hstorage ⊢
  | value =>
    refine ⟨List.replicate sizeofValueObject 0, ?_, by decide⟩
    unfold owqParseInput
    cases hformat : ft.format <;> simp [hformat, storage] at hstorage ⊢ <;> rfl
  | notCached => exact absurd hstorage hcached

theorem temporary_owqCacheAddOn :
    (owqCacheAddOn env.toEnv true (pr.query a) data s).trees.temporary = s.trees.temporary := by
  rw [owqCacheAddOn_query]
  split
  · rfl
  · rfl

/-- Nothing is found, so the answer is made up or comes from the device. -/
theorem fsReadMock_unrelatedEnv {size : Nat} (hreadable : pr.ft.readable = true)
    (hsimul : pr.ft.simultaneous = true) (hlength : fileLength pr.ft (.elem 0) ≠ 0)
    (hempty : s.trees.temporary.entry pr.key = none) :
    (fsReadMock unrelatedEnv pr ⟨fileLength pr.ft (.elem 0) + size, 0, false, false⟩ s).1 = some
    [1] := by
  unfold fsReadMock
  rw [adjustFileSize_mock, if_neg (not_not.mpr hreadable)]
  dsimp only
  rw [fsReadOwqMock, owqCacheGetOn_of_simultaneous hsimul hempty]
  split_ifs with hzero
  · have hsize : min (fileLength pr.ft (.elem 0) + size) (fileLength pr.ft (.elem 0) - 0) = 0 :=
      hzero
    omega
  · rfl
  · rfl

theorem not_remembered_of_simultaneous (hcached : storage pr.ft.format ≠ .notCached)
    (hreadable : pr.ft.readable = true) (hsimul : pr.ft.simultaneous = true)
    (hlength : fileLength pr.ft (.elem 0) ≠ 0) : ¬ pr.Remembered := by
  intro h
  obtain ⟨value, hparse, hne⟩ := owqParseInput_unrelatedEnv hcached
  have hwritten : pr.lastWritten [(unrelatedEnv, .write pr ⟨0, 0, false, false⟩ [])] =
      some value := by
    have hsame : pr.Same pr := ⟨rfl, rfl⟩
    simp [MockProperty.lastWritten, MockProperty.written, hsame, hparse]
  have hread :=
    h [(unrelatedEnv, .write pr ⟨0, 0, false, false⟩ [])] { trees := { temporary := {} } }
    unrelatedEnv ⟨fileLength pr.ft (.elem 0) + value.length, 0, false, false⟩ value
    (by
      rintro step hstep
      rw [List.mem_singleton.mp hstep]
      exact fun _ => ⟨rfl, fun _ => rfl⟩)
    hwritten
    ⟨rfl, rfl, fun _ => ⟨rfl, Nat.le_add_left ..⟩, fun _ =>
      ⟨Nat.add_pos_left (Nat.pos_of_ne_zero hlength) _, Nat.pos_of_ne_zero hlength⟩⟩
  rw [fsReadMock_unrelatedEnv hreadable hsimul hlength (by
    rw [mockRun, List.foldl_cons, List.foldl_nil, mockStep, fsWriteMock, hparse]
    dsimp only
    rw [temporary_owqCacheAddOn]
    rfl)] at hread
  exact hne (Option.some.inj hread).symm

/-- What is written to a property is read again, unless it belongs to a simultaneous conversion. -/
theorem remembered_iff (pr : MockProperty fts) (hcached : storage pr.ft.format ≠ .notCached)
    (hstatic : pr.ft.change ≠ .static) (hreadable : pr.ft.readable = true) :
    pr.Remembered ↔ pr.ft.simultaneous = false ∨ fileLength pr.ft (.elem 0) = 0 := by
  constructor
  · intro h
    by_contra hneither
    rw [not_or, Bool.not_eq_false] at hneither
    exact not_remembered_of_simultaneous hcached hreadable hneither.1 hneither.2 h
  · rintro (hsimul | hlength)
    · exact remembered_of_not_simultaneous hcached hstatic hreadable hsimul
    · exact remembered_of_fileLength_eq_zero hcached hreadable hlength

end

/-! ## Two temperatures -/

/-- Two temperatures: `latesttemp` with a change class of its own, `temperature` with that of a
simultaneous conversion. -/
def sampleFiletypes : Filetypes where
  filetype p :=
    { p, suglen := 12, ag := none, format := .temperature, writable := false,
      change := if p = 0x1000 then .simultaneousTemperature else .volatile }
  p_filetype _ := rfl

def temperatureAt (p : BitVec 64) : MockProperty sampleFiletypes :=
  ⟨.zero, p, ⟨.zero, [], 0, false⟩, rfl⟩

/-- What was written to `latesttemp` is read. -/
theorem remembered_iff_latesttemp : (temperatureAt 0x2000).Remembered :=
  (remembered_iff (temperatureAt 0x2000) (by decide) (by decide) rfl).2 (Or.inl (by decide))

/-- `"21.5"` is parsed to the double 21.5, and 50.0 is made up. -/
def sampleMockEnv : MockEnv where
  g := ⟨⟨15, 300, 60, 120⟩, 0⟩
  simultaneousTag := ⟨0x3000, .volatile⟩
  clock := fun _ => 1000
  read := fun _ _ _ _ => []
  fake := fun _ _ _ => [0, 0, 0, 0, 0, 0, 0x49, 0x40]
  parseValue := fun _ buffer =>
    if buffer = [0x32, 0x31, 0x2E, 0x35] then some [0, 0, 0, 0, 0, 0x80, 0x35, 0x40] else none
  length_parseValue := by
    intro _ buffer value h
    split_ifs at h
    rw [← Option.some.inj h]
    rfl

def sampleWrite : List (MockEnv × MockOp sampleFiletypes) :=
  [(sampleMockEnv, .write (temperatureAt 0x1000) ⟨4, 0, false, false⟩ [0x32, 0x31, 0x2E, 0x35])]

/-- 21.5 is written to `temperature` and 50.0 is read. -/
theorem temperature_forgotten :
    (temperatureAt 0x1000).lastWritten sampleWrite = some [0, 0, 0, 0, 0, 0x80, 0x35, 0x40] ∧
    (fsReadMock sampleMockEnv (temperatureAt 0x1000) ⟨12, 0, false, false⟩
        (mockRun { trees := { temporary := cacheOpen sampleMockEnv.g.timeouts 1000 } }
          sampleWrite)).1 ≠
      some [0, 0, 0, 0, 0, 0x80, 0x35, 0x40] := by
  decide

end Owfs.Property
