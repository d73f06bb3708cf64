import Owfs.Cache.Store

/-!
# What is cached, and how

The operations of `ow_cache.c` that the rest of the library calls. They differ in the key they
make (`LoadTK`), in the timeout they look at, and in the tree they use: most entries go into the
temporary trees, those that never expire into the persistent tree.

The part of `struct parsedname` an operation reads is its argument here. `malloc` succeeds.
-/

namespace Owfs.Cache

open Infra Owfs.Device

/-- `struct cache_data` -/
structure Trees where
  temporary : CacheData
  persistentTree : Tree := ∅

/-- The part of `Globals` that the cache reads. -/
structure Globals where
  timeouts : Timeouts
  cacheSize : Nat
deriving DecidableEq, Repr

/-- The addresses `Directory_Marker`, `Device_Marker` and `Alias_Marker`. -/
structure Markers where
  directoryMarker : BitVec 64
  deviceMarker : BitVec 64
  aliasMarker : BitVec 64

/-! ## Names -/

/-- A property: `p` is the address of `selected_filetype`, and `mock` tells a bus of type
`bus_mock`. -/
structure PropertyName where
  sn : SerialNumber
  p : BitVec 64
  extension : BitVec 32
  change : FcChange
  mock : Bool := false
  uncachedDir : Bool := false
  alarmDir : Bool := false
deriving DecidableEq

/-- `struct internal_prop` -/
structure InternalProp where
  name : BitVec 64
  change : FcChange
deriving DecidableEq

/-- `struct ds2409_hubs` -/
structure Ds2409Hub where
  sn : SerialNumber
  branch : Byte
deriving DecidableEq

/-- A directory on a bus, or a device in it: `bp` is the path of couplers that leads there, and
`index` the number of the bus. -/
structure DirectoryName where
  sn : SerialNumber
  bp : List Ds2409Hub
  index : BitVec 32
  /-- the bus type is one whose directories are not cached -/
  virtualBus : Bool := false
deriving DecidableEq

/-- The root directory of a bus. -/
def rootDirectory : DirectoryName := ⟨.zero, [], 0, false⟩

/-- `FS_LoadDirectoryOnly` -/
def DirectoryName.loadDirectoryOnly (pn : DirectoryName) : DirectoryName :=
  match pn.bp.getLast? with
  | none => { pn with sn := .zero }
  | some hub =>
    -- "Stuff the branch into the checksum slot"
    { pn with
      sn := ⟨hub.sn.bytes.take 7 ++ [hub.branch], by simp [hub.sn.length_bytes]⟩
      bp := pn.bp.dropLast }

/-- `EXTENSION_INTERNAL` -/
def extensionInternal : BitVec 32 := BitVec.ofInt 32 (-2)

/-- `IsThisPersistent` -/
def PropertyName.isThisPersistent (pn : PropertyName) : Bool := pn.change = .persistent || pn.mock

def PropertyName.key (pn : PropertyName) : TreeKey := ⟨pn.sn, pn.p, pn.extension⟩

/-! ## The trees -/

section

variable (g : Globals) (markers : Markers)

/-- `Cache_Add_Common` -/
def Trees.addCommon (now flipTime : Int) (tn : TreeNode) (cache : Trees) : GoodOrBad × Trees :=
  let added := cacheAddCommon g.cacheSize now flipTime tn cache.temporary
  (added.1, { cache with temporary := added.2 })

/-- `Cache_Add_Persistent` -/
def Trees.addPersistent (tn : TreeNode) (cache : Trees) : GoodOrBad × Trees :=
  (.good, { cache with persistentTree := cache.persistentTree.insert tn.tk tn })

/-- `Cache_Del_Common` -/
def Trees.delCommon (now : Int) (tk : TreeKey) (cache : Trees) : Trees :=
  { cache with temporary := (cacheDelCommon now tk cache.temporary).2 }

/-- `Cache_Del_Persistent` -/
def Trees.delPersistent (tk : TreeKey) (cache : Trees) : Trees :=
  { cache with persistentTree := cache.persistentTree.erase tk }

/-- `Cache_Get_Persistent` -/
def Trees.getPersistent (dsize : Nat) (duration : Int) (tk : TreeKey) (cache : Trees) : GetResult :=
  match cache.persistentTree.lookup tk with
  | none => ⟨.notFound, [], dsize, duration⟩
  | some tn =>
    if dsize ≥ tn.data.length then ⟨.ok, tn.data, tn.data.length, duration⟩
    else ⟨.sizeMismatch, [], dsize, duration⟩

/-- `Cache_Get_Common_Dir` -/
def Trees.getCommonDir (now duration : Int) (tk : TreeKey) (cache : Trees) : GetResult :=
  match findForGet now duration tk cache.temporary with
  | none => ⟨.notFound, [], 0, duration⟩
  | some tn =>
    let left := tn.expires - now
    if left ≥ 0 then ⟨.ok, tn.data, tn.data.length, left⟩ else ⟨.expired, [], 0, left⟩

/-- `Get_Stat`: the data of a look-up that was successful. -/
def GetResult.getStat (res : GetResult) : Option Bytes :=
  if res.ret = .ok then some res.data else none

/-- `Cache_Clear` -/
def Trees.clear (now now' : Int) (cache : Trees) : Trees :=
  { cache with temporary := flipTree now' (flipTree now cache.temporary) }

/-! ## Properties -/

/-- `Cache_Add` -/
def cacheAdd (made now flipTime : Int) (data : Bytes) (pn : PropertyName) (cache : Trees) :
    GoodOrBad × Trees :=
  if pn.alarmDir then (.good, cache)
  else if pn.isThisPersistent then cache.addPersistent ⟨pn.key, 1 + made, data⟩
  else
    let duration := timeOut g.timeouts pn.change
    if duration ≤ 0 then (.good, cache)
    else cache.addCommon g now flipTime ⟨pn.key, duration + made, data⟩

/-- `Cache_Get` -/
def cacheGet (now : Int) (dsize : Nat) (pn : PropertyName) (cache : Trees) : Option Bytes :=
  if pn.uncachedDir || pn.alarmDir then none
  else if pn.isThisPersistent then (cache.getPersistent dsize 1 pn.key).getStat
  else
    let duration := timeOut g.timeouts pn.change
    if duration ≤ 0 then none
    else (cacheGetCommon now dsize duration pn.key cache.temporary).getStat

/-- `Cache_Del` -/
def cacheDel (now : Int) (pn : PropertyName) (cache : Trees) : Trees :=
  if timeOut g.timeouts pn.change ≤ 0 then cache
  else if pn.change = .persistent then cache.delPersistent pn.key
  else cache.delCommon now pn.key

/-! ## Directories -/

def DirectoryName.key (pn : DirectoryName) : TreeKey :=
  ⟨pn.loadDirectoryOnly.sn, markers.directoryMarker, pn.index⟩

/-- `Cache_Del_Dir` -/
def cacheDelDir (now : Int) (pn : DirectoryName) (cache : Trees) : Trees :=
  cache.delCommon now (pn.key markers)

/-- `Cache_Add_Dir`; `snlist` is the content of the dirblob. -/
def cacheAddDir (made now flipTime : Int) (snlist : Bytes) (pn : DirectoryName) (cache : Trees) :
    GoodOrBad × Trees :=
  let duration := timeOut g.timeouts .directory
  if pn.virtualBus then (.good, cache)
  else if duration ≤ 0 then (.good, cache)
  -- "only cache long directories"
  else if snlist.length < 8 then (.good, cacheDelDir markers made pn cache)
  else cache.addCommon g now flipTime ⟨pn.key markers, duration + made, snlist⟩

/-- `Cache_Get_Dir` -/
def cacheGetDir (now : Int) (pn : DirectoryName) (cache : Trees) : Option Bytes :=
  let duration := timeOut g.timeouts .directory
  if duration ≤ 0 then none else (cache.getCommonDir now duration (pn.key markers)).getStat

/-! ## Devices -/

def deviceKey (sn : SerialNumber) : TreeKey := ⟨sn, markers.deviceMarker, 0⟩

/-- `Cache_Add_Device`; `busNr` has the bytes of the `int`. -/
def cacheAddDevice (made now flipTime : Int) (busNr : Bytes) (sn : SerialNumber) (cache : Trees) :
    GoodOrBad × Trees :=
  let duration := timeOut g.timeouts .presence
  if duration ≤ 0 then (.good, cache)
  else if sn.family = 0 then (.good, cache)
  else cache.addCommon g now flipTime ⟨deviceKey markers sn, duration + made, busNr⟩

/-- `Cache_Get_Device` -/
def cacheGetDevice (now : Int) (sn : SerialNumber) (cache : Trees) : Option Bytes :=
  let duration := timeOut g.timeouts .presence
  if duration ≤ 0 then none
  else (cacheGetCommon now 4 duration (deviceKey markers sn) cache.temporary).getStat

/-- `Cache_Del_Device` -/
def cacheDelDevice (now : Int) (sn : SerialNumber) (cache : Trees) : Trees :=
  if timeOut g.timeouts .presence ≤ 0 then cache else cache.delCommon now (deviceKey markers sn)

/-! ## Data of a slave -/

/-- `Cache_Add_SlaveSpecific` -/
def cacheAddSlaveSpecific (made now flipTime : Int) (data : Bytes) (ip : InternalProp)
    (sn : SerialNumber) (cache : Trees) : GoodOrBad × Trees :=
  let duration := timeOut g.timeouts ip.change
  if duration ≤ 0 then (.good, cache)
  else
    let tn : TreeNode := ⟨⟨sn, ip.name, extensionInternal⟩, duration + made, data⟩
    if ip.change = .persistent then cache.addPersistent tn else cache.addCommon g now flipTime tn

/-- `Cache_Get_Internal` -/
def cacheGetInternal (now : Int) (dsize : Nat) (ip : InternalProp) (sn : SerialNumber)
    (cache : Trees) : Option Bytes :=
  let duration := timeOut g.timeouts ip.change
  let tk : TreeKey := ⟨sn, ip.name, extensionInternal⟩
  if duration ≤ 0 then none
  else if ip.change = .persistent then (cache.getPersistent dsize duration tk).getStat
  else (cacheGetCommon now dsize duration tk cache.temporary).getStat

/-- `Cache_Get_SlaveSpecific`: "doesn't allow play in data size" -/
def cacheGetSlaveSpecific (now : Int) (dsize : Nat) (ip : InternalProp) (sn : SerialNumber)
    (cache : Trees) : Option Bytes :=
  (cacheGetInternal g now dsize ip sn cache).filter fun data => data.length = dsize

/-- `Cache_Del_Internal`: the extension is not that of `Cache_Add_SlaveSpecific`. -/
def cacheDelInternal (now : Int) (ip : InternalProp) (sn : SerialNumber) (cache : Trees) : Trees :=
  let tk : TreeKey := ⟨sn, ip.name, 0⟩
  if timeOut g.timeouts ip.change ≤ 0 then cache
  else if ip.change = .persistent then cache.delPersistent tk
  else cache.delCommon now tk

/-! ## Simultaneous conversions -/

/-- `Cache_Add_Simul`: "pn already points to directory" -/
def cacheAddSimul (made now flipTime : Int) (ip : InternalProp) (pn : DirectoryName)
    (cache : Trees) : GoodOrBad × Trees :=
  let duration := timeOut g.timeouts ip.change
  if duration ≤ 0 then (.good, cache)
  else cache.addCommon g now flipTime ⟨⟨pn.sn, ip.name, 0⟩, duration + made, []⟩

/-- `Cache_Get_Simul_Time`: the time since the conversion. -/
def cacheGetSimulTime (now : Int) (ip : InternalProp) (pn : DirectoryName) (cache : Trees) :
    Option Int :=
  let duration := timeOut g.timeouts ip.change
  if duration ≤ 0 then none
  else
    let res := cacheGetCommon now 0 duration ⟨pn.loadDirectoryOnly.sn, ip.name, 0⟩ cache.temporary
    res.getStat.map fun _ => timeOut g.timeouts ip.change - res.duration

/-- `Cache_Del_Simul`: unlike `Cache_Add_Simul` it looks for the directory of `pn`. -/
def cacheDelSimul (now : Int) (ip : InternalProp) (pn : DirectoryName) (cache : Trees) : Trees :=
  cache.delCommon now ⟨pn.loadDirectoryOnly.sn, ip.name, 0⟩

/-! ## Aliases -/

def aliasKey (sn : SerialNumber) : TreeKey := ⟨sn, markers.aliasMarker, 0⟩

/-- `Cache_Add_Alias`, without the tree from names to serial numbers. -/
def cacheAddAlias (made : Int) (name : Bytes) (sn : SerialNumber) (cache : Trees) :
    GoodOrBad × Trees :=
  if name.length = 0 then (.good, cache)
  else cache.addPersistent ⟨aliasKey markers sn, made, name⟩

/-- `Cache_Get_Alias` -/
def cacheGetAlias (sn : SerialNumber) (cache : Trees) : Option Bytes :=
  (cache.persistentTree.lookup (aliasKey markers sn)).map TreeNode.data

/-- `Cache_Del_Alias`, without the tree from names to serial numbers. -/
def cacheDelAlias (sn : SerialNumber) (cache : Trees) : Trees :=
  match cacheGetAlias markers sn cache with
  | none => cache
  | some _ => cache.delPersistent (aliasKey markers sn)

end

/-! ## Settings -/

/-- The files of `/settings/timeout` that the cache depends on. -/
inductive TimeoutSetting where
  | volatile | stable | directory | presence
deriving DecidableEq, Repr

def Timeouts.get (timeouts : Timeouts) : TimeoutSetting → Int
  | .volatile => timeouts.volatile
  | .stable => timeouts.stable
  | .directory => timeouts.directory
  | .presence => timeouts.presence

def Timeouts.set (timeouts : Timeouts) (which : TimeoutSetting) (value : Int) : Timeouts :=
  match which with
  | .volatile => { timeouts with volatile := value }
  | .stable => { timeouts with stable := value }
  | .directory => { timeouts with directory := value }
  | .presence => { timeouts with presence := value }

/-- `FS_w_timeout`. The timeouts are of type `int`, but are read and written as `UINT` here. -/
def fsWTimeout (now now' : Int) (which : TimeoutSetting) (value : BitVec 32) (g : Globals)
    (cache : Trees) : Globals × Trees :=
  let previous := BitVec.ofInt 32 (g.timeouts.get which)
  let g := { g with timeouts := g.timeouts.set which value.toInt }
  (g, if previous > value then cache.clear now now' else cache)

/-! ## The entry of a key -/

/-- The entry of a key, in whichever temporary tree it is. -/
def CacheData.entry (cache : CacheData) (tk : TreeKey) : Option TreeNode :=
  (cache.temporaryTreeNew.lookup tk).or (cache.temporaryTreeOld.lookup tk)

section

variable {cache : CacheData} {tk tk' : TreeKey} {tn : TreeNode} {now : Int}

theorem entry_of_findForGet {duration : Int} (h : findForGet now duration tk cache = some tn) :
    cache.entry tk = some tn := by
  unfold findForGet at h
  unfold CacheData.entry
  split at h
  · next hnew => rw [hnew, Option.some_or, h]
  · next hnew =>
    split at h
    · rw [hnew, Option.none_or, h]
    · cases h

/-- A flip forgets the entries of the old tree. -/
theorem entry_of_flipTree (h : (flipTree now cache).entry tk = some tn) :
    cache.entry tk = some tn := by
  have hnew : cache.temporaryTreeNew.lookup tk = some tn := by
    simpa [CacheData.entry, flipTree] using h
  rw [CacheData.entry, hnew, Option.some_or]

theorem entry_clear (now now' : Int) (cache : CacheData) (tk : TreeKey) :
    (flipTree now' (flipTree now cache)).entry tk = none := by
  simp [CacheData.entry, flipTree]

/-- An addition changes no other entry, but may forget it. -/
theorem entry_of_cacheAddCommon {cacheSize : Nat} {flipTime : Int} {added : TreeNode}
    (h : (cacheAddCommon cacheSize now flipTime added cache).2.entry tk = some tn) :
    cache.entry tk = some tn ∨ (tk = added.tk ∧ tn = added) := by
  have hbase :
      (if cache.timeToKill < now then flipTree flipTime cache else cache).entry tk = some tn →
        cache.entry tk = some tn := by
    intro hb
    split at hb
    · exact entry_of_flipTree hb
    · exact hb
  unfold cacheAddCommon at h
  generalize (if cache.timeToKill < now then flipTree flipTime cache else cache) = base at h hbase
  by_cases hfull : cacheSize ≠ 0 ∧ base.oldRamSize + base.newRamSize > cacheSize
  · rw [if_pos hfull] at h
    exact Or.inl (hbase h)
  · rw [if_neg hfull] at h
    by_cases hk : tk = added.tk
    · rw [CacheData.entry, hk, AList.lookup_insert, Option.some_or, Option.some.injEq] at h
      exact Or.inr ⟨hk, h.symm⟩
    · rw [CacheData.entry, AList.lookup_insert_ne hk] at h
      exact Or.inl (hbase h)

/-- A deletion lets an entry expire, or leaves it. -/
theorem entry_of_cacheDelCommon (h : (cacheDelCommon now tk' cache).2.entry tk = some tn) :
    cache.entry tk = some tn ∨ tn.expires = now - 1 := by
  unfold cacheDelCommon at h
  split at h
  · next found hnew =>
    by_cases hk : tk = tk'
    · subst hk
      simp only [CacheData.entry, AList.lookup_insert, Option.some_or, Option.some.injEq] at h
      rw [← h]
      exact Or.inr rfl
    · rw [CacheData.entry, AList.lookup_insert_ne hk] at h
      exact Or.inl h
  · next hnew =>
    split at h
    · split at h
      · next found hold =>
        by_cases hk : tk = tk'
        · subst hk
          simp only [CacheData.entry, hnew, AList.lookup_insert, Option.none_or,
            Option.some.injEq] at h
          rw [← h]
          exact Or.inr rfl
        · rw [CacheData.entry, AList.lookup_insert_ne hk] at h
          exact Or.inl h
      · exact Or.inl h
    · exact Or.inl h

/-- A deletion that looks at both trees, or finds the entry in the new one. -/
theorem expires_of_cacheDelCommon
    (hreach : (cache.temporaryTreeNew.lookup tk).isSome = true ∨ cache.timeToKill > now)
    (h : (cacheDelCommon now tk cache).2.entry tk = some tn) : tn.expires = now - 1 := by
  unfold cacheDelCommon at h
  split at h
  · simp only [CacheData.entry, AList.lookup_insert, Option.some_or, Option.some.injEq] at h
    rw [← h]
  · next hnew =>
    rw [hnew] at hreach
    rw [if_pos (hreach.resolve_left nofun)] at h
    split at h
    · simp only [CacheData.entry, hnew, AList.lookup_insert, Option.none_or,
        Option.some.injEq] at h
      rw [← h]
    · next hold =>
      rw [CacheData.entry, hnew, hold] at h
      cases h

end

end Owfs.Cache
