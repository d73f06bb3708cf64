import Owfs.Device.SerialNumber

/-!
# The cache

The two-generation cache of `ow_cache.c`. Entries go into the new tree. Once the old tree has
outlived `retired_lifespan`, the next addition moves the new tree into its place and starts an
empty one (`FlipTree`).

The trees of `tsearch` are finite maps ordered by `tree_compare`, that is by the bytes of the
key. `NOW_TIME` is read anew wherever the code reads it, so each operation takes its readings as
arguments. The statistics are left out.
-/

namespace Owfs.Cache

open Infra Owfs.Device

/-! ## Properties -/

/-- `enum ft_format` -/
inductive FtFormat where
  | unknown | directory | subdir | integer | unsigned | float | alias | ascii | vascii | binary
  | yesno | date | bitfield | temperature | tempgap | pressure
deriving DecidableEq, Repr

/-- `enum ag_combined` -/
inductive AgCombined where
  | separate | aggregate | mixed | sparse
deriving DecidableEq, Repr

/-- `struct aggregate` -/
structure Aggregate where
  elements : Nat
  combined : AgCombined
deriving DecidableEq, Repr

/-- `enum fc_change`: how a property changes. -/
inductive FcChange where
  | static | stable | readStable | volatile | simultaneousTemperature | simultaneousVoltage
  | uncached | second | statistic | persistent | directory | presence | link | page | subdir
deriving DecidableEq, Repr

/-! ## Timeouts -/

/-- The timeouts of `Globals`, in seconds. -/
structure Timeouts where
  volatile : Int
  stable : Int
  directory : Int
  presence : Int
deriving DecidableEq, Repr

/-- `TimeOut` -/
def timeOut (timeouts : Timeouts) : FcChange → Int
  | .second | .persistent => 1
  | .volatile | .simultaneousTemperature | .simultaneousVoltage => timeouts.volatile
  | .stable | .readStable => timeouts.stable
  | .presence => timeouts.presence
  | .directory => timeouts.directory
  | _ => 0

/-! ## Trees -/

/-- `struct tree_key` -/
structure TreeKey where
  sn : SerialNumber
  p : BitVec 64
  extension : BitVec 32
deriving DecidableEq

/-- `struct tree_node` with the data behind it; `dsize` is the length of the data. -/
structure TreeNode where
  tk : TreeKey
  expires : Int
  data : Bytes

/-- A tree of `tsearch`. -/
abbrev Tree := AList (fun _ : TreeKey => TreeNode)

/-- `struct alias_tree_node` of the temporary trees: the bus an alias was seen on. -/
structure AliasTreeNode where
  name : Bytes
  expires : Int
  bus : Int

abbrev AliasTree := AList (fun _ : Bytes => AliasTreeNode)

/-- `struct cache_data`, the temporary part. -/
structure CacheData where
  temporaryTreeNew : Tree := ∅
  temporaryTreeOld : Tree := ∅
  temporaryAliasTreeNew : AliasTree := ∅
  temporaryAliasTreeOld : AliasTree := ∅
  oldRamSize : Nat := 0
  newRamSize : Nat := 0
  timeRetired : Int := 0
  timeToKill : Int := 0
  retiredLifespan : Int := 0
  added : Nat := 0

/-! ## Operations -/

/-- `FlipTree` -/
def flipTree (now : Int) (cache : CacheData) : CacheData :=
  { cache with
    temporaryTreeOld := cache.temporaryTreeNew
    oldRamSize := cache.newRamSize
    temporaryAliasTreeOld := cache.temporaryAliasTreeNew
    temporaryTreeNew := ∅
    temporaryAliasTreeNew := ∅
    newRamSize := 0
    added := 0
    timeRetired := now
    timeToKill := now + cache.retiredLifespan }

/-- `Cache_Open` -/
def cacheOpen (timeouts : Timeouts) (now : Int) : CacheData :=
  let lifespan := timeOut timeouts .stable
  -- "1 hour tops"
  flipTree now { retiredLifespan := if lifespan > 3600 then 3600 else lifespan }

/-- `GOOD_OR_BAD` -/
inductive GoodOrBad where
  | good | bad
deriving DecidableEq, Repr

/-- `sizeof(tn)`: the size of a pointer. -/
def sizeofPointer : Nat := 8

/-- `Cache_Add_Common`. The clock is read once for the test and once more in `FlipTree`. -/
def cacheAddCommon (cacheSize : Nat) (now flipTime : Int) (tn : TreeNode) (cache : CacheData) :
    GoodOrBad × CacheData :=
  let cache := if cache.timeToKill < now then flipTree flipTime cache else cache
  if cacheSize ≠ 0 ∧ cache.oldRamSize + cache.newRamSize > cacheSize then (.bad, cache)
  else
    let grown := match cache.temporaryTreeNew.lookup tn.tk with
      | some _ => cache.newRamSize + (sizeofPointer - sizeofPointer)
      | none => cache.newRamSize + sizeofPointer
    (.good, { cache with
      temporaryTreeNew := cache.temporaryTreeNew.insert tn.tk tn
      newRamSize := grown })

/-- `enum cache_task_return` -/
inductive CacheTaskReturn where
  | ok | notFound | expired | sizeMismatch
deriving DecidableEq, Repr

/-- What `Cache_Get_Common` gives back: `data` holds the bytes it copied. -/
structure GetResult where
  ret : CacheTaskReturn
  data : Bytes
  dsize : Nat
  duration : Int
deriving DecidableEq, Repr

/-- The node that `Cache_Get_Common` looks at. -/
def findForGet (now duration : Int) (tk : TreeKey) (cache : CacheData) : Option TreeNode :=
  match cache.temporaryTreeNew.lookup tk with
  | some tn => some tn
  | none =>
    -- "retired time isn't too old for this data item"
    if cache.timeRetired + duration > now then cache.temporaryTreeOld.lookup tk else none

/-- `Cache_Get_Common` -/
def cacheGetCommon (now : Int) (dsize : Nat) (duration : Int) (tk : TreeKey)
    (cache : CacheData) : GetResult :=
  match findForGet now duration tk cache with
  | none => ⟨.notFound, [], dsize, duration⟩
  | some tn =>
    let left := tn.expires - now
    if left > 0 then
      if dsize ≥ tn.data.length then ⟨.ok, tn.data, tn.data.length, left⟩
      else ⟨.sizeMismatch, [], dsize, left⟩
    else ⟨.expired, [], dsize, left⟩

/-- `Cache_Del_Common`: the entry stays, but has expired. -/
def cacheDelCommon (now : Int) (tk : TreeKey) (cache : CacheData) : GoodOrBad × CacheData :=
  match cache.temporaryTreeNew.lookup tk with
  | some tn =>
    (.good, { cache with
      temporaryTreeNew := cache.temporaryTreeNew.insert tk { tn with expires := now - 1 } })
  | none =>
    -- "old tree still alive"
    if cache.timeToKill > now then
      match cache.temporaryTreeOld.lookup tk with
      | some tn =>
        (.good, { cache with
          temporaryTreeOld := cache.temporaryTreeOld.insert tk { tn with expires := now - 1 } })
      | none => (.bad, cache)
    else (.bad, cache)

end Owfs.Cache
