import Owfs.Cache.Operations
import Owfs.Infra.Threads

/-!
# Deleting from the cache

After a `Cache_Del_*` no `Cache_Get_*` of the same key succeeds until the next `Cache_Add_*`:
that is so whenever the deletion looks where the addition went. There are four ways in which it
does not:

* `Cache_Del_Internal` makes another key than `Cache_Add_SlaveSpecific`;
* `Cache_Del_Simul` is called with the directory, and looks for the directory of that;
* `Cache_Del` looks for a mock property in the temporary trees;
* `Cache_Del_Common` no longer looks at the old tree after `time_to_kill`, though `Cache_Get_Common`
  does for as long as the timeout says, which may be longer.

Deletions under a timeout that is not positive do nothing, but that does no harm: lowering a
timeout clears the cache, and so does raising it from a negative number, as that is a large `UINT`.
-/

namespace Owfs.Cache

open Infra Owfs.Device

/-! ## Runs -/

/-- What an operation is about. -/
inductive Name where
  | property (pn : PropertyName)
  | directory (pn : DirectoryName)
  | device (sn : SerialNumber)
  | slaveSpecific (ip : InternalProp) (sn : SerialNumber)
  /-- `pn` is a device in the directory of the conversion -/
  | simul (ip : InternalProp) (pn : DirectoryName)
  | aliasOf (sn : SerialNumber)
deriving DecidableEq

structure World where
  g : Globals
  trees : Trees

/-- An operation with the clock readings it makes. -/
inductive CacheOp where
  | add (name : Name) (data : Bytes) (made now flipTime : Int)
  | get (name : Name) (dsize : Nat) (now : Int)
  | del (name : Name) (now : Int)
  | setTimeout (which : TimeoutSetting) (value : BitVec 32) (now now' : Int)

def CacheOp.clock : CacheOp → List Int
  | .add _ _ made now flipTime => [made, now, flipTime]
  | .get _ _ now => [now]
  | .del _ now => [now]
  | .setTimeout _ _ now now' => [now, now']

section

variable (markers : Markers)

/-- The `Cache_Add_*` of a name. -/
def World.add (w : World) (name : Name) (data : Bytes) (made now flipTime : Int) : World :=
  { w with trees := match name with
    | .property pn => (cacheAdd w.g made now flipTime data pn w.trees).2
    | .directory pn => (cacheAddDir w.g markers made now flipTime data pn w.trees).2
    | .device sn => (cacheAddDevice w.g markers made now flipTime data sn w.trees).2
    | .slaveSpecific ip sn => (cacheAddSlaveSpecific w.g made now flipTime data ip sn w.trees).2
    -- `FS_w_convert_temp` gives the directory to both `Cache_Add_Simul` and `Cache_Del_Simul`
    | .simul ip pn => (cacheAddSimul w.g made now flipTime ip pn.loadDirectoryOnly w.trees).2
    | .aliasOf sn => (cacheAddAlias markers made data sn w.trees).2 }

/-- The `Cache_Get_*` of a name is successful. -/
def World.get (w : World) (name : Name) (dsize : Nat) (now : Int) : Bool :=
  match name with
  | .property pn => (cacheGet w.g now dsize pn w.trees).isSome
  | .directory pn => (cacheGetDir w.g markers now pn w.trees).isSome
  | .device sn => (cacheGetDevice w.g markers now sn w.trees).isSome
  | .slaveSpecific ip sn => (cacheGetSlaveSpecific w.g now dsize ip sn w.trees).isSome
  | .simul ip pn => (cacheGetSimulTime w.g now ip pn w.trees).isSome
  | .aliasOf sn => (cacheGetAlias markers sn w.trees).isSome

/-- The `Cache_Del_*` of a name. -/
def World.del (w : World) (name : Name) (now : Int) : World :=
  { w with trees := match name with
    | .property pn => cacheDel w.g now pn w.trees
    | .directory pn => cacheDelDir markers now pn w.trees
    | .device sn => cacheDelDevice w.g markers now sn w.trees
    | .slaveSpecific ip sn => cacheDelInternal w.g now ip sn w.trees
    | .simul ip pn => cacheDelSimul now ip pn.loadDirectoryOnly w.trees
    | .aliasOf sn => cacheDelAlias markers sn w.trees }

/-- One operation. -/
def World.step (w : World) : CacheOp → World
  | .add name data made now flipTime => w.add markers name data made now flipTime
  | .get _ _ _ => w
  | .del name now => w.del markers name now
  | .setTimeout which value now now' =>
    let (g, trees) := fsWTimeout now now' which value w.g w.trees
    ⟨g, trees⟩

def World.run (w : World) (ops : List CacheOp) : World := ops.foldl (World.step markers) w

/-- The timeouts are of type `int`. -/
def Timeouts.ofInts (value : TimeoutSetting → BitVec 32) : Timeouts where
  volatile := (value .volatile).toInt
  stable := (value .stable).toInt
  directory := (value .directory).toInt
  presence := (value .presence).toInt

/-- `Cache_Open` with the timeouts of the command line. -/
def World.opened (value : TimeoutSetting → BitVec 32) (cacheSize : Nat) (now : Int) : World :=
  ⟨⟨.ofInts value, cacheSize⟩, { temporary := cacheOpen (.ofInts value) now }⟩

/-! ## Where a name is kept -/

/-- The key that `Cache_Add_*` and `Cache_Get_*` make. -/
def Name.key : Name → TreeKey
  | .property pn => pn.key
  | .directory pn => pn.key markers
  | .device sn => deviceKey markers sn
  | .slaveSpecific ip sn => ⟨sn, ip.name, extensionInternal⟩
  | .simul ip pn => ⟨pn.loadDirectoryOnly.sn, ip.name, 0⟩
  | .aliasOf sn => aliasKey markers sn

/-- The key that `Cache_Del_*` makes. -/
def Name.delKey : Name → TreeKey
  | .slaveSpecific ip sn => ⟨sn, ip.name, 0⟩
  | .simul ip pn => ⟨pn.loadDirectoryOnly.loadDirectoryOnly.sn, ip.name, 0⟩
  | name => name.key markers

/-- `Cache_Add_*` and `Cache_Get_*` use the persistent tree. -/
def Name.persistent : Name → Bool
  | .property pn => pn.isThisPersistent
  | .slaveSpecific ip _ => ip.change = .persistent
  | .aliasOf _ => true
  | _ => false

/-- `Cache_Del_*` uses the persistent tree. -/
def Name.delPersistent : Name → Bool
  | .property pn => pn.change = .persistent
  | name => name.persistent

/-- The timeout that `Cache_Add_*` and `Cache_Get_*` look at. -/
def Name.duration (timeouts : Timeouts) : Name → Int
  | .property pn => timeOut timeouts pn.change
  | .directory _ => timeOut timeouts .directory
  | .device _ => timeOut timeouts .presence
  | .slaveSpecific ip _ => timeOut timeouts ip.change
  | .simul ip _ => timeOut timeouts ip.change
  | .aliasOf _ => 1

/-- `Cache_Del_*` goes on after its test of the timeout. -/
def Name.delTest (timeouts : Timeouts) : Name → Bool
  | .directory _ | .simul _ _ | .aliasOf _ => true
  | name => 0 < name.duration timeouts

/-- How many seconds longer than `expires` says an entry is good: `Cache_Get_Common_Dir` compares
with `>=`. -/
def Name.slack : Name → Int
  | .directory _ => 1
  | _ => 0

end

/-! ## What the operations do to the other entries -/

/-- The trees have lost entries of `tk`, or let them expire before `now`. -/
structure Loses (trees trees' : Trees) (tk : TreeKey) (now : Int) : Prop where
  temporary : ∀ tn, trees'.temporary.entry tk = some tn →
    trees.temporary.entry tk = some tn ∨ tn.expires = now - 1
  persistent : trees.persistentTree.lookup tk = none → trees'.persistentTree.lookup tk = none

section

variable {markers : Markers} {w : World} {name other : Name} {trees : Trees} {tk tk' : TreeKey}
  {tn : TreeNode} {now now' t : Int} {dsize : Nat}

theorem Loses.refl (trees : Trees) (tk : TreeKey) (now : Int) : Loses trees trees tk now where
  temporary := fun _ h => Or.inl h
  persistent := id

theorem loses_addCommon {g : Globals} {flipTime : Int} (hk : tk ≠ tn.tk) :
    Loses trees (trees.addCommon g now flipTime tn).2 tk t where
  temporary := fun _ h => Or.inl ((entry_of_cacheAddCommon h).resolve_right fun h => hk h.1)
  persistent := id

theorem loses_addPersistent (hk : tk ≠ tn.tk) : Loses trees (trees.addPersistent tn).2 tk t where
  temporary := fun _ h => Or.inl h
  persistent := fun h => (AList.lookup_insert_ne hk).trans h

theorem loses_delCommon : Loses trees (trees.delCommon now tk') tk now where
  temporary := fun _ h => entry_of_cacheDelCommon h
  persistent := id

theorem loses_delPersistent : Loses trees (trees.delPersistent tk') tk t where
  temporary := fun _ h => Or.inl h
  persistent := by
    intro h
    by_cases hk : tk = tk'
    · rw [hk]
      exact AList.lookup_erase ..
    · rwa [Trees.delPersistent, AList.lookup_erase_ne hk]

/-- What `Cache_Add_*` can do: nothing, hand an entry to one of the trees, or, for a short
directory, delete the entry. -/
theorem trees_add (name : Name) (data : Bytes) (made now flipTime : Int) :
    (w.add markers name data made now flipTime).trees = w.trees ∨
      (∃ tn, tn.tk = name.key markers ∧
        (w.add markers name data made now flipTime).trees = (w.trees.addPersistent tn).2) ∨
      (∃ tn, tn.tk = name.key markers ∧
        (w.add markers name data made now flipTime).trees =
        (w.trees.addCommon w.g now flipTime tn).2) ∨
      (w.add markers name data made now flipTime).trees = w.trees.delCommon made
      (name.key markers) := by
  cases name with
  | property pn =>
    simp only [World.add, cacheAdd]
    split
    · exact .inl rfl
    · split
      · exact .inr (.inl ⟨_, rfl, rfl⟩)
      · split
        · exact .inl rfl
        · exact .inr (.inr (.inl ⟨_, rfl, rfl⟩))
  | directory pn =>
    simp only [World.add, cacheAddDir]
    split
    · exact .inl rfl
    · split
      · exact .inl rfl
      · split
        · exact .inr (.inr (.inr rfl))
        · exact .inr (.inr (.inl ⟨_, rfl, rfl⟩))
  | device sn =>
    simp only [World.add, cacheAddDevice]
    split
    · exact .inl rfl
    · split
      · exact .inl rfl
      · exact .inr (.inr (.inl ⟨_, rfl, rfl⟩))
  | slaveSpecific ip sn =>
    simp only [World.add, cacheAddSlaveSpecific]
    split
    · exact .inl rfl
    · split
      · exact .inr (.inl ⟨_, rfl, rfl⟩)
      · exact .inr (.inr (.inl ⟨_, rfl, rfl⟩))
  | simul ip pn =>
    simp only [World.add, cacheAddSimul]
    split
    · exact .inl rfl
    · exact .inr (.inr (.inl ⟨_, rfl, rfl⟩))
  | aliasOf sn =>
    simp only [World.add, cacheAddAlias]
    split
    · exact .inl rfl
    · exact .inr (.inl ⟨_, rfl, rfl⟩)

/-- An addition of another key. -/
theorem loses_add {data : Bytes} {made flipTime : Int} (hk : tk ≠ other.key markers) :
    Loses w.trees (w.add markers other data made now flipTime).trees tk made := by
  rcases trees_add other data made now flipTime with h | ⟨tn, htk, h⟩ | ⟨tn, htk, h⟩ | h
  · rw [h]
    exact .refl ..
  · rw [h]
    exact loses_addPersistent (htk ▸ hk)
  · rw [h]
    exact loses_addCommon (htk ▸ hk)
  · rw [h]
    exact loses_delCommon

theorem delTest_eq_true_iff (timeouts : Timeouts) (h : name.delTest timeouts = decide (0 < t)) :
    name.delTest timeouts = true ↔ ¬ t ≤ 0 := by
  rw [h, decide_eq_true_eq, not_le]

/-- What `Cache_Del_*` does. -/
theorem trees_del : (w.del markers name now).trees =
    if name.delTest w.g.timeouts then
      if name.delPersistent then w.trees.delPersistent (name.delKey markers)
      else w.trees.delCommon now (name.delKey markers)
    else w.trees := by
  cases name with
  | property pn =>
    rw [ite_cond_congr (propext (delTest_eq_true_iff w.g.timeouts rfl)), ite_not]
    simp only [World.del, cacheDel, Name.delPersistent, decide_eq_true_eq]
    rfl
  | directory pn => rfl
  | device sn =>
    rw [ite_cond_congr (propext (delTest_eq_true_iff w.g.timeouts rfl)), ite_not]
    rfl
  | slaveSpecific ip sn =>
    rw [ite_cond_congr (propext (delTest_eq_true_iff w.g.timeouts rfl)), ite_not]
    simp only [World.del, cacheDelInternal, Name.delPersistent, Name.persistent, decide_eq_true_eq]
    rfl
  | simul ip pn => rfl
  | aliasOf sn =>
    show cacheDelAlias markers sn w.trees = w.trees.delPersistent (aliasKey markers sn)
    unfold cacheDelAlias
    split
    · next h =>
      -- there is nothing to erase
      have hnone : aliasKey markers sn ∉ w.trees.persistentTree := by
        rw [← AList.lookup_eq_none]
        simpa [cacheGetAlias] using h
      have herase : w.trees.persistentTree.erase (aliasKey markers sn) = w.trees.persistentTree :=
        AList.ext (List.kerase_of_notMem_keys hnone)
      rw [Trees.delPersistent, herase]
    · rfl

theorem loses_del : Loses w.trees (w.del markers other now).trees tk now := by
  rw [trees_del]
  split
  · split
    · exact loses_delPersistent
    · exact loses_delCommon
  · exact .refl ..

/-! ## A name that is gone -/

variable (markers) in
/-- Nothing of the name can be got, at `now` or later: the tree has no entry, or an entry that has
expired, or the timeout is negative. -/
def World.Spent (w : World) (name : Name) (now : Int) : Prop :=
  if name.persistent then w.trees.persistentTree.lookup (name.key markers) = none
  else name.duration w.g.timeouts < 0 ∨
    ∀ tn, w.trees.temporary.entry (name.key markers) = some tn → tn.expires + name.slack ≤ now

theorem getStat_getPersistent {duration : Int} (h : trees.persistentTree.lookup tk = none) :
    (trees.getPersistent dsize duration tk).getStat = none := by
  rw [Trees.getPersistent, h]
  rfl

theorem getStat_cacheGetCommon {cache : CacheData} {duration : Int}
    (h : ∀ tn, cache.entry tk = some tn → tn.expires ≤ now) :
    (cacheGetCommon now dsize duration tk cache).getStat = none := by
  unfold cacheGetCommon
  split
  · rfl
  · next tn hfind =>
    have := h tn (entry_of_findForGet hfind)
    rw [if_neg (by omega)]
    rfl

theorem getStat_getCommonDir {duration : Int}
    (h : ∀ tn, trees.temporary.entry tk = some tn → tn.expires + 1 ≤ now) :
    (trees.getCommonDir now duration tk).getStat = none := by
  unfold Trees.getCommonDir
  split
  · rfl
  · next tn hfind =>
    have := h tn (entry_of_findForGet hfind)
    rw [if_neg (by omega)]
    rfl

/-- A test of the timeout before a look-up, in a name whose entries are in the temporary trees. -/
theorem ite_getStat {duration : Int} {res : GetResult}
    (h : duration < 0 ∨ res.getStat = none) :
    (if duration ≤ 0 then none else res.getStat) = none := by
  split
  · rfl
  · exact h.resolve_left (by omega)

/-- **What is spent cannot be got.** -/
theorem World.Spent.get (h : w.Spent markers name now) : w.get markers name dsize now = false := by
  unfold World.Spent at h
  cases name with
  | property pn =>
    have hnone : cacheGet w.g now dsize pn w.trees = none := by
      unfold cacheGet
      split
      · rfl
      · by_cases hp : pn.isThisPersistent = true
        · rw [if_pos hp]
          exact getStat_getPersistent ((if_pos hp).mp h)
        · rw [if_neg hp]
          replace h := (if_neg hp).mp h
          refine ite_getStat (h.imp_right fun h => getStat_cacheGetCommon fun tn htn => ?_)
          exact (Int.add_zero tn.expires) ▸ h tn htn
    rw [World.get, hnone]
    rfl
  | directory pn =>
    have hnone : cacheGetDir w.g markers now pn w.trees = none :=
      ite_getStat (h.imp_right getStat_getCommonDir)
    rw [World.get, hnone]
    rfl
  | device sn =>
    have hnone : cacheGetDevice w.g markers now sn w.trees = none := by
      refine ite_getStat (Or.imp_right (fun h => getStat_cacheGetCommon fun tn htn => ?_) h)
      exact (Int.add_zero tn.expires) ▸ h tn htn
    rw [World.get, hnone]
    rfl
  | slaveSpecific ip sn =>
    have hnone : cacheGetInternal w.g now dsize ip sn w.trees = none := by
      simp only [cacheGetInternal]
      by_cases hp : ip.change = .persistent
      · rw [if_pos hp]
        exact ite_getStat (Or.inr (getStat_getPersistent ((if_pos (decide_eq_true hp)).mp h)))
      · rw [if_neg hp]
        replace h := (if_neg (mt of_decide_eq_true hp)).mp h
        refine ite_getStat (h.imp_right fun h => getStat_cacheGetCommon fun tn htn => ?_)
        exact (Int.add_zero tn.expires) ▸ h tn htn
    rw [World.get, cacheGetSlaveSpecific, hnone]
    rfl
  | simul ip pn =>
    have hnone : cacheGetSimulTime w.g now ip pn w.trees = none := by
      simp only [cacheGetSimulTime]
      rcases h with h | h
      · exact if_pos (le_of_lt h)
      · split
        · rfl
        · rw [getStat_cacheGetCommon fun tn htn => (Int.add_zero tn.expires) ▸ h tn htn]
          rfl
    rw [World.get, hnone]
    rfl
  | aliasOf sn =>
    have hnone : w.trees.persistentTree.lookup (aliasKey markers sn) = none := h
    rw [World.get, cacheGetAlias, hnone]
    rfl

/-- Losing entries spends nothing back. -/
theorem World.Spent.of_loses {w' : World} (h : w.Spent markers name t) (hg : w'.g = w.g)
    (hl : Loses w.trees w'.trees (name.key markers) now) (htn : t ≤ now) (hn : now ≤ now') :
    w'.Spent markers name now' := by
  unfold World.Spent at h ⊢
  rw [hg]
  have hslack : name.slack ≤ 1 := by
    cases name <;> simp [Name.slack]
  split
  · next hp =>
    rw [if_pos hp] at h
    exact hl.persistent h
  · next hp =>
    rw [if_neg hp] at h
    refine h.imp_right fun h tn htn => ?_
    rcases hl.temporary tn htn with he | he
    · have := h tn he
      omega
    · omega

/-- Time passes. -/
theorem World.Spent.mono (h : w.Spent markers name now) (hn : now ≤ now') :
    w.Spent markers name now' :=
  h.of_loses rfl (Loses.refl ..) le_rfl hn

/-! ## Settings -/

/-- The timeouts are of type `int`. -/
def World.Ints (w : World) : Prop := ∃ value, w.g.timeouts = .ofInts value

theorem get_ofInts (value : TimeoutSetting → BitVec 32) (which : TimeoutSetting) :
    (Timeouts.ofInts value).get which = (value which).toInt := by
  cases which <;> rfl

theorem set_ofInts (value : TimeoutSetting → BitVec 32) (which : TimeoutSetting) (v : BitVec 32) :
    (Timeouts.ofInts value).set which v.toInt = .ofInts (Function.update value which v) := by
  cases which <;> rfl

/-- A timeout that is negative is one of those that can be set. -/
theorem duration_eq_get {timeouts : Timeouts} (h : name.duration timeouts < 0) :
    ∃ which, ∀ timeouts, name.duration timeouts = timeouts.get which := by
  have hchange : ∀ change, timeOut timeouts change < 0 →
      ∃ which, ∀ timeouts, timeOut timeouts change = timeouts.get which := by
    intro change hneg
    cases change
    case volatile => exact ⟨.volatile, fun _ => rfl⟩
    case simultaneousTemperature => exact ⟨.volatile, fun _ => rfl⟩
    case simultaneousVoltage => exact ⟨.volatile, fun _ => rfl⟩
    case stable => exact ⟨.stable, fun _ => rfl⟩
    case readStable => exact ⟨.stable, fun _ => rfl⟩
    case presence => exact ⟨.presence, fun _ => rfl⟩
    case directory => exact ⟨.directory, fun _ => rfl⟩
    all_goals simp [timeOut] at hneg
  cases name with
  | property pn => exact hchange _ h
  | directory pn => exact hchange .directory h
  | device sn => exact hchange .presence h
  | slaveSpecific ip sn => exact hchange _ h
  | simul ip pn => exact hchange _ h
  | aliasOf sn => exact absurd h (by simp [Name.duration])

/-- A negative timeout is a large `UINT`, so raising it clears the cache. -/
theorem lt_of_toInt_neg {b v : BitVec 32} (hb : b.toInt < 0) (hv : 0 ≤ v.toInt) : b > v := by
  rw [BitVec.toInt_eq_toNat_cond] at hb hv
  have := v.isLt
  have := b.isLt
  refine BitVec.lt_def.mpr ?_
  split at hb <;> split at hv <;> omega

theorem World.Spent.setTimeout (h : w.Spent markers name t) (hints : w.Ints)
    (which : TimeoutSetting) (value : BitVec 32) (hn : t ≤ now') :
    (w.step markers (.setTimeout which value now now')).Spent markers name now' := by
  -- the trees lose entries at most
  have hl : ∀ tk, Loses w.trees (w.step markers (.setTimeout which value now now')).trees tk t := by
    intro tk
    simp only [World.step, fsWTimeout]
    split
    · refine ⟨fun tn htn => ?_, id⟩
      rw [Trees.clear, entry_clear] at htn
      cases htn
    · exact .refl ..
  unfold World.Spent at h ⊢
  split
  · next hp =>
    rw [if_pos hp] at h
    exact (hl _).persistent h
  · next hp =>
    rw [if_neg hp] at h
    have hslack : name.slack ≤ 1 := by
      cases name <;> simp [Name.slack]
    rcases h with hneg | hdead
    · obtain ⟨governs, hget⟩ := duration_eq_get hneg
      obtain ⟨old, hold⟩ := hints
      rw [hget, hold, get_ofInts] at hneg
      rw [hget]
      simp only [World.step, fsWTimeout, hold, set_ofInts, get_ofInts, BitVec.ofInt_toInt]
      by_cases hw : governs = which
      · subst hw
        rw [Function.update_self]
        by_cases hv : value.toInt < 0
        · exact Or.inl hv
        · refine Or.inr fun tn htn => ?_
          rw [if_pos (lt_of_toInt_neg hneg (by omega)), Trees.clear, entry_clear] at htn
          cases htn
      · rw [Function.update_of_ne hw]
        exact Or.inl hneg
    · refine Or.inr fun tn htn => ?_
      rcases (hl _).temporary tn htn with he | he
      · have := hdead tn he
        omega
      · omega

theorem World.Ints.step (h : w.Ints) (op : CacheOp) : (w.step markers op).Ints := by
  cases op with
  | setTimeout which value now now' =>
    obtain ⟨old, hold⟩ := h
    refine ⟨Function.update old which value, ?_⟩
    simp only [World.step, fsWTimeout, hold, set_ofInts]
  | _ => exact h

/-! ## Deletion -/

variable (markers) in
/-- The deletions that are effective: whichever name is looked for under the key of the deleted one,
there is nothing left for it, or `Cache_Del_*` looks under that key and in that tree, with a
positive timeout where it tests it, and the entry is in the new tree or the old tree is not due to
be killed. -/
def World.Reaches (w : World) : CacheOp → Prop
  | .del name now => ∀ other : Name, other.key markers = name.key markers →
      w.Spent markers other now ∨
        name.delTest w.g.timeouts = true ∧ name.delKey markers = name.key markers ∧
        name.delPersistent = other.persistent ∧
        (other.persistent = true ∨
          (w.trees.temporary.temporaryTreeNew.lookup (name.key markers)).isSome = true ∨
          w.trees.temporary.timeToKill > now)
  | _ => True

theorem World.Reaches.spent (h : w.Reaches markers (.del name now))
    (hsame : other.key markers = name.key markers) :
    (w.del markers name now).Spent markers other now := by
  rcases h other hsame with h | ⟨htest, hkey, htree, hreach⟩
  · exact h.of_loses rfl loses_del le_rfl le_rfl
  · unfold World.Spent
    rw [trees_del, if_pos htest, hkey, htree, hsame]
    split
    · exact AList.lookup_erase ..
    · next hp =>
      refine Or.inr fun tn htn => ?_
      have hslack : other.slack ≤ 1 := by
        cases other <;> simp [Name.slack]
      have := expires_of_cacheDelCommon (hreach.resolve_left hp) htn
      omega

/-! ## Whole runs -/

variable (markers) in
/-- The operation adds under the key of the name. -/
def CacheOp.Adds (name : Name) : CacheOp → Prop
  | .add other _ _ _ _ => other.key markers = name.key markers
  | _ => False

/-- The last clock reading of an operation. -/
def CacheOp.last : CacheOp → Int
  | .add _ _ _ _ flipTime => flipTime
  | .get _ _ now => now
  | .del _ now => now
  | .setTimeout _ _ _ now' => now'

theorem World.Spent.step {op : CacheOp} (h : w.Spent markers name t) (hints : w.Ints)
    (hclock : (t :: op.clock).Pairwise (· ≤ ·)) (hadd : ¬ op.Adds markers name) :
    (w.step markers op).Spent markers name op.last := by
  cases op with
  | add other data made now flipTime =>
    simp only [CacheOp.clock, List.pairwise_cons, List.mem_cons, List.not_mem_nil, or_false,
      forall_eq_or_imp, forall_eq] at hclock
    obtain ⟨⟨hmade, -, -⟩, ⟨-, hflip⟩, -⟩ := hclock
    exact h.of_loses rfl (loses_add (Ne.symm hadd)) hmade hflip
  | get other dsize now =>
    exact h.mono ((List.pairwise_cons.mp hclock).1 now (List.mem_singleton_self now))
  | del other now =>
    have hn := (List.pairwise_cons.mp hclock).1 now (List.mem_singleton_self now)
    exact h.of_loses rfl loses_del hn le_rfl
  | setTimeout which value now now' =>
    exact h.setTimeout hints which value
      ((List.pairwise_cons.mp hclock).1 now' (by simp [CacheOp.clock]))

/-- The readings of a run split at its first operation. -/
theorem cacheOp_clock_cons {op : CacheOp} {rest : List Int}
    (h : (t :: (op.clock ++ rest)).Pairwise (· ≤ ·)) :
    (t :: op.clock).Pairwise (· ≤ ·) ∧ (op.last :: rest).Pairwise (· ≤ ·) := by
  constructor
  · exact h.sublist (List.Sublist.cons_cons _ (List.sublist_append_left _ _))
  · have hlast : [op.last].Sublist op.clock := by
      rw [List.singleton_sublist]
      cases op <;> simp [CacheOp.last, CacheOp.clock]
    exact h.sublist ((hlast.append (List.Sublist.refl rest)).cons _)

theorem World.Spent.run {ops : List CacheOp} (h : w.Spent markers name t) (hints : w.Ints)
    (hclock : (t :: (ops.flatMap CacheOp.clock ++ [now])).Pairwise (· ≤ ·))
    (hadd : ∀ op ∈ ops, ¬ op.Adds markers name) : (w.run markers ops).Spent markers name now := by
  induction ops generalizing w t with
  | nil => exact h.mono (by simpa using hclock)
  | cons op rest ih =>
    rw [List.flatMap_cons, List.append_assoc] at hclock
    obtain ⟨hop, hrest⟩ := cacheOp_clock_cons hclock
    exact ih (h.step hints hop (hadd op List.mem_cons_self)) (hints.step op) hrest
      fun op' hop' => hadd op' (List.mem_cons_of_mem _ hop')

theorem World.Ints.run {ops : List CacheOp} (h : w.Ints) : (w.run markers ops).Ints := by
  induction ops generalizing w with
  | nil => exact h
  | cons op rest ih => exact ih (h.step op)

/-- What every step of a run meets, a step in its middle meets. -/
theorem EachStep.at {C : World → CacheOp → Prop} {before since : List CacheOp} {op : CacheOp}
    (h : EachStep (fun w op => some (w.step markers op)) C w (before ++ op :: since)) :
    C (w.run markers before) op := by
  induction before generalizing w with
  | nil => exact (h _ rfl).1
  | cons first rest ih => exact ih (h _ rfl).2

end

variable (markers : Markers)

/-- After a deletion no look-up under the key of the name succeeds until the next addition under it,
at any point of the run. The look-up may be for another name, as a property that was deleted by its
path under `/uncached` is looked for by its plain path. -/
def World.DeletionsHold (w : World) (ops : List CacheOp) : Prop :=
  ∀ before since rest name t, ops = before ++ .del name t :: since ++ rest →
    (∀ op ∈ since, ¬ op.Adds markers name) →
    ∀ other : Name, other.key markers = name.key markers →
    ∀ dsize now, (t :: (since.flatMap CacheOp.clock ++ [now])).Pairwise (· ≤ ·) →
      (w.run markers (before ++ .del name t :: since)).get markers other dsize now = false

theorem CacheOp.Adds.congr {op : CacheOp} (h : op.Adds markers other)
    (hsame : other.key markers = name.key markers) : op.Adds markers name := by
  cases op with
  | add added data made now flipTime => exact Eq.trans h hsame
  | _ => exact h

/-- **Deletions hold** in every run in which each of them reaches the entry. -/
theorem deletionsHold_of_reaches (value : TimeoutSetting → BitVec 32) (cacheSize : Nat)
    (start : Int) (ops : List CacheOp)
    (hok : EachStep (fun w op => some (w.step markers op)) (World.Reaches markers)
      (.opened value cacheSize start) ops) :
    (World.opened value cacheSize start).DeletionsHold markers ops := by
  rintro before since rest name t rfl hadd other hsame dsize now hclock
  have hints : (World.opened value cacheSize start).Ints := ⟨value, rfl⟩
  rw [List.append_assoc, List.cons_append] at hok
  have hspent := (EachStep.at hok).spent hsame
  have hrun := hspent.run (hints.run.step (.del name t)) hclock
    fun op hop hadds => hadd op hop (hadds.congr markers hsame)
  rw [World.run, List.foldl_append]
  exact hrun.get

/-- The timeouts that are set at the start. -/
def defaultTimeouts : TimeoutSetting → BitVec 32
  | .volatile => 15
  | .stable => 300
  | .directory => 60
  | .presence => 120

def sampleMarkers : Markers := ⟨0x1000, 0x1004, 0x1008⟩

def sampleThermometer : SerialNumber := ⟨[0x10, 1, 0, 0, 0, 0, 0, 0xD9], rfl⟩

def sampleProperty : Name := .property ⟨sampleThermometer, 0x2000, 0, .stable, false, false, false⟩

/-- The second addition retires the tree that holds the property. -/
def sampleAdds : List CacheOp :=
  [.add sampleProperty [0x31] 290 290 290,
    .add (.device sampleThermometer) [1, 0, 0, 0] 301 301 302]

/-- The same property under `/uncached`. -/
def sampleUncached : Name := .property ⟨sampleThermometer, 0x2000, 0, .stable, false, true, false⟩

/-- The property is found in the old tree until it is deleted there, by its path under
`/uncached`. -/
theorem deletionsHold_sampleAdds :
    let w := World.opened defaultTimeouts 0 0
    (w.run sampleMarkers sampleAdds).get sampleMarkers sampleProperty 8 302 = true ∧
      (w.run sampleMarkers (sampleAdds ++ [.del sampleUncached 303])).get sampleMarkers
        sampleProperty 8 303 = false := by
  intro w
  have hok : EachStep (fun w op => some (w.step sampleMarkers op)) (World.Reaches sampleMarkers) w
      (sampleAdds ++ [.del sampleUncached 303]) := by
    rintro _ ⟨⟩
    refine ⟨trivial, ?_⟩
    rintro _ ⟨⟩
    refine ⟨trivial, ?_⟩
    rintro _ ⟨⟩
    refine ⟨fun other hsame => ?_, trivial⟩
    by_cases hp : other.persistent = true
    · -- nothing was added to the persistent tree
      exact Or.inl ((if_pos hp).mpr rfl)
    · exact Or.inr ⟨by decide, rfl, (Bool.not_eq_true _ ▸ hp : other.persistent = false).symm,
        Or.inr (Or.inr (by decide))⟩
  have hhold := deletionsHold_of_reaches sampleMarkers defaultTimeouts 0 0 _ hok sampleAdds [] []
    sampleUncached 303 (List.append_nil _).symm (fun _ hop => absurd hop List.not_mem_nil)
    sampleProperty rfl 8 303 (by decide)
  exact ⟨by decide, hhold⟩

/-- The data of a slave. -/
def sampleInternal : Name := .slaveSpecific ⟨0x3000, .stable⟩ sampleThermometer

/-- The data of a slave is still found after `Cache_Del_Internal`. -/
theorem not_deletionsHold_sampleInternal : ¬ ∀ (markers : Markers)
    (value : TimeoutSetting → BitVec 32) (cacheSize : Nat) (start : Int) (ops : List CacheOp),
    (World.opened value cacheSize start).DeletionsHold markers ops := by
  intro h
  have hget := h sampleMarkers defaultTimeouts 0 0
    ([.add sampleInternal [1] 10 10 10] ++ [.del sampleInternal 11])
    [.add sampleInternal [1] 10 10 10] [] [] sampleInternal 11 rfl
    (fun _ hop => absurd hop List.not_mem_nil) sampleInternal rfl 1 11 (by decide)
  revert hget
  decide

end Owfs.Cache
