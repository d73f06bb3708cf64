import Owfs.Cache.Deletion
import Owfs.Protocol.Message

/-!
# The size of the cache

`new_ram_size` and `old_ram_size` are there to limit the memory of the temporary trees to
`Globals.cache_size`. But an addition counts `sizeof(tn)`, and `tn` is a pointer. So the counters
are not the bytes that are held as soon as there is an entry: what they count, and what the limit
limits, is the number of entries.

Sizes are those of a 64 bit machine.
-/

namespace Owfs.Cache

open Infra Owfs.Device
open Owfs.Protocol (indexBad)

/-! ## Aliases -/

/-- `Cache_Add_Alias_Common` -/
def cacheAddAliasCommon (cacheSize : Nat) (now flipTime : Int) (atn : AliasTreeNode)
    (cache : CacheData) :
    CacheData :=
  let cache := if cache.timeToKill < now then flipTree flipTime cache else cache
  if cacheSize ≠ 0 ∧ cache.oldRamSize + cache.newRamSize > cacheSize then cache
  else
    let grown := match cache.temporaryAliasTreeNew.lookup atn.name with
      | some _ => cache.newRamSize + (sizeofPointer - sizeofPointer)
      | none => cache.newRamSize + sizeofPointer
    { cache with
      temporaryAliasTreeNew := cache.temporaryAliasTreeNew.insert atn.name atn
      newRamSize := grown }

/-- `Cache_Add_Alias_Bus` -/
def cacheAddAliasBus (g : Globals) (made now flipTime : Int) (name : Bytes) (bus : Int)
    (cache : Trees) : Trees :=
  if name.length = 0 then cache
  else
    { cache with
      temporary := cacheAddAliasCommon g.cacheSize now flipTime
        ⟨name, timeOut g.timeouts .presence + made, bus⟩
        cache.temporary }

/-- `Cache_Del_Alias_Bus`: "just change to a bad bus value" -/
def cacheDelAliasBus (g : Globals) (made now flipTime : Int) (name : Bytes) (cache : Trees) :
    Trees :=
  cacheAddAliasBus g made now flipTime name indexBad cache

/-! ## Runs -/

inductive CacheEvent where
  | op (op : CacheOp)
  | addAliasBus (name : Bytes) (bus : Int) (made now flipTime : Int)
  | delAliasBus (name : Bytes) (made now flipTime : Int)

section

variable (markers : Markers)

def World.stepEvent (w : World) : CacheEvent → World
  | .op op => w.step markers op
  | .addAliasBus name bus made now flipTime =>
    { w with trees := cacheAddAliasBus w.g made now flipTime name bus w.trees }
  | .delAliasBus name made now flipTime =>
    { w with trees := cacheDelAliasBus w.g made now flipTime name w.trees }

/-- The node that a `Cache_Add_*` hands to `Cache_Add_Common`, if it does. -/
def handed (g : Globals) (data : Bytes) (made : Int) (name : Name) : Option TreeNode :=
  let duration := name.duration g.timeouts
  let tn : TreeNode := ⟨name.key markers, duration + made, data⟩
  match name with
  | .property pn =>
    if pn.alarmDir then none
    else if pn.isThisPersistent then none
    else if duration ≤ 0 then none
    else some tn
  | .directory pn =>
    if pn.virtualBus then none
    else if duration ≤ 0 then none
    else if data.length < 8 then none
    else some tn
  | .device sn =>
    if duration ≤ 0 then none
    else if sn.family = 0 then none
    else some tn
  | .slaveSpecific ip _ =>
    if duration ≤ 0 then none
    else if ip.change = .persistent then none
    else some tn
  | .simul _ _ => if duration ≤ 0 then none else some { tn with data := [] }
  | .aliasOf _ => none

/-- The event hands nothing to the temporary trees. -/
def World.AddsNothing (w : World) : CacheEvent → Prop
  | .op (.add name data made _ _) => handed markers w.g data made name = none
  | .op _ => True
  | .addAliasBus name _ _ _ _ => name = []
  | .delAliasBus name _ _ _ => name = []

end

/-! ## Bytes -/

/-- `sizeof(struct tree_node)` -/
def sizeofTreeNode : Nat := 40

/-- `sizeof(struct alias_tree_node)` -/
def sizeofAliasTreeNode : Nat := 24

/-- What `owmalloc` was asked for. -/
def TreeNode.size (tn : TreeNode) : Nat := sizeofTreeNode + tn.data.length

def AliasTreeNode.size (atn : AliasTreeNode) : Nat := sizeofAliasTreeNode + atn.name.length + 1

/-- The sizes of the entries of a tree and of the alias tree beside it. -/
def sizes (tree : Tree) (aliasTree : AliasTree) : List Nat :=
  (tree.entries.map fun e => e.2.size) ++ aliasTree.entries.map fun e => e.2.size

def CacheData.newSizes (cache : CacheData) : List Nat :=
  sizes cache.temporaryTreeNew cache.temporaryAliasTreeNew

def CacheData.oldSizes (cache : CacheData) : List Nat :=
  sizes cache.temporaryTreeOld cache.temporaryAliasTreeOld

/-- The counters are right, and the memory is limited up to one entry. -/
structure World.Accounted (w : World) : Prop where
  newRamSize : w.trees.temporary.newRamSize = w.trees.temporary.newSizes.sum
  oldRamSize : w.trees.temporary.oldRamSize = w.trees.temporary.oldSizes.sum
  bounded : w.g.cacheSize ≠ 0 →
    ∃ n ∈ 0 :: (w.trees.temporary.newSizes ++ w.trees.temporary.oldSizes),
      w.trees.temporary.newSizes.sum + w.trees.temporary.oldSizes.sum ≤ w.g.cacheSize + n

/-! ## What the counters count -/

/-- The counters are the numbers of entries, eight for each, and these are limited. -/
structure CacheData.Counted (cacheSize : Nat) (cache : CacheData) : Prop where
  newRamSize : cache.newRamSize = sizeofPointer * cache.newSizes.length
  oldRamSize : cache.oldRamSize = sizeofPointer * cache.oldSizes.length
  bounded : cacheSize ≠ 0 → cache.oldRamSize + cache.newRamSize ≤ cacheSize + sizeofPointer

section

variable {α : Type} {β : α → Type} [DecidableEq α]

theorem length_entries_insert_of_none {t : AList β} {k : α} {v : β k} (h : t.lookup k = none) :
    (t.insert k v).entries.length = t.entries.length + 1 := by
  rw [AList.entries_insert_of_notMem (AList.lookup_eq_none.mp h), List.length_cons]

/-- A replacement leaves the number of entries. -/
theorem length_entries_insert_of_some {t : AList β} {k : α} {v v' : β k}
    (h : t.lookup k = some v') :
    (t.insert k v).entries.length = t.entries.length := by
  have hlen : ∀ s : AList β, s.entries.length = s.keys.length := fun s => (List.length_map _).symm
  have hmem : k ∈ t.keys := AList.mem_keys.mp (AList.lookup_isSome.mp (by rw [h]; rfl))
  rw [hlen, hlen, AList.keys_insert, List.length_cons, List.length_erase_of_mem hmem]
  have hpos : 0 < t.keys.length := List.length_pos_of_mem hmem
  omega

end

theorem length_sizes (tree : Tree) (aliasTree : AliasTree) :
    (sizes tree aliasTree).length = tree.entries.length + aliasTree.entries.length := by
  rw [sizes, List.length_append, List.length_map, List.length_map]

section

variable {cacheSize : Nat} {cache : CacheData}

theorem CacheData.Counted.flipTree (h : cache.Counted cacheSize) (now : Int) :
    (flipTree now cache).Counted cacheSize where
  newRamSize := rfl
  oldRamSize := h.newRamSize
  bounded := by
    intro hsize
    have hbound := h.bounded hsize
    show cache.newRamSize + 0 ≤ _
    omega

theorem CacheData.Counted.cacheDelCommon (h : cache.Counted cacheSize) (now : Int) (tk : TreeKey) :
    (cacheDelCommon now tk cache).2.Counted cacheSize := by
  unfold Cache.cacheDelCommon
  split
  · next tn hnew =>
    refine ⟨?_, h.oldRamSize, h.bounded⟩
    have hcount := h.newRamSize
    rw [CacheData.newSizes, length_sizes] at hcount ⊢
    rw [length_entries_insert_of_some hnew]
    exact hcount
  · split
    · split
      · next tn hold =>
        refine ⟨h.newRamSize, ?_, h.bounded⟩
        have hcount := h.oldRamSize
        rw [CacheData.oldSizes, length_sizes] at hcount ⊢
        rw [length_entries_insert_of_some hold]
        exact hcount
      · exact h
    · exact h

/-- The trees that an addition finds, flipped or not. -/
theorem CacheData.Counted.base (h : cache.Counted cacheSize) (now flipTime : Int) :
    (if cache.timeToKill < now then Cache.flipTree flipTime cache else cache).Counted
      cacheSize := by
  split
  · exact h.flipTree flipTime
  · exact h

theorem CacheData.Counted.cacheAddCommon (h : cache.Counted cacheSize) (now flipTime : Int)
    (tn : TreeNode) :
    (cacheAddCommon cacheSize now flipTime tn cache).2.Counted cacheSize := by
  have hbase := h.base now flipTime
  unfold Cache.cacheAddCommon
  dsimp only
  generalize (if cache.timeToKill < now then Cache.flipTree flipTime cache else cache) =
    base at hbase
  by_cases hfull : cacheSize ≠ 0 ∧ base.oldRamSize + base.newRamSize > cacheSize
  · rw [if_pos hfull]
    exact hbase
  · rw [if_neg hfull]
    have hcount := hbase.newRamSize
    rw [CacheData.newSizes, length_sizes] at hcount
    cases hlookup : base.temporaryTreeNew.lookup tn.tk with
    | none =>
      refine ⟨?_, hbase.oldRamSize, fun hsize => ?_⟩
      · rw [CacheData.newSizes, length_sizes, length_entries_insert_of_none hlookup]
        show base.newRamSize + sizeofPointer = _
        rw [hcount]
        ring
      · show base.oldRamSize + (base.newRamSize + sizeofPointer) ≤ _
        have hroom := not_and.mp hfull hsize
        omega
    | some found =>
      refine ⟨?_, hbase.oldRamSize, hbase.bounded⟩
      rw [CacheData.newSizes, length_sizes, length_entries_insert_of_some hlookup]
      exact hcount

theorem CacheData.Counted.cacheAddAliasCommon (h : cache.Counted cacheSize) (now flipTime : Int)
    (atn : AliasTreeNode) :
    (cacheAddAliasCommon cacheSize now flipTime atn cache).Counted cacheSize := by
  have hbase := h.base now flipTime
  unfold Cache.cacheAddAliasCommon
  dsimp only
  generalize (if cache.timeToKill < now then Cache.flipTree flipTime cache else cache) =
    base at hbase
  by_cases hfull : cacheSize ≠ 0 ∧ base.oldRamSize + base.newRamSize > cacheSize
  · rw [if_pos hfull]
    exact hbase
  · rw [if_neg hfull]
    have hcount := hbase.newRamSize
    rw [CacheData.newSizes, length_sizes] at hcount
    cases hlookup : base.temporaryAliasTreeNew.lookup atn.name with
    | none =>
      refine ⟨?_, hbase.oldRamSize, fun hsize => ?_⟩
      · rw [CacheData.newSizes, length_sizes, length_entries_insert_of_none hlookup]
        show base.newRamSize + sizeofPointer = _
        rw [hcount]
        ring
      · show base.oldRamSize + (base.newRamSize + sizeofPointer) ≤ _
        have hroom := not_and.mp hfull hsize
        omega
    | some found =>
      refine ⟨?_, hbase.oldRamSize, hbase.bounded⟩
      rw [CacheData.newSizes, length_sizes, length_entries_insert_of_some hlookup]
      exact hcount

end

/-! ## What an event does -/

/-- What happens to the trees when nothing is added. -/
inductive Touched (cache : CacheData) : CacheData → Prop
  | same : Touched cache cache
  | deleted (now : Int) (tk : TreeKey) : Touched cache (cacheDelCommon now tk cache).2
  | cleared (now now' : Int) : Touched cache (flipTree now' (flipTree now cache))

/-- What happens to them when something is handed over. -/
inductive Added (cacheSize : Nat) (cache : CacheData) : CacheData → Prop
  | node (now flipTime : Int) (tn : TreeNode) :
      Added cacheSize cache (cacheAddCommon cacheSize now flipTime tn cache).2
  | aliasNode (now flipTime : Int) (atn : AliasTreeNode) :
      Added cacheSize cache (cacheAddAliasCommon cacheSize now flipTime atn cache)

section

variable {markers : Markers} {w : World}

theorem cacheSize_step (op : CacheOp) : (w.step markers op).g.cacheSize = w.g.cacheSize := by
  cases op <;> rfl

theorem cacheSize_stepEvent (e : CacheEvent) :
    (w.stepEvent markers e).g.cacheSize = w.g.cacheSize := by
  cases e with
  | op op => exact cacheSize_step op
  | addAliasBus name bus made now flipTime => rfl
  | delAliasBus name made now flipTime => rfl

/-- An addition of the cache, in terms of what it hands over. -/
theorem World.temporary_add (w : World) (markers : Markers) (name : Name) (data : Bytes)
    (made now flipTime : Int) :
    (∃ tn, handed markers w.g data made name = some tn ∧
        (w.add markers name data made now flipTime).trees.temporary =
          (cacheAddCommon w.g.cacheSize now flipTime tn w.trees.temporary).2) ∨
      (handed markers w.g data made name = none ∧
        Touched w.trees.temporary (w.add markers name data made now flipTime).trees.temporary) := by
  cases name with
  | property pn =>
    simp only [World.add, cacheAdd, handed, Name.duration, Name.key]
    by_cases halarm : pn.alarmDir = true
    · simp only [if_pos halarm]
      exact .inr ⟨trivial, .same⟩
    · by_cases hpersistent : pn.isThisPersistent = true
      · simp only [if_neg halarm, if_pos hpersistent]
        exact .inr ⟨trivial, .same⟩
      · by_cases hduration : timeOut w.g.timeouts pn.change ≤ 0
        · simp only [if_neg halarm, if_neg hpersistent, if_pos hduration]
          exact .inr ⟨if_pos hduration, .same⟩
        · simp only [if_neg halarm, if_neg hpersistent, if_neg hduration]
          exact .inl ⟨_, if_neg hduration, rfl⟩
  | directory pn =>
    simp only [World.add, cacheAddDir, handed, Name.duration, Name.key]
    by_cases hvirtual : pn.virtualBus = true
    · simp only [if_pos hvirtual]
      exact .inr ⟨trivial, .same⟩
    · by_cases hduration : timeOut w.g.timeouts .directory ≤ 0
      · simp only [if_neg hvirtual, if_pos hduration]
        exact .inr ⟨if_pos hduration, .same⟩
      · by_cases hshort : data.length < 8
        · simp only [if_neg hvirtual, if_neg hduration, if_pos hshort]
          exact .inr ⟨trivial, .deleted made (pn.key markers)⟩
        · simp only [if_neg hvirtual, if_neg hduration, if_neg hshort]
          exact .inl ⟨_, rfl, rfl⟩
  | device sn =>
    simp only [World.add, cacheAddDevice, handed, Name.duration, Name.key]
    by_cases hduration : timeOut w.g.timeouts .presence ≤ 0
    · simp only [if_pos hduration]
      exact .inr ⟨if_pos hduration, .same⟩
    · by_cases hfamily : sn.family = 0
      · simp only [if_neg hduration, if_pos hfamily]
        exact .inr ⟨trivial, .same⟩
      · simp only [if_neg hduration, if_neg hfamily]
        exact .inl ⟨_, rfl, rfl⟩
  | slaveSpecific ip sn =>
    simp only [World.add, cacheAddSlaveSpecific, handed, Name.duration, Name.key]
    by_cases hduration : timeOut w.g.timeouts ip.change ≤ 0
    · simp only [if_pos hduration]
      exact .inr ⟨if_pos hduration, .same⟩
    · by_cases hpersistent : ip.change = .persistent
      · simp only [if_neg hduration, if_pos hpersistent]
        exact .inr ⟨trivial, .same⟩
      · simp only [if_neg hduration, if_neg hpersistent]
        exact .inl ⟨_, rfl, rfl⟩
  | simul ip pn =>
    simp only [World.add, cacheAddSimul, handed, Name.duration, Name.key]
    by_cases hduration : timeOut w.g.timeouts ip.change ≤ 0
    · simp only [if_pos hduration]
      exact .inr ⟨if_pos hduration, .same⟩
    · simp only [if_neg hduration]
      exact .inl ⟨_, if_neg hduration, rfl⟩
  | aliasOf sn =>
    refine .inr ⟨rfl, ?_⟩
    simp only [World.add, cacheAddAlias]
    split
    · exact .same
    · exact .same

theorem touched_of_addsNothing {e : CacheEvent} (h : w.AddsNothing markers e) :
    Touched w.trees.temporary (w.stepEvent markers e).trees.temporary := by
  cases e with
  | op op =>
    cases op with
    | add name data made now flipTime =>
      rcases w.temporary_add markers name data made now flipTime with ⟨tn, htn, -⟩ | ⟨-, htouched⟩
      · rw [World.AddsNothing, htn] at h
        cases h
      · exact htouched
    | get name dsize now => exact .same
    | del name now =>
      show Touched w.trees.temporary (w.del markers name now).trees.temporary
      rw [trees_del]
      split
      · split
        · exact .same
        · exact .deleted now (name.delKey markers)
      · exact .same
    | setTimeout which value now now' =>
      simp only [World.stepEvent, World.step, fsWTimeout]
      split
      · exact .cleared now now'
      · exact .same
  | addAliasBus name bus made now flipTime =>
    have hname : name = [] := h
    subst hname
    exact .same
  | delAliasBus name made now flipTime =>
    have hname : name = [] := h
    subst hname
    exact .same

theorem added_of_not_addsNothing {e : CacheEvent} (h : ¬ w.AddsNothing markers e) :
    Added w.g.cacheSize w.trees.temporary (w.stepEvent markers e).trees.temporary := by
  have hbus : ∀ {name bus made now flipTime}, name ≠ [] →
      Added w.g.cacheSize w.trees.temporary
        (cacheAddAliasBus w.g made now flipTime name bus w.trees).temporary := by
    intro name bus made now flipTime hname
    rw [cacheAddAliasBus, if_neg fun hlen => hname (List.eq_nil_of_length_eq_zero hlen)]
    exact .aliasNode now flipTime _
  cases e with
  | op op =>
    cases op with
    | add name data made now flipTime =>
      rcases w.temporary_add markers name data made now flipTime with ⟨tn, -, hadd⟩ | ⟨hnone, -⟩
      · show Added w.g.cacheSize w.trees.temporary
          (w.add markers name data made now flipTime).trees.temporary
        rw [hadd]
        exact .node now flipTime tn
      · exact absurd hnone h
    | get name dsize now => exact absurd trivial h
    | del name now => exact absurd trivial h
    | setTimeout which value now now' => exact absurd trivial h
  | addAliasBus name bus made now flipTime => exact hbus h
  | delAliasBus name made now flipTime => exact hbus h

end

section

variable {cacheSize : Nat} {cache cache' : CacheData}

theorem Touched.counted (ht : Touched cache cache') (h : cache.Counted cacheSize) :
    cache'.Counted cacheSize := by
  cases ht with
  | same => exact h
  | deleted now tk => exact h.cacheDelCommon now tk
  | cleared now now' => exact (h.flipTree now).flipTree now'

theorem Added.counted (ha : Added cacheSize cache cache') (h : cache.Counted cacheSize) :
    cache'.Counted cacheSize := by
  cases ha with
  | node now flipTime tn => exact h.cacheAddCommon now flipTime tn
  | aliasNode now flipTime atn => exact h.cacheAddAliasCommon now flipTime atn

/-! ## Empty trees -/

/-- Nothing is in the trees, and nothing is counted. -/
structure CacheData.Empty (cache : CacheData) : Prop where
  newTree : cache.temporaryTreeNew = ∅
  oldTree : cache.temporaryTreeOld = ∅
  newAliasTree : cache.temporaryAliasTreeNew = ∅
  oldAliasTree : cache.temporaryAliasTreeOld = ∅
  newRamSize : cache.newRamSize = 0
  oldRamSize : cache.oldRamSize = 0

theorem CacheData.Empty.flipTree (h : cache.Empty) (now : Int) : (flipTree now cache).Empty where
  newTree := rfl
  oldTree := h.newTree
  newAliasTree := rfl
  oldAliasTree := h.newAliasTree
  newRamSize := rfl
  oldRamSize := h.newRamSize

theorem Touched.empty (ht : Touched cache cache') (h : cache.Empty) : cache'.Empty := by
  cases ht with
  | same => exact h
  | deleted now tk =>
    have hnew : cache.temporaryTreeNew.lookup tk = none := by rw [h.newTree]; rfl
    have hold : cache.temporaryTreeOld.lookup tk = none := by rw [h.oldTree]; rfl
    have hsame : (cacheDelCommon now tk cache).2 = cache := by
      rw [cacheDelCommon, hnew]
      dsimp only
      split
      · rw [hold]
      · rfl
    rw [hsame]
    exact h
  | cleared now now' => exact (h.flipTree now).flipTree now'

theorem CacheData.Empty.sizes (h : cache.Empty) : cache.newSizes = [] ∧ cache.oldSizes = [] := by
  rw [CacheData.newSizes, CacheData.oldSizes, h.newTree, h.oldTree, h.newAliasTree, h.oldAliasTree]
  exact ⟨rfl, rfl⟩

/-- The first entry is counted as a pointer. -/
theorem Added.newRamSize_ne (ha : Added cacheSize cache cache') (h : cache.Empty) :
    cache'.newRamSize ≠ cache'.newSizes.sum := by
  have hbase : ∀ now flipTime : Int,
      (if cache.timeToKill < now then Cache.flipTree flipTime cache else cache).Empty := by
    intro now flipTime
    split
    · exact h.flipTree flipTime
    · exact h
  cases ha with
  | node now flipTime tn =>
    have hempty := hbase now flipTime
    unfold cacheAddCommon
    dsimp only
    generalize (if cache.timeToKill < now then Cache.flipTree flipTime cache else cache) =
      base at hempty
    rw [if_neg (by rw [hempty.newRamSize, hempty.oldRamSize]; omega), CacheData.newSizes,
      hempty.newTree, hempty.newAliasTree, hempty.newRamSize]
    show 0 + sizeofPointer ≠ ([tn.size] ++ []).sum
    simp only [List.append_nil, List.sum_singleton, TreeNode.size, sizeofPointer, sizeofTreeNode]
    omega
  | aliasNode now flipTime atn =>
    have hempty := hbase now flipTime
    unfold cacheAddAliasCommon
    dsimp only
    generalize (if cache.timeToKill < now then Cache.flipTree flipTime cache else cache) =
      base at hempty
    rw [if_neg (by rw [hempty.newRamSize, hempty.oldRamSize]; omega), CacheData.newSizes,
      hempty.newTree, hempty.newAliasTree, hempty.newRamSize]
    show 0 + sizeofPointer ≠ ([] ++ [atn.size]).sum
    simp only [List.nil_append, List.sum_singleton, AliasTreeNode.size, sizeofPointer,
      sizeofAliasTreeNode]
    omega

end

/-! ## Results -/

theorem World.accounted_of_empty {w : World} (h : w.trees.temporary.Empty) : w.Accounted := by
  obtain ⟨hnew, hold⟩ := h.sizes
  refine ⟨by rw [h.newRamSize, hnew]; rfl, by rw [h.oldRamSize, hold]; rfl, fun _ =>
    ⟨0, List.mem_cons_self, ?_⟩⟩
  rw [hnew, hold]
  exact Nat.zero_le _

theorem empty_opened (value : TimeoutSetting → BitVec 32) (cacheSize : Nat) (start : Int) :
    (World.opened value cacheSize start).trees.temporary.Empty :=
  ⟨rfl, rfl, rfl, rfl, rfl, rfl⟩

/-- One event of a run. -/
def World.next (markers : Markers) (w : World) (e : CacheEvent) : Option World :=
  some (w.stepEvent markers e)

/-- **In every run the counters count entries, and the limit limits their number.** -/
theorem counted_run (markers : Markers) (value : TimeoutSetting → BitVec 32) (cacheSize : Nat)
    (start : Int) (events : List CacheEvent) :
    Throughout (World.next markers) (fun w => w.trees.temporary.Counted w.g.cacheSize)
      (.opened value cacheSize start) events := by
  have hopened : (World.opened value cacheSize start).trees.temporary.Counted
      (World.opened value cacheSize start).g.cacheSize :=
    ⟨rfl, rfl, fun _ => Nat.zero_le _⟩
  have heach : ∀ (es : List CacheEvent) (w : World),
      EachStep (World.next markers) (fun _ _ => True) w es := by
    intro es
    induction es with
    | nil => exact fun _ => trivial
    | cons e es ih => exact fun _ w' _ => ⟨trivial, ih w'⟩
  refine throughout_of_eachStep id ?_ hopened (heach events _)
  rintro w e _ h ⟨⟩ -
  rw [cacheSize_stepEvent]
  by_cases hnothing : w.AddsNothing markers e
  · exact (touched_of_addsNothing hnothing).counted h
  · exact (added_of_not_addsNothing hnothing).counted h

/-- **The counters are the bytes that are held exactly in the runs that add nothing.** -/
theorem accounted_iff (markers : Markers) (value : TimeoutSetting → BitVec 32) (cacheSize : Nat)
    (start : Int) (events : List CacheEvent) :
    Throughout (World.next markers) World.Accounted (.opened value cacheSize start) events ↔
      EachStep (World.next markers) (World.AddsNothing markers) (.opened value cacheSize start)
      events := by
  refine throughout_iff World.accounted_of_empty ?_ ?_ (empty_opened value cacheSize start)
  · rintro w e _ hempty ⟨⟩ hnothing
    exact (touched_of_addsNothing hnothing).empty hempty
  · rintro w e _ hempty ⟨⟩ hadds haccounted
    exact (added_of_not_addsNothing hadds).newRamSize_ne hempty haccounted.newRamSize

/-- Properties of a hundred bytes each. -/
def largeAdditions : List CacheEvent :=
  [0, 1, 2].map fun n : Nat =>
    .op (.add (.property ⟨sampleThermometer, 0x2000, BitVec.ofNat 32 n, .stable, false, false,
      false⟩)
      (List.replicate 100 0x20) 10 10 10)

/-- With a limit of sixteen bytes, three entries of 140 bytes are held and counted as 24. -/
theorem limit_exceeded :
    let w := largeAdditions.foldl (World.stepEvent sampleMarkers) (.opened defaultTimeouts 16 0)
    w.trees.temporary.newRamSize = 24 ∧ w.trees.temporary.newSizes = [140, 140, 140] ∧
      ¬ w.Accounted := by
  intro w
  have hram : w.trees.temporary.newRamSize = 24 := by decide
  have hsizes : w.trees.temporary.newSizes = [140, 140, 140] := by decide
  refine ⟨hram, hsizes, ?_⟩
  intro h
  have hsum := h.newRamSize
  rw [hram, hsizes] at hsum
  cases hsum

end Owfs.Cache
