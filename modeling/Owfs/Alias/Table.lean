import Owfs.Infra.Text
import Owfs.Infra.Threads
import Owfs.Cache.Operations

/-!
# The table of aliases

A device can be given a name of its own (`ow_alias.c`). Names are kept twice: `persistent_tree`
leads from the serial number to the name, and `persistent_alias_tree` from the name to the serial
number. Both are to be inverse to each other after any sequence of `Test_and_Add_Alias`.

They are, until a name is deleted. `Cache_Del_Alias_Persistent` finds the node and gives its memory
back, but does not take it out of the tree. From then on a search of the tree compares with a node
whose memory is free.
-/

namespace Owfs.Alias

open Infra Owfs.Cache Owfs.Device

/-! ## The two trees -/

/-- `struct alias_tree_node` of `persistent_alias_tree`, which is searched by name. `freed` tells a
node that the tree still points to after `owfree`. -/
structure AliasNode where
  sn : SerialNumber
  freed : Bool := false
deriving DecidableEq

structure Table where
  trees : Trees
  persistentAliasTree : AList (fun _ : Bytes => AliasNode) := ∅

/-- No node of the tree points to free memory. -/
def Table.intact (t : Table) : Bool := t.persistentAliasTree.entries.all fun e => !e.2.freed

/-- `tfind` in `persistent_alias_tree`. The search compares with the nodes on its way; it has no
result if there is a node whose memory is free. -/
def Table.tfind (t : Table) (name : Bytes) : Option (Option AliasNode) :=
  if t.intact then some (t.persistentAliasTree.lookup name) else none

/-- `Cache_Get_Alias_SN` -/
def cacheGetAliasSN (name : Bytes) (t : Table) : Option (Option SerialNumber) :=
  if name.length = 0 then some none
  else (t.tfind name).map (Option.map AliasNode.sn)

/-- `Cache_Add_Alias_Persistent`: a node of the same name is replaced. -/
def cacheAddAliasPersistent (name : Bytes) (sn : SerialNumber) (t : Table) : Option Table := do
  let _ ← t.tfind name
  some { t with persistentAliasTree := t.persistentAliasTree.insert name { sn } }

/-- `Cache_Add_Alias_SN` -/
def cacheAddAliasSN (name : Bytes) (sn : SerialNumber) (t : Table) : Option Table :=
  if name.length = 0 then some t else cacheAddAliasPersistent name sn t

/-- `Cache_Del_Alias_Persistent`: the node is freed and stays in the tree. -/
def cacheDelAliasPersistent (name : Bytes) (t : Table) : Option Table := do
  match ← t.tfind name with
  | some atnFound =>
    some { t with persistentAliasTree :=
      t.persistentAliasTree.insert name { atnFound with freed := true } }
  | none => some t

section

variable (markers : Markers)

/-- `Cache_Get_Alias` -/
def Table.cacheGetAlias (sn : SerialNumber) (t : Table) : Option Bytes :=
  Cache.cacheGetAlias markers sn t.trees

/-- `Cache_Add_Alias` -/
def Table.cacheAddAlias (made : Int) (name : Bytes) (sn : SerialNumber) (t : Table) :
    Option (GoodOrBad × Table) :=
  if name.length = 0 then some (.good, t)
  else do
    let t ← cacheAddAliasSN name sn t
    let (ret, trees) := Cache.cacheAddAlias markers made name sn t.trees
    some (ret, { t with trees })

/-- `Cache_Del_Alias` with `Cache_Del_Alias_SN` -/
def Table.cacheDelAlias (sn : SerialNumber) (t : Table) : Option Table :=
  match t.cacheGetAlias markers sn with
  | none => some t
  | some aliasName =>
    cacheDelAliasPersistent aliasName { t with trees := Cache.cacheDelAlias markers sn t.trees }

/-! ## `Test_and_Add_Alias` -/

/-- "Parse off initial spaces" and "trailing spaces" -/
def trim (name : Bytes) : Bytes := (name.dropWhile (· == chr ' ')).rdropWhile (· == chr ' ')

/-- `PROPERTY_LENGTH_ALIAS` -/
def propertyLengthAlias : Nat := 256

def reservedWords : List Bytes :=
  [ascii "interface", ascii "settings", ascii "uncached", ascii "unaliased", ascii "text",
    ascii "alarm", ascii "statistics", ascii "simultaneous", ascii "structure"]

/-- A name that is not refused: not too long, no reserved word, no path separator. -/
def admissible (name : Bytes) : Bool :=
  decide (name.length ≤ propertyLengthAlias) && !reservedWords.contains name
    && !(ascii "bus.").isPrefixOf name && !name.contains (chr '/')

/-- `Test_and_Add_Alias`. There is no result once free memory was read. -/
def testAndAddAlias (made : Int) (name : Bytes) (sn : SerialNumber) (t : Table) :
    Option (GoodOrBad × Table) :=
  let name := trim name
  if admissible name then do
    match ← cacheGetAliasSN name t with
    | some snStored =>
      -- "repeat assignment"
      if sn = snStored then some (.good, t)
      else
        let t ← t.cacheDelAlias markers snStored
        let t ← t.cacheDelAlias markers sn
        t.cacheAddAlias markers made name sn
    | none =>
      let t ← t.cacheDelAlias markers sn
      t.cacheAddAlias markers made name sn
  else some (.bad, t)

/-! ## The invariant -/

/-- `Cache_Get_Alias` and `Cache_Get_Alias_SN` are inverse to each other: every search of a name
has a result, and it is the device of that name. -/
def Table.Inverse (t : Table) : Prop :=
  ∀ sn name, ∃ found, cacheGetAliasSN name t = some found ∧
    (t.cacheGetAlias markers sn = some name ↔ found = some sn)

structure Table.Good (t : Table) : Prop where
  intact : t.intact = true
  inverse : ∀ sn name, t.cacheGetAlias markers sn = some name ↔
    t.persistentAliasTree.lookup name = some { sn }
  /-- "zero length allowed", but is never stored -/
  nonempty : t.persistentAliasTree.lookup [] = none

end

theorem intact_iff {t : Table} :
    t.intact = true ↔ ∀ name node, t.persistentAliasTree.lookup name = some node →
      node.freed = false := by
  simp only [Table.intact, List.all_eq_true, Bool.not_eq_true']
  constructor
  · intro h name node hl
    exact h ⟨name, node⟩ (AList.mem_lookup_iff.mp hl)
  · rintro h ⟨name, node⟩ hmem
    exact h name node (AList.mem_lookup_iff.mpr hmem)

theorem intact_insert {t : Table} (h : t.intact = true) (name : Bytes) (sn : SerialNumber) :
    Table.intact
      { t with persistentAliasTree := t.persistentAliasTree.insert name { sn } } = true := by
  rw [intact_iff] at h ⊢
  intro name' node hl
  by_cases hn : name' = name
  · subst hn
    rw [AList.lookup_insert, Option.some.injEq] at hl
    rw [← hl]
  · exact h name' node (AList.lookup_insert_ne hn ▸ hl)

theorem tfind_of_intact {t : Table} (h : t.intact = true) (name : Bytes) :
    t.tfind name = some (t.persistentAliasTree.lookup name) := if_pos h

/-- A freed node breaks every search. -/
theorem not_intact_of_freed {t : Table} {name : Bytes} {sn : SerialNumber}
    (h : t.persistentAliasTree.lookup name = some ⟨sn, true⟩) : t.intact = false := by
  rw [Bool.eq_false_iff]
  intro hi
  exact Bool.noConfusion (intact_iff.mp hi name _ h)

variable {markers : Markers} {t : Table} {name : Bytes} {sn : SerialNumber}

/-- In a good table a node is known by its serial number. -/
theorem Table.Good.node_eq (h : t.Good markers) {node : AliasNode}
    (hl : t.persistentAliasTree.lookup name = some node) : node = { sn := node.sn } := by
  have := intact_iff.mp h.intact name node hl
  cases node
  simp_all

theorem Table.Good.cacheGetAliasSN (h : t.Good markers) (name : Bytes) :
    cacheGetAliasSN name t = some ((t.persistentAliasTree.lookup name).map AliasNode.sn) := by
  unfold Alias.cacheGetAliasSN
  split
  case isTrue hlen =>
    rw [List.length_eq_zero_iff.mp hlen, h.nonempty]
    rfl
  case isFalse => rw [tfind_of_intact h.intact, Option.map_some]

theorem Table.Good.inverse_of (h : t.Good markers) : t.Inverse markers := by
  intro sn name
  refine ⟨_, h.cacheGetAliasSN name, ?_⟩
  rw [h.inverse]
  constructor
  · intro hl
    rw [hl, Option.map_some]
  · intro hl
    obtain ⟨node, hnode, rfl⟩ := Option.map_eq_some_iff.mp hl
    rw [hnode, h.node_eq hnode]

/-- Once a node is freed the names can no longer be looked up. -/
theorem not_inverse_of_not_intact (h : t.intact = false) : ¬ t.Inverse markers := by
  intro hinv
  obtain ⟨found, hfound, -⟩ := hinv .zero [chr 'a']
  simp [Alias.cacheGetAliasSN, Table.tfind, h] at hfound

/-! ## What one call does -/

/-- Neither the name nor the device has an entry. -/
def Table.Fresh (markers : Markers) (t : Table) (name : Bytes) (sn : SerialNumber) : Prop :=
  t.persistentAliasTree.lookup name = none ∧ t.cacheGetAlias markers sn = none

/-- The table after a new entry. -/
def Table.assign (markers : Markers) (made : Int) (name : Bytes) (sn : SerialNumber) (t : Table) :
    Table where
  trees := (Cache.cacheAddAlias markers made name sn t.trees).2
  persistentAliasTree := t.persistentAliasTree.insert name { sn }

theorem aliasKey_ne {sn sn' : SerialNumber} (h : sn' ≠ sn) :
    aliasKey markers sn' ≠ aliasKey markers sn :=
  fun heq => h (congrArg TreeKey.sn heq)

theorem cacheGetAlias_assign (hname : name ≠ []) (made : Int) (sn' : SerialNumber) :
    (t.assign markers made name sn).cacheGetAlias markers sn'
      = if sn' = sn then some name else t.cacheGetAlias markers sn' := by
  have hlen : ¬ name.length = 0 := fun h => hname (List.length_eq_zero_iff.mp h)
  simp only [Table.cacheGetAlias, Table.assign, Cache.cacheGetAlias, Cache.cacheAddAlias,
    if_neg hlen, Trees.addPersistent]
  split
  case isTrue h =>
    subst h
    rw [AList.lookup_insert, Option.map_some]
  case isFalse h => rw [AList.lookup_insert_ne (aliasKey_ne h)]

theorem Table.Good.assign (h : t.Good markers) (hname : name ≠ [])
    (hfresh : t.Fresh markers name sn) (made : Int) :
    (t.assign markers made name sn).Good markers where
  intact := intact_insert h.intact name sn
  inverse := by
    intro sn' name'
    rw [cacheGetAlias_assign hname]
    show _ ↔ (t.persistentAliasTree.insert name { sn }).lookup name' = _
    by_cases hn : name' = name
    · subst hn
      rw [AList.lookup_insert]
      split
      case isTrue hs => simp [hs]
      case isFalse hs =>
        -- the name was nobody's before
        rw [h.inverse, hfresh.1]
        simp [Ne.symm hs]
    · rw [AList.lookup_insert_ne hn, ← h.inverse]
      split
      case isTrue hs => simp [hs, hfresh.2, Ne.symm hn]
      case isFalse => rfl
  nonempty := by
    show (t.persistentAliasTree.insert name { sn }).lookup [] = none
    rw [AList.lookup_insert_ne hname.symm]
    exact h.nonempty

theorem cacheAddAlias_of_intact (h : t.intact = true) (hname : name ≠ []) (made : Int) :
    t.cacheAddAlias markers made name sn = some (.good, t.assign markers made name sn) := by
  have hlen : ¬ name.length = 0 := fun h => hname (List.length_eq_zero_iff.mp h)
  rw [Table.cacheAddAlias, if_neg hlen]
  simp [cacheAddAliasSN, hname, cacheAddAliasPersistent, tfind_of_intact h, Table.assign,
    Cache.cacheAddAlias, Trees.addPersistent]

theorem cacheAddAlias_of_not_intact (h : t.intact = false) (hname : name ≠ []) (made : Int) :
    t.cacheAddAlias markers made name sn = none := by
  have hlen : ¬ name.length = 0 := fun h => hname (List.length_eq_zero_iff.mp h)
  rw [Table.cacheAddAlias, if_neg hlen]
  simp [cacheAddAliasSN, hname, cacheAddAliasPersistent, Table.tfind, h]

theorem cacheDelAlias_of_none (h : t.cacheGetAlias markers sn = none) :
    t.cacheDelAlias markers sn = some t := by
  rw [Table.cacheDelAlias, h]

/-- **Deleting an alias leaves a freed node in the tree.** -/
theorem cacheDelAlias_of_some (h : t.Good markers) (hsn : t.cacheGetAlias markers sn = some name) :
    ∃ t', t.cacheDelAlias markers sn = some t' ∧ t'.intact = false := by
  have hnode := (h.inverse sn name).mp hsn
  have hfind : Table.tfind { t with trees := Cache.cacheDelAlias markers sn t.trees } name
      = some (some { sn }) := (tfind_of_intact h.intact name).trans (congrArg some hnode)
  rw [Table.cacheDelAlias, hsn]
  simp only [cacheDelAliasPersistent, hfind]
  exact ⟨_, rfl, not_intact_of_freed (AList.lookup_insert _)⟩

/-- Nothing mends the tree. -/
theorem cacheDelAlias_of_not_intact (h : t.intact = false) {t' : Table}
    (hdel : t.cacheDelAlias markers sn = some t') : t' = t := by
  unfold Table.cacheDelAlias at hdel
  split at hdel
  case h_1 => exact (Option.some.inj hdel).symm
  case h_2 =>
    have hfind : Table.tfind { t with trees := Cache.cacheDelAlias markers sn t.trees } =
        fun _ => none := by
      funext name
      exact if_neg (Bool.eq_false_iff.mp h)
    simp [cacheDelAliasPersistent, hfind] at hdel

theorem not_intact_of_cacheAddAlias (h : t.intact = false) {made : Int} {ret : GoodOrBad}
    {t' : Table} (hadd : t.cacheAddAlias markers made name sn = some (ret, t')) :
    t'.intact = false := by
  by_cases hname : name = []
  · subst hname
    simp only [Table.cacheAddAlias, List.length_nil, if_pos, Option.some.injEq,
      Prod.mk.injEq] at hadd
    rw [← hadd.2]
    exact h
  · rw [cacheAddAlias_of_not_intact h hname] at hadd
    cases hadd

/-- **The call that gives a fresh name to a fresh device.** The empty name is not stored. -/
theorem testAndAddAlias_fresh (h : t.Good markers) (hok : admissible (trim name) = true)
    (hfresh : t.Fresh markers (trim name) sn) (made : Int) :
    testAndAddAlias markers made name sn t
      = some (.good, if trim name = [] then t else t.assign markers made (trim name) sn) := by
  rw [testAndAddAlias, if_pos hok, h.cacheGetAliasSN, hfresh.1]
  simp only [Option.map_none, Option.bind_eq_bind, Option.bind_some, cacheDelAlias_of_none hfresh.2]
  by_cases hname : trim name = []
  · rw [if_pos hname, hname]
    rfl
  · rw [if_neg hname, cacheAddAlias_of_intact h.intact hname]

theorem testAndAddAlias_repeat (h : t.Good markers) (hok : admissible (trim name) = true)
    (hl : t.persistentAliasTree.lookup (trim name) = some { sn }) (made : Int) :
    testAndAddAlias markers made name sn t = some (.good, t) := by
  rw [testAndAddAlias, if_pos hok, h.cacheGetAliasSN, hl]
  simp

theorem testAndAddAlias_refused (hok : ¬ admissible (trim name) = true) (made : Int) :
    testAndAddAlias markers made name sn t = some (.bad, t) := by
  rw [testAndAddAlias, if_neg hok]

/-- **A call that takes a name from its device breaks the table**, and then goes on with it. -/
theorem testAndAddAlias_removes (h : t.Good markers) (hok : admissible (trim name) = true)
    (hrepeat : t.persistentAliasTree.lookup (trim name) ≠ some { sn })
    (hfresh : ¬ t.Fresh markers (trim name) sn) {made : Int} {r : GoodOrBad × Table}
    (hcall : testAndAddAlias markers made name sn t = some r) :
    ∃ t₁ : Table, t₁.intact = false ∧ t₁.cacheAddAlias markers made (trim name) sn = some r := by
  rw [testAndAddAlias, if_pos hok, h.cacheGetAliasSN] at hcall
  cases hl : t.persistentAliasTree.lookup (trim name) with
  | some node =>
    have hnode := h.node_eq hl
    have hne : ¬ sn = node.sn := by
      rintro rfl
      exact hrepeat (hl.trans (congrArg some hnode))
    obtain ⟨t₁, hdel, hbroken⟩ := cacheDelAlias_of_some h ((h.inverse node.sn _).mpr (hnode ▸ hl))
    simp only [hl, Option.map_some, Option.bind_eq_bind, Option.bind_some, if_neg hne,
      hdel] at hcall
    obtain ⟨t₂, hdel₂, hadd⟩ := Option.bind_eq_some_iff.mp hcall
    cases cacheDelAlias_of_not_intact hbroken hdel₂
    exact ⟨_, hbroken, hadd⟩
  | none =>
    obtain ⟨old, hold⟩ := Option.ne_none_iff_exists'.mp fun hnone => hfresh ⟨hl, hnone⟩
    obtain ⟨t₁, hdel, hbroken⟩ := cacheDelAlias_of_some h hold
    simp only [hl, Option.map_none, Option.bind_eq_bind, Option.bind_some, hdel] at hcall
    exact ⟨t₁, hbroken, hcall⟩

/-- In a broken table only an empty name is accepted. -/
theorem testAndAddAlias_of_not_intact (h : t.intact = false) {made : Int} {ret : GoodOrBad}
    {t' : Table} (hcall : testAndAddAlias markers made name sn t = some (ret, t')) :
    t' = t ∧ (admissible (trim name) = true → trim name = []) := by
  by_cases hok : admissible (trim name) = true
  · by_cases hname : trim name = []
    · refine ⟨?_, fun _ => hname⟩
      rw [testAndAddAlias, if_pos hok, hname, cacheGetAliasSN, List.length_nil, if_pos rfl,
        Option.bind_eq_bind, Option.bind_some] at hcall
      obtain ⟨t₁, hdel, hadd⟩ := Option.bind_eq_some_iff.mp hcall
      cases cacheDelAlias_of_not_intact h hdel
      cases hadd
      rfl
    · simp [testAndAddAlias, hok, cacheGetAliasSN, hname, Table.tfind, h] at hcall
  · rw [testAndAddAlias_refused hok] at hcall
    cases hcall
    exact ⟨rfl, fun hok' => absurd hok' hok⟩

/-! ## Runs -/

/-- A call of `Test_and_Add_Alias`, with the clock reading it makes. -/
structure AliasCall where
  name : Bytes
  sn : SerialNumber
  made : Int

/-- The table after a call, `none` after free memory was read. -/
def aliasNext (markers : Markers) (s : Option Table) (c : AliasCall) : Option Table := do
  let t ← s
  let (_, t) ← testAndAddAlias markers c.made c.name c.sn t
  some t

/-- A call as a step of a run. -/
def aliasStep (markers : Markers) (s : Option Table) (c : AliasCall) : Option (Option Table) :=
  some (aliasNext markers s c)

/-- The call removes no alias that exists: the name is refused, or is the alias of this device
already, or neither the name nor the device has an entry. -/
def Table.Keeps (markers : Markers) (t : Table) (c : AliasCall) : Prop :=
  admissible (trim c.name) = true →
    t.persistentAliasTree.lookup (trim c.name) = some { sn := c.sn } ∨
    t.Fresh markers (trim c.name) c.sn

theorem Table.Good.testAndAddAlias {c : AliasCall} (h : t.Good markers)
    (hkeeps : t.Keeps markers c) :
    ∃ ret t', testAndAddAlias markers c.made c.name c.sn t = some (ret, t') ∧ t'.Good markers := by
  by_cases hok : admissible (trim c.name) = true
  · rcases hkeeps hok with hl | hfresh
    · exact ⟨_, _, testAndAddAlias_repeat h hok hl c.made, h⟩
    · refine ⟨_, _, testAndAddAlias_fresh h hok hfresh c.made, ?_⟩
      split
      case isTrue => exact h
      case isFalse hname => exact h.assign hname hfresh c.made
  · exact ⟨_, _, testAndAddAlias_refused hok c.made, h⟩

theorem not_intact_of_not_keeps {c : AliasCall} (h : t.Good markers) (hnot : ¬ t.Keeps markers c)
    {ret : GoodOrBad} {t' : Table}
    (hcall : testAndAddAlias markers c.made c.name c.sn t = some (ret, t')) :
    t'.intact = false := by
  simp only [Table.Keeps, not_forall, not_or] at hnot
  obtain ⟨hok, hrepeat, hfresh⟩ := hnot
  obtain ⟨t₁, hbroken, hadd⟩ := testAndAddAlias_removes h hok hrepeat hfresh hcall
  exact not_intact_of_cacheAddAlias hbroken hadd

theorem aliasNext_eq_some {c : AliasCall} {t' : Table} :
    aliasNext markers (some t) c = some t' ↔
      ∃ ret, testAndAddAlias markers c.made c.name c.sn t = some (ret, t') := by
  simp only [aliasNext, Option.bind_eq_bind, Option.bind_some, Option.bind_eq_some_iff, Prod.exists,
    Option.some.injEq, exists_eq_right]

theorem good_empty (temporary : CacheData) : Table.Good markers { trees := { temporary } } where
  intact := rfl
  inverse := by
    intro sn name
    constructor <;> intro h <;> cases h
  nonempty := rfl

/-- **The two directions stay inverse to each other exactly as long as no alias is removed.** -/
theorem inverse_iff (markers : Markers) (temporary : CacheData) (calls : List AliasCall) :
    Throughout (aliasStep markers) (fun s => ∃ t, s = some t ∧ t.Inverse markers)
        (some { trees := { temporary } }) calls
      ↔ EachStep (aliasStep markers) (fun s c => ∀ t, s = some t → t.Keeps markers c)
        (some { trees := { temporary } }) calls := by
  refine throughout_iff (I := fun s => ∃ t, s = some t ∧ t.Good markers) ?_ ?_ ?_
    ⟨_, rfl, good_empty temporary⟩
  · rintro s ⟨t, rfl, h⟩
    exact ⟨t, rfl, h.inverse_of⟩
  · rintro s c s' ⟨t, rfl, h⟩ hstep hkeeps
    obtain ⟨ret, t', hcall, h'⟩ := h.testAndAddAlias (hkeeps t rfl)
    cases hstep
    exact ⟨t', aliasNext_eq_some.mpr ⟨ret, hcall⟩, h'⟩
  · rintro s c s' ⟨t, rfl, h⟩ hstep hnot ⟨t', rfl, hinv⟩
    obtain ⟨ret, hcall⟩ := aliasNext_eq_some.mp (Option.some.inj hstep)
    refine not_inverse_of_not_intact (not_intact_of_not_keeps h ?_ hcall) hinv
    rintro hkeeps
    exact hnot fun t₁ ht => Option.some.inj ht ▸ hkeeps

/-- The table after a sequence of calls. -/
def aliasRun (markers : Markers) (s : Option Table) (calls : List AliasCall) : Option Table :=
  calls.foldl (aliasNext markers) s

theorem aliasRun_none (calls : List AliasCall) : aliasRun markers none calls = none := by
  induction calls with
  | nil => rfl
  | cons c calls ih => exact ih

theorem aliasRun_of_not_intact (h : t.intact = false) (calls : List AliasCall) {t' : Table}
    (hrun : aliasRun markers (some t) calls = some t') : t'.intact = false := by
  induction calls generalizing t with
  | nil =>
    cases hrun
    exact h
  | cons c calls ih =>
    change aliasRun markers (aliasNext markers (some t) c) calls = some t' at hrun
    cases hnext : aliasNext markers (some t) c with
    | none =>
      rw [hnext, aliasRun_none] at hrun
      cases hrun
    | some t₁ =>
      rw [hnext] at hrun
      obtain ⟨ret, hcall⟩ := aliasNext_eq_some.mp hnext
      exact ih ((testAndAddAlias_of_not_intact h hcall).1 ▸ h) hrun

/-- **Either every call of a run kept the aliases there were, and the table is good; or the table is
broken.** -/
theorem keeps_or_broken (h : t.Good markers) (calls : List AliasCall) :
    (∃ t', aliasRun markers (some t) calls = some t' ∧ t'.Good markers ∧ ∀ rest,
      (EachStep (aliasStep markers) (fun s c => ∀ t, s = some t → t.Keeps markers c) (some t)
      (calls ++ rest) ↔
        EachStep (aliasStep markers) (fun s c => ∀ t, s = some t → t.Keeps markers c) (some t')
        rest)) ∨
    (∀ t', aliasRun markers (some t) calls = some t' → t'.intact = false) ∧ ∀ rest,
      ¬ EachStep (aliasStep markers) (fun s c => ∀ t, s = some t → t.Keeps markers c) (some t)
        (calls ++ rest) := by
  induction calls generalizing t with
  | nil => exact .inl ⟨t, rfl, h, fun rest => Iff.rfl⟩
  | cons c calls ih =>
    have hrun : aliasRun markers (some t) (c :: calls)
        = aliasRun markers (aliasNext markers (some t) c) calls := rfl
    have heach : ∀ rest,
        EachStep (aliasStep markers) (fun s c => ∀ t, s = some t → t.Keeps markers c)
        (some t) (c :: calls ++ rest) ↔ t.Keeps markers c ∧
          EachStep (aliasStep markers) (fun s c => ∀ t, s = some t → t.Keeps markers c)
            (aliasNext markers (some t) c) (calls ++ rest) := by
      intro rest
      simp only [List.cons_append, EachStep, aliasStep, Option.some.injEq, forall_eq']
    simp only [hrun, heach]
    by_cases hkeeps : t.Keeps markers c
    · obtain ⟨ret, t₁, hcall, h₁⟩ := h.testAndAddAlias hkeeps
      rw [aliasNext_eq_some.mpr ⟨ret, hcall⟩]
      simp only [hkeeps, true_and]
      exact ih h₁
    · refine .inr ⟨?_, fun rest hall => hkeeps hall.1⟩
      intro t' hrun'
      cases hnext : aliasNext markers (some t) c with
      | none =>
        rw [hnext, aliasRun_none] at hrun'
        cases hrun'
      | some t₁ =>
        rw [hnext] at hrun'
        obtain ⟨ret, hcall⟩ := aliasNext_eq_some.mp hnext
        exact aliasRun_of_not_intact (not_intact_of_not_keeps h hkeeps hcall) calls hrun'

def sampleSn : SerialNumber := ⟨[0x10, 0x67, 0xC6, 0x69, 0x73, 0x51, 0xFF, 0x8D], rfl⟩

/-- A name is given and taken back. -/
def sampleCalls : List AliasCall := [⟨ascii "kitchen", sampleSn, 0⟩, ⟨[], sampleSn, 0⟩]

/-- The name that was taken back is still in the tree, and its node is free memory. -/
theorem not_inverse_sampleCalls :
    ¬ Throughout (aliasStep ⟨1, 2, 3⟩) (fun s => ∃ t, s = some t ∧ t.Inverse ⟨1, 2, 3⟩)
      (some { trees := { temporary := {} } }) sampleCalls := by
  intro h
  obtain ⟨t, ht, hinv⟩ := (h.2 _ rfl).2 _ rfl
  refine not_inverse_of_not_intact ?_ hinv
  cases ht
  decide

end Owfs.Alias
