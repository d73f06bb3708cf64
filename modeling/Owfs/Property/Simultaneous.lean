import Owfs.Cache.Entries
import Owfs.Property.Local

/-!
# Simultaneous conversions

A write to `simultaneous/temperature`, `voltage` or `iblss` makes all devices of a directory
convert at once, and leaves a marker in the cache for as long as the result is good. Reading the
file back tells whether there is a marker, and the devices look for it to skip a conversion of
their own.

The writer and its readers make the key of the marker in different ways. The temperature marker is
kept under extension 0 (`Cache_Add_Simul`), the other two under `EXTENSION_INTERNAL`
(`Cache_Add_SlaveSpecific`). `FS_r_convert` looks for the latter and `Cache_Get_Simul_Time` for the
former, whatever the kind. So no marker is seen by all of its readers.

The bus transactions are not modelled beyond their results.
-/

namespace Owfs.Simultaneous

open Infra Owfs.Device Owfs.Cache

/-! ## Kinds of conversion -/

inductive Kind where
  | temperature | voltage | iblss
deriving DecidableEq, Repr

/-- The names of the internal properties `S_T`, `S_V` and `S_I`. A name is known by its address. -/
structure Tags where
  name : Kind → BitVec 64
  distinct : Function.Injective name

/-- `SlaveSpecificTag` -/
def Tags.ip (tags : Tags) (kind : Kind) : InternalProp := ⟨tags.name kind, .volatile⟩

/-- What a write meets: the value, the adapter, the results of the transactions and the clock. -/
structure Conversion where
  /-- `OWQ_Y` -/
  y : Bool
  /-- The adapter is one of those that only "fake a successful write". -/
  fakeWrite : Bool
  /-- What the power mode is read as; `none` when that transaction fails. -/
  power : Option Byte
  /-- The result of the conversion, which differs between powered and unpowered buses. -/
  convert : Bool → Bool
  made : Int
  now : Int
  flipTime : Int
  delNow : Int

section

variable (g : Globals) (tags : Tags)

/-- `FS_w_convert_temp` -/
def fsWConvertTemp (c : Conversion) (pn : DirectoryName) (trees : Trees) : Int × Trees :=
  if c.y = false then (0, trees)
  else if c.fakeWrite then (0, trees)
  else
    let directory := pn.loadDirectoryOnly
    match c.power with
    -- `RETURN_BAD_IF_BAD`
    | none => (1, trees)
    | some pow =>
      -- "Mark start time"
      let trees :=
        (cacheAddSimul g c.made c.now c.flipTime (tags.ip .temperature) directory trees).2
      if c.convert (pow ≠ 0) then (0, trees)
      -- "Clear start time"
      else (-einval, cacheDelSimul c.delNow (tags.ip .temperature) directory trees)

/-- `FS_w_convert_volt` and `FS_w_convert_iblss`, which differ in what they send. -/
def fsWConvertInternal (kind : Kind) (c : Conversion) (pn : DirectoryName) (trees : Trees) :
    Int × Trees :=
  if c.y = false then (0, trees)
  else
    let directory := pn.loadDirectoryOnly
    -- "remove existing entry"
    let trees := cacheDelInternal g c.delNow (tags.ip kind) directory.sn trees
    if c.fakeWrite then (0, trees)
    else if c.convert true then
      (0, (cacheAddSlaveSpecific g c.made c.now c.flipTime [] (tags.ip kind) directory.sn trees).2)
    else (0, trees)

/-- `FS_w_convert_volt` -/
def fsWConvertVolt (c : Conversion) (pn : DirectoryName) (trees : Trees) : Int × Trees :=
  fsWConvertInternal g tags .voltage c pn trees

/-- `FS_w_convert_iblss` -/
def fsWConvertIblss (c : Conversion) (pn : DirectoryName) (trees : Trees) : Int × Trees :=
  fsWConvertInternal g tags .iblss c pn trees

def fsWConvert (kind : Kind) (c : Conversion) (pn : DirectoryName) (trees : Trees) : Int × Trees :=
  match kind with
  | .temperature => fsWConvertTemp g tags c pn trees
  | .voltage => fsWConvertVolt g tags c pn trees
  | .iblss => fsWConvertIblss g tags c pn trees

/-! ## Readers -/

/-- `FS_r_convert` -/
def fsRConvert (now : Int) (kind : Kind) (pn : DirectoryName) (trees : Trees) : Bool :=
  (cacheGetSlaveSpecific g now 0 (tags.ip kind) pn.loadDirectoryOnly.sn trees).isSome

/-- `FS_Test_Simultaneous`: the time to wait, if there is a conversion. -/
def fsTestSimultaneous (now : Int) (kind : Kind) (delay : Nat) (pn : DirectoryName)
    (trees : Trees) :
    Option Int :=
  (cacheGetSimulTime g now (tags.ip kind) pn trees).map fun dwellTime =>
    let remainingDelay := (delay : Int) - 1000 * dwellTime
    if remainingDelay > 0 then remainingDelay else 0

/-- `Cache_Get_Simultaneous`: the value of a property of the device `pn`, and `OWQ_SIMUL`. -/
def cacheGetSimultaneous (now now' : Int) (ip : InternalProp) (property : PropertyName)
    (pn : DirectoryName) (trees : Trees) : Option Bytes × Bool :=
  let duration := timeOut g.timeouts property.change
  if duration ≤ 0 then (none, false)
  else
    let res := cacheGetCommon now Property.sizeofValueObject duration property.key trees.temporary
    match res.getStat, cacheGetSimulTime g now' ip pn trees with
    | some value, none => (some value, false)
    | some value, some dwellTimeSimul =>
      -- "Simultaneous conversion is newer than previous reading."
      if dwellTimeSimul < duration - res.duration then (none, true) else (some value, false)
    | none, none => (none, false)
    | none, some _ => (none, true)

/-- The marker that `OWQ_Cache_Get` looks at for a property. -/
def owqCacheGetKind : FcChange → Option Kind
  | .simultaneousTemperature => some .temperature
  | .simultaneousVoltage => some .temperature
  | _ => none

/-- The properties that a conversion of the kind is for. There are none for `iblss`. -/
def Kind.change : Kind → Option FcChange
  | .temperature => some .simultaneousTemperature
  | .voltage => some .simultaneousVoltage
  | .iblss => none

end

/-- The value is the one of the query model. -/
theorem cacheGetSimultaneous_value (env : Property.Env) (now now' : Int) (q : Property.Query)
    (trees : Trees) :
    (cacheGetSimultaneous env.g now now' env.simultaneousTag q.name q.directory trees).1 =
      Property.cacheGetSimultaneous env now now' q trees := by
  have hchange : q.name.change = q.ft.change := rfl
  unfold cacheGetSimultaneous Property.cacheGetSimultaneous
  rw [hchange]
  dsimp only
  split
  · rfl
  · cases (cacheGetCommon now Property.sizeofValueObject (timeOut env.g.timeouts q.ft.change)
        q.name.key trees.temporary).getStat with
    | none =>
      cases cacheGetSimulTime env.g now' env.simultaneousTag q.directory trees <;> rfl
    | some value =>
      cases cacheGetSimulTime env.g now' env.simultaneousTag q.directory trees with
      | none => rfl
      | some dwellTimeSimul =>
        dsimp only
        split <;> simp_all [Option.filter]

/-! ## Runs -/

section

variable (tags : Tags)

/-- An operation of the cache that adds nothing under the names of the conversions. -/
def OtherName (markers : Markers) : CacheOp → Prop
  | .add name _ _ _ _ => ∀ kind, (name.key markers).p ≠ tags.name kind
  | _ => True

inductive Event (markers : Markers) where
  | convert (kind : Kind) (c : Conversion) (pn : DirectoryName)
  | cache (op : CacheOp) (other : OtherName tags markers op)

def step (markers : Markers) (w : World) : Event tags markers → World
  | .convert kind c pn => { w with trees := (fsWConvert w.g tags kind c pn w.trees).2 }
  | .cache op _ => w.step markers op

def run (markers : Markers) (w : World) (events : List (Event tags markers)) : World :=
  events.foldl (step tags markers) w

/-- What should hold after a write at the time `made`. A marker is seen by each of its readers for
as long as the timeout says, and nothing changes for the others. -/
structure MarkersRight (g : Globals) (kind : Kind) (pn : DirectoryName) (made : Int)
    (before after : Trees) : Prop where
  readBack : ∀ now, made ≤ now →
    (fsRConvert g tags now kind pn after = true ↔ now < made + timeOut g.timeouts .volatile)
  test : ∀ now delay, made ≤ now →
    ((fsTestSimultaneous g tags now kind delay pn after).isSome ↔
      now < made + timeOut g.timeouts .volatile)
  /-- for a property whose value is not in the cache -/
  simultaneous : ∀ change kind' property now now', kind.change = some change →
    owqCacheGetKind change = some kind' → property.change = change →
    after.temporary.entry property.key = none → made ≤ now → made ≤ now' →
    ((cacheGetSimultaneous g now now' (tags.ip kind') property pn after).2 = true ↔
      now' < made + timeOut g.timeouts .volatile)
  others : ∀ kind' pn' now, (kind', pn'.loadDirectoryOnly) ≠ (kind, pn.loadDirectoryOnly) →
    fsRConvert g tags now kind' pn' after = fsRConvert g tags now kind' pn' before ∧
      cacheGetSimulTime g now (tags.ip kind') pn' after =
      cacheGetSimulTime g now (tags.ip kind') pn' before

/-- The key under which the kind is looked for, but never kept. -/
def strayKey (kind : Kind) (sn : SerialNumber) : TreeKey :=
  ⟨sn, tags.name kind, if kind = .temperature then extensionInternal else 0⟩

/-- Nothing is kept under these keys. -/
def NoStray (trees : Trees) : Prop :=
  ∀ kind sn, trees.temporary.entry (strayKey tags kind sn) = none

end

section

variable {tags : Tags} {g : Globals} {trees trees' : Trees} {kind : Kind} {c : Conversion}
    {pn : DirectoryName}

theorem NoStray.keeps (h : NoStray tags trees)
    (hkeeps : ∀ kind sn, Keeps trees trees' (strayKey tags kind sn)) :
    NoStray tags trees' := by
  intro kind sn
  cases hentry : trees'.temporary.entry (strayKey tags kind sn) with
  | none => rfl
  | some tn' =>
    obtain ⟨tn, htn, -⟩ := (hkeeps kind sn).data tn' hentry
    rw [h kind sn] at htn
    cases htn

/-- The temperature marker has a key of its own. -/
theorem strayKey_ne_simul (kind : Kind) (sn sn' : SerialNumber) :
    strayKey tags kind sn ≠ ⟨sn', tags.name .temperature, 0⟩ := by
  intro he
  have hname : tags.name kind = tags.name .temperature := congrArg TreeKey.p he
  have hkind := tags.distinct hname
  subst hkind
  exact absurd (congrArg TreeKey.extension he) (by decide : extensionInternal ≠ 0)

/-- So have the other markers. -/
theorem strayKey_ne_internal (hkind : kind ≠ .temperature) (kind' : Kind) (sn sn' : SerialNumber) :
    strayKey tags kind' sn ≠ ⟨sn', tags.name kind, extensionInternal⟩ := by
  intro he
  have hname : tags.name kind' = tags.name kind := congrArg TreeKey.p he
  have hsame := tags.distinct hname
  subst hsame
  have hext := congrArg TreeKey.extension he
  dsimp only [strayKey] at hext
  rw [if_neg hkind] at hext
  exact absurd hext (by decide)

theorem keeps_fsWConvertTemp (kind' : Kind) (sn : SerialNumber) :
    Keeps trees (fsWConvertTemp g tags c pn trees).2 (strayKey tags kind' sn) := by
  have hadd : Keeps trees (cacheAddSimul g c.made c.now c.flipTime (tags.ip .temperature)
      pn.loadDirectoryOnly trees).2 (strayKey tags kind' sn) := by
    unfold cacheAddSimul
    dsimp only
    split
    · exact .refl ..
    · exact keeps_addCommon (strayKey_ne_simul kind' sn _)
  unfold fsWConvertTemp
  dsimp only
  split
  · exact .refl ..
  · split
    · exact .refl ..
    · split
      · exact .refl ..
      · split
        · exact hadd
        · exact hadd.trans keeps_delCommon

theorem keeps_fsWConvertInternal (hkind : kind ≠ .temperature) (kind' : Kind) (sn : SerialNumber) :
    Keeps trees (fsWConvertInternal g tags kind c pn trees).2 (strayKey tags kind' sn) := by
  have hdel : Keeps trees (cacheDelInternal g c.delNow (tags.ip kind) pn.loadDirectoryOnly.sn trees)
      (strayKey tags kind' sn) := by
    unfold cacheDelInternal
    dsimp only
    split
    · exact .refl ..
    · split
      · exact .of_temporary rfl
      · exact keeps_delCommon
  unfold fsWConvertInternal
  dsimp only
  split
  · exact .refl ..
  · split
    · exact hdel
    · split
      · refine hdel.trans ?_
        unfold cacheAddSlaveSpecific
        dsimp only
        split
        · exact .refl ..
        · split
          · exact .of_temporary rfl
          · exact keeps_addCommon (strayKey_ne_internal hkind kind' sn _)
      · exact hdel

theorem NoStray.fsWConvert (h : NoStray tags trees) :
    NoStray tags (fsWConvert g tags kind c pn trees).2 := by
  refine h.keeps fun kind' sn => ?_
  cases kind with
  | temperature => exact keeps_fsWConvertTemp kind' sn
  | voltage => exact keeps_fsWConvertInternal (by decide) kind' sn
  | iblss => exact keeps_fsWConvertInternal (by decide) kind' sn

theorem NoStray.step {markers : Markers} {w : World} (h : NoStray tags w.trees)
    (event : Event tags markers) :
    NoStray tags (step tags markers w event).trees := by
  cases event with
  | convert kind c pn => exact h.fsWConvert
  | cache op other =>
    refine h.keeps fun kind sn => keeps_step ?_
    rintro name data made now flipTime rfl he
    exact other kind (congrArg TreeKey.p he).symm

theorem NoStray.run {markers : Markers} {w : World} (h : NoStray tags w.trees)
    (events : List (Event tags markers)) :
    NoStray tags (run tags markers w events).trees := by
  induction events generalizing w with
  | nil => exact h
  | cons event events ih => exact ih (h.step event)

/-! ## Who sees a marker -/

theorem entry_of_fsRConvert {now : Int} (h : fsRConvert g tags now kind pn trees = true) :
    ∃ tn, trees.temporary.entry ⟨pn.loadDirectoryOnly.sn, tags.name kind, extensionInternal⟩ =
      some tn := by
  obtain ⟨data, hdata⟩ := Option.isSome_iff_exists.mp h
  unfold cacheGetSlaveSpecific cacheGetInternal at hdata
  rw [Option.filter_eq_some_iff] at hdata
  have hget := hdata.1
  dsimp only at hget
  split at hget
  · cases hget
  · split at hget
    · next hpersistent => cases hpersistent
    · obtain ⟨tn, hentry, -⟩ := entry_of_cacheGetCommon hget
      exact ⟨tn, hentry⟩

theorem entry_of_cacheGetSimulTime {now : Int}
    (h : (cacheGetSimulTime g now (tags.ip kind) pn trees).isSome) :
    ∃ tn, trees.temporary.entry ⟨pn.loadDirectoryOnly.sn, tags.name kind, 0⟩ = some tn := by
  unfold cacheGetSimulTime at h
  dsimp only at h
  split at h
  · cases h
  · rw [Option.isSome_map] at h
    obtain ⟨data, hdata⟩ := Option.isSome_iff_exists.mp h
    obtain ⟨tn, hentry, -⟩ := entry_of_cacheGetCommon hdata
    exact ⟨tn, hentry⟩

/-- **No marker is seen both by the file that is read back and by the devices.** -/
theorem NoStray.not_both (h : NoStray tags trees) {now now' : Int}
    (hread : fsRConvert g tags now kind pn trees = true)
    (htest : (cacheGetSimulTime g now' (tags.ip kind) pn trees).isSome) : False := by
  obtain ⟨tn, hinternal⟩ := entry_of_fsRConvert hread
  obtain ⟨tn', hsimul⟩ := entry_of_cacheGetSimulTime htest
  cases kind with
  | temperature =>
    rw [show (⟨pn.loadDirectoryOnly.sn, tags.name .temperature, extensionInternal⟩ : TreeKey) =
      strayKey tags .temperature pn.loadDirectoryOnly.sn from rfl, h] at hinternal
    cases hinternal
  | voltage =>
    rw [show (⟨pn.loadDirectoryOnly.sn, tags.name .voltage, 0⟩ : TreeKey) =
      strayKey tags .voltage pn.loadDirectoryOnly.sn from rfl, h] at hsimul
    cases hsimul
  | iblss =>
    rw [show (⟨pn.loadDirectoryOnly.sn, tags.name .iblss, 0⟩ : TreeKey) =
      strayKey tags .iblss pn.loadDirectoryOnly.sn from rfl, h] at hsimul
    cases hsimul

/-- Without a timeout there are no markers. -/
theorem fsRConvert_of_no_timeout (hg : timeOut g.timeouts .volatile ≤ 0) (now : Int) :
    fsRConvert g tags now kind pn trees = false := by
  unfold fsRConvert cacheGetSlaveSpecific cacheGetInternal
  dsimp only [Tags.ip]
  rw [if_pos hg]
  rfl

theorem cacheGetSimulTime_of_no_timeout (hg : timeOut g.timeouts .volatile ≤ 0) (now : Int) :
    cacheGetSimulTime g now (tags.ip kind) pn trees = none := by
  unfold cacheGetSimulTime
  dsimp only [Tags.ip]
  rw [if_pos hg]

theorem cacheGetSimultaneous_of_no_timeout {change : FcChange}
    (hg : timeOut g.timeouts .volatile ≤ 0) (hchange : kind.change = some change)
    {property : PropertyName} (hproperty : property.change = change) (now now' : Int)
    (ip : InternalProp) :
    (cacheGetSimultaneous g now now' ip property pn trees).2 = false := by
  have hduration : timeOut g.timeouts property.change ≤ 0 := by
    rw [hproperty]
    cases kind with
    | temperature =>
      cases hchange
      exact hg
    | voltage =>
      cases hchange
      exact hg
    | iblss => cases hchange
  unfold cacheGetSimultaneous
  dsimp only
  rw [if_pos hduration]

end

/-- A cache that has just been opened is empty. -/
theorem noStray_opened (tags : Tags) (value : TimeoutSetting → BitVec 32) (cacheSize : Nat)
    (start : Int) :
    NoStray tags (World.opened value cacheSize start).trees :=
  fun _ _ => rfl

/-- **At any point of any run, the marker of a conversion is right exactly when the timeout makes it
void.** So it is after every write, those that report success and those that do not. -/
theorem markersRight_iff (tags : Tags) (markers : Markers) (value : TimeoutSetting → BitVec 32)
    (cacheSize : Nat) (start : Int) (events : List (Event tags markers)) (kind : Kind)
    (c : Conversion) (pn : DirectoryName) :
    let w := run tags markers (.opened value cacheSize start) events
    MarkersRight tags w.g kind pn c.made w.trees (fsWConvert w.g tags kind c pn w.trees).2 ↔
      timeOut w.g.timeouts .volatile ≤ 0 := by
  intro w
  have hstray : NoStray tags (fsWConvert w.g tags kind c pn w.trees).2 :=
    ((noStray_opened tags value cacheSize start).run events).fsWConvert
  constructor
  · intro h
    by_contra hpos
    have hwindow : c.made < c.made + timeOut w.g.timeouts .volatile := by omega
    have hread := (h.readBack c.made (Int.le_refl _)).mpr hwindow
    have htest := (h.test c.made 0 (Int.le_refl _)).mpr hwindow
    rw [fsTestSimultaneous, Option.isSome_map] at htest
    exact hstray.not_both hread htest
  · intro hg
    have hover : ∀ {now : Int}, c.made ≤ now → ¬ now < c.made + timeOut w.g.timeouts .volatile := by
      intro now hnow
      omega
    constructor
    · intro now hnow
      rw [fsRConvert_of_no_timeout hg]
      exact iff_of_false (by decide) (hover hnow)
    · intro now delay hnow
      rw [fsTestSimultaneous, cacheGetSimulTime_of_no_timeout hg]
      exact iff_of_false (by simp) (hover hnow)
    · intro change kind' property now now' hchange _ hproperty _ _ hnow'
      rw [cacheGetSimultaneous_of_no_timeout hg hchange hproperty]
      exact iff_of_false (by decide) (hover hnow')
    · intro kind' pn' now _
      rw [fsRConvert_of_no_timeout hg, fsRConvert_of_no_timeout hg,
        cacheGetSimulTime_of_no_timeout hg, cacheGetSimulTime_of_no_timeout hg]
      exact ⟨rfl, rfl⟩

/-- The tags at some addresses. -/
def sampleTags : Tags where
  name
    | .temperature => 0x3000
    | .voltage => 0x3004
    | .iblss => 0x3008
  distinct := by
    rintro (_ | _ | _) (_ | _ | _) h <;> first | rfl | exact absurd h (by decide)

/-- A conversion that works, at the time 100. -/
def goodConversion : Conversion := ⟨true, false, some 1, fun _ => true, 100, 100, 100, 100⟩

/-- The temperature marker is seen by the devices but not by the file that is read back; with the
voltage marker it is the other way round, and the devices look at the temperature marker for a
voltage. -/
theorem not_markersRight_goodConversion :
    let w := World.opened defaultTimeouts 0 0
    let temp := (fsWConvert w.g sampleTags .temperature goodConversion rootDirectory w.trees).2
    let volt := (fsWConvert w.g sampleTags .voltage goodConversion rootDirectory w.trees).2
    (fsRConvert w.g sampleTags 101 .temperature rootDirectory temp = false ∧
        fsTestSimultaneous w.g sampleTags 101 .temperature 750 rootDirectory temp = some 0) ∧
      (fsRConvert w.g sampleTags 101 .voltage rootDirectory volt = true ∧
        fsTestSimultaneous w.g sampleTags 101 .voltage 750 rootDirectory volt = none) ∧
      ¬ MarkersRight sampleTags w.g .temperature rootDirectory 100 w.trees temp ∧
      ¬ MarkersRight sampleTags w.g .voltage rootDirectory 100 w.trees volt := by
  intro w temp volt
  have hread : fsRConvert w.g sampleTags 101 .temperature rootDirectory temp = false := by decide
  have htest : fsTestSimultaneous w.g sampleTags 101 .voltage 750 rootDirectory volt = none := by
    decide
  refine ⟨⟨hread, by decide⟩, ⟨by decide, htest⟩, ?_, ?_⟩
  · intro h
    have hseen := (h.readBack 101 (by decide)).mpr (by decide)
    rw [hread] at hseen
    cases hseen
  · intro h
    have hseen := (h.test 101 750 (by decide)).mpr (by decide)
    rw [htest] at hseen
    cases hseen

/-! ## Failed conversions -/

section

variable (g : Globals) (tags : Tags)

/-- The devices of the directory of `pn` find a temperature marker. -/
def Marked (now : Int) (pn : DirectoryName) (trees : Trees) : Prop :=
  (cacheGetSimulTime g now (tags.ip .temperature) pn trees).isSome = true

/-- The write fails: the power mode cannot be read, or the conversion is not done. -/
def Conversion.Fails (c : Conversion) : Prop :=
  c.y = true ∧ c.fakeWrite = false ∧ ∀ pow, c.power = some pow → c.convert (pow ≠ 0) = false

/-- A failed write leaves no marker, from its end on. -/
def Unmarked (c : Conversion) (pn : DirectoryName) (trees : Trees) : Prop :=
  (fsWConvertTemp g tags c pn trees).1 ≠ 0 →
    ∀ now, c.delNow ≤ now → ¬ Marked g tags now pn (fsWConvertTemp g tags c pn trees).2

/-- The directory of the directory has the same key. That is so for a root directory. -/
def SameKey (pn : DirectoryName) : Prop :=
  pn.loadDirectoryOnly.loadDirectoryOnly.sn = pn.loadDirectoryOnly.sn

def markerKey (pn : DirectoryName) : TreeKey := ⟨pn.loadDirectoryOnly.sn, tags.name .temperature, 0⟩

/-- The trees in which the marker is to be kept; they may be flipped before. -/
def Conversion.base (c : Conversion) (cache : CacheData) : CacheData :=
  if cache.timeToKill < c.now then flipTree c.flipTime cache else cache

/-- `Cache_Add_Common` refuses the marker. -/
def Full (cache : CacheData) : Prop :=
  g.cacheSize ≠ 0 ∧ cache.oldRamSize + cache.newRamSize > g.cacheSize

/-- Where a failed write finds the marker that it has to take back, and no older one is left:

* when the power mode cannot be read, nothing is taken back;
* a marker that was kept is taken back under the key of the directory of the directory;
* when the marker was refused, an older one is taken back if `Cache_Del_Common` looks for it. -/
def Withdrawn (c : Conversion) (pn : DirectoryName) (trees : Trees) : Prop :=
  match c.power with
  | none => ¬ Marked g tags c.delNow pn trees
  | some _ =>
    timeOut g.timeouts .volatile ≤ 0 ∨
      (¬ Full g (c.base trees.temporary) ∧
        (SameKey pn ∨ timeOut g.timeouts .volatile + c.made ≤ c.delNow)) ∨
      (Full g (c.base trees.temporary) ∧
        (¬ Marked g tags c.delNow pn { trees with temporary := c.base trees.temporary } ∨
          (SameKey pn ∧
            (((c.base trees.temporary).temporaryTreeNew.lookup (markerKey tags pn)).isSome = true ∨
              (c.base trees.temporary).timeToKill > c.delNow))))

end

section

variable {g : Globals} {tags : Tags} {trees : Trees} {c : Conversion} {pn : DirectoryName}
    {now now' : Int}

theorem sameKey_of_root (h : pn.bp = []) : SameKey pn := by
  have hdir : pn.loadDirectoryOnly = { pn with sn := .zero } := by
    rw [DirectoryName.loadDirectoryOnly, h]
    rfl
  rw [SameKey, hdir, DirectoryName.loadDirectoryOnly, h]
  rfl

/-- A marker is an entry without data that has not expired. -/
theorem marked_iff : Marked g tags now pn trees ↔ 0 < timeOut g.timeouts .volatile ∧
    ∃ tn, findForGet now (timeOut g.timeouts .volatile) (markerKey tags pn) trees.temporary =
    some tn ∧
      now < tn.expires ∧ tn.data = [] := by
  unfold Marked cacheGetSimulTime
  dsimp only [Tags.ip]
  split
  · next hle => exact iff_of_false (by simp) fun h => absurd h.1 (Int.not_lt.mpr hle)
  · next hpos =>
    have hpos : 0 < timeOut g.timeouts .volatile := Int.not_le.mp hpos
    rw [Option.isSome_map,
      show (⟨pn.loadDirectoryOnly.sn, tags.name .temperature, 0⟩ : TreeKey) =
        markerKey tags pn from rfl]
    unfold cacheGetCommon
    cases findForGet now (timeOut g.timeouts .volatile) (markerKey tags pn) trees.temporary with
    | none =>
      refine iff_of_false (by simp [GetResult.getStat]) ?_
      rintro ⟨-, tn, htn, -⟩
      cases htn
    | some tn =>
      dsimp only
      split
      · next hleft =>
        split
        · next hsize =>
          refine iff_of_true rfl ⟨hpos, tn, rfl, by omega, ?_⟩
          exact List.eq_nil_of_length_eq_zero (Nat.le_zero.mp hsize)
        · next hsize =>
          refine iff_of_false (by simp [GetResult.getStat]) ?_
          rintro ⟨-, tn', htn', -, hdata⟩
          cases htn'
          exact hsize (by rw [hdata]; exact Nat.le_refl 0)
      · next hleft =>
        refine iff_of_false (by simp [GetResult.getStat]) ?_
        rintro ⟨-, tn', htn', hlt, -⟩
        cases htn'
        omega

/-- A marker that is seen was seen before. -/
theorem Marked.earlier (h : Marked g tags now' pn trees) (hle : now ≤ now') :
    Marked g tags now pn trees := by
  obtain ⟨hpos, tn, htn, hlt, hdata⟩ := marked_iff.mp h
  refine marked_iff.mpr ⟨hpos, tn, ?_, by omega, hdata⟩
  unfold findForGet at htn ⊢
  split at htn
  · next hnew => exact htn
  · next hnew =>
    split at htn
    · rw [if_pos (by omega)]
      exact htn
    · cases htn

/-- A deletion under another key leaves the marker. -/
theorem marked_delCommon_of_ne {t : Int} {tk : TreeKey} (h : tk ≠ markerKey tags pn) :
    Marked g tags now pn (trees.delCommon t tk) ↔ Marked g tags now pn trees := by
  have hne : markerKey tags pn ≠ tk := h.symm
  have hfind : findForGet now (timeOut g.timeouts .volatile) (markerKey tags pn)
      (cacheDelCommon t tk trees.temporary).2 =
      findForGet now (timeOut g.timeouts .volatile) (markerKey tags pn) trees.temporary := by
    unfold cacheDelCommon
    split
    · rw [findForGet, findForGet, AList.lookup_insert_ne hne]
    · split
      · split
        · rw [findForGet, findForGet, AList.lookup_insert_ne hne]
        · rfl
      · rfl
  rw [marked_iff, marked_iff, Trees.delCommon, hfind]

/-- A deletion under the key itself takes the marker back, if it looks where the marker is. -/
theorem marked_delCommon_iff :
    Marked g tags c.delNow pn (trees.delCommon c.delNow (markerKey tags pn)) ↔
    Marked g tags c.delNow pn trees ∧
      ¬ ((trees.temporary.temporaryTreeNew.lookup (markerKey tags pn)).isSome = true ∨
        trees.temporary.timeToKill > c.delNow) := by
  constructor
  · intro h
    obtain ⟨hpos, tn, htn, hlt, hdata⟩ := marked_iff.mp h
    have hreach : ¬ ((trees.temporary.temporaryTreeNew.lookup (markerKey tags pn)).isSome = true ∨
        trees.temporary.timeToKill > c.delNow) := by
      intro hreach
      have hexpires := expires_of_cacheDelCommon hreach (entry_of_findForGet htn)
      omega
    refine ⟨?_, hreach⟩
    obtain ⟨hnew, htime⟩ := not_or.mp hreach
    rw [Trees.delCommon, cacheDelCommon] at h
    rw [Bool.not_eq_true, Option.isSome_eq_false_iff, Option.isNone_iff_eq_none] at hnew
    rw [hnew, if_neg htime] at h
    exact h
  · rintro ⟨h, hreach⟩
    obtain ⟨hnew, htime⟩ := not_or.mp hreach
    rw [Bool.not_eq_true, Option.isSome_eq_false_iff, Option.isNone_iff_eq_none] at hnew
    rw [Trees.delCommon, cacheDelCommon, hnew, if_neg htime]
    exact h

/-- The trees after the marker was to be kept. -/
theorem cacheAddSimul_eq (hpos : ¬ timeOut g.timeouts .volatile ≤ 0)
    (hfull : Full g (c.base trees.temporary)) :
    (cacheAddSimul g c.made c.now c.flipTime (tags.ip .temperature) pn.loadDirectoryOnly trees).2 =
      { trees with temporary := c.base trees.temporary } := by
  unfold cacheAddSimul Trees.addCommon cacheAddCommon
  dsimp only [Tags.ip]
  rw [if_neg hpos]
  unfold Full Conversion.base at hfull
  rw [if_pos hfull]
  rfl

/-- A marker that is kept is in the new tree. -/
theorem lookup_cacheAddSimul (hpos : ¬ timeOut g.timeouts .volatile ≤ 0)
    (hfull : ¬ Full g (c.base trees.temporary)) :
    (cacheAddSimul g c.made c.now c.flipTime (tags.ip .temperature) pn.loadDirectoryOnly
      trees).2.temporary.temporaryTreeNew.lookup
      (markerKey tags pn) =
        some ⟨markerKey tags pn, timeOut g.timeouts .volatile + c.made, []⟩ := by
  unfold cacheAddSimul Trees.addCommon cacheAddCommon
  dsimp only [Tags.ip]
  rw [if_neg hpos]
  unfold Full Conversion.base at hfull
  rw [if_neg hfull]
  exact AList.lookup_insert _

/-- The devices see it until it expires. -/
theorem marked_cacheAddSimul_iff (hpos : ¬ timeOut g.timeouts .volatile ≤ 0)
    (hfull : ¬ Full g (c.base trees.temporary)) :
    Marked g tags now pn
        (cacheAddSimul g c.made c.now c.flipTime (tags.ip .temperature) pn.loadDirectoryOnly
          trees).2 ↔
      now < timeOut g.timeouts .volatile + c.made := by
  rw [marked_iff, findForGet, lookup_cacheAddSimul hpos hfull]
  constructor
  · rintro ⟨-, tn, htn, hlt, -⟩
    cases htn
    exact hlt
  · intro hlt
    exact ⟨Int.not_le.mp hpos, _, rfl, hlt, rfl⟩

theorem not_marked_of_no_timeout (hle : timeOut g.timeouts .volatile ≤ 0) :
    ¬ Marked g tags now pn trees :=
  fun h => absurd (marked_iff.mp h).1 (Int.not_lt.mpr hle)

/-- The result of a write, and what a failed one leaves. -/
theorem fsWConvertTemp_ne_zero_iff : (fsWConvertTemp g tags c pn trees).1 ≠ 0 ↔ c.Fails := by
  unfold fsWConvertTemp Conversion.Fails
  cases hy : c.y with
  | false => simp
  | true =>
    cases hfake : c.fakeWrite with
    | true => simp
    | false =>
      cases hpower : c.power with
      | none => simp
      | some pow =>
        dsimp only
        cases hconvert : c.convert (pow ≠ 0) with
        | true => simp_all
        | false => simp_all [einval]

theorem fsWConvertTemp_of_fails (h : c.Fails) :
    (fsWConvertTemp g tags c pn trees).2 =
      match c.power with
      | none => trees
      | some _ =>
        (cacheAddSimul g c.made c.now c.flipTime (tags.ip .temperature) pn.loadDirectoryOnly
          trees).2.delCommon
          c.delNow ⟨pn.loadDirectoryOnly.loadDirectoryOnly.sn, tags.name .temperature, 0⟩ := by
  obtain ⟨hy, hfake, hconvert⟩ := h
  unfold fsWConvertTemp
  rw [if_neg (by rw [hy]; decide), if_neg (by rw [hfake]; decide)]
  cases hpower : c.power with
  | none => rfl
  | some pow =>
    dsimp only
    rw [hconvert pow hpower]
    rfl

/-- The key under which the marker is taken back. -/
theorem delKey_eq_iff :
    (⟨pn.loadDirectoryOnly.loadDirectoryOnly.sn, tags.name .temperature, 0⟩ : TreeKey) =
      markerKey tags pn ↔
      SameKey pn := by
  unfold markerKey SameKey
  constructor
  · intro h
    exact congrArg TreeKey.sn h
  · intro h
    rw [h]

end

/-- **Exactly then a failed write leaves no marker.** -/
theorem unmarked_iff (g : Globals) (tags : Tags) (c : Conversion) (pn : DirectoryName)
    (trees : Trees) :
    Unmarked g tags c pn trees ↔ (c.Fails → Withdrawn g tags c pn trees) := by
  unfold Unmarked
  rw [fsWConvertTemp_ne_zero_iff]
  refine forall_congr' fun hfails => ?_
  have hend : (∀ now, c.delNow ≤ now →
      ¬ Marked g tags now pn (fsWConvertTemp g tags c pn trees).2) ↔
      ¬ Marked g tags c.delNow pn (fsWConvertTemp g tags c pn trees).2 :=
    ⟨fun h => h c.delNow (Int.le_refl _), fun h now hle hmarked => h (hmarked.earlier hle)⟩
  rw [hend, fsWConvertTemp_of_fails hfails]
  unfold Withdrawn
  cases c.power with
  | none => rfl
  | some pow =>
    dsimp only
    by_cases hle : timeOut g.timeouts .volatile ≤ 0
    · exact iff_of_true (not_marked_of_no_timeout hle) (.inl hle)
    · by_cases hfull : Full g (c.base trees.temporary)
      · -- the marker was refused
        rw [cacheAddSimul_eq hle hfull]
        by_cases hkey : SameKey pn
        · rw [delKey_eq_iff.mpr hkey, marked_delCommon_iff]
          simp only [hle, hfull, hkey, false_or, not_true, false_and, true_and]
          tauto
        · rw [marked_delCommon_of_ne fun h => hkey (delKey_eq_iff.mp h)]
          simp only [hle, hfull, hkey, false_or, not_true, false_and, true_and, or_false]
      · -- the marker is in the new tree
        by_cases hkey : SameKey pn
        · rw [delKey_eq_iff.mpr hkey, marked_delCommon_iff, lookup_cacheAddSimul hle hfull]
          simp [hle, hfull, hkey]
        · rw [marked_delCommon_of_ne fun h => hkey (delKey_eq_iff.mp h),
            marked_cacheAddSimul_iff hle hfull]
          simp only [hle, hfull, hkey, false_or, not_false_eq_true, true_and, false_and, or_false,
            Int.not_lt]

/-- A directory behind a coupler. -/
def branchDirectory : DirectoryName :=
  ⟨.zero, [⟨⟨[0x1F, 1, 0, 0, 0, 0, 0, 0x2E], rfl⟩, 0⟩], 0, false⟩

/-- A conversion that is not done, at the time 100. -/
def badConversion : Conversion := ⟨true, false, some 1, fun _ => false, 100, 100, 100, 100⟩

/-- The marker of the branch stays: the one of the root directory was taken back. -/
theorem branch_stays_marked :
    let w := World.opened defaultTimeouts 0 0
    (fsWConvertTemp w.g sampleTags badConversion branchDirectory w.trees).1 = -22 ∧
      ¬ Unmarked w.g sampleTags badConversion branchDirectory w.trees := by
  intro w
  have hret : (fsWConvertTemp w.g sampleTags badConversion branchDirectory w.trees).1 =
      -22 := by decide
  refine ⟨hret, ?_⟩
  intro h
  refine h (by rw [hret]; decide) 101 (by decide) ?_
  unfold Marked
  decide

end Owfs.Simultaneous
