import Owfs.Property.Local

/-!
# Reading after writing

A write deletes the entries of the cache that it makes stale. Which these are depends on the kind
of array: the elements of a separate array are cached one by one, an aggregate array only as a
whole, a mixed array both ways. Bit fields and arrays of texts are not cached.

The invariant says what a look-up can still find, now or later: only under the extensions that are
kept for this kind of array, and only data that was read from the device after every write that
wrote some of it. A write may only happen when all other entries it overlaps are gone.

A write of one element says nothing about the others, so their entries stay: what a read of another
element returns may well be older than the write.
-/

namespace Owfs.Property

open Infra Owfs.Cache Owfs.Device

/-! ## Runs -/

/-- A property of a device. The number of elements is an `int`. -/
structure LocalProperty where
  sn : SerialNumber
  ft : Filetype
  directory : DirectoryName
  elements_lt : ft.elements < 2 ^ 31

/-- The extensions that the parser accepts. -/
def Filetype.Accepts (ft : Filetype) : Extension → Prop
  | .elem n => match ft.ag with
    | none => n = 0
    | some ag => if ag.combined = .sparse then n < 2 ^ 31 else n < ag.elements
  | .all => ft.ag ≠ none
  | .byte => ft.ag ≠ none ∧ ft.format = .bitfield

/-- One access to a property. -/
structure Access (pr : LocalProperty) where
  extension : Extension
  accepted : pr.ft.Accepts extension
  size : Nat
  offset : Nat
  uncachedDir : Bool
  alarmDir : Bool

def Access.query {pr : LocalProperty} (a : Access pr) : Query :=
  ⟨pr.sn, pr.ft, a.extension, a.size, a.offset, pr.directory, a.uncachedDir, a.alarmDir⟩

inductive Op (pr : LocalProperty) where
  | read (a : Access pr)
  | write (a : Access pr)

/-- One read or write; a write that is not successful does not count. -/
def Host.step (env : Env) {pr : LocalProperty} (s : Host) : Op pr → Host
  | .read a => (fsRLocal env a.query s).2
  | .write a => (fsWLocal env a.query s).getD s

def Host.run (env : Env) {pr : LocalProperty} (s : Host) (ops : List (Op pr)) : Host :=
  ops.foldl (Host.step env) s

/-- `Cache_Open` -/
def Host.opened (env : Env) : Host :=
  { trees := { temporary := cacheOpen env.g.timeouts (env.clock 0) } }

/-! ## What is written, and what is fresh -/

/-- The extensions have an element in common. -/
def Extension.overlaps : Extension → Extension → Bool
  | .elem m, .elem n => m = n
  | _, _ => true

/-- The data was read from the device after event `n`. -/
def ReadSince (env : Env) (n : Nat) (extension : Extension) (data : Bytes) : Prop :=
  ∃ m size offset, n < m ∧ data = env.read m extension size offset

/-- The data was read after every write that wrote some of it. -/
def Fresh (env : Env) (written : List (Extension × Nat)) (extension : Extension) (data : Bytes) :
    Prop :=
  ∀ w ∈ written, w.1.overlaps extension = true → ReadSince env w.2 extension data

/-! ## What can be found later -/

section

variable {cache : CacheData} {tk tk' : TreeKey} {tn : TreeNode} {now t duration : Int}

theorem findForGet_of_flipTree (h : findForGet t duration tk (flipTree now cache) = some tn) :
    findForGet t duration tk cache = some tn := by
  have hnew : cache.temporaryTreeNew.lookup tk = some tn := by
    have hnone : (flipTree now cache).temporaryTreeNew.lookup tk = none := AList.lookup_empty tk
    rw [findForGet, hnone] at h
    simp only at h
    split at h
    · exact h
    · cases h
  rw [findForGet, hnew]

/-- An addition makes nothing else visible. -/
theorem findForGet_of_cacheAddCommon {cacheSize : Nat} {flipTime : Int} {added : TreeNode}
    (h : findForGet t duration tk (cacheAddCommon cacheSize now flipTime added cache).2 = some tn) :
    findForGet t duration tk cache = some tn ∨ (tk = added.tk ∧ tn = added) := by
  have hbase : findForGet t duration tk
      (if cache.timeToKill < now then flipTree flipTime cache else cache) = some tn →
      findForGet t duration tk cache = some tn := by
    intro hb
    split at hb
    · exact findForGet_of_flipTree hb
    · exact hb
  unfold cacheAddCommon at h
  generalize (if cache.timeToKill < now then flipTree flipTime cache else cache) = base at h hbase
  by_cases hfull : cacheSize ≠ 0 ∧ base.oldRamSize + base.newRamSize > cacheSize
  · rw [if_pos hfull] at h
    exact Or.inl (hbase h)
  · rw [if_neg hfull] at h
    by_cases hk : tk = added.tk
    · rw [findForGet, hk, AList.lookup_insert, Option.some.injEq] at h
      exact Or.inr ⟨hk, h.symm⟩
    · rw [findForGet, AList.lookup_insert_ne hk] at h
      exact Or.inl (hbase h)

/-- A deletion makes nothing visible. -/
theorem findForGet_of_cacheDelCommon (ht : now ≤ t) (hlive : t < tn.expires)
    (h : findForGet t duration tk (cacheDelCommon now tk' cache).2 = some tn) :
    findForGet t duration tk cache = some tn := by
  unfold cacheDelCommon at h
  split at h
  · next found hnew =>
    by_cases hk : tk = tk'
    · subst hk
      rw [findForGet, AList.lookup_insert, Option.some.injEq] at h
      rw [← h] at hlive
      exact absurd hlive (by show ¬ t < now - 1; omega)
    · rwa [findForGet, AList.lookup_insert_ne hk] at h
  · next hnew =>
    split at h
    · split at h
      · next found hold =>
        by_cases hk : tk = tk'
        · subst hk
          simp only [findForGet, hnew, AList.lookup_insert] at h
          split at h
          · rw [← Option.some.inj h] at hlive
            exact absurd hlive (by show ¬ t < now - 1; omega)
          · cases h
        · rwa [findForGet, AList.lookup_insert_ne hk] at h
      · exact h
    · exact h

/-- A deleted entry is not seen again: where the old tree is not looked at, it is too old. -/
theorem not_findForGet_of_cacheDelCommon
    (hkill : cache.timeToKill = cache.timeRetired + cache.retiredLifespan)
    (hlife : duration ≤ cache.retiredLifespan) (ht : now ≤ t) (hlive : t < tn.expires) :
    findForGet t duration tk (cacheDelCommon now tk cache).2 ≠ some tn := by
  intro h
  unfold cacheDelCommon at h
  split at h
  · rw [findForGet, AList.lookup_insert, Option.some.injEq] at h
    rw [← h] at hlive
    exact absurd hlive (by show ¬ t < now - 1; omega)
  · next hnew =>
    split at h
    · split at h
      · simp only [findForGet, hnew, AList.lookup_insert] at h
        split at h
        · rw [← Option.some.inj h] at hlive
          exact absurd hlive (by show ¬ t < now - 1; omega)
        · cases h
      · next hold =>
        rw [findForGet, hnew] at h
        simp only [hold, ite_self] at h
        cases h
    · rw [findForGet, hnew] at h
      simp only at h
      split at h
      · omega
      · cases h

/-- The times of the old tree. -/
structure Timed (lifespan : Int) (cache : CacheData) : Prop where
  kill : cache.timeToKill = cache.timeRetired + cache.retiredLifespan
  lifespan : cache.retiredLifespan = lifespan

theorem Timed.cacheAddCommon {lifespan flipTime : Int} {cacheSize : Nat} {added : TreeNode}
    (h : Timed lifespan cache) :
    Timed lifespan (cacheAddCommon cacheSize now flipTime added cache).2 := by
  have hbase : Timed lifespan (if cache.timeToKill < now then flipTree flipTime cache
      else cache) := by
    split
    · exact ⟨rfl, h.lifespan⟩
    · exact h
  unfold Cache.cacheAddCommon
  generalize (if cache.timeToKill < now then flipTree flipTime cache else cache) = base at hbase
  by_cases hfull : cacheSize ≠ 0 ∧ base.oldRamSize + base.newRamSize > cacheSize
  · rwa [if_pos hfull]
  · rw [if_neg hfull]
    exact ⟨hbase.kill, hbase.lifespan⟩

theorem Timed.cacheDelCommon {lifespan : Int} (h : Timed lifespan cache) :
    Timed lifespan (cacheDelCommon now tk cache).2 := by
  unfold Cache.cacheDelCommon
  split
  · exact ⟨h.kill, h.lifespan⟩
  · split
    · split
      · exact ⟨h.kill, h.lifespan⟩
      · exact h
    · exact h

end

/-! ## The invariant -/

/-- The extensions that are cached for a kind of property. -/
def Filetype.Keeps (ft : Filetype) (extension : Extension) : Prop :=
  storage ft.format ≠ .notCached ∧ match ft.ag with
    | none => extension = .elem 0
    | some ag => match ag.combined with
      | .sparse => False
      | .aggregate => extension = .all
      | .mixed => extension = .all ∨ ∃ n < ag.elements, extension = .elem n
      | .separate => ∃ n < ag.elements, extension = .elem n

/-- The extension fits an `int` beside the special ones. -/
def Extension.Narrow : Extension → Prop
  | .elem n => n < 2 ^ 31
  | _ => True

theorem Extension.toInt32_injective {e e' : Extension} (he : e.Narrow) (he' : e'.Narrow)
    (h : e.toInt32 = e'.toInt32) : e = e' := by
  have hnat : ∀ {n : Nat}, n < 2 ^ 31 → (BitVec.ofNat 32 n).toNat = n := by
    intro n hn
    rw [BitVec.toNat_ofNat, Nat.mod_eq_of_lt (by omega)]
  have hneg : ∀ {n : Nat}, n < 2 ^ 31 → ∀ b : BitVec 32, 2 ^ 31 ≤ b.toNat →
      BitVec.ofNat 32 n ≠ b := by
    rintro n hn b hb rfl
    rw [hnat hn] at hb
    omega
  cases e with
  | elem n =>
    cases e' with
    | elem m => rw [← hnat he, ← hnat he', show BitVec.ofNat 32 n = BitVec.ofNat 32 m from h]
    | all => exact absurd h (hneg he _ (by decide))
    | byte => exact absurd h (hneg he _ (by decide))
  | all =>
    cases e' with
    | elem m => exact absurd h.symm (hneg he' _ (by decide))
    | all => rfl
    | byte => exact absurd h (by decide)
  | byte =>
    cases e' with
    | elem m => exact absurd h.symm (hneg he' _ (by decide))
    | all => exact absurd h (by decide)
    | byte => rfl

section

variable (env : Env) (pr : LocalProperty)

def LocalProperty.key (extension : Extension) : TreeKey := ⟨pr.sn, pr.ft.p, extension.toInt32⟩

/-- A look-up finds the entry, now or later. -/
def Host.Sees (s : Host) (extension : Extension) (tn : TreeNode) : Prop :=
  if pr.ft.change = .persistent then
    s.trees.persistentTree.lookup (pr.key extension) = some tn
  else
    0 < timeOut env.g.timeouts pr.ft.change ∧ ∃ t, env.clock s.tick ≤ t ∧ t < tn.expires ∧
      findForGet t (timeOut env.g.timeouts pr.ft.change) (pr.key extension) s.trees.temporary
        = some tn

/-- No look-up of the extension succeeds any more. -/
def Host.Gone (s : Host) (extension : Extension) : Prop := ∀ tn, ¬ s.Sees env pr extension tn

/-- What can be found is kept for this kind of property, and is fresh. -/
structure Coherent (s : Host) : Prop where
  timed : ∃ lifespan, Timed lifespan s.trees.temporary ∧
    timeOut env.g.timeouts pr.ft.change ≤ lifespan
  past : ∀ w ∈ s.written, w.2 < s.tick
  fresh : ∀ extension tn, extension.Narrow → s.Sees env pr extension tn →
    pr.ft.Keeps extension ∧ Fresh env s.written extension tn.data

end

section

variable {env : Env} {pr : LocalProperty} {s s' : Host} {q : Query} {extension : Extension}
  {tn : TreeNode} {data : Bytes}

/-- The query is about the property. -/
structure About (pr : LocalProperty) (q : Query) : Prop where
  sn : q.sn = pr.sn
  ft : q.ft = pr.ft

theorem About.key (h : About pr q) : q.name.key = pr.key q.extension := by
  rw [Query.name, PropertyName.key, LocalProperty.key, h.sn, h.ft]

/-- As time passes, less is seen. -/
theorem Host.Sees.of_wait (hclock : Monotone env.clock) {n : Nat}
    (h : (s.wait n).Sees env pr extension tn) : s.Sees env pr extension tn := by
  unfold Host.Sees at h ⊢
  split
  · next hp => rwa [if_pos hp] at h
  · next hp =>
    rw [if_neg hp] at h
    obtain ⟨hpos, t, ht, hlive, hfind⟩ := h
    exact ⟨hpos, t, le_trans (hclock (Nat.le_add_right ..)) ht, hlive, hfind⟩

theorem Coherent.wait (hclock : Monotone env.clock) (h : Coherent env pr s) (n : Nat) :
    Coherent env pr (s.wait n) where
  timed := h.timed
  past := fun w hw => lt_of_lt_of_le (h.past w hw) (Nat.le_add_right ..)
  fresh := fun e tn he hs => h.fresh e tn he (hs.of_wait hclock)

/-! ## Deletion -/

theorem timed_cacheDel {lifespan now : Int} {g : Globals} {pn : PropertyName} {trees : Trees}
    (h : Timed lifespan trees.temporary) : Timed lifespan (cacheDel g now pn trees).temporary := by
  unfold cacheDel
  split
  · exact h
  · split
    · exact h
    · exact h.cacheDelCommon

/-- A deletion makes nothing visible. -/
theorem Host.Sees.of_owqCacheDel (hclock : Monotone env.clock) (hq : About pr q)
    (h : (owqCacheDel env q s).Sees env pr extension tn) : s.Sees env pr extension tn := by
  have hft := hq.ft
  unfold Host.Sees at h ⊢
  simp only [owqCacheDel, Host.wait, cacheDel, hq.key] at h
  rw [show q.name.change = pr.ft.change from congrArg Filetype.change hft] at h
  split
  · next hp =>
    rw [if_pos hp] at h
    by_cases hz : timeOut env.g.timeouts pr.ft.change ≤ 0
    · rwa [if_pos hz] at h
    · rw [if_neg hz, if_pos hp] at h
      by_cases hk : pr.key extension = pr.key q.extension
      · rw [hk, Trees.delPersistent, AList.lookup_erase] at h
        cases h
      · rwa [Trees.delPersistent, AList.lookup_erase_ne hk] at h
  · next hp =>
    rw [if_neg hp] at h
    obtain ⟨hpos, t, ht, hlive, hfind⟩ := h
    rw [if_neg (by omega), if_neg hp] at hfind
    have ht' : env.clock s.tick ≤ t := le_trans (hclock (Nat.le_succ _)) ht
    exact ⟨hpos, t, ht', hlive, findForGet_of_cacheDelCommon ht' hlive hfind⟩

/-- What is deleted is gone. -/
theorem gone_owqCacheDel (hclock : Monotone env.clock) (hq : About pr q)
    (htimed : ∃ lifespan, Timed lifespan s.trees.temporary ∧
      timeOut env.g.timeouts pr.ft.change ≤ lifespan) :
    (owqCacheDel env q s).Gone env pr q.extension := by
  intro tn hs
  have hft := hq.ft
  unfold Host.Sees at hs
  simp only [owqCacheDel, Host.wait, cacheDel, hq.key] at hs
  rw [show q.name.change = pr.ft.change from congrArg Filetype.change hft] at hs
  split at hs
  · next hp =>
    rw [if_neg (by rw [hp]; simp [timeOut]), Trees.delPersistent, AList.lookup_erase] at hs
    cases hs
  · next hp =>
    obtain ⟨hpos, t, ht, hlive, hfind⟩ := hs
    rw [if_neg (by omega)] at hfind
    obtain ⟨lifespan, htimed, hlife⟩ := htimed
    have ht' : env.clock s.tick ≤ t := le_trans (hclock (Nat.le_succ _)) ht
    exact not_findForGet_of_cacheDelCommon htimed.kill (htimed.lifespan ▸ hlife) ht' hlive hfind

theorem Coherent.owqCacheDel (hclock : Monotone env.clock) (hq : About pr q)
    (h : Coherent env pr s) : Coherent env pr (owqCacheDel env q s) where
  timed := by
    obtain ⟨lifespan, htimed, hlife⟩ := h.timed
    exact ⟨lifespan, timed_cacheDel htimed, hlife⟩
  past := fun w hw => lt_of_lt_of_le (h.past w hw) (Nat.le_add_right ..)
  fresh := fun e tn he hs => h.fresh e tn he (hs.of_owqCacheDel hclock hq)

/-! ## Looking up -/

theorem findForGet_of_getStat {cache : CacheData} {now duration : Int} {dsize : Nat} {tk : TreeKey}
    (h : (cacheGetCommon now dsize duration tk cache).getStat = some data) :
    ∃ tn, findForGet now duration tk cache = some tn ∧ now < tn.expires ∧ tn.data = data := by
  unfold cacheGetCommon at h
  split at h
  · cases h
  · next tn hfind =>
    simp only at h
    split at h
    · next hleft =>
      split at h
      · cases h
        exact ⟨tn, hfind, by omega, rfl⟩
      · cases h
    · cases h

/-- An entry that is found in the temporary trees now. -/
theorem sees_of_getStat {dsize : Nat} (hp : pr.ft.change ≠ .persistent)
    (hpos : 0 < timeOut env.g.timeouts pr.ft.change)
    (h : (cacheGetCommon (env.clock s.tick) dsize (timeOut env.g.timeouts pr.ft.change)
      (pr.key extension) s.trees.temporary).getStat = some data) :
    ∃ tn, s.Sees env pr extension tn ∧ tn.data = data := by
  obtain ⟨tn, hfind, hlive, hdata⟩ := findForGet_of_getStat h
  refine ⟨tn, ?_, hdata⟩
  unfold Host.Sees
  rw [if_neg hp]
  exact ⟨hpos, _, le_rfl, hlive, hfind⟩

theorem sees_of_cacheGet (hq : About pr q) {dsize : Nat}
    (h : cacheGet env.g (env.clock s.tick) dsize q.name s.trees = some data) :
    ∃ tn, s.Sees env pr q.extension tn ∧ tn.data = data := by
  have hchange : q.name.change = pr.ft.change := congrArg Filetype.change hq.ft
  have hpers : q.name.isThisPersistent = true ↔ pr.ft.change = .persistent := by
    rw [PropertyName.isThisPersistent, hchange]
    simp [Query.name]
  unfold cacheGet at h
  rw [hchange, hq.key] at h
  split at h
  · cases h
  · split at h
    · next hp =>
      unfold Trees.getPersistent at h
      split at h
      · cases h
      · next tn hfind =>
        split at h
        · cases h
          refine ⟨tn, ?_, rfl⟩
          unfold Host.Sees
          rwa [if_pos (hpers.mp hp)]
        · cases h
    · next hp =>
      simp only at h
      split at h
      · cases h
      · next hpos => exact sees_of_getStat (mt hpers.mpr hp) (by omega) h

theorem sees_of_owqCacheGet (hq : About pr q) (h : owqCacheGet env q s = some data) :
    ∃ tn, s.Sees env pr q.extension tn ∧ tn.data = data := by
  have hchange : q.ft.change = pr.ft.change := congrArg Filetype.change hq.ft
  unfold owqCacheGet at h
  simp only at h
  split at h
  · cases h
  · split at h
    · next hsimul =>
      -- the simultaneous classes are not persistent
      have hp : pr.ft.change ≠ .persistent := by
        rw [← hchange]
        rcases hsimul with hs | hs <;> rw [hs] <;> decide
      unfold cacheGetSimultaneous at h
      rw [hchange, hq.key] at h
      simp only at h
      split at h
      · cases h
      · next hpos =>
        exact sees_of_getStat hp (by omega) (Option.filter_eq_some_iff.mp h).1
    · split at h
      · cases h
      · exact sees_of_cacheGet hq (Option.filter_eq_some_iff.mp h).1
      · split at h
        · cases h
        · exact sees_of_cacheGet hq h
      · exact sees_of_cacheGet hq (Option.filter_eq_some_iff.mp h).1
      · cases h

/-! ## Adding -/

theorem timed_cacheAdd {lifespan made now flipTime : Int} {g : Globals} {pn : PropertyName}
    {trees : Trees} (h : Timed lifespan trees.temporary) :
    Timed lifespan (cacheAdd g made now flipTime data pn trees).2.temporary := by
  unfold cacheAdd
  split
  · exact h
  · split
    · exact h
    · simp only
      split
      · exact h
      · exact h.cacheAddCommon

/-- An addition makes only its own entry visible. -/
theorem Host.Sees.of_cacheAdd (hq : About pr q) {made now flipTime : Int}
    (h : { s with trees := (cacheAdd env.g made now flipTime data q.name s.trees).2 }.Sees env pr
      extension tn) :
    s.Sees env pr extension tn ∨ (pr.key extension = pr.key q.extension ∧ tn.data = data) := by
  have hchange : q.name.change = pr.ft.change := congrArg Filetype.change hq.ft
  have hpers : q.name.isThisPersistent = true ↔ pr.ft.change = .persistent := by
    rw [PropertyName.isThisPersistent, hchange]
    simp [Query.name]
  unfold cacheAdd at h
  split at h
  · exact Or.inl h
  · rw [hq.key, hchange] at h
    unfold Host.Sees at h ⊢
    by_cases hp : pr.ft.change = .persistent
    · rw [if_pos hp, if_pos (hpers.mpr hp)] at h
      rw [if_pos hp]
      by_cases hk : pr.key extension = pr.key q.extension
      · rw [hk, Trees.addPersistent, AList.lookup_insert] at h
        cases h
        exact Or.inr ⟨hk, rfl⟩
      · rw [Trees.addPersistent, AList.lookup_insert_ne hk] at h
        exact Or.inl h
    · rw [if_neg hp] at h ⊢
      rw [if_neg (mt hpers.mp hp)] at h
      obtain ⟨hpos, t, ht, hlive, hfind⟩ := h
      simp only [not_le.mpr hpos, if_false] at hfind
      rcases findForGet_of_cacheAddCommon hfind with hfind | ⟨hk, rfl⟩
      · exact Or.inl ⟨hpos, t, ht, hlive, hfind⟩
      · exact Or.inr ⟨hk, rfl⟩

/-- `OWQ_Cache_Add` adds, or not. -/
theorem owqCacheAdd_cases (env : Env) (q : Query) (data : Bytes) (s : Host) :
    owqCacheAdd env q data s = s.wait 3 ∨
    storage q.ft.format ≠ .notCached ∧ owqCacheAdd env q data s =
      { s with trees := (cacheAdd env.g (env.clock s.tick) (env.clock (s.tick + 1))
        (env.clock (s.tick + 2)) data q.name s.trees).2 }.wait 3 := by
  by_cases hst : storage q.ft.format = .notCached
  · refine Or.inl ?_
    unfold owqCacheAdd
    rw [hst]
    cases q.extension <;> rfl
  · unfold owqCacheAdd
    split
    · exact Or.inl rfl
    · split
      · exact Or.inl rfl
      · exact Or.inr ⟨hst, rfl⟩
    · exact Or.inr ⟨hst, rfl⟩
    · exact Or.inl rfl

theorem Coherent.owqCacheAdd (hclock : Monotone env.clock) (hq : About pr q)
    (hn : q.extension.Narrow) (h : Coherent env pr s)
    (hkeep : storage pr.ft.format ≠ .notCached → pr.ft.Keeps q.extension)
    (hfresh : Fresh env s.written q.extension data) :
    Coherent env pr (owqCacheAdd env q data s) := by
  rcases owqCacheAdd_cases env q data s with heq | ⟨hst, heq⟩
  · rw [heq]
    exact h.wait hclock 3
  · rw [heq]
    suffices hadd : Coherent env pr { s with trees := (cacheAdd env.g (env.clock s.tick)
        (env.clock (s.tick + 1)) (env.clock (s.tick + 2)) data q.name s.trees).2 } from
      hadd.wait hclock 3
    refine ⟨?_, h.past, fun e tn he hs => ?_⟩
    · obtain ⟨lifespan, htimed, hlife⟩ := h.timed
      exact ⟨lifespan, timed_cacheAdd htimed, hlife⟩
    · rcases hs.of_cacheAdd hq with hs | ⟨hk, rfl⟩
      · exact h.fresh e tn he hs
      · have hext : e = q.extension :=
          Extension.toInt32_injective he hn (congrArg TreeKey.extension hk)
        rw [hext]
        exact ⟨hkeep (hq.ft ▸ hst), hfresh⟩

/-! ## Reading -/

variable (env pr) in
/-- The parts of an answer are fresh, and the cache stays coherent. -/
structure Reads (s : Host) (res : Option (List Part) × Host) : Prop where
  fresh : ∀ parts, res.1 = some parts → ∀ part ∈ parts,
    Fresh env s.written part.extension part.data
  coherent : Coherent env pr res.2
  written : res.2.written = s.written

/-- What comes from the device now is fresh. -/
theorem fresh_deviceRead (h : Coherent env pr s) :
    Fresh env s.written q.extension (deviceRead env q s).1.data :=
  fun w hw _ => ⟨s.tick, q.size, q.offset, h.past w hw, rfl⟩

theorem written_owqCacheAdd : (owqCacheAdd env q data s).written = s.written := by
  rcases owqCacheAdd_cases env q data s with heq | ⟨-, heq⟩ <;> rw [heq] <;> rfl

theorem reads_single {res : Part × Host} (hfresh : Fresh env s.written res.1.extension res.1.data)
    (hc : Coherent env pr res.2) (hw : res.2.written = s.written) :
    Reads env pr s (single res) := by
  refine ⟨fun parts hparts part hpart => ?_, hc, hw⟩
  cases hparts
  rw [List.mem_singleton.mp hpart]
  exact hfresh

theorem reads_fsReadOwq (hclock : Monotone env.clock) (hq : About pr q) (hn : q.extension.Narrow)
    (hkeep : storage pr.ft.format ≠ .notCached → pr.ft.Keeps q.extension) (h : Coherent env pr s) :
    Reads env pr s (single (fsReadOwq env q s)) := by
  unfold fsReadOwq
  split
  · next data hget =>
    obtain ⟨tn, hs, rfl⟩ := sees_of_owqCacheGet hq hget
    exact reads_single (h.fresh _ tn hn hs).2 (h.wait hclock 2) rfl
  · have hwait := h.wait hclock 2
    have hfresh : Fresh env s.written q.extension (deviceRead env q (s.wait 2)).1.data :=
      fresh_deviceRead hwait
    refine reads_single hfresh ?_ written_owqCacheAdd
    exact (hwait.wait hclock 1).owqCacheAdd hclock hq hn hkeep hfresh

theorem About.separate (h : About pr q) (e : Extension) : About pr (q.separate e) := ⟨h.sn, h.ft⟩

theorem About.at (h : About pr q) (e : Extension) : About pr { q with extension := e } :=
  ⟨h.sn, h.ft⟩

theorem About.allocateReadBuffer (h : About pr q) : About pr q.allocateReadBuffer := by
  unfold Query.allocateReadBuffer
  simp only
  split
  · exact ⟨h.sn, h.ft⟩
  · exact h

theorem About.adjustFileSize (h : About pr q) : About pr (adjustFileSize q) ∧
    (adjustFileSize q).extension = q.extension := by
  unfold Property.adjustFileSize
  simp only
  split
  · exact ⟨⟨h.sn, h.ft⟩, rfl⟩
  · split
    · exact ⟨⟨h.sn, h.ft⟩, rfl⟩
    · exact ⟨h, rfl⟩

/-- One part after the other. -/
theorem Reads.cons {part : Part} {s₁ : Host} {res : Option (List Part) × Host}
    (h : Reads env pr s (some [part], s₁)) (hrest : Reads env pr s₁ res) :
    Reads env pr s (res.1.map (part :: ·), res.2) where
  fresh := by
    intro parts hparts p hp
    obtain ⟨rest, hres, rfl⟩ := Option.map_eq_some_iff.mp hparts
    rcases List.mem_cons.mp hp with rfl | hp
    · exact h.fresh _ rfl p (List.mem_singleton_self p)
    · exact h.written ▸ hrest.fresh rest hres p hp
  coherent := hrest.coherent
  written := hrest.written.trans h.written

theorem reads_readParts (hclock : Monotone env.clock) (hq : About pr q) {ns : List Nat}
    (hns : ∀ n ∈ ns, n < 2 ^ 31 ∧ (storage pr.ft.format ≠ .notCached → pr.ft.Keeps (.elem n)))
    {left : Nat} (h : Coherent env pr s) : Reads env pr s (readParts env q ns left s) := by
  induction ns generalizing left s with
  | nil =>
    refine ⟨fun parts hparts p hp => ?_, h, rfl⟩
    cases hparts
    cases hp
  | cons n rest ih =>
    obtain ⟨hn, hkeep⟩ := hns n List.mem_cons_self
    have hone := reads_fsReadOwq hclock (hq.at (.elem n)) hn hkeep h
    simp only [readParts]
    split
    · exact ⟨nofun, hone.coherent, hone.written⟩
    · exact hone.cons (ih (fun m hm => hns m (List.mem_cons_of_mem _ hm)) hone.coherent)

theorem reads_readBits (hclock : Monotone env.clock) (hq : About pr q) {ns : List Nat}
    (hns : ∀ n ∈ ns, n < 2 ^ 31 ∧ (storage pr.ft.format ≠ .notCached → pr.ft.Keeps (.elem n)))
    (h : Coherent env pr s) :
    Reads env pr s (some (readBits env q ns s).1, (readBits env q ns s).2) := by
  induction ns generalizing s with
  | nil =>
    refine ⟨fun parts hparts p hp => ?_, h, rfl⟩
    cases hparts
    cases hp
  | cons n rest ih =>
    obtain ⟨hn, hkeep⟩ := hns n List.mem_cons_self
    have hone := reads_fsReadOwq hclock (hq.at (.elem n)) hn hkeep h
    exact hone.cons (ih (fun m hm => hns m (List.mem_cons_of_mem _ hm)) hone.coherent)

/-! ## Several deletions -/

variable (env pr) in
/-- Some entries are gone, and nothing else has happened. -/
structure Clears (s s' : Host) (es : Extension → Prop) : Prop where
  coherent : Coherent env pr s'
  written : s'.written = s.written
  tick : s.tick ≤ s'.tick
  sees : ∀ e tn, s'.Sees env pr e tn → s.Sees env pr e tn
  gone : ∀ e, es e → s'.Gone env pr e

theorem clears_owqCacheDel (hclock : Monotone env.clock) (hq : About pr q) (h : Coherent env pr s) :
    Clears env pr s (owqCacheDel env q s) (· = q.extension) where
  coherent := h.owqCacheDel hclock hq
  written := rfl
  tick := Nat.le_succ _
  sees := fun _ _ hs => hs.of_owqCacheDel hclock hq
  gone := by
    rintro e rfl
    exact gone_owqCacheDel hclock hq h.timed

theorem Clears.trans {s₁ s₂ : Host} {es es' : Extension → Prop} (h : Clears env pr s s₁ es)
    (h' : Clears env pr s₁ s₂ es') : Clears env pr s s₂ (fun e => es e ∨ es' e) where
  coherent := h'.coherent
  written := h'.written.trans h.written
  tick := h.tick.trans h'.tick
  sees := fun e tn hs => h.sees e tn (h'.sees e tn hs)
  gone := by
    rintro e (he | he) tn hs
    · exact h.gone e he tn (h'.sees e tn hs)
    · exact h'.gone e he tn hs

theorem clears_foldl (hclock : Monotone env.clock) (hq : About pr q) {ns : List Nat}
    (h : Coherent env pr s) :
    Clears env pr s (ns.foldl (fun s n => owqCacheDel env { q with extension := .elem n } s) s)
      (fun e => ∃ n ∈ ns, e = .elem n) := by
  induction ns generalizing s with
  | nil => exact ⟨h, rfl, le_rfl, fun _ _ => id, by rintro e ⟨n, hn, -⟩; cases hn⟩
  | cons n rest ih =>
    have hone := clears_owqCacheDel hclock (hq.at (.elem n)) h
    have hall := hone.trans (ih hone.coherent)
    refine { hall with gone := ?_ }
    rintro e ⟨m, hm, rfl⟩
    rcases List.mem_cons.mp hm with rfl | hm
    · exact hall.gone _ (Or.inl rfl)
    · exact hall.gone _ (Or.inr ⟨m, hm, rfl⟩)

theorem clears_owqCacheDelParts (hclock : Monotone env.clock) (hq : About pr q) {ag : Aggregate}
    (hag : pr.ft.ag = some ag) (h : Coherent env pr s) :
    Clears env pr s (owqCacheDelParts env q s) (fun e => ∃ n < ag.elements, e = .elem n) := by
  have hagq : q.ft.ag = some ag := by rw [hq.ft, hag]
  have heq : owqCacheDelParts env q s = (List.range ag.elements).reverse.foldl
      (fun s n => owqCacheDel env { q with extension := .elem n } s) s := by
    simp only [owqCacheDelParts, hagq]
  rw [heq]
  refine { clears_foldl hclock hq h with gone := ?_ }
  rintro e ⟨n, hn, rfl⟩
  exact (clears_foldl hclock hq h).gone _ ⟨n, by simpa using hn, rfl⟩

/-- Reading after deleting. -/
theorem Clears.reads {s₁ : Host} {es : Extension → Prop} {res : Option (List Part) × Host}
    (h : Clears env pr s s₁ es) (hr : Reads env pr s₁ res) : Reads env pr s res where
  fresh := fun parts hparts p hp => h.written ▸ hr.fresh parts hparts p hp
  coherent := hr.coherent
  written := hr.written.trans h.written

/-! ## The kinds of properties -/

theorem Filetype.Accepts.narrow (h : pr.ft.Accepts extension) : extension.Narrow := by
  have helements := pr.elements_lt
  cases extension with
  | elem n =>
    unfold Filetype.Accepts at h
    unfold Filetype.elements at helements
    cases hag : pr.ft.ag with
    | none =>
      simp only [hag] at h
      exact h ▸ Nat.two_pow_pos 31
    | some ag =>
      simp only [hag, Option.map_some, Option.getD_some] at h helements
      split at h
      · exact h
      · exact lt_trans h helements
  | all => trivial
  | byte => trivial

theorem eq_elem_zero_of_accepts (hag : pr.ft.ag = none) (h : pr.ft.Accepts extension) :
    extension = .elem 0 := by
  cases extension with
  | elem n =>
    simp only [Filetype.Accepts, hag] at h
    rw [h]
  | all => exact absurd hag h
  | byte => exact absurd hag h.1

theorem not_keeps_bitfield (h : pr.ft.format = .bitfield) : ¬ pr.ft.Keeps extension :=
  fun hk => hk.1 (by rw [h]; rfl)

section

variable {ag : Aggregate}

theorem keeps_elem (hag : pr.ft.ag = some ag) (hc : ag.combined = .separate ∨ ag.combined = .mixed)
    {n : Nat} (hn : n < ag.elements) (hst : storage pr.ft.format ≠ .notCached) :
    pr.ft.Keeps (.elem n) := by
  refine ⟨hst, ?_⟩
  rw [hag]
  rcases hc with hc | hc
  · simp only [hc]
    exact ⟨n, hn, rfl⟩
  · simp only [hc]
    exact Or.inr ⟨n, hn, rfl⟩

theorem keeps_all (hag : pr.ft.ag = some ag) (hc : ag.combined = .aggregate ∨ ag.combined = .mixed)
    (hst : storage pr.ft.format ≠ .notCached) : pr.ft.Keeps .all := by
  refine ⟨hst, ?_⟩
  rw [hag]
  rcases hc with hc | hc
  · simp only [hc]
  · simp only [hc]
    exact Or.inl trivial

/-- The elements of a separate array. -/
theorem keeps_range (hag : pr.ft.ag = some ag) (hc : ag.combined = .separate) (n : Nat)
    (hn : n ∈ List.range pr.ft.elements) :
    n < 2 ^ 31 ∧ (storage pr.ft.format ≠ .notCached → pr.ft.Keeps (.elem n)) := by
  have hlt := List.mem_range.mp hn
  refine ⟨lt_trans hlt pr.elements_lt, fun hst => keeps_elem hag (Or.inl hc) ?_ hst⟩
  rwa [Filetype.elements, hag] at hlt

/-- A whole array is read as such, or as `.BYTE`. -/
theorem reads_whole (hclock : Monotone env.clock) (hq : About pr q) (hag : pr.ft.ag = some ag)
    (hc : ag.combined = .aggregate ∨ ag.combined = .mixed) (hext : q.extension = .all)
    (h : Coherent env pr s) : Reads env pr s (single (fsReadOwq env q s)) :=
  reads_fsReadOwq hclock hq (by rw [hext]; trivial)
    (by rw [hext]; exact keeps_all hag hc) h

theorem reads_bits (hclock : Monotone env.clock) (hq : About pr q) (hbit : pr.ft.format = .bitfield)
    (hext : q.extension = .byte) (h : Coherent env pr s) :
    Reads env pr s (single (fsReadOwq env q s)) :=
  reads_fsReadOwq hclock hq (by rw [hext]; trivial) (fun hst => absurd (by rw [hbit]; rfl) hst) h

theorem reads_fsReadAPart (hclock : Monotone env.clock) (hq : About pr q) (hag : pr.ft.ag = some ag)
    (hc : ag.combined = .aggregate) (h : Coherent env pr s) :
    Reads env pr s (fsReadAPart env q s) := by
  unfold fsReadAPart
  split
  · next hbit => exact reads_bits hclock (hq.separate .byte) (hq.ft ▸ hbit) rfl h
  · exact reads_whole hclock (hq.separate .all) hag (Or.inl hc) rfl h

theorem reads_fsReadInParts (hclock : Monotone env.clock) (hq : About pr q)
    (hag : pr.ft.ag = some ag) (hc : ag.combined = .separate) (h : Coherent env pr s) :
    Reads env pr s (fsReadInParts env q s) := by
  unfold fsReadInParts
  split
  · next hbit => exact reads_bits hclock (hq.separate .byte) (hq.ft ▸ hbit) rfl h
  · rw [hq.ft]
    exact reads_readParts hclock (hq.separate _).allocateReadBuffer (keeps_range hag hc) h

theorem reads_fsReadAllBits (hclock : Monotone env.clock) (hq : About pr q)
    (hag : pr.ft.ag = some ag) (hc : ag.combined = .separate) (h : Coherent env pr s) :
    Reads env pr s (fsReadAllBits env q s) := by
  unfold fsReadAllBits
  rw [hq.ft]
  exact reads_readBits hclock (hq.separate _) (keeps_range hag hc) h

/-- The elements of an array that is not sparse. -/
theorem lt_elements_of_accepts (hag : pr.ft.ag = some ag) (hc : ag.combined ≠ .sparse) {n : Nat}
    (h : pr.ft.Accepts (.elem n)) : n < ag.elements := by
  simpa only [Filetype.Accepts, hag, if_neg hc] using h

/-- One element is read as such. -/
theorem reads_elem (hclock : Monotone env.clock) (hq : About pr q) (hag : pr.ft.ag = some ag)
    (hc : ag.combined = .separate ∨ ag.combined = .mixed) {n : Nat} (hext : q.extension = .elem n)
    (hacc : pr.ft.Accepts q.extension) (h : Coherent env pr s) :
    Reads env pr s (single (fsReadOwq env q s)) := by
  refine reads_fsReadOwq hclock hq hacc.narrow (fun hst => ?_) h
  rw [hext] at hacc ⊢
  refine keeps_elem hag hc (lt_elements_of_accepts hag ?_ hacc) hst
  rcases hc with hc | hc <;> rw [hc] <;> decide

theorem reads_fsReadAll (hclock : Monotone env.clock) (hq : About pr q) (hag : pr.ft.ag = some ag)
    (hc : ag.combined = .aggregate ∨ ag.combined = .mixed) (hext : q.extension = .all)
    (h : Coherent env pr s) : Reads env pr s (fsReadAll env q s) := by
  unfold fsReadAll
  split
  · next hbit => exact reads_bits hclock (hq.separate .byte) (hq.ft ▸ hbit) rfl h
  · exact reads_whole hclock hq hag hc hext h

end

/-- **A read of the property** returns fresh parts. -/
theorem reads_fsRLocal (hclock : Monotone env.clock) (hq : About pr q)
    (hext : pr.ft.Accepts q.extension) (h : Coherent env pr s) :
    Reads env pr s (fsRLocal env q s) := by
  unfold fsRLocal
  split
  · exact ⟨nofun, h, rfl⟩
  · obtain ⟨hq', hsame⟩ := hq.adjustFileSize
    rw [← hsame] at hext
    simp only
    generalize adjustFileSize q = q at hq' hext
    split
    · refine ⟨fun parts hparts p hp => ?_, h, rfl⟩
      cases hparts
      cases hp
    · rw [hq'.ft]
      split
      · next hag =>
        refine reads_fsReadOwq hclock hq' hext.narrow (fun hst => ⟨hst, ?_⟩) h
        rw [hag]
        exact eq_elem_zero_of_accepts hag hext
      · next ag hag =>
        split
        · exact reads_single (fresh_deviceRead h) (h.wait hclock 1) rfl
        · next hext' =>
          rw [hext'] at hext
          exact reads_bits hclock hq' hext.2 hext' h
        · next hc hext' => exact reads_fsReadAll hclock hq' hag (Or.inl hc) hext' h
        · next hc hext' => exact reads_fsReadAPart hclock hq' hag hc h
        · next hc hext' =>
          rw [hext'] at hext
          have hdel := clears_owqCacheDelParts hclock hq' hag h
          exact hdel.reads (reads_bits hclock hq' hext.2 hext' hdel.coherent)
        · next hc hext' =>
          have hdel := clears_owqCacheDelParts hclock hq' hag h
          exact hdel.reads (reads_fsReadAll hclock hq' hag (Or.inr hc) hext' hdel.coherent)
        · next hc hext' =>
          have hall := clears_owqCacheDel hclock (hq'.at .all) h
          have hdel := hall.trans (clears_owqCacheDel hclock (hq'.at .byte) hall.coherent)
          exact hdel.reads (reads_elem hclock hq' hag (Or.inr hc) hext' hext hdel.coherent)
        · next hc hext' => exact reads_fsReadAllBits hclock hq' hag hc h
        · next hc hext' => exact reads_fsReadInParts hclock hq' hag hc h
        · next hc hext' => exact reads_elem hclock hq' hag (Or.inl hc) hext' hext h

/-! ## Writing -/

theorem Host.Sees.of_deviceWrite (hclock : Monotone env.clock)
    (h : (deviceWrite q s).Sees env pr extension tn) : s.Sees env pr extension tn :=
  h.of_wait hclock (s := { s with written := (q.extension, s.tick) :: s.written })

/-- A write is recorded; what it does not overlap stays fresh. -/
theorem fresh_cons {written : List (Extension × Nat)} {w : Extension × Nat}
    (h : Fresh env written extension data) (hw : ¬ w.1.overlaps extension = true) :
    Fresh env (w :: written) extension data := by
  intro w' hw' hover
  rcases List.mem_cons.mp hw' with rfl | hw'
  · exact absurd hover hw
  · exact h w' hw' hover

/-- A write past the cache. -/
theorem Coherent.deviceWrite (hclock : Monotone env.clock) (h : Coherent env pr s)
    (hkeeps : ∀ e, ¬ pr.ft.Keeps e) : Coherent env pr (deviceWrite q s) where
  timed := h.timed
  past := by
    intro w hw
    show w.2 < s.tick + 1
    rcases List.mem_cons.mp hw with rfl | hw
    · exact Nat.lt_succ_self _
    · exact Nat.lt_succ_of_lt (h.past w hw)
  fresh := fun e tn he hs => absurd (h.fresh e tn he (hs.of_deviceWrite hclock)).1 (hkeeps e)

/-- **A write and its deletion**, when the other entries it overlaps are gone. -/
theorem Coherent.fsWriteOwq (hclock : Monotone env.clock) (hq : About pr q)
    (h : Coherent env pr s)
    (hgone : ∀ e, pr.ft.Keeps e → q.extension.overlaps e = true → e ≠ q.extension →
      s.Gone env pr e) : Coherent env pr (fsWriteOwq env q s) where
  timed := by
    obtain ⟨lifespan, htimed, hlife⟩ := h.timed
    exact ⟨lifespan, timed_cacheDel htimed, hlife⟩
  past := by
    intro w hw
    show w.2 < s.tick + 1 + 1
    rcases List.mem_cons.mp hw with rfl | hw
    · exact Nat.lt_succ_of_lt (Nat.lt_succ_self _)
    · have := h.past w hw
      omega
  fresh := by
    intro e tn he hs
    have hown : e ≠ q.extension := by
      rintro rfl
      have htimed : ∃ lifespan, Timed lifespan (Property.deviceWrite q s).trees.temporary ∧
          timeOut env.g.timeouts pr.ft.change ≤ lifespan := h.timed
      exact gone_owqCacheDel hclock hq htimed tn hs
    have hbefore := (hs.of_owqCacheDel hclock hq).of_deviceWrite hclock
    obtain ⟨hkeep, hfresh⟩ := h.fresh e tn he hbefore
    exact ⟨hkeep, fresh_cons hfresh fun hover => hgone e hkeep hover hown tn hbefore⟩

theorem Clears.fsWriteOwq {s₁ : Host} {es : Extension → Prop} (hclock : Monotone env.clock)
    (hq : About pr q) (h : Clears env pr s s₁ es)
    (hes : ∀ e, pr.ft.Keeps e → q.extension.overlaps e = true → e ≠ q.extension → es e) :
    Coherent env pr (Property.fsWriteOwq env q s₁) :=
  h.coherent.fsWriteOwq hclock hq fun e hk ho hne => h.gone e (hes e hk ho hne)

/-- A bit field is not cached. -/
theorem Coherent.fsWriteOwq_byte (hclock : Monotone env.clock) (hq : About pr q)
    (hbit : pr.ft.format = .bitfield) (h : Coherent env pr s) :
    Coherent env pr (Property.fsWriteOwq env q s) :=
  h.fsWriteOwq hclock hq fun _ hk => absurd hk (not_keeps_bitfield hbit)

section

variable {ag : Aggregate}

theorem eq_all_of_keeps (hag : pr.ft.ag = some ag) (hc : ag.combined = .aggregate)
    (h : pr.ft.Keeps extension) : extension = .all := by
  have := h.2
  simpa only [hag, hc] using this

/-- The loop over the elements of a separate array. -/
theorem Coherent.writeParts (hclock : Monotone env.clock) (hq : About pr q)
    (hag : pr.ft.ag = some ag) (hc : ag.combined = .separate) (h : Coherent env pr s) :
    Coherent env pr (writeParts env q s) := by
  have hloop : ∀ (ns : List Nat) s, (∀ n ∈ ns, n < 2 ^ 31) → Coherent env pr s →
      Coherent env pr (ns.foldl (fun s n =>
      Property.fsWriteOwq env { q with extension := .elem n } s) s) := by
    intro ns
    induction ns with
    | nil => exact fun s _ h => h
    | cons n rest ih =>
      intro s hns h
      refine ih _ (fun m hm => hns m (List.mem_cons_of_mem _ hm)) ?_
      refine h.fsWriteOwq hclock (hq.at (.elem n)) fun e hk ho hne => ?_
      -- what is kept are elements, and another element is not overlapped
      have hkeep := hk.2
      simp only [hag, hc] at hkeep
      obtain ⟨m, -, rfl⟩ := hkeep
      exact absurd (congrArg Extension.elem (of_decide_eq_true ho).symm) hne
  unfold Property.writeParts
  refine hloop _ s (fun n hn => ?_) h
  rw [hq.ft] at hn
  exact lt_trans (List.mem_range.mp hn) pr.elements_lt

/-- `FS_write_all`, when the elements are gone. -/
theorem Coherent.fsWriteAll (hclock : Monotone env.clock) (hq : About pr q)
    (hext : q.extension = .all) (h : Coherent env pr s)
    (hgone : ∀ e, pr.ft.Keeps e → e ≠ .all → s.Gone env pr e) :
    Coherent env pr (fsWriteAll env q s) := by
  unfold Property.fsWriteAll
  split
  · next hbit => exact h.fsWriteOwq_byte hclock (hq.separate .byte) (hq.ft ▸ hbit)
  · exact h.fsWriteOwq hclock hq fun e hk _ hne => hgone e hk (hext ▸ hne)

theorem Coherent.fsWriteAPart (hclock : Monotone env.clock) (hq : About pr q)
    (hag : pr.ft.ag = some ag) (hc : ag.combined = .aggregate) {n : Nat}
    (h : Coherent env pr s) (hs : fsWriteAPart env q n s = some s') : Coherent env pr s' := by
  unfold Property.fsWriteAPart at hs
  simp only [hq.ft] at hs
  have hagne : pr.ft.ag ≠ none := by rw [hag]; exact nofun
  split at hs
  · cases hs
  · obtain ⟨parts, -, rfl⟩ := Option.map_eq_some_iff.mp hs
    by_cases hbit : pr.ft.format = .bitfield
    · rw [if_pos hbit]
      have hr := reads_fsRLocal hclock (hq.separate .byte) ⟨hagne, hbit⟩ h
      exact hr.coherent.fsWriteOwq_byte hclock (hq.separate .byte) hbit
    · rw [if_neg hbit]
      have hr := reads_fsRLocal hclock (hq.separate .all) hagne h
      refine hr.coherent.fsWriteOwq hclock (hq.separate .all) fun e hk _ hne => ?_
      exact absurd (eq_all_of_keeps hag hc hk) hne

/-- **A write of the property** leaves nothing stale. -/
theorem Coherent.fsWLocal (hclock : Monotone env.clock) (hq : About pr q)
    (hext : pr.ft.Accepts q.extension) (h : Coherent env pr s)
    (hs : fsWLocal env q s = some s') : Coherent env pr s' := by
  unfold Property.fsWLocal at hs
  rw [hq.ft] at hs
  split at hs
  · cases hs
  · split at hs
    · next hag =>
      cases hs
      refine h.fsWriteOwq hclock hq fun e hk _ hne => ?_
      have hkeep := hk.2
      simp only [hag] at hkeep
      exact absurd (hkeep.trans (eq_elem_zero_of_accepts hag hext).symm) hne
    · next ag hag =>
      split at hs
      · next hc =>
        cases hs
        refine h.deviceWrite hclock fun e hk => ?_
        have hkeep := hk.2
        simp only [hag, hc] at hkeep
      · next hc hext' =>
        cases hs
        rw [hext'] at hext
        exact h.fsWriteOwq_byte hclock hq hext.2
      · next hc hext' =>
        cases hs
        exact h.fsWriteAll hclock hq hext' fun e hk hne => absurd (eq_all_of_keeps hag hc hk) hne
      · next n hc hext' => exact h.fsWriteAPart hclock hq hag hc hs
      · next hc hext' =>
        cases hs
        rw [hext'] at hext
        exact (clears_owqCacheDelParts hclock hq hag h).coherent.fsWriteOwq_byte hclock hq hext.2
      · next hc hext' =>
        cases hs
        have hdel := clears_owqCacheDelParts hclock hq hag h
        refine hdel.coherent.fsWriteAll hclock hq hext' fun e hk hne => hdel.gone e ?_
        have hkeep := hk.2
        simp only [hag, hc] at hkeep
        exact hkeep.resolve_left hne
      · next n hc hext' =>
        cases hs
        have hall := clears_owqCacheDel hclock (hq.at .all) h
        have hdel := hall.trans (clears_owqCacheDel hclock (hq.at .byte) hall.coherent)
        refine hdel.fsWriteOwq hclock hq fun e hk ho hne => Or.inl ?_
        have hkeep := hk.2
        simp only [hag, hc] at hkeep
        rcases hkeep with rfl | ⟨m, -, rfl⟩
        · rfl
        · rw [hext'] at ho hne
          exact absurd (congrArg Extension.elem (of_decide_eq_true ho).symm) hne
      · next hc hext' =>
        cases hs
        exact h.writeParts hclock (hq.separate _) hag hc
      · next hc hext' =>
        cases hs
        exact h.writeParts hclock (hq.separate _) hag hc
      · next n hc hext' =>
        cases hs
        refine h.fsWriteOwq hclock hq fun e hk ho hne => ?_
        have hkeep := hk.2
        simp only [hag, hc] at hkeep
        obtain ⟨m, -, rfl⟩ := hkeep
        rw [hext'] at ho hne
        exact absurd (congrArg Extension.elem (of_decide_eq_true ho).symm) hne

end

/-! ## Whole runs -/

theorem Access.about (a : Access pr) : About pr a.query := ⟨rfl, rfl⟩

theorem Coherent.step (hclock : Monotone env.clock) (h : Coherent env pr s) (op : Op pr) :
    Coherent env pr (s.step env op) := by
  cases op with
  | read a => exact (reads_fsRLocal hclock a.about a.accepted h).coherent
  | write a =>
    show Coherent env pr ((Property.fsWLocal env a.query s).getD s)
    cases hs : Property.fsWLocal env a.query s with
    | none => exact h
    | some s' => exact h.fsWLocal hclock a.about a.accepted hs

theorem Coherent.run (hclock : Monotone env.clock) (h : Coherent env pr s) (ops : List (Op pr)) :
    Coherent env pr (s.run env ops) := by
  induction ops generalizing s with
  | nil => exact h
  | cons op rest ih => exact ih (h.step hclock op)

theorem coherent_opened
    (hlife : timeOut env.g.timeouts pr.ft.change
      ≤ (cacheOpen env.g.timeouts (env.clock 0)).retiredLifespan) :
    Coherent env pr (.opened env) where
  timed := ⟨_, ⟨rfl, rfl⟩, hlife⟩
  past := nofun
  fresh := by
    intro e tn _ hs
    unfold Host.Sees at hs
    split at hs
    · simp [Host.opened] at hs
    · obtain ⟨-, t, -, -, hfind⟩ := hs
      simp [Host.opened, cacheOpen, flipTree, findForGet] at hfind

end

/--
**Reading after writing.** After any run of reads and writes of a property, what a read returns for
something that was written was read from the device after that write.
-/
theorem read_after_write (env : Env) (pr : LocalProperty) (hclock : Monotone env.clock)
    (hlife : timeOut env.g.timeouts pr.ft.change
      ≤ (cacheOpen env.g.timeouts (env.clock 0)).retiredLifespan)
    (ops : List (Op pr)) (a : Access pr) (parts : List Part)
    (hread : (fsRLocal env a.query ((Host.opened env).run env ops)).1 = some parts) :
    ∀ part ∈ parts, ∀ w ∈ ((Host.opened env).run env ops).written,
      w.1.overlaps part.extension = true → ReadSince env w.2 part.extension part.data :=
  (reads_fsRLocal hclock a.about a.accepted ((coherent_opened hlife).run hclock ops)).fresh parts
    hread

/-- The device answers with as many bytes as there were events. -/
def sampleEnv : Env where
  g := ⟨⟨15, 300, 60, 120⟩, 0⟩
  simultaneousTag := ⟨0x3000, .volatile⟩
  clock := fun _ => 7
  read := fun n _ _ _ => List.replicate n 0

/-- An array of two texts that are read one by one. -/
def sampleArray : LocalProperty where
  sn := .zero
  ft := { p := 0x2000, suglen := 100, ag := some ⟨2, .separate⟩, format := .ascii, change :=
    .stable }
  directory := ⟨.zero, [], 0, false⟩
  elements_lt := by decide

def sampleAccess (n : Fin 2) : Access sampleArray := ⟨.elem n, n.isLt, 100, 0, false, false⟩

/-- The element that was written is read again. -/
theorem read_after_write_sampleArray : ReadSince sampleEnv 6 (.elem 0) (List.replicate 10 0) :=
  read_after_write sampleEnv sampleArray monotone_const (by decide)
    [.read (sampleAccess 0), .write (sampleAccess 0)] (sampleAccess 0)
    [⟨.elem 0, List.replicate 10 0⟩] (by decide) _ (List.mem_singleton_self _) (.elem 0, 6)
    (by decide) rfl

/-- The other element still comes from the cache: it was read before the write. -/
theorem not_readSince_sampleArray : ¬ ∀ (env : Env) (pr : LocalProperty), Monotone env.clock →
    timeOut env.g.timeouts pr.ft.change ≤ (cacheOpen env.g.timeouts (env.clock 0)).retiredLifespan →
    ∀ (ops : List (Op pr)) (a : Access pr) (parts : List Part),
    (fsRLocal env a.query ((Host.opened env).run env ops)).1 = some parts →
    ∀ part ∈ parts, ∀ w ∈ ((Host.opened env).run env ops).written,
      ReadSince env w.2 part.extension part.data := by
  intro h
  obtain ⟨m, _, _, hm, hdata⟩ := h sampleEnv sampleArray monotone_const (by decide)
    [.read (sampleAccess 1), .write (sampleAccess 0)] (sampleAccess 1)
    [⟨.elem 1, List.replicate 2 0⟩] (by decide) _ (List.mem_singleton_self _) (.elem 0, 6)
    (by decide)
  have hlen : 2 = m := by simpa [sampleEnv] using congrArg List.length hdata
  omega

end Owfs.Property
