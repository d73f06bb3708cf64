import Owfs.Infra.TtlMap
import Owfs.Cache.Store

/-!
# The cache is a map with time to live

Over runs with a clock that does not go back, fixed timeouts and no size limit, the two trees
together cannot be told from one map in which the last addition or deletion of a key decides.

The invariant bounds the expiry of what the trees hold. An entry of the old tree expires at
`time_retired` plus the duration of its key at the latest, or has already expired (a deletion
leaves the entry there with a time in the past). Both time tests on the old tree follow from it,
and so does that a flip drops nothing that is alive.
-/

namespace Owfs.Cache

open Infra Owfs.Device

/-! ## Runs -/

/-- An operation with the clock readings it makes. An addition reads the clock for the expiry of
the node (`Cache_Add`), for the test and for the flip. -/
inductive Op where
  | add (tk : TreeKey) (data : Bytes) (made now flipTime : Int)
  | get (tk : TreeKey) (dsize : Nat) (now : Int)
  | del (tk : TreeKey) (now : Int)

/-- The clock readings, in order. -/
def Op.clock : Op → List Int
  | .add _ _ made now flipTime => [made, now, flipTime]
  | .get _ _ now => [now]
  | .del _ now => [now]

/-- One operation without size limit. A key has a fixed duration. -/
def step (duration : TreeKey → Int) (cache : CacheData) : Op → CacheData
  | .add tk data made now flipTime =>
    (cacheAddCommon 0 now flipTime ⟨tk, made + duration tk, data⟩ cache).2
  | .get _ _ _ => cache
  | .del tk now => (cacheDelCommon now tk cache).2

def run (duration : TreeKey → Int) (cache : CacheData) (ops : List Op) : CacheData :=
  ops.foldl (step duration) cache

/-- What an operation means for the map. -/
def Op.event (duration : TreeKey → Int) : Op → Option (TtlMap.Event TreeKey Bytes)
  | .add tk data made _ _ => some (.put tk ⟨data, made + duration tk⟩)
  | .get _ _ _ => none
  | .del tk _ => some (.del tk)

/-! ## The trees as maps -/

/-- A tree as a map. -/
def view (tree : Tree) : TtlMap TreeKey Bytes :=
  fun tk => (tree.lookup tk).map fun tn => ⟨tn.data, tn.expires⟩

/-- Both trees, the new one in front. -/
def CacheData.map (cache : CacheData) : TtlMap TreeKey Bytes :=
  (view cache.temporaryTreeNew).shadowing (view cache.temporaryTreeOld)

@[simp] theorem view_empty : view ∅ = TtlMap.empty := by
  funext tk
  simp [view, TtlMap.empty]

theorem view_insert (tree : Tree) (tk : TreeKey) (tn : TreeNode) :
    view (tree.insert tk tn) = (view tree).put tk ⟨tn.data, tn.expires⟩ := by
  funext tk'
  unfold view TtlMap.put
  by_cases h : tk' = tk
  · subst h
    simp
  · rw [AList.lookup_insert_ne h, if_neg h]

theorem view_eq_none_iff {tree : Tree} {tk : TreeKey} :
    view tree tk = none ↔ tree.lookup tk = none := by
  rw [view, Option.map_eq_none_iff]

theorem view_eq_some_of_lookup {tree : Tree} {tk : TreeKey} {tn : TreeNode}
    (h : tree.lookup tk = some tn) : view tree tk = some ⟨tn.data, tn.expires⟩ := by
  rw [view, h, Option.map_some]

/-! ## The invariant -/

section

variable {duration : TreeKey → Int} {cache : CacheData} {now now' : Int}
  {m : TtlMap TreeKey Bytes} {tk : TreeKey}

/-- A node of a tree filled until `filled` expires by its duration, or is dead already. -/
def Bounded (duration : TreeKey → Int) (lifespan filled now : Int) (tree : Tree) : Prop :=
  ∀ tk e, view tree tk = some e →
    duration tk ≤ lifespan ∧ (e.expires ≤ filled + duration tk ∨ e.expires ≤ now)

/-- The state of the cache at time `now`, beside the map it stands for. -/
structure Holds (duration : TreeKey → Int) (now : Int) (cache : CacheData)
    (m : TtlMap TreeKey Bytes) : Prop where
  kill : cache.timeToKill = cache.timeRetired + cache.retiredLifespan
  young : Bounded duration cache.retiredLifespan now now cache.temporaryTreeNew
  old : Bounded duration cache.retiredLifespan cache.timeRetired now cache.temporaryTreeOld
  same : TtlMap.SameFrom now cache.map m

theorem Bounded.mono {lifespan filled filled' : Int} {tree : Tree}
    (h : Bounded duration lifespan filled now tree) (hf : filled ≤ filled') (hn : now ≤ now') :
    Bounded duration lifespan filled' now' tree := by
  intro tk e he
  obtain ⟨hd, hb⟩ := h tk e he
  refine ⟨hd, ?_⟩
  rcases hb with hb | hb
  · exact Or.inl (by omega)
  · exact Or.inr (by omega)

theorem Bounded.insert {lifespan filled : Int} {tree : Tree} {tn : TreeNode}
    (h : Bounded duration lifespan filled now tree) (hd : duration tk ≤ lifespan)
    (hb : tn.expires ≤ filled + duration tk ∨ tn.expires ≤ now) :
    Bounded duration lifespan filled now (tree.insert tk tn) := by
  intro tk' e he
  rw [view_insert, TtlMap.put] at he
  split at he
  · next hk =>
    subst hk
    rw [← Option.some.inj he]
    exact ⟨hd, hb⟩
  · exact h tk' e he

/-- All that a tree holds is dead once its lifespan is over. -/
theorem Bounded.expired {lifespan filled : Int} {tree : Tree}
    (h : Bounded duration lifespan filled now tree) (hn : filled + lifespan ≤ now)
    (tk : TreeKey) (e : Entry Bytes) (he : view tree tk = some e) : e.expires ≤ now := by
  obtain ⟨hd, hb | hb⟩ := h tk e he
  · omega
  · exact hb

/-- Time passes. -/
theorem Holds.mono (h : Holds duration now cache m) (hn : now ≤ now') :
    Holds duration now' cache m where
  kill := h.kill
  young := h.young.mono hn hn
  old := h.old.mono le_rfl hn
  same := h.same.mono hn

theorem holds_cacheOpen (duration : TreeKey → Int) (timeouts : Timeouts) (now : Int) :
    Holds duration now (cacheOpen timeouts now) TtlMap.empty where
  kill := rfl
  young := by
    intro tk e he
    simp [cacheOpen, flipTree, TtlMap.empty] at he
  old := by
    intro tk e he
    simp [cacheOpen, flipTree, TtlMap.empty] at he
  same := by
    have hmap : (cacheOpen timeouts now).map = TtlMap.empty := by
      funext tk
      simp [CacheData.map, cacheOpen, flipTree, TtlMap.shadowing, TtlMap.empty]
    rw [hmap]
    exact TtlMap.SameFrom.refl _ _

/-! ## What each operation does to the map -/

/-- A flip after `time_to_kill` drops nothing that is alive. -/
theorem Holds.flipTree (h : Holds duration now cache m) (hk : cache.timeToKill < now)
    (hn : now ≤ now') : Holds duration now' (flipTree now' cache) m where
  kill := rfl
  young := by
    intro tk e he
    simp [Cache.flipTree, TtlMap.empty] at he
  old := h.young.mono hn hn
  same := by
    have hmap : (Cache.flipTree now' cache).map = view cache.temporaryTreeNew := by
      funext tk
      simp [CacheData.map, Cache.flipTree, TtlMap.shadowing, TtlMap.empty]
    have hdead : TtlMap.SameFrom now cache.map (view cache.temporaryTreeNew) :=
      TtlMap.sameFrom_shadowing_of_expired (h.old.expired (by rw [← h.kill]; omega))
    rw [hmap]
    refine TtlMap.SameFrom.trans ?_ (h.same.mono hn)
    intro tk t ht
    exact (hdead tk t (by omega)).symm

/-- `Cache_Add_Common` puts the entry. -/
theorem Holds.add (h : Holds duration now cache m) {made t flipTime : Int} {data : Bytes}
    (hmade : now ≤ made) (ht : made ≤ t) (hf : t ≤ flipTime)
    (hd : duration tk ≤ cache.retiredLifespan) :
    Holds duration flipTime
      (cacheAddCommon 0 t flipTime ⟨tk, made + duration tk, data⟩ cache).2
      (m.put tk ⟨data, made + duration tk⟩) := by
  obtain ⟨base, hbase, hlife, hholds⟩ : ∃ base,
      (if cache.timeToKill < t then Cache.flipTree flipTime cache else cache) = base ∧
      base.retiredLifespan = cache.retiredLifespan ∧ Holds duration flipTime base m := by
    refine ⟨_, rfl, ?_, ?_⟩
    · split <;> rfl
    · split
      · next hk => exact (h.mono (by omega : now ≤ t)).flipTree hk hf
      · exact h.mono (by omega)
  obtain ⟨size, heq⟩ : ∃ size,
      (cacheAddCommon 0 t flipTime ⟨tk, made + duration tk, data⟩ cache).2 =
      { base with
        temporaryTreeNew := base.temporaryTreeNew.insert tk ⟨tk, made + duration tk, data⟩
        newRamSize := size } := by
    unfold cacheAddCommon
    simp only [hbase, ne_eq, not_true_eq_false, false_and, if_false]
    exact ⟨_, rfl⟩
  rw [heq]
  refine ⟨hholds.kill, ?_, hholds.old, ?_⟩
  · exact hholds.young.insert (by rw [hlife]; exact hd) (Or.inl (by show made + _ ≤ _; omega))
  · show TtlMap.SameFrom flipTime ((view (base.temporaryTreeNew.insert tk _)).shadowing _) _
    rw [view_insert, TtlMap.shadowing_put]
    exact hholds.same.put tk _

/-- `Cache_Del_Common` deletes the entry, also where it leaves the old tree alone. -/
theorem Holds.del (h : Holds duration now cache m) :
    Holds duration now (cacheDelCommon now tk cache).2 (m.del tk) := by
  have hsame := h.same.del tk
  unfold cacheDelCommon
  cases hnew : cache.temporaryTreeNew.lookup tk with
  | some tn =>
    obtain ⟨hd, -⟩ := h.young tk _ (view_eq_some_of_lookup hnew)
    refine ⟨h.kill, h.young.insert hd (Or.inr (by show now - 1 ≤ now; omega)), h.old, ?_⟩
    show TtlMap.SameFrom now ((view (cache.temporaryTreeNew.insert tk _)).shadowing _) _
    rw [view_insert, TtlMap.shadowing_put]
    exact (TtlMap.sameFrom_put_expired (by show now - 1 ≤ now; omega) _ _).trans hsame
  | none =>
    have hmiss := view_eq_none_iff.mpr hnew
    -- where nothing is written, nothing alive was there
    have hkeep : (∀ e, view cache.temporaryTreeOld tk = some e → e.expires ≤ now) →
        Holds duration now cache (m.del tk) := by
      intro hdead
      refine ⟨h.kill, h.young, h.old, TtlMap.SameFrom.trans ?_ hsame⟩
      refine TtlMap.sameFrom_del_of_expired fun e he => hdead e ?_
      rwa [CacheData.map, TtlMap.shadowing, hmiss, Option.none_or] at he
    simp only
    split
    · cases hold : cache.temporaryTreeOld.lookup tk with
      | some tn =>
        obtain ⟨hd, -⟩ := h.old tk _ (view_eq_some_of_lookup hold)
        refine ⟨h.kill, h.young, h.old.insert hd (Or.inr (by show now - 1 ≤ now; omega)), ?_⟩
        show TtlMap.SameFrom now
          (TtlMap.shadowing _ (view (cache.temporaryTreeOld.insert tk _))) _
        rw [view_insert, TtlMap.shadowing_put_old hmiss]
        exact (TtlMap.sameFrom_put_expired (by show now - 1 ≤ now; omega) _ _).trans hsame
      | none =>
        refine hkeep fun e he => ?_
        rw [view_eq_none_iff.mpr hold] at he
        simp at he
    · next hk => exact hkeep (h.old.expired (by rw [← h.kill]; omega) tk)

/-- `Cache_Get_Common` sees what the map shows, if the buffer is large enough. -/
theorem Holds.get (h : Holds duration now cache m) {dsize : Nat}
    (hsize : ∀ v, m.visible tk now = some v → v.length ≤ dsize) (v : Bytes) :
    (cacheGetCommon now dsize (duration tk) tk cache).ret = .ok ∧
      (cacheGetCommon now dsize (duration tk) tk cache).data = v ↔
    m.visible tk now = some v := by
  rw [← h.same tk now le_rfl] at hsize ⊢
  unfold cacheGetCommon
  cases hfind : findForGet now (duration tk) tk cache with
  | some tn =>
    have hmap : cache.map tk = some ⟨tn.data, tn.expires⟩ := by
      unfold findForGet at hfind
      split at hfind
      · next tn' hnew =>
        rw [← Option.some.inj hfind, CacheData.map, TtlMap.shadowing,
          view_eq_some_of_lookup hnew, Option.some_or]
      · next hnew =>
        split at hfind
        · rw [CacheData.map, TtlMap.shadowing, view_eq_none_iff.mpr hnew, Option.none_or]
          exact view_eq_some_of_lookup hfind
        · simp at hfind
    rw [TtlMap.visible, hmap, Option.bind_some] at hsize ⊢
    by_cases hl : now < tn.expires
    · have hfit : tn.data.length ≤ dsize := hsize _ (if_pos hl)
      simp only [show tn.expires - now > 0 by omega, if_true, ge_iff_le, hfit, hl, true_and,
        Option.some.injEq]
    · simp only [show ¬ tn.expires - now > 0 by omega, if_false, hl, reduceCtorEq, false_and]
  | none =>
    have hdead : cache.map.visible tk now = none := by
      refine TtlMap.visible_eq_none_of_expired fun e he => ?_
      unfold findForGet at hfind
      split at hfind
      · simp at hfind
      · next hnew =>
        rw [CacheData.map, TtlMap.shadowing, view_eq_none_iff.mpr hnew, Option.none_or] at he
        split at hfind
        · rw [view_eq_none_iff.mpr hfind] at he
          simp at he
        · obtain ⟨-, hb | hb⟩ := h.old tk e he
          · omega
          · exact hb
    rw [hdead]
    simp

end

/-! ## Whole runs -/

/-- No operation changes the lifespan. -/
theorem retiredLifespan_step (duration : TreeKey → Int) (cache : CacheData) (op : Op) :
    (step duration cache op).retiredLifespan = cache.retiredLifespan := by
  cases op with
  | add tk data made now flipTime =>
    show (cacheAddCommon 0 now flipTime _ cache).2.retiredLifespan = _
    unfold cacheAddCommon
    simp only [ne_eq, not_true_eq_false, false_and, if_false]
    split <;> rfl
  | get => rfl
  | del tk now =>
    show (cacheDelCommon now tk cache).2.retiredLifespan = _
    unfold cacheDelCommon
    split
    · rfl
    · split
      · split <;> rfl
      · rfl

/-- The keys that are added keep within the lifespan. -/
def Op.Within (duration : TreeKey → Int) (lifespan : Int) : Op → Prop
  | .add tk _ _ _ _ => duration tk ≤ lifespan
  | _ => True

/-- The last clock reading of an operation. -/
def Op.last : Op → Int
  | .add _ _ _ _ flipTime => flipTime
  | .get _ _ now => now
  | .del _ now => now

section

variable {duration : TreeKey → Int} {cache : CacheData} {now now' : Int}
  {m : TtlMap TreeKey Bytes}

theorem Holds.step {op : Op} (h : Holds duration now cache m)
    (hclock : (now :: op.clock).Pairwise (· ≤ ·)) (hd : op.Within duration cache.retiredLifespan) :
    Holds duration op.last (step duration cache op) (m.after (op.event duration).toList) := by
  cases op with
  | add tk data made t flipTime =>
    simp only [Op.clock, List.pairwise_cons, List.mem_cons, List.not_mem_nil, or_false,
      forall_eq_or_imp, forall_eq] at hclock
    obtain ⟨⟨hmade, -, -⟩, ⟨ht, -⟩, hflip, -⟩ := hclock
    exact h.add hmade ht hflip hd
  | get tk dsize t =>
    exact h.mono ((List.pairwise_cons.mp hclock).1 t (List.mem_singleton_self t))
  | del tk t =>
    exact (h.mono ((List.pairwise_cons.mp hclock).1 t (List.mem_singleton_self t))).del

/-- The readings of a run split at its first operation. -/
theorem clock_cons {op : Op} {rest : List Int}
    (h : (now :: (op.clock ++ rest)).Pairwise (· ≤ ·)) :
    (now :: op.clock).Pairwise (· ≤ ·) ∧ (op.last :: rest).Pairwise (· ≤ ·) := by
  constructor
  · exact h.sublist (List.Sublist.cons_cons _ (List.sublist_append_left _ _))
  · have hlast : [op.last].Sublist op.clock := by
      rw [List.singleton_sublist]
      cases op <;> simp [Op.last, Op.clock]
    exact h.sublist ((hlast.append (List.Sublist.refl rest)).cons _)

/-- The invariant over a run. -/
theorem Holds.run {ops : List Op} (h : Holds duration now cache m)
    (hclock : (now :: (ops.flatMap Op.clock ++ [now'])).Pairwise (· ≤ ·))
    (hd : ∀ op ∈ ops, op.Within duration cache.retiredLifespan) :
    Holds duration now' (run duration cache ops)
      (m.after (ops.filterMap (Op.event duration))) := by
  induction ops generalizing cache now m with
  | nil => exact h.mono (by simpa using hclock)
  | cons op rest ih =>
    rw [List.flatMap_cons, List.append_assoc] at hclock
    obtain ⟨hop, hrest⟩ := clock_cons hclock
    have hstep := h.step hop (hd op List.mem_cons_self)
    have hafter : m.after ((op :: rest).filterMap (Op.event duration))
        = (m.after (op.event duration).toList).after (rest.filterMap (Op.event duration)) := by
      cases he : op.event duration with
      | none => rw [List.filterMap_cons_none he]; rfl
      | some ev => rw [List.filterMap_cons_some he]; rfl
    rw [hafter]
    refine ih hstep hrest fun op' hop' => ?_
    rw [retiredLifespan_step]
    exact hd op' (List.mem_cons_of_mem _ hop')

end

/-! ## The last addition or deletion decides -/

/-- The key an operation adds or deletes. -/
def Op.written : Op → Option TreeKey
  | .add tk _ _ _ _ => some tk
  | .get _ _ _ => none
  | .del tk _ => some tk

/-- The last addition or deletion of `tk` is an addition of `data`, made at `made`. -/
def LastAdd (ops : List Op) (tk : TreeKey) (data : Bytes) (made : Int) : Prop :=
  ∃ before since now flipTime, ops = before ++ .add tk data made now flipTime :: since ∧
    ∀ op ∈ since, op.written ≠ some tk

theorem Op.written_eq (duration : TreeKey → Int) (op : Op) :
    op.written = (op.event duration).map TtlMap.Event.key := by
  cases op <;> rfl

/-- The map of a run in terms of the run. -/
theorem after_events_eq_some_iff {duration : TreeKey → Int} {ops : List Op} {tk : TreeKey}
    {e : Entry Bytes} :
    (TtlMap.empty : TtlMap TreeKey Bytes).after (ops.filterMap (Op.event duration)) tk = some e ↔
      ∃ made, LastAdd ops tk e.value made ∧ e.expires = made + duration tk := by
  rw [TtlMap.after_empty_eq_some_iff]
  constructor
  · rintro ⟨before, since, heq, hsince⟩
    obtain ⟨b, rest, rfl, hb, hrest⟩ := List.filterMap_eq_append_iff.mp heq
    obtain ⟨skip, op, s, rfl, hskip, hop, rfl⟩ := List.filterMap_eq_cons_iff.mp hrest
    cases op with
    | add tk' data made now flipTime =>
      obtain ⟨rfl, rfl⟩ : tk' = tk ∧ ⟨data, made + duration tk'⟩ = e := by
        simpa [Op.event] using hop
      refine ⟨made, ⟨b ++ skip, s, now, flipTime, by simp, fun op' hop' hw => ?_⟩, rfl⟩
      rw [Op.written_eq duration] at hw
      obtain ⟨ev, hev, hkey⟩ := Option.map_eq_some_iff.mp hw
      exact hsince ev (List.mem_filterMap.mpr ⟨op', hop', hev⟩) hkey
    | get => simp [Op.event] at hop
    | del => simp [Op.event] at hop
  · rintro ⟨made, ⟨before, since, now, flipTime, rfl, hsince⟩, hexp⟩
    refine ⟨before.filterMap (Op.event duration), since.filterMap (Op.event duration), ?_, ?_⟩
    · have hev : (Op.add tk e.value made now flipTime).event duration = some (.put tk e) := by
        rw [Op.event, ← hexp]
      rw [List.filterMap_append, List.filterMap_cons_some hev]
    · intro ev hev hkey
      obtain ⟨op, hop, he⟩ := List.mem_filterMap.mp hev
      refine hsince op hop ?_
      rw [Op.written_eq duration, he, Option.map_some, hkey]

/-- What the map of a run shows. -/
theorem visible_events_iff {duration : TreeKey → Int} {ops : List Op} {tk : TreeKey} {t : Int}
    {v : Bytes} :
    ((TtlMap.empty : TtlMap TreeKey Bytes).after (ops.filterMap (Op.event duration))).visible tk t
        = some v ↔ ∃ made, LastAdd ops tk v made ∧ t < made + duration tk := by
  rw [TtlMap.visible_eq_some_iff]
  constructor
  · rintro ⟨e, he, ht, rfl⟩
    obtain ⟨made, hlast, hexp⟩ := after_events_eq_some_iff.mp he
    exact ⟨made, hlast, by rw [← hexp]; exact ht⟩
  · rintro ⟨made, hlast, ht⟩
    exact ⟨⟨v, made + duration tk⟩, after_events_eq_some_iff.mpr ⟨made, hlast, rfl⟩, ht, rfl⟩

/--
**The cache is a map with time to live.** After any run, a look-up with a large enough buffer
succeeds exactly when the last addition or deletion of the key is an addition that has not timed
out, and it then returns the bytes of that addition.
-/
theorem cacheGetCommon_run (timeouts : Timeouts) (duration : TreeKey → Int) (opened now : Int)
    (ops : List Op) (hclock : (opened :: (ops.flatMap Op.clock ++ [now])).Pairwise (· ≤ ·))
    (hd : ∀ op ∈ ops, op.Within duration (cacheOpen timeouts opened).retiredLifespan)
    (tk : TreeKey) {dsize : Nat}
    (hsize : ∀ data made, LastAdd ops tk data made → data.length ≤ dsize) :
    let res := cacheGetCommon now dsize (duration tk) tk
      (run duration (cacheOpen timeouts opened) ops)
    (res.ret = .ok ↔ ∃ data made, LastAdd ops tk data made ∧ now < made + duration tk) ∧
      ∀ data made, LastAdd ops tk data made → now < made + duration tk → res.data = data := by
  have hholds := (holds_cacheOpen duration timeouts opened).run hclock hd
  have hget : ∀ v, _ ↔ ∃ made, LastAdd ops tk v made ∧ now < made + duration tk := fun v =>
    (hholds.get (fun w hw => by
      obtain ⟨made, hlast, -⟩ := visible_events_iff.mp hw
      exact hsize w made hlast) v).trans visible_events_iff
  refine ⟨⟨fun hok => ?_, fun ⟨data, made, hlast, ht⟩ => ?_⟩, fun data made hlast ht => ?_⟩
  · obtain ⟨made, h⟩ := (hget _).mp ⟨hok, rfl⟩
    exact ⟨_, made, h⟩
  · exact ((hget data).mpr ⟨made, hlast, ht⟩).1
  · exact ((hget data).mpr ⟨made, hlast, ht⟩).2

/-- A key of a sample run. -/
def sampleKey (p : BitVec 64) : TreeKey := ⟨SerialNumber.zero, p, 0⟩

/-- The second addition retires the tree that holds the first. -/
def sampleOps : List Op :=
  [.add (sampleKey 1) [0x31] 290 290 290, .add (sampleKey 2) [0x32] 301 301 302]

/-- The first entry is still found, in the old tree. -/
theorem cacheGetCommon_run_sampleOps :
    let res := cacheGetCommon 303 8 15 (sampleKey 1)
      (run (fun _ => 15) (cacheOpen ⟨15, 300, 60, 120⟩ 0) sampleOps)
    res.ret = .ok ∧ res.data = [0x31] := by
  have hlast : LastAdd sampleOps (sampleKey 1) [0x31] 290 :=
    ⟨[], [.add (sampleKey 2) [0x32] 301 301 302], 290, 290, rfl, by decide⟩
  have hsize : ∀ data made, LastAdd sampleOps (sampleKey 1) data made → data.length ≤ 8 := by
    rintro data made ⟨before, since, now, flipTime, heq, -⟩
    have hmem : Op.add (sampleKey 1) data made now flipTime ∈ sampleOps := by
      rw [heq]
      simp
    have hcase : data = [0x31] ∨ data = [0x32] := by
      simp only [sampleOps, List.mem_cons, Op.add.injEq, List.not_mem_nil, or_false] at hmem
      exact hmem.imp (fun h => h.2.1) (fun h => h.2.1)
    rcases hcase with rfl | rfl <;> decide
  have h := cacheGetCommon_run ⟨15, 300, 60, 120⟩ (fun _ => 15) 0 303 sampleOps
    (by decide) (by simp [sampleOps, Op.Within, cacheOpen, flipTree, timeOut])
    (sampleKey 1) hsize
  exact ⟨h.1.mpr ⟨_, _, hlast, by decide⟩, h.2 _ _ hlast (by decide)⟩

end Owfs.Cache
