import Mathlib

/-!
# Maps whose entries expire

A map from keys to entries that carry a value and the time until which it is valid. Two maps are
the same from a time on (`SameFrom`) when no look-up made at that time or later tells them apart.
The operations respect that relation, and an expired part of a map may be dropped under it. That
is what justifies an implementation that keeps several generations and throws old ones away.
-/

namespace Infra

/-- A value, valid before `expires`. -/
structure Entry (V : Type) where
  value : V
  expires : Int

/-- A map with a time to live. -/
def TtlMap (K V : Type) := K → Option (Entry V)

namespace TtlMap

variable {K V : Type} {m m' m'' : TtlMap K V} {k : K} {e : Entry V} {now now' t : Int}

/-- What a look-up at time `t` sees. -/
def visible (m : TtlMap K V) (k : K) (t : Int) : Option V :=
  (m k).bind fun e => if t < e.expires then some e.value else none

def empty : TtlMap K V := fun _ => none

/-- The map `young` with `old` behind it. -/
def shadowing (young old : TtlMap K V) : TtlMap K V := fun k => (young k).or (old k)

theorem visible_eq_some_iff {v : V} :
    m.visible k t = some v ↔ ∃ e, m k = some e ∧ t < e.expires ∧ e.value = v := by
  unfold visible
  cases h : m k with
  | none => simp
  | some e =>
    simp only [Option.bind_some, Option.some.injEq, exists_eq_left']
    split
    · next ht => simp [ht]
    · next ht => simp [ht]

theorem visible_eq_none_of_expired (h : ∀ e, m k = some e → e.expires ≤ t) :
    m.visible k t = none := by
  cases hv : m.visible k t with
  | none => rfl
  | some v =>
    obtain ⟨e, he, ht, -⟩ := visible_eq_some_iff.mp hv
    have := h e he
    omega

theorem visible_congr (h : m k = m' k) (t : Int) : m.visible k t = m'.visible k t := by
  rw [visible, visible, h]

/-! ## Observation from a time on -/

/-- No look-up at time `now` or later tells the maps apart. -/
def SameFrom (now : Int) (m m' : TtlMap K V) : Prop :=
  ∀ k t, now ≤ t → m.visible k t = m'.visible k t

theorem SameFrom.refl (now : Int) (m : TtlMap K V) : SameFrom now m m := fun _ _ _ => rfl

theorem SameFrom.trans (h : SameFrom now m m') (h' : SameFrom now m' m'') :
    SameFrom now m m'' := fun k t ht => (h k t ht).trans (h' k t ht)

theorem SameFrom.mono (h : SameFrom now m m') (hle : now ≤ now') : SameFrom now' m m' :=
  fun k t ht => h k t (le_trans hle ht)

/-- A generation all of whose entries have expired may go. -/
theorem sameFrom_shadowing_of_expired {young old : TtlMap K V}
    (h : ∀ k e, old k = some e → e.expires ≤ now) : SameFrom now (young.shadowing old) young := by
  intro k t ht
  cases hy : young k with
  | some e => exact visible_congr (by rw [shadowing, hy]; rfl) t
  | none =>
    have hnone : young.visible k t = none := by rw [visible, hy]; rfl
    rw [hnone]
    refine visible_eq_none_of_expired fun e he => le_trans (h k e ?_) ht
    rwa [shadowing, hy, Option.none_or] at he

/-! ## Writing -/

variable [DecidableEq K]

def put (m : TtlMap K V) (k : K) (e : Entry V) : TtlMap K V :=
  fun k' => if k' = k then some e else m k'

def del (m : TtlMap K V) (k : K) : TtlMap K V := fun k' => if k' = k then none else m k'

theorem shadowing_put (young old : TtlMap K V) (k : K) (e : Entry V) :
    (young.put k e).shadowing old = (young.shadowing old).put k e := by
  funext k'
  unfold shadowing put
  split <;> rfl

/-- Writing behind a generation that does not have the key. -/
theorem shadowing_put_old {young old : TtlMap K V} (hk : young k = none) (e : Entry V) :
    young.shadowing (old.put k e) = (young.shadowing old).put k e := by
  funext k'
  unfold shadowing put
  split
  · next h => rw [h, hk]; rfl
  · rfl

theorem SameFrom.put (h : SameFrom now m m') (k : K) (e : Entry V) :
    SameFrom now (m.put k e) (m'.put k e) := by
  intro k' t ht
  by_cases hk : k' = k
  · exact visible_congr (by simp [TtlMap.put, hk]) t
  · have hs := h k' t ht
    unfold visible at hs ⊢
    simpa [TtlMap.put, hk] using hs

theorem SameFrom.del (h : SameFrom now m m') (k : K) : SameFrom now (m.del k) (m'.del k) := by
  intro k' t ht
  by_cases hk : k' = k
  · exact visible_congr (by simp [TtlMap.del, hk]) t
  · have hs := h k' t ht
    unfold visible at hs ⊢
    simpa [TtlMap.del, hk] using hs

/-- An entry that has expired hides the key just as a deletion does. -/
theorem sameFrom_put_expired (he : e.expires ≤ now) (m : TtlMap K V) (k : K) :
    SameFrom now (m.put k e) (m.del k) := by
  intro k' t ht
  by_cases hk : k' = k
  · have hdel : (m.del k).visible k' t = none := by simp [visible, TtlMap.del, hk]
    rw [hdel]
    refine visible_eq_none_of_expired fun e' he' => ?_
    have : e = e' := by simpa [TtlMap.put, hk] using he'
    rw [← this]
    omega
  · exact visible_congr (by simp [TtlMap.put, TtlMap.del, hk]) t

/-- Deleting a key that has expired changes nothing that can be seen. -/
theorem sameFrom_del_of_expired (h : ∀ e, m k = some e → e.expires ≤ now) :
    SameFrom now m (m.del k) := by
  intro k' t ht
  by_cases hk : k' = k
  · have hdel : (m.del k).visible k' t = none := by simp [visible, TtlMap.del, hk]
    rw [hdel, hk]
    exact visible_eq_none_of_expired fun e he => le_trans (h e he) ht
  · exact visible_congr (by simp [TtlMap.del, hk]) t

/-! ## Histories -/

/-- A write to the map. -/
inductive Event (K V : Type) where
  | put (k : K) (e : Entry V)
  | del (k : K)

def Event.key : Event K V → K
  | .put k _ => k
  | .del k => k

def apply (m : TtlMap K V) : Event K V → TtlMap K V
  | .put k e => m.put k e
  | .del k => m.del k

/-- The map after a history, oldest event first. -/
def after (m : TtlMap K V) (evs : List (Event K V)) : TtlMap K V := evs.foldl apply m

theorem after_concat (m : TtlMap K V) (evs : List (Event K V)) (ev : Event K V) :
    m.after (evs ++ [ev]) = (m.after evs).apply ev := by
  rw [after, List.foldl_append]
  rfl

theorem apply_of_key_ne {ev : Event K V} (h : ev.key ≠ k) (m : TtlMap K V) :
    m.apply ev k = m k := by
  cases ev with
  | put k' e => exact if_neg (Ne.symm h)
  | del k' => exact if_neg (Ne.symm h)

/-- Where a split of a history cuts its last event. -/
theorem concat_eq_split {α : Type} {l before since : List α} {x y : α}
    (h : l ++ [x] = before ++ y :: since) :
    (since = [] ∧ x = y) ∨ ∃ s, since = s ++ [x] ∧ l = before ++ y :: s := by
  rcases List.eq_nil_or_concat since with rfl | ⟨s, z, rfl⟩
  · obtain ⟨-, hxy⟩ := List.append_inj' h rfl
    exact Or.inl ⟨rfl, by simpa using hxy⟩
  · rw [List.concat_eq_append, ← List.cons_append, ← List.append_assoc] at h
    obtain ⟨hl, hxz⟩ := List.append_inj' h rfl
    obtain rfl : x = z := by simpa using hxz
    exact Or.inr ⟨s, List.concat_eq_append, hl⟩

/-- **An entry is in the map exactly when the last event of its key put it there.** -/
theorem after_empty_eq_some_iff {evs : List (Event K V)} :
    (empty : TtlMap K V).after evs k = some e ↔
      ∃ before since, evs = before ++ .put k e :: since ∧ ∀ ev ∈ since, ev.key ≠ k := by
  induction evs using List.reverseRecOn with
  | nil => simp [after, empty]
  | append_singleton evs ev ih =>
    rw [after_concat]
    constructor
    · intro h
      by_cases hk : ev.key = k
      · -- the last event decides
        cases ev with
        | put k' e' =>
          obtain rfl : k' = k := hk
          obtain rfl : e' = e := by simpa [apply, TtlMap.put] using h
          exact ⟨evs, [], rfl, by simp⟩
        | del k' =>
          obtain rfl : k' = k := hk
          simp [apply, TtlMap.del] at h
      · rw [apply_of_key_ne hk, ih] at h
        obtain ⟨before, since, rfl, hsince⟩ := h
        refine ⟨before, since ++ [ev], by simp, fun ev' hev' => ?_⟩
        rcases List.mem_append.mp hev' with h | h
        · exact hsince ev' h
        · rw [List.mem_singleton.mp h]
          exact hk
    · rintro ⟨before, since, heq, hsince⟩
      rcases concat_eq_split heq with ⟨rfl, rfl⟩ | ⟨s, rfl, hevs⟩
      · simp [apply, TtlMap.put]
      · rw [apply_of_key_ne (hsince ev (by simp)), ih]
        exact ⟨before, s, hevs, fun x hx => hsince x (by simp [hx])⟩

end TtlMap

end Infra
