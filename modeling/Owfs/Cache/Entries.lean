import Owfs.Cache.Deletion

/-!
# Entries of the cache over time

What a look-up answers is the data of an entry. An operation changes the data of no entry but the
one it adds; it may let entries expire, or forget them.
-/

namespace Owfs.Cache

open Infra Owfs.Device

/-! ## Look-ups -/

/-- What `Cache_Get_Common_Dir` answers is the data of the entry. -/
theorem entry_of_getCommonDir {trees : Trees} {now duration : Int} {tk : TreeKey} {data : Bytes}
    (h : (trees.getCommonDir now duration tk).getStat = some data) :
    ∃ tn, trees.temporary.entry tk = some tn ∧ tn.data = data := by
  unfold Trees.getCommonDir at h
  split at h
  · cases h
  · next tn hfind =>
    refine ⟨tn, entry_of_findForGet hfind, ?_⟩
    dsimp only at h
    split at h
    · exact Option.some.inj h
    · cases h

theorem entry_of_cacheGetCommon {cache : CacheData} {now duration : Int} {dsize : Nat}
    {tk : TreeKey} {data : Bytes}
    (h : (cacheGetCommon now dsize duration tk cache).getStat = some data) :
    ∃ tn, cache.entry tk = some tn ∧ tn.data = data := by
  unfold cacheGetCommon at h
  split at h
  · cases h
  · next tn hfind =>
    refine ⟨tn, entry_of_findForGet hfind, ?_⟩
    dsimp only at h
    split at h
    · split at h
      · exact Option.some.inj h
      · cases h
    · cases h

/-! ## Operations -/

/-- The entry of the key, if it is still there, has the data it had. -/
structure Keeps (trees trees' : Trees) (tk : TreeKey) : Prop where
  data : ∀ tn', trees'.temporary.entry tk = some tn' →
    ∃ tn, trees.temporary.entry tk = some tn ∧ tn.data = tn'.data

theorem Keeps.refl (trees : Trees) (tk : TreeKey) :
    Keeps trees trees tk := ⟨fun tn h => ⟨tn, h, rfl⟩⟩

theorem Keeps.trans {trees₁ trees₂ trees₃ : Trees} {tk : TreeKey} (h : Keeps trees₁ trees₂ tk)
    (h' : Keeps trees₂ trees₃ tk) : Keeps trees₁ trees₃ tk := by
  refine ⟨fun tn₃ h₃ => ?_⟩
  obtain ⟨tn₂, h₂, hdata⟩ := h'.data tn₃ h₃
  obtain ⟨tn₁, h₁, hdata'⟩ := h.data tn₂ h₂
  exact ⟨tn₁, h₁, hdata'.trans hdata⟩

theorem Keeps.of_temporary {trees trees' : Trees} {tk : TreeKey}
    (h : trees'.temporary = trees.temporary) :
    Keeps trees trees' tk :=
  ⟨fun tn hentry => ⟨tn, h ▸ hentry, rfl⟩⟩

section

variable {trees : Trees} {tk : TreeKey} {g : Globals} {now flipTime : Int} {tn : TreeNode}

theorem keeps_addCommon (hk : tk ≠ tn.tk) : Keeps trees (trees.addCommon g now flipTime tn).2 tk :=
  ⟨fun tn' h => ⟨tn', (entry_of_cacheAddCommon h).resolve_right fun h' => hk h'.1, rfl⟩⟩

/-- An addition that was refused adds nothing. -/
theorem keeps_addCommon_bad (h : (trees.addCommon g now flipTime tn).1 ≠ .good) :
    Keeps trees (trees.addCommon g now flipTime tn).2 tk := by
  refine ⟨fun tn' hentry => ⟨tn', ?_, rfl⟩⟩
  have hbase : (if trees.temporary.timeToKill < now then flipTree flipTime trees.temporary
      else trees.temporary).entry tk = some tn' → trees.temporary.entry tk = some tn' := by
    intro hb
    split at hb
    · exact entry_of_flipTree hb
    · exact hb
  unfold Trees.addCommon cacheAddCommon at h hentry
  dsimp only at h hentry
  generalize (if trees.temporary.timeToKill < now then flipTree flipTime trees.temporary
    else trees.temporary) = base at h hentry hbase
  by_cases hfull : g.cacheSize ≠ 0 ∧ base.oldRamSize + base.newRamSize > g.cacheSize
  · rw [if_pos hfull] at hentry
    exact hbase hentry
  · rw [if_neg hfull] at h
    exact absurd rfl h

/-- What is found under a key after an addition was there, or was added. -/
theorem entry_of_addCommon {tn' : TreeNode}
    (h : (trees.addCommon g now flipTime tn).2.temporary.entry tk = some tn') :
    (∃ tn, trees.temporary.entry tk = some tn ∧ tn.data = tn'.data) ∨
      (tk = tn.tk ∧ tn' = tn ∧ (trees.addCommon g now flipTime tn).1 = .good) := by
  by_cases hgood : (trees.addCommon g now flipTime tn).1 = .good
  · rcases entry_of_cacheAddCommon h with hold | ⟨htk, htn⟩
    · exact .inl ⟨tn', hold, rfl⟩
    · exact .inr ⟨htk, htn, hgood⟩
  · exact .inl ((keeps_addCommon_bad hgood).data tn' h)

theorem keeps_delCommon {tk' : TreeKey} : Keeps trees (trees.delCommon now tk') tk := by
  refine ⟨fun tn' h => ?_⟩
  unfold Trees.delCommon cacheDelCommon at h
  dsimp only at h
  split at h
  · next found hnew =>
    by_cases hk : tk = tk'
    · subst hk
      simp only [CacheData.entry, AList.lookup_insert, Option.some_or, Option.some.injEq] at h
      refine ⟨found, ?_, by rw [← h]⟩
      rw [CacheData.entry, hnew, Option.some_or]
    · rw [CacheData.entry, AList.lookup_insert_ne hk] at h
      exact ⟨tn', h, rfl⟩
  · next hnew =>
    split at h
    · split at h
      · next found hold =>
        by_cases hk : tk = tk'
        · subst hk
          simp only [CacheData.entry, hnew, AList.lookup_insert, Option.none_or,
            Option.some.injEq] at h
          refine ⟨found, ?_, by rw [← h]⟩
          rw [CacheData.entry, hnew, Option.none_or, hold]
        · rw [CacheData.entry, AList.lookup_insert_ne hk] at h
          exact ⟨tn', h, rfl⟩
      · exact ⟨tn', h, rfl⟩
    · exact ⟨tn', h, rfl⟩

end

section

variable {markers : Markers}

theorem keeps_del {w : World} {name : Name} {now : Int} {tk : TreeKey} :
    Keeps w.trees (w.del markers name now).trees tk := by
  rw [trees_del]
  split
  · split
    · exact .of_temporary rfl
    · exact keeps_delCommon
  · exact .refl ..

/-- An addition under another key. -/
theorem keeps_add {w : World} {name : Name} {data : Bytes} {made now flipTime : Int} {tk : TreeKey}
    (hk : tk ≠ name.key markers) :
    Keeps w.trees (w.add markers name data made now flipTime).trees tk := by
  rcases trees_add name data made now flipTime with h | ⟨tn, htk, h⟩ | ⟨tn, htk, h⟩ | h
  · rw [h]
    exact .refl ..
  · rw [h]
    exact .of_temporary rfl
  · rw [h]
    exact keeps_addCommon (htk ▸ hk)
  · rw [h]
    exact keeps_delCommon

theorem keeps_step {w : World} {op : CacheOp} {tk : TreeKey}
    (h : ∀ name data made now flipTime, op = .add name data made now flipTime →
      tk ≠ name.key markers) :
    Keeps w.trees (w.step markers op).trees tk := by
  cases op with
  | add name data made now flipTime => exact keeps_add (h name data made now flipTime rfl)
  | get name dsize now => exact .refl ..
  | del name now => exact keeps_del
  | setTimeout which value now now' =>
    simp only [World.step, fsWTimeout]
    split
    · refine ⟨fun tn' hentry => ?_⟩
      rw [Trees.clear, entry_clear] at hentry
      cases hentry
    · exact .refl ..

end

end Owfs.Cache
