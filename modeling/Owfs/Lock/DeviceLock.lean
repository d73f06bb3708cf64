import Owfs.Infra.Threads
import Owfs.Cache.Store

/-!
# The device locks

`ow_devicelock.c` keeps a tree of locks for each bus, one for each serial number in use.
`DeviceLockGet` finds or creates the entry and counts itself as a user while it holds the mutex
of the tree, and then waits for the entry's own mutex. `DeviceLockRelease` unlocks the entry, and
the last user removes and frees it. The number of users is a `UINT` there and a natural number
here: 2^32 threads at one entry are out of reach.

What happens under the mutex of a tree is one step, and so are the calls of `malloc` and the
operations on the mutex of an entry. Memory is a partial map: a freed block is not there any more,
and no step is possible that looks into one.
-/

namespace Owfs.Lock.Device

open Infra Owfs.Device Owfs.Cache

/-! ## The code -/

/-- What `DeviceLockGet` looks at in a `struct parsedname`. -/
structure ParsedName (β : Type) where
  sn : SerialNumber
  selectedConnection : Option β
  /-- `selected_device == DeviceSimultaneous` -/
  simultaneous : Bool
  /-- the property is read by `FS_r_external` or written by `FS_w_external` -/
  external : Bool
  format : FtFormat
  change : FcChange

/-- A device lock is the lock of a serial number on a bus. -/
abbrev Key (β : Type) := β × SerialNumber

/-- The tests at the start of `DeviceLockGet`: an error, or 0 without a lock, or the lock that is
needed. -/
def ParsedName.lockNeeded {β : Type} (pn : ParsedName β) : Except Int (Option (Key β)) :=
  if pn.simultaneous then .ok none
  else match pn.selectedConnection with
    | none => .error (-einval)
    | some bus =>
      if pn.external then .ok none
      else if pn.format = .directory ∨ pn.format = .subdir then .ok none
      else if pn.change = .static ∨ pn.change = .statistic then .ok none
      else .ok (some (bus, pn.sn))

/-- `struct devlock`; `lock` says whether the mutex is taken. -/
structure Devlock where
  lock : Bool
  sn : SerialNumber
  users : Nat

/-- Where a thread is. -/
inductive Pc (β Ptr : Type) where
  | outside
  /-- before `DEVTREE_LOCK`, with `local_devicelock` -/
  | allocated (k : Key β) (p : Ptr)
  /-- before the mutex of the entry -/
  | waiting (k : Key β) (p : Ptr)
  /-- `DeviceLockGet` has returned 0 and `pn->lock` is `p` -/
  | holding (k : Key β) (p : Ptr)
  /-- in `DeviceLockRelease`, before `DEVTREE_LOCK` -/
  | leaving (k : Key β) (p : Ptr)
  /-- `DeviceLockGet` has returned 0 and `pn->lock` is `NULL` -/
  | unlocked

/-- The trees of all buses, the blocks in use and the threads. -/
structure Sys (ι β Ptr : Type) where
  devDb : Key β → Option Ptr
  heap : Ptr → Option Devlock
  pc : ι → Pc β Ptr

variable {ι β Ptr : Type} [DecidableEq ι] [DecidableEq β] [DecidableEq Ptr]

/-- The part of `DeviceLockRelease` under the mutex of the tree. -/
def Sys.disclaim (s : Sys ι β Ptr) (k : Key β) (p : Ptr) (e : Devlock) : Sys ι β Ptr :=
  if e.users - 1 = 0 then
    -- `tdelete` finds the node by the serial number in the entry
    { s with
      devDb := Function.update s.devDb (k.1, e.sn) none
      heap := Function.update s.heap p none }
  else { s with heap := Function.update s.heap p (some { e with users := e.users - 1 }) }

def Sys.goto (s : Sys ι β Ptr) (i : ι) (q : Pc β Ptr) : Sys ι β Ptr :=
  { s with pc := Function.update s.pc i q }

/-- One thread takes one step. -/
inductive Step : Sys ι β Ptr → Sys ι β Ptr → Prop
  /-- `DeviceLockGet` fails: no bus, or no memory -/
  | refuse (s : Sys ι β Ptr) (i : ι) : s.pc i = .outside → Step s s
  | bypass (s : Sys ι β Ptr) (i : ι) (pn : ParsedName β) :
      s.pc i = .outside → pn.lockNeeded = .ok none → Step s (s.goto i .unlocked)
  /-- the block of `owmalloc` is not in use and holds anything but the serial number -/
  | malloc (s : Sys ι β Ptr) (i : ι) (pn : ParsedName β) (k : Key β) (p : Ptr) (e : Devlock) :
      s.pc i = .outside → pn.lockNeeded = .ok (some k) → s.heap p = none →
      Step s ({ s with heap := Function.update s.heap p (some { e with sn := k.2 }) }.goto i
        (.allocated k p))
  /-- `tsearch` finds nothing and cannot make a node -/
  | noNode (s : Sys ι β Ptr) (i : ι) (k : Key β) (p : Ptr) :
      s.pc i = .allocated k p → s.devDb k = none →
      Step s ({ s with heap := Function.update s.heap p none }.goto i .outside)
  | insert (s : Sys ι β Ptr) (i : ι) (k : Key β) (p : Ptr) (e : Devlock) :
      s.pc i = .allocated k p → s.devDb k = none → s.heap p = some e →
      Step s ({ s with
        devDb := Function.update s.devDb k (some p)
        heap := Function.update s.heap p (some { e with lock := false, users := 0 + 1 }) }.goto i
        (.waiting k p))
  | found (s : Sys ι β Ptr) (i : ι) (k : Key β) (p q : Ptr) (e : Devlock) :
      s.pc i = .allocated k p → s.devDb k = some q → s.heap q = some e →
      Step s ({ s with
        heap := Function.update (Function.update s.heap p none) q
          (some { e with users := e.users + 1 }) }.goto i (.waiting k q))
  | lock (s : Sys ι β Ptr) (i : ι) (k : Key β) (p : Ptr) (e : Devlock) :
      s.pc i = .waiting k p → s.heap p = some e → e.lock = false →
      Step s ({ s with heap := Function.update s.heap p (some { e with lock := true }) }.goto i
        (.holding k p))
  | unlock (s : Sys ι β Ptr) (i : ι) (k : Key β) (p : Ptr) (e : Devlock) :
      s.pc i = .holding k p → s.heap p = some e →
      Step s ({ s with heap := Function.update s.heap p (some { e with lock := false }) }.goto i
        (.leaving k p))
  | disclaim (s : Sys ι β Ptr) (i : ι) (k : Key β) (p : Ptr) (e : Devlock) :
      s.pc i = .leaving k p → s.heap p = some e → Step s ((s.disclaim k p e).goto i .outside)
  | release (s : Sys ι β Ptr) (i : ι) :
      s.pc i = .unlocked → Step s (s.goto i .outside)

/-- The states of a system that starts without locks. -/
def Reachable (s : Sys ι β Ptr) : Prop :=
  Relation.ReflTransGen Step ⟨fun _ => none, fun _ => none, fun _ => .outside⟩ s

/-! ## The invariant -/

/-- Between the count in `DeviceLockGet` and the one in `DeviceLockRelease`, waiters included. -/
def Pc.uses (k : Key β) : Pc β Ptr → Bool
  | .waiting k' _ | .holding k' _ | .leaving k' _ => k' = k
  | _ => false

/-- Holds the lock of `k`. -/
def Pc.holds (k : Key β) : Pc β Ptr → Bool
  | .holding k' _ => k' = k
  | _ => false

/-- The entry that a thread is a user of. -/
def Pc.claim : Pc β Ptr → Option (Key β × Ptr)
  | .waiting k p | .holding k p | .leaving k p => some (k, p)
  | _ => none

structure Inv [Fintype ι] (s : Sys ι β Ptr) : Prop where
  entry : ∀ k p, s.devDb k = some p → ∃ e, s.heap p = some e ∧ e.sn = k.2 ∧
    e.users = countAt (Pc.uses k) s.pc ∧ e.lock.toNat = countAt (Pc.holds k) s.pc ∧ 0 < e.users
  unique : ∀ k k' p, s.devDb k = some p → s.devDb k' = some p → k = k'
  claimed : ∀ i k p, (s.pc i).claim = some (k, p) → s.devDb k = some p
  own : ∀ i k p, s.pc i = .allocated k p → (∃ e, s.heap p = some e ∧ e.sn = k.2) ∧
    (∀ k', s.devDb k' ≠ some p) ∧ ∀ j k', s.pc j = .allocated k' p → j = i

omit [DecidableEq ι] [DecidableEq Ptr] in
theorem inv_init [Fintype ι] :
    Inv (⟨fun _ => none, fun _ => none, fun _ => .outside⟩ : Sys ι β Ptr) where
  entry := nofun
  unique := nofun
  claimed := nofun
  own := nofun

section

variable [Fintype ι] {s s' : Sys ι β Ptr} {i : ι} {k k' : Key β} {p q : Ptr} {e : Devlock}
  {next : Pc β Ptr}

omit [DecidableEq β] [DecidableEq Ptr] [Fintype ι] in
/-- The claims after a move. -/
theorem claim_update {pc : ι → Pc β Ptr} {j : ι} {c : Key β × Ptr}
    (h : (Function.update pc i next j).claim = some c) :
    next.claim = some c ∨ (pc j).claim = some c := by
  by_cases hji : j = i
  · subst hji
    rw [Function.update_self] at h
    exact Or.inl h
  · rw [Function.update_of_ne hji] at h
    exact Or.inr h

omit [DecidableEq β] [DecidableEq Ptr] [Fintype ι] in
theorem allocated_update {pc : ι → Pc β Ptr} {j : ι}
    (h : Function.update pc i next j = .allocated k p) (hnext : ∀ k p, next ≠ .allocated k p) :
    pc j = .allocated k p := by
  by_cases hji : j = i
  · subst hji
    rw [Function.update_self] at h
    exact absurd h (hnext k p)
  · rwa [Function.update_of_ne hji] at h

/-- A user of `k` moves on and rewrites the entry. -/
theorem Inv.rewrite (h : Inv s) (hk : s.devDb k = some p) (hp : s.heap p = some e) (i : ι)
    (next : Pc β Ptr) (e' : Devlock) (hnext : ∀ k p, next ≠ .allocated k p)
    (hclaim : ∀ c, next.claim = some c → c = (k, p))
    (hother : ∀ k', k' ≠ k → next.uses k' = (s.pc i).uses k' ∧ next.holds k' = (s.pc i).holds k')
    (hsn : e'.sn = e.sn)
    (husers : e'.users + ((s.pc i).uses k).toNat = e.users + (next.uses k).toNat)
    (hlock : e'.lock.toNat + ((s.pc i).holds k).toNat = e.lock.toNat + (next.holds k).toNat)
    (hpos : 0 < e'.users) :
    Inv ({ s with heap := Function.update s.heap p (some e') }.goto i next) where
  entry := by
    intro k' p' hk'
    by_cases hkk : k' = k
    · subst hkk
      obtain rfl : p = p' := Option.some.inj (hk.symm.trans hk')
      obtain ⟨e₀, he₀, hsn₀, husers₀, hlock₀, -⟩ := h.entry k' p hk
      obtain rfl : e = e₀ := Option.some.inj (hp.symm.trans he₀)
      refine ⟨e', Function.update_self .., hsn.trans hsn₀, ?_, ?_, hpos⟩
      · have := countAt_update (Pc.uses k') s.pc i next
        show e'.users = countAt _ (Function.update s.pc i next)
        omega
      · have := countAt_update (Pc.holds k') s.pc i next
        show e'.lock.toNat = countAt _ (Function.update s.pc i next)
        omega
    · obtain ⟨e₁, he₁, hsn₁, husers₁, hlock₁, hpos₁⟩ := h.entry k' p' hk'
      have hne : p' ≠ p := fun hpp => hkk (h.unique _ _ _ (hpp ▸ hk') hk)
      refine ⟨e₁, (Function.update_of_ne hne ..).trans he₁, hsn₁, ?_, ?_, hpos₁⟩
      · exact husers₁.trans (countAt_update_of_eq (hother k' hkk).1).symm
      · exact hlock₁.trans (countAt_update_of_eq (hother k' hkk).2).symm
  unique := h.unique
  claimed := by
    intro j k' p' hj
    rcases claim_update hj with hc | hc
    · cases hclaim _ hc
      exact hk
    · exact h.claimed j k' p' hc
  own := by
    intro j k' p' hj
    obtain ⟨⟨e₁, he₁, hsn₁⟩, hfree, hone⟩ := h.own j k' p' (allocated_update hj hnext)
    have hne : p' ≠ p := fun hpp => hfree k (hpp ▸ hk)
    refine ⟨⟨e₁, (Function.update_of_ne hne ..).trans he₁, hsn₁⟩, hfree, ?_⟩
    exact fun j' k'' hj' => hone j' k'' (allocated_update hj' hnext)

omit [DecidableEq Ptr] in
/-- A thread moves without touching a lock. -/
theorem Inv.goto (h : Inv s) (hnext : ∀ k p, next ≠ .allocated k p) (hclaim : next.claim = none)
    (huses : ∀ k, next.uses k = (s.pc i).uses k) (hholds : ∀ k, next.holds k = (s.pc i).holds k) :
    Inv (s.goto i next) where
  entry := by
    intro k p hk
    obtain ⟨e, he, hsn, husers, hlock, hpos⟩ := h.entry k p hk
    exact ⟨e, he, hsn, husers.trans (countAt_update_of_eq (huses k)).symm,
      hlock.trans (countAt_update_of_eq (hholds k)).symm, hpos⟩
  unique := h.unique
  claimed := by
    intro j k p hj
    rcases claim_update hj with hc | hc
    · rw [hclaim] at hc
      cases hc
    · exact h.claimed j k p hc
  own := by
    intro j k p hj
    obtain ⟨he, hfree, hone⟩ := h.own j k p (allocated_update hj hnext)
    exact ⟨he, hfree, fun j' k' hj' => hone j' k' (allocated_update hj' hnext)⟩

theorem Inv.malloc (h : Inv s) (hi : s.pc i = .outside) (hp : s.heap p = none) :
    Inv ({ s with heap := Function.update s.heap p (some { e with sn := k.2 }) }.goto i
      (.allocated k p)) := by
  have hnew : ∀ k', s.devDb k' ≠ some p := by
    intro k' hk'
    obtain ⟨e', he', -⟩ := h.entry k' p hk'
    rw [hp] at he'
    cases he'
  have hother : ∀ j k', s.pc j ≠ .allocated k' p := by
    intro j k' hj
    obtain ⟨⟨e', he', -⟩, -⟩ := h.own j k' p hj
    rw [hp] at he'
    cases he'
  refine ⟨fun k' p' hk' => ?_, h.unique, fun j k' p' hj => ?_, fun j k' p' hj => ?_⟩
  · obtain ⟨e', he', hsn, husers, hlock, hpos⟩ := h.entry k' p' hk'
    have hne : p' ≠ p := by
      rintro rfl
      exact hnew k' hk'
    exact ⟨e', (Function.update_of_ne hne ..).trans he', hsn,
      husers.trans (countAt_update_of_eq (by rw [hi]; rfl)).symm,
      hlock.trans (countAt_update_of_eq (by rw [hi]; rfl)).symm, hpos⟩
  · rcases claim_update hj with hc | hc
    · cases hc
    · exact h.claimed j k' p' hc
  · by_cases hji : j = i
    · subst hji
      cases (Function.update_self j _ s.pc).symm.trans hj
      refine ⟨⟨_, Function.update_self .., rfl⟩, hnew, fun j' k'' hj' => ?_⟩
      by_contra hne
      exact hother j' k'' ((Function.update_of_ne hne ..).symm.trans hj')
    · have hold : s.pc j = .allocated k' p' := (Function.update_of_ne hji ..).symm.trans hj
      obtain ⟨⟨e', he', hsn⟩, hfree, hone⟩ := h.own j k' p' hold
      have hne : p' ≠ p := fun hpp => hother j k' (hpp ▸ hold)
      refine ⟨⟨e', (Function.update_of_ne hne ..).trans he', hsn⟩, hfree, fun j' k'' hj' => ?_⟩
      by_cases hji' : j' = i
      · subst hji'
        cases (Function.update_self j' _ s.pc).symm.trans hj'
        exact absurd rfl hne
      · exact hone j' k'' ((Function.update_of_ne hji' ..).symm.trans hj')

/-- The block of a thread that did not put it into the tree is freed. -/
theorem Inv.free (h : Inv s) (hi : s.pc i = .allocated k p) :
    Inv ({ s with heap := Function.update s.heap p none }.goto i .outside) := by
  obtain ⟨-, hnew, hone⟩ := h.own i k p hi
  refine ⟨fun k' p' hk' => ?_, h.unique, fun j k' p' hj => ?_, fun j k' p' hj => ?_⟩
  · obtain ⟨e', he', hsn, husers, hlock, hpos⟩ := h.entry k' p' hk'
    have hne : p' ≠ p := fun hpp => hnew k' (hpp ▸ hk')
    exact ⟨e', (Function.update_of_ne hne ..).trans he', hsn,
      husers.trans (countAt_update_of_eq (by rw [hi]; rfl)).symm,
      hlock.trans (countAt_update_of_eq (by rw [hi]; rfl)).symm, hpos⟩
  · rcases claim_update hj with hc | hc
    · cases hc
    · exact h.claimed j k' p' hc
  · have hji : j ≠ i := by
      rintro rfl
      cases (Function.update_self j _ s.pc).symm.trans hj
    have hold := allocated_update hj nofun
    obtain ⟨⟨e', he', hsn⟩, hfree, hone'⟩ := h.own j k' p' hold
    have hne : p' ≠ p := fun hpp => hji (hone j k' (hpp ▸ hold))
    exact ⟨⟨e', (Function.update_of_ne hne ..).trans he', hsn⟩, hfree,
      fun j' k'' hj' => hone' j' k'' (allocated_update hj' nofun)⟩

omit [DecidableEq Ptr] in
/-- Another key does not see a user. -/
theorem uses_of_ne (hne : k' ≠ k) (p : Ptr) : (Pc.waiting k p).uses k' = false ∧
    (Pc.holding k p).uses k' = false ∧ (Pc.leaving k p).uses k' = false ∧
      (Pc.holding k p).holds k' = false := by
  simp [Pc.uses, Pc.holds, hne.symm]

omit [DecidableEq Ptr] in
theorem uses_self (k : Key β) (p : Ptr) : (Pc.waiting k p).uses k = true ∧
    (Pc.holding k p).uses k = true ∧ (Pc.leaving k p).uses k = true ∧
      (Pc.holding k p).holds k = true := by
  simp [Pc.uses, Pc.holds]

theorem Inv.insert (h : Inv s) (hi : s.pc i = .allocated k p) (hk : s.devDb k = none)
    (hp : s.heap p = some e) :
    Inv ({ s with
      devDb := Function.update s.devDb k (some p)
      heap := Function.update s.heap p (some { e with lock := false, users := 0 + 1 }) }.goto i
      (.waiting k p)) := by
  obtain ⟨⟨e₀, he₀, hsn₀⟩, hnew, hone⟩ := h.own i k p hi
  obtain rfl : e = e₀ := Option.some.inj (hp.symm.trans he₀)
  have hnobody : ∀ j c, (s.pc j).claim = some c → c.1 ≠ k := by
    rintro j ⟨k', q⟩ hj rfl
    rw [h.claimed j _ q hj] at hk
    cases hk
  have huses : countAt (Pc.uses k) s.pc = 0 := by
    refine countAt_eq_zero_iff.mpr fun j => ?_
    cases hj : s.pc j with
    | waiting | holding | leaving => exact decide_eq_false (hnobody j _ (by rw [hj]; rfl))
    | _ => rfl
  have hholds : countAt (Pc.holds k) s.pc = 0 := by
    refine Nat.le_zero.mp (le_of_le_of_eq (countAt_le_countAt fun q hq => ?_) huses)
    cases q with
    | holding => exact hq
    | _ => cases hq
  refine ⟨fun k' p' hk' => ?_, fun k₁ k₂ q h₁ h₂ => ?_, fun j k' p' hj => ?_, fun j k' p' hj => ?_⟩
  · by_cases hkk : k' = k
    · subst hkk
      cases (Function.update_self k' _ s.devDb).symm.trans hk'
      refine ⟨_, Function.update_self .., hsn₀, ?_, ?_, Nat.one_pos⟩
      · have := countAt_update (Pc.uses k') s.pc i (.waiting k' p)
        rw [huses, hi] at this
        show 0 + 1 = countAt _ (Function.update s.pc i _)
        simpa [Pc.uses] using this.symm
      · show 0 = _
        rw [← hholds]
        exact (countAt_update_of_eq (by rw [hi]; rfl)).symm
    · have hold := (Function.update_of_ne hkk ..).symm.trans hk'
      obtain ⟨e', he', hsn, husers, hlock, hpos⟩ := h.entry k' p' hold
      have hne : p' ≠ p := fun hpp => hnew k' (hpp ▸ hold)
      refine ⟨e', (Function.update_of_ne hne ..).trans he', hsn, ?_, ?_, hpos⟩
      · refine husers.trans (countAt_update_of_eq ?_).symm
        rw [hi, (uses_of_ne hkk p).1]
        rfl
      · exact hlock.trans (countAt_update_of_eq (by rw [hi]; rfl)).symm
  · have h₁ : Function.update s.devDb k (some p) k₁ = some q := h₁
    have h₂ : Function.update s.devDb k (some p) k₂ = some q := h₂
    rw [Function.update_apply] at h₁ h₂
    split at h₁ <;> split at h₂
    · next he₁ he₂ => exact he₁.trans he₂.symm
    · cases h₁
      exact absurd h₂ (hnew k₂)
    · cases h₂
      exact absurd h₁ (hnew k₁)
    · exact h.unique k₁ k₂ q h₁ h₂
  · rcases claim_update hj with hc | hc
    · cases hc
      exact Function.update_self ..
    · exact (Function.update_of_ne (hnobody j _ hc) ..).trans (h.claimed j k' p' hc)
  · have hji : j ≠ i := by
      rintro rfl
      cases (Function.update_self j _ s.pc).symm.trans hj
    have hold := allocated_update hj nofun
    obtain ⟨⟨e', he', hsn⟩, hfree, hone'⟩ := h.own j k' p' hold
    have hne : p' ≠ p := fun hpp => hji (hone j k' (hpp ▸ hold))
    refine ⟨⟨e', (Function.update_of_ne hne ..).trans he', hsn⟩, fun k'' hk'' => ?_,
      fun j' k'' hj' => hone' j' k'' (allocated_update hj' nofun)⟩
    have hk'' : Function.update s.devDb k (some p) k'' = some p' := hk''
    rw [Function.update_apply] at hk''
    split at hk''
    · exact hne (Option.some.inj hk'').symm
    · exact hfree k'' hk''

omit [DecidableEq Ptr] in
theorem uses_of_claim {q : Pc β Ptr} (h : q.claim = some (k, p)) : q.uses k = true := by
  cases q with
  | waiting | holding | leaving =>
    cases h
    exact decide_eq_true rfl
  | _ => cases h

omit [DecidableEq Ptr] in
/-- A thread that counts the last user is the only user. -/
theorem Inv.last_user (h : Inv s) (hi : s.pc i = .leaving k p) (hp : s.heap p = some e)
    (hlast : e.users - 1 = 0) {j : ι} (hj : (s.pc j).uses k = true) : j = i := by
  obtain ⟨e₀, he₀, -, husers, -, -⟩ := h.entry k p (h.claimed i k p (by rw [hi]; rfl))
  obtain rfl : e = e₀ := Option.some.inj (hp.symm.trans he₀)
  by_contra hne
  have := two_le_countAt hj
    (show (s.pc i).uses k = true by rw [hi]; exact (uses_self k p).2.2.1) hne
  omega

/-- The last user removes the entry. -/
theorem Inv.remove (h : Inv s) (hi : s.pc i = .leaving k p) (hp : s.heap p = some e)
    (hlast : e.users - 1 = 0) :
    Inv ({ s with
      devDb := Function.update s.devDb (k.1, e.sn) none
      heap := Function.update s.heap p none }.goto i .outside) := by
  have hk := h.claimed i k p (by rw [hi]; rfl)
  obtain ⟨e₀, he₀, hsn, -⟩ := h.entry k p hk
  obtain rfl : e = e₀ := Option.some.inj (hp.symm.trans he₀)
  have hkey : (k.1, e.sn) = k := by rw [hsn]
  rw [hkey]
  refine ⟨fun k' p' hk' => ?_, fun k₁ k₂ q h₁ h₂ => ?_, fun j k' p' hj => ?_, fun j k' p' hj => ?_⟩
  · have hkk : k' ≠ k := by
      rintro rfl
      cases (Function.update_self k' _ s.devDb).symm.trans hk'
    have hold := (Function.update_of_ne hkk ..).symm.trans hk'
    obtain ⟨e', he', hsn', husers', hlock', hpos'⟩ := h.entry k' p' hold
    have hne : p' ≠ p := fun hpp => hkk (h.unique _ _ _ (hpp ▸ hold) hk)
    refine ⟨e', (Function.update_of_ne hne ..).trans he', hsn', ?_, ?_, hpos'⟩
    · refine husers'.trans (countAt_update_of_eq ?_).symm
      rw [hi, (uses_of_ne hkk p).2.2.1]
      rfl
    · exact hlock'.trans (countAt_update_of_eq (by rw [hi]; rfl)).symm
  · have h₁ : Function.update s.devDb k none k₁ = some q := h₁
    have h₂ : Function.update s.devDb k none k₂ = some q := h₂
    rw [Function.update_apply] at h₁ h₂
    split at h₁
    · cases h₁
    split at h₂
    · cases h₂
    exact h.unique k₁ k₂ q h₁ h₂
  · by_cases hji : j = i
    · subst hji
      have hj : (Function.update s.pc j .outside j).claim = some (k', p') := hj
      rw [Function.update_self] at hj
      cases hj
    · have hold : (s.pc j).claim = some (k', p') := by
        have hj : (Function.update s.pc i .outside j).claim = some (k', p') := hj
        rwa [Function.update_of_ne hji] at hj
      have hkk : k' ≠ k := by
        rintro rfl
        exact hji (h.last_user hi hp hlast (uses_of_claim hold))
      exact (Function.update_of_ne hkk ..).trans (h.claimed j k' p' hold)
  · have hold := allocated_update hj nofun
    obtain ⟨⟨e', he', hsn'⟩, hfree, hone'⟩ := h.own j k' p' hold
    have hne : p' ≠ p := fun hpp => hfree k (hpp ▸ hk)
    refine ⟨⟨e', (Function.update_of_ne hne ..).trans he', hsn'⟩, fun k'' hk'' => ?_,
      fun j' k'' hj' => hone' j' k'' (allocated_update hj' nofun)⟩
    have hk'' : Function.update s.devDb k none k'' = some p' := hk''
    rw [Function.update_apply] at hk''
    split at hk''
    · cases hk''
    · exact hfree k'' hk''

theorem Inv.step (h : Inv s) (hs : Step s s') : Inv s' := by
  cases hs with
  | refuse => exact h
  | bypass i pn hi =>
    exact h.goto nofun rfl (fun k => by rw [hi]; rfl) (fun k => by rw [hi]; rfl)
  | malloc i pn k p e hi hneed hp => exact h.malloc hi hp
  | noNode i k p hi hk => exact h.free hi
  | insert i k p e hi hk hp => exact h.insert hi hk hp
  | found i k p q e hi hk hq =>
    have hne : q ≠ p := fun hqp => (h.own i k p hi).2.1 k (hqp ▸ hk)
    have hfree := h.free hi
    have hnew := hfree.rewrite hk ((Function.update_of_ne hne ..).trans hq) i (.waiting k q)
      { e with users := e.users + 1 } nofun (fun c hc => (Option.some.inj hc).symm) ?_ rfl ?_ ?_
      (Nat.succ_pos _)
    · simpa [Sys.goto] using hnew
    · intro k' hkk
      rw [(uses_of_ne hkk q).1]
      simp [Sys.goto, Pc.uses, Pc.holds]
    · rw [(uses_self k q).1]
      simp [Sys.goto, Pc.uses]
    · simp [Sys.goto, Pc.holds]
  | lock i k p e hi hp hfree =>
    have hk := h.claimed i k p (by rw [hi]; rfl)
    obtain ⟨e₀, he₀, -, -, -, hpos⟩ := h.entry k p hk
    obtain rfl : e = e₀ := Option.some.inj (hp.symm.trans he₀)
    refine h.rewrite hk hp i (.holding k p) { e with lock := true } nofun
      (fun c hc => (Option.some.inj hc).symm) (fun k' hkk => ?_) rfl ?_ ?_ hpos
    · rw [hi, (uses_of_ne hkk p).1, (uses_of_ne hkk p).2.1, (uses_of_ne hkk p).2.2.2]
      exact ⟨rfl, rfl⟩
    · rw [hi, (uses_self k p).1, (uses_self k p).2.1]
    · rw [hi, hfree, (uses_self k p).2.2.2]
      rfl
  | unlock i k p e hi hp =>
    have hk := h.claimed i k p (by rw [hi]; rfl)
    obtain ⟨e₀, he₀, -, -, hlock, hpos⟩ := h.entry k p hk
    obtain rfl : e = e₀ := Option.some.inj (hp.symm.trans he₀)
    have htaken : e.lock.toNat = 1 := by
      have := countAt_pos (show (s.pc i).holds k = true by rw [hi]; exact (uses_self k p).2.2.2)
      have := Bool.toNat_le e.lock
      omega
    refine h.rewrite hk hp i (.leaving k p) { e with lock := false } nofun
      (fun c hc => (Option.some.inj hc).symm) (fun k' hkk => ?_) rfl ?_ ?_ hpos
    · rw [hi, (uses_of_ne hkk p).2.1, (uses_of_ne hkk p).2.2.1, (uses_of_ne hkk p).2.2.2]
      exact ⟨rfl, rfl⟩
    · rw [hi, (uses_self k p).2.1, (uses_self k p).2.2.1]
    · rw [hi, htaken, (uses_self k p).2.2.2]
      rfl
  | disclaim i k p e hi hp =>
    have hk := h.claimed i k p (by rw [hi]; rfl)
    unfold Sys.disclaim
    split
    · next hlast => exact h.remove hi hp hlast
    · next hmore =>
      refine h.rewrite hk hp i .outside { e with users := e.users - 1 } nofun nofun
        (fun k' hkk => ?_) rfl ?_ ?_ (by show 0 < e.users - 1; omega)
      · rw [hi, (uses_of_ne hkk p).2.2.1]
        exact ⟨rfl, rfl⟩
      · rw [hi, (uses_self k p).2.2.1]
        show e.users - 1 + 1 = e.users + 0
        omega
      · rw [hi]
        rfl
  | release i hi =>
    exact h.goto nofun rfl (fun k => by rw [hi]; rfl) (fun k => by rw [hi]; rfl)

theorem Reachable.inv (hr : Reachable s) : Inv s :=
  invariant_of_steps Inv.step hr inv_init

/-! ## What follows from it -/

/-- An entry goes away with its last user only. -/
theorem Inv.gone (h : Inv s) (hs : Step s s') (hk : s.devDb k = some p)
    (hgone : s'.devDb k ≠ some p ∨ s'.heap p = none) :
    ∃ i, s.pc i = .leaving k p ∧ s'.pc i = .outside ∧ ∀ j, j ≠ i → s'.pc j = s.pc j ∧
      (s.pc j).uses k = false := by
  obtain ⟨e₀, he₀, hsn₀, -⟩ := h.entry k p hk
  have hkept : ∀ {t : Sys ι β Ptr}, t.devDb k = some p → (∃ e, t.heap p = some e) →
      ¬ (t.devDb k ≠ some p ∨ t.heap p = none) := by
    rintro t hd ⟨e, he⟩ (hor | hor)
    · exact hor hd
    · rw [he] at hor
      cases hor
  -- a block that is rewritten stays
  have hwrite : ∀ {heap : Ptr → Option Devlock} {q : Ptr} {e : Devlock},
      (∃ e', heap p = some e') → ∃ e', Function.update heap q (some e) p = some e' := by
    intro heap q e hex
    rw [Function.update_apply]
    split
    · exact ⟨e, rfl⟩
    · exact hex
  cases hs with
  | refuse | bypass | release => exact absurd hgone (hkept hk ⟨e₀, he₀⟩)
  | malloc i pn k' p' e hi hneed hp' =>
    have hne : p ≠ p' := fun hpp => by
      rw [← hpp, he₀] at hp'
      cases hp'
    exact absurd hgone (hkept hk ⟨e₀, (Function.update_of_ne hne ..).trans he₀⟩)
  | noNode i k' p' hi =>
    have hne : p ≠ p' := fun hpp => (h.own i k' p' hi).2.1 k (hpp ▸ hk)
    exact absurd hgone (hkept hk ⟨e₀, (Function.update_of_ne hne ..).trans he₀⟩)
  | insert i k' p' e hi hk' =>
    have hne : p ≠ p' := fun hpp => (h.own i k' p' hi).2.1 k (hpp ▸ hk)
    have hkk : k ≠ k' := fun hkk => by
      rw [← hkk, hk] at hk'
      cases hk'
    exact absurd hgone (hkept ((Function.update_of_ne hkk ..).trans hk)
      ⟨e₀, (Function.update_of_ne hne ..).trans he₀⟩)
  | found i k' p' q e hi hk' =>
    have hne : p ≠ p' := fun hpp => (h.own i k' p' hi).2.1 k (hpp ▸ hk)
    exact absurd hgone (hkept hk (hwrite ⟨e₀, (Function.update_of_ne hne ..).trans he₀⟩))
  | lock i k' p' e | unlock i k' p' e =>
    exact absurd hgone (hkept hk (hwrite ⟨e₀, he₀⟩))
  | disclaim i k' p' e hi hp' =>
    have hclaimed := h.claimed i k' p' (by rw [hi]; rfl)
    obtain ⟨e', he', hsn, -⟩ := h.entry k' p' hclaimed
    obtain rfl : e = e' := Option.some.inj (hp'.symm.trans he')
    unfold Sys.disclaim at hgone ⊢
    split at hgone
    · next hlast =>
      by_cases hkk : k' = k
      · subst hkk
        obtain rfl : p' = p := Option.some.inj (hclaimed.symm.trans hk)
        rw [if_pos hlast]
        refine ⟨i, hi, Function.update_self .., fun j hj => ⟨Function.update_of_ne hj .., ?_⟩⟩
        exact Bool.eq_false_iff.mpr fun huse => hj (h.last_user hi hp' hlast huse)
      · have hne : p ≠ p' := fun hpp => hkk (h.unique _ _ _ (hpp ▸ hclaimed) hk)
        have hkey : k ≠ (k'.1, e.sn) := by
          rw [hsn]
          exact fun hc => hkk hc.symm
        exact absurd hgone (hkept ((Function.update_of_ne hkey ..).trans hk)
          ⟨e₀, (Function.update_of_ne hne ..).trans he₀⟩)
    · exact absurd hgone (hkept hk (hwrite ⟨e₀, he₀⟩))

/-- **The device locks.** In every reachable state: at most one thread holds the lock of a key;
the count of an entry is the number of threads between their `DeviceLockGet` and their
`DeviceLockRelease`, waiters included, and each of these has the entry of the tree; and a step
that removes or frees an entry is made while no thread holds or waits for it, and leaves no
user behind. -/
theorem deviceLock_correct (hr : Reachable s) :
    (∀ k i j, (s.pc i).holds k = true → (s.pc j).holds k = true → i = j) ∧
    (∀ k p, s.devDb k = some p →
      ∃ e, s.heap p = some e ∧ e.users = countAt (Pc.uses k) s.pc) ∧
    (∀ i k p, (s.pc i).claim = some (k, p) → s.devDb k = some p) ∧
    (∀ s' k p, Step s s' → s.devDb k = some p → (s'.devDb k ≠ some p ∨ s'.heap p = none) →
      (∀ i q, s.pc i ≠ .waiting k q ∧ s.pc i ≠ .holding k q) ∧
        ∀ i, (s'.pc i).uses k = false) := by
  have h := hr.inv
  refine ⟨fun k i j hi hj => ?_, fun k p hk => ?_, h.claimed, fun s' k p hs hk hgone => ?_⟩
  · by_contra hne
    have hclaim : ∃ p, (s.pc i).claim = some (k, p) := by
      cases hpc : s.pc i with
      | holding k' p =>
        rw [hpc] at hi
        exact ⟨p, by rw [← of_decide_eq_true hi]; rfl⟩
      | _ =>
        rw [hpc] at hi
        cases hi
    obtain ⟨p, hp⟩ := hclaim
    obtain ⟨e, -, -, -, hlock, -⟩ := h.entry k p (h.claimed i k p hp)
    have := two_le_countAt hi hj hne
    have := Bool.toNat_le e.lock
    omega
  · obtain ⟨e, he, -, husers, -⟩ := h.entry k p hk
    exact ⟨e, he, husers⟩
  · obtain ⟨i, hi, hout, hrest⟩ := h.gone hs hk hgone
    constructor
    · intro j q
      by_cases hji : j = i
      · subst hji
        rw [hi]
        exact ⟨nofun, nofun⟩
      · have hno := (hrest j hji).2
        constructor
        · intro hj
          rw [hj, (uses_self k q).1] at hno
          cases hno
        · intro hj
          rw [hj, (uses_self k q).2.1] at hno
          cases hno
    · intro j
      by_cases hji : j = i
      · rw [hji, hout]
        rfl
      · rw [(hrest j hji).1, (hrest j hji).2]

end

/-- A volatile property of a device on the only bus. -/
def sampleName : ParsedName Unit := ⟨SerialNumber.zero, some (), false, false, .integer, .volatile⟩

/-- One thread has locked the device, and the other one waits for it: both count as users of the
entry. -/
theorem deviceLock_correct_sampleName : ∃ s : Sys Bool Unit Nat, Reachable s ∧
    s.pc true = .holding ((), SerialNumber.zero) 0 ∧
    s.pc false = .waiting ((), SerialNumber.zero) 0 ∧
    (s.pc false).holds ((), SerialNumber.zero) = false ∧
    ∃ e, s.heap 0 = some e ∧ e.users = 2 := by
  have hheld := ((Relation.ReflTransGen.refl.tail (Step.malloc
    (⟨fun _ => none, fun _ => none, fun _ => .outside⟩ : Sys Bool Unit Nat) true sampleName
      ((), SerialNumber.zero) 0 ⟨true, SerialNumber.zero, 7⟩ rfl rfl rfl)).tail
    (Step.insert _ true _ 0 _ rfl rfl rfl)).tail (Step.lock _ true _ 0 _ rfl rfl rfl)
  have hreach := (hheld.tail (Step.malloc _ false sampleName ((), SerialNumber.zero) 1
    ⟨false, SerialNumber.zero, 0⟩ rfl rfl rfl)).tail (Step.found _ false _ 1 0 _ rfl rfl rfl)
  obtain ⟨hone, hcount, -⟩ := deviceLock_correct hreach
  refine ⟨_, hreach, rfl, rfl, ?_, ?_⟩
  · exact Bool.eq_false_iff.mpr fun hheld =>
      Bool.true_eq_false_eq_False (hone ((), SerialNumber.zero) true false (by decide) hheld)
  · obtain ⟨e, he, husers⟩ := hcount ((), SerialNumber.zero) 0 rfl
    exact ⟨e, he, husers.trans (by decide)⟩

end Owfs.Lock.Device
