import Owfs.Infra.Threads

/-!
# The reader/writer lock

`ow_rwlock.c` builds a reader/writer lock from two semaphores, a mutex and a counter
(`my_rwlock_read_lock`, `my_rwlock_write_lock` and their counterparts), for systems without
`pthread_rwlock_t`. Every operation on a semaphore or on the mutex is one step, and so is every
access to the counter; any number of threads take their steps in any order. A `sem_wait` that a
signal interrupts, whose result the code does not look at, is outside the model.

The invariant accounts for the two units of the semaphores. The unit of `allow_readers` is free
or with the one thread between its `sem_wait` and its `sem_post`. The unit of `no_processes` is
free, with a writer, or with the readers as a group: the first reader takes it, the last one
gives it back.
-/

namespace Owfs.Lock

open Infra

/-! ## The code -/

/-- `my_rwlock_t` -/
structure Rwlock where
  /-- the mutex is taken -/
  protectReaderCount : Bool
  allowReaders : Nat
  noProcesses : Nat
  readerCount : Int
deriving DecidableEq, Repr

/-- `my_rwlock_init` -/
def myRwlockInit : Rwlock := ⟨false, 1, 1, 0⟩

/-- What a thread does next. -/
inductive Pc where
  /-- neither inside the lock nor inside one of the operations -/
  | outside
  -- `my_rwlock_read_lock`
  | readWaitAllow | readLockMutex | readIncrement | readWaitProcesses | readUnlockMutex
  | readPostAllow
  /-- inside, as a reader -/
  | reading
  -- `my_rwlock_read_unlock`
  | leaveLockMutex | leaveDecrement | leavePostProcesses | leaveCheck | leaveUnlockMutex
  -- `my_rwlock_write_lock`
  | writeWaitAllow | writeWaitProcesses
  /-- inside, as a writer -/
  | writing
  -- `my_rwlock_write_unlock`
  | leavePostAllow | leavePostBoth
  /-- `debug_crash` -/
  | crashed
deriving DecidableEq, Repr

/-- `sem_wait`: blocks at zero. -/
def semWait : Nat → Option Nat
  | 0 => none
  | n + 1 => some n

/-- `_MUTEX_LOCK`: blocks while the mutex is taken. -/
def mutexLock (taken : Bool) : Option Bool := if taken then none else some true

/-- The next step inside an operation, `none` where the thread blocks or is in no operation. -/
def advance (lock : Rwlock) : Pc → Option (Rwlock × Pc)
  | .readWaitAllow =>
    (semWait lock.allowReaders).map fun n => ({ lock with allowReaders := n }, .readLockMutex)
  | .readLockMutex =>
    (mutexLock lock.protectReaderCount).map fun b =>
      ({ lock with protectReaderCount := b }, .readIncrement)
  | .readIncrement =>
    some ({ lock with readerCount := lock.readerCount + 1 },
      if lock.readerCount + 1 = 1 then .readWaitProcesses else .readUnlockMutex)
  | .readWaitProcesses =>
    (semWait lock.noProcesses).map fun n => ({ lock with noProcesses := n }, .readUnlockMutex)
  | .readUnlockMutex => some ({ lock with protectReaderCount := false }, .readPostAllow)
  | .readPostAllow => some ({ lock with allowReaders := lock.allowReaders + 1 }, .reading)
  | .leaveLockMutex =>
    (mutexLock lock.protectReaderCount).map fun b =>
      ({ lock with protectReaderCount := b }, .leaveDecrement)
  | .leaveDecrement =>
    some ({ lock with readerCount := lock.readerCount - 1 },
      if lock.readerCount - 1 = 0 then .leavePostProcesses else .leaveCheck)
  | .leavePostProcesses => some ({ lock with noProcesses := lock.noProcesses + 1 }, .leaveCheck)
  | .leaveCheck => some (lock, if lock.readerCount < 0 then .crashed else .leaveUnlockMutex)
  | .leaveUnlockMutex => some ({ lock with protectReaderCount := false }, .outside)
  | .writeWaitAllow =>
    (semWait lock.allowReaders).map fun n => ({ lock with allowReaders := n }, .writeWaitProcesses)
  | .writeWaitProcesses =>
    (semWait lock.noProcesses).map fun n => ({ lock with noProcesses := n }, .writing)
  | .leavePostAllow => some ({ lock with allowReaders := lock.allowReaders + 1 }, .leavePostBoth)
  | .leavePostBoth => some ({ lock with noProcesses := lock.noProcesses + 1 }, .outside)
  | .outside | .reading | .writing | .crashed => none

/-- The operations a thread may start where it stands: each unlocks only what it locked. -/
inductive Starts : Pc → Pc → Prop
  | readLock : Starts .outside .readWaitAllow
  | readUnlock : Starts .reading .leaveLockMutex
  | writeLock : Starts .outside .writeWaitAllow
  | writeUnlock : Starts .writing .leavePostAllow

/-! ## Runs -/

/-- The lock and its threads. -/
structure Sys (ι : Type) where
  lock : Rwlock
  pc : ι → Pc

variable {ι : Type} [DecidableEq ι]

/-- One thread takes one step. -/
inductive Step : Sys ι → Sys ι → Prop
  | start (s : Sys ι) (i : ι) (p : Pc) :
      Starts (s.pc i) p → Step s { s with pc := Function.update s.pc i p }
  | advance (s : Sys ι) (i : ι) (lock : Rwlock) (p : Pc) :
      Lock.advance s.lock (s.pc i) = some (lock, p) →
      Step s ⟨lock, Function.update s.pc i p⟩

/-- The states of a lock after `my_rwlock_init`. -/
def Reachable (s : Sys ι) : Prop :=
  Relation.ReflTransGen Step ⟨myRwlockInit, fun _ => .outside⟩ s

/-! ## Who has what -/

/-- Between the `sem_wait` and the `sem_post` of `allow_readers`. -/
def Pc.hasAllow : Pc → Bool
  | .readLockMutex | .readIncrement | .readWaitProcesses | .readUnlockMutex | .readPostAllow
  | .writeWaitProcesses | .writing | .leavePostAllow => true
  | _ => false

/-- Has the mutex. -/
def Pc.hasMutex : Pc → Bool
  | .readIncrement | .readWaitProcesses | .readUnlockMutex | .leaveDecrement
  | .leavePostProcesses | .leaveCheck | .leaveUnlockMutex => true
  | _ => false

/-- A reader past its increment and not yet past its decrement. -/
def Pc.counted : Pc → Bool
  | .readWaitProcesses | .readUnlockMutex | .readPostAllow | .reading | .leaveLockMutex
  | .leaveDecrement => true
  | _ => false

/-- A writer that has the unit of `no_processes`. -/
def Pc.excludes : Pc → Bool
  | .writing | .leavePostAllow | .leavePostBoth => true
  | _ => false

/-- The first reader, which is about to take the unit of `no_processes`. -/
def Pc.isFirst : Pc → Bool
  | .readWaitProcesses => true
  | _ => false

/-- The last reader, which is about to give the unit back. -/
def Pc.isLast : Pc → Bool
  | .leavePostProcesses => true
  | _ => false

/-- The unit of `no_processes` is with the readers while one is counted, except that the first
one has still to take it and the last one has still to give it back. -/
structure Inv [Fintype ι] (s : Sys ι) : Prop where
  allow : s.lock.allowReaders + countAt Pc.hasAllow s.pc = 1
  mutex : countAt Pc.hasMutex s.pc = s.lock.protectReaderCount.toNat
  readers : s.lock.readerCount = countAt Pc.counted s.pc
  processes : s.lock.noProcesses + countAt Pc.excludes s.pc +
    (decide (0 < s.lock.readerCount)).toNat
    + countAt Pc.isLast s.pc = 1 + countAt Pc.isFirst s.pc
  first : ∀ i, s.pc i = .readWaitProcesses → s.lock.readerCount = 1
  last : ∀ i, s.pc i = .leavePostProcesses → s.lock.readerCount = 0
  alive : ∀ i, s.pc i ≠ .crashed

omit [DecidableEq ι] in
theorem inv_init [Fintype ι] : Inv (⟨myRwlockInit, fun _ => .outside⟩ : Sys ι) where
  allow := by
    rw [countAt_eq_zero_iff.mpr fun _ => rfl]
    rfl
  mutex := countAt_eq_zero_iff.mpr fun _ => rfl
  readers := by
    rw [countAt_eq_zero_iff.mpr fun _ => rfl]
    rfl
  processes := by
    rw [countAt_eq_zero_iff.mpr fun _ => rfl, countAt_eq_zero_iff.mpr fun _ => rfl,
      countAt_eq_zero_iff.mpr fun _ => rfl]
    rfl
  first := by
    intro i hi
    cases hi
  last := by
    intro i hi
    cases hi
  alive := nofun

section

variable [Fintype ι] {s s' : Sys ι} {i j : ι}

omit [DecidableEq ι] in
/-- One thread at a time has the mutex. -/
theorem Inv.hasMutex_unique (h : Inv s) (hi : (s.pc i).hasMutex = true)
    (hj : (s.pc j).hasMutex = true) : i = j := by
  by_contra hne
  have htwo := two_le_countAt hi hj hne
  rw [h.mutex] at htwo
  have := Bool.toNat_le s.lock.protectReaderCount
  omega

omit [DecidableEq ι] in
theorem Inv.locked (h : Inv s) (hi : (s.pc i).hasMutex = true) :
    s.lock.protectReaderCount = true := by
  have hpos := countAt_pos hi
  rw [h.mutex] at hpos
  cases hl : s.lock.protectReaderCount with
  | true => rfl
  | false =>
    rw [hl] at hpos
    cases hpos

/-- What the step of one thread has to balance. The counter changes under the mutex only. -/
theorem Inv.moved (h : Inv s) {lock : Rwlock} {p : Pc}
    (hallow : lock.allowReaders + p.hasAllow.toNat
      = s.lock.allowReaders + (s.pc i).hasAllow.toNat)
    (hmutex : lock.protectReaderCount.toNat + (s.pc i).hasMutex.toNat
      = s.lock.protectReaderCount.toNat + p.hasMutex.toNat)
    (hreaders : lock.readerCount + (s.pc i).counted.toNat
      = s.lock.readerCount + p.counted.toNat)
    (hprocesses : lock.noProcesses + p.excludes.toNat + (decide (0 < lock.readerCount)).toNat
        + p.isLast.toNat + (s.pc i).isFirst.toNat
      = s.lock.noProcesses + (s.pc i).excludes.toNat + (decide (0 < s.lock.readerCount)).toNat
        + (s.pc i).isLast.toNat + p.isFirst.toNat)
    (hcount : lock.readerCount = s.lock.readerCount ∨ (s.pc i).hasMutex = true)
    (hfirst : p = .readWaitProcesses → lock.readerCount = 1)
    (hlast : p = .leavePostProcesses → lock.readerCount = 0) (halive : p ≠ .crashed) :
    Inv ⟨lock, Function.update s.pc i p⟩ where
  allow := by
    have := countAt_update Pc.hasAllow s.pc i p
    have := h.allow
    show lock.allowReaders + countAt Pc.hasAllow (Function.update s.pc i p) = 1
    omega
  mutex := by
    have := countAt_update Pc.hasMutex s.pc i p
    have := h.mutex
    show countAt Pc.hasMutex (Function.update s.pc i p) = lock.protectReaderCount.toNat
    omega
  readers := by
    have := countAt_update Pc.counted s.pc i p
    have := h.readers
    show lock.readerCount = countAt Pc.counted (Function.update s.pc i p)
    omega
  processes := by
    have := countAt_update Pc.excludes s.pc i p
    have := countAt_update Pc.isFirst s.pc i p
    have := countAt_update Pc.isLast s.pc i p
    have := h.processes
    show lock.noProcesses + countAt Pc.excludes (Function.update s.pc i p)
      + (decide (0 < lock.readerCount)).toNat + countAt Pc.isLast (Function.update s.pc i p)
      = 1 + countAt Pc.isFirst (Function.update s.pc i p)
    omega
  first := by
    intro j hj
    by_cases hji : j = i
    · subst hji
      exact hfirst (by simpa using hj)
    · have hj' : s.pc j = .readWaitProcesses := by simpa [Function.update_of_ne hji] using hj
      rcases hcount with hc | hm
      · exact hc.trans (h.first j hj')
      · exact absurd (h.hasMutex_unique (by rw [hj']; rfl) hm) hji
  last := by
    intro j hj
    by_cases hji : j = i
    · subst hji
      exact hlast (by simpa using hj)
    · have hj' : s.pc j = .leavePostProcesses := by simpa [Function.update_of_ne hji] using hj
      rcases hcount with hc | hm
      · exact hc.trans (h.last j hj')
      · exact absurd (h.hasMutex_unique (by rw [hj']; rfl) hm) hji
  alive := by
    intro j
    show Function.update s.pc i p j ≠ .crashed
    by_cases hji : j = i
    · subst hji
      rw [Function.update_self]
      exact halive
    · rw [Function.update_of_ne hji]
      exact h.alive j

theorem Inv.start (h : Inv s) {p : Pc} (hp : Starts (s.pc i) p) :
    Inv { s with pc := Function.update s.pc i p } := by
  generalize hq : s.pc i = q at hp
  cases hp <;> refine h.moved ?_ ?_ ?_ ?_ (Or.inl rfl) ?_ ?_ ?_ <;> first
    | (rw [hq]; rfl)
    | (intro hc; cases hc)

theorem semWait_eq_some_iff {n m : Nat} : semWait n = some m ↔ n = m + 1 := by
  cases n with
  | zero => simp [semWait]
  | succ n => simp [semWait]

theorem mutexLock_eq_some_iff {taken b : Bool} :
    mutexLock taken = some b ↔ taken = false ∧ b = true := by
  cases taken <;> simp [mutexLock, eq_comm]

theorem Inv.advance (h : Inv s) {lock : Rwlock} {p : Pc}
    (ha : Lock.advance s.lock (s.pc i) = some (lock, p)) :
    Inv ⟨lock, Function.update s.pc i p⟩ := by
  have hpos := h.readers
  cases hq : s.pc i with
  | readWaitAllow | writeWaitAllow =>
    rw [hq] at ha
    obtain ⟨n, hn, he⟩ := Option.map_eq_some_iff.mp ha
    rw [semWait_eq_some_iff] at hn
    cases he
    exact h.moved (by rw [hq, hn]; rfl) (by rw [hq]; rfl) (by rw [hq]; rfl) (by rw [hq]; rfl)
      (Or.inl rfl) nofun nofun nofun
  | readLockMutex | leaveLockMutex =>
    rw [hq] at ha
    obtain ⟨b, hb, he⟩ := Option.map_eq_some_iff.mp ha
    obtain ⟨hfree, rfl⟩ := mutexLock_eq_some_iff.mp hb
    cases he
    exact h.moved (by rw [hq]; rfl) (by rw [hq, hfree]; rfl) (by rw [hq]; rfl) (by rw [hq]; rfl)
      (Or.inl rfl) nofun nofun nofun
  | readIncrement =>
    rw [hq] at ha
    cases ha
    by_cases h1 : s.lock.readerCount + 1 = 1
    · rw [if_pos h1]
      refine h.moved (by rw [hq]; rfl) (by rw [hq]; rfl) (by rw [hq]; simp [Pc.counted]) ?_
        (Or.inr (by rw [hq]; rfl)) (fun _ => h1) nofun nofun
      rw [hq]
      simp only [Pc.excludes, Pc.isFirst, Pc.isLast, show s.lock.readerCount = 0 by omega]
      rfl
    · rw [if_neg h1]
      refine h.moved (by rw [hq]; rfl) (by rw [hq]; rfl) (by rw [hq]; simp [Pc.counted]) ?_
        (Or.inr (by rw [hq]; rfl)) nofun nofun nofun
      rw [hq]
      have hold : decide (0 < s.lock.readerCount) = true := decide_eq_true (by omega)
      have hnew : decide (0 < s.lock.readerCount + 1) = true := decide_eq_true (by omega)
      simp only [hold, hnew]
      rfl
  | readWaitProcesses =>
    rw [hq] at ha
    obtain ⟨n, hn, he⟩ := Option.map_eq_some_iff.mp ha
    rw [semWait_eq_some_iff] at hn
    cases he
    refine h.moved (by rw [hq]; rfl) (by rw [hq]; rfl) (by rw [hq]; rfl) ?_
      (Or.inl rfl) nofun nofun nofun
    rw [hq, hn]
    simp only [Pc.excludes, Pc.isFirst, Pc.isLast, Bool.toNat_false, Bool.toNat_true]
    omega
  | readUnlockMutex | leaveUnlockMutex =>
    have hlocked := h.locked (i := i) (by rw [hq]; rfl)
    rw [hq] at ha
    cases ha
    exact h.moved (by rw [hq]; rfl) (by rw [hq, hlocked]; rfl) (by rw [hq]; rfl) (by rw [hq]; rfl)
      (Or.inl rfl) nofun nofun nofun
  | readPostAllow | leavePostAllow =>
    rw [hq] at ha
    cases ha
    exact h.moved (by rw [hq]; rfl) (by rw [hq]; rfl) (by rw [hq]; rfl) (by rw [hq]; rfl)
      (Or.inl rfl) nofun nofun nofun
  | leaveDecrement =>
    have hcounted := countAt_pos (show (s.pc i).counted = true by rw [hq]; rfl)
    rw [hq] at ha
    cases ha
    by_cases h0 : s.lock.readerCount - 1 = 0
    · rw [if_pos h0]
      refine h.moved (by rw [hq]; rfl) (by rw [hq]; rfl) (by rw [hq]; simp [Pc.counted]) ?_
        (Or.inr (by rw [hq]; rfl)) nofun (fun _ => h0) nofun
      rw [hq]
      simp only [show s.lock.readerCount = 1 by omega]
      rfl
    · rw [if_neg h0]
      refine h.moved (by rw [hq]; rfl) (by rw [hq]; rfl) (by rw [hq]; simp [Pc.counted]) ?_
        (Or.inr (by rw [hq]; rfl)) nofun nofun nofun
      rw [hq]
      have hold : decide (0 < s.lock.readerCount) = true := decide_eq_true (by omega)
      have hnew : decide (0 < s.lock.readerCount - 1) = true := decide_eq_true (by omega)
      simp only [hold, hnew]
      rfl
  | leavePostProcesses =>
    have hzero := h.last i hq
    rw [hq] at ha
    cases ha
    refine h.moved (by rw [hq]; rfl) (by rw [hq]; rfl) (by rw [hq]; rfl) ?_
      (Or.inl rfl) nofun nofun nofun
    rw [hq]
    simp only [Pc.excludes, Pc.isFirst, Pc.isLast, Bool.toNat_false, Bool.toNat_true]
    omega
  | leaveCheck =>
    rw [hq] at ha
    cases ha
    rw [if_neg (by omega)]
    exact h.moved (by rw [hq]; rfl) (by rw [hq]; rfl) (by rw [hq]; rfl) (by rw [hq]; rfl)
      (Or.inl rfl) nofun nofun nofun
  | writeWaitProcesses =>
    rw [hq] at ha
    obtain ⟨n, hn, he⟩ := Option.map_eq_some_iff.mp ha
    rw [semWait_eq_some_iff] at hn
    cases he
    refine h.moved (by rw [hq]; rfl) (by rw [hq]; rfl) (by rw [hq]; rfl) ?_
      (Or.inl rfl) nofun nofun nofun
    rw [hq, hn]
    rfl
  | leavePostBoth =>
    rw [hq] at ha
    cases ha
    exact h.moved (by rw [hq]; rfl) (by rw [hq]; rfl) (by rw [hq]; rfl) (by rw [hq]; rfl)
      (Or.inl rfl) nofun nofun nofun
  | outside | reading | writing | crashed =>
    rw [hq] at ha
    cases ha

theorem Inv.step (h : Inv s) (hs : Step s s') : Inv s' := by
  cases hs with
  | start i p hp => exact h.start hp
  | advance i lock p ha => exact h.advance ha

/-- The invariant over whole runs. -/
theorem Reachable.inv (hr : Reachable s) : Inv s :=
  invariant_of_steps Inv.step hr inv_init

/-! ## What follows from it -/

/-- Inside, as a reader or a writer. -/
def Pc.inside (p : Pc) : Bool := p = .reading ∨ p = .writing

/-- Inside one of the operations. -/
def Pc.operating (p : Pc) : Bool := ¬ (p = .outside ∨ p.inside)

omit [DecidableEq ι] in
/-- A writer is alone: `allow_readers` keeps out the first reader that could be mistaken for one
inside. -/
theorem Inv.writer_alone (h : Inv s) (hi : s.pc i = .writing) (hj : (s.pc j).inside = true) :
    j = i := by
  by_contra hne
  have hallow := h.allow
  have hprocesses := h.processes
  have hreaders := h.readers
  have hwriter := countAt_pos (show (s.pc i).excludes = true by rw [hi]; rfl)
  have hbar := countAt_pos (show (s.pc i).hasAllow = true by rw [hi]; rfl)
  -- the first reader would need the unit of `allow_readers` that the writer has
  have hnofirst : countAt Pc.isFirst s.pc = 0 := by
    refine countAt_eq_zero_iff.mpr fun k => ?_
    by_contra hk
    have hk' : s.pc k = .readWaitProcesses := by
      cases hc : s.pc k <;> rw [hc] at hk <;> first
        | rfl
        | exact absurd rfl hk
    have hki : k ≠ i := by
      rintro rfl
      rw [hi] at hk'
      cases hk'
    have := two_le_countAt (show (s.pc k).hasAllow = true by rw [hk']; rfl)
      (show (s.pc i).hasAllow = true by rw [hi]; rfl) hki
    omega
  rcases of_decide_eq_true hj with hr | hw
  · have := countAt_pos (show (s.pc j).counted = true by rw [hr]; rfl)
    have hpos : decide (0 < s.lock.readerCount) = true := decide_eq_true (by omega)
    rw [hpos, Bool.toNat_true] at hprocesses
    omega
  · have := two_le_countAt (show (s.pc j).excludes = true by rw [hw]; rfl)
      (show (s.pc i).excludes = true by rw [hi]; rfl) hne
    omega

/-- Why a thread inside an operation cannot go on. -/
inductive Blocked (lock : Rwlock) : Pc → Prop
  | readAllow : lock.allowReaders = 0 → Blocked lock .readWaitAllow
  | writeAllow : lock.allowReaders = 0 → Blocked lock .writeWaitAllow
  | readProcesses : lock.noProcesses = 0 → Blocked lock .readWaitProcesses
  | writeProcesses : lock.noProcesses = 0 → Blocked lock .writeWaitProcesses
  | readMutex : lock.protectReaderCount = true → Blocked lock .readLockMutex
  | leaveMutex : lock.protectReaderCount = true → Blocked lock .leaveLockMutex

theorem blocked_of_advance_eq_none {lock : Rwlock} {p : Pc} (h : Lock.advance lock p = none)
    (hp : p.operating = true) (halive : p ≠ .crashed) : Blocked lock p := by
  have hwait : ∀ {n : Nat} {f : Nat → Rwlock × Pc}, (semWait n).map f = none → n = 0 := by
    intro n f hn
    cases n with
    | zero => rfl
    | succ n => cases hn
  have hlock : ∀ {b : Bool} {f : Bool → Rwlock × Pc}, (mutexLock b).map f = none → b = true := by
    intro b f hb
    cases b with
    | true => rfl
    | false => cases hb
  cases p with
  | readWaitAllow => exact .readAllow (hwait h)
  | writeWaitAllow => exact .writeAllow (hwait h)
  | readWaitProcesses => exact .readProcesses (hwait h)
  | writeWaitProcesses => exact .writeProcesses (hwait h)
  | readLockMutex => exact .readMutex (hlock h)
  | leaveLockMutex => exact .leaveMutex (hlock h)
  | outside | reading | writing => cases hp
  | crashed => exact absurd rfl halive
  | _ => cases h

omit [DecidableEq ι] in
/-- Threads that are all outside or blocked are all outside. The reasons to wait go away in
turn: the first reader's, the mutex, the writer's, and `allow_readers` at last. -/
theorem Inv.outside_of_blocked (h : Inv s)
    (hall : ∀ k, s.pc k = .outside ∨ Blocked s.lock (s.pc k)) (i : ι) : s.pc i = .outside := by
  have hallow := h.allow
  have hmutex := h.mutex
  have hreaders := h.readers
  have hprocesses := h.processes
  have hblocked : ∀ {k p}, s.pc k = p → p ≠ .outside → Blocked s.lock p := by
    intro k p hk hp
    rcases hall k with hout | hb
    · exact absurd (hk.symm.trans hout) hp
    · exact hk ▸ hb
  have hdrop : ∀ {p : Pc} {places : List Pc}, (∀ k, s.pc k ∈ p :: places) → (∀ k, s.pc k ≠ p) →
      ∀ k, s.pc k ∈ places := fun hmem hne k => (List.mem_cons.mp (hmem k)).resolve_left (hne k)
  have hmem : ∀ k, s.pc k ∈ [.readWaitProcesses, .readLockMutex, .leaveLockMutex,
      .writeWaitProcesses, .readWaitAllow, .writeWaitAllow, .outside] := by
    intro k
    rcases hall k with hout | hb
    · rw [hout]
      decide
    · generalize s.pc k = p at hb
      cases hb <;> decide
  rw [countAt_eq_zero_of_mem hmem (by decide), countAt_eq_zero_of_mem hmem (by decide)]
    at hprocesses
  replace hmem := hdrop hmem fun k hk => by
    have hfirst := countAt_pos (show (s.pc k).isFirst = true by rw [hk]; rfl)
    cases hblocked hk nofun with
    | readProcesses hfree =>
      rw [h.first k hk, hfree, show (decide ((0 : Int) < 1)).toNat = 1 from rfl] at hprocesses
      omega
  have hfree : s.lock.protectReaderCount = false := by
    rw [countAt_eq_zero_of_mem hmem (by decide)] at hmutex
    exact Bool.toNat_eq_zero.mp hmutex.symm
  replace hmem := hdrop hmem fun k hk => by
    cases hblocked hk nofun with
    | readMutex hl => exact Bool.false_ne_true (hfree.symm.trans hl)
  replace hmem := hdrop hmem fun k hk => by
    cases hblocked hk nofun with
    | leaveMutex hl => exact Bool.false_ne_true (hfree.symm.trans hl)
  rw [countAt_eq_zero_of_mem hmem (by decide)] at hreaders
  rw [hreaders, countAt_eq_zero_of_mem hmem (by decide),
    show (decide ((0 : Int) < (0 : Nat))).toNat = 0 from rfl] at hprocesses
  replace hmem := hdrop hmem fun k hk => by
    cases hblocked hk nofun with
    | writeProcesses hl => omega
  rw [countAt_eq_zero_of_mem hmem (by decide)] at hallow
  replace hmem := hdrop hmem fun k hk => by
    cases hblocked hk nofun with
    | readAllow hl => omega
  replace hmem := hdrop hmem fun k hk => by
    cases hblocked hk nofun with
    | writeAllow hl => omega
  exact List.mem_singleton.mp (hmem i)

/-- **The reader/writer lock.** In every reachable state: a writer inside is alone inside; the
counter is the number of readers past their increment and not past their decrement; with no
thread inside the lock or an operation both semaphores are back at 1; and if some thread is
inside an operation and none holds the lock, one that is inside an operation can go on. -/
theorem rwlock_correct (hr : Reachable s) :
    (∀ i j, s.pc i = .writing → (s.pc j).inside = true → j = i) ∧
    (s.lock.readerCount = countAt Pc.counted s.pc ∧ 0 ≤ s.lock.readerCount) ∧
    ((∀ i, (s.pc i).inside = false ∧ (s.pc i).operating = false) →
      s.lock.allowReaders = 1 ∧ s.lock.noProcesses = 1) ∧
    ((∃ i, (s.pc i).operating = true) → (∀ i, (s.pc i).inside = false) →
      ∃ i next, (s.pc i).operating = true ∧ advance s.lock (s.pc i) = some next) := by
  have h := hr.inv
  refine ⟨fun i j hi hj => h.writer_alone hi hj, ⟨h.readers, by rw [h.readers]; omega⟩,
    fun hidle => ?_, fun ⟨k, hk⟩ hin => ?_⟩
  · have hmem : ∀ i, s.pc i ∈ [Pc.outside] := by
      intro i
      obtain ⟨hi, ho⟩ := hidle i
      generalize s.pc i = p at hi ho
      revert hi ho
      cases p <;> decide
    have hallow := h.allow
    have hreaders := h.readers
    have hprocesses := h.processes
    rw [countAt_eq_zero_of_mem hmem (by decide)] at hallow hreaders
    rw [countAt_eq_zero_of_mem hmem (by decide), countAt_eq_zero_of_mem hmem (by decide),
      countAt_eq_zero_of_mem hmem (by decide), hreaders] at hprocesses
    exact ⟨by omega, by simpa using hprocesses⟩
  · by_contra hstuck
    have hout := h.outside_of_blocked (fun j => ?_) k
    · rw [hout] at hk
      cases hk
    · by_cases hj : (s.pc j).operating = true
      · refine Or.inr (blocked_of_advance_eq_none ?_ hj (h.alive j))
        exact Option.eq_none_iff_forall_ne_some.mpr fun next hn => hstuck ⟨j, next, hj, hn⟩
      · refine Or.inl ?_
        have hj' := hin j
        generalize s.pc j = p at hj hj'
        revert hj hj'
        cases p <;> decide

end

/-- A writer inside, and a reader that waits for it. -/
def sampleSys : Sys Bool :=
  ⟨⟨false, 0, 0, 0⟩,
    Function.update (Function.update (Function.update (Function.update (fun _ => .outside)
      true .writeWaitAllow) true .writeWaitProcesses) true .writing) false .readWaitAllow⟩

theorem reachable_sampleSys : Reachable sampleSys :=
  ((((Relation.ReflTransGen.refl.tail (.start _ true _ .writeLock)).tail
    (.advance _ true _ _ rfl)).tail (.advance _ true _ _ rfl)).tail (.start _ false _ .readLock))

/-- Nobody but the writer is inside. -/
theorem rwlock_correct_sampleSys :
    Reachable sampleSys ∧ ∀ j, (sampleSys.pc j).inside = true → j = true :=
  ⟨reachable_sampleSys, fun j => (rwlock_correct reachable_sampleSys).1 true j rfl⟩

end Owfs.Lock
