import Owfs.Lock.ReadWrite

/-!
# Starting and stopping the library

A program that uses `owcapi` starts the library with `OW_init` or one of its variants, reads and
writes, and stops it with `OW_finish`. `ow_api.c` keeps the state of the library in
`StateInfo.owlib_state`, under the reader/writer lock `Mutex.lib`: a request holds it as a reader, a
start or a stop as a writer. Some tests of the state are made without the lock, and `LibSetup` makes
the lock itself anew.

Any number of threads make calls in any order, and each step of the lock is one step here. An
assignment to the state is one step, and so is a call of `LibSetup`, `LibStart` or `LibStop`, which
is going on as long as its thread stands in front of it.
-/

namespace Owfs.Api

open Infra

/-! ## The code -/

/-- `enum lib_state`, as far as it is used -/
inductive LibState where
  | pre | setup | started
deriving DecidableEq

/-- `enum restart_init` -/
inductive RestartInit where
  | restartIfRepeat | continueIfRepeat
deriving DecidableEq

/-- Which of the functions that start: `OW_init_args` takes the arguments of a program, and the
variants with `safe` in their names let a library that runs go on. -/
structure InitCall where
  fromArgs : Bool
  again : RestartInit
deriving DecidableEq

/-- The functions of `owcapi`. All that read or write are alike here. -/
inductive Call where
  | owInit (c : InitCall)
  | owFinish
  | owAccess
deriving DecidableEq

/-- What a thread does next. -/
inductive Pc where
  | outside
  /-- outside, and the last call was a start that returned 0 -/
  | initialised
  -- `API_setup`
  | setupCount (c : InitCall) | setupLib (c : InitCall) | setupState (c : InitCall)
  -- `API_init` and `API_init_args`
  | initTest (c : InitCall) | initLib (c : InitCall) | initState (c : InitCall) | initLock
      (c : InitCall)
  | initCheck (c : InitCall) | initStop (c : InitCall) | initStopped (c : InitCall) | initStart
      (c : InitCall)
  | initStarted (c : InitCall) | initUnlock (good : Bool)
  -- `API_finish`
  | finishTest | finishLock | finishStop | finishState | finishUnlock
  -- `API_access_start` and `API_access_end`, and the request between them
  | accessTest | accessLock | accessCheck | accessing | accessUnlock
deriving DecidableEq

/-- The library and its threads. -/
structure Sys (ι : Type) where
  /-- `Mutex.lib`, and where the threads stand in its operations -/
  lock : Lock.Sys ι
  owlibState : LibState
  /-- `LibStart` was successful after the last `LibStop`. -/
  running : Bool
  /-- The last start took its arguments from `OW_init_args`. -/
  viaArgs : Bool
  dejaVue : Nat
  pc : ι → Pc

/-- Before the first call. -/
def Sys.start (ι : Type) : Sys ι :=
  ⟨⟨Lock.myRwlockInit, fun _ => .outside⟩, .pre, false, false, 0, fun _ => .outside⟩

/-- A thread makes a call, or takes its next step; `good` is the result of the options and of
`LibStart`. -/
inductive Event (ι : Type) where
  | call (i : ι) (c : Call)
  | move (i : ι) (good : Bool)

variable {ι : Type} [DecidableEq ι]

namespace Sys

def goto (s : Sys ι) (i : ι) (p : Pc) : Sys ι := { s with pc := Function.update s.pc i p }

/-- An operation of the lock begins. -/
def lockCall (s : Sys ι) (i : ι) (q : Lock.Pc) (p : Pc) : Sys ι :=
  { s with lock := { s.lock with pc := Function.update s.lock.pc i q }, pc :=
    Function.update s.pc i p }

/-- An operation of the lock goes on until it is done. -/
def lockMove (s : Sys ι) (i : ι) (done : Lock.Pc) (p : Pc) : Option (Sys ι) :=
  if s.lock.pc i = done then some (s.goto i p)
  else (Lock.advance s.lock.lock (s.lock.pc i)).map fun r =>
    { s with lock := ⟨r.1, Function.update s.lock.pc i r.2⟩ }

/-- `LibSetup`, as far as the lock goes -/
def libSetup (s : Sys ι) : Sys ι := { s with lock := { s.lock with lock := Lock.myRwlockInit } }

/-- `LIB_WUNLOCK` -/
def writeUnlock (s : Sys ι) (i : ι) (p : Pc) : Sys ι := s.lockCall i .leavePostAllow p

end Sys

/-- Outside of all calls. -/
def Pc.atRest : Pc → Bool
  | .outside | .initialised => true
  | _ => false

/-- The first place of a call. -/
def Call.first : Call → Pc
  | .owInit c => .setupCount c
  | .owFinish => .finishTest
  | .owAccess => .accessTest

/-- One thread takes its next step. -/
def move (s : Sys ι) (i : ι) (good : Bool) : Option (Sys ι) :=
  match s.pc i with
  | .outside | .initialised => none
  | .setupCount c => some ({ s with dejaVue := s.dejaVue + 1 }.goto i
      (if s.dejaVue + 1 = 1 then .setupLib c else .initTest c))
  | .setupLib c => some (s.libSetup.goto i (.setupState c))
  | .setupState c => some ({ s with owlibState := .setup }.goto i (.initTest c))
  | .initTest c => if s.owlibState = .pre then some (s.goto i (.initLib c))
      else some (s.lockCall i .writeWaitAllow (.initLock c))
  | .initLib c => some (s.libSetup.goto i (.initState c))
  | .initState c => some ({ s with owlibState := .setup }.lockCall i .writeWaitAllow (.initLock c))
  | .initLock c => s.lockMove i .writing (.initCheck c)
  | .initCheck c =>
    match s.owlibState, c.again with
    | .started, .continueIfRepeat => some (s.writeUnlock i (.initUnlock true))
    | .started, .restartIfRepeat => some (s.goto i (.initStop c))
    | .setup, _ => some (s.goto i (.initStart c))
    -- the library was stopped since the test without the lock
    | .pre, _ => some (s.writeUnlock i (.initUnlock true))
  | .initStop c => some ({ s with running := false }.goto i (.initStopped c))
  | .initStopped c => some ({ s with owlibState := .setup }.goto i (.initStart c))
  | .initStart c =>
    if good then
      -- `setup_from_args` does not call `LibStart`
      some ({ s with running := s.running || !c.fromArgs }.goto i (.initStarted c))
    else some (s.writeUnlock i (.initUnlock false))
  | .initStarted c => some ({ s with owlibState := .started, viaArgs := c.fromArgs }.writeUnlock i
      (.initUnlock true))
  | .initUnlock result => s.lockMove i .outside (if result then .initialised else .finishTest)
  | .finishTest => if s.owlibState = .pre then some (s.goto i .outside)
      else some (s.lockCall i .writeWaitAllow .finishLock)
  | .finishLock => s.lockMove i .writing .finishStop
  | .finishStop => some ({ s with running := false }.goto i .finishState)
  | .finishState => some ({ s with owlibState := .pre }.writeUnlock i .finishUnlock)
  | .finishUnlock => s.lockMove i .outside .outside
  | .accessTest => if s.owlibState = .pre then some (s.goto i .outside)
      else some (s.lockCall i .readWaitAllow .accessLock)
  | .accessLock => s.lockMove i .reading .accessCheck
  | .accessCheck =>
    if s.owlibState ≠ .started then some (s.lockCall i .leaveLockMutex .accessUnlock)
    else some (s.goto i .accessing)
  | .accessing => some (s.lockCall i .leaveLockMutex .accessUnlock)
  | .accessUnlock => s.lockMove i .outside .outside

def step (s : Sys ι) : Event ι → Option (Sys ι)
  | .call i c => if (s.pc i).atRest then some (s.goto i c.first) else none
  | .move i good => move s i good

/-! ## What should hold -/

/-- From the decision to call `LibSetup` until the state says so. -/
def Pc.settingUp : Pc → Bool
  | .setupLib _ | .setupState _ | .initLib _ | .initState _ => true
  | _ => false

/-- In `LibSetup`, `LibStart` or `LibStop`. -/
def Pc.changing : Pc → Bool
  | .setupLib _ | .initLib _ | .initStop _ | .initStart _ | .finishStop => true
  | _ => false

/-- While a thread sets up the library, no other thread is in a call. -/
def Quiet (s : Sys ι) : Prop := ∀ i, (s.pc i).settingUp = true → ∀ j, j ≠ i → (s.pc j).atRest = true

/-- A request is served by a library that was started. Who changes the library is alone, and starts
only what does not run. The lock is sound. -/
structure Safe (s : Sys ι) : Prop where
  served : ∀ i, s.pc i = .accessing → s.owlibState = .started ∧
    (s.running = true ∨ s.viaArgs = true)
  alone : ∀ i j, (s.pc i).changing = true → (s.pc j).changing = true ∨ s.pc j = .accessing → j = i
  stopped : ∀ i c, s.pc i = .initStart c → s.running = false
  alive : ∀ i, s.lock.pc i ≠ .crashed

/-! ## The invariant -/

/-! ### Places in the operations of the lock -/

def takingWrite (q : Lock.Pc) : Bool := q = .writeWaitAllow ∨ q = .writeWaitProcesses ∨ q = .writing

def leavingWrite (q : Lock.Pc) : Bool := q = .leavePostAllow ∨ q = .leavePostBoth ∨ q = .outside

def takingRead (q : Lock.Pc) : Bool :=
  q = .readWaitAllow ∨ q = .readLockMutex ∨ q = .readIncrement ∨ q = .readWaitProcesses ∨
    q = .readUnlockMutex ∨
    q = .readPostAllow ∨ q = .reading

def leavingRead (q : Lock.Pc) : Bool :=
  q = .leaveLockMutex ∨ q = .leaveDecrement ∨ q = .leavePostProcesses ∨ q = .leaveCheck ∨
    q = .leaveUnlockMutex ∨
    q = .outside

/-- Where a thread can stand in the operations of the lock. -/
def Pc.fits : Pc → Lock.Pc → Bool
  | .initLock _, q | .finishLock, q => takingWrite q
  | .initCheck _, q | .initStop _, q | .initStopped _, q | .initStart _, q | .initStarted _,
      q | .finishStop, q
  | .finishState, q => q = .writing
  | .initUnlock _, q | .finishUnlock, q => leavingWrite q
  | .accessLock, q => takingRead q
  | .accessCheck, q | .accessing, q => q = .reading
  | .accessUnlock, q => leavingRead q
  | _, q => q = .outside

/-- What a thread knows of the library where it stands. -/
def Knows (owlibState : LibState) (running : Bool) : Pc → Prop
  | .setupLib _ | .setupState _ | .initLib _ | .initState _ => owlibState = .pre
  | .initStop _ | .accessing => owlibState = .started
  | .initStopped _ => owlibState = .started ∧ running = false
  | .initStart _ => owlibState = .setup
  | .initStarted c => owlibState = .setup ∧ (running = true ∨ c.fromArgs = true)
  | .finishState => running = false
  | _ => True

/-- It knows something. -/
def Pc.watches : Pc → Bool
  | .setupLib _ | .setupState _ | .initLib _ | .initState _ | .initStop
      _ | .accessing | .initStopped _ | .initStart _
  | .initStarted _ | .finishState => true
  | _ => false

/-- In `OW_init`, behind the counter. -/
def Pc.counted : Pc → Bool
  | .setupLib _ | .setupState _ | .initTest _ | .initLib _ | .initState _ | .initLock _ | .initCheck
      _ | .initStop _
  | .initStopped _ | .initStart _ | .initStarted _ => true
  | _ => false

/-- The library runs, but its state does not say so yet. -/
def Pc.starting : Pc → Bool
  | .initStarted _ => true
  | _ => false

/-- The library is stopped, but its state does not say so yet. -/
def Pc.stopping : Pc → Bool
  | .initStopped _ | .finishState => true
  | _ => false

structure Inv [Fintype ι] (s : Sys ι) : Prop where
  lock : Lock.Inv s.lock
  fits : ∀ i, (s.pc i).fits (s.lock.pc i) = true
  knows : ∀ i, Knows s.owlibState s.running (s.pc i)
  counted : ∀ i, (s.pc i).counted = true → 0 < s.dejaVue
  fresh : s.dejaVue = 0 → s.owlibState = .pre
  running : s.running = true → s.owlibState = .started ∨ ∃ i, (s.pc i).starting = true
  started : s.owlibState = .started → s.running = true ∨ s.viaArgs = true ∨ ∃ i,
    (s.pc i).stopping = true

section

variable {p : Pc} {q : Lock.Pc} {owlibState : LibState} {running : Bool}

theorem knows_of_not_watches (hp : p.watches = false) : Knows owlibState running p := by
  cases p <;> trivial

theorem not_watches_of_atRest (hp : p.atRest = true) : p.watches = false := by
  cases p <;> first
    | rfl
    | cases hp

theorem watches_of_starting (hp : p.starting = true) : p.watches = true := by
  cases p <;> first
    | rfl
    | cases hp

/-- Who knows something holds the lock or sets up the library. -/
theorem inside_of_watches (hp : p.watches = true) (hfits : p.fits q = true) :
    p.settingUp = true ∨ q.inside = true := by
  cases p <;> first
    | exact .inl rfl
    | (rw [of_decide_eq_true hfits]; exact .inr rfl)
    | simp [Pc.watches] at hp

/-- Who changes the library has the lock as a writer or sets up the library. -/
theorem writing_of_changing (hp : p.changing = true) (hfits : p.fits q = true) :
    p.settingUp = true ∨ q = .writing := by
  cases p <;> first
    | exact .inl rfl
    | exact .inr (of_decide_eq_true hfits)
    | simp [Pc.changing] at hp

theorem inside_of_changing (hp : p.changing = true ∨ p = .accessing) (hfits : p.fits q = true) :
    p.settingUp = true ∨ q.inside = true := by
  rcases hp with hp | rfl
  · refine (writing_of_changing hp hfits).imp_right fun hq => ?_
    rw [hq]
    rfl
  · rw [of_decide_eq_true hfits]
    exact .inr rfl

theorem not_atRest (hp : p.changing = true ∨ p = .accessing) : p.atRest = false := by
  rcases hp with hp | rfl
  · cases p <;> first
      | rfl
      | cases hp
  · rfl

theorem outside_of_atRest (hp : p.atRest = true ∨ p.settingUp = true) (hfits : p.fits q = true) :
    q = .outside := by
  cases p <;> first
    | exact of_decide_eq_true hfits
    | simp [Pc.atRest, Pc.settingUp] at hp

/-- In an operation of the lock. -/
def Pc.inLock : Pc → Bool
  | .initLock _ | .initUnlock _ | .finishLock | .finishUnlock | .accessLock | .accessUnlock => true
  | _ => false

section

variable {lock lock' : Lock.Rwlock} {q' : Lock.Pc}

theorem takingWrite_advance (hq : takingWrite q = true)
    (hadvance : Lock.advance lock q = some (lock', q')) :
    takingWrite q' = true := by
  rcases of_decide_eq_true hq with rfl | rfl | rfl <;> simp [Lock.advance] at hadvance <;>
      grind [takingWrite]

theorem leavingWrite_advance (hq : leavingWrite q = true)
    (hadvance : Lock.advance lock q = some (lock', q')) :
    leavingWrite q' = true := by
  rcases of_decide_eq_true hq with rfl | rfl | rfl <;> simp [Lock.advance] at hadvance <;>
      grind [leavingWrite]

theorem takingRead_advance (hq : takingRead q = true)
    (hadvance : Lock.advance lock q = some (lock', q')) :
    takingRead q' = true := by
  rcases of_decide_eq_true hq with rfl | rfl | rfl | rfl | rfl | rfl | rfl <;>
      simp [Lock.advance] at hadvance <;>
    grind [takingRead]

theorem leavingRead_advance (hq : leavingRead q = true)
    (hadvance : Lock.advance lock q = some (lock', q')) (halive : q' ≠ .crashed) :
    leavingRead q' = true := by
  rcases of_decide_eq_true hq with rfl | rfl | rfl | rfl | rfl | rfl <;>
      simp [Lock.advance] at hadvance <;>
    grind [leavingRead]

/-- The operation goes on where it should. -/
theorem fits_advance (hp : p.inLock = true) (hfits : p.fits q = true)
    (hadvance : Lock.advance lock q = some (lock', q')) (halive : q' ≠ .crashed) :
    p.fits q' = true := by
  cases p with
  | initLock | finishLock => exact takingWrite_advance hfits hadvance
  | initUnlock | finishUnlock => exact leavingWrite_advance hfits hadvance
  | accessLock => exact takingRead_advance hfits hadvance
  | accessUnlock => exact leavingRead_advance hfits hadvance halive
  | _ => cases hp

end

end

section

variable [Fintype ι] {s s' : Sys ι} {i j : ι} {p : Pc}

omit [DecidableEq ι] in
theorem inv_start : Inv (Sys.start ι) where
  lock := Lock.inv_init
  fits := fun _ => rfl
  knows := fun _ => trivial
  counted := fun _ hi => by cases hi
  fresh := fun _ => rfl
  running := fun hr => by cases hr
  started := fun hs => by cases hs

omit [DecidableEq ι] in
/-- While a thread changes what others may know, they know nothing. -/
theorem Inv.others (h : Inv s) (hq : Quiet s) (hrest : (s.pc i).atRest = false)
    (hi : (s.pc i).settingUp = true ∨ s.lock.pc i = .writing) (hj : j ≠ i) :
    (s.pc j).watches = false := by
  rcases hi with hi | hi
  · exact not_watches_of_atRest (hq i hi j hj)
  · by_contra hwatches
    rcases inside_of_watches (Bool.not_eq_false _ ▸ hwatches) (h.fits j) with hj' | hj'
    · have hatRest := hq j hj' i (Ne.symm hj)
      rw [hrest] at hatRest
      cases hatRest
    · exact hj (h.lock.writer_alone hi hj')

/-- What the step of one thread has to show. -/
theorem Inv.moved (h : Inv s) {lock : Lock.Sys ι} {owlibState : LibState} {running viaArgs : Bool}
    {dejaVue : Nat} (hlock : Lock.Inv lock) (hfits : p.fits (lock.pc i) = true)
    (hsame : ∀ j ≠ i, lock.pc j = s.lock.pc j) (hknows : Knows owlibState running p)
    (hothers : ∀ j ≠ i, Knows owlibState running (s.pc j)) (hdejaVue : s.dejaVue ≤ dejaVue)
    (hcounted : p.counted = true → 0 < dejaVue) (hfresh : dejaVue = 0 → owlibState = .pre)
    (hrunning : running = true → owlibState = .started ∨ p.starting = true ∨ ∃ j ≠ i,
      (s.pc j).starting = true)
    (hstarted : owlibState = .started → running = true ∨ viaArgs = true ∨ p.stopping = true ∨
      ∃ j ≠ i, (s.pc j).stopping = true) :
    Inv ⟨lock, owlibState, running, viaArgs, dejaVue, Function.update s.pc i p⟩ where
  lock := hlock
  fits := by
    intro j
    by_cases hj : j = i
    · rw [hj]
      simpa using hfits
    · simpa [Function.update_of_ne hj, hsame j hj] using h.fits j
  knows := by
    intro j
    by_cases hj : j = i
    · rw [hj]
      simpa using hknows
    · simpa [Function.update_of_ne hj] using hothers j hj
  counted := by
    intro j hj'
    by_cases hj : j = i
    · rw [hj] at hj'
      exact hcounted (by simpa using hj')
    · exact (h.counted j (by simpa [Function.update_of_ne hj] using hj')).trans_le hdejaVue
  fresh := hfresh
  running := by
    intro hr
    rcases hrunning hr with hs | hp | ⟨j, hj, hj'⟩
    · exact .inl hs
    · exact .inr ⟨i, by simpa using hp⟩
    · exact .inr ⟨j, by simpa [Function.update_of_ne hj] using hj'⟩
  started := by
    intro hs
    rcases hstarted hs with hr | ha | hp | ⟨j, hj, hj'⟩
    · exact .inl hr
    · exact .inr (.inl ha)
    · exact .inr (.inr ⟨i, by simpa using hp⟩)
    · exact .inr (.inr ⟨j, by simpa [Function.update_of_ne hj] using hj'⟩)

/-- A step that leaves the state of the library as it is. -/
theorem Inv.still (h : Inv s) {lock : Lock.Sys ι} {dejaVue : Nat} (hlock : Lock.Inv lock)
    (hfits : p.fits (lock.pc i) = true) (hsame : ∀ j ≠ i, lock.pc j = s.lock.pc j)
    (hknows : Knows s.owlibState s.running p) (hdejaVue : s.dejaVue ≤ dejaVue)
    (hcounted : p.counted = true → 0 < dejaVue) (hstarting : (s.pc i).starting = false)
    (hstopping : (s.pc i).stopping = false) :
    Inv { s with lock := lock, dejaVue := dejaVue, pc := Function.update s.pc i p } := by
  have hne {here : Pc → Bool} {j : ι} (hi : here (s.pc i) = false) (hj : here (s.pc j) = true) :
      j ≠ i := by
    rintro rfl
    rw [hi] at hj
    cases hj
  refine h.moved hlock hfits hsame hknows (fun j _ => h.knows j) hdejaVue hcounted
    (fun hd => h.fresh (by omega)) ?_ ?_
  · intro hr
    rcases h.running hr with hs | ⟨j, hj⟩
    · exact .inl hs
    · exact .inr (.inr ⟨j, hne hstarting hj, hj⟩)
  · intro hs
    rcases h.started hs with hr | ha | ⟨j, hj⟩
    · exact .inl hr
    · exact .inr (.inl ha)
    · exact .inr (.inr (.inr ⟨j, hne hstopping hj, hj⟩))

theorem Inv.goto (h : Inv s) (hfits : p.fits (s.lock.pc i) = true)
    (hknows : Knows s.owlibState s.running p) (hcounted : p.counted = true → 0 < s.dejaVue)
    (hstarting : (s.pc i).starting = false) (hstopping : (s.pc i).stopping = false) :
    Inv (s.goto i p) :=
  h.still h.lock hfits (fun _ _ => rfl) hknows (le_refl _) hcounted hstarting hstopping

theorem Inv.lockCall (h : Inv s) {q : Lock.Pc} (hcall : Lock.Starts (s.lock.pc i) q)
    (hfits : p.fits q = true) (hknows : Knows s.owlibState s.running p)
    (hcounted : p.counted = true → 0 < s.dejaVue) (hstarting : (s.pc i).starting = false)
    (hstopping : (s.pc i).stopping = false) : Inv (s.lockCall i q p) :=
  h.still (h.lock.start hcall) (by simpa using hfits)
    (fun j hj => by simp [Function.update_of_ne hj]) hknows (le_refl _)
    hcounted hstarting hstopping

theorem Inv.lockMove (h : Inv s) {done : Lock.Pc} (hs : s.lockMove i done p = some s')
    (hi : (s.pc i).inLock = true) (hfits : p.fits done = true)
    (hknows : Knows s.owlibState s.running p) (hcounted : p.counted = true → 0 < s.dejaVue) :
    Inv s' := by
  unfold Sys.lockMove at hs
  split at hs
  · rename_i hdone
    cases hs
    refine h.goto (by rwa [hdone]) hknows hcounted ?_ ?_ <;> cases hpc : s.pc i <;>
      rw [hpc] at hi <;> first
      | rfl
      | cases hi
  · obtain ⟨⟨lock, q⟩, hadvance, rfl⟩ := Option.map_eq_some_iff.mp hs
    have hlock := h.lock.advance hadvance
    refine { h with lock := hlock, fits := fun j => ?_ }
    by_cases hj : j = i
    · rw [hj]
      have halive := hlock.alive i
      simp only [Function.update_self] at halive ⊢
      exact fits_advance hi (h.fits i) hadvance halive
    · simpa [Function.update_of_ne hj] using h.fits j

omit [DecidableEq ι] in
/-- `LibSetup` makes a lock that nobody holds. -/
theorem Inv.libSetup (h : Inv s) (hq : Quiet s) (hi : (s.pc i).settingUp = true) :
    Lock.Inv s.libSetup.lock := by
  have houtside : s.lock.pc = fun _ => .outside := by
    funext j
    refine outside_of_atRest (p := s.pc j) ?_ (h.fits j)
    by_cases hj : j = i
    · exact .inr (by rwa [hj])
    · exact .inl (hq i hi j hj)
  show Lock.Inv ⟨Lock.myRwlockInit, s.lock.pc⟩
  rw [houtside]
  exact Lock.inv_init

omit [DecidableEq ι] in
/-- A library whose state does not say that it is started does not run. -/
theorem Inv.notRunning (h : Inv s) (hq : Quiet s) (hrest : (s.pc i).atRest = false)
    (hi : (s.pc i).settingUp = true ∨ s.lock.pc i = .writing)
    (hstarting : (s.pc i).starting = false) (hs : s.owlibState ≠ .started) : s.running = false := by
  cases hr : s.running with
  | false => rfl
  | true =>
    rcases h.running hr with hs' | ⟨j, hj⟩
    · exact absurd hs' hs
    · have hne : j ≠ i := by
        rintro rfl
        rw [hstarting] at hj
        cases hj
      have hwatches := h.others hq hrest hi hne
      rw [watches_of_starting hj] at hwatches
      cases hwatches

/-- A step of a thread that is alone with the state of the library. -/
theorem Inv.changed (h : Inv s) (hq : Quiet s) {lock : Lock.Sys ι} {owlibState : LibState}
    {running viaArgs : Bool} (hrest : (s.pc i).atRest = false)
    (hi : (s.pc i).settingUp = true ∨ s.lock.pc i = .writing) (hlock : Lock.Inv lock)
    (hfits : p.fits (lock.pc i) = true) (hsame : ∀ j ≠ i, lock.pc j = s.lock.pc j)
    (hknows : Knows owlibState running p) (hcounted : p.counted = true → 0 < s.dejaVue)
    (hfresh : s.dejaVue = 0 → owlibState = .pre)
    (hrunning : running = true → owlibState = .started ∨ p.starting = true)
    (hstarted : owlibState = .started → running = true ∨ viaArgs = true ∨ p.stopping = true) :
    Inv ⟨lock, owlibState, running, viaArgs, s.dejaVue, Function.update s.pc i p⟩ := by
  refine h.moved hlock hfits hsame hknows
    (fun j hj => knows_of_not_watches (h.others hq hrest hi hj)) (le_refl _) hcounted
    hfresh (fun hr => ?_) (fun hs => ?_)
  · rcases hrunning hr with hs | hp
    · exact .inl hs
    · exact .inr (.inl hp)
  · rcases hstarted hs with hr | ha | hp
    · exact .inl hr
    · exact .inr (.inl ha)
    · exact .inr (.inr (.inl hp))

theorem Inv.changedLockCall (h : Inv s) (hq : Quiet s) {q : Lock.Pc} {owlibState : LibState}
    {viaArgs : Bool} (hrest : (s.pc i).atRest = false)
    (hi : (s.pc i).settingUp = true ∨ s.lock.pc i = .writing) (hcall : Lock.Starts (s.lock.pc i) q)
    (hfits : p.fits q = true) (hknows : Knows owlibState s.running p)
    (hcounted : p.counted = true → 0 < s.dejaVue) (hfresh : s.dejaVue = 0 → owlibState = .pre)
    (hrunning : s.running = true → owlibState = .started)
    (hstarted : owlibState = .started → s.running = true ∨ viaArgs = true) :
    Inv ({ s with owlibState := owlibState, viaArgs := viaArgs }.lockCall i q p) := by
  refine h.changed hq hrest hi (h.lock.start hcall) ?_ (fun j hj => Function.update_of_ne hj _ _)
    hknows hcounted hfresh
    (fun hr => .inl (hrunning hr)) (fun hs => ?_)
  · dsimp only
    rwa [Function.update_self]
  · rcases hstarted hs with hr | ha
    · exact .inl hr
    · exact .inr (.inl ha)

/-! ### `API_setup` -/

theorem Inv.setupCount (h : Inv s) {good : Bool} {c : InitCall} (hpc : s.pc i = .setupCount c)
    (hs : move s i good = some s') : Inv s' := by
  have hfits := h.fits i
  unfold Api.move at hs
  rw [hpc] at hs hfits
  cases hs
  refine h.still h.lock ?_ (fun _ _ => rfl) ?_ (Nat.le_succ _) (fun _ => Nat.succ_pos _)
    (by rw [hpc]; rfl)
    (by rw [hpc]; rfl)
  · split <;> exact hfits
  · split
    · exact h.fresh (by omega)
    · trivial

theorem Inv.setupLib (h : Inv s) (hq : Quiet s) {good : Bool} {c : InitCall}
    (hpc : s.pc i = .setupLib c) (hs : move s i good = some s') : Inv s' := by
  have hfits := h.fits i
  have hknows := h.knows i
  have hcounted := h.counted i
  unfold Api.move at hs
  rw [hpc] at hs hfits hknows hcounted
  cases hs
  exact h.still (h.libSetup hq (by rw [hpc]; rfl)) hfits (fun _ _ => rfl) hknows (le_refl _)
    (fun _ => hcounted rfl)
    (by rw [hpc]; rfl) (by rw [hpc]; rfl)

theorem Inv.setupState (h : Inv s) (hq : Quiet s) {good : Bool} {c : InitCall}
    (hpc : s.pc i = .setupState c) (hs : move s i good = some s') : Inv s' := by
  have hfits := h.fits i
  have hknows := h.knows i
  have hcounted := h.counted i
  unfold Api.move at hs
  rw [hpc] at hs hfits hknows hcounted
  cases hs
  have hrunning := h.notRunning hq (by rw [hpc]; rfl) (.inl (by rw [hpc]; rfl)) (by rw [hpc]; rfl)
    (by rw [hknows]; exact nofun)
  refine h.changed hq (by rw [hpc]; rfl) (.inl (by rw [hpc]; rfl)) h.lock hfits (fun _ _ => rfl)
    trivial
    (fun _ => hcounted rfl) (fun hd => absurd (hcounted rfl) (by omega)) (fun hr => ?_) nofun
  rw [hrunning] at hr
  cases hr

/-! ### `API_init` and `API_init_args` -/

theorem Inv.initTest (h : Inv s) {good : Bool} {c : InitCall} (hpc : s.pc i = .initTest c)
    (hs : move s i good = some s') : Inv s' := by
  have hfits := h.fits i
  have hcounted := h.counted i
  unfold Api.move at hs
  rw [hpc] at hs hfits hcounted
  dsimp only at hs
  split at hs
  · rename_i hpre
    cases hs
    exact h.goto hfits hpre (fun _ => hcounted rfl) (by rw [hpc]; rfl) (by rw [hpc]; rfl)
  · cases hs
    refine h.lockCall ?_ rfl trivial (fun _ => hcounted rfl) (by rw [hpc]; rfl) (by rw [hpc]; rfl)
    rw [of_decide_eq_true hfits]
    exact .writeLock

theorem Inv.initLib (h : Inv s) (hq : Quiet s) {good : Bool} {c : InitCall}
    (hpc : s.pc i = .initLib c) (hs : move s i good = some s') : Inv s' := by
  have hfits := h.fits i
  have hknows := h.knows i
  have hcounted := h.counted i
  unfold Api.move at hs
  rw [hpc] at hs hfits hknows hcounted
  cases hs
  exact h.still (h.libSetup hq (by rw [hpc]; rfl)) hfits (fun _ _ => rfl) hknows (le_refl _)
    (fun _ => hcounted rfl)
    (by rw [hpc]; rfl) (by rw [hpc]; rfl)

theorem Inv.initState (h : Inv s) (hq : Quiet s) {good : Bool} {c : InitCall}
    (hpc : s.pc i = .initState c) (hs : move s i good = some s') : Inv s' := by
  have hfits := h.fits i
  have hknows := h.knows i
  have hcounted := h.counted i
  unfold Api.move at hs
  rw [hpc] at hs hfits hknows hcounted
  cases hs
  have hrunning := h.notRunning hq (by rw [hpc]; rfl) (.inl (by rw [hpc]; rfl)) (by rw [hpc]; rfl)
    (by rw [hknows]; exact nofun)
  refine h.changedLockCall hq (by rw [hpc]; rfl) (.inl (by rw [hpc]; rfl)) ?_ rfl trivial
    (fun _ => hcounted rfl)
    (fun hd => absurd (hcounted rfl) (by omega)) (fun hr => ?_) nofun
  · rw [of_decide_eq_true hfits]
    exact .writeLock
  · rw [hrunning] at hr
    cases hr

theorem Inv.initLock (h : Inv s) {good : Bool} {c : InitCall} (hpc : s.pc i = .initLock c)
    (hs : move s i good = some s') : Inv s' := by
  have hcounted := h.counted i
  unfold Api.move at hs
  rw [hpc] at hs hcounted
  exact h.lockMove hs (by rw [hpc]; rfl) rfl trivial (fun _ => hcounted rfl)

theorem Inv.initCheck (h : Inv s) {good : Bool} {c : InitCall} (hpc : s.pc i = .initCheck c)
    (hs : move s i good = some s') : Inv s' := by
  have hfits := h.fits i
  have hcounted := h.counted i
  unfold Api.move at hs
  rw [hpc] at hs hfits hcounted
  have hwriting := of_decide_eq_true hfits
  have hunlock : Inv (s.writeUnlock i (.initUnlock true)) := by
    refine h.lockCall ?_ rfl trivial nofun (by rw [hpc]; rfl) (by rw [hpc]; rfl)
    rw [hwriting]
    exact .writeUnlock
  dsimp only at hs
  split at hs <;> cases hs
  · exact hunlock
  · rename_i hstate _
    exact h.goto hfits hstate (fun _ => hcounted rfl) (by rw [hpc]; rfl) (by rw [hpc]; rfl)
  · rename_i hstate
    exact h.goto hfits hstate (fun _ => hcounted rfl) (by rw [hpc]; rfl) (by rw [hpc]; rfl)
  · exact hunlock

theorem Inv.initStop (h : Inv s) (hq : Quiet s) {good : Bool} {c : InitCall}
    (hpc : s.pc i = .initStop c) (hs : move s i good = some s') : Inv s' := by
  have hfits := h.fits i
  have hknows := h.knows i
  have hcounted := h.counted i
  unfold Api.move at hs
  rw [hpc] at hs hfits hknows hcounted
  cases hs
  exact h.changed hq (by rw [hpc]; rfl) (.inr (of_decide_eq_true hfits)) h.lock hfits
    (fun _ _ => rfl) ⟨hknows, rfl⟩
    (fun _ => hcounted rfl) h.fresh nofun (fun _ => .inr (.inr rfl))

theorem Inv.initStopped (h : Inv s) (hq : Quiet s) {good : Bool} {c : InitCall}
    (hpc : s.pc i = .initStopped c) (hs : move s i good = some s') : Inv s' := by
  have hfits := h.fits i
  have hknows := h.knows i
  have hcounted := h.counted i
  unfold Api.move at hs
  rw [hpc] at hs hfits hknows hcounted
  cases hs
  refine h.changed hq (by rw [hpc]; rfl) (.inr (of_decide_eq_true hfits)) h.lock hfits
    (fun _ _ => rfl) rfl
    (fun _ => hcounted rfl) (fun hd => absurd (hcounted rfl) (by omega)) (fun hr => ?_) nofun
  rw [hknows.2] at hr
  cases hr

theorem Inv.initStart (h : Inv s) (hq : Quiet s) {good : Bool} {c : InitCall}
    (hpc : s.pc i = .initStart c) (hs : move s i good = some s') : Inv s' := by
  have hfits := h.fits i
  have hknows := h.knows i
  have hcounted := h.counted i
  unfold Api.move at hs
  rw [hpc] at hs hfits hknows hcounted
  have hwriting := of_decide_eq_true hfits
  dsimp only at hs
  split at hs <;> cases hs
  · refine h.changed hq (by rw [hpc]; rfl) (.inr hwriting) h.lock hfits (fun _ _ => rfl)
      ⟨hknows, ?_⟩
      (fun _ => hcounted rfl) h.fresh (fun _ => .inr rfl) (fun hstarted => ?_)
    · cases c.fromArgs <;> simp
    · rw [show s.owlibState = .setup from hknows] at hstarted
      cases hstarted
  · refine h.lockCall ?_ rfl trivial nofun (by rw [hpc]; rfl) (by rw [hpc]; rfl)
    rw [hwriting]
    exact .writeUnlock

theorem Inv.initStarted (h : Inv s) (hq : Quiet s) {good : Bool} {c : InitCall}
    (hpc : s.pc i = .initStarted c) (hs : move s i good = some s') : Inv s' := by
  have hfits := h.fits i
  have hknows := h.knows i
  have hcounted := h.counted i
  unfold Api.move at hs
  rw [hpc] at hs hfits hknows hcounted
  cases hs
  refine h.changedLockCall hq (by rw [hpc]; rfl) (.inr (of_decide_eq_true hfits)) ?_ rfl trivial
    nofun
    (fun hd => absurd (hcounted rfl) (by omega)) (fun _ => rfl) (fun _ => hknows.2)
  rw [of_decide_eq_true hfits]
  exact .writeUnlock

theorem Inv.initUnlock (h : Inv s) {good : Bool} {result : Bool} (hpc : s.pc i = .initUnlock result)
    (hs : move s i good = some s') : Inv s' := by
  unfold Api.move at hs
  rw [hpc] at hs
  refine h.lockMove hs (by rw [hpc]; rfl) ?_ ?_ ?_ <;> cases result <;> first
    | rfl
    | trivial
    | exact nofun

/-! ### `API_finish` -/

theorem Inv.finishTest (h : Inv s) {good : Bool} (hpc : s.pc i = .finishTest)
    (hs : move s i good = some s') : Inv s' := by
  have hfits := h.fits i
  unfold Api.move at hs
  rw [hpc] at hs hfits
  dsimp only at hs
  split at hs <;> cases hs
  · exact h.goto hfits trivial nofun (by rw [hpc]; rfl) (by rw [hpc]; rfl)
  · refine h.lockCall ?_ rfl trivial nofun (by rw [hpc]; rfl) (by rw [hpc]; rfl)
    rw [of_decide_eq_true hfits]
    exact .writeLock

theorem Inv.finishLock (h : Inv s) {good : Bool} (hpc : s.pc i = .finishLock)
    (hs : move s i good = some s') : Inv s' := by
  unfold Api.move at hs
  rw [hpc] at hs
  exact h.lockMove hs (by rw [hpc]; rfl) rfl trivial nofun

theorem Inv.finishStop (h : Inv s) (hq : Quiet s) {good : Bool} (hpc : s.pc i = .finishStop)
    (hs : move s i good = some s') : Inv s' := by
  have hfits := h.fits i
  unfold Api.move at hs
  rw [hpc] at hs hfits
  cases hs
  exact h.changed hq (by rw [hpc]; rfl) (.inr (of_decide_eq_true hfits)) h.lock hfits
    (fun _ _ => rfl) rfl nofun h.fresh
    nofun (fun _ => .inr (.inr rfl))

theorem Inv.finishState (h : Inv s) (hq : Quiet s) {good : Bool} (hpc : s.pc i = .finishState)
    (hs : move s i good = some s') : Inv s' := by
  have hfits := h.fits i
  have hknows := h.knows i
  unfold Api.move at hs
  rw [hpc] at hs hfits hknows
  cases hs
  refine h.changedLockCall hq (by rw [hpc]; rfl) (.inr (of_decide_eq_true hfits)) ?_ rfl trivial
    nofun (fun _ => rfl)
    (fun hr => ?_) nofun
  · rw [of_decide_eq_true hfits]
    exact .writeUnlock
  · rw [show s.running = false from hknows] at hr
    cases hr

theorem Inv.finishUnlock (h : Inv s) {good : Bool} (hpc : s.pc i = .finishUnlock)
    (hs : move s i good = some s') : Inv s' := by
  unfold Api.move at hs
  rw [hpc] at hs
  exact h.lockMove hs (by rw [hpc]; rfl) rfl trivial nofun

/-! ### `API_access_start`, a request and `API_access_end` -/

theorem Inv.accessTest (h : Inv s) {good : Bool} (hpc : s.pc i = .accessTest)
    (hs : move s i good = some s') : Inv s' := by
  have hfits := h.fits i
  unfold Api.move at hs
  rw [hpc] at hs hfits
  dsimp only at hs
  split at hs <;> cases hs
  · exact h.goto hfits trivial nofun (by rw [hpc]; rfl) (by rw [hpc]; rfl)
  · refine h.lockCall ?_ rfl trivial nofun (by rw [hpc]; rfl) (by rw [hpc]; rfl)
    rw [of_decide_eq_true hfits]
    exact .readLock

theorem Inv.accessLock (h : Inv s) {good : Bool} (hpc : s.pc i = .accessLock)
    (hs : move s i good = some s') : Inv s' := by
  unfold Api.move at hs
  rw [hpc] at hs
  exact h.lockMove hs (by rw [hpc]; rfl) rfl trivial nofun

theorem Inv.accessCheck (h : Inv s) {good : Bool} (hpc : s.pc i = .accessCheck)
    (hs : move s i good = some s') : Inv s' := by
  have hfits := h.fits i
  unfold Api.move at hs
  rw [hpc] at hs hfits
  dsimp only at hs
  split at hs <;> cases hs
  · refine h.lockCall ?_ rfl trivial nofun (by rw [hpc]; rfl) (by rw [hpc]; rfl)
    rw [of_decide_eq_true hfits]
    exact .readUnlock
  · rename_i hstate
    exact h.goto hfits (not_not.mp hstate) nofun (by rw [hpc]; rfl) (by rw [hpc]; rfl)

theorem Inv.accessing (h : Inv s) {good : Bool} (hpc : s.pc i = .accessing)
    (hs : move s i good = some s') : Inv s' := by
  have hfits := h.fits i
  unfold Api.move at hs
  rw [hpc] at hs hfits
  cases hs
  refine h.lockCall ?_ rfl trivial nofun (by rw [hpc]; rfl) (by rw [hpc]; rfl)
  rw [of_decide_eq_true hfits]
  exact .readUnlock

theorem Inv.accessUnlock (h : Inv s) {good : Bool} (hpc : s.pc i = .accessUnlock)
    (hs : move s i good = some s') : Inv s' := by
  unfold Api.move at hs
  rw [hpc] at hs
  exact h.lockMove hs (by rw [hpc]; rfl) rfl trivial nofun

theorem Inv.move (h : Inv s) (hq : Quiet s) {good : Bool} (hs : move s i good = some s') :
    Inv s' := by
  cases hpc : s.pc i with
  | outside | initialised =>
    unfold Api.move at hs
    rw [hpc] at hs
    cases hs
  | setupCount c => exact h.setupCount hpc hs
  | setupLib c => exact h.setupLib hq hpc hs
  | setupState c => exact h.setupState hq hpc hs
  | initTest c => exact h.initTest hpc hs
  | initLib c => exact h.initLib hq hpc hs
  | initState c => exact h.initState hq hpc hs
  | initLock c => exact h.initLock hpc hs
  | initCheck c => exact h.initCheck hpc hs
  | initStop c => exact h.initStop hq hpc hs
  | initStopped c => exact h.initStopped hq hpc hs
  | initStart c => exact h.initStart hq hpc hs
  | initStarted c => exact h.initStarted hq hpc hs
  | initUnlock result => exact h.initUnlock hpc hs
  | finishTest => exact h.finishTest hpc hs
  | finishLock => exact h.finishLock hpc hs
  | finishStop => exact h.finishStop hq hpc hs
  | finishState => exact h.finishState hq hpc hs
  | finishUnlock => exact h.finishUnlock hpc hs
  | accessTest => exact h.accessTest hpc hs
  | accessLock => exact h.accessLock hpc hs
  | accessCheck => exact h.accessCheck hpc hs
  | accessing => exact h.accessing hpc hs
  | accessUnlock => exact h.accessUnlock hpc hs

theorem Inv.step (h : Inv s) (hq : Quiet s) {e : Event ι} (hs : step s e = some s') : Inv s' := by
  cases e with
  | move i good => exact h.move hq hs
  | call i c =>
    rw [Api.step] at hs
    split at hs
    · rename_i hrest
      cases hs
      have hfits : c.first.fits (s.lock.pc i) = true := by
        rw [outside_of_atRest (.inl hrest) (h.fits i)]
        cases c <;> rfl
      have hcalm : (s.pc i).starting = false ∧ (s.pc i).stopping = false := by
        cases hpc : s.pc i <;> rw [hpc] at hrest <;> first
          | exact ⟨rfl, rfl⟩
          | cases hrest
      exact h.goto hfits (by cases c <;> trivial) (by cases c <;> exact nofun) hcalm.1 hcalm.2
    · cases hs

omit [DecidableEq ι] in
/-- What follows from the invariant. -/
theorem Inv.safe (h : Inv s) (hq : Quiet s) : Safe s where
  served := by
    intro i hi
    have hknows := h.knows i
    have hfits := h.fits i
    rw [hi] at hknows hfits
    refine ⟨hknows, ?_⟩
    rcases h.started hknows with hr | ha | ⟨j, hj⟩
    · exact .inl hr
    · exact .inr ha
    · -- who stops the library holds the lock as a writer
      have hwriting : s.lock.pc j = .writing := by
        have hfits' := h.fits j
        cases hpc : s.pc j <;> rw [hpc] at hj hfits' <;> first
          | exact of_decide_eq_true hfits'
          | cases hj
      have heq : i = j := h.lock.writer_alone hwriting (by rw [of_decide_eq_true hfits]; rfl)
      rw [← heq, hi] at hj
      cases hj
  alone := by
    intro i j hi hj
    by_contra hne
    have hi' : (s.pc i).atRest = false := not_atRest (.inl hi)
    have hj' : (s.pc j).atRest = false := not_atRest hj
    rcases inside_of_changing hj (h.fits j) with hset | hinside
    · rw [hq j hset i (Ne.symm hne)] at hi'
      cases hi'
    · rcases writing_of_changing hi (h.fits i) with hset | hwriting
      · rw [hq i hset j hne] at hj'
        cases hj'
      · exact hne (h.lock.writer_alone hwriting hinside)
  stopped := by
    intro i c hi
    have hfits := h.fits i
    have hknows := h.knows i
    rw [hi] at hfits hknows
    exact h.notRunning hq (by rw [hi]; rfl) (.inr (of_decide_eq_true hfits)) (by rw [hi]; rfl)
      (by rw [show s.owlibState = .setup from hknows]; exact nofun)
  alive := h.lock.alive

/-- Where others keep out of the library while it is set up, it is safe. -/
theorem safe_of_quiet {es : List (Event ι)} (h : Throughout step Quiet (Sys.start ι) es) :
    Throughout step Safe (Sys.start ι) es :=
  Throughout.invariant (fun hinv hq => hinv.safe hq) (fun hinv hq hs => hinv.step hq hs) inv_start h

end

/-! ## Where it is not enough -/

instance [Fintype ι] : DecidablePred (@Quiet ι) := fun s =>
  inferInstanceAs (Decidable (∀ i, (s.pc i).settingUp = true → ∀ j, j ≠ i → (s.pc j).atRest = true))

/-- The library after all events, if all can be made. -/
def Sys.run (s : Sys ι) (es : List (Event ι)) : Option (Sys ι) := es.foldlM step s

/-- A call and its next steps, all of which are successful. -/
def calls (i : ι) (c : Call) (n : Nat) : List (Event ι) :=
  .call i c :: List.replicate n (.move i true)

/-- One thread has started the library with `OW_init_args` and reads. -/
def argsRun : List (Event Bool) :=
  calls true (.owInit ⟨true, .restartIfRepeat⟩) 13 ++ calls true .owAccess 9

/-- `OW_finish` of the one thread comes between the test and the lock of the other one's
`OW_init`. -/
def finishedRun : List (Event Bool) :=
  calls false (.owInit ⟨false, .restartIfRepeat⟩) 13 ++
    calls true (.owInit ⟨false, .restartIfRepeat⟩) 2 ++
    calls false .owFinish 9 ++ List.replicate 7 (.move true true)

/-- `OW_init` of the one thread makes the lock anew while the other one still has to give it
back. -/
def brokenRun : List (Event Bool) :=
  calls false (.owInit ⟨false, .restartIfRepeat⟩) 13 ++ calls false .owFinish 6 ++
    calls true (.owInit ⟨false, .restartIfRepeat⟩) 13 ++ List.replicate 3 (.move false true) ++
    calls false .owAccess 9 ++ calls true (.owInit ⟨false, .restartIfRepeat⟩) 6

theorem exists_run {es : List (Event Bool)} {P : Sys Bool → Prop} [DecidablePred P]
    (h : ((Sys.start Bool).run es).any (fun s => decide (P s)) = true) :
    ∃ s, (Sys.start Bool).run es = some s ∧ P s := by
  obtain ⟨s, hs, hp⟩ := (Option.any_eq_true _ _).mp h
  exact ⟨s, hs, of_decide_eq_true hp⟩

/-- **Starting and stopping.** If other threads keep out of the library while `LibSetup` is called,
then in every run of any threads a request is served by a library that was started, `LibSetup`,
`LibStart` and `LibStop` are called by one thread alone and with no request under way, and nothing
is started twice.

But `OW_init_args` returns 0 and lets requests in without `LibStart`, `OW_init` returns 0 although
`OW_finish` was faster and nothing is started, and when it calls `LibSetup` while another thread is
still in `OW_finish`, the library can be stopped under a request. -/
theorem lifecycle [Fintype ι] :
    (∀ es : List (Event ι), Throughout step Quiet (Sys.start ι) es →
      Throughout step Safe (Sys.start ι) es) ∧
    (∃ es, Throughout step Quiet (Sys.start Bool) es ∧
      ∃ s, (Sys.start Bool).run es = some s ∧ s.pc true = .accessing ∧ s.running = false) ∧
    (∃ es, Throughout step Quiet (Sys.start Bool) es ∧
      ∃ s, (Sys.start Bool).run es = some s ∧ s.pc true = .initialised ∧ s.pc false = .outside ∧
      s.owlibState = .pre) ∧
    ∃ es s, (Sys.start Bool).run es = some s ∧ s.pc true = .initStop ⟨false, .restartIfRepeat⟩ ∧
      s.pc false = .accessing :=
  ⟨fun _ => safe_of_quiet, ⟨argsRun, by decide +kernel, exists_run (by decide +kernel)⟩,
    ⟨finishedRun, by decide +kernel, exists_run (by decide +kernel)⟩,
    ⟨brokenRun, exists_run (by decide +kernel)⟩⟩

end Owfs.Api
