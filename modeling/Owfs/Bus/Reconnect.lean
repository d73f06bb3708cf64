import Owfs.Infra.Threads

/-!
# Reconnection of a bus master

`BUS_reset` counts in `in->reconnect_state` how often a reset has failed, and `TestConnection`
closes and reopens a bus that has failed too often. It looks at the count before it locks the bus
("Test without a lock -- efficient") and once more behind the lock. Here are the threads that test
and use one bus, each of which takes one step at a time: what is done between a lock and the unlock
is done alone, but the first test is not, and `FS_w_reconnect` and `To_Server` change the count
without the lock of the bus.

The history keeps what has happened to the bus, the last thing first. It is not in the source.
-/

namespace Owfs.Reconnect

open Infra

/-! ## The code -/

/-- `RESET_TYPE` -/
inductive ResetType where
  | ok | short | error
deriving DecidableEq

/-- `reconnect_error` -/
def reconnectError : Nat := 2

/-- The part of `struct connection_in` that `BUS_reset` looks at: whether there is a reset routine,
and `ds2404_found`. -/
structure Connection where
  resetRoutine : Bool
  ds2404Found : Bool

/-- `BUS_reset`, with the answers of the reset routine to its calls: the result, and
`reconnect_state` behind it. -/
def busReset (bus : Connection) (first second : ResetType) (reconnectState : Nat) :
    ResetType × Nat :=
  if bus.resetRoutine then
    match first with
    | .ok => (.ok, 0)
    | .short => (.short, reconnectState)
    | .error => if bus.ds2404Found ∧ second = .ok then (.ok, reconnectState)
        else (.error, reconnectState + 1)
  else (.ok, reconnectState)

/-- What happens to a bus. -/
inductive Happening where
  | reset (bus : Connection) (first second : ResetType)
  /-- `BUS_close` in `TestConnection` -/
  | closed
  /-- the reconnect routine or `BUS_detect` has returned -/
  | reconnected (good : Bool)
  /-- `reconnect_state` is set to `reconnect_error` or `reconnect_ok`, as by `FS_w_reconnect` -/
  | set (bad : Bool)
  /-- `To_Server` gets no connection -/
  | unconnected

/-- Where a thread is. `since` is the length of the history when `TestConnection` was called. -/
inductive Pc where
  | outside
  /-- before "Test without a lock" -/
  | testing (since : Nat)
  /-- before `BUSLOCK` -/
  | locking (since : Nat)
  /-- before "Test again" -/
  | again (since : Nat)
  /-- behind `BUS_close` -/
  | closed (since : Nat)
  /-- before `BUSUNLOCK` -/
  | unlocking (since : Nat) (ret : Bool)
  /-- `TestConnection` has returned -/
  | tested (since : Nat) (ret : Bool)
  /-- before the `BUSLOCK` of a transaction -/
  | waiting
  /-- the bus is locked for a transaction -/
  | inside

/-- A bus and its threads. -/
structure Sys (ι : Type) where
  reconnectState : Nat
  busLock : Option ι
  pc : ι → Pc
  past : List Happening

/-- Has the lock of the bus. -/
def Pc.holds : Pc → Bool
  | .again _ | .closed _ | .unlocking _ _ | .inside => true
  | _ => false

/-- In no call. -/
def Pc.atRest : Pc → Bool
  | .outside | .tested _ _ => true
  | _ => false

/-- Has closed the bus. -/
def Pc.isClosed : Pc → Bool
  | .closed _ => true
  | _ => false

variable {ι : Type} [DecidableEq ι]

def Sys.goto (s : Sys ι) (i : ι) (next : Pc) : Sys ι := { s with pc := Function.update s.pc i next }

/-- One thread takes one step. Three things that the code does one after another are one step here:
the test of the count behind the lock with the `BUS_close` after it, a reset with the counting of
its failure, and the reading and writing of `++`. -/
inductive Step : Sys ι → Sys ι → Prop
  | test (s : Sys ι) (i : ι) : (s.pc i).atRest = true → Step s (s.goto i (.testing s.past.length))
  | good (s : Sys ι) (i : ι) (since : Nat) : s.pc i = .testing since →
      s.reconnectState < reconnectError →
      Step s (s.goto i (.tested since true))
  | bad (s : Sys ι) (i : ι) (since : Nat) : s.pc i = .testing since →
      ¬s.reconnectState < reconnectError →
      Step s (s.goto i (.locking since))
  | lock (s : Sys ι) (i : ι) (since : Nat) : s.pc i = .locking since → s.busLock = none →
      Step s ({ s with busLock := some i }.goto i (.again since))
  | goodAgain (s : Sys ι) (i : ι) (since : Nat) : s.pc i = .again since →
      ¬s.reconnectState ≥ reconnectError →
      Step s (s.goto i (.unlocking since true))
  | badAgain (s : Sys ι) (i : ι) (since : Nat) : s.pc i = .again since →
      s.reconnectState ≥ reconnectError →
      Step s ({ s with past := .closed :: s.past }.goto i (.closed since))
  /-- a failure leaves `reconnect_ok + 1` -/
  | reconnect (s : Sys ι) (i : ι) (since : Nat) (ret : Bool) : s.pc i = .closed since →
      Step s ({ s with
        reconnectState := if ret then 0 else 1
        past := .reconnected ret :: s.past }.goto i (.unlocking since ret))
  | unlock (s : Sys ι) (i : ι) (since : Nat) (ret : Bool) : s.pc i = .unlocking since ret →
      Step s ({ s with busLock := none }.goto i (.tested since ret))
  | use (s : Sys ι) (i : ι) : (s.pc i).atRest = true → Step s (s.goto i .waiting)
  | enter (s : Sys ι) (i : ι) : s.pc i = .waiting → s.busLock = none →
      Step s ({ s with busLock := some i }.goto i .inside)
  /-- a routine that reconnects may reset the bus as well -/
  | reset (s : Sys ι) (i : ι) (bus : Connection) (first second : ResetType) :
      s.pc i = .inside ∨ (s.pc i).isClosed = true →
      Step s { s with
        reconnectState := (busReset bus first second s.reconnectState).2
        past := .reset bus first second :: s.past }
  | leave (s : Sys ι) (i : ι) : s.pc i = .inside →
      Step s ({ s with busLock := none }.goto i .outside)
  /-- at any time, with the lock or without it -/
  | set (s : Sys ι) (bad : Bool) :
      Step s { s with
        reconnectState := if bad then reconnectError else 0
        past := .set bad :: s.past }
  | unconnected (s : Sys ι) :
      Step s { s with reconnectState := s.reconnectState + 1, past := .unconnected :: s.past }

/-- A bus that was just detected. -/
def Sys.start : Sys ι := ⟨0, none, fun _ => .outside, []⟩

def Reachable (s : Sys ι) : Prop := Relation.ReflTransGen Step Sys.start s

/-! ## The history -/

/-- A reset that counts as a failure, a count that was set, or a server that is not there. -/
def Happening.IsBad : Happening → Prop
  | .reset bus first second => (busReset bus first second 0).1 = .error
  | .set bad => bad = true
  | .unconnected => True
  | .closed => False
  | .reconnected _ => False

/-- The failures since the bus was good for the last time. A reconnection that fails is one of
them. -/
def failures : List Happening → Nat
  | [] => 0
  | .reset bus first second :: past => (busReset bus first second (failures past)).2
  | .closed :: past => failures past
  | .reconnected ret :: _ => if ret then 0 else 1
  | .set bad :: _ => if bad then reconnectError else 0
  | .unconnected :: past => failures past + 1

/-- The bus is closed. -/
def pending : List Happening → Bool
  | [] => false
  | .closed :: _ => true
  | .reconnected _ :: _ => false
  | .reset _ _ _ :: past => pending past
  | .set _ :: past => pending past
  | .unconnected :: past => pending past

/-- The bus was closed only when it was open and had failed too often. -/
def Justified : List Happening → Prop
  | [] => True
  | .closed :: past => reconnectError ≤ failures past ∧ pending past = false ∧ Justified past
  | .reconnected _ :: past => Justified past
  | .reset _ _ _ :: past => Justified past
  | .set _ :: past => Justified past
  | .unconnected :: past => Justified past

theorem busReset_le {bus : Connection} {first second : ResetType}
    (h : (busReset bus first second 0).1 ≠ .error) (n : Nat) :
    (busReset bus first second n).2 ≤ n := by
  unfold busReset at *
  cases first <;> grind

theorem Justified.split {newer older : List Happening} (h : Justified (newer ++ .closed :: older)) :
    reconnectError ≤ failures older ∧ pending older = false := by
  induction newer with
  | nil => exact ⟨h.1, h.2.1⟩
  | cons x newer ih =>
    cases x with
    | closed => exact ih h.2.2
    | reconnected ret => exact ih h
    | reset bus first second => exact ih h
    | set bad => exact ih h
    | unconnected => exact ih h

/-- A bus that was closed is not open again without a reconnection. -/
theorem exists_reconnected {mid older : List Happening}
    (h : pending (mid ++ .closed :: older) = false) :
    ∃ ret, .reconnected ret ∈ mid := by
  induction mid with
  | nil => cases h
  | cons x mid ih =>
    cases x with
    | closed => cases h
    | reconnected ret => exact ⟨ret, List.mem_cons_self⟩
    | reset bus first second =>
      obtain ⟨ret, hmem⟩ := ih h
      exact ⟨ret, List.mem_cons_of_mem _ hmem⟩
    | set bad =>
      obtain ⟨ret, hmem⟩ := ih h
      exact ⟨ret, List.mem_cons_of_mem _ hmem⟩
    | unconnected =>
      obtain ⟨ret, hmem⟩ := ih h
      exact ⟨ret, List.mem_cons_of_mem _ hmem⟩

/-- Behind a reconnection there is at most one failure, if nothing bad has happened since. -/
theorem failures_le_one {mid older : List Happening} {ret : Bool} (hmem : .reconnected ret ∈ mid)
    (hgood : ∀ x ∈ mid, ¬x.IsBad) : failures (mid ++ older) ≤ 1 := by
  induction mid with
  | nil => cases hmem
  | cons x mid ih =>
    have hrest : ∀ x ∈ mid, ¬x.IsBad := fun y hy => hgood y (List.mem_cons_of_mem x hy)
    have hx := hgood x List.mem_cons_self
    cases x with
    | reconnected ret' =>
      show (if ret' then 0 else 1) ≤ 1
      split <;> omega
    | closed => exact ih (List.mem_of_ne_of_mem (by simp) hmem) hrest
    | reset bus first second =>
      exact (busReset_le hx _).trans (ih (List.mem_of_ne_of_mem (by simp) hmem) hrest)
    | set bad =>
      cases bad with
      | false => exact Nat.zero_le 1
      | true => exact absurd rfl hx
    | unconnected => exact absurd trivial hx

/-! ## The invariant -/

/-- What a thread knows where it stands: its test began at `since`, and was good because the bus was
good at some time since then, or bad because the bus could not be reconnected since then. -/
def Knows (past : List Happening) : Pc → Prop
  | .testing since | .locking since | .again since | .closed since => since ≤ past.length
  | .unlocking since true | .tested since true =>
    ∃ newer older, past = newer ++ older ∧ since ≤ older.length ∧ failures older < reconnectError
  | .unlocking since false | .tested since false =>
    ∃ newer older, past = newer ++ .reconnected false :: older ∧ since ≤ older.length
  | .outside | .waiting | .inside => True

theorem Knows.cons {past : List Happening} {pc : Pc} (h : Knows past pc) (x : Happening) :
    Knows (x :: past) pc := by
  have hlength : ∀ since, since ≤ past.length → since ≤ (x :: past).length :=
    fun _ hle => Nat.le_succ_of_le hle
  have hgood : ∀ since,
      (∃ newer older, past = newer ++ older ∧ since ≤ older.length ∧
      failures older < reconnectError) →
      ∃ newer older, x :: past = newer ++ older ∧ since ≤ older.length ∧
      failures older < reconnectError := by
    rintro since ⟨newer, older, rfl, hle, hlt⟩
    exact ⟨x :: newer, older, rfl, hle, hlt⟩
  have hbad : ∀ since,
      (∃ newer older, past = newer ++ .reconnected false :: older ∧ since ≤ older.length) →
      ∃ newer older, x :: past = newer ++ .reconnected false :: older ∧ since ≤ older.length := by
    rintro since ⟨newer, older, rfl, hle⟩
    exact ⟨x :: newer, older, rfl, hle⟩
  cases pc with
  | testing since => exact hlength since h
  | locking since => exact hlength since h
  | again since => exact hlength since h
  | closed since => exact hlength since h
  | unlocking since ret =>
    cases ret with
    | true => exact hgood since h
    | false => exact hbad since h
  | tested since ret =>
    cases ret with
    | true => exact hgood since h
    | false => exact hbad since h
  | outside => trivial
  | waiting => trivial
  | inside => trivial

structure Inv (s : Sys ι) : Prop where
  count : s.reconnectState = failures s.past
  held : Held s.busLock fun i => (s.pc i).holds
  closed : pending s.past = true ↔ ∃ i, (s.pc i).isClosed = true
  justified : Justified s.past
  knows : ∀ i, Knows s.past (s.pc i)

variable {s s' : Sys ι} {i : ι} {next : Pc}

theorem Pc.holds_of_isClosed {pc : Pc} (h : pc.isClosed = true) : pc.holds = true := by
  cases pc <;> first | rfl | cases h

omit [DecidableEq ι] in
theorem inv_start : Inv (Sys.start : Sys ι) where
  count := rfl
  held := fun i => ⟨fun h => (by cases h), fun h => (by cases h)⟩
  closed := ⟨fun h => (by cases h), fun ⟨_, h⟩ => (by cases h)⟩
  justified := trivial
  knows := fun _ => trivial

/-- Nobody else has the lock. -/
theorem Inv.alone (h : Inv s) (hi : (s.pc i).holds = true) {j : ι} (hj : (s.pc j).holds = true) :
    j = i := by
  by_contra hne
  have := h.held.other hi hne
  rw [hj] at this
  cases this

/-- The bus is open if the thread that has the lock has not closed it. -/
theorem Inv.open (h : Inv s) (hi : (s.pc i).holds = true) (hopen : (s.pc i).isClosed = false) :
    pending s.past = false := by
  cases hp : pending s.past with
  | false => rfl
  | true =>
    obtain ⟨j, hj⟩ := h.closed.mp hp
    rw [h.alone hi (Pc.holds_of_isClosed hj), hopen] at hj
    cases hj

/-- A thread moves, and nothing happens to the bus. -/
theorem Inv.goto (h : Inv s) (lock : Option ι)
    (hheld : Held lock fun j => ((Function.update s.pc i next) j).holds)
    (hopen : (s.pc i).isClosed = false) (hnext : next.isClosed = false)
    (hknows : Knows s.past next) : Inv ({ s with busLock := lock }.goto i next) where
  count := h.count
  held := hheld
  closed := by
    refine h.closed.trans ⟨fun ⟨j, hj⟩ => ⟨j, ?_⟩, fun ⟨j, hj⟩ => ⟨j, ?_⟩⟩
    · have hne : j ≠ i := by
        rintro rfl
        rw [hopen] at hj
        cases hj
      show ((Function.update s.pc i next) j).isClosed = true
      rwa [Function.update_of_ne hne]
    · change ((Function.update s.pc i next) j).isClosed = true at hj
      have hne : j ≠ i := by
        rintro rfl
        rw [Function.update_self, hnext] at hj
        cases hj
      rwa [Function.update_of_ne hne] at hj
  justified := h.justified
  knows := by
    intro j
    show Knows s.past ((Function.update s.pc i next) j)
    by_cases hj : j = i
    · rw [hj, Function.update_self]
      exact hknows
    · rw [Function.update_of_ne hj]
      exact h.knows j

theorem holds_update {pc : ι → Pc} {j : ι} (hne : j ≠ i) :
    ((Function.update pc i next) j).holds = (pc j).holds := by
  rw [Function.update_of_ne hne]

theorem holds_update_self (pc : ι → Pc) (i : ι) (next : Pc) :
    ((Function.update pc i next) i).holds = next.holds := by
  rw [Function.update_self]

/-- The lock stays where it is. -/
theorem Inv.stay (h : Inv s) (hholds : next.holds = (s.pc i).holds)
    (hopen : (s.pc i).isClosed = false) (hnext : next.isClosed = false)
    (hknows : Knows s.past next) : Inv (s.goto i next) := by
  refine h.goto s.busLock (h.held.congr fun j => ?_) hopen hnext hknows
  by_cases hj : j = i
  · rw [hj, holds_update_self, hholds]
  · exact holds_update hj

theorem Inv.acquire (h : Inv s) (hlock : s.busLock = none) (hholds : next.holds = true)
    (hopen : (s.pc i).isClosed = false) (hnext : next.isClosed = false)
    (hknows : Knows s.past next) :
    Inv ({ s with busLock := some i }.goto i next) := by
  have hfree := h.held
  rw [hlock] at hfree
  refine h.goto (some i) (hfree.acquire ?_ fun j hj => holds_update hj) hopen hnext hknows
  rw [holds_update_self, hholds]

theorem Inv.release (h : Inv s) (hi : (s.pc i).holds = true) (hholds : next.holds = false)
    (hopen : (s.pc i).isClosed = false) (hnext : next.isClosed = false)
    (hknows : Knows s.past next) :
    Inv ({ s with busLock := none }.goto i next) := by
  refine h.goto none (h.held.release hi ?_ fun j hj => holds_update hj) hopen hnext hknows
  rw [holds_update_self, hholds]

omit [DecidableEq ι] in
/-- Something happens to the bus and no thread moves. -/
theorem Inv.happen (h : Inv s) (x : Happening) (hpending : pending (x :: s.past) = pending s.past)
    (hjust : Justified s.past → Justified (x :: s.past)) :
    Inv { s with reconnectState := failures (x :: s.past), past := x :: s.past } where
  count := rfl
  held := h.held
  closed := hpending ▸ h.closed
  justified := hjust h.justified
  knows := fun j => (h.knows j).cons x

/-- The thread that has the lock closes the bus or opens it again. -/
theorem Inv.toggle (h : Inv s) (x : Happening) (hi : (s.pc i).holds = true)
    (hholds : next.holds = true) (hpending : pending (x :: s.past) = next.isClosed)
    (hjust : Justified (x :: s.past)) (hknows : Knows (x :: s.past) next) :
    Inv ({ s with reconnectState := failures (x :: s.past), past := x :: s.past }.goto i next) where
  count := rfl
  held := by
    refine h.held.congr fun j => ?_
    by_cases hj : j = i
    · subst hj
      exact (holds_update_self ..).trans (hholds.trans hi.symm)
    · exact holds_update hj
  closed := by
    show pending (x :: s.past) = true ↔ ∃ j, ((Function.update s.pc i next) j).isClosed = true
    rw [hpending]
    refine ⟨fun hclosed => ⟨i, ?_⟩, fun ⟨j, hj⟩ => ?_⟩
    · rw [Function.update_self]
      exact hclosed
    · by_cases hji : j = i
      · rwa [hji, Function.update_self] at hj
      · rw [Function.update_of_ne hji] at hj
        exact absurd (h.alone hi (Pc.holds_of_isClosed hj)) hji
  justified := hjust
  knows := by
    intro j
    show Knows (x :: s.past) ((Function.update s.pc i next) j)
    by_cases hj : j = i
    · rw [hj, Function.update_self]
      exact hknows
    · rw [Function.update_of_ne hj]
      exact (h.knows j).cons x

theorem Pc.free_of_atRest {pc : Pc} (h : pc.atRest = true) :
    pc.holds = false ∧ pc.isClosed = false := by
  cases pc <;> first | exact ⟨rfl, rfl⟩ | cases h

theorem Inv.step (h : Inv s) (hstep : Step s s') : Inv s' := by
  cases hstep with
  | test i hi =>
    obtain ⟨hholds, hopen⟩ := Pc.free_of_atRest hi
    exact h.stay hholds.symm hopen rfl (Nat.le_refl _)
  | good i since hi hlt =>
    have hknows := h.knows i
    rw [hi] at hknows
    rw [h.count] at hlt
    exact h.stay (by rw [hi]; rfl) (by rw [hi]; rfl) rfl ⟨[], s.past, rfl, hknows, hlt⟩
  | bad i since hi =>
    have hknows := h.knows i
    rw [hi] at hknows
    exact h.stay (by rw [hi]; rfl) (by rw [hi]; rfl) rfl hknows
  | lock i since hi hlock =>
    have hknows := h.knows i
    rw [hi] at hknows
    exact h.acquire hlock rfl (by rw [hi]; rfl) rfl hknows
  | goodAgain i since hi hlt =>
    have hknows := h.knows i
    rw [hi] at hknows
    rw [h.count, Nat.not_le] at hlt
    exact h.stay (by rw [hi]; rfl) (by rw [hi]; rfl) rfl ⟨[], s.past, rfl, hknows, hlt⟩
  | badAgain i since hi hge =>
    have hknows := h.knows i
    rw [hi] at hknows
    have hholds : (s.pc i).holds = true := by rw [hi]; rfl
    have hpending := h.open hholds (by rw [hi]; rfl)
    rw [h.count] at hge
    have hclosed :=
      @Inv.toggle ι _ s i (.closed since) h .closed hholds rfl rfl ⟨hge, hpending, h.justified⟩
      (Nat.le_succ_of_le hknows)
    rwa [show failures (.closed :: s.past) = s.reconnectState from h.count.symm] at hclosed
  | reconnect i since ret hi =>
    have hknows := h.knows i
    rw [hi] at hknows
    have hholds : (s.pc i).holds = true := by rw [hi]; rfl
    refine h.toggle (.reconnected ret) hholds rfl rfl h.justified ?_
    cases ret with
    | true => exact ⟨[], .reconnected true :: s.past, rfl, Nat.le_succ_of_le hknows,
        Nat.zero_lt_two⟩
    | false => exact ⟨[], s.past, rfl, hknows⟩
  | unlock i since ret hi =>
    have hknows := h.knows i
    rw [hi] at hknows
    exact h.release (by rw [hi]; rfl) rfl (by rw [hi]; rfl) rfl (by cases ret <;> exact hknows)
  | use i hi =>
    obtain ⟨hholds, hopen⟩ := Pc.free_of_atRest hi
    exact h.stay hholds.symm hopen rfl trivial
  | enter i hi hlock => exact h.acquire hlock rfl (by rw [hi]; rfl) rfl trivial
  | reset i bus first second hi =>
    have hreset := h.happen (.reset bus first second) rfl id
    rwa [show failures (.reset bus first second :: s.past) =
      (busReset bus first second s.reconnectState).2 by
      rw [h.count]; rfl] at hreset
  | leave i hi => exact h.release (by rw [hi]; rfl) rfl (by rw [hi]; rfl) rfl trivial
  | set bad => exact h.happen (.set bad) rfl id
  | unconnected =>
    have hserver := h.happen .unconnected rfl id
    rwa [show failures (.unconnected :: s.past) = s.reconnectState +
      1 by rw [h.count]; rfl] at hserver

theorem Reachable.inv (h : Reachable s) : Inv s :=
  invariant_of_steps (fun hi hstep => hi.step hstep) h inv_start

/-- Whatever the order of their steps, only one thread at a time uses the bus or reconnects it, and
nobody else while it is closed. A bus is closed only after two failures (or one, after a
reconnection that failed) or when it was set so, and however many threads find it bad at once, not
again before something bad has happened. A test that is good has seen the bus good since it began;
one that is bad has seen a reconnection fail. -/
theorem reconnection_spec (h : Reachable s) :
    s.reconnectState = failures s.past ∧
    (∀ i j, (s.pc i).holds = true → (s.pc j).holds = true → i = j) ∧
    (pending s.past = true ↔ ∃ i since, s.pc i = .closed since) ∧
    (∀ newer older, s.past = newer ++ .closed :: older → reconnectError ≤ failures older ∧
    pending older = false) ∧
    (∀ newer mid older, s.past = newer ++ .closed :: mid ++ .closed :: older → ∃ x ∈ mid, x.IsBad) ∧
    (∀ i since, s.pc i = .tested since true →
      ∃ newer older, s.past = newer ++ older ∧ since ≤ older.length ∧
      failures older < reconnectError) ∧
    ∀ i since, s.pc i = .tested since false →
      ∃ newer older, s.past = newer ++ .reconnected false :: older ∧ since ≤ older.length := by
  have hinv := h.inv
  refine ⟨hinv.count, fun i j hi hj => hinv.alone hj hi, hinv.closed.trans ⟨?_, ?_⟩, ?_, ?_, ?_, ?_⟩
  · rintro ⟨i, hi⟩
    cases hpc : s.pc i with
    | closed since => exact ⟨i, since, hpc⟩
    | _ =>
      rw [hpc] at hi
      cases hi
  · rintro ⟨i, since, hi⟩
    exact ⟨i, by rw [hi]; rfl⟩
  · intro newer older heq
    exact (heq ▸ hinv.justified).split
  · intro newer mid older heq
    have hjust := hinv.justified
    rw [heq, List.append_assoc, List.cons_append] at hjust
    obtain ⟨hge, hopen⟩ := hjust.split
    obtain ⟨ret, hmem⟩ := exists_reconnected hopen
    by_contra hnone
    have hle : failures (mid ++ .closed :: older) ≤ 1 :=
      failures_le_one hmem fun x hx hbad => hnone ⟨x, hx, hbad⟩
    exact absurd (hge.trans hle) (by decide)
  · intro i since hi
    have hknows := hinv.knows i
    rwa [hi] at hknows
  · intro i since hi
    have hknows := hinv.knows i
    rwa [hi] at hknows

/-- The count is set, and one thread tests the bus and closes it. -/
theorem reconnection_spec_closed : ∃ s : Sys Bool, s.past = [.closed, .set true] ∧
    (∃ i since, s.pc i = .closed since) ∧ reconnectError ≤ failures [.set true] := by
  have hset : Reachable _ := Relation.ReflTransGen.tail .refl (Step.set (Sys.start : Sys Bool) true)
  have htest : Reachable _ := Relation.ReflTransGen.tail hset (Step.test _ true rfl)
  have hbad : Reachable _ := Relation.ReflTransGen.tail htest (Step.bad _ true 1 rfl (by decide))
  have hlock : Reachable _ := Relation.ReflTransGen.tail hbad (Step.lock _ true 1 rfl rfl)
  have hclosed : Reachable _ :=
    Relation.ReflTransGen.tail hlock (Step.badAgain _ true 1 rfl (by decide))
  obtain ⟨-, -, hpending, hjustified, -⟩ := reconnection_spec hclosed
  exact ⟨_, rfl, hpending.mp rfl, (hjustified [] [.set true] rfl).1⟩

end Owfs.Reconnect
