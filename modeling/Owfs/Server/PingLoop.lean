import Owfs.Server.Response
import Owfs.Infra.Threads

/-!
# Keep-alives

While `DataHandler` works on a request, `PingLoop` (`loop.c`) sends a ping every second so that
the client does not give up. For a directory the elements go out one at a time as well
(`DirHandlerCallback`), from as many threads as there are ports to search. All of them write to
one file descriptor; a mutex, the field `toclient` and a pipe keep them apart.

Here every byte written, every operation on the mutexes and every access to `toclient` and the
pipe is one step, and the threads take their steps in any order. `select` may time out or fail at
any moment, and says that the pipe is readable only when something was written to it. `writev`
sends everything it is given, one byte at a time.
-/

namespace Owfs.Server

open Infra Owfs.Protocol Owfs.Client Owfs.Directory

/-! ## The code -/

/-- `enum toclient_state` -/
inductive ToclientState where
  | postping | postmessage | complete
deriving DecidableEq, Repr

/-- What `select` returned: 1, 0 or anything else. -/
inductive SelectValue where
  | ready | timeout | error
deriving DecidableEq, Repr

/-- Where `PingLoop` stands. -/
inductive PingPc where
  /-- the thread for `DataHandler` was not created: "do it without pings" -/
  | absent
  /-- about to `select` in `Ping_or_Send`, called with this state -/
  | call (last : ToclientState)
  | selected (v : SelectValue)
  /-- has the mutex -/
  | locked (v : SelectValue)
  /-- in `PingClient`; after an error of `select` the state is reset too -/
  | pinging (rest : Bytes) (resync : Bool)
  | unlocking (next : ToclientState)
  /-- out of the loop -/
  | left
deriving DecidableEq, Repr

/-- Where `DataHandler` stands. -/
inductive DataPc where
  | working | locking
  | sending (rest : Bytes)
  | marking | signalling | unlocking | returned
deriving DecidableEq, Repr

/-- Where a thread that lists a part of the directory stands. -/
inductive ElementPc where
  | idle
  /-- in `FS_dir_entry_aliased`, before `DIRLOCK` -/
  | entering (path : Bytes)
  -- in `DirHandlerCallback`
  | filling (path : Bytes)
  | locking (path : Bytes)
  | sending (rest : Bytes)
  | marking | unlocking
  /-- before `DIRUNLOCK` -/
  | leaving
deriving DecidableEq, Repr

/-- The threads. -/
inductive Party (ι : Type) where
  | ping | data
  | element (i : ι)
deriving DecidableEq

/-- A request and its circumstances. -/
structure Exchange where
  lib : Library
  hd : HandlerData
  beyond : Nat → Byte
  settings : Settings
  persistent : Bool
  pingcrazy : Bool
  /-- `pthread_create` succeeds. -/
  threaded : Bool

structure Sys (ι : Type) where
  /-- what was written to `hd->file_descriptor` -/
  out : Bytes
  toclient : ToclientState
  /-- bytes in `hd->ping_pipe` -/
  pipe : Nat
  /-- `hd->to_client` -/
  lock : Option (Party ι)
  /-- `Mutex.dir_mutex` -/
  dirLock : Option ι
  /-- the header that `DirHandler` shares with its callbacks -/
  cm : ClientMsg
  ping : PingPc
  data : DataPc
  element : ι → ElementPc

namespace Exchange

variable (x : Exchange)

/-- The bytes of a ping. -/
def pingBytes : Bytes := pingClient x.beyond

/-- The bytes of the final response. -/
def responseBytes : Bytes := response x.lib x.hd x.beyond x.settings x.persistent

/-- The request is a DIR that is listed one element at a time. -/
def lists : Bool := listed x.lib x.hd x.settings

/-- The bytes that `DirHandlerCallback` sends for a path, with the header `cm`. -/
def elementBytes (path : Bytes) (cm : ClientMsg) : Bytes :=
  toClient x.beyond cm (some (path ++ [0]))

end Exchange

variable {ι : Type}

/-- The switch of `Ping_or_Send`, under the mutex. -/
def pingOrSend (x : Exchange) (v : SelectValue) (s : Sys ι) : Sys ι :=
  match v, s.toclient with
  -- message from other thread that we're done
  | .ready, _ => { s with ping := .unlocking .complete }
  -- crossed paths, we're really done
  | .timeout, .complete => { s with ping := .unlocking .complete }
  -- a ping forestalled by a directory element
  | .timeout, .postmessage => { s with toclient := .postping, ping := .unlocking .postmessage }
  | .timeout, .postping => { s with ping := .pinging x.pingBytes false }
  | .error, .complete => { s with ping := .unlocking .complete }
  | .error, _ => { s with ping := .pinging x.pingBytes true }

variable [DecidableEq ι]

/-- One thread takes one step. -/
inductive Step (x : Exchange) : Sys ι → Sys ι → Prop
  -- `Ping_or_Send`
  | completed (s : Sys ι) : s.ping = .call .complete → Step x s { s with ping := .left }
  | select (s : Sys ι) (last : ToclientState) (v : SelectValue) :
      s.ping = .call last → last ≠ .complete → (v = .ready → 0 < s.pipe) →
      Step x s { s with ping := .selected v }
  | pingLock (s : Sys ι) (v : SelectValue) :
      s.ping = .selected v → s.lock = none →
        Step x s { s with lock := some .ping, ping := .locked v }
  | pingOrSend (s : Sys ι) (v : SelectValue) : s.ping = .locked v → Step x s (pingOrSend x v s)
  | pingByte (s : Sys ι) (b : Byte) (rest : Bytes) (resync : Bool) :
      s.ping = .pinging (b :: rest) resync →
      Step x s { s with out := s.out ++ [b], ping := .pinging rest resync }
  | pinged (s : Sys ι) (resync : Bool) :
      s.ping = .pinging [] resync →
      Step x s { s with
        toclient := if resync then .postping else s.toclient
        ping := .unlocking .postping }
  | pingUnlock (s : Sys ι) (next : ToclientState) :
      s.ping = .unlocking next →
      Step x s { s with
        lock := none
        ping := if next = .complete then .left else .call next }
  -- `DataHandler`; `FS_dir_remote` returns when all its threads are joined
  | worked (s : Sys ι) :
      s.data = .working → (∀ i, s.element i = .idle) → Step x s { s with data := .locking }
  | dataLock (s : Sys ι) :
      s.data = .locking → s.lock = none →
      Step x s { s with lock := some .data, data := .sending x.responseBytes }
  | dataByte (s : Sys ι) (b : Byte) (rest : Bytes) :
      s.data = .sending (b :: rest) → Step x s { s with out := s.out ++ [b], data := .sending rest }
  | dataSent (s : Sys ι) : s.data = .sending [] → Step x s { s with data := .marking }
  | dataMark (s : Sys ι) :
      s.data = .marking → Step x s { s with toclient := .complete, data := .signalling }
  | dataSignal (s : Sys ι) (written : Bool) :
      s.data = .signalling → Step x s { s with pipe := s.pipe + written.toNat, data := .unlocking }
  | dataUnlock (s : Sys ι) : s.data = .unlocking →
      Step x s { s with lock := none, data := .returned }
  -- a directory element
  | enter (s : Sys ι) (i : ι) (path : Bytes) :
      x.lists = true → s.data = .working → s.element i = .idle →
      Step x s { s with element := Function.update s.element i (.entering path) }
  | dirLock (s : Sys ι) (i : ι) (path : Bytes) :
      s.element i = .entering path → s.dirLock = none →
      Step x s { s with dirLock := some i, element := Function.update s.element i (.filling path) }
  | fill (s : Sys ι) (i : ι) (path : Bytes) :
      s.element i = .filling path →
      Step x s { s with
        cm := dirElement path s.cm
        element := Function.update s.element i (.locking path) }
  | elementLock (s : Sys ι) (i : ι) (path : Bytes) :
      s.element i = .locking path → s.lock = none →
      Step x s { s with
        lock := some (.element i)
        element := Function.update s.element i (.sending (x.elementBytes path s.cm)) }
  | elementByte (s : Sys ι) (i : ι) (b : Byte) (rest : Bytes) :
      s.element i = .sending (b :: rest) →
      Step x s { s with
        out := s.out ++ [b]
        element := Function.update s.element i (.sending rest) }
  | elementSent (s : Sys ι) (i : ι) :
      s.element i = .sending [] →
      Step x s { s with element := Function.update s.element i .marking }
  | elementMark (s : Sys ι) (i : ι) :
      s.element i = .marking →
      Step x s { s with
        toclient := .postmessage
        element := Function.update s.element i .unlocking }
  | elementUnlock (s : Sys ι) (i : ι) :
      s.element i = .unlocking →
      Step x s { s with lock := none, element := Function.update s.element i .leaving }
  | dirUnlock (s : Sys ι) (i : ι) :
      s.element i = .leaving →
      Step x s { s with dirLock := none, element := Function.update s.element i .idle }

/-- `LoopSetup`, after the extra ping of `SingleHandler`. What `DirHandler` puts into `cm` before
the first element is overwritten by it. -/
def Exchange.start (x : Exchange) : Sys ι where
  out := if x.pingcrazy then x.pingBytes else []
  toclient := .postping
  pipe := 0
  lock := none
  dirLock := none
  cm := startCm x.hd
  ping := if x.threaded then .call .postping else .absent
  data := .working
  element := fun _ => .idle

def Exchange.Reachable (x : Exchange) (s : Sys ι) : Prop := Relation.ReflTransGen (Step x) x.start s

/-! ## What the threads have -/

/-- Between the lock and the unlock of `to_client`. -/
def PingPc.holds : PingPc → Bool
  | .locked _ | .pinging _ _ | .unlocking _ => true
  | _ => false

def DataPc.holds : DataPc → Bool
  | .sending _ | .marking | .signalling | .unlocking => true
  | _ => false

def ElementPc.holds : ElementPc → Bool
  | .sending _ | .marking | .unlocking => true
  | _ => false

/-- Between `DIRLOCK` and `DIRUNLOCK`. -/
def ElementPc.inDir : ElementPc → Bool
  | .idle | .entering _ => false
  | _ => true

/-- The final response was begun. -/
def DataPc.begun : DataPc → Bool
  | .working | .locking => false
  | _ => true

/-- `toclient` was set to `toclient_complete`. -/
def DataPc.marked : DataPc → Bool
  | .signalling | .unlocking | .returned => true
  | _ => false

/-- Inside `PingClient`. -/
def PingPc.isPinging : PingPc → Bool
  | .pinging _ _ => true
  | _ => false

/-- Has seen that the response is complete. -/
def PingPc.informed : PingPc → Bool
  | .selected .ready | .locked .ready | .unlocking .complete | .call .complete | .left => true
  | _ => false

/-- What a thread has still to write of the message it is writing. -/
def Sys.rest (s : Sys ι) : Party ι → Bytes
  | .ping => match s.ping with
    | .pinging rest _ => rest
    | _ => []
  | .data => match s.data with
    | .sending rest => rest
    | _ => []
  | .element i => match s.element i with
    | .sending rest => rest
    | _ => []

def Sys.holds (s : Sys ι) : Party ι → Bool
  | .ping => s.ping.holds
  | .data => s.data.holds
  | .element i => (s.element i).holds

/-- What is missing from the message that is being written. -/
def Sys.pending (s : Sys ι) : Bytes := s.lock.elim [] s.rest

/-- The bytes of messages one after another. -/
def wire (ms : List Message) : Bytes := ms.flatMap Message.bytes

/-- The messages that may come before the response: pings and, for DIR, elements. -/
def Exchange.KeepAlive (x : Exchange) (m : Message) : Prop :=
  m.bytes = x.pingBytes ∨
    x.lists = true ∧ ∃ path, m.bytes = x.elementBytes path (dirElement path (startCm x.hd))

/-- The mutex is with the thread that is inside it, so one message at a time is being written, and
the part of it that is missing completes the output. -/
structure Inv (x : Exchange) (s : Sys ι) : Prop where
  holder : Held s.lock s.holds
  dirHolder : Held s.dirLock fun i => (s.element i).inDir
  idle : s.data ≠ .working → ∀ i, s.element i = .idle
  listing : ∀ i, s.element i ≠ .idle → x.lists = true
  shared : ∀ path, dirElement path s.cm = dirElement path (startCm x.hd)
  filled : ∀ i path, s.element i = .locking path → s.cm = dirElement path (startCm x.hd)
  complete : s.toclient = .complete ↔ s.data.marked = true
  signalled : 0 < s.pipe → s.data.marked = true
  pinging : s.ping.isPinging = true → s.data.begun = false
  informed : s.ping.informed = true → s.data.marked = true
  framed : ∃ ms : List Message, (∀ m ∈ ms, x.KeepAlive m) ∧
    s.out ++ s.pending = wire ms ++ if s.data.begun then x.responseBytes else []

omit [DecidableEq ι] in
theorem exists_ping (x : Exchange) : ∃ m : Message, x.KeepAlive m ∧ m.bytes = x.pingBytes := by
  have hbuf : Buffered (pingCm, none) := fun h => absurd h (by decide)
  obtain ⟨m, -, hm⟩ := exists_message x.beyond hbuf
  exact ⟨m, .inl hm.symm, hm.symm⟩

omit [DecidableEq ι] in
theorem exists_element (x : Exchange) (path : Bytes) (hl : x.lists = true) :
    ∃ m : Message, x.KeepAlive m ∧
      m.bytes = x.elementBytes path (dirElement path (startCm x.hd)) := by
  obtain ⟨m, -, hm⟩ :=
    exists_message x.beyond (buffered_some (dirElement path (startCm x.hd)) (path ++ [0]))
  exact ⟨m, .inr ⟨hl, path, hm.symm⟩, hm.symm⟩

omit [DecidableEq ι] in
theorem inv_start (x : Exchange) : Inv x (x.start : Sys ι) where
  holder := by
    intro p
    cases p with
    | ping => cases h : x.threaded <;> simp [Exchange.start, Sys.holds, PingPc.holds, h]
    | data => simp [Exchange.start, Sys.holds, DataPc.holds]
    | element i => simp [Exchange.start, Sys.holds, ElementPc.holds]
  dirHolder := by
    intro i
    simp [Exchange.start, ElementPc.inDir]
  idle := fun h => absurd rfl h
  listing := fun i h => absurd rfl h
  shared := fun path => rfl
  filled := nofun
  complete := by simp [Exchange.start, DataPc.marked]
  signalled := nofun
  pinging := fun _ => rfl
  informed := by cases h : x.threaded <;> simp [Exchange.start, PingPc.informed, h]
  framed := by
    cases hc : x.pingcrazy with
    | true =>
      obtain ⟨m, hm, hb⟩ := exists_ping x
      refine ⟨[m], ?_, ?_⟩
      · intro m' hm'
        rw [List.mem_singleton.mp hm']
        exact hm
      · simp [Exchange.start, Sys.pending, DataPc.begun, wire, hb, hc]
    | false => exact ⟨[], nofun, by simp [Exchange.start, Sys.pending, DataPc.begun, wire, hc]⟩

section

variable {x : Exchange} {s s' : Sys ι} {i : ι}

omit [DecidableEq ι] in
theorem Inv.pending_eq (h : Inv x s) {p : Party ι} (hp : s.holds p = true) :
    s.pending = s.rest p := by
  rw [Sys.pending, (h.holder p).mpr hp]
  rfl

omit [DecidableEq ι] in
theorem pending_of_free (hfree : s.lock = none) : s.pending = [] := by
  rw [Sys.pending, hfree]
  rfl

omit [DecidableEq ι] in
/-- While another thread is inside the mutex, `DataHandler` is not. -/
theorem Inv.data_outside (h : Inv x s) {p : Party ι} (hp : s.holds p = true) (hne : p ≠ .data) :
    s.data.holds = false :=
  h.holder.other hp hne.symm

omit [DecidableEq ι] in
/-- An element is listed while `DataHandler` works. -/
theorem Inv.working (h : Inv x s) (hi : s.element i ≠ .idle) : s.data = .working := by
  by_contra hne
  exact hi (h.idle hne i)

omit [DecidableEq ι] in
/-- Before the response is begun, the mutex is not with `DataHandler` and nothing is marked. -/
theorem not_marked_of_not_begun {d : DataPc} (h : d.begun = false) : d.marked = false := by
  cases d <;> first
    | rfl
    | cases h

/-! ## `PingLoop` -/

omit [DecidableEq ι] in
theorem holds_ping_other (ping : PingPc) (lock : Option (Party ι)) (toclient : ToclientState)
    (out : Bytes) :
    ∀ q ≠ Party.ping, ({ s with ping, lock, toclient, out } : Sys ι).holds q = s.holds q := by
  intro q hq
  cases q with
  | ping => exact absurd rfl hq
  | data => rfl
  | element i => rfl

omit [DecidableEq ι] in
/-- A step of `PingLoop` outside the mutex, or inside it without a byte. -/
theorem Inv.ping_move (h : Inv x s) {ping : PingPc} (hholds : ping.holds = s.ping.holds)
    (hrest : ({ s with ping } : Sys ι).rest .ping = s.rest .ping)
    (hpinging : ping.isPinging = true → s.data.begun = false)
    (hinformed : ping.informed = true → s.data.marked = true) : Inv x { s with ping } where
  holder := by
    refine h.holder.congr fun q => ?_
    cases q with
    | ping => exact hholds
    | data => rfl
    | element i => rfl
  dirHolder := h.dirHolder
  idle := h.idle
  listing := h.listing
  shared := h.shared
  filled := h.filled
  complete := h.complete
  signalled := h.signalled
  pinging := hpinging
  informed := hinformed
  framed := by
    have hpending : ({ s with ping } : Sys ι).pending = s.pending := by
      unfold Sys.pending
      cases s.lock with
      | none => rfl
      | some p =>
        cases p with
        | ping => exact hrest
        | data => rfl
        | element i => rfl
    rw [hpending]
    exact h.framed

omit [DecidableEq ι] in
theorem rest_ping_of_not_pinging (h : s.ping.isPinging = false) : s.rest .ping = [] := by
  unfold Sys.rest
  cases hp : s.ping with
  | pinging rest resync =>
    rw [hp] at h
    cases h
  | _ => rfl

omit [DecidableEq ι] in
theorem Inv.pingLock (h : Inv x s) {v : SelectValue} (hp : s.ping = .selected v)
    (hfree : s.lock = none) :
    Inv x { s with lock := some .ping, ping := .locked v } :=
  { h with
    holder := (hfree ▸ h.holder).acquire rfl (holds_ping_other _ _ _ _)
    pinging := nofun
    informed := fun hv => h.informed (by rw [hp]; revert hv; cases v <;> exact id)
    framed := by
      obtain ⟨ms, hms, hout⟩ := h.framed
      refine ⟨ms, hms, ?_⟩
      rw [pending_of_free hfree] at hout
      exact hout }

omit [DecidableEq ι] in
/-- `PingLoop` has the mutex and nothing is complete, so the response was not begun. -/
theorem Inv.not_begun (h : Inv x s) (hheld : s.ping.holds = true) (ht : s.toclient ≠ .complete) :
    s.data.begun = false := by
  have hout := h.data_outside (p := .ping) hheld nofun
  have hmarked : s.data.marked ≠ true := fun hm => ht (h.complete.mpr hm)
  revert hout hmarked
  cases s.data <;> simp [DataPc.holds, DataPc.marked, DataPc.begun]

omit [DecidableEq ι] in
/-- A ping is begun between messages. -/
theorem Inv.beginPing (h : Inv x s) {v : SelectValue} (hp : s.ping = .locked v)
    (ht : s.toclient ≠ .complete) (resync : Bool) :
    Inv x { s with ping := .pinging x.pingBytes resync } := by
  have hheld : s.holds .ping = true := by rw [Sys.holds, hp]; rfl
  have hbegun := h.not_begun hheld ht
  obtain ⟨m, hm, hb⟩ := exists_ping x
  obtain ⟨ms, hms, hout⟩ := h.framed
  rw [h.pending_eq hheld, rest_ping_of_not_pinging (by rw [hp]; rfl), hbegun] at hout
  have hlock : s.lock = some .ping := (h.holder .ping).mpr hheld
  exact
    { h with
      holder := by
        refine h.holder.congr fun q => ?_
        by_cases hq : q = .ping
        · subst hq
          exact hheld.symm
        · exact holds_ping_other _ s.lock s.toclient s.out q hq
      pinging := fun _ => hbegun
      informed := nofun
      framed := by
        refine ⟨ms ++ [m], ?_, ?_⟩
        · intro m' hm'
          rcases List.mem_append.mp hm' with hold | hnew
          · exact hms m' hold
          · rw [List.mem_singleton.mp hnew]
            exact hm
        · have hpending : ({ s with ping := .pinging x.pingBytes resync } : Sys ι).pending =
              x.pingBytes := by
            rw [Sys.pending]
            simp only [hlock]
            rfl
          show s.out ++ Sys.pending _ = wire (ms ++ [m]) ++ if s.data.begun then _ else _
          rw [hpending, hbegun]
          simp only [List.append_nil, Bool.false_eq_true, if_false] at hout ⊢
          rw [hout, wire, wire, List.flatMap_append, List.flatMap_singleton, hb] }

omit [DecidableEq ι] in
theorem Inv.pingOrSend (h : Inv x s) {v : SelectValue} (hp : s.ping = .locked v) :
    Inv x (pingOrSend x v s) := by
  have hheld : s.ping.holds = true := by rw [hp]; rfl
  have hrest : s.rest .ping = [] := rest_ping_of_not_pinging (by rw [hp]; rfl)
  have hunlock : ∀ next, (next = .complete → s.data.marked = true) →
      Inv x { s with ping := .unlocking next } := by
    intro next hnext
    refine h.ping_move hheld.symm hrest.symm nofun fun hi => ?_
    cases next with
    | complete => exact hnext rfl
    | postping | postmessage => cases hi
  have hnot : s.toclient ≠ .complete → s.data.marked ≠ true := fun ht hm => ht (h.complete.mpr hm)
  unfold Server.pingOrSend
  split
  · exact hunlock .complete fun _ => h.informed (by rw [hp]; rfl)
  · rename_i ht
    exact hunlock .complete fun _ => h.complete.mp ht
  · rename_i ht
    exact { hunlock .postmessage nofun with
      complete := ⟨nofun, fun hm => absurd hm (hnot (by rw [ht]; nofun))⟩ }
  · rename_i ht
    exact h.beginPing hp (by rw [ht]; nofun) false
  · rename_i ht
    exact hunlock .complete fun _ => h.complete.mp ht
  · rename_i ht
    exact h.beginPing hp ht true

omit [DecidableEq ι] in
theorem Inv.pingByte (h : Inv x s) {b : Byte} {rest : Bytes} {resync : Bool}
    (hp : s.ping = .pinging (b :: rest) resync) :
    Inv x { s with out := s.out ++ [b], ping := .pinging rest resync } := by
  have hheld : s.holds .ping = true := by rw [Sys.holds, hp]; rfl
  have hlock : s.lock = some .ping := (h.holder .ping).mpr hheld
  have hrest : s.rest .ping = b :: rest := by rw [Sys.rest, hp]
  exact
    { h with
      holder := by
        refine h.holder.congr fun q => ?_
        by_cases hq : q = .ping
        · subst hq
          exact hheld.symm
        · exact holds_ping_other _ s.lock s.toclient _ q hq
      pinging := fun _ => h.pinging (by rw [hp]; rfl)
      informed := nofun
      framed := by
        obtain ⟨ms, hms, hout⟩ := h.framed
        refine ⟨ms, hms, ?_⟩
        rw [h.pending_eq hheld, hrest] at hout
        have hpending : ({ s with out := s.out ++ [b], ping := .pinging rest resync } : Sys
            ι).pending = rest := by
          rw [Sys.pending]
          simp only [hlock]
          rfl
        rw [hpending]
        show s.out ++ [b] ++ rest = _
        rw [List.append_assoc]
        exact hout }

omit [DecidableEq ι] in
theorem Inv.pinged (h : Inv x s) {resync : Bool} (hp : s.ping = .pinging [] resync) :
    Inv x { s with
      toclient := if resync then .postping else s.toclient
      ping := .unlocking .postping } := by
  have hmove : Inv x { s with ping := .unlocking .postping } :=
    h.ping_move (by rw [hp]; rfl) (by rw [Sys.rest, Sys.rest, hp]) nofun nofun
  have hnot : s.data.marked = false := not_marked_of_not_begun (h.pinging (by rw [hp]; rfl))
  have hincomplete : s.toclient ≠ .complete := fun ht => by
    rw [h.complete.mp ht] at hnot
    cases hnot
  refine { hmove with complete := ⟨fun ht => ?_, fun hm => ?_⟩ }
  · cases resync with
    | true => cases ht
    | false => exact absurd ht hincomplete
  · exact absurd hm (Bool.eq_false_iff.mp hnot)

omit [DecidableEq ι] in
theorem Inv.pingUnlock (h : Inv x s) {next : ToclientState} (hp : s.ping = .unlocking next) :
    Inv x { s with lock := none, ping := if next = .complete then .left else .call next } := by
  have hheld : s.holds .ping = true := by rw [Sys.holds, hp]; rfl
  have hrest : s.rest .ping = [] := rest_ping_of_not_pinging (by rw [hp]; rfl)
  exact
    { h with
      holder := h.holder.release hheld (by cases next <;> rfl) (holds_ping_other _ _ _ _)
      pinging := by cases next <;> nofun
      informed := by
        intro hi
        cases next with
        | complete => exact h.informed (by rw [hp]; rfl)
        | postping | postmessage => cases hi
      framed := by
        obtain ⟨ms, hms, hout⟩ := h.framed
        refine ⟨ms, hms, ?_⟩
        rw [h.pending_eq hheld, hrest] at hout
        exact hout }

/-! ## `DataHandler` -/

omit [DecidableEq ι] in
theorem holds_data_other (data : DataPc) (lock : Option (Party ι)) (toclient : ToclientState)
    (out : Bytes) (pipe : Nat) :
    ∀ q ≠ Party.data, ({ s with data, lock, toclient, out, pipe } : Sys ι).holds q = s.holds q := by
  intro q hq
  cases q with
  | ping => rfl
  | data => exact absurd rfl hq
  | element i => rfl

omit [DecidableEq ι] in
theorem Inv.worked (h : Inv x s) (hd : s.data = .working) (hidle : ∀ i, s.element i = .idle) :
    Inv x { s with data := .locking } :=
  { h with
    holder := by
      refine h.holder.congr fun q => ?_
      by_cases hq : q = .data
      · subst hq
        rw [Sys.holds, Sys.holds, hd]
        rfl
      · exact holds_data_other _ s.lock s.toclient s.out s.pipe q hq
    idle := fun _ => hidle
    complete := by
      have := h.complete
      rw [hd] at this
      exact this
    signalled := by
      have := h.signalled
      rw [hd] at this
      exact this
    pinging := fun _ => rfl
    informed := by
      have := h.informed
      rw [hd] at this
      exact this
    framed := by
      obtain ⟨ms, hms, hout⟩ := h.framed
      refine ⟨ms, hms, ?_⟩
      rw [hd] at hout
      have hpending : ({ s with data := .locking } : Sys ι).pending = s.pending := by
        unfold Sys.pending
        cases s.lock with
        | none => rfl
        | some p =>
          cases p with
          | ping => rfl
          | data =>
            show [] = s.rest .data
            rw [Sys.rest, hd]
          | element i => rfl
      rw [hpending]
      exact hout }

omit [DecidableEq ι] in
/-- The response is begun between messages. -/
theorem Inv.dataLock (h : Inv x s) (hd : s.data = .locking) (hfree : s.lock = none) :
    Inv x { s with lock := some .data, data := .sending x.responseBytes } := by
  have hheld : Held none s.holds := hfree ▸ h.holder
  have hping : s.ping.holds = false := hheld.free .ping
  exact
    { h with
      holder := hheld.acquire rfl (holds_data_other _ _ _ _ _)
      idle := fun _ => h.idle (by rw [hd]; nofun)
      complete := by
        have := h.complete
        rw [hd] at this
        exact this
      signalled := by
        have := h.signalled
        rw [hd] at this
        exact this
      pinging := by
        intro hp
        revert hping hp
        cases s.ping <;> simp [PingPc.holds, PingPc.isPinging]
      informed := by
        have := h.informed
        rw [hd] at this
        exact this
      framed := by
        obtain ⟨ms, hms, hout⟩ := h.framed
        refine ⟨ms, hms, ?_⟩
        rw [pending_of_free hfree, hd] at hout
        show s.out ++ x.responseBytes = wire ms ++ x.responseBytes
        simpa [DataPc.begun] using hout }

omit [DecidableEq ι] in
/-- A step of `DataHandler` inside the mutex, or out of it: what was marked stays marked. -/
theorem Inv.data_move (h : Inv x s) {data : DataPc} {out : Bytes} {toclient : ToclientState}
    {pipe : Nat} {lock : Option (Party ι)} (hold : s.data.holds = true) (hbegun : data.begun = true)
    (hholder : lock = s.lock ∧ data.holds = true ∨ lock = none ∧ data.holds = false)
    (hmarked : s.data.marked = true → data.marked = true)
    (hcomplete : toclient = .complete ↔ data.marked = true) (hpipe : 0 < pipe → data.marked = true)
    (hbytes : out ++ ({ s with data } : Sys ι).rest .data = s.out ++ s.rest .data) :
    Inv x { s with out, toclient, pipe, lock, data } := by
  have hheld : s.holds .data = true := hold
  have hlock : s.lock = some .data := (h.holder .data).mpr hold
  have hold' : s.data.begun = true := by
    revert hold
    cases s.data <;> simp [DataPc.holds, DataPc.begun]
  exact
    { h with
      holder := by
        rcases hholder with ⟨rfl, hin⟩ | ⟨rfl, hout⟩
        · refine h.holder.congr fun q => ?_
          by_cases hq : q = .data
          · subst hq
            exact hin.trans hold.symm
          · exact holds_data_other _ s.lock _ _ _ q hq
        · exact h.holder.release hheld hout (holds_data_other _ _ _ _ _)
      idle := fun _ => h.idle (by rintro he; rw [he] at hold; cases hold)
      complete := hcomplete
      signalled := hpipe
      pinging := by
        intro hp
        rw [h.pinging hp] at hold'
        cases hold'
      informed := fun hi => hmarked (h.informed hi)
      framed := by
        obtain ⟨ms, hms, hframe⟩ := h.framed
        refine ⟨ms, hms, ?_⟩
        rw [h.pending_eq hheld, hold', ← hbytes] at hframe
        rw [hbegun]
        refine Eq.trans ?_ hframe
        congr 1
        rcases hholder with ⟨rfl, -⟩ | ⟨rfl, hout⟩
        · rw [Sys.pending]
          simp only [hlock]
          rfl
        · cases data with
          | sending rest => cases hout
          | _ => rfl }

/-! ## Directory elements -/

/-- What a step of an element leaves as it is: it is made while `DataHandler` works. -/
theorem Inv.element_move (h : Inv x s) {pc : ElementPc} {out : Bytes} {toclient : ToclientState}
    {lock : Option (Party ι)} {dirLock : Option ι} {cm : ClientMsg} (hi : s.element i ≠ .idle)
    (hholder : Held lock ({ s with element := Function.update s.element i pc } : Sys ι).holds)
    (hdir : Held dirLock fun j => (Function.update s.element i pc j).inDir)
    (hshared : ∀ path, dirElement path cm = dirElement path (startCm x.hd))
    (hfilled : ∀ j path, Function.update s.element i pc j = .locking path →
      cm = dirElement path (startCm x.hd))
    (htoclient : toclient = s.toclient ∨ toclient = .postmessage)
    (hframed : ∃ ms : List Message, (∀ m ∈ ms, x.KeepAlive m) ∧
      out ++ ({ s with lock, element := Function.update s.element i pc } : Sys ι).pending =
      wire ms) :
    Inv x { s with out, toclient, lock, dirLock, cm, element :=
      Function.update s.element i pc } := by
  have hwork := h.working hi
  exact
    { h with
      holder := hholder
      dirHolder := hdir
      idle := fun hne => absurd hwork hne
      listing := fun _ _ => h.listing i hi
      shared := hshared
      filled := hfilled
      complete := by
        have hnot : s.data.marked = false := by rw [hwork]; rfl
        have hincomplete : s.toclient ≠ .complete := fun ht => by
          rw [h.complete.mp ht] at hnot
          cases hnot
        show toclient = .complete ↔ s.data.marked = true
        rcases htoclient with rfl | rfl
        · exact h.complete
        · exact ⟨nofun, fun hm => absurd hm (Bool.eq_false_iff.mp hnot)⟩
      framed := by
        obtain ⟨ms, hms, hout⟩ := hframed
        refine ⟨ms, hms, ?_⟩
        have hbegun : s.data.begun = false := by rw [hwork]; rfl
        rw [hbegun]
        exact hout.trans (List.append_nil _).symm }

theorem holds_element_other (pc : ElementPc) :
    ∀ q ≠ Party.element i,
      ({ s with element := Function.update s.element i pc } : Sys ι).holds q = s.holds q := by
  intro q hq
  cases q with
  | ping => rfl
  | data => rfl
  | element j =>
    have hne : j ≠ i := fun he => hq (by rw [he])
    show (Function.update s.element i pc j).holds = _
    rw [Function.update_of_ne hne]
    rfl

theorem holds_element_self (pc : ElementPc) :
    ({ s with element := Function.update s.element i pc } : Sys ι).holds
    (.element i) = pc.holds := by
  show (Function.update s.element i pc i).holds = _
  rw [Function.update_self]

/-- The mutex stays where it is. -/
theorem Inv.element_holder (h : Inv x s) {pc : ElementPc} (hpc : pc.holds = (s.element i).holds) :
    Held s.lock ({ s with element := Function.update s.element i pc } : Sys ι).holds := by
  refine h.holder.congr fun q => ?_
  by_cases hq : q = .element i
  · subst hq
    rw [holds_element_self, hpc]
    rfl
  · exact holds_element_other pc q hq

/-- `dir_mutex` stays where it is. -/
theorem Inv.element_dirHolder (h : Inv x s) {pc : ElementPc}
    (hpc : pc.inDir = (s.element i).inDir) :
    Held s.dirLock fun j => (Function.update s.element i pc j).inDir := by
  refine h.dirHolder.congr fun j => ?_
  by_cases hj : j = i
  · subst hj
    rw [Function.update_self, hpc]
  · rw [Function.update_of_ne hj]

theorem Inv.element_filled (h : Inv x s) {pc : ElementPc} (hpc : ∀ path, pc ≠ .locking path) :
    ∀ j path, Function.update s.element i pc j = .locking path →
      s.cm = dirElement path (startCm x.hd) := by
  intro j path hj
  by_cases hji : j = i
  · subst hji
    rw [Function.update_self] at hj
    exact absurd hj (hpc path)
  · rw [Function.update_of_ne hji] at hj
    exact h.filled j path hj

theorem pending_element (lock : Option (Party ι)) {pc : ElementPc}
    (hne : lock ≠ some (.element i)) :
    ({ s with lock, element := Function.update s.element i pc } : Sys ι).pending
      = ({ s with lock } : Sys ι).pending := by
  cases lock with
  | none => rfl
  | some p =>
    cases p with
    | ping => rfl
    | data => rfl
    | element j =>
      have hji : j ≠ i := fun he => hne (by rw [he])
      show (match Function.update s.element i pc j with
        | .sending rest => rest
        | _ => []) = _
      rw [Function.update_of_ne hji]
      rfl

/-- Nothing of the element is on its way. -/
theorem Inv.element_framed (h : Inv x s) {pc : ElementPc} (hi : s.element i ≠ .idle)
    (hrest : s.rest (.element i) = [])
    (hrest' : ({ s with element := Function.update s.element i pc } : Sys ι).rest (.element i) =
      []) :
    ∃ ms : List Message, (∀ m ∈ ms, x.KeepAlive m) ∧
      s.out ++ ({ s with element := Function.update s.element i pc } : Sys ι).pending =
      wire ms := by
  obtain ⟨ms, hms, hout⟩ := h.framed
  refine ⟨ms, hms, ?_⟩
  have hbegun : s.data.begun = false := by rw [h.working hi]; rfl
  rw [hbegun] at hout
  have hpending : ({ s with element := Function.update s.element i pc } : Sys ι).pending =
      s.pending := by
    by_cases hl : s.lock = some (.element i)
    · rw [Sys.pending, Sys.pending]
      simp only [hl, Option.elim_some]
      exact hrest'.trans hrest.symm
    · exact pending_element s.lock hl
  rw [hpending, hout]
  exact List.append_nil _

theorem rest_element_self (pc : ElementPc) (hpc : ∀ rest, pc ≠ .sending rest) :
    ({ s with element := Function.update s.element i pc } : Sys ι).rest (.element i) = [] := by
  show (match Function.update s.element i pc i with
    | .sending rest => rest
    | _ => []) = _
  rw [Function.update_self]
  cases pc with
  | sending rest => exact absurd rfl (hpc rest)
  | _ => rfl

omit [DecidableEq ι] in
theorem rest_element_eq {pc : ElementPc} (hi : s.element i = pc)
    (hpc : ∀ rest, pc ≠ .sending rest) :
    s.rest (.element i) = [] := by
  rw [Sys.rest, hi]
  cases pc with
  | sending rest => exact absurd rfl (hpc rest)
  | _ => rfl

theorem Inv.dirLock (h : Inv x s) {path : Bytes} (hi : s.element i = .entering path)
    (hfree : s.dirLock = none) :
    Inv x { s with dirLock := some i, element := Function.update s.element i (.filling path) } := by
  have hne : s.element i ≠ .idle := by rw [hi]; nofun
  refine h.element_move hne (h.element_holder (by rw [hi]; rfl)) ?_ h.shared
    (h.element_filled nofun)
    (.inl rfl) (h.element_framed hne (rest_element_eq hi nofun) (rest_element_self _ nofun))
  refine (hfree ▸ h.dirHolder : Held none _).acquire (by rw [Function.update_self]; rfl)
    fun j hj => ?_
  rw [Function.update_of_ne hj]

/-- Under `DIRLOCK` nobody else fills the header. -/
theorem Inv.fill (h : Inv x s) {path : Bytes} (hi : s.element i = .filling path) :
    Inv x { s with
      cm := dirElement path s.cm
      element := Function.update s.element i (.locking path) } := by
  have hne : s.element i ≠ .idle := by rw [hi]; nofun
  refine h.element_move hne (h.element_holder (by rw [hi]; rfl))
    (h.element_dirHolder (by rw [hi]; rfl))
    (fun path' => h.shared path') ?_ (.inl rfl)
    (h.element_framed hne (rest_element_eq hi nofun) (rest_element_self _ nofun))
  intro j path' hj
  by_cases hji : j = i
  · subst hji
    rw [Function.update_self] at hj
    cases hj
    exact h.shared path
  · rw [Function.update_of_ne hji] at hj
    have hin : (s.element i).inDir = true := by rw [hi]; rfl
    have hother : (s.element j).inDir = false := h.dirHolder.other hin hji
    rw [hj] at hother
    cases hother

/-- An element is begun between messages. -/
theorem Inv.elementLock (h : Inv x s) {path : Bytes} (hi : s.element i = .locking path)
    (hfree : s.lock = none) :
    Inv x { s with
      lock := some (.element i)
      element := Function.update s.element i (.sending (x.elementBytes path s.cm)) } := by
  have hne : s.element i ≠ .idle := by rw [hi]; nofun
  refine h.element_move hne ?_ (h.element_dirHolder (by rw [hi]; rfl)) h.shared
    (h.element_filled nofun)
    (.inl rfl) ?_
  · exact (hfree ▸ h.holder : Held none _).acquire (by rw [holds_element_self]; rfl)
      (holds_element_other _)
  · obtain ⟨m, hm, hb⟩ := exists_element x path (h.listing i hne)
    obtain ⟨ms, hms, hout⟩ := h.framed
    have hbegun : s.data.begun = false := by rw [h.working hne]; rfl
    rw [pending_of_free hfree, hbegun] at hout
    refine ⟨ms ++ [m], ?_, ?_⟩
    · intro m' hm'
      rcases List.mem_append.mp hm' with hold | hnew
      · exact hms m' hold
      · rw [List.mem_singleton.mp hnew]
        exact hm
    · simp only [List.append_nil, Bool.false_eq_true, if_false] at hout
      rw [Sys.pending, wire, List.flatMap_append, List.flatMap_singleton, hb, hout]
      show wire ms ++ (match Function.update s.element i (.sending (x.elementBytes path s.cm))
        i with
        | .sending rest => rest
        | _ => []) = _
      rw [Function.update_self, h.filled i path hi]
      rfl

theorem Inv.elementByte (h : Inv x s) {b : Byte} {rest : Bytes}
    (hi : s.element i = .sending (b :: rest)) :
    Inv x { s with
      out := s.out ++ [b]
      element := Function.update s.element i (.sending rest) } := by
  have hne : s.element i ≠ .idle := by rw [hi]; nofun
  have hheld : s.holds (.element i) = true := by rw [Sys.holds, hi]; rfl
  have hlock : s.lock = some (.element i) := (h.holder _).mpr hheld
  refine h.element_move hne (h.element_holder (by rw [hi]; rfl))
    (h.element_dirHolder (by rw [hi]; rfl))
    h.shared (h.element_filled nofun) (.inl rfl) ?_
  obtain ⟨ms, hms, hout⟩ := h.framed
  have hbegun : s.data.begun = false := by rw [h.working hne]; rfl
  have hrest : s.rest (.element i) = b :: rest := by rw [Sys.rest, hi]
  rw [h.pending_eq hheld, hrest, hbegun] at hout
  refine ⟨ms, hms, ?_⟩
  have hpending : ({ s with element := Function.update s.element i (.sending rest) } : Sys
      ι).pending = rest := by
    rw [Sys.pending]
    simp only [hlock, Option.elim_some]
    show (match Function.update s.element i (.sending rest) i with
      | .sending rest => rest
      | _ => []) = _
    rw [Function.update_self]
  rw [hpending, List.append_assoc]
  exact hout.trans (List.append_nil _)

theorem Inv.elementUnlock (h : Inv x s) (hi : s.element i = .unlocking) :
    Inv x { s with lock := none, element := Function.update s.element i .leaving } := by
  have hne : s.element i ≠ .idle := by rw [hi]; nofun
  have hheld : s.holds (.element i) = true := by rw [Sys.holds, hi]; rfl
  refine h.element_move hne ?_ (h.element_dirHolder (by rw [hi]; rfl)) h.shared
    (h.element_filled nofun)
    (.inl rfl) ?_
  · exact h.holder.release hheld (by rw [holds_element_self]; rfl) (holds_element_other _)
  · obtain ⟨ms, hms, hout⟩ := h.framed
    have hbegun : s.data.begun = false := by rw [h.working hne]; rfl
    rw [h.pending_eq hheld, rest_element_eq hi nofun, hbegun] at hout
    exact ⟨ms, hms, hout.trans (List.append_nil _)⟩

theorem Inv.dirUnlock (h : Inv x s) (hi : s.element i = .leaving) :
    Inv x { s with dirLock := none, element := Function.update s.element i .idle } := by
  have hne : s.element i ≠ .idle := by rw [hi]; nofun
  have hin : (s.element i).inDir = true := by rw [hi]; rfl
  refine h.element_move hne (h.element_holder (by rw [hi]; rfl)) ?_ h.shared
    (h.element_filled nofun)
    (.inl rfl) (h.element_framed hne (rest_element_eq hi nofun) (rest_element_self _ nofun))
  refine h.dirHolder.release (p := i) hin (by rw [Function.update_self]; rfl) fun j hj => ?_
  rw [Function.update_of_ne hj]

theorem Inv.enter (h : Inv x s) (path : Bytes) (hl : x.lists = true) (hd : s.data = .working)
    (hi : s.element i = .idle) :
    Inv x { s with element := Function.update s.element i (.entering path) } :=
  { h with
    holder := h.element_holder (by rw [hi]; rfl)
    dirHolder := h.element_dirHolder (by rw [hi]; rfl)
    idle := fun hne => absurd hd hne
    listing := fun _ _ => hl
    filled := h.element_filled nofun
    framed := by
      obtain ⟨ms, hms, hout⟩ := h.framed
      refine ⟨ms, hms, ?_⟩
      have hnot : s.lock ≠ some (.element i) := fun hl => by
        have hheld := (h.holder _).mp hl
        rw [Sys.holds, hi] at hheld
        cases hheld
      rw [pending_element s.lock hnot]
      exact hout }

/-! ## Whole runs -/

theorem Inv.step (h : Inv x s) (hs : Step x s s') : Inv x s' := by
  cases hs with
  | completed hp =>
    exact h.ping_move (by rw [hp]; rfl) (by rw [Sys.rest, Sys.rest, hp]) nofun
      fun _ => h.informed (by rw [hp]; rfl)
  | select last v hp hlast hready =>
    refine h.ping_move (by rw [hp]; rfl) (by rw [Sys.rest, Sys.rest, hp]) nofun fun hi => ?_
    cases v with
    | ready => exact h.signalled (hready rfl)
    | timeout | error => cases hi
  | pingLock v hp hfree => exact h.pingLock hp hfree
  | pingOrSend v hp => exact h.pingOrSend hp
  | pingByte b rest resync hp => exact h.pingByte hp
  | pinged resync hp => exact h.pinged hp
  | pingUnlock next hp => exact h.pingUnlock hp
  | worked hd hidle => exact h.worked hd hidle
  | dataLock hd hfree => exact h.dataLock hd hfree
  | dataByte b rest hd =>
    have hm := h.complete
    have hs := h.signalled
    rw [hd] at hm hs
    refine h.data_move (by rw [hd]; rfl) rfl (.inl ⟨rfl, rfl⟩) (by rw [hd]; exact id) hm hs ?_
    rw [Sys.rest, Sys.rest, hd, List.append_assoc]
    rfl
  | dataSent hd =>
    have hm := h.complete
    have hs := h.signalled
    rw [hd] at hm hs
    refine h.data_move (by rw [hd]; rfl) rfl (.inl ⟨rfl, rfl⟩) (by rw [hd]; exact id) hm hs ?_
    rw [Sys.rest, Sys.rest, hd]
  | dataMark hd =>
    refine h.data_move (by rw [hd]; rfl) rfl (.inl ⟨rfl, rfl⟩) (fun _ => rfl)
      ⟨fun _ => rfl, fun _ => rfl⟩
      (fun _ => rfl) ?_
    rw [Sys.rest, Sys.rest, hd]
  | dataSignal written hd =>
    have hm := h.complete
    rw [hd] at hm
    refine h.data_move (by rw [hd]; rfl) rfl (.inl ⟨rfl, rfl⟩) (fun _ => rfl) hm (fun _ => rfl) ?_
    rw [Sys.rest, Sys.rest, hd]
  | dataUnlock hd =>
    have hm := h.complete
    rw [hd] at hm
    refine h.data_move (by rw [hd]; rfl) rfl (.inr ⟨rfl, rfl⟩) (fun _ => rfl) hm (fun _ => rfl) ?_
    rw [Sys.rest, Sys.rest, hd]
  | enter i path hl hd hi => exact h.enter path hl hd hi
  | dirLock i path hi hfree => exact h.dirLock hi hfree
  | fill i path hi => exact h.fill hi
  | elementLock i path hi hfree => exact h.elementLock hi hfree
  | elementByte i b rest hi => exact h.elementByte hi
  | elementSent i hi =>
    have hne : s.element i ≠ .idle := by rw [hi]; nofun
    exact h.element_move hne (h.element_holder (by rw [hi]; rfl))
      (h.element_dirHolder (by rw [hi]; rfl))
      h.shared (h.element_filled nofun) (.inl rfl)
      (h.element_framed hne (by rw [Sys.rest, hi]) (rest_element_self _ nofun))
  | elementMark i hi =>
    have hne : s.element i ≠ .idle := by rw [hi]; nofun
    exact h.element_move hne (h.element_holder (by rw [hi]; rfl))
      (h.element_dirHolder (by rw [hi]; rfl))
      h.shared (h.element_filled nofun) (.inr rfl)
      (h.element_framed hne (rest_element_eq hi nofun) (rest_element_self _ nofun))
  | elementUnlock i hi => exact h.elementUnlock hi
  | dirUnlock i hi => exact h.dirUnlock hi

theorem Exchange.Reachable.inv (hr : x.Reachable s) : Inv x s :=
  invariant_of_steps Inv.step hr (inv_start x)

omit [DecidableEq ι] in
/-- Nothing is being written once the response is marked as complete. -/
theorem Inv.pending_of_marked (h : Inv x s) (hm : s.data.marked = true) : s.pending = [] := by
  have hbegun : s.data.begun = true := by
    revert hm
    cases s.data <;> simp [DataPc.marked, DataPc.begun]
  cases hl : s.lock with
  | none => exact pending_of_free hl
  | some p =>
    rw [Sys.pending, hl]
    cases p with
    | ping =>
      refine rest_ping_of_not_pinging ?_
      by_contra hp
      rw [h.pinging (Bool.not_eq_false _ ▸ hp)] at hbegun
      cases hbegun
    | data =>
      show s.rest .data = []
      rw [Sys.rest]
      revert hm
      cases s.data <;> simp [DataPc.marked]
    | element i =>
      refine rest_element_eq (h.idle (fun hw => ?_) i) nofun
      rw [hw] at hm
      cases hm

end

end Owfs.Server
