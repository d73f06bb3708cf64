import Owfs.Client.Requests

/-!
# Sending a request

`To_Server` finds a connection and passes it to `WriteToServer`, which lays the message out and
calls `writev`. `writev` may fail, may take a part of the message or all of it. Only the bytes
written during the call are kept here, for each connection that was used. What is read later is
left to the model of whole requests, which this one refines (`toServer_alike`).

`WriteToServer` ends in a comparison, which is 0 or 1, and `To_Server` asks whether the result is
negative. So the only failure it sees is the one that comes before `writev`.
-/

namespace Owfs.Client.Sending

open Infra Owfs.Protocol

/-! ## The code -/

/-- Where a connection comes from: it was idle, or one of the three calls of `ClientConnect` in
`To_Server` made it. -/
inductive Origin where
  | idle | connect | reconnect | retry
deriving DecidableEq, Repr

/-- A connection, and what was written to it. -/
structure Wire where
  origin : Origin
  sent : Bytes := []
deriving DecidableEq

/-- `pown->file_descriptor` -/
inductive Port where
  | bad | inUse | idle
deriving DecidableEq, Repr

/-- What the system answers: `ClientConnect` at its three places, the test read that finds the
connection closed, and the two calls of `writev` (no result: an error). -/
structure Calls where
  connect : Bool
  reconnect : Bool
  retry : Bool
  closed : Bool
  first : Option Nat
  second : Option Nat

/-- `struct server_connection_state` -/
structure State where
  fileDescriptor : Option Wire
  persistence : Bool
  pown : Port
deriving DecidableEq

/-- `ClientConnect` -/
def clientConnect (ok : Bool) (origin : Origin) : Option Wire :=
  if ok then some ⟨origin, []⟩ else none

/-- `Close_Persistent` -/
def closePersistent (scs : State) : State where
  fileDescriptor := none
  persistence := false
  pown := if scs.persistence then .bad else scs.pown

section

variable (g : Globals) (sm : ServerMsg) (sp : ServerPackage) (noPersistence : Bool) (calls : Calls)
    (pown : Port)

/-- `WriteToServer`: the result, and the connection after it. -/
def writeToServer (written : Option Nat) (w : Wire) : Int × Wire :=
  match Protocol.writeToServer g sm sp with
  | .error e => (e, w)
  | .ok message =>
    match written with
    | none => (1, w)
    | some n => (if message.length ≤ n then 0 else 1, { w with sent := w.sent ++ message.take n })

/-- The start of `To_Server`. -/
def setUp : State :=
  if noPersistence then ⟨clientConnect calls.connect .connect, false, pown⟩
  else
    match pown with
    | .inUse => ⟨clientConnect calls.connect .connect, false, .inUse⟩
    | .bad => ⟨clientConnect calls.connect .connect, true, if calls.connect then .inUse else .bad⟩
    | .idle => ⟨some ⟨.idle, []⟩, true, .inUse⟩

/-- "Check if the server closed the connection" -/
def reconnectClosed (scs : State) : State :=
  if scs.fileDescriptor = none ∨ calls.closed = true then
    let scs := closePersistent scs
    { scs with
      fileDescriptor := clientConnect calls.reconnect .reconnect
      pown := if calls.reconnect then .inUse else scs.pown }
  else scs

/-- What `To_Server` leaves: whether it is `gbGOOD`, the connection state, and the connections that
it wrote to. -/
structure Delivery where
  good : Bool
  scs : State
  attempts : List Wire

/-- `To_Server` -/
def toServer : Delivery :=
  let scs := reconnectClosed calls (setUp noPersistence calls pown)
  match scs.fileDescriptor with
  | none => ⟨false, closePersistent scs, []⟩
  | some w =>
    let (n, w) := writeToServer g sm sp calls.first w
    if n ≥ 0 then ⟨true, { scs with fileDescriptor := some w }, [w]⟩
    else if scs.persistence = false then ⟨false, closePersistent scs, [w]⟩
    else
      -- perhaps the persistent connection is stale?
      match clientConnect calls.retry .retry with
      | none => ⟨false, closePersistent { scs with fileDescriptor := none }, [w]⟩
      | some w' =>
        let (n, w') := writeToServer g sm sp calls.second w'
        if n ≥ 0 then ⟨true, { scs with fileDescriptor := some w' }, [w, w']⟩
        else ⟨false, closePersistent { scs with fileDescriptor := some w' }, [w, w']⟩

/-! ## What it is for -/

/-- The message was written to `w` in full. -/
def Whole (w : Wire) : Prop := Protocol.writeToServer g sm sp = .ok w.sent

/-- `To_Server` comes to its first write. -/
def reaches : Bool :=
  if (calls.connect || !noPersistence && pown == .idle) && !calls.closed then true
    else calls.reconnect

/-- The first write is made on a persistent connection. -/
def persistentFirst : Bool :=
  !noPersistence && !(pown == .inUse) && (calls.connect || pown == .idle) && !calls.closed

/-- The first call of `writev` takes the whole message. -/
def FirstWhole : Prop :=
  ∃ message n, Protocol.writeToServer g sm sp = .ok message ∧ calls.first = some n ∧
    message.length ≤ n

/-- A request is sent whole or `To_Server` fails; and a first write on a persistent connection that
is not whole is followed by a second one on a new connection. -/
structure SentWhole : Prop where
  whole : (toServer g sm sp noPersistence calls pown).good = true →
    ∃ w, (toServer g sm sp noPersistence calls pown).scs.fileDescriptor = some w ∧ Whole g sm sp w
  retried : persistentFirst noPersistence calls pown = true → ¬ FirstWhole g sm sp calls →
    calls.retry = true →
    ∃ w w', (toServer g sm sp noPersistence calls pown).attempts = [w, w'] ∧ w'.origin = .retry

variable {g sm sp noPersistence calls pown}

/-- The only error before `writev` is a token list that is too long. -/
theorem writeToServer_error {e : Int} (h : Protocol.writeToServer g sm sp = .error e) :
    e = -eloop := by
  unfold Protocol.writeToServer at h
  dsimp only at h
  split at h
  · cases h
    rfl
  · cases h

/-- A message has a header, so it is not empty. -/
theorem length_writeToServer_pos {message : Bytes}
    (h : Protocol.writeToServer g sm sp = .ok message) :
    0 < message.length := by
  unfold Protocol.writeToServer at h
  dsimp only at h
  split at h
  · cases h
  · cases h
    rw [List.length_append, ServerMsg.length_hton]
    exact Nat.lt_of_lt_of_le (by decide) (Nat.le_add_right _ _)

/-- The connection of the first write, if there is one. -/
theorem connection_cases (noPersistence : Bool) (calls : Calls) (pown : Port) :
    (reaches noPersistence calls pown = true ∧
      ∃ w, (reconnectClosed calls (setUp noPersistence calls pown)).fileDescriptor = some w ∧
      w.sent = [] ∧
        (reconnectClosed calls (setUp noPersistence calls pown)).persistence
          = persistentFirst noPersistence calls pown) ∨
    (reaches noPersistence calls pown = false ∧
      (reconnectClosed calls (setUp noPersistence calls pown)).fileDescriptor = none ∧
      persistentFirst noPersistence calls pown = false) := by
  obtain ⟨connect, reconnect, retry, closed, first, second⟩ := calls
  cases noPersistence <;> cases pown <;> cases connect <;> cases reconnect <;> cases closed <;>
    first
    | exact .inl ⟨rfl, _, rfl, rfl, rfl⟩
    | exact .inr ⟨rfl, rfl, rfl⟩

/-- Whatever `writev` did, the result is not negative. -/
theorem writeToServer_nonneg {message : Bytes} (hmsg : Protocol.writeToServer g sm sp = .ok message)
    (written : Option Nat) (w : Wire) : (writeToServer g sm sp written w).1 ≥ 0 := by
  rw [writeToServer, hmsg]
  cases written with
  | none => exact (by decide : (1 : Int) ≥ 0)
  | some n =>
    dsimp only
    split <;> decide

/-- So the first write is the only one. -/
theorem toServer_of_message {message : Bytes} (hmsg : Protocol.writeToServer g sm sp = .ok message)
    {w : Wire} (hfd : (reconnectClosed calls (setUp noPersistence calls pown)).fileDescriptor =
      some w) :
    toServer g sm sp noPersistence calls pown
      = ⟨true, { reconnectClosed calls (setUp noPersistence calls pown) with
          fileDescriptor := some (writeToServer g sm sp calls.first w).2 },
        [(writeToServer g sm sp calls.first w).2]⟩ := by
  rw [toServer, hfd]
  simp only [if_pos (writeToServer_nonneg hmsg calls.first w)]

theorem whole_writeToServer_iff {message : Bytes}
    (hmsg : Protocol.writeToServer g sm sp = .ok message) {written : Option Nat} {w : Wire}
    (hsent : w.sent = []) :
    Whole g sm sp (writeToServer g sm sp written w).2 ↔ ∃ n, written = some n ∧
      message.length ≤ n := by
  have hpos := length_writeToServer_pos hmsg
  rw [Whole, writeToServer, hmsg]
  cases written with
  | none =>
    dsimp only
    constructor
    · intro h
      rw [Except.ok.inj h, hsent] at hpos
      cases hpos
    · rintro ⟨n, hn, -⟩
      cases hn
  | some n =>
    dsimp only
    rw [hsent, List.nil_append]
    constructor
    · intro h
      refine ⟨n, rfl, ?_⟩
      have hlen := congrArg List.length (Except.ok.inj h)
      rw [List.length_take] at hlen
      omega
    · rintro ⟨n', hn, hle⟩
      cases hn
      rw [List.take_of_length_le hle]

theorem firstWhole_iff {message : Bytes} (hmsg : Protocol.writeToServer g sm sp = .ok message) :
    FirstWhole g sm sp calls ↔ ∃ n, calls.first = some n ∧ message.length ≤ n := by
  constructor
  · rintro ⟨message', n, hmsg', hn, hle⟩
    rw [hmsg] at hmsg'
    cases hmsg'
    exact ⟨n, hn, hle⟩
  · rintro ⟨n, hn, hle⟩
    exact ⟨message, n, hmsg, hn, hle⟩

/-- When the token list is too long `writev` is not called at all, so both attempts fail. -/
theorem sentWhole_of_error {e : Int} (hmsg : Protocol.writeToServer g sm sp = .error e) {w : Wire}
    (hfd : (reconnectClosed calls (setUp noPersistence calls pown)).fileDescriptor = some w)
    (hpers : (reconnectClosed calls (setUp noPersistence calls pown)).persistence
      = persistentFirst noPersistence calls pown) :
    SentWhole g sm sp noPersistence calls pown := by
  have hneg : ¬ e ≥ 0 := by
    rw [writeToServer_error hmsg]
    decide
  have hwrite : ∀ n w, writeToServer g sm sp n w = (e, w) := by
    intro n w
    rw [writeToServer, hmsg]
  constructor
  · intro hgood
    rw [toServer, hfd] at hgood
    simp only [hwrite, if_neg hneg] at hgood
    split at hgood
    · cases hgood
    · cases hr : calls.retry <;> rw [hr] at hgood <;> cases hgood
  · intro hp _ hretry
    rw [toServer, hfd]
    simp only [hwrite, if_neg hneg, hpers, hp, hretry, clientConnect, if_true, Bool.true_eq_false,
      if_false]
    exact ⟨w, _, rfl, rfl⟩

/-- **When requests are sent whole or fail.** `To_Server` keeps its promise exactly when the first
`writev` it comes to takes the whole message, unless the token list is too long for any. -/
theorem sentWhole_iff (g : Globals) (sm : ServerMsg) (sp : ServerPackage) (noPersistence : Bool)
    (calls : Calls) (pown : Port) :
    SentWhole g sm sp noPersistence calls pown ↔
      (reaches noPersistence calls pown = true →
      (∃ message, Protocol.writeToServer g sm sp = .ok message) →
        FirstWhole g sm sp calls) := by
  rcases connection_cases noPersistence calls pown with
    ⟨hreach, w, hfd, hsent, hpers⟩ | ⟨hreach, hfd, hpers⟩
  · cases hmsg : Protocol.writeToServer g sm sp with
    | error e =>
      exact iff_of_true (sentWhole_of_error hmsg hfd hpers) (fun _ ⟨message, h⟩ => nomatch h)
    | ok message =>
      have hto := toServer_of_message hmsg hfd
      constructor
      · rintro ⟨hwhole, -⟩ _ _
        rw [hto] at hwhole
        obtain ⟨w', hw', hok⟩ := hwhole rfl
        rw [← Option.some.inj hw'] at hok
        exact (firstWhole_iff hmsg).mpr ((whole_writeToServer_iff hmsg hsent).mp hok)
      · intro h
        have hfirst := h hreach ⟨message, rfl⟩
        refine ⟨fun _ => ?_, fun _ hnot => absurd hfirst hnot⟩
        rw [hto]
        exact ⟨_, rfl, (whole_writeToServer_iff hmsg hsent).mpr ((firstWhole_iff hmsg).mp hfirst)⟩
  · refine iff_of_true ⟨fun hgood => ?_, fun hp => ?_⟩ (fun h => ?_)
    · rw [toServer, hfd] at hgood
      cases hgood
    · rw [hpers] at hp
      cases hp
    · rw [hreach] at h
      cases h

end

/-! ## The model of whole requests -/

section

/-- Where a port stands, without the connection that waits there. -/
def portOf : PortIn → Port
  | .bad => .bad
  | .inUse => .inUse
  | .idle _ => .idle

/-- What `writev` does is no part of a request there. -/
def callsOf (sys : System) (first second : Option Nat) : Calls :=
  ⟨sys.connect.isSome, sys.reconnect.isSome, sys.retry.isSome, sys.closed, first, second⟩

/-- The same state, without what was written to the connection and what comes from it. -/
structure Alike (scs : ServerConnectionState) (st : State) : Prop where
  fileDescriptor : scs.fileDescriptor.isSome = st.fileDescriptor.isSome
  persistence : scs.persistence = st.persistence
  pown : portOf scs.pown = st.pown

variable {scs : ServerConnectionState} {st : State} {sys : System} {first second : Option Nat}

theorem Alike.close (h : Alike scs st) :
    Alike (Client.closePersistent scs) (closePersistent st) where
  fileDescriptor := rfl
  persistence := rfl
  pown := by
    unfold Client.closePersistent closePersistent
    rw [h.persistence]
    cases st.persistence with
    | false => exact h.pown
    | true => rfl

theorem setUp_alike (noPersistence : Bool) (sys : System) (first second : Option Nat)
    (pown : PortIn) :
    Alike (Client.setUp noPersistence sys pown)
      (setUp noPersistence (callsOf sys first second) (portOf pown)) := by
  unfold Client.setUp setUp callsOf
  cases noPersistence <;> cases pown <;> cases sys.connect <;> exact ⟨rfl, rfl, rfl⟩

theorem Alike.reconnect (h : Alike scs st) :
    Alike (Client.reconnectClosed sys scs) (reconnectClosed (callsOf sys first second) st) := by
  have hnone : scs.fileDescriptor = none ↔ st.fileDescriptor = none := by
    rw [← Option.not_isSome_iff_eq_none, ← Option.not_isSome_iff_eq_none, h.fileDescriptor]
  have hbad : scs.fileDescriptor = none ∨ sys.closed = true ↔
      st.fileDescriptor = none ∨ (callsOf sys first second).closed = true :=
    or_congr_left hnone
  unfold Client.reconnectClosed reconnectClosed
  by_cases hclosed : scs.fileDescriptor = none ∨ sys.closed = true
  · rw [if_pos hclosed, if_pos (hbad.mp hclosed)]
    unfold callsOf
    cases sys.reconnect with
    | none => exact ⟨rfl, rfl, h.close.pown⟩
    | some s => exact ⟨rfl, rfl, rfl⟩
  · rw [if_neg hclosed, if_neg fun hclosed' => hclosed (hbad.mpr hclosed')]
    exact h

/-- **The two models of `To_Server` agree.** There a write either succeeds or not; it fails here
when the message cannot be laid out, and never because of `writev`. -/
theorem toServer_alike (noPersistence : Bool) (kind : Kind) (pown : PortIn)
    (hwritten : sys.written = (Protocol.writeToServer g sm sp).isOk)
    (hrewritten : sys.rewritten = (Protocol.writeToServer g sm sp).isOk) :
    (Client.toServer noPersistence sys kind pown).1
        = (toServer g sm sp noPersistence (callsOf sys first second) (portOf pown)).good ∧
      Alike (Client.toServer noPersistence sys kind pown).2
        (toServer g sm sp noPersistence (callsOf sys first second) (portOf pown)).scs := by
  have h : Alike (Client.reconnectClosed sys (Client.setUp noPersistence sys pown))
      (reconnectClosed (callsOf sys first second)
        (setUp noPersistence (callsOf sys first second) (portOf pown))) :=
    (setUp_alike noPersistence sys first second pown).reconnect
  unfold Client.toServer toServer
  generalize Client.reconnectClosed sys (Client.setUp noPersistence sys pown) = scs at h ⊢
  generalize reconnectClosed (callsOf sys first second)
    (setUp noPersistence (callsOf sys first second) (portOf pown)) = st at h ⊢
  obtain ⟨fd, persistence, pown'⟩ := scs
  obtain ⟨fd', persistence', port'⟩ := st
  obtain ⟨hfd, rfl, hpown⟩ := h
  dsimp only at hfd hpown ⊢
  cases fd with
  | none =>
    cases fd' with
    | none => exact ⟨rfl, Alike.close ⟨rfl, rfl, hpown⟩⟩
    | some w => cases hfd
  | some conn =>
    cases fd' with
    | none => cases hfd
    | some w =>
      dsimp only
      rw [hwritten, hrewritten]
      cases hmsg : Protocol.writeToServer g sm sp with
      | ok message =>
        rw [if_pos (writeToServer_nonneg hmsg _ w)]
        exact ⟨rfl, rfl, rfl, hpown⟩
      | error e =>
        have hwrite : ∀ n w, writeToServer g sm sp n w = (e, w) := fun n w => by
          rw [writeToServer, hmsg]
        have hneg : ¬ e ≥ 0 := by
          rw [writeToServer_error hmsg]
          decide
        -- what is closed does not matter
        have hclose {fd : Option Conn} {fd' : Option Wire} :
            Alike (Client.closePersistent ⟨fd, persistence, pown'⟩)
              (closePersistent ⟨fd', persistence, port'⟩) :=
          show Alike (Client.closePersistent ⟨none, persistence, pown'⟩)
            (closePersistent ⟨none, persistence, port'⟩) from Alike.close ⟨rfl, rfl, hpown⟩
        simp only [hwrite, if_neg hneg]
        cases persistence with
        | false => exact ⟨rfl, hclose⟩
        | true =>
          unfold callsOf clientConnect
          cases sys.retry with
          | none => exact ⟨rfl, hclose⟩
          | some s => exact ⟨rfl, hclose⟩

end

/-- A client, and the read of a file. -/
def sampleGlobals : Globals := ⟨.httpd, ⟨List.replicate 16 0, rfl⟩⟩

def sampleHeader : ServerMsg := ⟨0, 0, MsgClassification.read.code, 0, 12, 0⟩

def samplePackage : ServerPackage := ⟨some [0x2F, 0x61], none, 0, [], 0⟩

/-- The first `writev` fails on the idle connection; a new connection could be made. -/
def sampleCalls : Calls := ⟨true, true, true, false, none, some 1000⟩

/-- The request is taken as sent, although nothing was written. -/
theorem failed_write_is_good :
    ¬ SentWhole sampleGlobals sampleHeader samplePackage false sampleCalls .idle := by
  rintro ⟨hwhole, -⟩
  obtain ⟨w, hw, hok⟩ := hwhole rfl
  cases hw
  cases hok

end Owfs.Client.Sending
