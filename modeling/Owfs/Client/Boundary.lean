import Owfs.Client.Requests

/-!
# Message boundaries of a persistent connection

A response is any number of delay messages, a header, and the payload that the header announces;
the response to a directory request is a row of these that ends with an empty one. A connection
is at a message boundary when the bytes read from it are one response for each request written to
it, so that the next request finds the start of its own response.

`From_Server` closes a connection when the payload does not fit. `From_ServerAlloc` leaves the
payload where it is when the result is an error or the payload is too long, and `ServerDIR` stops
at a path that it cannot parse; still, the connection is kept if the last header allows it.
`Clean` is the condition on what arrives that rules this out, and `runCalls_atBoundary` shows that
in every run of requests that meet it, a connection that waits for the next request is at a
message boundary.
-/

namespace Owfs.Client

open Infra Owfs.Protocol

/-! ## Responses -/

/-- Messages that only say that the server is still busy. -/
inductive Delays : Bytes → Prop
  | nil : Delays []
  | cons {h b : Bytes} : h.length = headerSize → (ClientMsg.ntoh h).payload.toInt < 0 → Delays b →
      Delays (h ++ b)

/-- Delay messages and the header `cm` behind them. -/
def Heading (b : Bytes) (cm : ClientMsg) : Prop :=
  ∃ d h, Delays d ∧ h.length = headerSize ∧ ClientMsg.ntoh h = cm ∧ 0 ≤ cm.payload.toInt ∧
    b = d ++ h

/-- A header and the payload that it announces. -/
def Message (b : Bytes) (cm : ClientMsg) (body : Bytes) : Prop :=
  ∃ head, Heading head cm ∧ body.length = cm.payload.toInt.toNat ∧ b = head ++ body

/-- The response to a directory request: the elements up to and including the empty one. -/
inductive Listing : Bytes → Prop
  | terminator {b : Bytes} {cm : ClientMsg} : Message b cm [] → Listing b
  | element {b bs body : Bytes} {cm : ClientMsg} : Message b cm body → body ≠ [] → Listing bs →
      Listing (b ++ bs)

/-- The whole response to a request. -/
def Complete : Kind → Bytes → Prop
  | .dir, b => Listing b
  | _, b => ∃ cm body, Message b cm body

/-- Exactly the responses to the requests have been read. -/
def AtBoundary (conn : Conn) : Prop :=
  ∃ responses, List.Forall₂ Complete conn.requests responses ∧ conn.taken = responses.flatten

theorem atBoundary_fresh (s : Stream) : AtBoundary (.fresh s) := ⟨[], .nil, rfl⟩

/-! ## What arrives -/

/-- Bytes that arrive without a pause. -/
def bytesOf (b : Bytes) : Stream := b.map .byte

@[simp] theorem bytesOf_append (a b : Bytes) : bytesOf (a ++ b) = bytesOf a ++ bytesOf b :=
  List.map_append

/-- The bytes at the head of a stream are determined by their number. -/
theorem bytesOf_append_inj {a b : Bytes} {s t : Stream} (h : bytesOf a ++ s = bytesOf b ++ t)
    (hlen : a.length = b.length) : a = b ∧ s = t := by
  obtain ⟨hab, hst⟩ := List.append_inj h (by simp [bytesOf, hlen])
  refine ⟨List.map_injective_iff.mpr ?_ hab, hst⟩
  intro x y hxy
  cases hxy
  rfl

/-- A header is found at one place only. -/
theorem Heading.unique {head head' : Bytes} {cm cm' : ClientMsg} {rest rest' : Stream}
    (h : Heading head cm) (h' : Heading head' cm')
    (heq : bytesOf head ++ rest = bytesOf head' ++ rest') : head = head' ∧ cm = cm' := by
  obtain ⟨d, x, hd, hx, rfl, hpos, rfl⟩ := h
  obtain ⟨d', x', hd', hx', rfl, hpos', rfl⟩ := h'
  induction hd generalizing d' with
  | nil =>
    cases hd' with
    | nil =>
      obtain ⟨rfl, -⟩ := bytesOf_append_inj heq (hx.trans hx'.symm)
      exact ⟨rfl, rfl⟩
    | cons hy hneg hb =>
      simp only [List.nil_append, bytesOf_append, List.append_assoc] at heq
      obtain ⟨rfl, -⟩ := bytesOf_append_inj heq (hx.trans hy.symm)
      omega
  | cons hy hneg hb ih =>
    cases hd' with
    | nil =>
      simp only [List.nil_append, bytesOf_append, List.append_assoc] at heq
      obtain ⟨rfl, -⟩ := bytesOf_append_inj heq (hy.trans hx'.symm)
      omega
    | cons hy' hneg' hb' =>
      simp only [bytesOf_append, List.append_assoc] at heq
      obtain ⟨rfl, heq⟩ := bytesOf_append_inj heq (hy.trans hy'.symm)
      obtain ⟨hdx, hcm⟩ := ih _ hb' (by simpa using heq)
      exact ⟨by rw [List.append_assoc, List.append_assoc, hdx], hcm⟩

/-! ## Reading -/

/-- The bytes `b` are read from the connection. -/
structure Reads (conn : Conn) (b : Bytes) (conn' : Conn) : Prop where
  taken : conn'.taken = conn.taken ++ b
  coming : conn.coming = bytesOf b ++ conn'.coming
  requests : conn'.requests = conn.requests

theorem Reads.trans {conn₁ conn₂ conn₃ : Conn} {b c : Bytes} (h : Reads conn₁ b conn₂)
    (h' : Reads conn₂ c conn₃) : Reads conn₁ (b ++ c) conn₃ where
  taken := by rw [h'.taken, h.taken, List.append_assoc]
  coming := by rw [h.coming, h'.coming, bytesOf_append, List.append_assoc]
  requests := h'.requests.trans h.requests

theorem takeBytes_of_length {n : Nat} {s : Stream} (h : (takeBytes n s).1.length = n) :
    s = bytesOf (takeBytes n s).1 ++ (takeBytes n s).2 := by
  induction n generalizing s with
  | zero => rfl
  | succ n ih =>
    cases s with
    | nil => cases h
    | cons a s =>
      cases a with
      | pause => cases h
      | byte b =>
        have hlen : (takeBytes n s).1.length = n := Nat.succ.inj h
        show .byte b :: s = .byte b :: (bytesOf (takeBytes n s).1 ++ (takeBytes n s).2)
        rw [← ih hlen]

/-- Bytes that arrive in time are read. -/
theorem takeBytes_bytesOf (b : Bytes) (s : Stream) :
    takeBytes b.length (bytesOf b ++ s) = (b, s) := by
  induction b with
  | nil => rfl
  | cons x xs ih =>
    show (x :: (takeBytes xs.length (bytesOf xs ++ s)).1,
      (takeBytes xs.length (bytesOf xs ++ s)).2) = _
    rw [ih]

theorem tcpRead_reads {conn : Conn} {n : Nat} (h : (conn.tcpRead n).1.length = n) :
    Reads conn (conn.tcpRead n).1 (conn.tcpRead n).2 :=
  ⟨rfl, takeBytes_of_length h, rfl⟩

/-- A header that was found is the next one. -/
theorem nextHeader_some {fuel : Nat} {conn conn' : Conn} {cm : ClientMsg}
    (h : nextHeader fuel conn = (some cm, conn')) :
    ∃ head, Heading head cm ∧ Reads conn head conn' := by
  induction fuel generalizing conn with
  | zero => cases h
  | succ fuel ih =>
    simp only [nextHeader] at h
    split at h
    · cases h
    · next hlen =>
      have hlen : (conn.tcpRead headerSize).1.length = headerSize := Decidable.not_not.mp hlen
      have hread := tcpRead_reads hlen
      split at h
      · next hneg =>
        obtain ⟨head, ⟨d, x, hd, hx, hcm, hpos, rfl⟩, hreads⟩ := ih h
        refine ⟨(conn.tcpRead headerSize).1 ++ (d ++ x), ?_, hread.trans hreads⟩
        exact ⟨_, x, .cons hlen hneg hd, hx, hcm, hpos, by rw [List.append_assoc]⟩
      · next hpos =>
        cases h
        exact ⟨_, ⟨[], _, .nil, hlen, rfl, Int.not_lt.mp hpos, rfl⟩, hread⟩

/-- The ways in which `From_ServerAlloc` comes back. -/
inductive AllocOutcome (conn : Conn) : Option Bytes × ClientMsg × Conn → Prop
  | broken (conn' : Conn) : AllocOutcome conn (none, .failed, conn')
  | empty {head : Bytes} {cm : ClientMsg} {conn' : Conn} : Heading head cm → cm.payload = 0 →
      Reads conn head conn' → AllocOutcome conn (none, cm, conn')
  /-- The payload is left where it is. -/
  | refused {head : Bytes} {cm : ClientMsg} {conn' : Conn} : Heading head cm → cm.payload ≠ 0 →
      cm.ret.toInt < 0 ∨ maxPayloadSize < cm.payload.toInt.toNat → Reads conn head conn' →
      AllocOutcome conn (none, cm, conn')
  /-- The payload did not arrive in time. -/
  | short {head : Bytes} {cm : ClientMsg} {conn₁ : Conn} (conn' : Conn) : Heading head cm →
      cm.payload ≠ 0 → Reads conn head conn₁ →
      (∀ body rest, conn₁.coming = bytesOf body ++ rest →
        body.length ≠ cm.payload.toInt.toNat) →
      AllocOutcome conn
        (none, { cm with payload := 0, offset := 0, ret := BitVec.ofInt 32 (-eio) }, conn')
  | message {head msg : Bytes} {cm : ClientMsg} {conn₁ conn' : Conn} : Heading head cm →
      cm.payload ≠ 0 → 0 ≤ cm.ret.toInt → cm.payload.toInt.toNat ≤ maxPayloadSize →
      Reads conn head conn₁ → msg.length = cm.payload.toInt.toNat → Reads conn₁ msg conn' →
      AllocOutcome conn (some msg, cm, conn')

theorem fromServerAlloc_outcome (conn : Conn) : AllocOutcome conn (fromServerAlloc conn) := by
  unfold fromServerAlloc
  split
  · next conn' _ => exact .broken conn'
  · next cm conn₁ hnext =>
    obtain ⟨head, hhead, hreads⟩ := nextHeader_some hnext
    split
    · next hzero => exact .empty hhead hzero hreads
    · next hzero =>
      split
      · next hret => exact .refused hhead hzero (.inl hret) hreads
      · next hret =>
        split
        · next hmax => exact .refused hhead hzero (.inr hmax) hreads
        · next hmax =>
          simp only
          split
          · next hlen =>
            refine .short _ hhead hzero hreads fun body rest hcoming hbody => hlen ?_
            rw [Conn.tcpRead, hcoming, ← hbody, takeBytes_bytesOf]
          · next hlen =>
            have hlen := Decidable.not_not.mp hlen
            exact .message hhead hzero (Int.not_lt.mp hret) (Nat.not_lt.mp hmax) hreads hlen
              (tcpRead_reads hlen)

/-! ## Clean streams -/

/-- A payload that `From_ServerAlloc` takes, and that `accepts` accepts, follows the header. -/
def Whole (accepts : Bytes → Prop) (cm : ClientMsg) (rest : Stream) : Prop :=
  0 ≤ cm.ret.toInt ∧ cm.payload.toInt.toNat ≤ maxPayloadSize ∧
    ∃ body rest', rest = bytesOf body ++ rest' ∧ body.length = cm.payload.toInt.toNat ∧ accepts body

/-- `Directory_Element` takes the path. -/
def Accepted (element : Bytes → Int) (body : Bytes) : Prop := element (body.dropLast ++ [0]) = 0

/-- Directory elements that are all taken. -/
inductive Elements (element : Bytes → Int) : Bytes → Prop
  | nil : Elements element []
  | cons {b bs body : Bytes} {cm : ClientMsg} : Message b cm body → body ≠ [] →
      0 ≤ cm.ret.toInt → cm.payload.toInt.toNat ≤ maxPayloadSize → Accepted element body →
      Elements element bs → Elements element (b ++ bs)

/-- The condition on what arrives after a request. A header that grants the connection is followed
by a payload that is read in full; for a directory this is asked of the first header behind the
elements that were taken, and its path must be taken too. -/
def Clean (element : Bytes → Int) : Kind → Stream → Prop
  | .read _, _ => True
  | .write, _ => True
  | .presence, s => ∀ head cm rest, s = bytesOf head ++ rest → Heading head cm → cm.granted →
      0 ≤ cm.ret.toInt → cm.payload.toInt.toNat ≤ maxPayloadSize
  | .dirall, s => ∀ head cm rest, s = bytesOf head ++ rest → Heading head cm → cm.granted →
      cm.payload = 0 ∨ Whole (fun _ => True) cm rest
  | .dir, s => ∀ b head cm rest, s = bytesOf (b ++ head) ++ rest → Elements element b →
      Heading head cm → cm.granted → cm.payload = 0 ∨ Whole (Accepted element) cm rest

variable {element : Bytes → Int}

/-- A header whose payload stays on the connection is not followed by a whole payload. -/
theorem Whole.not_refused {accepts : Bytes → Prop} {cm : ClientMsg} {rest : Stream}
    (h : Whole accepts cm rest) :
    ¬ (cm.ret.toInt < 0 ∨ maxPayloadSize < cm.payload.toInt.toNat) := by
  obtain ⟨hret, hmax, -⟩ := h
  rintro (h' | h')
  · exact Int.not_lt.mpr hret h'
  · exact Nat.not_lt.mpr hmax h'

theorem ClientMsg.not_granted_failed : ClientMsg.failed.granted ≠ true := by decide

theorem Heading.message {head body : Bytes} {cm : ClientMsg} (h : Heading head cm)
    (hlen : body.length = cm.payload.toInt.toNat) : Message (head ++ body) cm body :=
  ⟨head, h, hlen, rfl⟩

theorem Heading.message_nil {head : Bytes} {cm : ClientMsg} (h : Heading head cm)
    (hzero : cm.payload = 0) : Message head cm [] :=
  ⟨head, h, by rw [hzero]; rfl, (List.append_nil head).symm⟩

/-- The payload of a header that is not a delay message. -/
theorem Heading.body_ne_nil {head body : Bytes} {cm : ClientMsg} (h : Heading head cm)
    (hne : cm.payload ≠ 0) (hlen : body.length = cm.payload.toInt.toNat) : body ≠ [] := by
  obtain ⟨d, x, -, -, rfl, hpos, -⟩ := h
  rintro rfl
  apply hne
  apply BitVec.eq_of_toInt_eq
  rw [List.length_nil] at hlen
  rw [show (0 : BitVec 32).toInt = 0 from rfl]
  omega

/-! ## One response -/

/-- `ServerDIRALL` keeps a connection only behind a whole response. -/
theorem fromServerAlloc_dirall {conn conn' : Conn} {msg : Option Bytes} {cm : ClientMsg}
    (hclean : Clean element .dirall conn.coming) (h : fromServerAlloc conn = (msg, cm, conn'))
    (hgrant : cm.granted) : ∃ b, Complete .dirall b ∧ Reads conn b conn' := by
  have hout := fromServerAlloc_outcome conn
  rw [h] at hout
  cases hout with
  | broken => exact absurd hgrant ClientMsg.not_granted_failed
  | empty hhead hzero hreads => exact ⟨_, ⟨cm, [], hhead.message_nil hzero⟩, hreads⟩
  | refused hhead hzero hwhy hreads =>
    rcases hclean _ _ _ hreads.coming hhead hgrant with h0 | hwhole
    · exact absurd h0 hzero
    · exact absurd hwhy hwhole.not_refused
  | short _ hhead hzero hreads hnone =>
    rcases hclean _ _ _ hreads.coming hhead hgrant with h0 | ⟨-, -, body, rest, hrest, hlen, -⟩
    · exact absurd h0 hzero
    · exact absurd hlen (hnone body rest hrest)
  | message hhead hzero hret hmax hreads hlen hreads' =>
    exact ⟨_, ⟨cm, _, hhead.message hlen⟩, hreads.trans hreads'⟩

/-- `ServerPresence` does so too; it closes the connection after an error. -/
theorem fromServerAlloc_presence {conn conn' : Conn} {msg : Option Bytes} {cm : ClientMsg}
    (hclean : Clean element .presence conn.coming) (h : fromServerAlloc conn = (msg, cm, conn'))
    (hret : ¬ cm.ret.toInt < 0) (hgrant : cm.granted) :
    ∃ b, Complete .presence b ∧ Reads conn b conn' := by
  have hout := fromServerAlloc_outcome conn
  rw [h] at hout
  cases hout with
  | broken => exact absurd hgrant ClientMsg.not_granted_failed
  | empty hhead hzero hreads => exact ⟨_, ⟨cm, [], hhead.message_nil hzero⟩, hreads⟩
  | refused hhead hzero hwhy hreads =>
    have hmax := hclean _ _ _ hreads.coming hhead hgrant (Int.not_lt.mp hret)
    rcases hwhy with h' | h'
    · exact absurd h' hret
    · exact absurd h' (Nat.not_lt.mpr hmax)
  | short => exact absurd (by decide : (BitVec.ofInt 32 (-eio)).toInt < 0) hret
  | message hhead hzero _ hmax hreads hlen hreads' =>
    exact ⟨_, ⟨cm, _, hhead.message hlen⟩, hreads.trans hreads'⟩

/-- What arrives behind an element that was taken is clean as well. -/
theorem Clean.dir_tail {s s' : Stream} {b body : Bytes} {cm : ClientMsg}
    (h : Clean element .dir s) (hs : s = bytesOf b ++ s') (hmsg : Message b cm body)
    (hne : body ≠ []) (hret : 0 ≤ cm.ret.toInt) (hmax : cm.payload.toInt.toNat ≤ maxPayloadSize)
    (hacc : Accepted element body) : Clean element .dir s' := by
  intro b' head cm' rest hs' helems hhead hgrant
  refine h (b ++ b') head cm' rest ?_ (.cons hmsg hne hret hmax hacc helems) hhead hgrant
  rw [hs, hs']
  simp

/-- **`ServerDIR` on a clean stream keeps the connection only behind the empty element.** -/
theorem dirLoop_listing {fuel : Nat} {conn conn' : Conn} {cm : ClientMsg}
    (hclean : Clean element .dir conn.coming) (h : dirLoop element fuel conn = (cm, conn'))
    (hgrant : cm.granted) : ∃ b, Complete .dir b ∧ Reads conn b conn' := by
  induction fuel generalizing conn with
  | zero =>
    cases h
    exact absurd hgrant ClientMsg.not_granted_failed
  | succ fuel ih =>
    have hnext := fun head cm rest hs => hclean [] head cm rest hs .nil
    have hout := fromServerAlloc_outcome conn
    rw [dirLoop] at h
    split at h
    · next cm' conn₁ halloc =>
      cases h
      rw [halloc] at hout
      cases hout with
      | broken => exact absurd hgrant ClientMsg.not_granted_failed
      | empty hhead hzero hreads => exact ⟨_, .terminator (hhead.message_nil hzero), hreads⟩
      | refused hhead hzero hwhy hreads =>
        rcases hnext _ _ _ hreads.coming hhead hgrant with h0 | hwhole
        · exact absurd h0 hzero
        · exact absurd hwhy hwhole.not_refused
      | short _ hhead hzero hreads hnone =>
        rcases hnext _ _ _ hreads.coming hhead hgrant with h0 | ⟨-, -, body, rest, hrest, hlen, -⟩
        · exact absurd h0 hzero
        · exact absurd hlen (hnone body rest hrest)
    · next returnPath cm' conn₁ halloc =>
      rw [halloc] at hout
      cases hout with
      | message hhead hzero hret hmax hreads hlen hreads' =>
        have hmsg := hhead.message hlen
        have hne := hhead.body_ne_nil hzero hlen
        simp only at h
        split at h
        · next hbad =>
          -- the path is not taken, so the header did not grant the connection
          cases h
          rcases hnext _ _ _ hreads.coming hhead
              hgrant with h0 | ⟨-, -, body, rest, hrest, hbody, hacc⟩
          · exact absurd h0 hzero
          · rw [hreads'.coming] at hrest
            obtain ⟨rfl, -⟩ := bytesOf_append_inj hrest (hlen.trans hbody.symm)
            exact absurd hacc hbad
        · next hgood =>
          have hacc := Decidable.not_not.mp hgood
          have htail := hclean.dir_tail (hreads.trans hreads').coming hmsg hne hret hmax hacc
          obtain ⟨bs, hlist, hbs⟩ := ih htail h
          exact ⟨_, .element hmsg hne hlist, (hreads.trans hreads').trans hbs⟩

theorem Heading.length_pos {head : Bytes} {cm : ClientMsg} (h : Heading head cm) :
    0 < head.length := by
  obtain ⟨d, x, -, hx, -, -, rfl⟩ := h
  rw [List.length_append, hx]
  exact Nat.lt_of_lt_of_le (by decide : 0 < headerSize) (Nat.le_add_left _ _)

/-! ## The port -/

/-- A connection that waits for the next request is at a boundary. -/
def PortOk (pown : PortIn) : Prop := ∀ conn, pown = .idle conn → AtBoundary conn

theorem portOk_bad : PortOk .bad := fun _ h => nomatch h

theorem portOk_inUse : PortOk .inUse := fun _ h => nomatch h

theorem portOk_closePersistent {scs : ServerConnectionState} (h : PortOk scs.pown) :
    PortOk (closePersistent scs).pown := by
  show PortOk (if scs.persistence then .bad else scs.pown)
  split
  · exact portOk_bad
  · exact h

/-- Only a connection of one's own that was granted is left for the next request. -/
theorem portOk_releasePersistent {scs : ServerConnectionState} {granted : Bool}
    (hport : PortOk scs.pown)
    (h : ∀ conn, scs.fileDescriptor = some conn → scs.persistence = true → granted = true →
      AtBoundary conn) : PortOk (releasePersistent scs granted) := by
  unfold releasePersistent
  split
  · exact portOk_closePersistent hport
  · next hgrant =>
    have hgrant : granted = true := Bool.eq_true_of_not_eq_false hgrant
    split
    · exact portOk_closePersistent hport
    · next conn hfd =>
      split
      · exact portOk_closePersistent hport
      · next hpers =>
        intro conn' he
        cases he
        exact h conn hfd (Bool.eq_true_of_not_eq_false hpers) hgrant

/-- The connection of `scs` has just got the request `kind`. -/
def Sent (kind : Kind) (scs : ServerConnectionState) : Prop :=
  ∀ conn, scs.fileDescriptor = some conn → scs.persistence = true →
    ∃ conn₀, conn = conn₀.send kind ∧ AtBoundary conn₀

/-- Before the request is written, one's own connection is at a boundary. -/
def Ready (scs : ServerConnectionState) : Prop :=
  PortOk scs.pown ∧ ∀ conn, scs.fileDescriptor = some conn → scs.persistence = true →
    AtBoundary conn

theorem ready_setUp {noPersistence : Bool} {sys : System} {pown : PortIn} (h : PortOk pown) :
    Ready (setUp noPersistence sys pown) := by
  unfold setUp
  split
  · exact ⟨h, fun _ _ hp => nomatch hp⟩
  · split
    · exact ⟨portOk_inUse, fun _ _ hp => nomatch hp⟩
    · split
      · next s _ =>
        refine ⟨portOk_inUse, fun conn hc _ => ?_⟩
        cases hc
        exact atBoundary_fresh s
      · exact ⟨portOk_bad, fun _ hc => nomatch hc⟩
    · next conn =>
      refine ⟨portOk_inUse, fun conn' hc _ => ?_⟩
      cases hc
      exact h conn rfl

theorem Ready.reconnectClosed {sys : System} {scs : ServerConnectionState} (h : Ready scs) :
    Ready (reconnectClosed sys scs) := by
  unfold Client.reconnectClosed
  split
  · split
    · exact ⟨portOk_inUse, fun _ _ hp => nomatch hp⟩
    · exact ⟨portOk_closePersistent h.1, fun _ hc => nomatch hc⟩
  · exact h

/-- `To_Server` hands out a connection at a boundary, with the request written to it. -/
theorem toServer_spec {noPersistence ok : Bool} {sys : System} {kind : Kind} {pown : PortIn}
    {scs : ServerConnectionState} (hport : PortOk pown)
    (h : toServer noPersistence sys kind pown = (ok, scs)) :
    PortOk scs.pown ∧ (ok = true → Sent kind scs) := by
  have hready : Ready (reconnectClosed sys (setUp noPersistence sys pown)) :=
    (ready_setUp hport).reconnectClosed
  obtain ⟨hpown, hconn⟩ := hready
  have hclosed := portOk_closePersistent hpown
  simp only [toServer] at h
  split at h
  · cases h
    exact ⟨hclosed, fun hok => nomatch hok⟩
  · next conn hfd =>
    split at h
    · cases h
      refine ⟨hpown, fun _ conn' hc hp => ?_⟩
      cases hc
      exact ⟨conn, rfl, hconn conn hfd hp⟩
    · split at h
      · cases h
        exact ⟨hclosed, fun hok => nomatch hok⟩
      · split at h
        · cases h
          exact ⟨hclosed, fun hok => nomatch hok⟩
        · next s _ =>
          split at h
          · cases h
            refine ⟨hpown, fun _ conn' hc hp => ?_⟩
            cases hc
            exact ⟨.fresh s, rfl, atBoundary_fresh s⟩
          · cases h
            exact ⟨hclosed, fun hok => nomatch hok⟩

/-- A connection at a boundary is at one again after a request and its whole response. -/
theorem AtBoundary.respond {conn₀ conn' : Conn} {kind : Kind} {b : Bytes} (h : AtBoundary conn₀)
    (hb : Complete kind b) (hreads : Reads (conn₀.send kind) b conn') : AtBoundary conn' := by
  obtain ⟨responses, hall, htaken⟩ := h
  refine ⟨responses ++ [b], ?_, ?_⟩
  · rw [hreads.requests]
    exact List.rel_append hall (.cons hb .nil)
  · rw [hreads.taken, List.flatten_append, ← htaken]
    simp [Conn.send]

/-! ## One request -/

theorem portOk_release_false {scs : ServerConnectionState} (h : PortOk scs.pown) :
    PortOk (releasePersistent scs false) := portOk_closePersistent h

/-- `From_Server` without an error leaves a connection open only behind a whole response. -/
theorem fromServer_spec {scs scs' : ServerConnectionState} {conn : Conn} {size : Nat} {got : Int}
    {cm : ClientMsg} {msg : Bytes} (hport : PortOk scs.pown)
    (h : fromServer scs conn size = (got, cm, msg, scs')) :
    PortOk scs'.pown ∧ (scs'.persistence = true → scs.persistence = true) ∧
      (¬ got < 0 → ∀ conn', scs'.fileDescriptor = some conn' →
        ∃ b cm body, Message b cm body ∧ Reads conn b conn') := by
  unfold fromServer at h
  split at h
  · cases h
    exact ⟨hport, id, fun hgot => absurd (by decide : -eio < 0) hgot⟩
  · next cm₁ conn₁ hnext =>
    obtain ⟨head, hhead, hreads⟩ := nextHeader_some hnext
    split at h
    · next hzero =>
      cases h
      refine ⟨hport, id, fun _ conn' hc => ?_⟩
      cases hc
      exact ⟨head, _, [], hhead.message_nil hzero, hreads⟩
    · simp only at h
      split at h
      · cases h
        exact ⟨hport, id, fun hgot => absurd (by decide : -eio < 0) hgot⟩
      · next hlen =>
        have hlen := Decidable.not_not.mp hlen
        split at h
        · -- too long for the buffer: the connection is closed
          cases h
          exact ⟨portOk_closePersistent hport, fun hp => absurd hp Bool.false_ne_true,
            fun _ _ hc => absurd hc.symm (Option.some_ne_none _)⟩
        · next hsize =>
          have hbody := hlen.trans (Nat.min_eq_left (Nat.not_lt.mp hsize))
          cases h
          refine ⟨hport, id, fun _ conn' hc => ?_⟩
          cases hc
          exact ⟨_, _, _, hhead.message hbody, hreads.trans (tcpRead_reads hlen)⟩

/-- The stream that a request reads from is clean, if the connection may be kept. -/
def CleanCall (noPersistence : Bool) (element : Bytes → Int) (kind : Kind) (sys : System)
    (pown : PortIn) : Prop :=
  ∀ conn pown', toServer noPersistence sys kind pown = (true, ⟨some conn, true, pown'⟩) →
    Clean element kind conn.coming

variable {noPersistence : Bool} {index : Int} {kind : Kind} {sys : System} {pown : PortIn}

/-- `ServerRead` and `ServerWrite` close the connection after an error. -/
theorem portOk_release_fromServer {conn : Conn} {persistence : Bool} {pown' : PortIn} {size : Nat}
    {got : Int} {cm : ClientMsg} {msg : Bytes} {scs : ServerConnectionState}
    (hkind : ∀ b cm body, Message b cm body → Complete kind b) (hport : PortOk pown)
    (hto : toServer noPersistence sys kind pown = (true, ⟨some conn, persistence, pown'⟩))
    (hfrom : fromServer ⟨some conn, persistence, pown'⟩ conn size = (got, cm, msg, scs)) :
    PortOk (releasePersistent scs false) ∧
      (¬ got < 0 → PortOk (releasePersistent scs cm.granted)) := by
  obtain ⟨hport', hsent⟩ := toServer_spec hport hto
  obtain ⟨hport'', hpers, hread⟩ := fromServer_spec hport' hfrom
  refine ⟨portOk_release_false hport'', fun hgot => ?_⟩
  refine portOk_releasePersistent hport'' fun conn' hfd hp _ => ?_
  obtain ⟨conn₀, rfl, hconn₀⟩ := hsent rfl conn rfl (hpers hp)
  obtain ⟨b, cm', body, hmsg, hreads⟩ := hread hgot conn' hfd
  exact hconn₀.respond (hkind b cm' body hmsg) hreads

theorem portOk_serverRead {size : Nat} (hport : PortOk pown) :
    PortOk (serverRead noPersistence sys size pown).pown := by
  unfold serverRead
  split
  · next conn persistence pown' hto =>
    split
    next got cm msg scs hfrom =>
    have hkind : ∀ b cm body, Message b cm body → Complete (.read size) b :=
      fun b cm body h => ⟨cm, body, h⟩
    obtain ⟨hbad, hgood⟩ := portOk_release_fromServer hkind hport hto hfrom
    split
    · exact hbad
    · next hgot => exact hgood hgot
  · next ok scs _ hto => exact portOk_release_false (toServer_spec hport hto).1

theorem portOk_serverWrite (hport : PortOk pown) :
    PortOk (serverWrite noPersistence sys pown).pown := by
  unfold serverWrite
  split
  · next conn persistence pown' hto =>
    split
    next got cm msg scs hfrom =>
    have hkind : ∀ b cm body, Message b cm body → Complete .write b :=
      fun b cm body h => ⟨cm, body, h⟩
    obtain ⟨hbad, hgood⟩ := portOk_release_fromServer hkind hport hto hfrom
    split
    · exact hbad
    · next hgot => exact hgood hgot
  · next ok scs _ hto => exact portOk_release_false (toServer_spec hport hto).1

/-- The connection of a request is kept behind a whole response only. -/
theorem portOk_release_response {conn conn' : Conn} {persistence granted : Bool} {pown' : PortIn}
    (hport : PortOk pown) (hclean : CleanCall noPersistence element kind sys pown)
    (hto : toServer noPersistence sys kind pown = (true, ⟨some conn, persistence, pown'⟩))
    (h : Clean element kind conn.coming → granted = true →
      ∃ b, Complete kind b ∧ Reads conn b conn') :
    PortOk (releasePersistent ⟨some conn', persistence, pown'⟩ granted) := by
  obtain ⟨hport', hsent⟩ := toServer_spec hport hto
  refine portOk_releasePersistent hport' fun conn₁ hfd hp hgrant => ?_
  cases hfd
  have hp : persistence = true := hp
  subst hp
  obtain ⟨conn₀, rfl, hconn₀⟩ := hsent rfl conn rfl rfl
  obtain ⟨b, hb, hreads⟩ := h (hclean _ _ hto) hgrant
  exact hconn₀.respond hb hreads

theorem portOk_serverPresence (hport : PortOk pown)
    (hclean : CleanCall noPersistence element .presence sys pown) :
    PortOk (serverPresence noPersistence index sys pown).pown := by
  unfold serverPresence
  split
  · next conn persistence pown' hto =>
    split
    next serialNumber cm conn' halloc =>
    simp only
    split
    · exact portOk_release_false (toServer_spec hport hto).1
    · next hret =>
      exact portOk_release_response hport hclean hto fun hc =>
        fromServerAlloc_presence hc halloc hret
  · next ok scs _ hto => exact portOk_release_false (toServer_spec hport hto).1

theorem portOk_serverDIR (hport : PortOk pown)
    (hclean : CleanCall noPersistence element .dir sys pown) :
    PortOk (serverDIR noPersistence element sys pown).pown := by
  unfold serverDIR
  split
  · next conn persistence pown' hto =>
    split
    next cm conn' hloop =>
    exact portOk_release_response hport hclean hto fun hc => dirLoop_listing hc hloop
  · next ok scs _ hto => exact portOk_release_false (toServer_spec hport hto).1

theorem portOk_serverDIRALL (hport : PortOk pown)
    (hclean : CleanCall noPersistence element .dirall sys pown) :
    PortOk (serverDIRALL noPersistence element sys pown).pown := by
  unfold serverDIRALL
  split
  · next conn persistence pown' hto =>
    split
    next list cm conn' halloc =>
    exact portOk_release_response hport hclean hto fun hc => fromServerAlloc_dirall hc halloc
  · next ok scs _ hto => exact portOk_release_false (toServer_spec hport hto).1

/-- **A request over a clean stream keeps the port.** -/
theorem portOk_serverCall (hport : PortOk pown)
    (hclean : CleanCall noPersistence element kind sys pown) :
    PortOk (serverCall noPersistence index element kind sys pown).pown := by
  cases kind with
  | read size => exact portOk_serverRead hport
  | write => exact portOk_serverWrite hport
  | presence => exact portOk_serverPresence hport hclean
  | dir => exact portOk_serverDIR hport hclean
  | dirall => exact portOk_serverDIRALL hport hclean

/-! ## Runs -/

/-- The port after a row of requests. -/
def runCalls (noPersistence : Bool) (index : Int) (element : Bytes → Int) :
    List (Kind × System) → PortIn → PortIn
  | [], pown => pown
  | (kind, sys) :: calls, pown =>
    runCalls noPersistence index element calls
      (serverCall noPersistence index element kind sys pown).pown

/-- Every request of the row finds a clean stream. -/
def RunClean (noPersistence : Bool) (index : Int) (element : Bytes → Int) :
    List (Kind × System) → PortIn → Prop
  | [], _ => True
  | (kind, sys) :: calls, pown => CleanCall noPersistence element kind sys pown ∧
      RunClean noPersistence index element calls
        (serverCall noPersistence index element kind sys pown).pown

theorem RunClean.of_append {calls rest : List (Kind × System)}
    (h : RunClean noPersistence index element (calls ++ rest) pown) :
    RunClean noPersistence index element calls pown := by
  induction calls generalizing pown with
  | nil => trivial
  | cons call calls ih => exact ⟨h.1, ih h.2⟩

theorem portOk_runCalls {calls : List (Kind × System)} (hport : PortOk pown)
    (h : RunClean noPersistence index element calls pown) :
    PortOk (runCalls noPersistence index element calls pown) := by
  induction calls generalizing pown with
  | nil => exact hport
  | cons call calls ih => exact ih (portOk_serverCall hport h.1) h.2

/-- **A connection that is kept is at a message boundary.** In every run of requests that all find
a clean stream, whatever the server sends besides, and after each of its requests: if the
connection waits for the next request, the bytes read from it are exactly the whole responses to
the requests written to it. -/
theorem runCalls_atBoundary (noPersistence : Bool) (index : Int) (element : Bytes → Int)
    {calls rest : List (Kind × System)}
    (h : RunClean noPersistence index element (calls ++ rest) .bad) {conn : Conn}
    (hidle : runCalls noPersistence index element calls .bad = .idle conn) : AtBoundary conn :=
  portOk_runCalls portOk_bad h.of_append conn hidle

/-- A header as it comes from the server. -/
def ClientMsg.hton (cm : ClientMsg) : Bytes :=
  be32 cm.version ++ (be32 cm.payload ++ (be32 cm.ret ++ (be32 cm.controlFlags ++
    (be32 cm.size ++ be32 cm.offset))))

@[simp] theorem ClientMsg.length_hton (cm : ClientMsg) : cm.hton.length = headerSize := rfl

theorem ClientMsg.ntoh_hton (cm : ClientMsg) (rest : Bytes) : ntoh (cm.hton ++ rest) = cm := by
  unfold ntoh hton
  rw [show (4 : Nat) = 4 + 0 from rfl, show (8 : Nat) = 4 + (4 + 0) from rfl,
    show (12 : Nat) = 4 + (4 + (4 + 0)) from rfl,
    show (16 : Nat) = 4 + (4 + (4 + (4 + 0))) from rfl,
    show (20 : Nat) = 4 + (4 + (4 + (4 + (4 + 0)))) from rfl]
  simp only [List.append_assoc, drop_be32_append, List.drop_zero, ofBe32_be32_append]

/-- A system that connects to a server that sends `s`. -/
def connectTo (s : Stream) : System := ⟨some s, none, none, false, true, true⟩

/-- A response with two bytes that grants the connection. -/
def grantedList : ClientMsg := ⟨0, 2, 0, 4, 2, 0⟩

theorem runCalls_atBoundary_grantedList :
    ∃ conn, runCalls false 0 (fun _ => 0)
        [(.dirall, connectTo (bytesOf (grantedList.hton ++ [0x61, 0])))] .bad = .idle conn ∧
      AtBoundary conn := by
  have hclean : RunClean false 0 (fun _ => 0)
      ([(.dirall, connectTo (bytesOf (grantedList.hton ++ [0x61, 0])))] ++ []) .bad := by
    refine ⟨fun conn pown' hto => ?_, trivial⟩
    cases hto
    intro head cm rest hs hhead _
    have hheading : Heading grantedList.hton grantedList :=
      ⟨[], grantedList.hton, .nil, rfl, by decide, by decide, rfl⟩
    have hs : bytesOf grantedList.hton ++ bytesOf [0x61, 0] = bytesOf head ++ rest := hs
    obtain ⟨rfl, rfl⟩ := hheading.unique hhead hs
    refine .inr ⟨by decide, by decide, [0x61, 0], [], ?_, by decide, trivial⟩
    rw [List.append_nil]
    exact (List.append_cancel_left hs).symm
  exact ⟨_, rfl, runCalls_atBoundary false 0 (fun _ => 0) hclean rfl⟩

/-- An error with a payload of one byte. -/
def refusedList : ClientMsg := ⟨0, 1, 0xFFFFFFFF, 4, 1, 0⟩

/-- The connection is kept although the payload was not read. -/
theorem dirall_keeps_unread_payload :
    ∃ conn, runCalls false 0 (fun _ => 0)
        [(.dirall, connectTo (bytesOf (refusedList.hton ++ [0x61])))] .bad = .idle conn ∧
      conn.coming = [.byte 0x61] ∧ ¬ AtBoundary conn := by
  refine ⟨_, rfl, rfl, ?_⟩
  rintro ⟨responses, hall, htaken⟩
  cases hall with
  | cons hcomplete hrest =>
    cases hrest
    obtain ⟨cm, body, head, hhead, hlen, rfl⟩ := hcomplete
    have hheading : Heading refusedList.hton refusedList :=
      ⟨[], refusedList.hton, .nil, rfl, by decide, by decide, rfl⟩
    have htaken : refusedList.hton = head ++ body :=
      htaken.trans (List.append_nil (head ++ body))
    have hs : bytesOf refusedList.hton ++ [] = bytesOf head ++ bytesOf body := by
      rw [← bytesOf_append, ← htaken, List.append_nil]
    obtain ⟨rfl, rfl⟩ := hheading.unique hhead hs
    rw [List.self_eq_append_right.mp htaken] at hlen
    exact absurd hlen (by decide)

end Owfs.Client
