import Owfs.Client.Boundary

/-!
# What a client reports

`ServerRead` returns the field `ret` of the reply, while the bytes it stored are those of the
payload, as far as the buffer takes them. `ServerPresence` copies the eight bytes of a serial
number out of a payload of whatever length. Both are right for the replies of an owserver, and
for other replies exactly as far as the conditions stated here.
-/

namespace Owfs.Client

open Infra Owfs.Protocol

/-! ## Finding the header -/

/-- The header behind the delay messages is found. -/
theorem nextHeader_of_delays {d h : Bytes} {rest : Stream} {fuel : Nat} {conn : Conn}
    (hd : Delays d) (hh : h.length = headerSize) (hpos : 0 ≤ (ClientMsg.ntoh h).payload.toInt)
    (hconn : conn.coming = bytesOf (d ++ h) ++ rest) (hfuel : conn.coming.length < fuel) :
    ∃ conn', nextHeader fuel conn = (some (ClientMsg.ntoh h), conn') ∧ conn'.coming = rest := by
  have hread : ∀ {x : Bytes} {s : Stream} {c : Conn}, x.length = headerSize →
      c.coming = bytesOf x ++ s →
      c.tcpRead headerSize = (x, { c with taken := c.taken ++ x, coming := s }) := by
    intro x s c hx hc
    rw [Conn.tcpRead, hc, ← hx, takeBytes_bytesOf]
  induction hd generalizing fuel conn with
  | nil =>
    obtain ⟨fuel, rfl⟩ : ∃ n, fuel = n + 1 := ⟨fuel - 1, by omega⟩
    rw [List.nil_append] at hconn
    refine ⟨{ conn with taken := conn.taken ++ h, coming := rest }, ?_, rfl⟩
    rw [nextHeader, hread hh hconn]
    dsimp only
    rw [if_neg (not_not.mpr hh), if_neg (Int.not_lt.mpr hpos)]
  | @cons x b hx hneg hb ih =>
    obtain ⟨fuel, rfl⟩ : ∃ n, fuel = n + 1 := ⟨fuel - 1, by omega⟩
    have hc : conn.coming = bytesOf x ++ (bytesOf (b ++ h) ++ rest) := by
      rw [hconn, List.append_assoc, bytesOf_append, List.append_assoc]
    have hlen := congrArg List.length hc
    rw [List.length_append, bytesOf, List.length_map, hx] at hlen
    have hsize : 0 < headerSize := by decide
    have hnew : ({ conn with
        taken := conn.taken ++ x
        coming := bytesOf (b ++ h) ++ rest } : Conn).coming
        = bytesOf (b ++ h) ++ rest := rfl
    have hless : (bytesOf (b ++ h) ++ rest).length < fuel := by omega
    obtain ⟨conn', hnext, hcoming⟩ := ih hnew hless
    refine ⟨conn', ?_, hcoming⟩
    rw [nextHeader, hread hx hc]
    dsimp only
    rw [if_neg (not_not.mpr hx), if_pos hneg]
    exact hnext

theorem nextHeader_of_heading {head : Bytes} {cm : ClientMsg} {rest : Stream} {conn : Conn}
    (hhead : Heading head cm) (hconn : conn.coming = bytesOf head ++ rest) :
    ∃ conn', nextHeader (conn.coming.length + 1) conn = (some cm, conn') ∧ conn'.coming = rest := by
  obtain ⟨d, h, hd, hh, rfl, hpos, rfl⟩ := hhead
  exact nextHeader_of_delays hd hh hpos hconn (Nat.lt_succ_self _)

/-! ## Reads -/

/-- A read reports no more than the buffer holds, and no more than was stored in it. -/
def ReportsReceived (size : Nat) (o : Outcome) : Prop :=
  0 ≤ o.ret → o.ret ≤ size ∧ o.ret.toNat ≤ o.data.length

/-- Bytes of the payload arrive, as many as fit into the buffer. -/
def Arrives (n : Nat) (rest : Stream) : Prop :=
  ∃ body rest', rest = bytesOf body ++ rest' ∧ body.length = n

/-- A reply whose payload arrives announces no more than there is of it. -/
def HonestRead (size : Nat) (s : Stream) : Prop :=
  ∀ head cm rest, s = bytesOf head ++ rest → Heading head cm →
    Arrives (min cm.payload.toInt.toNat size) rest →
    cm.ret.toInt ≤ (min cm.payload.toInt.toNat size : Nat)

/-- What is read of a payload that arrives. -/
theorem length_tcpRead_iff {n : Nat} {conn : Conn} :
    (conn.tcpRead n).1.length = n ↔ Arrives n conn.coming := by
  constructor
  · intro h
    exact ⟨_, _, (tcpRead_reads h).coming, h⟩
  · rintro ⟨body, rest, hcoming, rfl⟩
    rw [Conn.tcpRead, hcoming, takeBytes_bytesOf]

/-- What `From_Server` hands to `ServerRead` is reported right. -/
def Right (size : Nat) : Int × ClientMsg × Bytes × ServerConnectionState → Prop
  | (got, cm, msg, _) => 0 ≤ got → 0 ≤ cm.ret.toInt → cm.ret.toInt ≤ size ∧
      cm.ret.toInt.toNat ≤ msg.length

/-- The header that is found is the only one. -/
theorem honestRead_iff {conn conn' : Conn} {head : Bytes} {cm : ClientMsg} {size : Nat}
    (hhead : Heading head cm) (hreads : Reads conn head conn') :
    HonestRead size conn.coming ↔
      (Arrives (min cm.payload.toInt.toNat size) conn'.coming →
        cm.ret.toInt ≤ (min cm.payload.toInt.toNat size : Nat)) := by
  constructor
  · intro h
    exact h head cm conn'.coming hreads.coming hhead
  · intro h head' cm' rest' hs' hhead' harr
    have heq := hreads.coming.symm.trans hs'
    obtain ⟨rfl, rfl⟩ := hhead.unique hhead' heq
    rw [List.append_cancel_left heq] at h
    exact h harr

/-- A payload that arrives, against the result that is announced with it. -/
theorem right_of_arrives_iff (ret : Int) {conn : Conn} {n size : Nat} (hn : n ≤ size)
    (hlen : (conn.tcpRead n).1.length = n) :
    (0 ≤ ret → ret ≤ size ∧ ret.toNat ≤ (conn.tcpRead n).1.length) ↔
    (Arrives n conn.coming → ret ≤ n) := by
  rw [hlen]
  constructor
  · intro h _
    by_cases hret : 0 ≤ ret
    · have := (h hret).2
      omega
    · omega
  · intro h hret
    have := h (length_tcpRead_iff.mp hlen)
    omega

theorem right_fromServer_iff {scs : ServerConnectionState} {conn : Conn} {size : Nat} :
    Right size (fromServer scs conn size) ↔ HonestRead size conn.coming := by
  unfold fromServer
  cases hnext : nextHeader (conn.coming.length + 1) conn with
  | mk found conn₁ =>
    cases found with
    | none =>
      refine iff_of_true (fun hgot => absurd hgot (by decide)) fun head cm rest hs hhead => ?_
      obtain ⟨conn', hfound, -⟩ := nextHeader_of_heading hhead hs
      rw [hnext] at hfound
      cases hfound
    | some cm =>
      obtain ⟨head, hhead, hreads⟩ := nextHeader_some hnext
      have hpos : 0 ≤ cm.payload.toInt := by
        obtain ⟨d, h, -, -, -, hpos, -⟩ := hhead
        exact hpos
      rw [honestRead_iff hhead hreads]
      dsimp only
      split
      · rename_i hzero
        rw [hzero, show min (0 : BitVec 32).toInt.toNat size = 0 from Nat.zero_min size]
        constructor
        · intro h _
          by_contra hlt
          have hret : 0 < cm.ret.toInt := Int.not_le.mp hlt
          have hle : cm.ret.toInt.toNat ≤ 0 := (h (Int.le_refl 0) (Int.le_of_lt hret)).2
          omega
        · intro h _ hret
          have hle := h ⟨[], _, rfl, rfl⟩
          exact ⟨by omega, by omega⟩
      · split
        · rename_i hlen
          refine iff_of_true (fun hgot => absurd hgot (by decide)) fun harr => ?_
          exact absurd (length_tcpRead_iff.mpr harr) hlen
        · rename_i hlen
          have hright := right_of_arrives_iff cm.ret.toInt (Nat.min_le_right _ size)
            (Decidable.not_not.mp hlen)
          split
          · exact ⟨fun h => hright.mp (h (Int.natCast_nonneg size)), fun h _ => hright.mpr h⟩
          · exact ⟨fun h => hright.mp (h hpos), fun h _ => hright.mpr h⟩

/-! ## Presence -/

/-- Where a payload came back, the serial number is copied from bytes that were received. -/
def CopiesReceived (o : Outcome) : Prop := o.data ≠ [] → 8 ≤ o.data.length

/-- A payload that arrives behind a good header is long enough for a serial number. -/
def HonestPresence (s : Stream) : Prop :=
  ∀ head cm rest, s = bytesOf head ++ rest → Heading head cm → 0 ≤ cm.ret.toInt → cm.payload ≠ 0 →
    cm.payload.toInt.toNat ≤ maxPayloadSize → Arrives cm.payload.toInt.toNat rest →
    8 ≤ cm.payload.toInt.toNat

theorem fromServerAlloc_iff {conn : Conn} :
    (∀ msg cm conn', fromServerAlloc conn = (some msg, cm, conn') → 8 ≤ msg.length) ↔
      HonestPresence conn.coming := by
  have hout := fromServerAlloc_outcome conn
  constructor
  · intro h head cm rest hs hhead hret hzero hmax harr
    obtain ⟨conn₁, hnext, rfl⟩ := nextHeader_of_heading hhead hs
    have hlen := length_tcpRead_iff.mpr harr
    have hall :=
      h (conn₁.tcpRead cm.payload.toInt.toNat).1 cm (conn₁.tcpRead cm.payload.toInt.toNat).2
    rw [hlen] at hall
    refine hall ?_
    rw [fromServerAlloc, hnext]
    dsimp only
    rw [if_neg hzero, if_neg (Int.not_lt.mpr hret), if_neg (Nat.not_lt.mpr hmax),
      if_neg (not_not.mpr hlen)]
  · intro h msg cm conn' hfrom
    rw [hfrom] at hout
    cases hout with
    | message hhead hzero hret hmax hreads hlen hbody =>
      rw [hlen]
      refine h _ cm _ hreads.coming hhead hret hzero hmax ⟨msg, _, hbody.coming, hlen⟩

/-! ## Requests -/

section

variable {noPersistence : Bool} {index : Int} {sys : System} {size : Nat} {pown : PortIn}

/-- What the server sends on the connection that `To_Server` leaves meets `P`. -/
def OnConnection (noPersistence : Bool) (sys : System) (kind : Kind) (pown : PortIn)
    (P : Stream → Prop) : Prop :=
  ∀ conn persistence pown',
    toServer noPersistence sys kind pown = (true, ⟨some conn, persistence, pown'⟩) →
    P conn.coming

theorem onConnection_iff {kind : Kind} {P : Stream → Prop} {conn : Conn} {persistence : Bool}
    {pown' : PortIn} (hto : toServer noPersistence sys kind pown =
      (true, ⟨some conn, persistence, pown'⟩)) :
    OnConnection noPersistence sys kind pown P ↔ P conn.coming := by
  constructor
  · intro h
    exact h conn persistence pown' hto
  · intro h conn' persistence' pown'' hto'
    rw [hto] at hto'
    cases hto'
    exact h

/-- Without a connection there is nothing to ask of the server. -/
theorem onConnection_of_none {kind : Kind} {P : Stream → Prop} {good : Bool}
    {scs : ServerConnectionState} (hto : toServer noPersistence sys kind pown = (good, scs))
    (hnot : ∀ conn persistence pown', good = true → scs = ⟨some conn, persistence, pown'⟩ → False) :
    OnConnection noPersistence sys kind pown P := by
  intro conn persistence pown' heq
  obtain ⟨hok, hscs⟩ := Prod.mk.inj (hto.symm.trans heq)
  exact (hnot conn persistence pown' hok hscs).elim

theorem negative_eio : ¬ 0 ≤ -eio := by decide

theorem reportsReceived_serverRead_iff :
    ReportsReceived size (serverRead noPersistence sys size pown) ↔
      OnConnection noPersistence sys (.read size) pown (HonestRead size) := by
  unfold serverRead
  split
  · rename_i conn persistence pown' hto
    have hright : Right size (fromServer ⟨some conn, persistence, pown'⟩ conn size) ↔
        HonestRead size conn.coming := right_fromServer_iff
    rw [onConnection_iff hto, ← hright]
    cases hfrom : fromServer ⟨some conn, persistence, pown'⟩ conn size with
    | mk got r =>
      obtain ⟨cm, msg, scs⟩ := r
      dsimp only
      split
      · rename_i hneg
        exact iff_of_true (fun h => absurd h negative_eio) fun h => absurd h (Int.not_le.mpr hneg)
      · rename_i hpos
        exact ⟨fun h _ => h, fun h => h (Int.not_lt.mp hpos)⟩
  · rename_i hnot hto
    exact iff_of_true (fun h => absurd h negative_eio) (onConnection_of_none hto hnot)

theorem copiesReceived_serverPresence_iff :
    CopiesReceived (serverPresence noPersistence index sys pown) ↔
      OnConnection noPersistence sys .presence pown HonestPresence := by
  unfold serverPresence
  split
  · rename_i conn persistence pown' hto
    rw [onConnection_iff hto, ← fromServerAlloc_iff]
    have hout := fromServerAlloc_outcome conn
    cases hfrom : fromServerAlloc conn with
    | mk msg r =>
      obtain ⟨cm, conn'⟩ := r
      rw [hfrom] at hout
      dsimp only
      cases msg with
      | none =>
        refine iff_of_true ?_ nofun
        split
        · exact fun h => absurd rfl h
        · exact fun h => absurd rfl h
      | some msg =>
        cases hout with
        | message hhead hzero hret hmax hreads hlen hbody =>
          rw [if_neg (Int.not_lt.mpr hret)]
          constructor
          · intro h msg' cm' conn'' heq
            cases heq
            exact h (hhead.body_ne_nil hzero hlen)
          · intro h _
            exact h msg cm conn' rfl
  · rename_i hnot hto
    exact iff_of_true (fun h => absurd rfl h) (onConnection_of_none hto hnot)

end

/-- **When a client reports no more than it received.** A read does exactly when a reply whose
payload arrives has its result between the two; a presence check exactly when a payload that
arrives is none or has the eight bytes of a serial number. -/
theorem received_iff (noPersistence : Bool) (index : Int) (sys : System) (size : Nat)
    (pown : PortIn) :
    (ReportsReceived size (serverRead noPersistence sys size pown) ↔
      OnConnection noPersistence sys (.read size) pown (HonestRead size)) ∧
    (CopiesReceived (serverPresence noPersistence index sys pown) ↔
      OnConnection noPersistence sys .presence pown HonestPresence) :=
  ⟨reportsReceived_serverRead_iff, copiesReceived_serverPresence_iff⟩

/-- A reply of one byte that claims to be a hundred. -/
def boastingReply : ClientMsg := ⟨0, 1, 100, 0, 1, 0⟩

/-- A hundred bytes are reported for a buffer of eight, and a serial number is copied from one
byte. -/
theorem more_than_received :
    ¬ ReportsReceived 8 (serverRead true (connectTo (bytesOf (boastingReply.hton ++ [0x61]))) 8
      .bad) ∧
      ¬ CopiesReceived (serverPresence true 0 (connectTo (bytesOf (boastingReply.hton ++ [0x61])))
      .bad) := by
  have hread : (serverRead true (connectTo (bytesOf (boastingReply.hton ++ [0x61]))) 8 .bad).ret =
      100 := by
    decide
  have hdata : (serverPresence true 0 (connectTo (bytesOf (boastingReply.hton ++ [0x61])))
      .bad).data = [0x61] := by
    decide
  constructor
  · intro h
    have hle := (h (by rw [hread]; decide)).1
    rw [hread] at hle
    exact absurd hle (by decide)
  · intro h
    have hle := h (by rw [hdata]; decide)
    rw [hdata] at hle
    exact absurd hle (by decide)

end Owfs.Client
