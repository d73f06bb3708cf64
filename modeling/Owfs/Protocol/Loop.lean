import Owfs.Protocol.Roundtrip

/-!
# Loop suppression

Owservers may forward requests to each other in any topology. Each server appends its own token
to the list a request carries (`WriteToServer`), and `FromClient` refuses a request whose list
holds the receiver's token.

The network is a transition system. A packet in flight carries, beside its bytes, the list of
servers that forwarded it; nothing in the model reads that list. One step lets a client send any
bytes, lets a server take a packet and forward any number of requests with the tokens it decoded
(`DataHandler` copies `sp.tokens` and `sp.tokenstring`), or drops a packet.

`FromClient` clears the first byte of the first token of every message that is not a write. A
server whose token stood there is then no longer recognised, so suppression holds in the runs
whose forwarded requests do not lose a forwarder's token that way (`Keeps`).
-/

namespace Owfs.Protocol

open Infra

/-! ## Tokens after `FromClient` -/

/-- The token with its first byte cleared. -/
def Token.cleared (t : Token) : Token where
  uuid := 0 :: t.uuid.tail
  length_uuid := by
    rw [List.length_cons, List.length_tail, t.length_uuid]

/-- The token list as `FromClient` leaves it. -/
def Request.decodedTokens (r : Request) : List Token → List Token
  | [] => []
  | t :: ts => if r.isWrite then t :: ts else t.cleared :: ts

@[simp] theorem Request.length_decodedTokens (r : Request) (toks : List Token) :
    (r.decodedTokens toks).length = toks.length := by
  cases toks with
  | nil => rfl
  | cons t ts =>
    rw [Request.decodedTokens]
    split <;> rfl

theorem Token.cleared_of_head {t : Token} (h : t.uuid.head? = some 0) : t.cleared = t := by
  refine Token.eq_of_uuid ?_
  cases hu : t.uuid with
  | nil => rw [hu] at h; simp at h
  | cons x xs =>
    rw [hu] at h
    simp only [List.head?_cons, Option.some.injEq] at h
    show 0 :: t.uuid.tail = _
    rw [hu, h]
    rfl

theorem tokenBytes_eq_cons_tail (t : Token) (ts : List Token) :
    ∃ x, tokenBytes (t :: ts) = x :: (t.uuid.tail ++ tokenBytes ts) := by
  cases hu : t.uuid with
  | nil =>
    have := t.length_uuid
    rw [hu] at this
    simp at this
  | cons x xs => exact ⟨x, by rw [tokenBytes_cons, hu]; rfl⟩

/-- The payload part leaves `decodedTokens` behind the payload. -/
theorem splitPayload_wire {r : Request} {toks : List Token} (hfit : r.Fits true toks)
    (hne : toks ≠ []) (slack : Bytes) :
    ∃ sp front, front.length = r.payloadLength true ∧
      splitPayload (r.header true toks.length) (r.block true toks slack)
        = some (.done sp (front ++ (tokenBytes (r.decodedTokens toks) ++ slack))) := by
  cases toks with
  | nil => exact absurd rfl hne
  | cons t ts =>
    cases hw : r.isWrite with
    | true =>
      refine ⟨{ path := some 0, data := some (r.path.length + 1), datasize := r.data.length },
        r.pathField true ++ r.data, ?_, ?_⟩
      · rw [List.length_append, Request.payloadLength]
      · rw [splitPayload_write_nul hfit hw, Request.decodedTokens, if_pos hw, Request.block,
          List.append_assoc]
    | false =>
      obtain ⟨x, hx⟩ := tokenBytes_eq_cons_tail t ts
      have hpos : 0 < r.payloadLength true := by
        simp [Request.payloadLength, Request.pathField]
      have hdata : r.data = [] := r.data_of_not_write (r.isWrite_eq_false_iff.mp hw)
      refine ⟨{ path := some 0 }, r.pathField true, by simp [Request.payloadLength, hdata], ?_⟩
      rw [splitPayload_not_write hfit hw hpos hx, Request.decodedTokens, if_neg (by simp [hw])]
      rfl

/-- A request that is accepted brings `decodedTokens`, and the receiver's token is not there. -/
theorem fromClient_wire_accepts {r : Request} {toks : List Token} {recv : Token} {heap : Heap}
    {hd : HandlerData} (hpay : r.payloadLength true < 2 ^ 31) (hn : toks.length < 65536)
    (hne : toks ≠ []) (h : fromClient recv heap (r.wire true toks) = some (0, hd)) :
    hd.sp.tokens = toks.length ∧ hd.receivedTokens = some (tokenBytes (r.decodedTokens toks)) ∧
      recv ∉ r.decodedTokens toks := by
  have hpos : 0 < toks.length := List.length_pos_iff.mpr hne
  have hhead : headerOf (r.wire true toks) = r.header true toks.length := headerOf_hton _ _
  -- whatever does not reach the token check is refused
  obtain ⟨hfit, b, hb⟩ : r.Fits true toks ∧
      ∃ b, heap.owmalloc (r.payloadLength true + 16 * toks.length + 2) = some b := by
    have h' := h
    rw [fromClient_eq, hhead, r.trueload_header hpay hn, Int.toNat_natCast] at h'
    split at h'
    · simp [eio] at h'
    split at h'
    · omega
    split at h'
    · simp [emsgsize] at h'
    next hrange =>
    refine ⟨by unfold Request.Fits; omega, ?_⟩
    cases hb : heap.owmalloc (r.payloadLength true + 16 * toks.length + 2) with
    | none => rw [hb] at h'; simp [enomem] at h'
    | some b => exact ⟨b, rfl⟩
  obtain ⟨slack, -, hfrom⟩ := fromClient_wire recv hfit hne hb
  obtain ⟨sp, front, hfront, hsplit⟩ := splitPayload_wire hfit hne slack
  rw [hfrom, receive_of_split recv hfit hsplit hfront (by simp)] at h
  have hchunks : chunks toks.length (tokenBytes (r.decodedTokens toks) ++ slack)
      = (r.decodedTokens toks).map Token.uuid := by
    rw [← r.length_decodedTokens toks]
    exact chunks_tokenBytes _ _
  rw [hchunks] at h
  split at h
  · simp [einval] at h
  · next hmem =>
    rw [← (Prod.mk.inj (Option.some.inj h)).2]
    refine ⟨rfl, ?_, fun hc => hmem (List.mem_map_of_mem hc)⟩
    simp only [HandlerData.receivedTokens, Option.bind_some]
    rw [show 16 * toks.length = (tokenBytes (r.decodedTokens toks)).length by simp]
    exact slice_append_mid _ _ _

/-! ## Tokens of arbitrary messages -/

/-- Whole tokens can be read off any byte string of the right length. -/
theorem exists_tokenBytes : ∀ (n : Nat) (b : Bytes), b.length = 16 * n →
    ∃ toks : List Token, tokenBytes toks = b ∧ toks.length = n
  | 0, b, h => ⟨[], by rw [List.length_eq_zero_iff.mp (by omega : b.length = 0)]; rfl, rfl⟩
  | n + 1, b, h => by
    obtain ⟨toks, hb, hlen⟩ := exists_tokenBytes n (b.drop 16) (by rw [List.length_drop]; omega)
    refine ⟨⟨b.take 16, by rw [List.length_take]; omega⟩ :: toks, ?_,
      by rw [List.length_cons, hlen]⟩
    rw [tokenBytes_cons, hb]
    exact List.take_append_drop 16 b

/-- The payload part does not touch the token fields. -/
theorem splitPayload_noTokens {sm : ServerMsg} {msg msg' : Bytes} {sp : ReceivedPackage}
    (h : splitPayload sm msg = some (.done sp msg')) : sp.tokenstring = none ∧ sp.tokens = 0 := by
  unfold splitPayload at h
  split at h
  · obtain ⟨rfl, -⟩ := Split.done.inj (Option.some.inj h)
    exact ⟨rfl, rfl⟩
  split at h
  · unfold splitWrite at h
    split at h
    · simp at h
    · obtain ⟨y, -, h⟩ := Option.bind_eq_some_iff.mp h
      split at h
      · obtain ⟨rfl, -⟩ := Split.done.inj (Option.some.inj h)
        exact ⟨rfl, rfl⟩
      · obtain ⟨b1, -, h⟩ := Option.bind_eq_some_iff.mp h
        obtain ⟨b2, -, h⟩ := Option.bind_eq_some_iff.mp h
        obtain ⟨rfl, -⟩ := Split.done.inj (Option.some.inj h)
        exact ⟨rfl, rfl⟩
  · obtain ⟨b, -, h⟩ := Option.bind_eq_some_iff.mp h
    obtain ⟨rfl, -⟩ := Split.done.inj (Option.some.inj h)
    exact ⟨rfl, rfl⟩

/-- Token bytes and count of a package, as a list of tokens. -/
def HandlerData.Carries (hd : HandlerData) (prior : List Token) : Prop :=
  hd.receivedTokens.getD [] = tokenBytes prior ∧ hd.sp.tokens = prior.length ∧ prior.length < 65536

theorem receive_carries {recv : Token} {sm : ServerMsg} {msg : Bytes} {hd : HandlerData}
    (h : receive recv sm msg = some (0, hd)) : ∃ prior, hd.Carries prior := by
  obtain ⟨s, hs, h⟩ := Option.bind_eq_some_iff.mp h
  cases s with
  | baddata => simp [einval] at h
  | done sp msg' =>
    obtain ⟨hstr, htok⟩ := splitPayload_noTokens hs
    simp only at h
    split at h
    · obtain ⟨b, hb, h⟩ := Option.bind_eq_some_iff.mp h
      cases b with
      | true => simp [einval] at h
      | false =>
        simp only [Bool.false_eq_true, if_false, Option.some.injEq, Prod.mk.injEq, true_and] at h
        subst h
        rcases ownTokenIn_bound hb with hz | hle
        · refine ⟨[], ?_, hz, by decide⟩
          simp only [HandlerData.receivedTokens, Option.bind_some, hz, slice]
          split <;> rfl
        · obtain ⟨d, hd⟩ := slice_isSome hle
          obtain ⟨prior, hp, hlen⟩ := exists_tokenBytes _ d (length_slice hd)
          refine ⟨prior, ?_, hlen.symm, by rw [hlen]; exact servertokens_lt _⟩
          simp only [HandlerData.receivedTokens, Option.bind_some, hd, Option.getD_some, hp]
    · simp only [Option.some.injEq, Prod.mk.injEq, true_and] at h
      subst h
      refine ⟨[], ?_, htok, by decide⟩
      simp only [HandlerData.receivedTokens, hstr]
      rfl

/-- Whatever bytes a request came from, it hands on a list of tokens. -/
theorem fromClient_carries {recv : Token} {heap : Heap} {fd : Bytes} {hd : HandlerData}
    (h : fromClient recv heap fd = some (0, hd)) : ∃ prior, hd.Carries prior := by
  rw [fromClient_eq] at h
  split at h
  · simp [eio] at h
  split at h
  · simp only [Option.some.injEq, Prod.mk.injEq, true_and] at h
    subst h
    exact ⟨[], rfl, rfl, by decide⟩
  split at h
  · simp [emsgsize] at h
  split at h
  · simp [enomem] at h
  split at h
  · simp [einval] at h
  · exact receive_carries h

/-! ## The network -/

/-- The owservers of a network. -/
structure Network (S : Type) where
  token : S → Token
  heap : S → Heap

variable {S : Type} (N : Network S)

/-- What server `s` runs with. -/
def Network.globals (s : S) : Globals := ⟨.server, N.token s⟩

/-- A message on its way to `dest`. `via` lists the servers that forwarded the request, oldest
first. -/
structure Packet (S : Type) where
  dest : S
  bytes : Bytes
  via : List S

/-- The packets in flight, and for each request a server took up the chain of servers it came
through, that server included. -/
structure Net (S : Type) where
  flight : List (Packet S)
  processed : List (List S)

/-- The token bytes that `s` puts behind a request it forwards. -/
def Network.sentTokens (s : S) (hd : HandlerData) : Bytes :=
  hd.receivedTokens.getD [] ++ (N.token s).uuid

/-- Server `s`, holding the request `hd` that came through `via`, sends request `r` on as `q`.
The payload length of a message is an `int`. -/
structure Network.Forwards (s : S) (hd : HandlerData) (via : List S) (r : Request)
    (q : Packet S) : Prop where
  via : q.via = via ++ [s]
  payload : r.payloadLength true < 2 ^ 31
  bytes : writeToServer (N.globals s) r.serverMsg
    (r.packageWith (hd.receivedTokens.getD []) hd.sp.tokens) = .ok q.bytes

/-- One step of the network. `ok` restricts the requests that are forwarded. -/
inductive Network.Step (ok : S → HandlerData → Request → Packet S → Prop) : Net S → Net S → Prop
  | client (net : Net S) (dest : S) (bytes : Bytes) :
      Step ok net { net with flight := ⟨dest, bytes, []⟩ :: net.flight }
  | process (net : Net S) (p : Packet S) (hd : HandlerData) (rest : List (Packet S))
      (out : List (Request × Packet S)) :
      net.flight.Perm (p :: rest) →
      fromClient (N.token p.dest) (N.heap p.dest) p.bytes = some (0, hd) →
      (∀ o ∈ out, N.Forwards p.dest hd p.via o.1 o.2 ∧ ok p.dest hd o.1 o.2) →
      Step ok net
        { flight := out.map Prod.snd ++ rest
          processed := (p.via ++ [p.dest]) :: net.processed }
  | drop (net : Net S) (p : Packet S) (rest : List (Packet S)) :
      net.flight.Perm (p :: rest) → Step ok net { net with flight := rest }

/-- The states of a network that starts with nothing in flight. -/
def Network.Reachable (ok : S → HandlerData → Request → Packet S → Prop) (net : Net S) : Prop :=
  Relation.ReflTransGen (N.Step ok) ⟨[], []⟩ net

/-- The forwarded message does not lose a forwarder's token in `FromClient`: it is a write, or
its token list starts with a zero byte, or the first token is none of the forwarders'. -/
def Network.Keeps (s : S) (hd : HandlerData) (r : Request) (q : Packet S) : Prop :=
  r.isWrite = true ∨ (N.sentTokens s hd).head? = some 0 ∨
    ∀ f ∈ q.via, (N.sentTokens s hd).take 16 ≠ (N.token f).uuid

/-! ## What a packet carries -/

variable {N}

/-- The list behind a forwarded request: the tokens that came with it, then the sender's. -/
theorem Network.Forwards.wire {s : S} {hd : HandlerData} {via : List S} {r : Request}
    {q : Packet S} (h : N.Forwards s hd via r q) {prior : List Token} (hc : hd.Carries prior) :
    q.bytes = r.wire true (prior ++ [N.token s]) ∧ prior.length + 1 < 65536 := by
  obtain ⟨hbytes, hlen, hlt⟩ := hc
  have hw := h.bytes
  rw [hbytes, hlen] at hw
  have hne : prior.length + 1 ≠ 65536 := by
    intro he
    unfold writeToServer tokenBlock at hw
    rw [show (N.globals s).serverType = true from rfl] at hw
    simp [Request.packageWith, he] at hw
  have heq := writeToServer_eq_wire (g := N.globals s) rfl r prior hne
  rw [Request.serverPackage, hw] at heq
  exact ⟨Except.ok.inj heq, by omega⟩

/-- The invariant of a forwarded packet: its list holds the token of every forwarder, and
`FromClient` will still find them there. -/
def Packet.Traced (N : Network S) (p : Packet S) : Prop :=
  ∃ (r : Request) (toks : List Token), toks ≠ [] ∧ p.bytes = r.wire true toks ∧
    r.payloadLength true < 2 ^ 31 ∧ toks.length < 65536 ∧
    ∀ f ∈ p.via, N.token f ∈ r.decodedTokens toks

/-- A traced packet is refused by every server that forwarded it. -/
theorem Packet.Traced.refused {p : Packet S} (h : p.Traced N) {f : S} (hf : f ∈ p.via)
    (heap : Heap) (hd : HandlerData) : fromClient (N.token f) heap p.bytes ≠ some (0, hd) := by
  obtain ⟨r, toks, hne, hbytes, hpay, hlen, hall⟩ := h
  intro hok
  rw [hbytes] at hok
  exact (fromClient_wire_accepts hpay hlen hne hok).2.2 (hall f hf)

/-- The tokens that a server hands on after it took a traced packet. -/
theorem Packet.Traced.carries {p : Packet S} (h : p.Traced N) {recv : Token} {heap : Heap}
    {hd : HandlerData} (hok : fromClient recv heap p.bytes = some (0, hd)) :
    ∃ prior, hd.Carries prior ∧ ∀ f ∈ p.via, N.token f ∈ prior := by
  obtain ⟨r, toks, hne, hbytes, hpay, hlen, hall⟩ := h
  rw [hbytes] at hok
  obtain ⟨hn, hb, -⟩ := fromClient_wire_accepts hpay hlen hne hok
  exact ⟨r.decodedTokens toks, ⟨by rw [hb]; rfl, by simpa using hn, by simpa using hlen⟩, hall⟩

/-- The condition `Keeps` in terms of the token list. -/
theorem Network.Keeps.mem_decoded {s : S} {hd : HandlerData} {r : Request} {q : Packet S}
    {prior : List Token} (h : N.Keeps s hd r q) (hc : hd.Carries prior) {f : S} (hf : f ∈ q.via)
    (hmem : N.token f ∈ prior ++ [N.token s]) :
    N.token f ∈ r.decodedTokens (prior ++ [N.token s]) := by
  have hsent : N.sentTokens s hd = tokenBytes (prior ++ [N.token s]) := by
    rw [Network.sentTokens, hc.1, tokenBytes_append]
    simp [tokenBytes]
  unfold Network.Keeps at h
  rw [hsent] at h
  cases htoks : prior ++ [N.token s] with
  | nil => simp at htoks
  | cons t ts =>
    rw [htoks] at hmem h
    rw [Request.decodedTokens]
    rcases h with hw | hz | hfirst
    · rw [if_pos hw]
      exact hmem
    · have hhead : t.uuid.head? = some 0 := by
        rw [tokenBytes_cons, List.head?_append] at hz
        cases hu : t.uuid with
        | nil =>
          have := t.length_uuid
          rw [hu] at this
          simp at this
        | cons x xs => rw [hu] at hz; simpa using hz
      rw [Token.cleared_of_head hhead, ite_self]
      exact hmem
    · have hne : N.token f ≠ t := by
        intro he
        refine hfirst f hf ?_
        rw [tokenBytes_cons, List.take_left' t.length_uuid, he]
      have htail : N.token f ∈ ts := (List.mem_cons.mp hmem).resolve_left hne
      split <;> exact List.mem_cons_of_mem _ htail

/-- A forwarded packet is traced when the packet it comes from is, or came from a client. -/
theorem Network.Forwards.traced {p q : Packet S} {hd : HandlerData} {r : Request}
    (hf : N.Forwards p.dest hd p.via r q) (hk : N.Keeps p.dest hd r q)
    (hp : p.via = [] ∨ p.Traced N)
    (hok : fromClient (N.token p.dest) (N.heap p.dest) p.bytes = some (0, hd)) : q.Traced N := by
  obtain ⟨prior, hc, hall⟩ : ∃ prior, hd.Carries prior ∧ ∀ f ∈ p.via, N.token f ∈ prior := by
    rcases hp with hnil | ht
    · obtain ⟨prior, hc⟩ := fromClient_carries hok
      exact ⟨prior, hc, fun f hf => by rw [hnil] at hf; simp at hf⟩
    · exact ht.carries hok
  obtain ⟨hbytes, hlt⟩ := hf.wire hc
  refine ⟨r, prior ++ [N.token p.dest], by simp, hbytes, hf.payload, by simpa using hlt, ?_⟩
  intro f hfv
  refine hk.mem_decoded hc hfv ?_
  rw [hf.via] at hfv
  rcases List.mem_append.mp hfv with hv | hv
  · exact List.mem_append_left _ (hall f hv)
  · rw [List.mem_singleton.mp hv]
    simp

/-! ## Runs -/

/-- The invariant of the network. -/
structure Net.Suppressing (N : Network S) (net : Net S) : Prop where
  flight : ∀ p ∈ net.flight, p.via = [] ∨ p.Traced N
  chains : ∀ p ∈ net.flight, (p.via.map N.token).Nodup
  processed : ∀ c ∈ net.processed, (c.map N.token).Nodup

/-- The chain of a request that is accepted has no server twice. -/
theorem nodup_chain {p : Packet S} {hd : HandlerData} (hp : p.via = [] ∨ p.Traced N)
    (hnd : (p.via.map N.token).Nodup)
    (hok : fromClient (N.token p.dest) (N.heap p.dest) p.bytes = some (0, hd)) :
    ((p.via ++ [p.dest]).map N.token).Nodup := by
  rw [List.map_append, List.map_singleton]
  refine List.Nodup.append hnd (List.nodup_singleton _) ?_
  intro t ht hs
  obtain ⟨f, hf, rfl⟩ := List.mem_map.mp ht
  rcases hp with hnil | htr
  · rw [hnil] at hf
    simp at hf
  · refine htr.refused hf (N.heap p.dest) hd ?_
    rw [List.mem_singleton.mp hs]
    exact hok

theorem Net.Suppressing.step {net net' : Net S} (h : net.Suppressing N)
    (hs : N.Step N.Keeps net net') : net'.Suppressing N := by
  cases hs with
  | client dest bytes =>
    refine ⟨fun p hp => ?_, fun p hp => ?_, h.processed⟩
    · rcases List.mem_cons.mp hp with rfl | hp
      · exact Or.inl rfl
      · exact h.flight p hp
    · rcases List.mem_cons.mp hp with rfl | hp
      · exact List.nodup_nil
      · exact h.chains p hp
  | process p hd rest out hperm hok hout =>
    have hmem : p ∈ net.flight := hperm.mem_iff.mpr List.mem_cons_self
    have hrest : ∀ q ∈ rest, q ∈ net.flight :=
      fun q hq => hperm.mem_iff.mpr (List.mem_cons_of_mem _ hq)
    have hchain := nodup_chain (h.flight p hmem) (h.chains p hmem) hok
    refine ⟨fun q hq => ?_, fun q hq => ?_, fun c hc => ?_⟩
    · rcases List.mem_append.mp hq with hq | hq
      · obtain ⟨o, ho, rfl⟩ := List.mem_map.mp hq
        obtain ⟨hf, hk⟩ := hout o ho
        exact Or.inr (hf.traced hk (h.flight p hmem) hok)
      · exact h.flight q (hrest q hq)
    · rcases List.mem_append.mp hq with hq | hq
      · obtain ⟨o, ho, rfl⟩ := List.mem_map.mp hq
        rw [(hout o ho).1.via]
        exact hchain
      · exact h.chains q (hrest q hq)
    · rcases List.mem_cons.mp hc with rfl | hc
      · exact hchain
      · exact h.processed c hc
  | drop p rest hperm =>
    have hrest : ∀ q ∈ rest, q ∈ net.flight :=
      fun q hq => hperm.mem_iff.mpr (List.mem_cons_of_mem _ hq)
    exact ⟨fun q hq => h.flight q (hrest q hq), fun q hq => h.chains q (hrest q hq), h.processed⟩

theorem Network.Reachable.suppressing {net : Net S} (h : N.Reachable N.Keeps net) :
    net.Suppressing N := by
  induction h with
  | refl => exact ⟨by simp, by simp, by simp⟩
  | tail _ hs ih => exact ih.step hs

/--
**Loop suppression.** In every run whose forwarded requests keep the forwarders' tokens, a
request that reaches a server with that server's token among those of the forwarders is refused,
and no request is processed twice by one server.
-/
theorem loop_suppression (N : Network S) {net : Net S} (h : N.Reachable N.Keeps net) :
    (∀ p ∈ net.flight, N.token p.dest ∈ p.via.map N.token →
      ∀ hd, fromClient (N.token p.dest) (N.heap p.dest) p.bytes ≠ some (0, hd)) ∧
    ∀ c ∈ net.processed, (c.map N.token).Nodup := by
  refine ⟨fun p hp hown hd hok => ?_, h.suppressing.processed⟩
  obtain ⟨f, hf, he⟩ := List.mem_map.mp hown
  rcases h.suppressing.flight p hp with hnil | ht
  · rw [hnil] at hf
    simp at hf
  · refine ht.refused hf (N.heap p.dest) hd ?_
    rw [he]
    exact hok

/-! ## A cycle of two servers -/

/-- Two owservers. -/
def sampleNetwork : Network Bool where
  token s := sampleToken (if s then 0xB2 else 0xA1)
  heap _ := sampleHeap

/-- A client sends a request to the first server, that one sends it to the second, and that one
sends it back. -/
theorem Network.reachable_cycle {N : Network Bool} {ok : Bool → HandlerData → Request →
    Packet Bool → Prop} (r : Request) {b₂ : Bytes} (b₀ b₁ : Bytes) (hd₀ hd₁ : HandlerData)
    (h₀ : fromClient (N.token false) (N.heap false) b₀ = some (0, hd₀))
    (f₀ : N.Forwards false hd₀ [] r ⟨true, b₁, [false]⟩ ∧ ok false hd₀ r ⟨true, b₁, [false]⟩)
    (h₁ : fromClient (N.token true) (N.heap true) b₁ = some (0, hd₁))
    (f₁ : N.Forwards true hd₁ [false] r ⟨false, b₂, [false, true]⟩ ∧
      ok true hd₁ r ⟨false, b₂, [false, true]⟩) :
    N.Reachable ok ⟨[⟨false, b₂, [false, true]⟩], [[false, true], [false]]⟩ := by
  have s₀ : N.Step ok ⟨[], []⟩ ⟨[⟨false, b₀, []⟩], []⟩ := .client _ false b₀
  have s₁ : N.Step ok ⟨[⟨false, b₀, []⟩], []⟩ ⟨[⟨true, b₁, [false]⟩], [[false]]⟩ := by
    refine .process _ ⟨false, b₀, []⟩ hd₀ [] [(r, ⟨true, b₁, [false]⟩)] (List.Perm.refl _) h₀ ?_
    intro o ho
    rw [List.mem_singleton.mp ho]
    exact f₀
  have s₂ : N.Step ok ⟨[⟨true, b₁, [false]⟩], [[false]]⟩
      ⟨[⟨false, b₂, [false, true]⟩], [[false, true], [false]]⟩ := by
    refine .process _ ⟨true, b₁, [false]⟩ hd₁ [] [(r, ⟨false, b₂, [false, true]⟩)]
      (List.Perm.refl _) h₁ ?_
    intro o ho
    rw [List.mem_singleton.mp ho]
    exact f₁
  exact ((Relation.ReflTransGen.single s₀).tail s₁).tail s₂

/-- A request as a client sends it, without tokens. -/
def Request.fromPlainClient (r : Request) : Bytes :=
  { r.header true 0 with version := 0 }.hton ++ (r.pathField true ++ r.data)

/-- The handler data of an accepted message. -/
def taken (token : Token) (fd : Bytes) : HandlerData :=
  ((fromClient token sampleHeap fd).map Prod.snd).getD ⟨sampleRead.serverMsg, {}, []⟩

/-- `write /a 1` -/
def sampleWrite : Request where
  type := MsgClassification.write.code
  controlFlags := 0
  size := 1
  offset := 0
  path := sampleRead.path
  data := [0x31]
  path_noNul := sampleRead.path_noNul
  data_of_not_write := by decide
  size_of_write := by decide

/-- The write comes back with both tokens, and the first server refuses it. -/
theorem loop_suppression_sampleWrite :
    sampleNetwork.Reachable sampleNetwork.Keeps
        ⟨[⟨false, sampleWrite.wire true [sampleToken 0xA1, sampleToken 0xB2], [false, true]⟩],
          [[false, true], [false]]⟩ ∧
      ∀ hd, fromClient (sampleToken 0xA1) sampleHeap
        (sampleWrite.wire true [sampleToken 0xA1, sampleToken 0xB2]) ≠ some (0, hd) := by
  have h : sampleNetwork.Reachable sampleNetwork.Keeps
      ⟨[⟨false, sampleWrite.wire true [sampleToken 0xA1, sampleToken 0xB2], [false, true]⟩],
        [[false, true], [false]]⟩ :=
    Network.reachable_cycle sampleWrite sampleWrite.fromPlainClient
      (sampleWrite.wire true [sampleToken 0xA1])
        (taken (sampleToken 0xA1) sampleWrite.fromPlainClient)
      (taken (sampleToken 0xB2) (sampleWrite.wire true [sampleToken 0xA1]))
      (by decide +kernel) ⟨⟨rfl, by decide, by decide +kernel⟩, Or.inl rfl⟩
      (by decide +kernel) ⟨⟨rfl, by decide, by decide +kernel⟩, Or.inl rfl⟩
  exact ⟨h, (loop_suppression sampleNetwork h).1 _ (List.mem_singleton_self _) (by decide)⟩

/-- The read comes back with the first server's token cleared, and is processed there again. -/
theorem cycle_not_suppressed :
    (∃ net, sampleNetwork.Reachable (fun _ _ _ _ => True) net ∧
      ∃ p ∈ net.flight, sampleNetwork.token p.dest ∈ p.via.map sampleNetwork.token ∧
        ∃ hd, fromClient (sampleNetwork.token p.dest) (sampleNetwork.heap p.dest) p.bytes
          = some (0, hd)) ∧
    ∃ net, sampleNetwork.Reachable (fun _ _ _ _ => True) net ∧
      ∃ c ∈ net.processed, ¬ (c.map sampleNetwork.token).Nodup := by
  let back := sampleRead.wire true [(sampleToken 0xA1).cleared, sampleToken 0xB2]
  have h : sampleNetwork.Reachable (fun _ _ _ _ => True)
      ⟨[⟨false, back, [false, true]⟩], [[false, true], [false]]⟩ :=
    Network.reachable_cycle sampleRead sampleRead.fromPlainClient
      (sampleRead.wire true [sampleToken 0xA1])
        (taken (sampleToken 0xA1) sampleRead.fromPlainClient)
      (taken (sampleToken 0xB2) (sampleRead.wire true [sampleToken 0xA1]))
      (by decide +kernel) ⟨⟨rfl, by decide, by decide +kernel⟩, trivial⟩
      (by decide +kernel) ⟨⟨rfl, by decide, by decide +kernel⟩, trivial⟩
  have hok : fromClient (sampleToken 0xA1) sampleHeap back
      = some (0, taken (sampleToken 0xA1) back) := by decide +kernel
  refine ⟨⟨_, h, _, List.mem_singleton_self _, by decide, _, hok⟩, ?_⟩
  refine ⟨_, h.tail (.process _ ⟨false, back, [false, true]⟩ _ [] []
    (List.Perm.refl _) hok (by simp)), [false, true, false], List.mem_cons_self, by decide⟩

end Owfs.Protocol
