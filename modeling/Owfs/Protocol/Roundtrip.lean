import Owfs.Protocol.FromClient

/-!
# The request round trip

`FromClient` on the bytes of a request. The header comes back as it was sent, and the block is
`path ++ data ++ tokens` with two spare bytes behind it.

The NUL that `FromClient` puts behind the path of a message that is not a write lands on
`msg[payload]`, and there the token list begins. The data of a write whose path has no NUL moves
up by one and lands there too. So the first byte of the first token is the one thing that may
change, and the round trip holds exactly when it does not (`TokensIntact`).
-/

namespace Owfs.Protocol

open Infra

variable {r : Request} {nul : Bool} {toks : List Token} {recv : Token} {heap : Heap}

/-! ## Header fields of a request -/

theorem Request.payload_header (h : r.payloadLength nul < 2 ^ 31) (n : Nat) :
    (r.header nul n).payload.toInt = r.payloadLength nul := toInt_ofNat32 h

theorem Request.trueload_header (h : r.payloadLength nul < 2 ^ 31) {n : Nat} (hn : n < 65536) :
    trueload (r.header nul n) = ((r.payloadLength nul + 16 * n : Nat) : Int) := by
  unfold trueload
  rw [r.payload_header h n]
  show _ + (if isServermessage (serverVersion n) then
    16 * (servertokens (serverVersion n) : Int) else 0) = _
  rw [isServermessage_serverVersion, servertokens_serverVersion hn]
  simp

/-- The size field of a write. -/
theorem Request.size_header (h : r.payloadLength nul < 2 ^ 31) (hw : r.isWrite = true) (n : Nat) :
    (r.header nul n).size.toInt = r.data.length := by
  show r.size.toInt = _
  rw [r.size_of_write (r.isWrite_iff.mp hw)]
  exact toInt_ofNat32 (by unfold Request.payloadLength at h; omega)

theorem Request.pathlen_header (h : r.payloadLength nul < 2 ^ 31) (hw : r.isWrite = true)
    (n : Nat) : pathlen (r.header nul n) = (r.pathField nul).length := by
  have hp := r.payload_header h n
  have hs := r.size_header h hw n
  unfold pathlen
  unfold Request.payloadLength at hp h
  rw [toInt_sub32 (by omega) (by omega), hp, hs]
  omega

theorem Request.sizeT_header (h : r.payloadLength nul < 2 ^ 31) (hw : r.isWrite = true)
    (n : Nat) : sizeT (r.header nul n).size = r.data.length := by
  have hs := r.size_header h hw n
  rw [sizeT_of_nonneg (by omega), hs]
  simp

theorem Request.header_payload_ne (h : r.payloadLength nul < 2 ^ 31)
    (hpos : 0 < r.payloadLength nul) (n : Nat) : (r.header nul n).payload ≠ 0 := by
  intro he
  have hp := r.payload_header h n
  rw [he, show (0 : BitVec 32).toInt = 0 from rfl] at hp
  omega

/-! ## The block -/

/-- The block after the read: payload, tokens, and whatever `owmalloc` left behind them. -/
def Request.block (r : Request) (nul : Bool) (toks : List Token) (slack : Bytes) : Bytes :=
  r.pathField nul ++ (r.data ++ (tokenBytes toks ++ slack))

/-- The bound the claimant of a message has to keep. -/
def Request.Fits (r : Request) (nul : Bool) (toks : List Token) : Prop :=
  r.payloadLength nul + 16 * toks.length ≤ maxPayloadSize

instance (r : Request) (nul : Bool) (toks : List Token) : Decidable (r.Fits nul toks) :=
  inferInstanceAs (Decidable (_ ≤ _))

theorem Request.Fits.bounds (h : r.Fits nul toks) :
    r.payloadLength nul < 2 ^ 31 ∧ toks.length < 65536 := by
  unfold Request.Fits maxPayloadSize at h
  omega

/-- A request that fits is read whole, if there is memory for it. -/
theorem fromClient_wire (recv : Token) (hfit : r.Fits nul toks) (hne : toks ≠ []) {b : Bytes}
    (hb : heap.owmalloc (r.payloadLength nul + 16 * toks.length + 2) = some b) :
    ∃ slack : Bytes, slack.length = 2 ∧
      fromClient recv heap (r.wire nul toks) =
        receive recv (r.header nul toks.length) (r.block nul toks slack) := by
  obtain ⟨hpay, hn⟩ := hfit.bounds
  have hpos : 0 < toks.length := List.length_pos_iff.mpr hne
  have hbody : (r.pathField nul ++ (r.data ++ tokenBytes toks)).length
      = r.payloadLength nul + 16 * toks.length := by
    simp only [List.length_append, length_tokenBytes, Request.payloadLength]
    omega
  have hhead : headerOf (r.wire nul toks) = r.header nul toks.length := headerOf_hton _ _
  have hbytes : bodyOf (r.wire nul toks) (r.payloadLength nul + 16 * toks.length)
      = r.pathField nul ++ (r.data ++ tokenBytes toks) := by
    simpa [Request.wire] using bodyOf_hton (r.header nul toks.length) hbody []
  refine ⟨b.drop (r.payloadLength nul + 16 * toks.length), ?_, ?_⟩
  · rw [List.length_drop, heap.length_owmalloc hb]
    omega
  · have h := fromClient_eq_receive recv (r.wire nul toks)
      (by rw [hhead]; exact r.trueload_header hpay hn) (by omega)
      (by rw [hhead, r.payload_header hpay]; omega) hfit hb
      (by rw [Request.wire, List.length_append, hbody, ServerMsg.length_hton])
    rw [h, hhead, hbytes, Request.block]
    simp only [List.append_assoc]

theorem fromClient_wire_of_ample (recv : Token) (hheap : heap.Ample) (hfit : r.Fits nul toks)
    (hne : toks ≠ []) :
    ∃ slack : Bytes, slack.length = 2 ∧
      fromClient recv heap (r.wire nul toks) =
        receive recv (r.header nul toks.length) (r.block nul toks slack) := by
  obtain ⟨b, hb⟩ := Option.isSome_iff_exists.mp
    (hheap (r.payloadLength nul + 16 * toks.length + 2) (by unfold Request.Fits at hfit; omega))
  exact fromClient_wire recv hfit hne hb

/-- The token check on a block whose payload part is `front`. -/
theorem receive_of_split (recv : Token) (hfit : r.Fits nul toks) {msg front region slack : Bytes}
    {sp : ReceivedPackage}
    (hsplit : splitPayload (r.header nul toks.length) msg
      = some (.done sp (front ++ (region ++ slack))))
    (hfront : front.length = r.payloadLength nul) (hregion : region.length = 16 * toks.length) :
    receive recv (r.header nul toks.length) msg =
      if recv.uuid ∈ chunks toks.length (region ++ slack) then
        some (-einval, ⟨{ r.header nul toks.length with type := MsgClassification.error.code },
          { sp with tokenstring := some front.length, tokens := toks.length }, []⟩)
      else
        some (0, ⟨r.header nul toks.length,
          { sp with tokenstring := some front.length, tokens := toks.length },
          front ++ (region ++ slack)⟩) := by
  obtain ⟨hpay, hn⟩ := hfit.bounds
  have hserver : isServermessage (r.header nul toks.length).version = true :=
    isServermessage_serverVersion _
  have htok : servertokens (r.header nul toks.length).version = toks.length :=
    servertokens_serverVersion hn
  have hp : (r.header nul toks.length).payload.toInt.toNat = front.length := by
    rw [r.payload_header hpay, hfront]
    simp
  unfold receive
  rw [hsplit]
  simp only [Option.bind_eq_bind, Option.bind_some, hserver, if_true]
  rw [checkTokens_eq (by rw [hp, htok]; simp; omega), hp, htok, List.drop_left]

/-! ## What it means to come back -/

/-- `FromClient` accepts the message and gives back path, data and tokens. -/
def RoundTrips (recv : Token) (heap : Heap) (r : Request) (nul : Bool) (toks : List Token) :
    Prop :=
  ∃ hd, fromClient recv heap (r.wire nul toks) = some (0, hd) ∧
    hd.path = some r.path ∧
    hd.data = some r.data ∧ hd.sp.datasize = r.data.length ∧
    hd.sp.tokens = toks.length ∧ hd.receivedTokens = some (tokenBytes toks)

/-- Path and data as the payload part leaves them. -/
structure Request.Restored (r : Request) (sp : ReceivedPackage) (msg : Bytes) : Prop where
  path : (HandlerData.mk r.serverMsg sp msg).path = some r.path
  data : (HandlerData.mk r.serverMsg sp msg).data = some r.data
  datasize : sp.datasize = r.data.length

/-- Once path and data are in place, only the token bytes decide. -/
theorem roundTrips_iff_of_split (hheap : heap.Ample) (hfit : r.Fits nul toks) (hne : toks ≠ [])
    (hown : recv ∉ toks) (front region : Bytes) {sp : ReceivedPackage}
    (hsplit : ∀ slack : Bytes, slack.length = 2 →
      splitPayload (r.header nul toks.length) (r.block nul toks slack)
        = some (.done sp (front ++ (region ++ slack))))
    (hfront : front.length = r.payloadLength nul) (hregion : region.length = 16 * toks.length)
    (hback : ∀ slack, r.Restored sp (front ++ (region ++ slack))) :
    RoundTrips recv heap r nul toks ↔ region = tokenBytes toks := by
  obtain ⟨slack, hslack, hfrom⟩ := fromClient_wire_of_ample recv hheap hfit hne
  have hrec := receive_of_split recv hfit (hsplit slack hslack) hfront hregion
  have hslice : slice (front ++ (region ++ slack)) front.length (16 * toks.length)
      = some region := by
    rw [← hregion]
    exact slice_append_mid _ _ _
  constructor
  · rintro ⟨hd, hok, -, -, -, -, htok⟩
    rw [hfrom, hrec] at hok
    split at hok
    · simp [einval] at hok
    · obtain ⟨-, rfl⟩ := Prod.mk.inj (Option.some.inj hok)
      simp only [HandlerData.receivedTokens, Option.bind_some, hslice, Option.some.injEq] at htok
      exact htok
  · intro he
    have hnot : recv.uuid ∉ chunks toks.length (region ++ slack) := by
      rw [he, chunks_tokenBytes]
      intro hmem
      obtain ⟨t, ht, hu⟩ := List.mem_map.mp hmem
      exact hown (Token.eq_of_uuid hu ▸ ht)
    rw [if_neg hnot] at hrec
    refine ⟨_, hfrom.trans hrec, (hback slack).path, (hback slack).data, (hback slack).datasize,
      rfl, ?_⟩
    rw [← he]
    exact hslice

/-! ## The payload part, case by case -/

/-- A write whose path has its NUL: nothing moves. -/
theorem splitPayload_write_nul (hfit : r.Fits true toks) (hw : r.isWrite = true) (slack : Bytes) :
    splitPayload (r.header true toks.length) (r.block true toks slack) =
      some (.done { path := some 0, data := some (r.path.length + 1), datasize := r.data.length }
        (r.block true toks slack)) := by
  obtain ⟨hpay, -⟩ := hfit.bounds
  have htype := r.isWrite_iff.mp hw
  have hload : load (r.block true toks slack) r.path.length = some 0 := by
    rw [Request.block, Request.pathField, if_pos rfl, List.append_assoc]
    exact load_append _ _ _
  have hlen : (r.pathField true).length = r.path.length + 1 := by simp [Request.pathField]
  unfold splitPayload
  rw [if_neg (r.header_payload_ne hpay (by simp [Request.payloadLength, hlen]) _),
    Request.type_header, if_pos htype, splitWrite, r.pathlen_header hpay hw, hlen]
  rw [if_neg (by omega)]
  simp only [Int.toNat_natCast, Nat.add_sub_cancel, hload, Option.bind_eq_bind, Option.bind_some,
    if_true, r.sizeT_header hpay hw]

/-- Not a write: the NUL goes to `msg[payload]`, over the first byte of the token list. -/
theorem splitPayload_not_write (hfit : r.Fits nul toks) (hw : r.isWrite = false)
    (hpos : 0 < r.payloadLength nul) {x : Byte} {tail : Bytes}
    (htok : tokenBytes toks = x :: tail) (slack : Bytes) :
    splitPayload (r.header nul toks.length) (r.block nul toks slack) =
      some (.done { path := some 0 } (r.pathField nul ++ ((0 :: tail) ++ slack))) := by
  obtain ⟨hpay, -⟩ := hfit.bounds
  have htype := r.isWrite_eq_false_iff.mp hw
  have hdata : r.data = [] := r.data_of_not_write htype
  have hlen : r.payloadLength nul = (r.pathField nul).length := by
    simp [Request.payloadLength, hdata]
  unfold splitPayload
  rw [if_neg (r.header_payload_ne hpay hpos _), Request.type_header, if_neg htype,
    r.payload_header hpay, hlen, Request.block, hdata, htok]
  simp only [Int.toNat_natCast, List.nil_append, List.cons_append, store_append,
    Option.bind_eq_bind, Option.bind_some]

/-- A write whose path has no NUL: the data moves up by one, over the first byte of the token
list. -/
theorem splitPayload_write_noNul (hfit : r.Fits false toks) (hw : r.isWrite = true)
    (hpath : r.path ≠ []) {x : Byte} {tail : Bytes} (htok : tokenBytes toks = x :: tail)
    (slack : Bytes) :
    splitPayload (r.header false toks.length) (r.block false toks slack) =
      some (.done { path := some 0, data := some (r.path.length + 1), datasize := r.data.length }
        (r.path ++ (0 :: (r.data ++ (tail ++ slack))))) := by
  obtain ⟨hpay, -⟩ := hfit.bounds
  have htype := r.isWrite_iff.mp hw
  have hpos : 0 < r.path.length := List.length_pos_iff.mpr hpath
  have hfield : r.pathField false = r.path := by simp [Request.pathField]
  have hblock : r.block false toks slack = r.path ++ (r.data ++ (x :: (tail ++ slack))) := by
    rw [Request.block, hfield, htok, List.cons_append]
  -- the last byte of the path is not NUL
  have hload : ∃ y, load (r.block false toks slack) (r.path.length - 1) = some y ∧ y ≠ 0 := by
    obtain ⟨init, y, hy⟩ := List.eq_nil_or_concat r.path |>.resolve_left hpath
    refine ⟨y, ?_, ?_⟩
    · rw [hblock, hy, List.concat_eq_append, List.append_assoc, List.length_append]
      exact load_append _ _ _
    · rintro rfl
      exact r.path_noNul (by rw [hy]; simp)
  obtain ⟨y, hy, hy0⟩ := hload
  -- the move: `data ++ [x]` becomes a free byte followed by `data`
  obtain ⟨z, m, hm⟩ : ∃ z m, r.data ++ [x] = z :: m := List.exists_cons_of_ne_nil (by simp)
  have hmlen : r.data.length = m.length := by
    have := congrArg List.length hm
    simpa using this
  have hblock' : r.block false toks slack = (r.path ++ [z]) ++ (m ++ (tail ++ slack)) := by
    rw [hblock, show r.data ++ (x :: (tail ++ slack)) = (r.data ++ [x]) ++ (tail ++ slack) by simp,
      hm]
    simp
  have hmove : memmove (r.block false toks slack) (r.path.length + 1) r.path.length r.data.length
      = some (r.path ++ (z :: (r.data ++ (tail ++ slack)))) := by
    rw [memmove, hblock, slice_append_mid, ← hblock, hblock', Option.bind_some,
      show r.path.length + 1 = (r.path ++ [z]).length by simp, blit_append_mid hmlen]
    simp
  unfold splitPayload
  rw [if_neg (r.header_payload_ne hpay (by simp [Request.payloadLength, hfield]; omega) _),
    Request.type_header, if_pos htype, splitWrite, r.pathlen_header hpay hw, hfield,
    if_neg (by omega)]
  simp only [Int.toNat_natCast, hy, hy0, Option.bind_eq_bind, Option.bind_some, if_false,
    r.sizeT_header hpay hw, hmove, store_append]

/-! ## The round trip -/

/-- The condition for the token list to survive `FromClient`: the byte that ends up in front of
it is the one that stood there. -/
def Request.TokensIntact (r : Request) (toks : List Token) : Bool → Prop
  | true => r.isWrite = true ∨ (tokenBytes toks).head? = some 0
  | false => r.path ≠ [] ∧ (tokenBytes toks).head? = (0 :: r.data).getLast?

theorem tokenBytes_eq_cons (hne : toks ≠ []) : ∃ x tail, tokenBytes toks = x :: tail ∧
    tail.length + 1 = 16 * toks.length := by
  have hlen := length_tokenBytes toks
  have hpos : 0 < toks.length := List.length_pos_iff.mpr hne
  cases h : tokenBytes toks with
  | nil =>
    rw [h, List.length_nil] at hlen
    omega
  | cons x tail => exact ⟨x, tail, rfl, by rw [h] at hlen; simpa using hlen⟩

theorem roundTrips_write_nul (hheap : heap.Ample) (hfit : r.Fits true toks) (hne : toks ≠ [])
    (hown : recv ∉ toks) (hw : r.isWrite = true) : RoundTrips recv heap r true toks := by
  have hlen : (r.pathField true).length = r.path.length + 1 := by simp [Request.pathField]
  rw [roundTrips_iff_of_split hheap hfit hne hown (r.pathField true ++ r.data) (tokenBytes toks)
    (fun slack _ => by
      rw [splitPayload_write_nul hfit hw, Request.block, List.append_assoc])
    (by simp [Request.payloadLength]) (by simp) ?_]
  intro slack
  refine ⟨?_, ?_, rfl⟩
  · rw [Request.pathField, if_pos rfl]
    simp only [HandlerData.path, Option.bind_some, List.drop_zero, List.append_assoc,
      List.singleton_append]
    exact cstring_append r.path_noNul _
  · simp only [HandlerData.data, List.append_assoc, ← hlen]
    exact slice_append_mid _ _ _

theorem roundTrips_not_write (hheap : heap.Ample) (hfit : r.Fits nul toks) (hne : toks ≠ [])
    (hown : recv ∉ toks) (hw : r.isWrite = false) (hpos : 0 < r.payloadLength nul) :
    RoundTrips recv heap r nul toks ↔ (tokenBytes toks).head? = some 0 := by
  obtain ⟨x, tail, htok, hlen⟩ := tokenBytes_eq_cons hne
  have hdata : r.data = [] := r.data_of_not_write (r.isWrite_eq_false_iff.mp hw)
  rw [roundTrips_iff_of_split hheap hfit hne hown (r.pathField nul) (0 :: tail)
    (fun slack _ => splitPayload_not_write hfit hw hpos htok slack)
    (by simp [Request.payloadLength, hdata]) (by simpa using hlen) ?_, htok]
  · exact ⟨fun h => by rw [← h]; rfl, fun h => by rw [Option.some.inj h]⟩
  · intro slack
    refine ⟨?_, by rw [hdata]; rfl, by rw [hdata]; rfl⟩
    -- whether or not the path brought its NUL, one follows it now
    cases nul with
    | false =>
      rw [Request.pathField, if_neg (by simp), List.append_nil]
      exact cstring_append r.path_noNul _
    | true =>
      rw [Request.pathField, if_pos rfl, List.append_assoc]
      exact cstring_append r.path_noNul _

theorem roundTrips_write_noNul (hheap : heap.Ample) (hfit : r.Fits false toks) (hne : toks ≠ [])
    (hown : recv ∉ toks) (hw : r.isWrite = true) (hpath : r.path ≠ []) :
    RoundTrips recv heap r false toks ↔ (tokenBytes toks).head? = (0 :: r.data).getLast? := by
  obtain ⟨x, tail, htok, hlen⟩ := tokenBytes_eq_cons hne
  obtain ⟨init, y, hy⟩ := List.eq_nil_or_concat (0 :: r.data) |>.resolve_left (by simp)
  rw [List.concat_eq_append] at hy
  have hmsg : ∀ slack : Bytes, r.path ++ (0 :: (r.data ++ (tail ++ slack)))
      = (r.path ++ init) ++ ((y :: tail) ++ slack) := by
    intro slack
    rw [← List.cons_append, hy]
    simp
  have hinit : init.length = r.data.length := by
    have := congrArg List.length hy
    simpa using this.symm
  rw [roundTrips_iff_of_split hheap hfit hne hown (r.path ++ init) (y :: tail)
    (fun slack _ => by rw [splitPayload_write_noNul hfit hw hpath htok, hmsg])
    (by simp [Request.payloadLength, Request.pathField, hinit]) (by simpa using hlen) ?_, htok, hy]
  · rw [List.getLast?_concat]
    exact ⟨fun h => by rw [← h]; rfl, fun h => by rw [Option.some.inj h]⟩
  · intro slack
    rw [← hmsg]
    refine ⟨cstring_append r.path_noNul _, ?_, rfl⟩
    show slice (r.path ++ (0 :: (r.data ++ (tail ++ slack)))) (r.path.length + 1) r.data.length = _
    rw [show r.path ++ (0 :: (r.data ++ (tail ++ slack)))
      = (r.path ++ [0]) ++ (r.data ++ (tail ++ slack)) by simp,
      show r.path.length + 1 = (r.path ++ [0]).length by simp]
    exact slice_append_mid _ _ _

/-- An empty path without its NUL is no payload at all, or too short a one for a write. -/
theorem not_roundTrips_of_empty (hheap : heap.Ample) (hfit : r.Fits false toks) (hne : toks ≠ [])
    (hpath : r.path = []) : ¬ RoundTrips recv heap r false toks := by
  obtain ⟨hpay, hn⟩ := hfit.bounds
  obtain ⟨slack, -, hfrom⟩ := fromClient_wire_of_ample recv hheap hfit hne
  have hfield : r.pathField false = [] := by simp [Request.pathField, hpath]
  rintro ⟨hd, hok, hp, -⟩
  rw [hfrom] at hok
  by_cases hz : r.data = []
  · -- no payload: the path pointer stays null
    have hpz : (r.header false toks.length).payload = 0 := by
      simp [Request.header, Request.payloadLength, hfield, hz]
    have hsplit : splitPayload (r.header false toks.length) (r.block false toks slack)
        = some (.done {} ([] ++ (tokenBytes toks ++ slack))) := by
      rw [splitPayload, if_pos hpz, Request.block, hfield, hz]
      rfl
    rw [receive_of_split recv hfit hsplit (by simp [Request.payloadLength, hfield, hz])
      (by simp)] at hok
    split at hok
    · simp [einval] at hok
    · rw [← (Prod.mk.inj (Option.some.inj hok)).2] at hp
      simp [HandlerData.path] at hp
  · -- "Data size mismatch"
    have hw : r.isWrite = true := by
      by_contra hc
      exact hz (r.data_of_not_write (r.isWrite_eq_false_iff.mp (by simpa using hc)))
    have hpos : 0 < r.payloadLength false := by
      have := List.length_pos_iff.mpr hz
      unfold Request.payloadLength
      omega
    have hbad : splitWrite (r.header false toks.length) (r.block false toks slack)
        = some .baddata := by
      rw [splitWrite, r.pathlen_header hpay hw, hfield]
      rfl
    rw [receive, splitPayload, if_neg (r.header_payload_ne hpay hpos _), Request.type_header,
      if_pos (r.isWrite_iff.mp hw), hbad] at hok
    simp [einval] at hok

/-- **The round trip holds exactly when the token list survives.** -/
theorem roundTrips_iff_tokensIntact (hheap : heap.Ample) (hfit : r.Fits nul toks)
    (hne : toks ≠ []) (hown : recv ∉ toks) :
    RoundTrips recv heap r nul toks ↔ r.TokensIntact toks nul := by
  cases nul with
  | true =>
    cases hw : r.isWrite with
    | true =>
      exact ⟨fun _ => Or.inl hw, fun _ => roundTrips_write_nul hheap hfit hne hown hw⟩
    | false =>
      have hpos : 0 < r.payloadLength true := by
        simp [Request.payloadLength, Request.pathField]
      rw [roundTrips_not_write hheap hfit hne hown hw hpos]
      simp [Request.TokensIntact, hw]
  | false =>
    by_cases hpath : r.path = []
    · exact ⟨fun h => absurd h (not_roundTrips_of_empty hheap hfit hne hpath),
        fun h => absurd hpath h.1⟩
    · cases hw : r.isWrite with
      | true =>
        rw [roundTrips_write_noNul hheap hfit hne hown hw hpath]
        exact ⟨fun h => ⟨hpath, h⟩, fun h => h.2⟩
      | false =>
        have hz : r.data = [] := r.data_of_not_write (r.isWrite_eq_false_iff.mp hw)
        have hpos : 0 < r.payloadLength false := by
          have := List.length_pos_iff.mpr hpath
          simp [Request.payloadLength, Request.pathField]
          omega
        rw [roundTrips_not_write hheap hfit hne hown hw hpos, Request.TokensIntact, hz]
        exact ⟨fun h => ⟨hpath, h⟩, fun h => h.2⟩

/--
**The request round trip.** What an owserver writes, and what another client may send without
the NUL behind the path, comes back from `FromClient` exactly when

* the message is a write, or the first token starts with a zero byte (path with NUL);
* the path is not empty and the first token starts with the last byte of `NUL ++ data` (path
  without NUL).
-/
theorem fromClient_writeToServer_iff {g : Globals} (recv : Token) (hg : g.serverType = true)
    (hheap : heap.Ample) (r : Request) (prior : List Token) (hown : recv ∉ prior ++ [g.token]) :
    (r.Fits true (prior ++ [g.token]) →
      writeToServer g r.serverMsg (r.serverPackage prior)
        = .ok (r.wire true (prior ++ [g.token])) ∧
      (RoundTrips recv heap r true (prior ++ [g.token]) ↔
        r.isWrite = true ∨ (tokenBytes (prior ++ [g.token])).head? = some 0)) ∧
    (r.Fits false (prior ++ [g.token]) →
      (RoundTrips recv heap r false (prior ++ [g.token]) ↔
        r.path ≠ [] ∧ (tokenBytes (prior ++ [g.token])).head? = (0 :: r.data).getLast?)) := by
  have hne : prior ++ [g.token] ≠ [] := by simp
  refine ⟨fun hfit => ⟨?_, roundTrips_iff_tokensIntact hheap hfit hne hown⟩,
    fun hfit => roundTrips_iff_tokensIntact hheap hfit hne hown⟩
  refine writeToServer_eq_wire hg r prior ?_
  have := hfit.bounds.2
  rw [List.length_append, List.length_singleton] at this
  omega

/-! ## A token that does not come back -/

/-- A heap that never runs out; fresh blocks are filled with `0xEE`. -/
def sampleHeap : Heap where
  owmalloc n := some (List.replicate n 0xEE)
  length_owmalloc := by
    intro n b h
    rw [← Option.some.inj h, List.length_replicate]

theorem sampleHeap_ample : sampleHeap.Ample := fun _ _ => rfl

/-- A token of one repeated byte. -/
def sampleToken (b : Byte) : Token := ⟨List.replicate 16 b, List.length_replicate⟩

/-- `read /a` -/
def sampleRead : Request where
  type := MsgClassification.read.code
  controlFlags := 0
  size := 64
  offset := 0
  path := [0x2F, 0x61]
  data := []
  path_noNul := by decide
  data_of_not_write := fun _ => rfl
  size_of_write := by decide

def sampleServer : Globals := ⟨.server, sampleToken 0xA5⟩

/-- The read is accepted, but its token comes back with the first byte cleared. -/
theorem fromClient_sampleRead_token :
    writeToServer sampleServer sampleRead.serverMsg (sampleRead.serverPackage [])
      = .ok (sampleRead.wire true [sampleToken 0xA5]) ∧
    (fromClient (sampleToken 0x11) sampleHeap (sampleRead.wire true [sampleToken 0xA5])).map
      (fun p => (p.1, p.2.receivedTokens)) = some (0, some (0 :: List.replicate 15 0xA5)) ∧
    ¬ RoundTrips (sampleToken 0x11) sampleHeap sampleRead true [sampleToken 0xA5] := by
  refine ⟨rfl, by decide +kernel, ?_⟩
  rw [roundTrips_not_write sampleHeap_ample (by decide) (by decide) (by decide) rfl (by decide)]
  decide

theorem fromClient_writeToServer_sampleRead :
    RoundTrips (sampleToken 0x11) sampleHeap sampleRead true [sampleToken 0] :=
  ((fromClient_writeToServer_iff (g := ⟨.server, sampleToken 0⟩) (sampleToken 0x11) rfl
    sampleHeap_ample sampleRead [] (by decide)).1 (by decide)).2.mpr (Or.inr rfl)

end Owfs.Protocol
