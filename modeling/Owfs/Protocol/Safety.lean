import Owfs.Protocol.Roundtrip

/-!
# What `FromClient` accepts

For arbitrary bytes on the socket: when is every access of `FromClient` inside the block it
allocated, and is what it accepts well formed?

Payload, size and token count are added and subtracted before they are checked. Two
combinations slip through.

* A negative payload that the tokens cancel: `trueload` is 0 and the message is accepted before
  the range check (`Cancelled`).
* A write with a negative size: `pathlen` is then larger than the payload (`NegativeWrite`).
-/

namespace Owfs.Protocol

open Infra

variable {token : Token} {heap : Heap} {sm : ServerMsg} {msg : Bytes}

/-! ## Well-formed handler data -/

/-- What the handler relies on after `FromClient` returned 0. -/
structure HandlerData.WellFormed (hd : HandlerData) : Prop where
  payload : 0 ≤ hd.sm.payload.toInt
  block : hd.msg = [] ∨ (hd.msg.length : Int) = trueload hd.sm + 2
  path : 0 < hd.sm.payload.toInt → ∃ s, hd.path = some s
  data : ∀ i, hd.sp.data = some i → i + hd.sp.datasize ≤ hd.msg.length
  tokens : 0 < hd.sp.tokens →
    ∃ p, hd.sp.tokenstring = some p ∧ p + 16 * hd.sp.tokens ≤ hd.msg.length

/-- No access leaves the block, and what is accepted is well formed. -/
def Safe (r : Option (Int × HandlerData)) : Prop :=
  ∃ code hd, r = some (code, hd) ∧ (code = 0 → hd.WellFormed)

theorem Safe.of_error {code : Int} {hd : HandlerData} (h : code ≠ 0) : Safe (some (code, hd)) :=
  ⟨code, hd, rfl, fun he => absurd he h⟩

theorem mem_of_store {b b' : Bytes} {i : Nat} {v : Byte} (h : store b i v = some b') : v ∈ b' := by
  unfold store blit at h
  split at h
  · rw [← Option.some.inj h]
    simp
  · simp at h

theorem cstring_isSome {b : Bytes} (h : 0 ∈ b) : ∃ s, cstring b = some s := ⟨_, if_pos h⟩

/-! ## The payload part -/

/-- What the payload part leaves behind. -/
structure SplitOk (sm : ServerMsg) (msg : Bytes) (sp : ReceivedPackage) (msg' : Bytes) :
    Prop where
  length : msg'.length = msg.length
  path : 0 < sm.payload.toInt → ∃ s, (HandlerData.mk sm sp msg').path = some s
  data : ∀ i, sp.data = some i → i + sp.datasize ≤ msg'.length
  noTokens : sp.tokens = 0

theorem splitWrite_safe (hpos : 0 < sm.payload.toInt) (hlen : sm.payload.toInt + 2 ≤ msg.length)
    (hsize : 0 ≤ sm.size.toInt ∨ pathlen sm ≤ 0) :
    ∃ s, splitWrite sm msg = some s ∧ ∀ sp msg', s = .done sp msg' → SplitOk sm msg sp msg' := by
  by_cases hle : pathlen sm ≤ 0
  · exact ⟨.baddata, by rw [splitWrite, if_pos hle], fun _ _ h => by simp at h⟩
  have hs : 0 ≤ sm.size.toInt := hsize.resolve_right hle
  have hplt : sm.payload.toInt < 2 ^ 31 := BitVec.toInt_lt
  have hpl : pathlen sm = sm.payload.toInt - sm.size.toInt := by
    have := BitVec.toInt_lt (x := sm.size)
    exact toInt_sub32 (by omega) (by omega)
  have hst : (sizeT sm.size : Int) = sm.size.toInt := by
    rw [sizeT_of_nonneg hs]
    omega
  obtain ⟨n, hn⟩ : ∃ n : Nat, pathlen sm = n := ⟨(pathlen sm).toNat, by omega⟩
  have hload : load msg (n - 1) = some (msg.get ⟨n - 1, by omega⟩) :=
    List.getElem?_eq_getElem (by omega)
  rw [splitWrite, if_neg hle, hn]
  simp only [Int.toNat_natCast, hload, Option.bind_eq_bind, Option.bind_some]
  by_cases hz : msg.get ⟨n - 1, by omega⟩ = 0
  · -- the NUL is there: the block stays as it is
    rw [if_pos hz]
    refine ⟨_, rfl, fun sp msg' h => ?_⟩
    obtain ⟨rfl, rfl⟩ := Split.done.inj h
    refine ⟨rfl, fun _ => cstring_isSome ?_, fun i hi => ?_, rfl⟩
    · rw [List.drop_zero, ← hz]
      exact List.get_mem ..
    · obtain rfl := Option.some.inj hi
      show n + sizeT sm.size ≤ _
      omega
  · -- the data moves up by one, into the spare bytes
    rw [if_neg hz]
    obtain ⟨b1, hb1⟩ := memmove_isSome (b := msg) (n + 1) n (sizeT sm.size) (by omega) (by omega)
    have hl1 := length_memmove hb1
    obtain ⟨b2, hb2⟩ := blit_isSome (b := b1) (i := n) (d := [0])
      (by rw [hl1, List.length_singleton]; omega)
    have hl2 := length_blit hb2
    rw [hb1, Option.bind_some, show store b1 n 0 = some b2 from hb2, Option.bind_some]
    refine ⟨_, rfl, fun sp msg' h => ?_⟩
    obtain ⟨rfl, rfl⟩ := Split.done.inj h
    refine ⟨by rw [hl2, hl1], fun _ => cstring_isSome (mem_of_store hb2), fun i hi => ?_, rfl⟩
    obtain rfl := Option.some.inj hi
    show n + 1 + sizeT sm.size ≤ _
    omega

theorem splitPayload_safe (hpay : 0 ≤ sm.payload.toInt)
    (hlen : sm.payload.toInt + 2 ≤ msg.length)
    (hsize : sm.type = MsgClassification.write.code → 0 < sm.payload.toInt →
      0 ≤ sm.size.toInt ∨ pathlen sm ≤ 0) :
    ∃ s, splitPayload sm msg = some s ∧
      ∀ sp msg', s = .done sp msg' → SplitOk sm msg sp msg' := by
  unfold splitPayload
  by_cases hz : sm.payload = 0
  · rw [if_pos hz]
    refine ⟨_, rfl, fun sp msg' h => ?_⟩
    obtain ⟨rfl, rfl⟩ := Split.done.inj h
    refine ⟨rfl, fun hpos => ?_, fun i hi => by simp at hi, rfl⟩
    rw [hz] at hpos
    exact absurd hpos (by decide)
  · have hpos : 0 < sm.payload.toInt := by
      have hne : sm.payload.toInt ≠ 0 := by
        intro he
        exact hz (BitVec.eq_of_toInt_eq he)
      omega
    rw [if_neg hz]
    by_cases hw : sm.type = MsgClassification.write.code
    · rw [if_pos hw]
      exact splitWrite_safe hpos hlen (hsize hw hpos)
    · rw [if_neg hw]
      obtain ⟨b, hb⟩ := blit_isSome (b := msg) (i := sm.payload.toInt.toNat) (d := [0])
        (by rw [List.length_singleton]; omega)
      rw [show store msg sm.payload.toInt.toNat 0 = some b from hb]
      refine ⟨_, rfl, fun sp msg' h => ?_⟩
      obtain ⟨rfl, rfl⟩ := Split.done.inj h
      exact ⟨length_blit hb, fun _ => cstring_isSome (mem_of_store hb),
        fun i hi => by simp at hi, rfl⟩

/-! ## The whole block -/

/-- A write with a negative size can still end in a harmless refusal: the byte before the
supposed data is inside the block and NUL, and the token check then finds the own token. -/
def Suppressed (token : Token) (sm : ServerMsg) (msg : Bytes) : Prop :=
  load msg ((pathlen sm).toNat - 1) = some 0 ∧ isServermessage sm.version = true ∧
    token.uuid ∈ chunks (servertokens sm.version) (msg.drop sm.payload.toInt.toNat)

/-- Payload and tokens together fill the block up to the spare bytes. -/
theorem tokens_in_block (hpay : 0 ≤ sm.payload.toInt)
    (hlen : (msg.length : Int) = trueload sm + 2) (hserver : isServermessage sm.version = true) :
    sm.payload.toInt.toNat + 16 * servertokens sm.version ≤ msg.length := by
  unfold trueload at hlen
  rw [if_pos hserver] at hlen
  omega

theorem payload_in_block (hlen : (msg.length : Int) = trueload sm + 2) :
    sm.payload.toInt + 2 ≤ msg.length := by
  unfold trueload at hlen
  split at hlen <;> omega

theorem receive_safe (hpay : 0 ≤ sm.payload.toInt) (hlen : (msg.length : Int) = trueload sm + 2)
    (hsize : sm.type = MsgClassification.write.code → 0 < sm.payload.toInt →
      0 ≤ sm.size.toInt ∨ pathlen sm ≤ 0) : Safe (receive token sm msg) := by
  obtain ⟨s, hs, hok⟩ := splitPayload_safe hpay (payload_in_block hlen) hsize
  unfold receive
  rw [hs]
  cases s with
  | baddata => exact Safe.of_error (by decide)
  | done sp msg' =>
    have h := hok sp msg' rfl
    have hlen' : (msg'.length : Int) = trueload sm + 2 := by rw [h.length]; exact hlen
    simp only [Option.bind_eq_bind, Option.bind_some]
    by_cases hserver : isServermessage sm.version = true
    · have htok := tokens_in_block hpay hlen' hserver
      rw [if_pos hserver, checkTokens_eq htok]
      split
      · exact Safe.of_error (by decide)
      · exact ⟨0, _, rfl, fun _ => ⟨hpay, Or.inr hlen', h.path, h.data, fun _ => ⟨_, rfl, htok⟩⟩⟩
    · rw [if_neg hserver]
      refine ⟨0, _, rfl, fun _ => ⟨hpay, Or.inr hlen', h.path, h.data, fun hpos => ?_⟩⟩
      exact absurd h.noTokens (Nat.ne_of_gt hpos)

/-- A negative size is never harmless, unless the message is refused for its tokens. -/
theorem receive_negative (hpos : 0 < sm.payload.toInt)
    (hlen : (msg.length : Int) = trueload sm + 2) (hfit : trueload sm ≤ maxPayloadSize)
    (hw : sm.type = MsgClassification.write.code) (hneg : sm.size.toInt < 0)
    (hpl : 0 < pathlen sm) : Safe (receive token sm msg) ↔ Suppressed token sm msg := by
  have hz : sm.payload ≠ 0 := by
    rintro he
    rw [he] at hpos
    exact absurd hpos (by decide)
  have hsmall : msg.length < 2 ^ 63 := by
    unfold maxPayloadSize at hfit
    omega
  have hhuge := sizeT_of_neg hneg
  have hsplit : splitPayload sm msg = splitWrite sm msg := by
    rw [splitPayload, if_neg hz, if_pos hw]
  unfold receive
  rw [hsplit, splitWrite, if_neg (by omega)]
  cases hload : load msg ((pathlen sm).toNat - 1) with
  | none =>
    -- the read of `msg[pathlen-1]` leaves the block
    constructor
    · rintro ⟨_, _, he, _⟩
      simp [hload] at he
    · rintro ⟨he, _⟩
      rw [hload] at he
      simp at he
  | some y =>
    simp only [hload, Option.bind_eq_bind, Option.bind_some]
    by_cases hy : y = 0
    · rw [if_pos hy]
      simp only [Option.bind_some]
      -- accepted with data that runs out of the block
      have hbad : ∀ sp' : ReceivedPackage, sp'.data = some (pathlen sm).toNat →
          sp'.datasize = sizeT sm.size → ¬ Safe (some (0, ⟨sm, sp', msg⟩)) := by
        rintro sp' hd hds ⟨_, _, he, hwf⟩
        obtain ⟨rfl, rfl⟩ := Prod.mk.inj (Option.some.inj he)
        have := (hwf rfl).data _ hd
        simp only [hds] at this
        omega
      by_cases hserver : isServermessage sm.version = true
      · rw [if_pos hserver, checkTokens_eq (tokens_in_block (by omega) hlen hserver)]
        split
        · next hmem =>
          exact ⟨fun _ => ⟨by rw [hload, hy], hserver, hmem⟩, fun _ => Safe.of_error (by decide)⟩
        · next hmem =>
          exact ⟨fun h => absurd h (hbad _ rfl rfl), fun h => absurd h.2.2 hmem⟩
      · rw [if_neg hserver]
        exact ⟨fun h => absurd h (hbad _ rfl rfl), fun h => absurd h.2.1 hserver⟩
    · -- the move of `(size_t) size` bytes leaves the block
      have hmove : memmove msg ((pathlen sm).toNat + 1) (pathlen sm).toNat (sizeT sm.size)
          = none := by
        rw [memmove, slice, if_neg (by omega), Option.bind_none]
      rw [if_neg hy, hmove]
      constructor
      · rintro ⟨_, _, he, _⟩
        simp at he
      · rintro ⟨he, _⟩
        rw [hload] at he
        exact absurd (Option.some.inj he) hy

/-! ## Arbitrary bytes -/

/-- A header whose negative payload is exactly cancelled by its tokens. -/
def Cancelled (fd : Bytes) : Prop :=
  headerSize ≤ fd.length ∧ (headerOf fd).payload.toInt < 0 ∧ trueload (headerOf fd) = 0

/-- A write with a payload and a negative size that is read whole (and whose `pathlen` does not
wrap), unless it is refused for its tokens. -/
structure NegativeWrite (token : Token) (heap : Heap) (fd : Bytes) : Prop where
  whole : (headerSize : Int) + trueload (headerOf fd) ≤ fd.length
  fits : trueload (headerOf fd) ≤ maxPayloadSize
  write : (headerOf fd).type = MsgClassification.write.code
  payload : 0 < (headerOf fd).payload.toInt
  size : (headerOf fd).size.toInt < 0
  pathlen : 0 < pathlen (headerOf fd)
  block : ∃ b, heap.owmalloc ((trueload (headerOf fd)).toNat + 2) = some b ∧
    ¬ Suppressed token (headerOf fd)
      (bodyOf fd (trueload (headerOf fd)).toNat ++ b.drop (trueload (headerOf fd)).toNat)

/-- The block that reaches `receive`. -/
theorem length_block {fd b : Bytes} {n : Nat} (hwhole : headerSize + n ≤ fd.length)
    (hb : heap.owmalloc (n + 2) = some b) : (bodyOf fd n ++ b.drop n).length = n + 2 := by
  simp only [bodyOf, List.length_append, List.length_take, List.length_drop,
    heap.length_owmalloc hb]
  omega

theorem not_negativeWrite_of_trueload {fd : Bytes} (h : trueload (headerOf fd) ≤ 0) :
    ¬ NegativeWrite token heap fd := by
  intro hn
  have := hn.payload
  unfold trueload at h
  split at h <;> omega

/--
**What `FromClient` accepts.** For every header and everything behind it: no access leaves the
block and what is accepted is well formed, except for a cancelled negative payload and for a
write with a negative size.
-/
theorem fromClient_safe_iff (token : Token) (heap : Heap) (fd : Bytes) :
    Safe (fromClient token heap fd) ↔ ¬ Cancelled fd ∧ ¬ NegativeWrite token heap fd := by
  rw [fromClient_eq]
  by_cases h1 : fd.length < headerSize
  · rw [if_pos h1]
    refine ⟨fun _ => ⟨fun hc => ?_, fun hn => ?_⟩, fun _ => Safe.of_error (by decide)⟩
    · exact absurd hc.1 (by omega)
    · have := hn.whole
      exact not_negativeWrite_of_trueload (by omega) hn
  rw [if_neg h1]
  by_cases h2 : trueload (headerOf fd) = 0
  · rw [if_pos h2]
    constructor
    · rintro ⟨_, _, he, hwf⟩
      obtain ⟨rfl, rfl⟩ := Prod.mk.inj (Option.some.inj he)
      have := (hwf rfl).payload
      exact ⟨fun hc => absurd hc.2.1 (by simpa using this),
        not_negativeWrite_of_trueload (by omega)⟩
    · rintro ⟨hc, _⟩
      have hpay : 0 ≤ (headerOf fd).payload.toInt := by
        by_contra hlt
        exact hc ⟨by omega, by omega, h2⟩
      refine ⟨0, _, rfl, fun _ => ⟨hpay, Or.inl rfl, fun hpos => ?_, ?_, ?_⟩⟩
      · -- the payload is 0 as well
        have hpos' : 0 < (headerOf fd).payload.toInt := hpos
        unfold trueload at h2
        split at h2 <;> omega
      · intro i hi
        simp at hi
      · intro hpos
        exact absurd hpos (by simp)
  rw [if_neg h2]
  have hnc : ¬ Cancelled fd := fun hc => h2 hc.2.2
  by_cases h3 : (headerOf fd).payload.toInt < 0 ∨ trueload (headerOf fd) > maxPayloadSize
  · rw [if_pos h3]
    refine ⟨fun _ => ⟨hnc, fun hn => ?_⟩, fun _ => Safe.of_error (by decide)⟩
    have := hn.payload
    have := hn.fits
    omega
  rw [if_neg h3]
  obtain ⟨hpay, hfit⟩ := not_or.mp h3
  cases hb : heap.owmalloc ((trueload (headerOf fd)).toNat + 2) with
  | none =>
    refine ⟨fun _ => ⟨hnc, fun hn => ?_⟩, fun _ => Safe.of_error (by decide)⟩
    obtain ⟨b, hsome, -⟩ := hn.block
    rw [hb] at hsome
    simp at hsome
  | some b =>
    simp only []
    have hnn : 0 ≤ trueload (headerOf fd) := by
      unfold trueload
      split <;> omega
    by_cases h4 : fd.length < headerSize + (trueload (headerOf fd)).toNat
    · rw [if_pos h4]
      refine ⟨fun _ => ⟨hnc, fun hn => ?_⟩, fun _ => Safe.of_error (by decide)⟩
      have := hn.whole
      omega
    rw [if_neg h4]
    have hlen := length_block (Nat.le_of_not_lt h4) hb
    by_cases hbad : (headerOf fd).type = MsgClassification.write.code ∧
        0 < (headerOf fd).payload.toInt ∧ (headerOf fd).size.toInt < 0 ∧ 0 < pathlen (headerOf fd)
    · obtain ⟨hw, hpos, hneg, hpl⟩ := hbad
      rw [receive_negative hpos (by omega) (by omega) hw hneg hpl]
      constructor
      · intro hs
        refine ⟨hnc, fun hn => ?_⟩
        obtain ⟨b', hb', hns⟩ := hn.block
        rw [hb] at hb'
        exact hns (Option.some.inj hb' ▸ hs)
      · rintro ⟨-, hn⟩
        by_contra hs
        exact hn ⟨by omega, by omega, hw, hpos, hneg, hpl, b, hb, hs⟩
    · refine ⟨fun _ => ⟨hnc, fun hn => hbad ⟨hn.write, hn.payload, hn.size, hn.pathlen⟩⟩,
        fun _ => receive_safe (by omega) (by omega) fun hw hpos => ?_⟩
      by_contra hc
      obtain ⟨hs, hp⟩ := not_or.mp hc
      exact hbad ⟨hw, hpos, by omega, by omega⟩

/-! ## Two messages that are accepted -/

/-- A header with payload -16 and one token announced: nothing more is read. -/
def cancelledHeader : ServerMsg where
  version := 0x10001
  payload := 0xFFFFFFF0
  type := MsgClassification.read.code
  controlFlags := 0
  size := 0
  offset := 0

/-- A write of one byte of path with size -1. -/
def negativeHeader : ServerMsg where
  version := 0
  payload := 1
  type := MsgClassification.write.code
  controlFlags := 0
  size := 0xFFFFFFFF
  offset := 0

/-- The first is accepted with a negative payload; the second makes `memmove` leave the block. -/
theorem fromClient_accepts_malformed :
    fromClient (sampleToken 0x11) sampleHeap cancelledHeader.hton
      = some (0, ⟨cancelledHeader, {}, []⟩) ∧
    cancelledHeader.payload.toInt = -16 ∧
    fromClient (sampleToken 0x11) sampleHeap (negativeHeader.hton ++ [0x2F]) = none ∧
    ¬ Safe (fromClient (sampleToken 0x11) sampleHeap cancelledHeader.hton) ∧
    ¬ Safe (fromClient (sampleToken 0x11) sampleHeap (negativeHeader.hton ++ [0x2F])) := by
  have h1 : fromClient (sampleToken 0x11) sampleHeap cancelledHeader.hton
      = some (0, ⟨cancelledHeader, {}, []⟩) := by decide +kernel
  have h2 : fromClient (sampleToken 0x11) sampleHeap (negativeHeader.hton ++ [0x2F]) = none := by
    decide +kernel
  refine ⟨h1, by decide, h2, ?_, ?_⟩
  · rw [h1]
    rintro ⟨_, _, he, hwf⟩
    obtain ⟨rfl, rfl⟩ := Prod.mk.inj (Option.some.inj he)
    exact absurd (hwf rfl).payload (by decide)
  · rw [h2]
    rintro ⟨_, _, he, _⟩
    simp at he

end Owfs.Protocol
