import Owfs.Protocol.Message

/-!
# Reading a request: `FromClient`

`FromClient` (`from_client.c`) reads the 24-byte header, allocates one block for payload and
tokens, and then edits that block in place: it adds the NUL behind the path, moves the data up
when it has to, and looks for its own token in the list behind the payload.

Pointers into the block are offsets. `fromClient` answers `none` when an access leaves the block.
-/

namespace Owfs.Protocol

open Infra

/-! ## Memory and sockets -/

/-- `owmalloc`. A block that is returned has the length asked for and any contents. -/
structure Heap where
  owmalloc : Nat → Option Bytes
  length_owmalloc : ∀ {n b}, owmalloc n = some b → b.length = n

/-- Every block a request may need can be had. -/
def Heap.Ample (heap : Heap) : Prop := ∀ n ≤ maxPayloadSize + 2, (heap.owmalloc n).isSome

/-- `tcp_read`: what arrives of the `n` bytes wanted, and what is left on the socket. -/
def tcpRead (fd : Bytes) (n : Nat) : Bytes × Bytes := (fd.take n, fd.drop n)

/-! ## The decoded request -/

/-- `struct serverpackage` on the receiving side; a null pointer is `none`. -/
structure ReceivedPackage where
  path : Option Nat := none
  data : Option Nat := none
  datasize : Nat := 0
  tokenstring : Option Nat := none
  tokens : Nat := 0
deriving DecidableEq, Repr

/-- The part of `struct handlerdata` that `FromClient` fills, with the block `msg`. -/
structure HandlerData where
  sm : ServerMsg
  sp : ReceivedPackage
  msg : Bytes
deriving DecidableEq, Repr

/-- The string at `sp.path`. -/
def HandlerData.path (hd : HandlerData) : Option Bytes :=
  hd.sp.path.bind fun i => cstring (hd.msg.drop i)

/-- The `sp.datasize` bytes at `sp.data`; a null pointer stands for no data. -/
def HandlerData.data (hd : HandlerData) : Option Bytes :=
  match hd.sp.data with
  | none => some []
  | some i => slice hd.msg i hd.sp.datasize

/-- The `sp.tokens` tokens at `sp.tokenstring`. -/
def HandlerData.receivedTokens (hd : HandlerData) : Option Bytes :=
  hd.sp.tokenstring.bind fun i => slice hd.msg i (16 * hd.sp.tokens)

/-! ## The function -/

/-- Payload plus tokens. -/
def trueload (sm : ServerMsg) : Int :=
  sm.payload.toInt + if isServermessage sm.version then 16 * (servertokens sm.version : Int) else 0

/-- What the payload part of `FromClient` ends in. -/
inductive Split where
  | baddata
  | done (sp : ReceivedPackage) (msg : Bytes)
deriving DecidableEq, Repr

/-- `pathlen` of a write; an `int`, so it wraps. -/
def pathlen (sm : ServerMsg) : Int := (sm.payload - sm.size).toInt

/-- The write branch: the data stands behind `pathlen` bytes of path. -/
def splitWrite (sm : ServerMsg) (msg : Bytes) : Option Split :=
  if pathlen sm ≤ 0 then some .baddata
  else do
    let n := (pathlen sm).toNat
    let last ← load msg (n - 1)
    if last = 0 then
      some (.done { path := some 0, data := some n, datasize := sizeT sm.size } msg)
    else
      -- make room for the NUL at the end of the path
      let msg ← memmove msg (n + 1) n (sizeT sm.size)
      let msg ← store msg n 0
      some (.done { path := some 0, data := some (n + 1), datasize := sizeT sm.size } msg)

/-- Path and data from the payload. -/
def splitPayload (sm : ServerMsg) (msg : Bytes) : Option Split :=
  if sm.payload = 0 then some (.done {} msg)
  else if sm.type = MsgClassification.write.code then splitWrite sm msg
  else do
    let msg ← store msg sm.payload.toInt.toNat 0
    some (.done { path := some 0 } msg)

/-- The token loop: is the own token among the `n` tokens at offset `p`? -/
def ownTokenIn (token : Token) (msg : Bytes) : Nat → Nat → Option Bool
  | 0, _ => some false
  | n + 1, p => do
    let t ← slice msg p 16
    if t = token.uuid then some true else ownTokenIn token msg n (p + 16)

/-- "make sure no loop" -/
def checkTokens (token : Token) (sm : ServerMsg) (sp : ReceivedPackage) (msg : Bytes) :
    Option (Int × HandlerData) := do
  let p := sm.payload.toInt.toNat
  let n := servertokens sm.version
  let sp := { sp with tokenstring := some p, tokens := n }
  if ← ownTokenIn token msg n p then
    some (-einval, ⟨{ sm with type := MsgClassification.error.code }, sp, []⟩)
  else some (0, ⟨sm, sp, msg⟩)

/-- What `FromClient` does once the block is read. -/
def receive (token : Token) (sm : ServerMsg) (msg : Bytes) : Option (Int × HandlerData) := do
  match ← splitPayload sm msg with
  | .baddata => some (-einval, ⟨sm, {}, []⟩)
  | .done sp msg =>
    if isServermessage sm.version then checkTokens token sm sp msg
    else some (0, ⟨sm, sp, msg⟩)

/-- `FromClient`: the return code and the handler data. Of a header cut short only the type,
`msg_error`, is ever looked at. -/
def fromClient (token : Token) (heap : Heap) (fd : Bytes) : Option (Int × HandlerData) :=
  let (header, rest) := tcpRead fd headerSize
  let sm := ServerMsg.ntoh header
  let bad : HandlerData := ⟨{ sm with type := MsgClassification.error.code }, {}, []⟩
  if header.length ≠ headerSize then some (-eio, bad)
  else if trueload sm = 0 then some (0, ⟨sm, {}, []⟩)
  else if sm.payload.toInt < 0 ∨ trueload sm > maxPayloadSize then some (-emsgsize, bad)
  else
    match heap.owmalloc (trueload sm + 2).toNat with
    | none => some (-enomem, bad)
    | some block => do
      let body := (tcpRead rest (trueload sm).toNat).1
      let msg ← blit block 0 body
      if body.length ≠ (trueload sm).toNat then some (-einval, bad)
      else receive token sm msg

/-! ## The token loop -/

/-- The first `n` tokens of a byte string. -/
def chunks : Nat → Bytes → List Bytes
  | 0, _ => []
  | n + 1, b => b.take 16 :: chunks n (b.drop 16)

theorem chunks_tokenBytes (toks : List Token) (rest : Bytes) :
    chunks toks.length (tokenBytes toks ++ rest) = toks.map Token.uuid := by
  induction toks with
  | nil => rfl
  | cons t ts ih =>
    rw [List.length_cons, chunks, tokenBytes_cons, List.append_assoc, List.map_cons]
    rw [List.take_left' t.length_uuid, List.drop_left' t.length_uuid, ih]

/-- When the tokens lie in the block the loop is a membership test. -/
theorem ownTokenIn_eq (token : Token) (msg : Bytes) : ∀ (n p : Nat), p + 16 * n ≤ msg.length →
    ownTokenIn token msg n p = some (decide (token.uuid ∈ chunks n (msg.drop p)))
  | 0, p, _ => by simp [ownTokenIn, chunks]
  | n + 1, p, h => by
    have hslice : slice msg p 16 = some ((msg.drop p).take 16) := if_pos (by omega)
    rw [ownTokenIn, hslice]
    simp only [Option.bind_eq_bind, Option.bind_some]
    rw [ownTokenIn_eq token msg n (p + 16) (by omega), chunks, List.drop_drop]
    by_cases he : (msg.drop p).take 16 = token.uuid
    · simp [he]
    · rw [if_neg he]
      simp [Ne.symm he]

/-- A successful loop has only read inside the block. -/
theorem ownTokenIn_bound {token : Token} {msg : Bytes} : ∀ {n p : Nat},
    ownTokenIn token msg n p = some false → n = 0 ∨ p + 16 * n ≤ msg.length
  | 0, _, _ => Or.inl rfl
  | n + 1, p, h => by
    right
    rw [ownTokenIn] at h
    obtain ⟨t, ht, hrest⟩ := Option.bind_eq_some_iff.mp h
    have hp : p + 16 ≤ msg.length := by
      by_contra hc
      rw [slice, if_neg hc] at ht
      simp at ht
    split at hrest
    · simp at hrest
    · rcases ownTokenIn_bound hrest with h0 | hb
      · omega
      · omega

/-- `checkTokens` on a block that holds the tokens. -/
theorem checkTokens_eq {token : Token} {sm : ServerMsg} {sp : ReceivedPackage} {msg : Bytes}
    (h : sm.payload.toInt.toNat + 16 * servertokens sm.version ≤ msg.length) :
    checkTokens token sm sp msg =
      if token.uuid ∈ chunks (servertokens sm.version) (msg.drop sm.payload.toInt.toNat) then
        some (-einval, ⟨{ sm with type := MsgClassification.error.code },
          { sp with
            tokenstring := some sm.payload.toInt.toNat
            tokens := servertokens sm.version }, []⟩)
      else
        some (0, ⟨sm,
          { sp with
            tokenstring := some sm.payload.toInt.toNat
            tokens := servertokens sm.version }, msg⟩) := by
  unfold checkTokens
  simp only [ownTokenIn_eq token msg _ _ h, Option.bind_eq_bind, Option.bind_some,
    decide_eq_true_eq]

/-! ## From the socket to the block -/

/-- The header that stands at the front of the socket. -/
def headerOf (fd : Bytes) : ServerMsg := ServerMsg.ntoh (fd.take headerSize)

/-- The `n` bytes behind the header. -/
def bodyOf (fd : Bytes) (n : Nat) : Bytes := (fd.drop headerSize).take n

theorem headerOf_hton (sm : ServerMsg) (rest : Bytes) : headerOf (sm.hton ++ rest) = sm := by
  rw [headerOf, List.take_left' sm.length_hton, ServerMsg.ntoh_hton]

theorem bodyOf_hton (sm : ServerMsg) {body : Bytes} {n : Nat} (h : body.length = n)
    (rest : Bytes) : bodyOf (sm.hton ++ (body ++ rest)) n = body := by
  rw [bodyOf, List.drop_left' sm.length_hton, List.take_left' h]

/-- Reading the body never leaves the block. -/
theorem blit_bodyOf {heap : Heap} (fd : Bytes) {block : Bytes} {n : Nat}
    (hblock : heap.owmalloc (n + 2) = some block) :
    blit block 0 (bodyOf fd n) = some (bodyOf fd n ++ block.drop (bodyOf fd n).length) := by
  have hlen : (bodyOf fd n).length ≤ n := by simp [bodyOf]
  rw [blit, if_pos (by rw [heap.length_owmalloc hblock]; omega)]
  simp

/-- The handler data of an early refusal. -/
def refused (sm : ServerMsg) : HandlerData :=
  ⟨{ sm with type := MsgClassification.error.code }, {}, []⟩

/-- `fromClient` in terms of the header and the body on the socket. -/
theorem fromClient_eq (token : Token) (heap : Heap) (fd : Bytes) :
    fromClient token heap fd =
      if fd.length < headerSize then some (-eio, refused (headerOf fd))
      else if trueload (headerOf fd) = 0 then some (0, ⟨headerOf fd, {}, []⟩)
      else if (headerOf fd).payload.toInt < 0 ∨ trueload (headerOf fd) > maxPayloadSize then
        some (-emsgsize, refused (headerOf fd))
      else
        match heap.owmalloc ((trueload (headerOf fd)).toNat + 2) with
        | none => some (-enomem, refused (headerOf fd))
        | some block =>
          if fd.length < headerSize + (trueload (headerOf fd)).toNat then
            some (-einval, refused (headerOf fd))
          else
            receive token (headerOf fd) (bodyOf fd (trueload (headerOf fd)).toNat ++
              block.drop (trueload (headerOf fd)).toNat) := by
  have hshort : (fd.take headerSize).length ≠ headerSize ↔ fd.length < headerSize := by
    rw [List.length_take]
    omega
  unfold fromClient tcpRead
  simp only [hshort]
  by_cases h1 : fd.length < headerSize
  · rw [if_pos h1, if_pos h1]
    rfl
  rw [if_neg h1, if_neg h1]
  show (if trueload (headerOf fd) = 0 then _ else _) = _
  by_cases h2 : trueload (headerOf fd) = 0
  · rw [if_pos h2, if_pos h2]
    rfl
  rw [if_neg h2, if_neg h2]
  show (if (headerOf fd).payload.toInt < 0 ∨ trueload (headerOf fd) > maxPayloadSize
    then _ else _) = _
  by_cases h3 : (headerOf fd).payload.toInt < 0 ∨ trueload (headerOf fd) > maxPayloadSize
  · rw [if_pos h3, if_pos h3]
    rfl
  rw [if_neg h3, if_neg h3]
  have hnn : 0 ≤ trueload (headerOf fd) := by
    have := not_or.mp h3
    unfold trueload
    split <;> omega
  have hsize : (trueload (headerOf fd) + 2).toNat = (trueload (headerOf fd)).toNat + 2 := by
    omega
  show (match heap.owmalloc (trueload (headerOf fd) + 2).toNat with
    | none => _
    | some block => _) = _
  rw [hsize]
  cases hb : heap.owmalloc ((trueload (headerOf fd)).toNat + 2) with
  | none => rfl
  | some block =>
    have hcut : (bodyOf fd (trueload (headerOf fd)).toNat).length
          ≠ (trueload (headerOf fd)).toNat
        ↔ fd.length < headerSize + (trueload (headerOf fd)).toNat := by
      simp only [bodyOf, List.length_take, List.length_drop]
      omega
    show (blit block 0 (bodyOf fd (trueload (headerOf fd)).toNat)).bind (fun msg =>
      if (bodyOf fd (trueload (headerOf fd)).toNat).length ≠ (trueload (headerOf fd)).toNat
      then _ else receive token (headerOf fd) msg) = _
    rw [blit_bodyOf fd hb, Option.bind_some]
    simp only [hcut]
    by_cases h4 : fd.length < headerSize + (trueload (headerOf fd)).toNat
    · rw [if_pos h4, if_pos h4]
      rfl
    · have hlen := not_imp_comm.mp hcut.mp h4
      rw [if_neg h4, if_neg h4, hlen]

/-- The message reaches `receive` when it is announced well, fits, and arrives whole. -/
theorem fromClient_eq_receive (token : Token) {heap : Heap} (fd : Bytes) {block : Bytes} {n : Nat}
    (hn : trueload (headerOf fd) = (n : Int)) (hpos : 0 < n)
    (hpay : 0 ≤ (headerOf fd).payload.toInt) (hfit : n ≤ maxPayloadSize)
    (hblock : heap.owmalloc (n + 2) = some block) (hwhole : headerSize + n ≤ fd.length) :
    fromClient token heap fd = receive token (headerOf fd) (bodyOf fd n ++ block.drop n) := by
  rw [fromClient_eq, if_neg (by omega), if_neg (by omega), if_neg (by omega)]
  simp only [hn, Int.toNat_natCast, hblock]
  rw [if_neg (by omega)]

end Owfs.Protocol
