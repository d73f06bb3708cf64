import Owfs.Infra.Bytes

/-!
# owserver messages

The request side of the owserver protocol: `struct server_msg`, the token list that owservers
append against loops, and `WriteToServer`, which lays a request out for `writev`
(`ow_message.h`, `ow_server_message.c`).

Header fields are 32-bit words. The arithmetic on them is done on `BitVec.toInt`, as the code
does it on `int32_t`.
-/

namespace Owfs.Protocol

open Infra

/-! ## Constants -/

/-- `MAX_OWSERVER_PROTOCOL_PAYLOAD_SIZE` -/
def maxPayloadSize : Nat := 100050

/-- `INDEX_BAD` -/
def indexBad : Int := -1

/-- `struct antiloop`: the unique token of an owserver. -/
structure Token where
  uuid : Bytes
  length_uuid : uuid.length = 16
deriving DecidableEq

theorem Token.eq_of_uuid : ∀ {s t : Token}, s.uuid = t.uuid → s = t
  | ⟨_, _⟩, ⟨_, _⟩, rfl => rfl

/-- `enum msg_classification`. The wire carries any 32-bit value, so the field itself is a word
and is compared with `code`. -/
inductive MsgClassification where
  | error | nop | read | write | dir | size | presence | dirall | get | dirallslash | getslash
deriving DecidableEq, Repr

def MsgClassification.code : MsgClassification → BitVec 32
  | .error => 0
  | .nop => 1
  | .read => 2
  | .write => 3
  | .dir => 4
  | .size => 5
  | .presence => 6
  | .dirall => 7
  | .get => 8
  | .dirallslash => 9
  | .getslash => 10

/-! ## The header -/

/-- `struct server_msg` -/
structure ServerMsg where
  version : BitVec 32
  payload : BitVec 32
  type : BitVec 32
  controlFlags : BitVec 32
  size : BitVec 32
  offset : BitVec 32
deriving DecidableEq, Repr

/-- `sizeof(struct server_msg)` -/
def headerSize : Nat := 24

/-- The header in network order, field by field (`htonl`). -/
def ServerMsg.hton (sm : ServerMsg) : Bytes :=
  be32 sm.version ++ (be32 sm.payload ++ (be32 sm.type ++ (be32 sm.controlFlags ++
    (be32 sm.size ++ be32 sm.offset))))

/-- The header in host order (`ntohl`). -/
def ServerMsg.ntoh (b : Bytes) : ServerMsg where
  version := ofBe32 b
  payload := ofBe32 (b.drop 4)
  type := ofBe32 (b.drop 8)
  controlFlags := ofBe32 (b.drop 12)
  size := ofBe32 (b.drop 16)
  offset := ofBe32 (b.drop 20)

@[simp] theorem ServerMsg.length_hton (sm : ServerMsg) : sm.hton.length = headerSize := rfl

/-- Dropping whole words from the front. -/
theorem drop_be32_append (x : BitVec 32) (n : Nat) (rest : Bytes) :
    (be32 x ++ rest).drop (4 + n) = rest.drop n := by
  rw [← List.drop_drop, show (4 : Nat) = (be32 x).length from rfl, List.drop_left]

theorem ServerMsg.ntoh_hton (sm : ServerMsg) : ServerMsg.ntoh sm.hton = sm := by
  unfold ServerMsg.ntoh ServerMsg.hton
  have hlast : ofBe32 (be32 sm.offset) = sm.offset := by
    simpa using ofBe32_be32_append sm.offset []
  rw [show (4 : Nat) = 4 + 0 from rfl, show (8 : Nat) = 4 + (4 + 0) from rfl,
    show (12 : Nat) = 4 + (4 + (4 + 0)) from rfl,
    show (16 : Nat) = 4 + (4 + (4 + (4 + 0))) from rfl,
    show (20 : Nat) = 4 + (4 + (4 + (4 + (4 + 0)))) from rfl]
  simp only [drop_be32_append, List.drop_zero, ofBe32_be32_append, hlast]

/-! ## Tokens in the version word -/

/-- `ServermessageMASK`: the message comes from an owserver and carries tokens. -/
def servermessageMask : BitVec 32 := 0x10000

/-- `isServermessage` -/
def isServermessage (version : BitVec 32) : Bool :=
  version &&& servermessageMask == servermessageMask

/-- `Servertokens` -/
def servertokens (version : BitVec 32) : Nat := (version &&& 0xFFFF).toNat

/-- The version word that `WriteToServer` builds for `tokens` tokens. -/
def serverVersion (tokens : Nat) : BitVec 32 := servermessageMask ||| BitVec.ofNat 32 tokens

theorem servertokens_lt (version : BitVec 32) : servertokens version < 65536 := by
  unfold servertokens
  rw [BitVec.toNat_and]
  exact Nat.lt_of_le_of_lt Nat.and_le_right (by decide)

/-- A token count below `2^16` does not touch the server flag. -/
theorem isServermessage_serverVersion (n : Nat) : isServermessage (serverVersion n) = true := by
  unfold isServermessage serverVersion
  rw [beq_iff_eq]
  apply BitVec.eq_of_getLsbD_eq
  intro i hi
  simp only [BitVec.getLsbD_and, BitVec.getLsbD_or]
  cases servermessageMask.getLsbD i <;> simp

theorem servertokens_serverVersion {n : Nat} (h : n < 65536) :
    servertokens (serverVersion n) = n := by
  unfold servertokens serverVersion servermessageMask
  simp only [BitVec.toNat_and, BitVec.toNat_or, BitVec.toNat_ofNat]
  rw [Nat.mod_eq_of_lt (show n < 2 ^ 32 by omega),
    show (65536 : BitVec 32).toNat = 2 ^ 16 * 1 by decide, ← Nat.two_pow_add_eq_or_of_lt h 1,
    show (65535 : BitVec 32).toNat = 2 ^ 16 - 1 by decide, Nat.and_two_pow_sub_one_eq_mod]
  omega

/-! ## Writing a request -/

/-- `enum enum_program_type` -/
inductive ProgramType where
  | filesystem | server | httpd | ftpd | external | tcl | swig | clibrary
  | optionSensor | optionProperty
deriving DecidableEq, Repr

/-- The part of `Globals` that the protocol reads. -/
structure Globals where
  programType : ProgramType
  token : Token

/-- `server_type` in `WriteToServer`: the sender is itself an owserver. -/
def Globals.serverType (g : Globals) : Bool :=
  g.programType == .server || g.programType == .external

/-- `struct serverpackage` on the sending side. Strings are held without their NUL; a missing
value is a null pointer. -/
structure ServerPackage where
  path : Option Bytes
  data : Option Bytes
  datasize : Nat
  tokenstring : Bytes
  tokens : Nat

/-- The data block goes out when it is there and not empty. -/
def ServerPackage.dataBlock (sp : ServerPackage) : Bytes :=
  if 0 < sp.datasize then (sp.data.map (List.take sp.datasize)).getD [] else []

/-- The path goes out with its NUL ("though it isn't required post 2.9p3"). -/
def ServerPackage.pathBlock (sp : ServerPackage) : Bytes :=
  (sp.path.map (· ++ [0])).getD []

/-- Token count and token bytes that follow the payload. -/
def tokenBlock (g : Globals) (sp : ServerPackage) : Nat × Bytes :=
  if g.serverType then
    (sp.tokens + 1, sp.tokenstring.take (sp.tokens * 16) ++ g.token.uuid)
  else (0, [])

/-- `WriteToServer`: the bytes handed to `writev`, or the error code. -/
def writeToServer (g : Globals) (sm : ServerMsg) (sp : ServerPackage) : Except Int Bytes :=
  let payload := sp.pathBlock.length + sp.dataBlock.length
  let (tokens, tokenBytes) := tokenBlock g sp
  -- "Too long a list of tokens": the count would run into the server flag
  if tokens = 65536 then .error (-eloop)
  else
    let version := if g.serverType then serverVersion tokens else 0
    let header := { sm with version := version, payload := BitVec.ofNat 32 payload }
    .ok (header.hton ++ (sp.pathBlock ++ (sp.dataBlock ++ tokenBytes)))

/-! ## Requests -/

/-- The requests that the client calls (`ServerRead`, `ServerWrite`, `ServerDIR`, ...) build.
Only a write carries data, and its `size` field is the size of that data. -/
structure Request where
  type : BitVec 32
  controlFlags : BitVec 32
  size : BitVec 32
  offset : BitVec 32
  path : Bytes
  data : Bytes
  path_noNul : 0 ∉ path
  data_of_not_write : type ≠ MsgClassification.write.code → data = []
  size_of_write : type = MsgClassification.write.code → size = BitVec.ofNat 32 data.length

def Request.isWrite (r : Request) : Bool := r.type == MsgClassification.write.code

theorem Request.isWrite_iff {r : Request} :
    r.isWrite = true ↔ r.type = MsgClassification.write.code := by
  simp [Request.isWrite]

theorem Request.isWrite_eq_false_iff {r : Request} :
    r.isWrite = false ↔ r.type ≠ MsgClassification.write.code := by
  simp [Request.isWrite]

/-- The header fields the caller sets; `WriteToServer` fills in the rest. -/
def Request.serverMsg (r : Request) : ServerMsg where
  version := 0
  payload := 0
  type := r.type
  controlFlags := r.controlFlags
  size := r.size
  offset := r.offset

/-- The bytes of a token list. -/
def tokenBytes (toks : List Token) : Bytes := toks.flatMap Token.uuid

@[simp] theorem tokenBytes_cons (t : Token) (toks : List Token) :
    tokenBytes (t :: toks) = t.uuid ++ tokenBytes toks := rfl

@[simp] theorem tokenBytes_append (a b : List Token) :
    tokenBytes (a ++ b) = tokenBytes a ++ tokenBytes b := List.flatMap_append

@[simp] theorem length_tokenBytes (toks : List Token) :
    (tokenBytes toks).length = 16 * toks.length := by
  induction toks with
  | nil => rfl
  | cons t rest ih =>
    rw [tokenBytes_cons, List.length_append, t.length_uuid, ih, List.length_cons]
    omega

/-- The package of a call, with the token bytes and count that the request arrived with. -/
def Request.packageWith (r : Request) (tokenstring : Bytes) (tokens : Nat) : ServerPackage where
  path := some r.path
  data := if r.isWrite then some r.data else none
  datasize := r.data.length
  tokenstring := tokenstring
  tokens := tokens

def Request.serverPackage (r : Request) (prior : List Token) : ServerPackage :=
  r.packageWith (tokenBytes prior) prior.length

/-- The bytes of the path, with the trailing NUL or, as some clients send it, without. -/
def Request.pathField (r : Request) (nul : Bool) : Bytes := r.path ++ if nul then [0] else []

/-- The payload length announced in the header. -/
def Request.payloadLength (r : Request) (nul : Bool) : Nat :=
  (r.pathField nul).length + r.data.length

/-- The header of a request that carries `n` tokens. -/
def Request.header (r : Request) (nul : Bool) (n : Nat) : ServerMsg :=
  { r.serverMsg with
    version := serverVersion n
    payload := BitVec.ofNat 32 (r.payloadLength nul) }

@[simp] theorem Request.type_header (r : Request) (nul : Bool) (n : Nat) :
    (r.header nul n).type = r.type := rfl

/-- The message as it stands on the wire: header, path, data, tokens. -/
def Request.wire (r : Request) (nul : Bool) (toks : List Token) : Bytes :=
  (r.header nul toks.length).hton ++ (r.pathField nul ++ (r.data ++ tokenBytes toks))

theorem Request.dataBlock_serverPackage (r : Request) (prior : List Token) :
    (r.serverPackage prior).dataBlock = r.data := by
  unfold ServerPackage.dataBlock Request.serverPackage Request.packageWith Request.isWrite
  by_cases hw : r.type = MsgClassification.write.code
  · simp only [hw, beq_self_eq_true, if_true, Option.map_some, List.take_length,
      Option.getD_some]
    split
    · rfl
    · next h => exact (List.length_eq_zero_iff.mp (by omega)).symm
  · simp [r.data_of_not_write hw]

/-- **An owserver writes header, path with NUL, data, prior tokens and its own token.** -/
theorem writeToServer_eq_wire {g : Globals} (hg : g.serverType = true) (r : Request)
    (prior : List Token) (hn : prior.length + 1 ≠ 65536) :
    writeToServer g r.serverMsg (r.serverPackage prior) =
      .ok (r.wire true (prior ++ [g.token])) := by
  have htok : tokenBlock g (r.serverPackage prior) =
      (prior.length + 1, tokenBytes (prior ++ [g.token])) := by
    unfold tokenBlock
    rw [if_pos hg]
    simp only [Request.serverPackage, Request.packageWith, tokenBytes_append]
    rw [List.take_of_length_le (by simp; omega)]
    simp [tokenBytes]
  have hpath : (r.serverPackage prior).pathBlock = r.pathField true := rfl
  unfold writeToServer
  simp only [htok, hg, if_true, hpath, r.dataBlock_serverPackage prior]
  rw [if_neg hn]
  simp only [Request.wire, Request.header, Request.payloadLength, List.length_append,
    List.length_singleton]

end Owfs.Protocol
