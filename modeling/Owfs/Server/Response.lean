import Owfs.Protocol.FromClient
import Owfs.Client.Boundary
import Owfs.Directory.Blob

/-!
# The response of owserver

`DataHandler` (`data.c`) answers one request: it fills a `struct client_msg`, may leave a buffer,
and hands both to `ToClient`, which sends the header and, when the payload says so, the buffer.

What owlib answers to the calls made on the way (`OWQ_create`, `FS_read_postparse`,
`FS_write_postparse`, `FS_dir_remote`) is a parameter, and so is what memory allocation and
`strdup` return. `FS_write_postparse` leaves the control flags of the parsed name alone.
-/

namespace Owfs.Server

open Infra Owfs.Protocol Owfs.Client Owfs.Device Owfs.Directory

/-! ## Messages to the client -/

/-- A header with the payload that it announces. -/
structure Message where
  cm : ClientMsg
  data : Bytes
  complete : data.length = cm.payload.toInt.toNat

/-- The bytes of a message. -/
def Message.bytes (m : Message) : Bytes := m.cm.hton ++ m.data

/-- `n` bytes of memory from the start of a block; behind the block stands something. -/
def memory (beyond : Nat → Byte) (block : Bytes) (n : Nat) : Bytes :=
  (List.range n).map fun i => block.getD i (beyond i)

/-- `ToClient`: the bytes handed to `writev`. -/
def toClient (beyond : Nat → Byte) (cm : ClientMsg) (data : Option Bytes) : Bytes :=
  cm.hton ++
    if cm.payload.toInt < 0 then []
    else if cm.payload = 0 then []
    else
      match data with
      | none => []
      | some block => memory beyond block cm.payload.toInt.toNat

/-- `ping_cm` -/
def pingCm : ClientMsg := ⟨0, BitVec.ofInt 32 (-1), 0, 0, 0, 0⟩

/-- `PingClient` -/
def pingClient (beyond : Nat → Byte) : Bytes := toClient beyond pingCm none

/-- `ErrorToClient` -/
def errorToClient (beyond : Nat → Byte) (cm : ClientMsg) : Bytes :=
  toClient beyond { cm with payload := 0, size := 0, offset := 0 } none

/-! ## What the library answers -/

/-- An element of a directory: the path of its parsed name, a string in a `char[2*PATH_MAX+2]`, and
`IsDir`. -/
structure Entry where
  path : Bytes
  isDir : Bool
  noNul : 0 ∉ path
  inBuffer : path.length < 2 * 4096 + 2
deriving DecidableEq

/-- `FS_dir_remote`: its return value, the flags, and the elements it called back with. -/
structure Listing where
  ret : Int
  flags : BitVec 32
  entries : List Entry

/-- What owlib and the allocator answer during one request. -/
structure Library where
  /-- `OWQ_create` succeeds. -/
  owqCreate : Bool
  sn : SerialNumber
  isDir : Bool
  owmalloc : Nat → Bool
  owrealloc : Nat → Bool
  owstrdup : Bytes → Option Bytes
  /-- `OWQ_allocate_read_buffer`, and the size of the buffer. -/
  readBuffer : Option Nat
  /-- `FS_read_postparse` for a size and an offset, and the buffer after it. -/
  fsReadPostparse : Nat → BitVec 32 → Int × Bytes
  fsWritePostparse : Int
  fsDirRemote : Listing

/-- The globals that `DataHandler` reads. -/
structure Settings where
  noDirall : Bool := false
  noGet : Bool := false

/-! ## The handlers -/

section

variable (lib : Library) (hd : HandlerData)

/-- A header and a buffer: what a handler leaves. -/
abbrev Reply := ClientMsg × Option Bytes

/-- The result of a call, as a word. -/
def ret32 (n : Int) : BitVec 32 := BitVec.ofInt 32 n

/-- `msg_presence` -/
def presenceHandler (cm : ClientMsg) : Reply :=
  if lib.owmalloc 8 then ({ cm with size := 0, payload := 8, ret := 0 }, some lib.sn.bytes)
  else ({ cm with size := 0, payload := 0, ret := 0 }, none)

/-- `ReadHandler` -/
def readHandler (cm : ClientMsg) : Reply :=
  if hd.sm.payload.toInt ≥ pathMax then ({ cm with ret := ret32 (-emsgsize) }, none)
  else if hd.sm.size.toInt ≤ 0 ∨ hd.sm.size.toInt > maxPayloadSize then
    ({ cm with ret := ret32 (-emsgsize) }, none)
  else
    match lib.readBuffer with
    | none => ({ cm with ret := ret32 (-enobufs) }, none)
    | some size =>
      match lib.fsReadPostparse (min size hd.sm.size.toInt.toNat) hd.sm.offset with
      | (n, buffer) =>
        if (ret32 n).toInt ≤ 0 then ({ cm with ret := ret32 n }, none)
        else
          ({ cm with
              payload := ret32 n
              offset := hd.sm.offset
              size := ret32 n
              ret := ret32 n }, some buffer)

/-- `WriteHandler`, with the test of the data size before it. -/
def writeHandler (persistent : Bool) (cm : ClientMsg) : ClientMsg :=
  if (BitVec.ofNat 32 hd.sp.datasize).toInt < hd.sm.size.toInt then
    { cm with ret := ret32 (-emsgsize) }
  else if lib.fsWritePostparse < 0 then { cm with size := 0, ret := ret32 lib.fsWritePostparse }
  else
    { cm with
      size := ret32 lib.fsWritePostparse
      ret := 0
      controlFlags :=
        if persistent then hd.sm.controlFlags ||| persistentMask else hd.sm.controlFlags }

/-- `DirHandlerCallback`: the header of a directory element. -/
def dirElement (path : Bytes) (cm : ClientMsg) : ClientMsg :=
  { cm with size := BitVec.ofNat 32 path.length, payload := BitVec.ofNat 32 path.length + 1, ret :=
    0 }

/-- The path of a request is not too long for a directory. -/
def pathFits : Bool := decide (hd.sm.payload.toInt < pathMax)

/-- `DirHandler`, after its callbacks. -/
def dirHandler (cm : ClientMsg) : ClientMsg :=
  { cm with
    ret := if pathFits hd then ret32 lib.fsDirRemote.ret else ret32 (-emsgsize)
    offset := if pathFits hd then lib.fsDirRemote.flags else 0
    payload := 0
    size := 0 }

/-- The end of `DirallHandler` and `DirallslashHandler`: the reply for the names collected in
`cb`. -/
def dirallReply (cb : Charblob) (cm : ClientMsg) : Reply :=
  let ret := if pathFits hd then ret32 lib.fsDirRemote.ret else ret32 (-emsgsize)
  let cm := { cm with ret := ret, offset := if pathFits hd then lib.fsDirRemote.flags else 0 }
  if ret.toInt < 0 then ({ cm with size := 0, payload := 0 }, none)
  else
    match charblobData cb with
    | none => ({ cm with size := 0, payload := 0 }, none)
    | some block =>
      match lib.owstrdup block with
      | some copy =>
        ({ cm with
            payload := BitVec.ofNat 32 (charblobLength cb + 1)
            size := BitVec.ofNat 32 (charblobLength cb) }, some copy)
      | none => ({ cm with ret := ret32 (-enomem), size := 0, payload := 0 }, none)

/-- `DirallHandlerCallback` -/
def dirallCallback (cb : Charblob) (entry : Entry) : Charblob :=
  charblobAdd lib.owrealloc entry.path cb

/-- `DirallslashHandlerCallback` -/
def dirallslashCallback (cb : Charblob) (entry : Entry) : Charblob :=
  let cb := charblobAdd lib.owrealloc entry.path cb
  if entry.isDir then charblobAddChar lib.owrealloc 0x2F cb else cb

/-- The names collected by a callback. -/
def collected (callback : Charblob → Entry → Charblob) : Charblob :=
  if pathFits hd then lib.fsDirRemote.entries.foldl callback charblobInit else charblobInit

/-- `DirallHandler` -/
def dirallHandler (cm : ClientMsg) : Reply :=
  dirallReply lib hd (collected lib hd (dirallCallback lib)) cm

/-- `DirallslashHandler` -/
def dirallslashHandler (cm : ClientMsg) : Reply :=
  dirallReply lib hd (collected lib hd (dirallslashCallback lib)) cm

/-- The type of a request, after "special testing mode to exclude certain messages". -/
def messageType (settings : Settings) : BitVec 32 :=
  let dirall :=
    hd.sm.type = MsgClassification.dirall.code ∨ hd.sm.type = MsgClassification.dirallslash.code
  let get := hd.sm.type = MsgClassification.get.code ∨ hd.sm.type = MsgClassification.getslash.code
  if dirall ∧ settings.noDirall ∨ get ∧ settings.noGet then MsgClassification.error.code
    else hd.sm.type

/-- The messages that name a path. -/
def pathMessages : List MsgClassification :=
  [.read, .write, .dir, .presence, .dirall, .dirallslash, .get, .getslash]

/-- The header at the start of `DataHandler`. -/
def startCm : ClientMsg := ⟨0, 0, 0, hd.sm.controlFlags, 0, 0⟩

/-- The request is parsed and passed to a handler. -/
def parsed (type : BitVec 32) : Bool :=
  decide (type ∈ pathMessages.map MsgClassification.code) && decide (hd.sm.payload ≠ 0) &&
    lib.owqCreate

/-- The inner switch of `DataHandler`. -/
def innerSwitch (persistent : Bool) (type : BitVec 32) (cm : ClientMsg) : Reply :=
  if type = MsgClassification.presence.code then presenceHandler lib cm
  else if type = MsgClassification.read.code then readHandler lib hd cm
  else if type = MsgClassification.write.code then (writeHandler lib hd persistent cm, none)
  else if type = MsgClassification.dir.code then (dirHandler lib hd cm, none)
  else if type = MsgClassification.dirall.code then dirallHandler lib hd cm
  else if type = MsgClassification.dirallslash.code then dirallslashHandler lib hd cm
  else if type = MsgClassification.get.code then
    if lib.isDir then dirallHandler lib hd cm else readHandler lib hd cm
  else if lib.isDir then dirallslashHandler lib hd cm
  else readHandler lib hd cm

/-- `DataHandler`, up to the point where it sends its response. -/
def dataHandler (settings : Settings) (persistent : Bool) : Reply :=
  let cm := startCm hd
  let type := messageType hd settings
  if type ∈ pathMessages.map MsgClassification.code then
    if hd.sm.payload = 0 then ({ cm with ret := ret32 (-ebadmsg) }, none)
    else if lib.owqCreate = false then ({ cm with ret := ret32 (-1) }, none)
    else innerSwitch lib hd persistent type { cm with ret := 0 }
  else if type = MsgClassification.nop.code then ({ cm with ret := 0 }, none)
  else ({ cm with ret := ret32 (-enomsg) }, none)

/-- The bytes of the response. -/
def response (beyond : Nat → Byte) (settings : Settings) (persistent : Bool) : Bytes :=
  match dataHandler lib hd settings persistent with
  | (cm, retbuffer) =>
    if cm.ret ≠ ret32 (-eio) then toClient beyond cm retbuffer else errorToClient beyond cm

/-- The request is listed one message at a time. -/
def listed (settings : Settings) : Bool :=
  parsed lib hd (messageType hd settings) &&
    decide (messageType hd settings = MsgClassification.dir.code) && pathFits hd

end

/-! ## Responses are complete -/

@[simp] theorem length_memory (beyond : Nat → Byte) (block : Bytes) (n : Nat) :
    (memory beyond block n).length = n := by
  rw [memory, List.length_map, List.length_range]

/-- A buffer that is long enough is sent from its start. -/
theorem memory_of_le {block : Bytes} {n : Nat} (beyond : Nat → Byte) (h : n ≤ block.length) :
    memory beyond block n = block.take n := by
  apply List.ext_getElem
  · rw [length_memory, List.length_take]
    omega
  · intro i hi hi'
    rw [List.length_take] at hi'
    simp [memory, show i < block.length by omega]

/-- A reply that announces a payload has a buffer. -/
def Buffered (r : Reply) : Prop := 0 < r.1.payload.toInt → r.2 ≠ none

/-- `ToClient` sends a complete message. -/
theorem exists_message {cm : ClientMsg} {data : Option Bytes} (beyond : Nat → Byte)
    (h : Buffered (cm, data)) : ∃ m : Message, m.cm = cm ∧ toClient beyond cm data = m.bytes := by
  unfold toClient
  split
  · rename_i hneg
    exact ⟨⟨cm, [], by rw [Int.toNat_of_nonpos (by omega)]; rfl⟩, rfl, rfl⟩
  split
  · rename_i hzero
    exact ⟨⟨cm, [], by rw [hzero]; rfl⟩, rfl, rfl⟩
  rename_i hneg hzero
  have hpos : 0 < cm.payload.toInt := by
    have hne : cm.payload.toInt ≠ 0 := fun h0 => hzero (BitVec.eq_of_toInt_eq h0)
    omega
  cases data with
  | none => exact absurd rfl (h hpos)
  | some block => exact ⟨⟨cm, memory beyond block cm.payload.toInt.toNat, length_memory ..⟩, rfl,
      rfl⟩

section

variable {lib : Library} {hd : HandlerData} {cm : ClientMsg}

theorem buffered_of_payload_eq_zero {data : Option Bytes} (h : cm.payload = 0) :
    Buffered (cm, data) := by
  intro hpos
  rw [show (cm, data).1.payload = 0 from h] at hpos
  cases hpos

theorem buffered_some (cm : ClientMsg) (block : Bytes) : Buffered (cm, some block) :=
  fun _ => Option.some_ne_none block

theorem buffered_presenceHandler (cm : ClientMsg) : Buffered (presenceHandler lib cm) := by
  unfold presenceHandler
  split
  · exact buffered_some _ _
  · exact buffered_of_payload_eq_zero rfl

theorem buffered_readHandler (h : cm.payload = 0) : Buffered (readHandler lib hd cm) := by
  unfold readHandler
  split
  · exact buffered_of_payload_eq_zero h
  split
  · exact buffered_of_payload_eq_zero h
  split
  · exact buffered_of_payload_eq_zero h
  dsimp only
  split
  · exact buffered_of_payload_eq_zero h
  · exact buffered_some _ _

theorem buffered_dirallReply (cb : Charblob) (cm : ClientMsg) :
    Buffered (dirallReply lib hd cb cm) := by
  unfold dirallReply
  generalize (if pathFits hd then ret32 lib.fsDirRemote.ret else ret32 (-emsgsize)) = ret
  generalize (if pathFits hd then lib.fsDirRemote.flags else 0) = flags
  dsimp only
  split
  · exact buffered_of_payload_eq_zero rfl
  split
  · exact buffered_of_payload_eq_zero rfl
  split
  · exact buffered_some _ _
  · exact buffered_of_payload_eq_zero rfl

theorem payload_writeHandler (persistent : Bool) (cm : ClientMsg) :
    (writeHandler lib hd persistent cm).payload = cm.payload := by
  unfold writeHandler
  split
  · rfl
  split
  · rfl
  · rfl

theorem buffered_innerSwitch (persistent : Bool) (type : BitVec 32) (h : cm.payload = 0) :
    Buffered (innerSwitch lib hd persistent type cm) := by
  unfold innerSwitch
  split
  · exact buffered_presenceHandler cm
  split
  · exact buffered_readHandler h
  split
  · exact buffered_of_payload_eq_zero ((payload_writeHandler persistent cm).trans h)
  split
  · exact buffered_of_payload_eq_zero rfl
  split
  · exact buffered_dirallReply _ cm
  split
  · exact buffered_dirallReply _ cm
  split
  · split
    · exact buffered_dirallReply _ cm
    · exact buffered_readHandler h
  split
  · exact buffered_dirallReply _ cm
  · exact buffered_readHandler h

/-- **A reply that announces a payload has a buffer to send it from.** -/
theorem buffered_dataHandler (settings : Settings) (persistent : Bool) :
    Buffered (dataHandler lib hd settings persistent) := by
  unfold dataHandler
  dsimp only
  split
  · split
    · exact buffered_of_payload_eq_zero rfl
    split
    · exact buffered_of_payload_eq_zero rfl
    · exact buffered_innerSwitch _ _ rfl
  split
  · exact buffered_of_payload_eq_zero rfl
  · exact buffered_of_payload_eq_zero rfl

/-- **Every response is one complete message,** with the control flags that `DataHandler` left. -/
theorem exists_response (lib : Library) (hd : HandlerData) (beyond : Nat → Byte)
    (settings : Settings) (persistent : Bool) :
    ∃ m : Message, m.cm.controlFlags = (dataHandler lib hd settings persistent).1.controlFlags ∧
      response lib hd beyond settings persistent = m.bytes := by
  have hbuf : Buffered (dataHandler lib hd settings persistent) :=
    buffered_dataHandler settings persistent
  unfold response
  generalize dataHandler lib hd settings persistent = reply at hbuf ⊢
  obtain ⟨cm, retbuffer⟩ := reply
  dsimp only
  split
  · obtain ⟨m, hcm, hm⟩ := exists_message beyond hbuf
    exact ⟨m, by rw [hcm], hm⟩
  · have herr : Buffered ({ cm with payload := 0, size := 0, offset := 0 }, none) :=
      buffered_of_payload_eq_zero rfl
    obtain ⟨m, hcm, hm⟩ := exists_message beyond herr
    exact ⟨m, by rw [hcm], hm⟩

end

/-- A library with room for everything and nothing to show. -/
def sampleLibrary : Library where
  owqCreate := true
  sn := .zero
  isDir := false
  owmalloc := fun _ => true
  owrealloc := fun _ => true
  owstrdup := fun block => some (block.takeWhile (· ≠ 0) ++ [0])
  readBuffer := some 12
  fsReadPostparse := fun _ _ => (0, [])
  fsWritePostparse := 0
  fsDirRemote := ⟨0, 0, []⟩

/-- A NOP. -/
def sampleRequest (controlFlags : BitVec 32) : HandlerData :=
  ⟨⟨0, 0, MsgClassification.nop.code, controlFlags, 0, 0⟩, {}, []⟩

end Owfs.Server
