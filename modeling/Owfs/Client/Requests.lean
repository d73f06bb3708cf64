import Owfs.Protocol.Message

/-!
# Requests to an owserver

The client side of the owserver protocol (`ow_server_message.c`): a request is written to a
connection, `From_Server` or `From_ServerAlloc` reads the response, and `Release_Persistent`
either closes the connection or leaves it for the next request.

A connection is what the server will send on it: bytes, and pauses that are longer than the
network timeout. Beside that it keeps the requests written to it and the bytes read from it;
nothing in the model looks at these two.

`FS_ParsedName_BackFromRemote` and what `Directory_Element` does with a parsed name are a
parameter. Log messages, statistics and the control flags that `ServerWrite` stores are left out,
and `malloc` succeeds.
-/

namespace Owfs.Client

open Infra Owfs.Protocol

/-! ## Connections -/

/-- What arrives on a connection. A list that has ended stands for a server that closed the
connection or sends nothing more. -/
inductive Arrival where
  | byte (b : Byte)
  | pause
  deriving DecidableEq

abbrev Stream := List Arrival

/-- The requests. A read names the size of its buffer. -/
inductive Kind where
  | read (size : Nat)
  | write
  | presence
  | dir
  | dirall
  deriving DecidableEq

structure Conn where
  requests : List Kind
  taken : Bytes
  coming : Stream
  deriving DecidableEq

/-- A new connection. -/
def Conn.fresh (s : Stream) : Conn := ⟨[], [], s⟩

/-- A request was written. -/
def Conn.send (conn : Conn) (kind : Kind) : Conn :=
  { conn with requests := conn.requests ++ [kind] }

/-- The bytes of a read of `n` bytes, and what arrives after them. A pause ends the read. -/
def takeBytes : Nat → Stream → Bytes × Stream
  | 0, s => ([], s)
  | _ + 1, [] => ([], [])
  | _ + 1, .pause :: s => ([], s)
  | n + 1, .byte b :: s => (b :: (takeBytes n s).1, (takeBytes n s).2)

/-- `tcp_read` -/
def Conn.tcpRead (conn : Conn) (n : Nat) : Bytes × Conn :=
  ((takeBytes n conn.coming).1,
    { conn with
      taken := conn.taken ++ (takeBytes n conn.coming).1
      coming := (takeBytes n conn.coming).2 })

/-! ## The header of a response -/

/-- `struct client_msg` -/
structure ClientMsg where
  version : BitVec 32
  payload : BitVec 32
  ret : BitVec 32
  controlFlags : BitVec 32
  size : BitVec 32
  offset : BitVec 32
  deriving DecidableEq

/-- The header in host order (`ntohl`). -/
def ClientMsg.ntoh (b : Bytes) : ClientMsg where
  version := ofBe32 b
  payload := ofBe32 (b.drop 4)
  ret := ofBe32 (b.drop 8)
  controlFlags := ofBe32 (b.drop 12)
  size := ofBe32 (b.drop 16)
  offset := ofBe32 (b.drop 20)

/-- The header with all fields zero but an error as the result. -/
def ClientMsg.failed : ClientMsg := ⟨0, 0, BitVec.ofInt 32 (-eio), 0, 0, 0⟩

/-- `PERSISTENT_MASK` -/
def persistentMask : BitVec 32 := 0x4

/-- The server lets the client keep the connection. -/
def ClientMsg.granted (cm : ClientMsg) : Bool := cm.controlFlags &&& persistentMask != 0

/-- The loops at the start of `From_Server` and `From_ServerAlloc`: a header with a negative
payload only says that the server is still busy. -/
def nextHeader : Nat → Conn → Option ClientMsg × Conn
  | 0, conn => (none, conn)
  | fuel + 1, conn =>
    let (d, conn) := conn.tcpRead headerSize
    if d.length ≠ headerSize then (none, conn)
    else if (ClientMsg.ntoh d).payload.toInt < 0 then nextHeader fuel conn
    else (some (ClientMsg.ntoh d), conn)

/-! ## The file descriptor -/

/-- `pown->file_descriptor`: `FILE_DESCRIPTOR_BAD`, `FILE_DESCRIPTOR_PERSISTENT_IN_USE`, or a
connection that waits for the next request. -/
inductive PortIn where
  | bad
  | inUse
  | idle (conn : Conn)
  deriving DecidableEq

/-- `struct server_connection_state`, with the port that it points to. -/
structure ServerConnectionState where
  fileDescriptor : Option Conn
  persistence : Bool
  pown : PortIn

/-- `Close_Persistent` -/
def closePersistent (scs : ServerConnectionState) : ServerConnectionState where
  fileDescriptor := none
  persistence := false
  pown := if scs.persistence then .bad else scs.pown

/-- `Release_Persistent`, and the port after it. -/
def releasePersistent (scs : ServerConnectionState) (granted : Bool) : PortIn :=
  if granted = false then (closePersistent scs).pown
  else
    match scs.fileDescriptor with
    | none => (closePersistent scs).pown
    | some conn => if scs.persistence = false then (closePersistent scs).pown else .idle conn

/-- What the system answers during one request: the connections that `ClientConnect` makes, when
it is called first, after a connection was found closed and after a failed write; whether the test
read finds the connection closed; and whether the writes succeed. -/
structure System where
  connect : Option Stream
  reconnect : Option Stream
  retry : Option Stream
  closed : Bool
  written : Bool
  rewritten : Bool

/-- The start of `To_Server`: the file descriptor is set up. -/
def setUp (noPersistence : Bool) (sys : System) (pown : PortIn) : ServerConnectionState :=
  if noPersistence then ⟨sys.connect.map .fresh, false, pown⟩
  else
    match pown with
    | .inUse => ⟨sys.connect.map .fresh, false, .inUse⟩
    | .bad =>
      match sys.connect with
      | some s => ⟨some (.fresh s), true, .inUse⟩
      | none => ⟨none, true, .bad⟩
    | .idle conn => ⟨some conn, true, .inUse⟩

/-- `To_Server` then tests whether the server closed the connection, and reconnects. -/
def reconnectClosed (sys : System) (scs : ServerConnectionState) : ServerConnectionState :=
  if scs.fileDescriptor = none ∨ sys.closed = true then
    match sys.reconnect with
    | some s => { closePersistent scs with fileDescriptor := some (.fresh s), pown := .inUse }
    | none => closePersistent scs
  else scs

/-- `To_Server` -/
def toServer (noPersistence : Bool) (sys : System) (kind : Kind) (pown : PortIn) :
    Bool × ServerConnectionState :=
  let scs := reconnectClosed sys (setUp noPersistence sys pown)
  match scs.fileDescriptor with
  | none => (false, closePersistent scs)
  | some conn =>
    if sys.written then (true, { scs with fileDescriptor := some (conn.send kind) })
    else if scs.persistence = false then (false, closePersistent scs)
    else
      match sys.retry with
      | none => (false, closePersistent scs)
      | some s =>
        if sys.rewritten then
          (true, { scs with fileDescriptor := some ((Conn.fresh s).send kind) })
        else (false, closePersistent scs)

/-! ## Responses -/

/-- `From_Server`, on the connection `conn` of `scs`. -/
def fromServer (scs : ServerConnectionState) (conn : Conn) (size : Nat) :
    Int × ClientMsg × Bytes × ServerConnectionState :=
  match nextHeader (conn.coming.length + 1) conn with
  | (none, conn) => (-eio, .failed, [], { scs with fileDescriptor := some conn })
  | (some cm, conn) =>
    if cm.payload = 0 then (0, cm, [], { scs with fileDescriptor := some conn })
    else
      let rtry := min cm.payload.toInt.toNat size
      let (msg, conn) := conn.tcpRead rtry
      let scs := { scs with fileDescriptor := some conn }
      if msg.length ≠ rtry then (-eio, { cm with ret := BitVec.ofInt 32 (-eio) }, msg, scs)
      else if size < cm.payload.toInt.toNat then (size, cm, msg, closePersistent scs)
      else (cm.payload.toInt, cm, msg, scs)

/-- `From_ServerAlloc` -/
def fromServerAlloc (conn : Conn) : Option Bytes × ClientMsg × Conn :=
  match nextHeader (conn.coming.length + 1) conn with
  | (none, conn) => (none, .failed, conn)
  | (some cm, conn) =>
    if cm.payload = 0 then (none, cm, conn)
    else if cm.ret.toInt < 0 then (none, cm, conn)
    else if maxPayloadSize < cm.payload.toInt.toNat then (none, cm, conn)
    else
      let (msg, conn) := conn.tcpRead cm.payload.toInt.toNat
      if msg.length ≠ cm.payload.toInt.toNat then
        (none, { cm with payload := 0, offset := 0, ret := BitVec.ofInt 32 (-eio) }, conn)
      else (some msg, cm, conn)

/-- What a caller gets, and the port after the request. -/
structure Outcome where
  ret : Int
  data : Bytes
  pown : PortIn

/-- `ServerRead`, for a file that is not answered from the local alias list. -/
def serverRead (noPersistence : Bool) (sys : System) (size : Nat) (pown : PortIn) : Outcome :=
  match toServer noPersistence sys (.read size) pown with
  | (true, ⟨some conn, persistence, pown⟩) =>
    match fromServer ⟨some conn, persistence, pown⟩ conn size with
    | (got, cm, msg, scs) =>
      if got < 0 then ⟨-eio, msg, releasePersistent scs false⟩
      else ⟨cm.ret.toInt, msg, releasePersistent scs cm.granted⟩
  | (_, scs) => ⟨-eio, [], releasePersistent scs false⟩

/-- `ServerWrite` -/
def serverWrite (noPersistence : Bool) (sys : System) (pown : PortIn) : Outcome :=
  match toServer noPersistence sys .write pown with
  | (true, ⟨some conn, persistence, pown⟩) =>
    match fromServer ⟨some conn, persistence, pown⟩ conn 0 with
    | (got, cm, _, scs) =>
      if got < 0 then ⟨-eio, [], releasePersistent scs false⟩
      else ⟨cm.ret.toInt, [], releasePersistent scs cm.granted⟩
  | (_, scs) => ⟨-eio, [], releasePersistent scs false⟩

/-- `ServerPresence`; `index` is that of the connection. The data is the serial number, if the
server sent one. -/
def serverPresence (noPersistence : Bool) (index : Int) (sys : System) (pown : PortIn) : Outcome :=
  match toServer noPersistence sys .presence pown with
  | (true, ⟨some conn, persistence, pown⟩) =>
    match fromServerAlloc conn with
    | (serialNumber, cm, conn) =>
      let scs : ServerConnectionState := ⟨some conn, persistence, pown⟩
      if cm.ret.toInt < 0 then ⟨indexBad, [], releasePersistent scs false⟩
      else ⟨if cm.ret.toInt ≠ indexBad then index else indexBad, serialNumber.getD [],
        releasePersistent scs cm.granted⟩
  | (_, scs) => ⟨indexBad, [], releasePersistent scs false⟩

/-- The loop of `ServerDIR`, with the answer of `Directory_Element` to each path. -/
def dirLoop (element : Bytes → Int) : Nat → Conn → ClientMsg × Conn
  | 0, conn => (.failed, conn)
  | fuel + 1, conn =>
    match fromServerAlloc conn with
    | (none, cm, conn) => (cm, conn)
    | (some returnPath, cm, conn) =>
      let ret := element (returnPath.dropLast ++ [0])
      if ret ≠ 0 then ({ cm with ret := BitVec.ofInt 32 ret }, conn)
      else dirLoop element fuel conn

/-- `ServerDIR` -/
def serverDIR (noPersistence : Bool) (element : Bytes → Int) (sys : System) (pown : PortIn) :
    Outcome :=
  match toServer noPersistence sys .dir pown with
  | (true, ⟨some conn, persistence, pown⟩) =>
    match dirLoop element (conn.coming.length + 1) conn with
    | (cm, conn) =>
      ⟨cm.ret.toInt, [], releasePersistent ⟨some conn, persistence, pown⟩ cm.granted⟩
  | (_, scs) => ⟨-eio, [], releasePersistent scs false⟩

/-- The elements of a list, as `strsep` cuts it at the commas. -/
def commaSeparated (list : Bytes) : List Bytes := list.splitOn 0x2C

/-- The elements of the list of `ServerDIRALL`. It is a C string, so it ends at the first NUL, and
`strsep` finds nothing where there is no list. -/
def listElements (commaSeparatedList : Option Bytes) : List Bytes :=
  commaSeparatedList.elim [] fun l => commaSeparated (l.takeWhile (· ≠ 0))

/-- `ServerDIRALL` -/
def serverDIRALL (noPersistence : Bool) (element : Bytes → Int) (sys : System) (pown : PortIn) :
    Outcome :=
  match toServer noPersistence sys .dirall pown with
  | (true, ⟨some conn, persistence, pown⟩) =>
    match fromServerAlloc conn with
    | (list, cm, conn) =>
      let ret :=
        if cm.ret = 0 then (((listElements list).map element).find? (· ≠ 0)).getD 0
        else cm.ret.toInt
      ⟨ret, list.getD [], releasePersistent ⟨some conn, persistence, pown⟩ cm.granted⟩
  | (_, scs) => ⟨-eio, [], releasePersistent scs false⟩

/-- A request of any kind. -/
def serverCall (noPersistence : Bool) (index : Int) (element : Bytes → Int) (kind : Kind)
    (sys : System) (pown : PortIn) : Outcome :=
  match kind with
  | .read size => serverRead noPersistence sys size pown
  | .write => serverWrite noPersistence sys pown
  | .presence => serverPresence noPersistence index sys pown
  | .dir => serverDIR noPersistence element sys pown
  | .dirall => serverDIRALL noPersistence element sys pown

end Owfs.Client
