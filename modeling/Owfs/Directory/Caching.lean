import Owfs.Search.Bus
import Owfs.Client.Received
import Owfs.Server.Listing

/-!
# Which listings are cached

`FS_realdir` collects the serial numbers that a search finds in a `dirblob` and hands the blob to
`Cache_Add_Dir` at the end; `ServerDIR` and `ServerDIRALL` do so with the elements that an owserver
sends. A blob that was poisoned is not handed over.

A search tells how it ended, and `FS_realdir` looks at that. `ServerDIR` does not: its loop is over
when `From_ServerAlloc` has no path, and this is so behind the last element as well as after an
error. `ServerDIRALL` looks at the result in the header, which may be good although the payload
was refused. Both poison the blob after an element for which the parser has a negative code ("don't
cache a mistake"), but its codes for a path that cannot be parsed are 27 and 77.

The flags of the devices, `Cache_Add_Device` and the callback are left out, and `malloc` succeeds.
-/

namespace Owfs.Directory

open Infra Owfs.Device Owfs.Search Owfs.Protocol Owfs.Client Owfs.Server

/-! ## Blobs -/

/-- `DirblobPoison` -/
def dirblobPoison (db : Dirblob) : Dirblob := { db with troubled := true }

@[simp] theorem troubled_dirblobPoison (db : Dirblob) : (dirblobPoison db).troubled = true := rfl

@[simp] theorem troubled_add (sn : SerialNumber) (db : Dirblob) :
    (db.add sn).troubled = db.troubled := by
  unfold Dirblob.add
  split
  · rfl
  · rfl

theorem snlist_add {sn : SerialNumber} {db : Dirblob} (h : db.troubled = false) :
    (db.add sn).snlist = db.snlist ++ [sn] := by
  unfold Dirblob.add
  rw [if_neg (by rw [h]; decide)]

/-- How a listing ends: what is returned, and the blob of the call of `Cache_Add_Dir`, if there
was one. -/
structure Listed where
  ret : Int
  added : Option Dirblob

/-- Every list that is cached is `Complete`. -/
def OnlyComplete (added : Option Dirblob) (Complete : List SerialNumber → Prop) : Prop :=
  ∀ db, added = some db → Complete db.snlist

theorem onlyComplete_none (Complete : List SerialNumber → Prop) : OnlyComplete none Complete :=
  fun _ h => nomatch h

/-! ## Directories -/

/-- What the listings read of the `parsedname` of the directory. -/
structure WholeDirectory where
  isRealDir : Bool
  isAlarmDir : Bool
  specifiedLocalBus : Bool
  specifiedRemoteBus : Bool
  /-- `selected_device` is not `NO_DEVICE` -/
  selectedDevice : Bool
  rootNotBranch : Bool
  /-- `last_root_devs` of the selected connection -/
  lastRootDevs : Nat
  /-- the number of the selected connection -/
  index : Int
deriving DecidableEq

/-- The condition of `Directory_Element_Init`. -/
def WholeDirectory.cacheable (pn : WholeDirectory) : Bool :=
  pn.isRealDir && !pn.isAlarmDir && !(pn.specifiedLocalBus || pn.specifiedRemoteBus) &&
    !pn.selectedDevice

/-- A fresh blob, with the "root dir estimated length". -/
def WholeDirectory.freshBlob (pn : WholeDirectory) : Dirblob :=
  { allocated := if pn.rootNotBranch then pn.lastRootDevs else 0 }

/-! ## Elements from an owserver -/

section

variable (parsedName : Bytes → Int × SerialNumber) (pn : WholeDirectory)

/-- `Directory_Element_Init` -/
def directoryElementInit : Dirblob :=
  if pn.cacheable then pn.freshBlob else dirblobPoison {}

/-- The path that `Directory_Element` parses: "Specified remote bus, add the bus to the path (in
front)", as far as the buffer goes. -/
def elementPath (currentFile : Bytes) : Bytes :=
  if pn.specifiedRemoteBus then
    (ascii ("/bus." ++ toString pn.index ++ "/") ++
      (if currentFile.head? = some (chr '/') then currentFile.tail else currentFile)).take
      (currentFile.length + 10)
  else currentFile

/-- The result of `FS_ParsedName_BackFromRemote` on an element, and the serial number. -/
def parseElement (currentFile : Bytes) : Int × SerialNumber :=
  parsedName (elementPath pn currentFile)

/-- `Directory_Element` -/
def directoryElement (currentFile : Bytes) (db : Dirblob) : Int × Dirblob :=
  match parseElement parsedName pn currentFile with
  | (ret, sn) =>
    if ret < 0 then (ret, dirblobPoison db)
    else (0, if db.troubled then db else db.add sn)

/-- `Directory_Element_Finish`: the blob that is added to the cache. -/
def directoryElementFinish (db : Dirblob) : Option Dirblob := if db.troubled then none else some db

/-- The loop of `ServerDIR`, with the blob. -/
def serverDIRLoop : Nat → Conn → Dirblob → ClientMsg × Conn × Dirblob
  | 0, conn, db => (.failed, conn, db)
  | fuel + 1, conn, db =>
    match fromServerAlloc conn with
    | (none, cm, conn) => (cm, conn, db)
    | (some returnPath, cm, conn) =>
      match directoryElement parsedName pn (elementOf returnPath) db with
      | (ret, db) =>
        if ret ≠ 0 then ({ cm with ret := BitVec.ofInt 32 ret }, conn, db)
        else serverDIRLoop fuel conn db

/-- `ServerDIR`, on the connection that `To_Server` leaves. -/
def serverDIR : Option Conn → Listed
  | none => ⟨-eio, none⟩
  | some conn =>
    match serverDIRLoop parsedName pn (conn.coming.length + 1) conn (directoryElementInit pn) with
    | (cm, _, db) => ⟨cm.ret.toInt, directoryElementFinish db⟩

/-- The loop of `ServerDIRALL` over the elements of the list. -/
def serverDIRALLLoop : List Bytes → Dirblob → Int × Dirblob
  | [], db => (0, db)
  | currentFile :: rest, db =>
    match directoryElement parsedName pn currentFile db with
    | (ret, db) => if ret ≠ 0 then (ret, db) else serverDIRALLLoop rest db

/-- `ServerDIRALL`, on the connection that `To_Server` leaves. -/
def serverDIRALL : Option Conn → Listed
  | none => ⟨-eio, none⟩
  | some conn =>
    match fromServerAlloc conn with
    | (list, cm, _) =>
      if cm.ret = 0 then
        match serverDIRALLLoop parsedName pn (listElements list) (directoryElementInit pn) with
        | (ret, db) => ⟨ret, directoryElementFinish db⟩
      else ⟨cm.ret.toInt, none⟩

/-- `ServerDir`. A DIRALL that the server does not know is followed by a DIR, on a connection of
its own. -/
def serverDir (noDirall : Bool) (dir dirall : Option Conn) : Listed :=
  if noDirall then serverDIR parsedName pn dir
  -- "device directories have lower latency with DIR"
  else if pn.isRealDir || pn.isAlarmDir then serverDIR parsedName pn dir
  else if (serverDIRALL parsedName pn dirall).ret = -enomsg then serverDIR parsedName pn dir
  else serverDIRALL parsedName pn dirall

/-! ## Searches -/

/-- The bus of a directory. -/
inductive Bus where
  /-- an owserver, with the connections for a DIR and a DIRALL -/
  | server (noDirall : Bool) (dir dirall : Option Conn)
  /-- "not real bus masters (like usb-monitor and w1-monitor)" -/
  | sham
  /-- a bus master: what `BUS_first` (the call 0) and `BUS_next` find, and the result of
  `FS_dir_plus` -/
  | master (search : Nat → SearchStatus × SerialNumber) (dirPlus : SerialNumber → Int)

/-- The loop of `FS_realdir`; `none` when the search goes on for more than `fuel` calls. -/
def realdirLoop (search : Nat → SearchStatus × SerialNumber) (dirPlus : SerialNumber → Int) :
    Nat → Nat → Dirblob → Option (SearchStatus × Dirblob)
  | 0, _, _ => none
  | fuel + 1, call, db =>
    match search call with
    | (.good, sn) =>
      if dirPlus sn ≠ 0 then some (.good, dirblobPoison db)
      else realdirLoop search dirPlus fuel (call + 1) (db.add sn)
    | (status, _) => some (status, db)

/-- `FS_realdir` -/
def fsRealdir (fuel : Nat) : Bus → Option Listed
  | .server noDirall dir dirall => some (serverDir parsedName pn noDirall dir dirall)
  | .sham => some ⟨0, none⟩
  | .master search dirPlus =>
    match realdirLoop search dirPlus fuel 0 pn.freshBlob with
    | none => none
    | some (.done, db) => some ⟨0, if db.troubled then none else some db⟩
    | some (_, _) => some ⟨-eio, none⟩

end

/-! ## Complete listings -/

/-- A search that finds the slaves, one after the other, and then reports its end. -/
inductive Searched (search : Nat → SearchStatus × SerialNumber) : Nat → List SerialNumber → Prop
  | done {call : Nat} : (search call).1 = .done → Searched search call []
  | found {call : Nat} {sn : SerialNumber} {sns : List SerialNumber} : search call = (.good, sn) →
      Searched search (call + 1) sns → Searched search call (sn :: sns)

/-- A message with a payload that `From_ServerAlloc` hands out. -/
def Element (b body : Bytes) : Prop :=
  ∃ cm, Message b cm body ∧ body ≠ [] ∧ 0 ≤ cm.ret.toInt ∧ cm.payload.toInt.toNat ≤ maxPayloadSize

/-- The elements of a DIR, all of which are parsed, with their serial numbers, up to the empty one
that reports no error. -/
inductive Enumeration (parse : Bytes → Int × SerialNumber) : Bytes → List SerialNumber → Prop
  | terminator {b : Bytes} {cm : ClientMsg} : Message b cm [] → 0 ≤ cm.ret.toInt →
      Enumeration parse b []
  | element {b bs body : Bytes} {sns : List SerialNumber} : Element b body →
      (parse (elementOf body)).1 = 0 → Enumeration parse bs sns →
      Enumeration parse (b ++ bs) ((parse (elementOf body)).2 :: sns)

/-- Elements up to one that poisons the blob: the parser has a negative code for it. -/
inductive Poisoning (parse : Bytes → Int × SerialNumber) : Bytes → Prop
  | here {b body : Bytes} : Element b body → (parse (elementOf body)).1 < 0 → Poisoning parse b
  | later {b bs body : Bytes} : Element b body → 0 ≤ (parse (elementOf body)).1 →
      Poisoning parse bs → Poisoning parse (b ++ bs)

/-- The stream starts with a complete listing. -/
def DirComplete (parse : Bytes → Int × SerialNumber) (s : Stream) (sns : List SerialNumber) :
    Prop :=
  ∃ b rest, s = bytesOf b ++ rest ∧ Enumeration parse b sns

/-- The elements in the payload of an answer to DIRALL. -/
def bodyElements (body : Bytes) : List Bytes := listElements (if body = [] then none else some body)

/-- The stream starts with a good header and its payload, all of whose elements are parsed. -/
def DirallComplete (parse : Bytes → Int × SerialNumber) (s : Stream) (sns : List SerialNumber) :
    Prop :=
  ∃ b cm body rest, s = bytesOf b ++ rest ∧ Message b cm body ∧ cm.ret = 0 ∧
    (∀ text ∈ bodyElements body, (parse text).1 = 0) ∧
    sns = (bodyElements body).map fun text => (parse text).2

/-- A listing over a DIR, all of whose elements are parsed, comes to its end, or an element poisons
the blob. -/
def Orderly (parse : Bytes → Int × SerialNumber) (s : Stream) : Prop :=
  (∃ sns, DirComplete parse s sns) ∨ ∃ b rest, s = bytesOf b ++ rest ∧ Poisoning parse b

/-- A header that reports no error and announces more than `From_ServerAlloc` accepts. -/
def Oversized (s : Stream) : Prop :=
  ∃ head cm rest, s = bytesOf head ++ rest ∧ Heading head cm ∧ cm.ret = 0 ∧
    maxPayloadSize < cm.payload.toInt.toNat

/-- A good answer to DIRALL is not oversized, and its elements are all parsed unless one of them
poisons the blob. -/
def DirallOrderly (parse : Bytes → Int × SerialNumber) (s : Stream) : Prop :=
  ¬ Oversized s ∧
    ∀ b cm body rest, s = bytesOf b ++ rest → Message b cm body → cm.ret = 0 →
      (∀ text ∈ bodyElements body, (parse text).1 = 0) ∨
        ∃ text ∈ bodyElements body, (parse text).1 < 0

/-! ## Messages -/

theorem fromServerAlloc_of_element {b body : Bytes} {rest : Stream} {conn : Conn}
    (h : Element b body) (hconn : conn.coming = bytesOf b ++ rest) :
    ∃ cm conn', fromServerAlloc conn = (some body, cm, conn') ∧ conn'.coming = rest := by
  obtain ⟨cm, ⟨head, hhead, hlen, rfl⟩, hne, hret, hmax⟩ := h
  rw [bytesOf_append, List.append_assoc] at hconn
  obtain ⟨conn₁, hnext, hcoming⟩ := nextHeader_of_heading hhead hconn
  have hzero : cm.payload ≠ 0 := by
    intro hzero
    rw [hzero] at hlen
    exact hne (List.eq_nil_of_length_eq_zero hlen)
  have hread : conn₁.tcpRead cm.payload.toInt.toNat =
      (body, { conn₁ with taken := conn₁.taken ++ body, coming := rest }) := by
    rw [Conn.tcpRead, hcoming, ← hlen, takeBytes_bytesOf]
  refine ⟨cm, { conn₁ with taken := conn₁.taken ++ body, coming := rest }, ?_, rfl⟩
  rw [fromServerAlloc, hnext]
  dsimp only
  rw [if_neg hzero, if_neg (Int.not_lt.mpr hret), if_neg (Nat.not_lt.mpr hmax), hread]
  dsimp only
  rw [if_neg (not_not.mpr hlen)]

theorem fromServerAlloc_of_terminator {b : Bytes} {cm : ClientMsg} {rest : Stream} {conn : Conn}
    (h : Message b cm []) (hconn : conn.coming = bytesOf b ++ rest) :
    ∃ conn', fromServerAlloc conn = (none, cm, conn') := by
  obtain ⟨head, hhead, hlen, rfl⟩ := h
  rw [List.append_nil] at hconn
  obtain ⟨conn₁, hnext, -⟩ := nextHeader_of_heading hhead hconn
  have hzero : cm.payload = 0 := by
    obtain ⟨d, x, -, -, rfl, hpos, -⟩ := hhead
    rw [List.length_nil] at hlen
    apply BitVec.eq_of_toInt_eq
    rw [show (0 : BitVec 32).toInt = 0 from rfl]
    omega
  refine ⟨conn₁, ?_⟩
  rw [fromServerAlloc, hnext]
  dsimp only
  rw [if_pos hzero]

/-- A path that came back is the payload of the next message. -/
theorem element_of_fromServerAlloc {conn conn' : Conn} {body : Bytes} {cm : ClientMsg}
    (h : fromServerAlloc conn = (some body, cm, conn')) :
    ∃ b, Element b body ∧ conn.coming = bytesOf b ++ conn'.coming := by
  have hout := fromServerAlloc_outcome conn
  rw [h] at hout
  cases hout with
  | message hhead hzero hret hmax hreads hlen hreads' =>
    exact ⟨_, ⟨cm, hhead.message hlen, hhead.body_ne_nil hzero hlen, hret, hmax⟩,
      (hreads.trans hreads').coming⟩

theorem Element.length_pos {b body : Bytes} (h : Element b body) : 0 < b.length := by
  obtain ⟨cm, ⟨head, hhead, -, rfl⟩, -⟩ := h
  rw [List.length_append]
  exact Nat.lt_of_lt_of_le hhead.length_pos (Nat.le_add_right _ _)

/-! ## Elements and the blob -/

section

variable {parsedName : Bytes → Int × SerialNumber} {pn : WholeDirectory} {currentFile : Bytes}
    {db : Dirblob}

theorem directoryElement_of_neg (h : (parseElement parsedName pn currentFile).1 < 0) :
    directoryElement parsedName pn currentFile db =
      ((parseElement parsedName pn currentFile).1, dirblobPoison db) := by
  rw [directoryElement]
  dsimp only
  rw [if_pos h]

theorem directoryElement_of_nonneg (h : 0 ≤ (parseElement parsedName pn currentFile).1) :
    directoryElement parsedName pn currentFile db =
      (0, if db.troubled then db else db.add (parseElement parsedName pn currentFile).2) := by
  rw [directoryElement]
  dsimp only
  rw [if_neg (Int.not_lt.mpr h)]

/-- An element is added to a pure blob unless the parser has a negative code for it. -/
theorem directoryElement_pure (hdb : db.troubled = false)
    (h : 0 ≤ (parseElement parsedName pn currentFile).1) :
    directoryElement parsedName pn currentFile db =
      (0, db.add (parseElement parsedName pn currentFile).2) := by
  rw [directoryElement_of_nonneg h, if_neg (by rw [hdb]; decide)]

/-- An element leaves a poisoned blob poisoned. -/
theorem troubled_directoryElement (h : db.troubled = true) :
    (directoryElement parsedName pn currentFile db).2.troubled = true := by
  rcases Int.lt_or_le (parseElement parsedName pn currentFile).1 0 with hneg | hpos
  · rw [directoryElement_of_neg hneg, troubled_dirblobPoison]
  · rw [directoryElement_of_nonneg hpos]
    dsimp only
    rw [if_pos h, h]

theorem directoryElementInit_eq (pn : WholeDirectory) :
    (directoryElementInit pn).snlist = [] ∧ (directoryElementInit pn).troubled = !pn.cacheable := by
  unfold directoryElementInit
  split
  · next h => exact ⟨rfl, by rw [h]; rfl⟩
  · next h => exact ⟨rfl, by rw [Bool.eq_false_of_not_eq_true h]; rfl⟩

theorem pure_directoryElementInit {pn : WholeDirectory} (h : pn.cacheable = true) :
    (directoryElementInit pn).troubled = false := by
  rw [(directoryElementInit_eq pn).2, h]
  rfl

theorem poisoned_directoryElementInit {pn : WholeDirectory} (h : ¬ pn.cacheable = true) :
    (directoryElementInit pn).troubled = true := by
  rw [(directoryElementInit_eq pn).2, Bool.eq_false_of_not_eq_true h]
  rfl

/-! ## DIR -/

/-- The result does not depend on the blob. -/
theorem fst_directoryElement (text : Bytes) (db : Dirblob) :
    (directoryElement parsedName pn text db).1 = (directoryElement parsedName pn text {}).1 := by
  rcases Int.lt_or_le (parseElement parsedName pn text).1 0 with hneg | hpos
  · rw [directoryElement_of_neg hneg, directoryElement_of_neg hneg]
  · rw [directoryElement_of_nonneg hpos, directoryElement_of_nonneg hpos]

/-- The loop without its blob is the one that the message boundaries are about. -/
theorem serverDIRLoop_eq_dirLoop (fuel : Nat) (conn : Conn) (db : Dirblob) :
    dirLoop (fun b => (directoryElement parsedName pn (b.takeWhile (· ≠ 0)) {}).1) fuel conn =
      ((serverDIRLoop parsedName pn fuel conn db).1,
        (serverDIRLoop parsedName pn fuel conn db).2.1) := by
  induction fuel generalizing conn db with
  | zero => rfl
  | succ fuel ih =>
    rcases hfrom : fromServerAlloc conn with ⟨_ | returnPath, cm, conn'⟩
    · rw [dirLoop, serverDIRLoop, hfrom]
    · have hpath : (returnPath.dropLast ++ [0]).takeWhile (· ≠ 0) = elementOf returnPath := rfl
      rw [dirLoop, serverDIRLoop, hfrom]
      dsimp only
      rw [hpath, fst_directoryElement (elementOf returnPath) db]
      by_cases hzero : (directoryElement parsedName pn (elementOf returnPath) {}).1 = 0
      · rw [if_neg (not_not.mpr hzero), if_neg (not_not.mpr hzero)]
        exact ih conn' _
      · rw [if_pos hzero, if_pos hzero]

/-- A complete listing is collected as it is. -/
theorem serverDIRLoop_of_enumeration {b : Bytes} {sns : List SerialNumber} {rest : Stream}
    {fuel : Nat} {conn : Conn} (h : Enumeration (parseElement parsedName pn) b sns)
    (hconn : conn.coming = bytesOf b ++ rest) (hfuel : conn.coming.length < fuel)
    (hdb : db.troubled = false) :
    (serverDIRLoop parsedName pn fuel conn db).2.2.snlist = db.snlist ++ sns := by
  induction h generalizing fuel conn db with
  | terminator hmsg _ =>
    obtain ⟨fuel, rfl⟩ : ∃ n, fuel = n + 1 := ⟨fuel - 1, by omega⟩
    obtain ⟨conn', halloc⟩ := fromServerAlloc_of_terminator hmsg hconn
    rw [serverDIRLoop, halloc, List.append_nil]
  | @element b bs body sns helem hparse _ ih =>
    obtain ⟨fuel, rfl⟩ : ∃ n, fuel = n + 1 := ⟨fuel - 1, by omega⟩
    rw [bytesOf_append, List.append_assoc] at hconn
    obtain ⟨cm, conn', halloc, hcoming⟩ := fromServerAlloc_of_element helem hconn
    have hlen := congrArg List.length hconn
    rw [List.length_append, ← hcoming, bytesOf, List.length_map] at hlen
    have hpos := helem.length_pos
    have hpure : (db.add (parseElement parsedName pn (elementOf body)).2).troubled = false := by
      rw [troubled_add, hdb]
    rw [serverDIRLoop, halloc]
    dsimp only
    rw [directoryElement_pure hdb (Int.le_of_eq hparse.symm)]
    dsimp only
    rw [if_neg (not_not.mpr rfl), ih hcoming (by omega) hpure, snlist_add hdb, List.append_assoc]
    rfl

/-- An element with a negative code poisons the blob. -/
theorem serverDIRLoop_of_poisoning {b : Bytes} {rest : Stream} {fuel : Nat} {conn : Conn}
    (h : Poisoning (parseElement parsedName pn) b) (hconn : conn.coming = bytesOf b ++ rest)
    (hfuel : conn.coming.length < fuel) (hdb : db.troubled = false) :
    (serverDIRLoop parsedName pn fuel conn db).2.2.troubled = true := by
  induction h generalizing fuel conn db with
  | here helem hparse =>
    obtain ⟨fuel, rfl⟩ : ∃ n, fuel = n + 1 := ⟨fuel - 1, by omega⟩
    obtain ⟨cm, conn', halloc, -⟩ := fromServerAlloc_of_element helem hconn
    rw [serverDIRLoop, halloc]
    dsimp only
    rw [directoryElement_of_neg hparse]
    dsimp only
    rw [if_pos (by omega), troubled_dirblobPoison]
  | @later b bs body helem hparse _ ih =>
    obtain ⟨fuel, rfl⟩ : ∃ n, fuel = n + 1 := ⟨fuel - 1, by omega⟩
    rw [bytesOf_append, List.append_assoc] at hconn
    obtain ⟨cm, conn', halloc, hcoming⟩ := fromServerAlloc_of_element helem hconn
    have hlen := congrArg List.length hconn
    rw [List.length_append, ← hcoming, bytesOf, List.length_map] at hlen
    have hpos := helem.length_pos
    rw [serverDIRLoop, halloc]
    dsimp only
    rw [directoryElement_pure hdb hparse]
    dsimp only
    rw [if_neg (not_not.mpr rfl)]
    exact ih hcoming (by omega) (by rw [troubled_add, hdb])

/-- Nothing else does. -/
theorem poisoning_of_troubled {fuel : Nat} {conn : Conn} (hdb : db.troubled = false)
    (h : (serverDIRLoop parsedName pn fuel conn db).2.2.troubled = true) :
    ∃ b rest, conn.coming = bytesOf b ++ rest ∧ Poisoning (parseElement parsedName pn) b := by
  induction fuel generalizing conn db with
  | zero =>
    rw [serverDIRLoop, hdb] at h
    cases h
  | succ fuel ih =>
    rw [serverDIRLoop] at h
    split at h
    · rw [hdb] at h
      cases h
    · next returnPath cm conn' halloc =>
      obtain ⟨b, helem, hcoming⟩ := element_of_fromServerAlloc halloc
      rcases Int.lt_or_le (parseElement parsedName pn (elementOf returnPath)).1 0 with hneg | hpos
      · exact ⟨b, conn'.coming, hcoming, .here helem hneg⟩
      · rw [directoryElement_pure hdb hpos] at h
        dsimp only at h
        rw [if_neg (not_not.mpr rfl)] at h
        obtain ⟨bs, rest, hrest, hun⟩ := ih (by rw [troubled_add, hdb]) h
        refine ⟨b ++ bs, rest, ?_, .later helem hpos hun⟩
        rw [hcoming, hrest, bytesOf_append, List.append_assoc]

theorem serverDIRLoop_troubled {fuel : Nat} {conn : Conn} (hdb : db.troubled = true) :
    (serverDIRLoop parsedName pn fuel conn db).2.2.troubled = true := by
  induction fuel generalizing conn db with
  | zero => exact hdb
  | succ fuel ih =>
    rw [serverDIRLoop]
    split
    · exact hdb
    · next returnPath cm conn' _ =>
      dsimp only
      split
      · exact troubled_directoryElement hdb
      · exact ih (troubled_directoryElement hdb)

theorem serverDIR_added (conn : Conn) :
    (serverDIR parsedName pn (some conn)).added =
      directoryElementFinish
        (serverDIRLoop parsedName pn (conn.coming.length + 1) conn (directoryElementInit pn)).2.2 :=
      rfl

theorem directoryElementFinish_eq_some {db' : Dirblob} :
    directoryElementFinish db = some db' ↔ db.troubled = false ∧ db' = db := by
  unfold directoryElementFinish
  cases db.troubled with
  | true => simp
  | false => simp [eq_comm]

/-- Only directories that are cacheable are added. -/
theorem cacheable_of_serverDIR_added {conn : Option Conn} {db' : Dirblob}
    (h : (serverDIR parsedName pn conn).added = some db') : pn.cacheable = true := by
  cases conn with
  | none => cases h
  | some conn =>
    by_contra hno
    rw [serverDIR_added] at h
    have hpure := (directoryElementFinish_eq_some.mp h).1
    rw [serverDIRLoop_troubled (poisoned_directoryElementInit hno)] at hpure
    cases hpure

/-- **`ServerDIR` caches complete listings only when the listing ends in an orderly way.** -/
theorem onlyComplete_serverDIR_iff (conn : Option Conn) :
    OnlyComplete (serverDIR parsedName pn conn).added
        (fun sns => ∃ c, conn = some c ∧ DirComplete (parseElement parsedName pn) c.coming sns) ↔
      (pn.cacheable = true → ∀ c, conn = some c →
        Orderly (parseElement parsedName pn) c.coming) := by
  obtain ⟨hinit, -⟩ := directoryElementInit_eq pn
  cases conn with
  | none => exact ⟨fun _ _ c hc => (nomatch hc), fun _ => onlyComplete_none _⟩
  | some conn =>
    constructor
    · rintro h hcache c ⟨⟩
      rw [serverDIR_added] at h
      have hpure := pure_directoryElementInit hcache
      by_cases hend : (serverDIRLoop parsedName pn (conn.coming.length + 1) conn
          (directoryElementInit pn)).2.2.troubled = true
      · exact .inr (poisoning_of_troubled hpure hend)
      · -- whatever ended the loop, the blob is handed over
        have hadd := directoryElementFinish_eq_some.mpr ⟨Bool.eq_false_of_not_eq_true hend, rfl⟩
        obtain ⟨c, hc, hcomplete⟩ := h _ hadd
        cases hc
        exact .inl ⟨_, hcomplete⟩
    · intro h db hdb
      have hcache := cacheable_of_serverDIR_added hdb
      rw [serverDIR_added] at hdb
      obtain ⟨hpure, rfl⟩ := directoryElementFinish_eq_some.mp hdb
      have hfresh := pure_directoryElementInit hcache
      rcases h hcache conn rfl with ⟨sns, b, rest, hs, henum⟩ | ⟨b, rest, hs, hun⟩
      · refine ⟨conn, rfl, b, rest, hs, ?_⟩
        rw [serverDIRLoop_of_enumeration henum hs (Nat.lt_succ_self _) hfresh, hinit,
          List.nil_append]
        exact henum
      · rw [serverDIRLoop_of_poisoning hun hs (Nat.lt_succ_self _) hfresh] at hpure
        cases hpure

/-! ## DIRALL -/

theorem serverDIRALLLoop_troubled {texts : List Bytes} (hdb : db.troubled = true) :
    (serverDIRALLLoop parsedName pn texts db).2.troubled = true := by
  induction texts generalizing db with
  | nil => exact hdb
  | cons text texts ih =>
    rw [serverDIRALLLoop]
    dsimp only
    split
    · exact troubled_directoryElement hdb
    · exact ih (troubled_directoryElement hdb)

/-- A blob that is pure after the loop has all elements. -/
theorem serverDIRALLLoop_pure {texts : List Bytes} (hdb : db.troubled = false)
    (h : (serverDIRALLLoop parsedName pn texts db).2.troubled = false) :
    (∀ text ∈ texts, 0 ≤ (parseElement parsedName pn text).1) ∧
      (serverDIRALLLoop parsedName pn texts db).2.snlist =
        db.snlist ++ texts.map fun text => (parseElement parsedName pn text).2 := by
  induction texts generalizing db with
  | nil => exact ⟨fun _ hmem => absurd hmem List.not_mem_nil, (List.append_nil _).symm⟩
  | cons text texts ih =>
    rw [serverDIRALLLoop] at h ⊢
    dsimp only at h ⊢
    rcases Int.lt_or_le (parseElement parsedName pn text).1 0 with hneg | hpos
    · rw [directoryElement_of_neg hneg, if_pos (by dsimp only; omega)] at h
      cases h
    · rw [directoryElement_pure hdb hpos, if_neg (not_not.mpr rfl)] at h ⊢
      obtain ⟨hall, hlist⟩ := ih (by rw [troubled_add, hdb]) h
      refine ⟨?_, ?_⟩
      · intro t ht
        rcases List.mem_cons.mp ht with rfl | ht
        · exact hpos
        · exact hall t ht
      · rw [hlist, snlist_add hdb, List.append_assoc, List.map_cons]
        rfl

/-- An element with a negative code poisons the blob, wherever it stands. -/
theorem serverDIRALLLoop_of_neg {texts : List Bytes}
    (h : ∃ text ∈ texts, (parseElement parsedName pn text).1 < 0) :
    (serverDIRALLLoop parsedName pn texts db).2.troubled = true := by
  by_cases hdb : db.troubled = true
  · exact serverDIRALLLoop_troubled hdb
  · by_contra hpure
    obtain ⟨text, htext, hneg⟩ := h
    have hall := (serverDIRALLLoop_pure (Bool.eq_false_of_not_eq_true hdb)
      (Bool.eq_false_of_not_eq_true hpure)).1 text htext
    omega

/-- Without one the blob stays as it is. -/
theorem serverDIRALLLoop_of_nonneg {texts : List Bytes} (hdb : db.troubled = false)
    (h : ∀ text ∈ texts, 0 ≤ (parseElement parsedName pn text).1) :
    (serverDIRALLLoop parsedName pn texts db).2.troubled = false := by
  induction texts generalizing db with
  | nil => exact hdb
  | cons text texts ih =>
    obtain ⟨htext, htexts⟩ := List.forall_mem_cons.mp h
    rw [serverDIRALLLoop]
    dsimp only
    rw [directoryElement_pure hdb htext, if_neg (not_not.mpr rfl)]
    exact ih (by rw [troubled_add, hdb]) htexts

theorem bodyElements_ne_nil {body : Bytes} (hne : body ≠ []) : bodyElements body ≠ [] := by
  rw [bodyElements, if_neg hne]
  exact List.splitOn_ne_nil _ _

/-- A message is read as it is, if it is good and not oversized. -/
theorem fromServerAlloc_of_message {b body : Bytes} {cm : ClientMsg} {rest : Stream} {conn : Conn}
    (hconn : conn.coming = bytesOf b ++ rest) (hmsg : Message b cm body) (hret : cm.ret = 0)
    (hsize : ¬ Oversized conn.coming) :
    ∃ conn', fromServerAlloc conn = (if body = [] then none else some body, cm, conn') := by
  by_cases hnil : body = []
  · subst hnil
    rw [if_pos rfl]
    exact fromServerAlloc_of_terminator hmsg hconn
  · obtain ⟨head, hhead, hlen, rfl⟩ := hmsg
    have hmax : cm.payload.toInt.toNat ≤ maxPayloadSize := by
      by_contra hmax
      rw [bytesOf_append, List.append_assoc] at hconn
      exact hsize ⟨head, cm, _, hconn, hhead, hret, Nat.not_le.mp hmax⟩
    obtain ⟨cm', conn', halloc, -⟩ := fromServerAlloc_of_element
      ⟨cm, ⟨head, hhead, hlen, rfl⟩, hnil, by rw [hret]; decide, hmax⟩ hconn
    have hcm : cm' = cm := by
      have hout := fromServerAlloc_outcome conn
      rw [halloc] at hout
      cases hout with
      | message hhead' _ _ _ hreads _ _ =>
        rw [bytesOf_append, List.append_assoc] at hconn
        exact (hhead.unique hhead' (hconn.symm.trans hreads.coming)).2.symm
    rw [if_neg hnil, halloc, hcm]
    exact ⟨conn', rfl⟩

theorem cacheable_of_serverDIRALL_added {conn : Option Conn} {db' : Dirblob}
    (h : (serverDIRALL parsedName pn conn).added = some db') : pn.cacheable = true := by
  cases conn with
  | none => cases h
  | some conn =>
    by_contra hno
    rcases hfrom : fromServerAlloc conn with ⟨list, cm, conn'⟩
    rw [serverDIRALL, hfrom] at h
    dsimp only at h
    split at h
    · have hpure := (directoryElementFinish_eq_some.mp h).1
      rw [serverDIRALLLoop_troubled (poisoned_directoryElementInit hno)] at hpure
      cases hpure
    · cases h

theorem payload_ne_zero_of_oversized {cm : ClientMsg}
    (hmax : cm.payload.toInt.toNat > maxPayloadSize) :
    cm.payload ≠ 0 := by
  intro hzero
  rw [hzero] at hmax
  exact absurd hmax (by decide)

/-- An oversized payload is refused, and the header keeps its good result. -/
theorem fromServerAlloc_of_oversized {conn : Conn} {head : Bytes} {cm : ClientMsg} {rest : Stream}
    (hs : conn.coming = bytesOf head ++ rest) (hhead : Heading head cm) (hret : cm.ret = 0)
    (hmax : cm.payload.toInt.toNat > maxPayloadSize) :
    ∃ conn', fromServerAlloc conn = (none, cm, conn') := by
  obtain ⟨conn', hnext, -⟩ := nextHeader_of_heading hhead hs
  refine ⟨conn', ?_⟩
  rw [fromServerAlloc, hnext]
  dsimp only
  rw [if_neg (payload_ne_zero_of_oversized hmax), if_neg (by rw [hret]; decide), if_pos hmax]

/-- What is handed over of a good answer that was read. -/
theorem serverDIRALL_added {conn conn' : Conn} {list : Option Bytes} {cm : ClientMsg}
    (hfrom : fromServerAlloc conn = (list, cm, conn')) (hret : cm.ret = 0) :
    (serverDIRALL parsedName pn (some conn)).added = directoryElementFinish
      (serverDIRALLLoop parsedName pn (listElements list) (directoryElementInit pn)).2 := by
  rw [serverDIRALL, hfrom]
  dsimp only
  rw [if_pos hret]

/-- A blob that is handed over has the elements of the payload, if one with a positive code comes
with one that poisons the blob. -/
theorem dirallComplete_of_message {b body : Bytes} {cm : ClientMsg} {rest s : Stream}
    (hs : s = bytesOf b ++ rest) (hmsg : Message b cm body) (hret : cm.ret = 0)
    (horderly : DirallOrderly (parseElement parsedName pn) s)
    (hfresh : (directoryElementInit pn).troubled = false)
    (hpure : (serverDIRALLLoop parsedName pn (bodyElements body)
      (directoryElementInit pn)).2.troubled = false) :
    DirallComplete (parseElement parsedName pn) s
      (serverDIRALLLoop parsedName pn (bodyElements body) (directoryElementInit pn)).2.snlist := by
  obtain ⟨-, hsns⟩ := serverDIRALLLoop_pure hfresh hpure
  rw [(directoryElementInit_eq pn).1, List.nil_append] at hsns
  rcases horderly.2 b cm body rest hs hmsg hret with hall | hneg
  · exact ⟨b, cm, body, rest, hs, hmsg, hret, hall, hsns⟩
  · rw [serverDIRALLLoop_of_neg hneg] at hpure
    cases hpure

/-- An oversized payload gives an empty list, and a payload has an element at least. -/
theorem not_oversized_of_onlyComplete {conn : Conn} (hcache : pn.cacheable = true)
    (h : OnlyComplete (serverDIRALL parsedName pn (some conn)).added
      (DirallComplete (parseElement parsedName pn) conn.coming)) : ¬ Oversized conn.coming := by
  rintro ⟨head, cm, rest, hs, hhead, hret, hmax⟩
  obtain ⟨conn₁, halloc⟩ := fromServerAlloc_of_oversized hs hhead hret hmax
  have hadd : (serverDIRALL parsedName pn (some conn)).added = _ := serverDIRALL_added halloc hret
  obtain ⟨b, cm', body, rest', hs', ⟨head', hhead', hlen, rfl⟩, -, -, hsns⟩ :=
    h _ (hadd.trans (directoryElementFinish_eq_some.mpr ⟨pure_directoryElementInit hcache, rfl⟩))
  rw [bytesOf_append, List.append_assoc] at hs'
  obtain ⟨rfl, rfl⟩ := hhead.unique hhead' (hs.symm.trans hs')
  have hne : body ≠ [] := hhead.body_ne_nil (payload_ne_zero_of_oversized hmax) hlen
  replace hsns : (directoryElementInit pn).snlist = _ := hsns
  rw [(directoryElementInit_eq pn).1] at hsns
  exact bodyElements_ne_nil hne (List.map_eq_nil_iff.mp hsns.symm)

theorem dirallOrderly_of_onlyComplete {conn : Conn} (hcache : pn.cacheable = true)
    (h : OnlyComplete (serverDIRALL parsedName pn (some conn)).added
      (DirallComplete (parseElement parsedName pn) conn.coming)) :
    DirallOrderly (parseElement parsedName pn) conn.coming := by
  have hsize := not_oversized_of_onlyComplete hcache h
  refine ⟨hsize, fun b cm body rest hs hmsg hret => ?_⟩
  by_cases hneg : ∃ text ∈ bodyElements body, (parseElement parsedName pn text).1 < 0
  · exact .inr hneg
  · -- the blob is handed over, so the elements of the message are complete
    simp only [not_exists, not_and, Int.not_lt] at hneg
    obtain ⟨conn₁, halloc⟩ := fromServerAlloc_of_message hs hmsg hret hsize
    have hadd : (serverDIRALL parsedName pn (some conn)).added = _ :=
      serverDIRALL_added halloc hret
    obtain ⟨b', cm', body', rest', hs', hmsg', hret', hall, -⟩ :=
      h _ (hadd.trans (directoryElementFinish_eq_some.mpr
        ⟨serverDIRALLLoop_of_nonneg (pure_directoryElementInit hcache) hneg, rfl⟩))
    obtain ⟨conn₂, halloc'⟩ := fromServerAlloc_of_message hs' hmsg' hret' hsize
    have hbody : (if body = [] then none else some body) =
        if body' = [] then none else some body' :=
      congrArg Prod.fst (halloc.symm.trans halloc')
    refine .inl ?_
    rw [bodyElements, hbody]
    exact hall

/-- What is handed over of an orderly stream. The cases are the ways in which `From_ServerAlloc`
comes back. -/
theorem dirallComplete_of_added {conn : Conn} {db : Dirblob}
    (hdb : (serverDIRALL parsedName pn (some conn)).added = some db)
    (horderly : DirallOrderly (parseElement parsedName pn) conn.coming) :
    DirallComplete (parseElement parsedName pn) conn.coming db.snlist := by
  have hfresh := pure_directoryElementInit (cacheable_of_serverDIRALL_added hdb)
  rcases hfrom : fromServerAlloc conn with ⟨list, cm, conn'⟩
  by_cases hret : cm.ret = 0
  · rw [serverDIRALL_added hfrom hret] at hdb
    obtain ⟨hpure, rfl⟩ := directoryElementFinish_eq_some.mp hdb
    have hout := fromServerAlloc_outcome conn
    rw [hfrom] at hout
    cases hout with
    | broken => exact absurd hret (by decide)
    | empty hhead hzero hreads =>
      exact dirallComplete_of_message hreads.coming (hhead.message_nil hzero) hret horderly hfresh
        hpure
    | refused hhead hzero hwhy hreads =>
      rcases hwhy with hneg | hmax
      · rw [hret] at hneg
        exact absurd hneg (by decide)
      · exact absurd ⟨_, cm, _, hreads.coming, hhead, hret, hmax⟩ horderly.1
    | short => exact absurd hret (by dsimp only; decide)
    | @message head msg _ _ _ hhead hzero hret' hmax hreads hlen hreads' =>
      have hbody : listElements (some msg) = bodyElements msg := by
        rw [bodyElements, if_neg (hhead.body_ne_nil hzero hlen)]
      rw [hbody] at hpure ⊢
      exact dirallComplete_of_message (hreads.trans hreads').coming (hhead.message hlen) hret
        horderly hfresh hpure
  · rw [serverDIRALL, hfrom] at hdb
    dsimp only at hdb
    rw [if_neg hret] at hdb
    cases hdb

/-- **`ServerDIRALL` takes a payload that was refused for an empty list, and an element that was
refused with a positive code for a device.** -/
theorem onlyComplete_serverDIRALL_iff (conn : Option Conn) :
    OnlyComplete (serverDIRALL parsedName pn conn).added
        (fun sns =>
          ∃ c, conn = some c ∧ DirallComplete (parseElement parsedName pn) c.coming sns) ↔
      (pn.cacheable = true →
        ∀ c, conn = some c → DirallOrderly (parseElement parsedName pn) c.coming) := by
  cases conn with
  | none => exact ⟨fun _ _ c hc => (nomatch hc), fun _ => onlyComplete_none _⟩
  | some conn =>
    constructor
    · rintro h hcache c ⟨⟩
      refine dirallOrderly_of_onlyComplete hcache fun db hdb => ?_
      obtain ⟨c, ⟨⟩, hcomplete⟩ := h db hdb
      exact hcomplete
    · intro h db hdb
      have hcache := cacheable_of_serverDIRALL_added hdb
      exact ⟨conn, rfl, dirallComplete_of_added hdb (h hcache conn rfl)⟩

/-- The result is the one that the message boundaries are about. -/
theorem ret_serverDIRALL {noPersistence : Bool} {sys : System} {pown pown' : PortIn} {conn : Conn}
    {persistence : Bool}
    (h : toServer noPersistence sys .dirall pown = (true, ⟨some conn, persistence, pown'⟩)) :
    (serverDIRALL parsedName pn (some conn)).ret =
      (Client.serverDIRALL noPersistence (fun text => (directoryElement parsedName pn text {}).1)
        sys pown).ret := by
  have hloop : ∀ texts db, (serverDIRALLLoop parsedName pn texts db).1 =
      ((texts.map fun text => (directoryElement parsedName pn text {}).1).find?
        (· ≠ 0)).getD 0 := by
    intro texts
    induction texts with
    | nil => exact fun _ => rfl
    | cons text texts ih =>
      intro db
      rw [serverDIRALLLoop, List.map_cons]
      dsimp only
      rw [fst_directoryElement text db]
      by_cases hzero : (directoryElement parsedName pn text {}).1 = 0
      · rw [List.find?_cons_of_neg (by simp [hzero])]
        rw [if_neg (not_not.mpr hzero)]
        exact ih _
      · rw [List.find?_cons_of_pos (by simp [hzero])]
        rw [if_pos hzero]
        rfl
  rw [serverDIRALL, Client.serverDIRALL, h]
  dsimp only
  rcases fromServerAlloc conn with ⟨list, cm, conn'⟩
  dsimp only
  split
  · exact hloop _ _
  · rfl

/-! ## Searches -/

/-- A search that ended is collected as it is. -/
theorem realdirLoop_done {search : Nat → SearchStatus × SerialNumber} {dirPlus : SerialNumber → Int}
    {fuel call : Nat} {db' : Dirblob} (hdb : db.troubled = false)
    (h : realdirLoop search dirPlus fuel call db = some (.done, db')) :
    ∃ sns, Searched search call sns ∧ db'.snlist = db.snlist ++ sns := by
  induction fuel generalizing call db with
  | zero => cases h
  | succ fuel ih =>
    rcases hsearch : search call with ⟨status, sn⟩
    rw [realdirLoop, hsearch] at h
    cases status with
    | good =>
      dsimp only at h
      split at h
      · cases h
      · obtain ⟨sns, hsearched, hlist⟩ := ih (by rw [troubled_add, hdb]) h
        refine ⟨sn :: sns, .found hsearch hsearched, ?_⟩
        rw [hlist, snlist_add hdb, List.append_assoc]
        rfl
    | done =>
      cases h
      exact ⟨[], .done (by rw [hsearch]), (List.append_nil _).symm⟩
    | error => cases h

/-- `ServerDir` lists a directory that is cached with a DIR. -/
theorem serverDir_of_cacheable (noDirall : Bool) (dir dirall : Option Conn)
    (h : pn.cacheable = true) :
    serverDir parsedName pn noDirall dir dirall = serverDIR parsedName pn dir := by
  have hreal : pn.isRealDir = true := by
    unfold WholeDirectory.cacheable at h
    simp only [Bool.and_eq_true] at h
    exact h.1.1.1
  unfold serverDir
  split
  · rfl
  · rw [if_pos (by rw [hreal]; rfl)]

/-- What `ServerDir` adds is what a DIR adds. -/
theorem serverDir_added (noDirall : Bool) (dir dirall : Option Conn) :
    (serverDir parsedName pn noDirall dir dirall).added = (serverDIR parsedName pn dir).added := by
  by_cases hcache : pn.cacheable = true
  · rw [serverDir_of_cacheable noDirall dir dirall hcache]
  · have hdir : (serverDIR parsedName pn dir).added = none :=
      Option.eq_none_iff_forall_ne_some.mpr fun db h => hcache (cacheable_of_serverDIR_added h)
    have hdirall : (serverDIRALL parsedName pn dirall).added = none :=
      Option.eq_none_iff_forall_ne_some.mpr fun db h => hcache (cacheable_of_serverDIRALL_added h)
    unfold serverDir
    split
    · rfl
    · split
      · rfl
      · split
        · rfl
        · rw [hdir, hdirall]

/-- A complete listing of a bus. -/
def Bus.Complete (parse : Bytes → Int × SerialNumber) : Bus → List SerialNumber → Prop
  | .server _ dir _, sns => ∃ c, dir = some c ∧ DirComplete parse c.coming sns
  | .sham, _ => False
  | .master search _, sns => Searched search 0 sns

/-- A listing that an owserver sends ends in an orderly way, where it is cached. -/
def Bus.Orderly (parse : Bytes → Int × SerialNumber) (pn : WholeDirectory) : Bus → Prop
  | .server _ dir _ => pn.cacheable = true → ∀ c, dir = some c → Directory.Orderly parse c.coming
  | .sham => True
  | .master _ _ => True

/-- `FS_realdir` adds the result of a search only when the search is over. -/
theorem onlyComplete_fsRealdir_iff (fuel : Nat) (bus : Bus) :
    OnlyComplete ((fsRealdir parsedName pn fuel bus).bind Listed.added)
        (bus.Complete (parseElement parsedName pn)) ↔ bus.Orderly
        (parseElement parsedName pn) pn := by
  cases bus with
  | server noDirall dir dirall =>
    rw [fsRealdir, Option.bind_some, serverDir_added]
    exact onlyComplete_serverDIR_iff dir
  | sham => exact ⟨fun _ => trivial, fun _ => onlyComplete_none _⟩
  | master search dirPlus =>
    refine ⟨fun _ => trivial, fun _ db hdb => ?_⟩
    rw [fsRealdir] at hdb
    split at hdb
    · cases hdb
    · next db' hloop =>
      obtain ⟨sns, hsearched, hlist⟩ := realdirLoop_done rfl hloop
      rw [Option.bind_some] at hdb
      dsimp only at hdb
      split at hdb
      · cases hdb
      · obtain rfl := Option.some.inj hdb
        rw [Bus.Complete, hlist]
        exact hsearched
    · cases hdb

end

/-- A complete listing has a header for each element and one for the end. -/
theorem Enumeration.le_length {parse : Bytes → Int × SerialNumber} {b : Bytes}
    {sns : List SerialNumber} (h : Enumeration parse b sns) :
    headerSize * (sns.length + 1) ≤ b.length := by
  have hmessage : ∀ {b body : Bytes} {cm : ClientMsg}, Message b cm body →
      headerSize ≤ b.length := by
    rintro b body cm ⟨head, ⟨d, x, -, hx, -, -, rfl⟩, -, rfl⟩
    rw [List.length_append, List.length_append, hx]
    omega
  induction h with
  | terminator hmsg _ => exact hmessage hmsg
  | element helem _ _ ih =>
    obtain ⟨cm, hmsg, -⟩ := helem
    have hhead := hmessage hmsg
    rw [List.length_append, List.length_cons, Nat.mul_succ]
    omega

/-- The first element of a complete listing is parsed. -/
theorem Enumeration.parse_first {parse : Bytes → Int × SerialNumber} {b body : Bytes}
    {sns : List SerialNumber} {rest : Stream} {conn conn' : Conn} {cm : ClientMsg}
    (h : Enumeration parse b sns) (hconn : conn.coming = bytesOf b ++ rest)
    (hfrom : fromServerAlloc conn = (some body, cm, conn')) : (parse (elementOf body)).1 = 0 := by
  cases h with
  | terminator hmsg _ =>
    obtain ⟨conn₁, halloc⟩ := fromServerAlloc_of_terminator hmsg hconn
    rw [hfrom] at halloc
    cases halloc
  | element helem hparse _ =>
    rw [bytesOf_append, List.append_assoc] at hconn
    obtain ⟨cm', conn₁, halloc, -⟩ := fromServerAlloc_of_element helem hconn
    rw [hfrom] at halloc
    cases halloc
    exact hparse

/-- The root directory of an owserver. -/
def remoteRoot : WholeDirectory := ⟨true, false, false, false, false, true, 0, 0⟩

/-- A thermometer. -/
def remoteSn : SerialNumber := ⟨[0x28, 0xA1, 0xB2, 0xC3, 0xD4, 0xE5, 0xF6, 0xAC], rfl⟩

/-- Its path, as it is sent. -/
def remotePath : Bytes := ascii "/28.A1B2C3D4E5F6"

/-- A path with a wrong checksum. -/
def mistakenPath : Bytes := ascii "/28.A1B2C3D4E5F6.00"

/-- `Parse_SerialNumber` has stored the number before it finds the checksum wrong; "bad path syntax"
has the code 27. -/
def parseRemotePath (path : Bytes) : Int × SerialNumber :=
  if path = remotePath then (0, remoteSn)
  else if path = mistakenPath then (27, remoteSn)
  else (27, .zero)

/-- What arrives from a server that is lost behind the first element. -/
def lostStream : Stream := bytesOf ((⟨0, 17, 0, 0, 17, 0⟩ : ClientMsg).hton ++ remotePath ++ [0])

def lostServer : Bus := .server true (some (.fresh lostStream)) none

/-- What arrives from a server that lists the path with the wrong checksum. -/
def mistakenStream : Stream :=
  bytesOf ((⟨0, 20, 0, 0, 20, 0⟩ : ClientMsg).hton ++ mistakenPath ++ [0] ++
    (⟨0, 0, 0, 0, 0, 0⟩ : ClientMsg).hton)

end Owfs.Directory
