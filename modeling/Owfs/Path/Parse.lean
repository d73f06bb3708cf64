import Owfs.Path.SerialNumber
import Owfs.Alias.Table

/-!
# Parsing a path

`FS_ParsedName` of `ow_parsename.c`. A path is taken apart at its slashes, and each segment is read
in one of the states of `enum parse_enum`: at the start it may be a bus, a mode (`uncached`,
`text`, …) or a virtual directory (`settings`, …), then a device, then a property of the device. A
property of a DS2409 can be a branch, below which devices follow again.

A device is named by its serial number, by the name of an external sensor or by an alias.

What the rest of the program knows (the connections, the devices and their properties, which bus a
device answers on) is a parameter. Statistics and debug output are left out.
-/

namespace Owfs.Path

open Infra Owfs.Cache Owfs.Device Owfs.Alias

/-! ## `struct parsedname` -/

/-- `enum ePN_type` -/
inductive PnType where
  | root | real | statistics | system | settings | struct | interface
deriving DecidableEq, Repr

/-- The bits of `enum ePS_state` that the parser sets. -/
structure PnState where
  uncached : Bool := false
  alarm : Bool := false
  text : Bool := false
  bus : Bool := false
  buslocal : Bool := false
  busremote : Bool := false
  busveryremote : Bool := false
  unaliased : Bool := false
  json : Bool := false
deriving DecidableEq, Repr

/-- `struct device`: an entry of `Tree`, by its code, or one of the others. -/
inductive Device where
  | listed (code : Bytes)
  | unknown
  | remote
  | external (family : Bytes)
deriving DecidableEq

def deviceSimultaneous : Device := .listed (ascii "simultaneous")

def deviceThermostat : Device := .listed (ascii "thermostat")

/-- `struct filetype`: what the parser reads of it. `data` is `data.i`. -/
structure Filetype where
  name : Bytes
  ag : Option Aggregate
  /-- `ag->letters` -/
  letters : Bool
  format : FtFormat
  data : Byte
deriving DecidableEq

/-- `struct parsedname`. `ds2409_depth` is the length of `bp`; pointers into `path` are offsets;
connections are known by their index. -/
structure ParsedName where
  path : Bytes
  pathToServer : Bytes
  deviceName : Option Nat := none
  knownBus : Option Int := none
  type : PnType := .root
  state : PnState := {}
  sn : SerialNumber := .zero
  selectedDevice : Option Device := none
  selectedFiletype : Option Filetype := none
  extension : Int := 0
  sparseName : Option Bytes := none
  subdir : Option Filetype := none
  dirlength : Int := -1
  bp : List Ds2409Hub := []
  selectedConnection : Option Int := none
  controlFlags : BitVec 32
deriving DecidableEq

/-- `enum parse_enum` -/
inductive ParseEnum where
  | first | done | error | real | branch | nonreal | prop | subprop
deriving DecidableEq, Repr

/-- `enum parse_pass` -/
inductive ParsePass where
  | preRemote | postRemote
deriving DecidableEq, Repr

/-- `struct connection_in`: its bus number, and `BusIsServer`. -/
structure Connection where
  index : Int
  server : Bool
deriving DecidableEq

/-- What the parser asks the rest of the program. -/
structure Env where
  uncached : Bool
  unaliased : Bool
  oneDevice : Bool
  localControlFlags : BitVec 32
  connections : List Connection
  /-- the codes in `Tree` -/
  tree : PnType → Bytes → Bool
  filetypeArray : Device → List Filetype
  /-- `Find_External_Sensor`: the family of the sensor -/
  findExternalSensor : Bytes → Option Bytes
  externalIndex : Int
  /-- `Cache_Get_Device` -/
  cacheGetDevice : ParsedName → Option Int
  /-- `CheckPresence_low` -/
  checkPresenceLow : ParsedName → Option Int
  /-- `Cache_Get_Alias_Bus` -/
  cacheGetAliasBus : Bytes → Option Int
  /-- `RemoteAlias`: the bus, and the serial number if the server gave one -/
  remoteAlias : ParsedName → Option (Int × SerialNumber)
  markers : Markers
  now : Int

/-- `SHOULD_RETURN_BUS_LIST` -/
def shouldReturnBusList : BitVec 32 := 2

/-! ## `regex_init` -/

/-- `word/?` -/
def rxWord (w : String) : Rx := .cat (.word (ascii w)) (.opt (.one (· == chr '/')))

/-- `^bus\.([[:digit:]]+)/?` -/
def rxBus : Rx :=
  .cat (.cat (.word (ascii "bus.")) (.group (.many isDigit))) (.opt (.one (· == chr '/')))

/-- `^/bus\.[[:digit:]]+/?` -/
def rxPBus : Rx :=
  .cat (.cat (.word (ascii "/bus.")) (.many isDigit)) (.opt (.one (· == chr '/')))

/-- `^alarm?`: in the source a backslash stands before the question mark, which is but another way
to write it in a C string. So the `m` is optional, not a slash. -/
def rxAla : Rx := .cat (.word (ascii "alar")) (.opt (.one fun b => toLower b == chr 'm'))

def rxSet : Rx := rxWord "settings"
def rxSta : Rx := rxWord "statistics"
def rxStr : Rx := rxWord "structure"
def rxSys : Rx := rxWord "system"
def rxInt : Rx := rxWord "interface"
def rxTex : Rx := rxWord "text"
def rxJso : Rx := rxWord "json"
def rxUnc : Rx := rxWord "uncached"
def rxUna : Rx := rxWord "unaliased"
def rxSim : Rx := rxWord "simultaneous"
def rxThe : Rx := rxWord "thermostat"

/-- `\.` -/
def rxExtension : Rx := .one (· == chr '.')

/-- `\.all$` -/
def rxAll : Rx := .word (ascii ".all")

/-- `\.byte$` -/
def rxByte : Rx := .word (ascii ".byte")

/-- `\.[[:digit:]]+$` -/
def rxNumber : Rx := .cat (.one (· == chr '.')) (.group (.many isDigit))

/-- `\.[[:alpha:]]$` -/
def rxLetter : Rx := .cat (.one (· == chr '.')) (.group (.one isAlpha))

/-- `ow_regexec` of a pattern that starts with `^`. -/
def matchesStart (r : Rx) (s : Bytes) : Bool := (r.execAtStart false s).isSome

/-! ## Devices -/

section

variable (env : Env)

/-- `SetKnownBus`; `none` when there is no such bus. -/
def setKnownBus (busNumber : Int) (pn : ParsedName) : Option ParsedName :=
  if env.connections.any (·.index == busNumber) then
    some { pn with
      state := { pn.state with bus := true }
      selectedConnection := some busNumber
      knownBus := some busNumber }
  else none

/-- `SetKnownBus` where its result is not looked at. -/
def trySetKnownBus (busNumber : Int) (pn : ParsedName) : ParsedName :=
  (setKnownBus env busNumber pn).getD pn

/-- `UnsetKnownBus` -/
def unsetKnownBus (pn : ParsedName) : ParsedName :=
  { pn with state := { pn.state with bus := false }, knownBus := none, selectedConnection := none }

/-- `FS_devicefindhex` -/
def fsDevicefindhex (f : Byte) (pn : ParsedName) : Device :=
  if env.tree pn.type (num2string f) then .listed (num2string f)
  else if env.tree pn.type (num2string (f ^^^ 0x80)) then .listed (num2string (f ^^^ 0x80))
  else .unknown

/-- `FS_devicefind` -/
def fsDevicefind (code : Bytes) (pn : ParsedName) : Device :=
  if env.tree pn.type code then .listed code else .unknown

/-- `CheckPresence`: the bus of the device, `none` for `INDEX_BAD`. -/
def checkPresence (pn : ParsedName) : Option Int × ParsedName :=
  if pn.type ≠ .real then (some 0, pn)
  else if pn.selectedDevice = some deviceSimultaneous ∨
      pn.selectedDevice = some deviceThermostat then
    (some 0, pn)
  else if pn.state.bus then (pn.knownBus, pn)
  else match env.cacheGetDevice pn with
    | some busNr => (some busNr, trySetKnownBus env busNr pn)
    | none => match env.checkPresenceLow pn with
      | some busNr => (some busNr, trySetKnownBus env busNr pn)
      | none => (none, unsetKnownBus pn)

/-- `find_segment_in_path`: the offset of a segment that is exactly this one. -/
def findSegmentInPath (segment : Bytes) : Bytes → Option Nat
  | [] => none
  | b :: rest =>
    if (chr '/' :: segment).isPrefixOf (b :: rest)
        && (match rest.drop segment.length with | [] => true | c :: _ => c == chr '/') then
      some 1
    else (findSegmentInPath segment rest).map (· + 1)

/-- `ReplaceAliasInPath` -/
def replaceAliasInPath (filename : Bytes) (pn : ParsedName) : ParsedName :=
  if pn.pathToServer.length + 14 - filename.length ≤ pathMax then
    match findSegmentInPath filename pn.pathToServer with
    | some loc => { pn with
        pathToServer := pn.pathToServer.take loc ++ bytes2string (pn.sn.bytes.take 7)
          ++ pn.pathToServer.drop (loc + filename.length) }
    | none => pn
  else pn

/-- `Parse_RealDeviceSN` -/
def parseRealDeviceSN (remoteStatus : ParsePass) (pn : ParsedName) : ParseEnum × ParsedName :=
  let pn := { pn with selectedDevice := some (fsDevicefindhex env pn.sn.family pn) }
  -- "returning from owserver -- don't need to check presence"
  if remoteStatus = .postRemote then (.prop, pn)
  else if env.oneDevice then (.prop, trySetKnownBus env 0 pn)
  else match checkPresence env pn with
    | (none, pn) => (.error, pn)
    | (some _, pn) => (.prop, pn)

/-- `Parse_External_Device` -/
def parseExternalDevice (family : Bytes) (pn : ParsedName) : ParseEnum × ParsedName :=
  (.prop, trySetKnownBus env env.externalIndex
    { pn with selectedDevice := some (.external family) })

/-- `Parse_Alias_Known` -/
def parseAliasKnown (filename : Bytes) (remoteStatus : ParsePass) (pn : ParsedName) :
    ParseEnum × ParsedName :=
  parseRealDeviceSN env remoteStatus
    (if remoteStatus = .preRemote then replaceAliasInPath filename pn else pn)

/-- What a segment leads to. There is no result once free memory was read. -/
abbrev Parsed := Option (ParseEnum × ParsedName × Table)

/-- `Parse_Alias` -/
def parseAlias (filename : Bytes) (remoteStatus : ParsePass) (pn : ParsedName) (t : Table) :
    Parsed := do
  match ← cacheGetAliasSN filename t with
  | some sn =>
    let (pe, pn) := parseAliasKnown env filename remoteStatus { pn with sn }
    some (pe, pn, t)
  | none =>
    -- "By definition this is a remote device, or non-existent."
    let pn := { pn with selectedDevice := some .remote }
    match env.cacheGetAliasBus filename with
    | some bus => some (.prop, trySetKnownBus env bus pn, t)
    | none => match env.remoteAlias pn with
      | none => some (.error, pn, t)
      | some (bus, sn) =>
        let pn := trySetKnownBus env bus { pn with sn }
        -- "no serial number owserver (older)"
        if sn.bytes.getD 0 0 = 0 ∧ sn.bytes.getD 7 0 = 0 then some (.prop, pn, t)
        else
          let (_, t) ← t.cacheAddAlias env.markers env.now filename sn
          some (.prop, { pn with selectedDevice := some (fsDevicefindhex env sn.family pn) }, t)

/-- `Parse_RealDevice` -/
def parseRealDevice (filename : Bytes) (remoteStatus : ParsePass) (pn : ParsedName) (t : Table) :
    Parsed :=
  let pn := { pn with deviceName := findSegmentInPath filename pn.path }
  match parseSerialNumber filename with
  | .notSn => match env.findExternalSensor filename with
    | some family =>
      let (pe, pn) := parseExternalDevice env family pn
      some (pe, pn, t)
    | none => parseAlias env filename remoteStatus pn t
  | .valid sn =>
    let (pe, pn) := parseRealDeviceSN env remoteStatus { pn with sn }
    some (pe, pn, t)
  | .invalid => some (.error, pn, t)

/-- `Parse_NonRealDevice` -/
def parseNonRealDevice (filename : Bytes) (pn : ParsedName) : ParseEnum × ParsedName :=
  let device := fsDevicefind env filename pn
  (if device = .unknown then .error else .prop,
    { pn with deviceName := findSegmentInPath filename pn.path, selectedDevice := some device })

/-! ## Properties -/

/-- `EXTENSION_ALL` -/
def extensionAll : Int := -1

/-- `EXTENSION_BYTE` -/
def extensionByte : Int := -2

/-- `BranchAdd` -/
def branchAdd (ft : Filetype) (pn : ParsedName) : ParsedName :=
  { pn with
    bp := pn.bp ++ [⟨pn.sn, ft.data⟩]
    selectedFiletype := none
    selectedDevice := none }

/-- The number or letter at the end of a segment, by the text of its group. -/
def extensionOf (r : Rx) (value : Bytes → Int) (filename : Bytes) : Option Int :=
  match r.exec true filename with
  | some ⟨_, [some text], _⟩ => some (value text)
  | _ => none

/-- `Parse_Property`: the extension, once the filetype is found. `post` is the text after the first
dot, if there is one. -/
def parseExtension (filename : Bytes) (post : Option Bytes) (ft : Filetype) (pn : ParsedName) :
    Option ParsedName :=
  match post, ft.ag with
  | none, none => some { pn with extension := 0 }
  -- "aggregate filetypes need an extension"
  | none, some _ => none
  -- "Non-aggregate cannot have an extension"
  | some _, none => none
  | some post, some ag =>
    if ag.combined = .sparse then
      if ft.letters then some { pn with extension := 0, sparseName := some post }
      else (extensionOf rxNumber atoi filename).map fun extension => { pn with extension }
    else if (rxAll.exec true filename).isSome then some { pn with extension := extensionAll }
    else if ft.format = .bitfield ∧ (rxByte.exec true filename).isSome then
      some { pn with extension := extensionByte }
    else do
      let extension ←
        if ft.letters then
          extensionOf rxLetter (fun text => (toUpper (text.getD 0 0)).toNat - (chr 'A').toNat)
            filename
        else extensionOf rxNumber atoi filename
      if extension < 0 ∨ extension ≥ ag.elements then none else some { pn with extension }

/-- `Parse_Property`. The array of properties is sorted, so `bsearch` finds the one of this name. -/
def parseProperty (filename : Bytes) (pn : ParsedName) : ParseEnum × ParsedName :=
  match pn.selectedDevice with
  | none => (.error, pn)
  -- "remote device, no known sn, handle property in server."
  | some .remote => (.done, pn)
  | some pdev =>
    let dot := rxExtension.exec false filename
    let name := (dot.map Rx.Match.pre).getD filename
    let ft := (env.filetypeArray pdev).find? (·.name == name)
    let pn := { pn with selectedFiletype := ft }
    match ft with
    | none => (.error, pn)
    | some ft =>
      match parseExtension filename (dot.map Rx.Match.post) ft pn with
      | none => (.error, pn)
      | some pn =>
        match ft.format with
        | .directory =>
          -- "special case, structure for aux and main"
          if pn.type = .struct then (.done, pn) else (.branch, branchAdd ft pn)
        | .subdir => (.subprop, { pn with subdir := some ft, selectedFiletype := none })
        | _ => (.done, pn)

/-! ## Segments -/

/-- `SpecifiedBus` -/
def ParsedName.specifiedBus (pn : ParsedName) : Bool := pn.state.buslocal || pn.state.busremote

/-- `set_type`. The bit `ePS_busanylocal` goes into `type`, which is then overwritten. -/
def setType (type : PnType) (pn : ParsedName) : ParseEnum × ParsedName :=
  if pn.state.buslocal then (.error, pn) else (.nonreal, { pn with type })

/-- `Parse_Bus`. `INDEX_BAD` is -1. -/
def parseBus (busNumber : Int) (pn : ParsedName) : ParseEnum × ParsedName :=
  if busNumber = -1 then (.error, pn)
  -- "too many levels of bus for a non-remote adapter"
  else if pn.state.buslocal then (.error, pn)
  -- "Let the remote bus do the heavy lifting"
  else if pn.state.busremote then
    (.first, { pn with state := { pn.state with busveryremote := true } })
  else match setKnownBus env busNumber pn with
    | none => (.error, pn)
    | some pn =>
      let server :=
        ((env.connections.find? (·.index == busNumber)).map Connection.server).getD false
      let pn := if server then { pn with state := { pn.state with busremote := true } }
        else { pn with
          state := { pn.state with buslocal := true }
          controlFlags := pn.controlFlags &&& ~~~shouldReturnBusList }
      -- "Create the path without the "bus.x" part"
      match rxPBus.execAtStart false pn.path with
      | some (_, post) => (.first, { pn with pathToServer := chr '/' :: post })
      | none => (.first, pn)

/-- `Parse_Real` -/
def parseReal (pathnow : Bytes) (remoteStatus : ParsePass) (pn : ParsedName) (t : Table) : Parsed :=
  if matchesStart rxSim pathnow then
    some (.prop, { pn with selectedDevice := some deviceSimultaneous }, t)
  else if matchesStart rxTex pathnow then
    some (.real, { pn with state := { pn.state with text := true } }, t)
  else if matchesStart rxJso pathnow then
    some (.real, { pn with state := { pn.state with json := true } }, t)
  else if matchesStart rxThe pathnow then
    some (.prop, { pn with selectedDevice := some deviceThermostat }, t)
  else if matchesStart rxUnc pathnow then
    some (.real, { pn with state := { pn.state with uncached := true } }, t)
  else if matchesStart rxUna pathnow then
    some (.real, { pn with state := { pn.state with unaliased := true } }, t)
  else parseRealDevice env pathnow remoteStatus pn t

/-- `Parse_Branch` -/
def parseBranch (pathnow : Bytes) (remoteStatus : ParsePass) (pn : ParsedName) (t : Table) :
    Parsed :=
  if matchesStart rxAla pathnow then
    some (.real, { pn with state := { pn.state with alarm := true }, type := .real }, t)
  else parseReal env pathnow remoteStatus pn t

/-- `Parse_NonReal` -/
def parseNonReal (pathnow : Bytes) (pn : ParsedName) : ParseEnum × ParsedName :=
  if matchesStart rxTex pathnow then (.nonreal, { pn with state := { pn.state with text := true } })
  else if matchesStart rxJso pathnow
    then (.nonreal, { pn with state := { pn.state with json := true } })
  else if matchesStart rxUnc pathnow then
    (.nonreal, { pn with state := { pn.state with uncached := true } })
  else if matchesStart rxUna pathnow then
    (.nonreal, { pn with state := { pn.state with unaliased := true } })
  else parseNonRealDevice env pathnow pn

/-- `Parse_Unspecified` -/
def parseUnspecified (pathnow : Bytes) (remoteStatus : ParsePass) (pn : ParsedName) (t : Table) :
    Parsed :=
  let alone (r : ParseEnum × ParsedName) : Parsed := some (r.1, r.2, t)
  match rxBus.execAtStart false pathnow with
  | some (captures, _) => alone (parseBus env (atoi ((captures.getD 0 none).getD [])) pn)
  | none =>
    if matchesStart rxSet pathnow then alone (setType .settings pn)
    else if matchesStart rxSta pathnow then alone (setType .statistics pn)
    else if matchesStart rxStr pathnow then alone (setType .struct pn)
    else if matchesStart rxSys pathnow then alone (setType .system pn)
    else if matchesStart rxInt pathnow then
      alone (if pn.specifiedBus then (.nonreal, { pn with type := .interface }) else (.error, pn))
    else if matchesStart rxTex pathnow then
      alone (.first, { pn with state := { pn.state with text := true } })
    else if matchesStart rxJso pathnow then
      alone (.first, { pn with state := { pn.state with json := true } })
    else if matchesStart rxUnc pathnow then
      alone (.first, { pn with state := { pn.state with uncached := true } })
    else if matchesStart rxUna pathnow then
      alone (.first, { pn with state := { pn.state with unaliased := true } })
    else parseBranch env pathnow remoteStatus { pn with type := .real } t

/-! ## The loop -/

/-- What `FS_ParsedName_anywhere` keeps between segments: the position of the next segment in
`pathcpy`, and the text from `pathlast` on. -/
structure Pointers where
  offset : Nat := 0
  pathlast : Bytes := []

/-- One segment, in the state `pe`. -/
def parseSegment (remoteStatus : ParsePass) (pe : ParseEnum) (pathnow : Bytes) (pp : Pointers)
    (pn : ParsedName) (t : Table) : Option (ParseEnum × ParsedName × Pointers × Table) :=
  let next : Pointers := { pp with offset := pp.offset + pathnow.length + 1 }
  match pe with
  | .first => do
    let (pe, pn, t) ← parseUnspecified env pathnow remoteStatus pn t
    some (pe, pn, next, t)
  | .real => do
    let (pe, pn, t) ← parseReal env pathnow remoteStatus pn t
    some (pe, pn, next, t)
  | .branch => do
    let (pe, pn, t) ← parseBranch env pathnow remoteStatus pn t
    some (pe, pn, next, t)
  | .nonreal =>
    let (pe, pn) := parseNonReal env pathnow pn
    some (pe, pn, next, t)
  | .prop =>
    let (pe, pn) := parseProperty env pathnow { pn with dirlength := pp.offset + 1 }
    some (pe, pn, { next with pathlast := pathnow }, t)
  | .subprop =>
    let pathlast := pp.pathlast ++ chr '/' :: pathnow
    let (pe, pn) := parseProperty env pathlast pn
    some (pe, pn, { next with pathlast }, t)
  | .done | .error => some (pe, pn, next, t)

/-- "Play with remote levels" -/
def finish (pn : ParsedName) : ParsedName :=
  match pn.type with
  | .interface =>
    if pn.state.busveryremote then { pn with state := { pn.state with busveryremote := false } }
    else if pn.state.busremote then
      { pn with state := { pn.state with busremote := false, buslocal := true } }
    else pn
  | .root => { pn with type := .real }
  | _ =>
    if pn.state.busremote then { pn with state := { pn.state with busveryremote := true } } else pn

/-- The return codes of the parser. -/
inductive ParseCode where
  /-- 26 -/
  | pathTooLong
  /-- 27 -/
  | badPathSyntax
  /-- 77 -/
  | extraText
deriving DecidableEq, Repr

/-- The loop of `FS_ParsedName_anywhere` over the segments that `pathnext` still holds. -/
def parseLoop (remoteStatus : ParsePass) : List Bytes → ParseEnum → Pointers → ParsedName → Table →
    Option (Except ParseCode ParsedName × Table)
  | pathnext, .done, _, pn, t =>
    some (if pathnext = [] then .ok (finish pn) else .error .extraText, t)
  | _, .error, _, _, t => some (.error .badPathSyntax, t)
  | [], _, _, pn, t => some (.ok (finish pn), t)
  | pathnow :: pathnext, pe, pp, pn, t =>
    -- "test next path segment for existence"
    if pathnow = [] then
      some (if pathnext = [] then .ok (finish pn) else .error .extraText, t)
    else do
      let (pe, pn, pp, t) ← parseSegment env remoteStatus pe pathnow pp pn t
      parseLoop remoteStatus pathnext pe pp pn t

/-- `FS_ParsedName_setup`: the path starts with exactly one slash that was put there. -/
def fsParsedNameSetup (path : Bytes) : ParsedName :=
  let path := chr '/' :: (if path.head? = some (chr '/') then path.tail else path)
  { path
    pathToServer := path
    state := { uncached := env.uncached, unaliased := env.unaliased }
    dirlength := path.length
    controlFlags := env.localControlFlags ||| shouldReturnBusList }

/-- `FS_ParsedName_anywhere` -/
def fsParsedNameAnywhere (path : Bytes) (remoteStatus : ParsePass) (t : Table) :
    Option (Except ParseCode ParsedName × Table) :=
  if path.length > pathMax then some (.error .pathTooLong, t)
  else
    let pn := fsParsedNameSetup env path
    parseLoop env remoteStatus (splitSep (chr '/') pn.path.tail) .first {} pn t

/-- `FS_ParsedName` -/
def fsParsedName (path : Bytes) (t : Table) : Option (Except ParseCode ParsedName × Table) :=
  fsParsedNameAnywhere env path .preRemote t

end

end Owfs.Path
