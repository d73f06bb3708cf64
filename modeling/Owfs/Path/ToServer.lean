import Owfs.Infra.Segments
import Owfs.Path.DeviceName
import Owfs.Path.AliasName

/-!
# The path for a server

A path whose bus belongs to another owserver is sent there, but the name of the bus means nothing to
the other server, and an alias that is known here need not be known there. So `FS_ParsedName` also
makes `path_to_server`, without the bus and with serial numbers for the aliases.

The bus is looked for at the start of the path only, and without regard to where its segment ends.
The first segment that is equal to an alias is replaced, not the one that was read as this alias,
and none is replaced if the path gets too long. Here the path is followed through the parser, up to
a function on the list of its segments (`rewritten`).
-/

namespace Owfs.Path

open Infra Owfs.Cache Owfs.Device Owfs.Alias

/-! ## How segments are read -/

/-- What a segment was read as: the bus, an alias that is known here, or something else. Only the
first bus counts. -/
inductive Role where
  | plain
  | bus
  | known (sn : SerialNumber)

/-- The patterns that `Parse_Real` tries before it looks for a device. -/
def realWords : List Rx := [rxSim, rxTex, rxJso, rxThe, rxUnc, rxUna]

/-- The same for `Parse_Branch` -/
def branchWords : List Rx := rxAla :: realWords

/-- The same for `Parse_Unspecified` -/
def firstWords : List Rx :=
  [rxBus, rxSet, rxSta, rxStr, rxSys, rxInt, rxTex, rxJso, rxUnc, rxUna] ++ branchWords

/-- Whether a segment is given to `Parse_RealDevice`. -/
def readAsDevice (pe : ParseEnum) (segment : Bytes) : Bool :=
  match pe with
  | .first => !firstWords.any (matchesStart · segment)
  | .branch => !branchWords.any (matchesStart · segment)
  | .real => !realWords.any (matchesStart · segment)
  | _ => false

section

variable (env : Env)

/-- What `Parse_RealDevice` reads a segment as. -/
def deviceRole (segment : Bytes) (t : Table) : Role :=
  if parseSerialNumber segment = .notSn ∧ env.findExternalSensor segment = none then
    match cacheGetAliasSN segment t with
    | some (some sn) => .known sn
    | _ => .plain
  else .plain

def role (pe : ParseEnum) (segment : Bytes) (pn : ParsedName) (t : Table) : Role :=
  if pe = .first ∧ matchesStart rxBus segment = true ∧ pn.specifiedBus = false then .bus
  else if readAsDevice pe segment = true then deviceRole env segment t
  else .plain

/-- The segments that the parser goes through. It stops at an empty one. -/
def readings : List Bytes → ParseEnum → Pointers → ParsedName → Table → List (Bytes × Role)
  | [], _, _, _, _ => []
  | segment :: segments, pe, pp, pn, t =>
    if segment = [] then (segment :: segments).map fun s => (s, .plain)
    else
      match parseSegment env .preRemote pe segment pp pn t with
      | none => []
      | some (pe', pn', pp', t') =>
          (segment, role env pe segment pn t) :: readings segments pe' pp' pn' t'

/-- The segments of a path, as `FS_ParsedName` reads them. -/
def pathReadings (path : Bytes) (t : Table) : List (Bytes × Role) :=
  readings env (splitSep (chr '/') (fsParsedNameSetup env path).path.tail) .first {}
    (fsParsedNameSetup env path) t

end

/-- The fourteen digits of a serial number. -/
def digits (sn : SerialNumber) : Bytes := bytes2string (sn.bytes.take 7)

/-! ## Replacing a segment -/

section

variable {segment : Bytes}

/-- There is no slash within a segment, so nothing is found there. -/
theorem findSegmentInPath_append {x : Bytes} (hx : chr '/' ∉ x) (s : Bytes) :
    findSegmentInPath segment (x ++ s) = (findSegmentInPath segment s).map (· + x.length) := by
  induction x with
  | nil => simp
  | cons b x ih =>
    rw [List.mem_cons, not_or] at hx
    have hne : (chr '/' == b) = false := by simpa using hx.1
    rw [List.cons_append, findSegmentInPath, List.isPrefixOf_cons_cons, hne, ih hx.2,
      Option.map_map]
    rfl

/-- A segment that is followed by nothing or by a slash is the one before the first slash. -/
theorem eq_of_append_eq {x y s u : Bytes} (hx : chr '/' ∉ x) (hy : chr '/' ∉ y)
    (hs : s = [] ∨ ∃ s', s = chr '/' :: s') (hu : u = [] ∨ ∃ u', u = chr '/' :: u')
    (h : x ++ s = y ++ u) : x = y := by
  have htake {z v : Bytes} (hz : chr '/' ∉ z) (hv : v = [] ∨ ∃ v', v = chr '/' :: v') :
      (z ++ v).takeWhile (· != chr '/') = z := by
    have hall : ∀ b ∈ z, (b != chr '/') = true := by
      intro b hb
      exact bne_iff_ne.mpr fun he => hz (he ▸ hb)
    rw [List.takeWhile_append_of_pos hall]
    obtain rfl | ⟨v', rfl⟩ := hv
    · simp
    · simp
  rw [← htake hx hs, h, htake hy hu]

/-- What `find_segment_in_path` finds at the start of a path. -/
theorem findSegmentInPath_cons {x s : Bytes} (hsegment : chr '/' ∉ segment) (hx : chr '/' ∉ x)
    (hs : s = [] ∨ ∃ s', s = chr '/' :: s') :
    findSegmentInPath segment (chr '/' :: (x ++ s)) =
      if x = segment then some 1 else (findSegmentInPath segment (x ++ s)).map (· + 1) := by
  rw [findSegmentInPath]
  refine if_congr ?_ rfl rfl
  rw [Bool.and_eq_true, List.isPrefixOf_iff_prefix, List.cons_prefix_cons]
  constructor
  · rintro ⟨⟨-, u, hu⟩, hnext⟩
    refine eq_of_append_eq hx hsegment hs ?_ hu.symm
    rw [← hu, List.drop_left] at hnext
    cases u with
    | nil => exact .inl rfl
    | cons c u => exact .inr ⟨u, by rw [beq_iff_eq.mp hnext]⟩
  · rintro rfl
    refine ⟨⟨rfl, List.prefix_append _ _⟩, ?_⟩
    rw [List.drop_left]
    obtain rfl | ⟨s', rfl⟩ := hs
    · rfl
    · exact beq_self_eq_true _

/-- The path after `ReplaceAliasInPath`, without the check of its length. -/
def replaceSegment (segment new path : Bytes) : Bytes :=
  match findSegmentInPath segment path with
  | some loc => path.take loc ++ new ++ path.drop (loc + segment.length)
  | none => path

theorem replaceSegment_append {new y s : Bytes}
    (h : findSegmentInPath segment (y ++ s) = (findSegmentInPath segment s).map (· + y.length)) :
    replaceSegment segment new (y ++ s) = y ++ replaceSegment segment new s := by
  rw [replaceSegment, h, replaceSegment]
  cases findSegmentInPath segment s with
  | none => rfl
  | some loc =>
    have hdrop : (y ++ s).drop (loc + y.length + segment.length) =
        s.drop (loc + segment.length) := by
      rw [List.drop_append, List.drop_eq_nil_of_le (by omega), List.nil_append]
      congr 1
      omega
    rw [Option.map_some]
    dsimp only
    rw [hdrop, List.take_append, List.take_of_length_le (by omega), Nat.add_sub_cancel]
    simp

theorem flatMap_slash (xs : List Bytes) :
    xs.flatMap (chr '/' :: ·) = [] ∨ ∃ s', xs.flatMap (chr '/' :: ·) = chr '/' :: s' := by
  cases xs with
  | nil => exact .inl rfl
  | cons y ys => exact .inr ⟨_, rfl⟩

/-- The first segment that is equal is replaced. -/
theorem replaceSegment_flatMap (hsegment : chr '/' ∉ segment) (new : Bytes) {xs : List Bytes}
    (hxs : ∀ x ∈ xs, chr '/' ∉ x) :
    replaceSegment segment new (xs.flatMap (chr '/' :: ·)) =
      (xs.replace segment new).flatMap (chr '/' :: ·) := by
  induction xs with
  | nil => rfl
  | cons x xs ih =>
    rw [List.forall_mem_cons] at hxs
    have hstart := findSegmentInPath_cons hsegment hxs.1 (flatMap_slash xs)
    rw [List.flatMap_cons]
    by_cases hx : x = segment
    · subst hx
      rw [if_pos rfl] at hstart
      rw [replaceSegment, List.cons_append, hstart]
      simp [Nat.add_comm 1]
    · have hfind : findSegmentInPath segment (chr '/' :: x ++ xs.flatMap (chr '/' :: ·))
          = (findSegmentInPath segment (xs.flatMap (chr '/' :: ·))).map
            (· + (chr '/' :: x).length) := by
        rw [List.cons_append, hstart, if_neg hx, findSegmentInPath_append hxs.1, Option.map_map]
        rfl
      have hne : (segment == x) = false := beq_eq_false_iff_ne.mpr (Ne.symm hx)
      rw [replaceSegment_append hfind, ih hxs.2, List.replace_cons, hne, List.flatMap_cons]

theorem pathToServer_replaceAliasInPath (segment : Bytes) (pn : ParsedName) :
    (replaceAliasInPath segment pn).pathToServer =
    if pn.pathToServer.length + 14 - segment.length ≤ pathMax then
      replaceSegment segment (digits pn.sn) pn.pathToServer
    else pn.pathToServer := by
  rw [replaceAliasInPath, replaceSegment]
  split
  · cases findSegmentInPath segment pn.pathToServer with
    | none => rfl
    | some loc => rfl
  · rfl

/-- What an alias does to the path for the server. -/
theorem replaceAliasInPath_separated (hsegment : chr '/' ∉ segment) {pn : ParsedName}
    {xs : List Bytes} (hne : xs ≠ []) (hxs : ∀ x ∈ xs, chr '/' ∉ x)
    (hpath : pn.pathToServer = separated (chr '/') xs) :
    (replaceAliasInPath segment pn).pathToServer = separated (chr '/')
      (if (separated (chr '/') xs).length + 14 - segment.length ≤ pathMax then
        xs.replace segment (digits pn.sn) else xs) := by
  rw [pathToServer_replaceAliasInPath, hpath]
  split
  · have hne' : xs.replace segment (digits pn.sn) ≠ [] :=
      List.ne_nil_of_length_pos (by rw [List.length_replace]; exact List.length_pos_iff.mpr hne)
    rw [separated_eq_flatMap _ hne', separated_eq_flatMap _ hne]
    exact replaceSegment_flatMap hsegment (digits pn.sn) hxs
  · rfl

theorem path_replaceAliasInPath (segment : Bytes) (pn : ParsedName) :
    (replaceAliasInPath segment pn).path = pn.path := by
  rw [replaceAliasInPath]
  split
  · cases findSegmentInPath segment pn.pathToServer with
    | none => rfl
    | some loc => rfl
  · rfl

end

/-! ## One segment -/

section

variable (env : Env)

/-- The path for the server after a segment. -/
def pathAfter (segment : Bytes) (pn : ParsedName) : Role → Bytes
  | .plain => pn.pathToServer
  | .bus => match rxPBus.execAtStart false pn.path with
    | some (_, post) => chr '/' :: post
    | none => pn.pathToServer
  | .known sn => (replaceAliasInPath segment { pn with sn }).pathToServer

theorem pathAfter_congr {segment : Bytes} {pn pn' : ParsedName} {r : Role}
    (hpath : pn'.path = pn.path) (hserver : pn'.pathToServer = pn.pathToServer) :
    pathAfter segment pn' r = pathAfter segment pn r := by
  cases r with
  | plain => exact hserver
  | bus => simp only [pathAfter, hpath, hserver]
  | known sn => simp only [pathAfter, pathToServer_replaceAliasInPath, hserver]

/-- Both paths are as they were. -/
def SamePaths (pn pn' : ParsedName) : Prop :=
  pn'.path = pn.path ∧ pn'.pathToServer = pn.pathToServer

theorem samePaths_trySetKnownBus (busNumber : Int) (pn : ParsedName) :
    SamePaths pn (trySetKnownBus env busNumber pn) := by
  rw [trySetKnownBus, setKnownBus]
  split <;> exact ⟨rfl, rfl⟩

theorem samePaths_checkPresence (pn : ParsedName) : SamePaths pn (checkPresence env pn).2 := by
  unfold checkPresence
  split
  · exact ⟨rfl, rfl⟩
  · split
    · exact ⟨rfl, rfl⟩
    · split
      · exact ⟨rfl, rfl⟩
      · split
        · exact samePaths_trySetKnownBus env _ pn
        · split
          · exact samePaths_trySetKnownBus env _ pn
          · exact ⟨rfl, rfl⟩

theorem samePaths_parseRealDeviceSN (pass : ParsePass) (pn : ParsedName) :
    (parseRealDeviceSN env pass pn).1 ≠ .first ∧ SamePaths pn
    (parseRealDeviceSN env pass pn).2 := by
  unfold parseRealDeviceSN
  dsimp only
  split
  · exact ⟨ParseEnum.noConfusion, rfl, rfl⟩
  · split
    · exact ⟨ParseEnum.noConfusion, samePaths_trySetKnownBus env _ _⟩
    · have hpresence := samePaths_checkPresence env
        { pn with selectedDevice := some (fsDevicefindhex env pn.sn.family pn) }
      split
      · rename_i heq
        rw [heq] at hpresence
        exact ⟨ParseEnum.noConfusion, hpresence⟩
      · rename_i heq
        rw [heq] at hpresence
        exact ⟨ParseEnum.noConfusion, hpresence⟩

theorem parseAlias_paths {segment : Bytes} {pn pn' : ParsedName} {t t' : Table} {pe : ParseEnum}
    (h : parseAlias env segment .preRemote pn t = some (pe, pn', t')) :
    pe ≠ .first ∧ pn'.path = pn.path ∧ pn'.pathToServer = pathAfter segment pn
      (match cacheGetAliasSN segment t with | some (some sn) => .known sn | _ => .plain) := by
  rw [parseAlias] at h
  cases hget : cacheGetAliasSN segment t with
  | none =>
    rw [hget] at h
    cases h
  | some known =>
    rw [hget] at h
    cases known with
    | some sn =>
      have hdevice :=
        samePaths_parseRealDeviceSN env .preRemote (replaceAliasInPath segment { pn with sn })
      cases h
      refine ⟨hdevice.1, hdevice.2.1.trans (path_replaceAliasInPath _ _), ?_⟩
      exact hdevice.2.2
    | none =>
      simp only [Option.bind_eq_bind, Option.bind_some] at h
      split at h
      · cases h
        exact ⟨ParseEnum.noConfusion, samePaths_trySetKnownBus env _ _⟩
      · split at h
        · cases h
          exact ⟨ParseEnum.noConfusion, rfl, rfl⟩
        · rename_i bus sn _
          have hbus :=
            samePaths_trySetKnownBus env bus { pn with selectedDevice := some .remote, sn }
          split at h
          · cases h
            exact ⟨ParseEnum.noConfusion, hbus⟩
          · obtain ⟨x, -, h⟩ := Option.bind_eq_some_iff.mp h
            cases h
            exact ⟨ParseEnum.noConfusion, hbus⟩

/-- What a device does to the paths. -/
theorem parseRealDevice_paths {segment : Bytes} {pn pn' : ParsedName} {t t' : Table}
    {pe : ParseEnum} (h : parseRealDevice env segment .preRemote pn t = some (pe, pn', t')) :
    pe ≠ .first ∧ pn'.path = pn.path ∧
      pn'.pathToServer = pathAfter segment pn (deviceRole env segment t) := by
  rw [parseRealDevice] at h
  dsimp only at h
  rw [deviceRole]
  cases hparse : parseSerialNumber segment with
  | valid sn =>
    rw [hparse] at h
    cases h
    rw [if_neg (fun h => ParseSerialNumber.noConfusion h.1)]
    exact samePaths_parseRealDeviceSN env .preRemote _
  | invalid =>
    rw [hparse] at h
    cases h
    rw [if_neg (fun h => ParseSerialNumber.noConfusion h.1)]
    exact ⟨ParseEnum.noConfusion, rfl, rfl⟩
  | notSn =>
    rw [hparse] at h
    dsimp only at h
    cases hsensor : env.findExternalSensor segment with
    | some family =>
      rw [hsensor] at h
      cases h
      rw [if_neg (fun h => Option.some_ne_none _ h.2)]
      exact ⟨ParseEnum.noConfusion, samePaths_trySetKnownBus env _ _⟩
    | none =>
      rw [hsensor] at h
      rw [if_pos ⟨rfl, rfl⟩]
      obtain ⟨hpe, hpath, hserver⟩ := parseAlias_paths env h
      exact ⟨hpe, hpath, hserver.trans (pathAfter_congr rfl rfl)⟩

theorem not_matchesStart {words : List Rx} {segment : Bytes}
    (h : (!words.any (matchesStart · segment)) = true) :
    ∀ r ∈ words, ¬matchesStart r segment = true := by
  simpa using h

theorem parseReal_paths {segment : Bytes} {pn pn' : ParsedName} {t t' : Table} {pe : ParseEnum}
    (h : parseReal env segment .preRemote pn t = some (pe, pn', t')) :
    pe ≠ .first ∧ pn'.path = pn.path ∧ pn'.pathToServer = pathAfter segment pn
      (if readAsDevice .real segment = true then deviceRole env segment t else .plain) := by
  unfold parseReal at h
  by_cases hdevice : readAsDevice .real segment = true
  · have hwords := not_matchesStart hdevice
    rw [realWords] at hwords
    simp only [List.forall_mem_cons] at hwords
    obtain ⟨hsim, htex, hjso, hthe, hunc, huna, -⟩ := hwords
    rw [if_neg hsim, if_neg htex, if_neg hjso, if_neg hthe, if_neg hunc, if_neg huna] at h
    rw [if_pos hdevice]
    exact parseRealDevice_paths env h
  · rw [if_neg hdevice]
    split at h
    · cases h
      exact ⟨ParseEnum.noConfusion, rfl, rfl⟩
    · split at h
      · cases h
        exact ⟨ParseEnum.noConfusion, rfl, rfl⟩
      · split at h
        · cases h
          exact ⟨ParseEnum.noConfusion, rfl, rfl⟩
        · split at h
          · cases h
            exact ⟨ParseEnum.noConfusion, rfl, rfl⟩
          · split at h
            · cases h
              exact ⟨ParseEnum.noConfusion, rfl, rfl⟩
            · split at h
              · cases h
                exact ⟨ParseEnum.noConfusion, rfl, rfl⟩
              · exact absurd (by simp [readAsDevice, realWords, *]) hdevice

theorem parseBranch_paths {segment : Bytes} {pn pn' : ParsedName} {t t' : Table} {pe : ParseEnum}
    (h : parseBranch env segment .preRemote pn t = some (pe, pn', t')) :
    pe ≠ .first ∧ pn'.path = pn.path ∧ pn'.pathToServer = pathAfter segment pn
      (if readAsDevice .branch segment = true then deviceRole env segment t else .plain) := by
  have hbranch : readAsDevice .branch segment =
      (!matchesStart rxAla segment && readAsDevice .real segment) := by
    simp [readAsDevice, branchWords]
  unfold parseBranch at h
  rw [hbranch]
  split at h
  · rename_i hala
    cases h
    rw [hala]
    exact ⟨ParseEnum.noConfusion, rfl, rfl⟩
  · rename_i hala
    rw [Bool.eq_false_of_not_eq_true hala]
    exact parseReal_paths env h

theorem parseNonReal_paths (segment : Bytes) (pn : ParsedName) :
    (parseNonReal env segment pn).1 ≠ .first ∧ SamePaths pn (parseNonReal env segment pn).2 := by
  unfold parseNonReal parseNonRealDevice
  split_ifs
  case neg =>
    dsimp only
    split <;> exact ⟨ParseEnum.noConfusion, rfl, rfl⟩
  all_goals exact ⟨ParseEnum.noConfusion, rfl, rfl⟩

theorem samePaths_parseExtension {segment : Bytes} {post : Option Bytes} {ft : Filetype}
    {pn pn' : ParsedName} (h : parseExtension segment post ft pn = some pn') :
    SamePaths pn pn' := by
  unfold parseExtension at h
  split at h
  · cases h
    exact ⟨rfl, rfl⟩
  · cases h
  · cases h
  · split at h
    · split at h
      · cases h
        exact ⟨rfl, rfl⟩
      · obtain ⟨_, -, rfl⟩ := Option.map_eq_some_iff.mp h
        exact ⟨rfl, rfl⟩
    · split at h
      · cases h
        exact ⟨rfl, rfl⟩
      · split at h
        · cases h
          exact ⟨rfl, rfl⟩
        · dsimp only at h
          split at h
          all_goals
            obtain ⟨_, -, h⟩ := Option.bind_eq_some_iff.mp h
            split at h
            · cases h
            · cases h
              exact ⟨rfl, rfl⟩

theorem parseProperty_paths (segment : Bytes) (pn : ParsedName) :
    (parseProperty env segment pn).1 ≠ .first ∧ SamePaths pn (parseProperty env segment pn).2 := by
  unfold parseProperty
  split
  · exact ⟨ParseEnum.noConfusion, rfl, rfl⟩
  · exact ⟨ParseEnum.noConfusion, rfl, rfl⟩
  · dsimp only
    split
    · exact ⟨ParseEnum.noConfusion, rfl, rfl⟩
    · split
      · exact ⟨ParseEnum.noConfusion, rfl, rfl⟩
      · rename_i hextension
        have hsame := samePaths_parseExtension hextension
        split
        · split
          · exact ⟨ParseEnum.noConfusion, hsame⟩
          · exact ⟨ParseEnum.noConfusion, hsame⟩
        · exact ⟨ParseEnum.noConfusion, hsame⟩
        · exact ⟨ParseEnum.noConfusion, hsame⟩

/-- What the name of a bus does. Another bus after the first is left to the server. -/
theorem parseBus_paths (segment : Bytes) (n : Int) (pn : ParsedName)
    (h : (parseBus env n pn).1 ≠ .error) :
    (parseBus env n pn).2.path = pn.path ∧ (parseBus env n pn).2.specifiedBus = true ∧
      (parseBus env n pn).2.pathToServer = pathAfter segment pn
      (if pn.specifiedBus = false then .bus else .plain) := by
  revert h
  unfold parseBus
  by_cases hbad : n = -1
  · rw [if_pos hbad]
    exact fun h => absurd rfl h
  rw [if_neg hbad]
  by_cases hlocal : pn.state.buslocal = true
  · rw [if_pos hlocal]
    exact fun h => absurd rfl h
  rw [if_neg hlocal]
  by_cases hremote : pn.state.busremote = true
  · have hspecified : pn.specifiedBus = true := by simp [ParsedName.specifiedBus, hremote]
    rw [if_pos hremote, hspecified]
    exact fun _ => ⟨rfl, by simp [ParsedName.specifiedBus, hremote], rfl⟩
  · have hspecified : pn.specifiedBus = false := by simp [ParsedName.specifiedBus, hremote, hlocal]
    rw [if_neg hremote, if_pos hspecified, setKnownBus]
    by_cases hknown : (env.connections.any (·.index == n)) = true
    · rw [if_pos hknown]
      dsimp only
      generalize (Option.map Connection.server _).getD false = server
      intro _
      rw [pathAfter]
      cases server with
      | false =>
        rw [if_neg Bool.false_ne_true]
        cases rxPBus.execAtStart false pn.path with
        | none => exact ⟨rfl, rfl, rfl⟩
        | some m => exact ⟨rfl, rfl, rfl⟩
      | true =>
        rw [if_pos rfl]
        cases rxPBus.execAtStart false pn.path with
        | none => exact ⟨rfl, Bool.or_true _, rfl⟩
        | some m => exact ⟨rfl, Bool.or_true _, rfl⟩
    · rw [if_neg hknown]
      exact fun h => absurd rfl h

theorem setType_paths (type : PnType) (pn : ParsedName) :
    (setType type pn).1 ≠ .first ∧ SamePaths pn (setType type pn).2 := by
  unfold setType
  split <;> exact ⟨ParseEnum.noConfusion, rfl, rfl⟩

/-- What a segment at the start of the path does. -/
theorem parseUnspecified_paths {segment : Bytes} {pn pn' : ParsedName} {t t' : Table}
    {pe : ParseEnum} (h : parseUnspecified env segment .preRemote pn t = some (pe, pn', t'))
    (herror : pe ≠ .error) :
    pn'.path = pn.path ∧ pn'.pathToServer = pathAfter segment pn (role env .first segment pn t) ∧
      (pe = .first → (matchesStart rxBus segment = true ∨ pn.specifiedBus = true →
      pn'.specifiedBus = true) ∧
        ∀ sn, role env .first segment pn t ≠ .known sn) := by
  unfold parseUnspecified at h
  rw [role]
  cases hbus : rxBus.execAtStart false segment with
  | some m =>
    have hmatch : matchesStart rxBus segment = true := by rw [matchesStart, hbus]; rfl
    have hdevice : readAsDevice .first segment = false := by simp [readAsDevice, firstWords, hmatch]
    have hpaths := parseBus_paths env segment (atoi ((m.1.getD 0 none).getD [])) pn
    rw [hbus] at h
    cases h
    obtain ⟨hpath, hspecified, hserver⟩ := hpaths herror
    rw [hmatch, hdevice]
    refine ⟨hpath, ?_, ?_⟩
    · rw [hserver]
      simp
    · intro _
      refine ⟨fun _ => hspecified, fun sn => ?_⟩
      split <;> simp
  | none =>
    have hmatch : matchesStart rxBus segment = false := by rw [matchesStart, hbus]; rfl
    rw [hbus] at h
    dsimp only at h
    rw [hmatch, if_neg (by simp)]
    have haway {r : ParseEnum × ParsedName} (hr : r.1 ≠ .first ∧ SamePaths pn r.2) :
        r.2.path = pn.path ∧ r.2.pathToServer = pathAfter segment pn .plain ∧
          (r.1 = .first → (false = true ∨ pn.specifiedBus = true → r.2.specifiedBus = true) ∧
            ∀ sn, Role.plain ≠ .known sn) :=
      ⟨hr.2.1, hr.2.2, fun hfirst => absurd hfirst hr.1⟩
    have hmode {pn' : ParsedName} (hsame : SamePaths pn pn')
        (hspecified : pn'.specifiedBus = pn.specifiedBus) :
        pn'.path = pn.path ∧ pn'.pathToServer = pathAfter segment pn .plain ∧
          (ParseEnum.first = .first →
          (false = true ∨ pn.specifiedBus = true → pn'.specifiedBus = true) ∧
            ∀ sn, Role.plain ≠ .known sn) :=
      ⟨hsame.1, hsame.2, fun _ =>
        ⟨fun h => hspecified.trans (h.resolve_left Bool.false_ne_true), by simp⟩⟩
    by_cases hwords : ∀ r ∈ [rxSet, rxSta, rxStr, rxSys, rxInt, rxTex, rxJso, rxUnc, rxUna],
      ¬matchesStart r segment = true
    · have hdevice : readAsDevice .first segment = readAsDevice .branch segment := by
        simp only [List.forall_mem_cons] at hwords
        simp [readAsDevice, firstWords, hmatch, hwords]
      simp only [List.forall_mem_cons] at hwords
      obtain ⟨hset, hsta, hstr, hsys, hint, htex, hjso, hunc, huna, -⟩ := hwords
      rw [if_neg hset, if_neg hsta, if_neg hstr, if_neg hsys, if_neg hint, if_neg htex, if_neg hjso,
        if_neg hunc, if_neg huna] at h
      obtain ⟨hpe, hpath, hserver⟩ := parseBranch_paths env h
      refine ⟨hpath, ?_, fun hfirst => absurd hfirst hpe⟩
      rw [hserver, hdevice]
      exact pathAfter_congr rfl rfl
    · have hdevice : readAsDevice .first segment = false := by
        simp only [not_forall, not_not] at hwords
        obtain ⟨r, hr, hmatches⟩ := hwords
        have hmem : r ∈ firstWords := List.mem_append_left _ (List.mem_cons_of_mem _ hr)
        rw [readAsDevice, Bool.not_eq_false', List.any_eq_true]
        exact ⟨r, hmem, hmatches⟩
      rw [hdevice, if_neg Bool.false_ne_true]
      by_cases hset : matchesStart rxSet segment = true
      · rw [if_pos hset] at h
        cases h
        exact haway (setType_paths .settings pn)
      rw [if_neg hset] at h
      by_cases hsta : matchesStart rxSta segment = true
      · rw [if_pos hsta] at h
        cases h
        exact haway (setType_paths .statistics pn)
      rw [if_neg hsta] at h
      by_cases hstr : matchesStart rxStr segment = true
      · rw [if_pos hstr] at h
        cases h
        exact haway (setType_paths .struct pn)
      rw [if_neg hstr] at h
      by_cases hsys : matchesStart rxSys segment = true
      · rw [if_pos hsys] at h
        cases h
        exact haway (setType_paths .system pn)
      rw [if_neg hsys] at h
      by_cases hint : matchesStart rxInt segment = true
      · rw [if_pos hint] at h
        by_cases hspecified : pn.specifiedBus = true
        · rw [if_pos hspecified] at h
          cases h
          exact haway ⟨ParseEnum.noConfusion, rfl, rfl⟩
        · rw [if_neg hspecified] at h
          cases h
          exact absurd rfl herror
      rw [if_neg hint] at h
      by_cases htex : matchesStart rxTex segment = true
      · rw [if_pos htex] at h
        cases h
        exact hmode ⟨rfl, rfl⟩ rfl
      rw [if_neg htex] at h
      by_cases hjso : matchesStart rxJso segment = true
      · rw [if_pos hjso] at h
        cases h
        exact hmode ⟨rfl, rfl⟩ rfl
      rw [if_neg hjso] at h
      by_cases hunc : matchesStart rxUnc segment = true
      · rw [if_pos hunc] at h
        cases h
        exact hmode ⟨rfl, rfl⟩ rfl
      rw [if_neg hunc] at h
      by_cases huna : matchesStart rxUna segment = true
      · rw [if_pos huna] at h
        cases h
        exact hmode ⟨rfl, rfl⟩ rfl
      · simp only [List.forall_mem_cons] at hwords
        exact absurd ⟨hset, hsta, hstr, hsys, hint, htex, hjso, hunc, huna, by simp⟩ hwords

/-- What a segment does to the paths, unless it is an error. -/
theorem parseSegment_paths {segment : Bytes} {pe pe' : ParseEnum} {pp pp' : Pointers}
    {pn pn' : ParsedName} {t t' : Table}
    (h : parseSegment env .preRemote pe segment pp pn t = some (pe', pn', pp', t'))
    (herror : pe' ≠ .error) :
    pn'.path = pn.path ∧ pn'.pathToServer = pathAfter segment pn (role env pe segment pn t) ∧
      (pe' = .first → pe = .first ∧
      (matchesStart rxBus segment = true ∨ pn.specifiedBus = true → pn'.specifiedBus = true) ∧
        ∀ sn, role env pe segment pn t ≠ .known sn) := by
  have hrole {pe : ParseEnum} (hpe : pe ≠ .first) :
      role env pe segment pn t = if readAsDevice pe segment = true then deviceRole env segment t
        else .plain :=
    if_neg fun h => hpe h.1
  unfold parseSegment at h
  cases pe with
  | first =>
    obtain ⟨⟨_, _, _⟩, hparse, h⟩ := Option.bind_eq_some_iff.mp h
    cases h
    obtain ⟨hpath, hserver, hfirst⟩ := parseUnspecified_paths env hparse herror
    exact ⟨hpath, hserver, fun h => ⟨rfl, hfirst h⟩⟩
  | real =>
    obtain ⟨⟨_, _, _⟩, hparse, h⟩ := Option.bind_eq_some_iff.mp h
    cases h
    rw [hrole ParseEnum.noConfusion]
    obtain ⟨hpe, hpath, hserver⟩ := parseReal_paths env hparse
    exact ⟨hpath, hserver, fun h => absurd h hpe⟩
  | branch =>
    obtain ⟨⟨_, _, _⟩, hparse, h⟩ := Option.bind_eq_some_iff.mp h
    cases h
    rw [hrole ParseEnum.noConfusion]
    obtain ⟨hpe, hpath, hserver⟩ := parseBranch_paths env hparse
    exact ⟨hpath, hserver, fun h => absurd h hpe⟩
  | nonreal =>
    obtain ⟨hpe, hsame⟩ := parseNonReal_paths env segment pn
    cases h
    rw [hrole ParseEnum.noConfusion]
    exact ⟨hsame.1, hsame.2, fun h => absurd h hpe⟩
  | prop =>
    obtain ⟨hpe, hsame⟩ := parseProperty_paths env segment { pn with dirlength := pp.offset + 1 }
    cases h
    rw [hrole ParseEnum.noConfusion]
    exact ⟨hsame.1, hsame.2, fun h => absurd h hpe⟩
  | subprop =>
    obtain ⟨hpe, hsame⟩ := parseProperty_paths env (pp.pathlast ++ chr '/' :: segment) pn
    cases h
    rw [hrole ParseEnum.noConfusion]
    exact ⟨hsame.1, hsame.2, fun h => absurd h hpe⟩
  | done =>
    cases h
    rw [hrole ParseEnum.noConfusion]
    exact ⟨rfl, rfl, nofun⟩
  | error =>
    cases h
    exact absurd rfl herror

end

/-! ## The bus at the start -/

/-- What follows the number of a bus in its segment. -/
def busTail (segment : Bytes) : Bytes := (segment.drop 4).dropWhile isDigit

/-- Nothing without a slash goes beyond a segment. -/
theorem prefix_of_prefix_append {w x s : Bytes} (hw : chr '/' ∉ w)
    (hs : s = [] ∨ ∃ s', s = chr '/' :: s') (h : w <+: x ++ s) :
    w <+: x := by
  obtain hx | ⟨v, rfl⟩ := List.prefix_or_prefix_of_prefix h (List.prefix_append x s)
  · exact hx
  · rw [List.prefix_append_right_inj] at h
    cases v with
    | nil => rw [List.append_nil]
    | cons b v =>
      obtain rfl | ⟨s', rfl⟩ := hs
      · simp at h
      · obtain rfl := (List.cons_prefix_cons.mp h).1
        simp at hw

/-- Whether a text starts with the name of a bus. -/
def StartsBus (s : Bytes) : Prop :=
  ascii "bus." <+: s.map toLower ∧ (s.drop 4).head?.any isDigit = true

theorem takeWhile_isDigit_ne_nil_iff (s : Bytes) :
    s.takeWhile isDigit ≠ [] ↔ s.head?.any isDigit = true := by
  cases s with
  | nil => simp
  | cons b s => by_cases hb : isDigit b = true <;> simp [hb]

theorem four_le_length {s : Bytes} (h : ascii "bus." <+: s.map toLower) : 4 ≤ s.length := by
  have hlen : (ascii "bus.").length ≤ (s.map toLower).length := h.length_le
  rwa [List.length_map] at hlen

theorem run_word_bus {w : Bytes} (hlower : w.map toLower = w) (s : Bytes) :
    (Rx.word w).run s = if w <+: s.map toLower then [([], s.drop w.length)] else [] := by
  rw [Rx.run_word, hlower]

theorem matchesStart_rxBus_iff (s : Bytes) : matchesStart rxBus s = true ↔ StartsBus s := by
  have hrun : rxBus.run s = [] ↔ ¬StartsBus s := by
    rw [rxBus, Rx.run_cat_opt_eq_nil_iff, Rx.run_cat, run_word_bus (by decide), StartsBus,
      ← takeWhile_isDigit_ne_nil_iff]
    by_cases hbus : ascii "bus." <+: s.map toLower
    · have hmany : (Rx.many isDigit).run (s.drop (ascii "bus.").length) = [] ↔
          (s.drop 4).takeWhile isDigit = [] :=
        Rx.run_many_eq_nil_iff isDigit _
      rw [if_pos hbus, List.flatMap_singleton, List.map_eq_nil_iff, Rx.run, List.map_eq_nil_iff,
        hmany, not_and, not_not]
      exact ⟨fun h _ => h, fun h => h hbus⟩
    · rw [if_neg hbus]
      exact ⟨fun _ h => hbus h.1, fun _ => rfl⟩
  rw [matchesStart, ← Option.ne_none_iff_isSome, ne_eq, Rx.execAtStart_eq_none_iff, hrun, not_not]

theorem startsBus_append {x s : Bytes} (hs : s = [] ∨ ∃ s', s = chr '/' :: s') :
    StartsBus (x ++ s) ↔ StartsBus x := by
  have hs' : s.map toLower = [] ∨ ∃ s', s.map toLower = chr '/' :: s' := by
    obtain rfl | ⟨s', rfl⟩ := hs
    · exact .inl rfl
    · exact .inr ⟨_, rfl⟩
  have hbegins : ascii "bus." <+: (x ++ s).map toLower ↔ ascii "bus." <+: x.map toLower := by
    rw [List.map_append]
    exact ⟨prefix_of_prefix_append (by decide) hs', fun h => h.trans (List.prefix_append _ _)⟩
  rw [StartsBus, StartsBus, hbegins]
  refine and_congr_right fun hbus => ?_
  rw [List.drop_append_of_le_length (four_le_length hbus)]
  cases x.drop 4 with
  | nil =>
    obtain rfl | ⟨s', rfl⟩ := hs
    · rfl
    · have hslash : ¬isDigit (chr '/') = true := by decide
      exact iff_of_false hslash (by decide)
  | cons b u => rfl

/-- The digits of a bus do not go beyond its segment. -/
theorem busTail_append {x s : Bytes} (hx : StartsBus x) (hs : s = [] ∨ ∃ s', s = chr '/' :: s') :
    busTail (x ++ s) = busTail x ++ s := by
  have hself : s.dropWhile isDigit = s := by
    obtain rfl | ⟨s', rfl⟩ := hs
    · rfl
    · exact List.dropWhile_cons_of_neg (by decide)
  rw [busTail, busTail, List.drop_append_of_le_length (four_le_length hx.1), List.dropWhile_append,
    hself]
  split
  · rename_i hempty
    rw [List.isEmpty_iff.mp hempty, List.nil_append]
  · rfl

theorem run_slash_bus (s : Bytes) : (Rx.word (ascii "/bus.")).run (chr '/' :: s) =
    if ascii "bus." <+: s.map toLower then [([], s.drop 4)] else [] := by
  rw [run_word_bus (by decide)]
  refine if_congr ?_ rfl rfl
  exact List.prefix_cons_inj _

theorem execAtStart_rxPBus_eq_none {s : Bytes} (h : ¬StartsBus s) :
    rxPBus.execAtStart false (chr '/' :: s) = none := by
  rw [Rx.execAtStart_eq_none_iff, rxPBus, Rx.run_cat_opt_eq_nil_iff, Rx.run_cat, run_slash_bus]
  split
  · rename_i hbus
    rw [List.flatMap_singleton, List.map_eq_nil_iff, Rx.run_many_eq_nil_iff]
    by_contra hdigits
    exact h ⟨hbus, (takeWhile_isDigit_ne_nil_iff _).mp hdigits⟩
  · rfl

theorem execAtStart_rxPBus {s : Bytes} (h : StartsBus s) : rxPBus.execAtStart false (chr '/' :: s) =
    some ([], if (busTail s).head?.any (· == chr '/') = true then (busTail s).tail
      else busTail s) := by
  have hword : ((Rx.word (ascii "/bus.")).run (chr '/' :: s)).head? = some ([], s.drop 4) := by
    rw [run_slash_bus, if_pos h.1]
    rfl
  have hmany := Rx.head?_run_many ((takeWhile_isDigit_ne_nil_iff _).mpr h.2)
  rw [Rx.execAtStart_false, rxPBus]
  exact Rx.head?_run_cat (Rx.head?_run_cat hword hmany) (Rx.head?_run_opt_one _ _)

/-- The rest of a path, after a segment. -/
theorem separated_cons (x : Bytes) (xs : List Bytes) :
    separated (chr '/') (x :: xs) = chr '/' :: (x ++ xs.flatMap (chr '/' :: ·)) := by
  rw [separated_eq_flatMap _ (List.cons_ne_nil x xs), List.flatMap_cons, List.cons_append]

/-- What `Parse_Bus` makes of a path that starts with a bus. -/
theorem pathAfter_bus_first {segment x : Bytes} {xs : List Bytes} (hslash : chr '/' ∉ x)
    (hbus : StartsBus x) {pn : ParsedName} (hpath : pn.path = separated (chr '/') (x :: xs)) :
    pathAfter segment pn .bus =
      separated (chr '/') (if busTail x = [] then xs else busTail x :: xs) := by
  have hrest := flatMap_slash xs
  rw [pathAfter, hpath, separated_cons, execAtStart_rxPBus ((startsBus_append hrest).mpr hbus),
    busTail_append hbus hrest]
  dsimp only
  cases htail : busTail x with
  | nil =>
    rw [if_pos rfl, List.nil_append]
    cases xs with
    | nil => rfl
    | cons y ys =>
      rw [separated_cons]
      rfl
  | cons b u =>
    have hb : (b == chr '/') = false := by
      refine beq_eq_false_iff_ne.mpr fun he => hslash ?_
      have hmem : b ∈ busTail x := htail ▸ List.mem_cons_self
      rw [← he]
      exact List.mem_of_mem_drop ((List.dropWhile_suffix _).subset hmem)
    rw [if_neg (List.cons_ne_nil b u), separated_cons, List.cons_append, List.head?_cons,
      Option.any_some, hb]
    rfl

/-- A path that does not start with a bus stays as it is. -/
theorem pathAfter_bus_later {segment x : Bytes} {xs : List Bytes} (hbus : ¬StartsBus x)
    {pn : ParsedName} (hpath : pn.path = separated (chr '/') (x :: xs)) :
    pathAfter segment pn .bus = pn.pathToServer := by
  rw [pathAfter, hpath, separated_cons, execAtStart_rxPBus_eq_none]
  rwa [startsBus_append (flatMap_slash xs)]

/-! ## All segments -/

/-- The segments of the path for the server, after one of them is read. A bus counts only at the
start. -/
def Role.rewrite (atStart : Bool) (xs : List Bytes) (segment : Bytes) : Role → List Bytes
  | .plain => xs
  | .bus => if atStart then if busTail segment = [] then xs.tail else busTail segment :: xs.tail
      else xs
  | .known sn =>
    if (separated (chr '/') xs).length + 14 - segment.length ≤ pathMax then
      xs.replace segment (digits sn)
    else xs

def rewritten : Bool → List Bytes → List (Bytes × Role) → List Bytes
  | _, xs, [] => xs
  | atStart, xs, (segment, r) :: rs => rewritten false (r.rewrite atStart xs segment) rs

/-- How segments can follow each other. There is at most one bus, and no device before it. -/
def WellRead : Bool → List (Bytes × Role) → Prop
  | _, [] => True
  | busAllowed, (segment, r) :: rs =>
    chr '/' ∉ segment ∧ (segment = [] → rs = []) ∧ match r with
      | .plain => ∃ b, (b = true → busAllowed = true) ∧ WellRead b rs
      | .bus => busAllowed = true ∧ StartsBus segment ∧ WellRead false rs
      | .known _ => parseSerialNumber segment = .notSn ∧ WellRead false rs

section

variable (env : Env)

theorem notSn_of_role_eq_known {pe : ParseEnum} {segment : Bytes} {pn : ParsedName} {t : Table}
    {sn : SerialNumber} (h : role env pe segment pn t = .known sn) :
    parseSerialNumber segment = .notSn := by
  rw [role] at h
  split at h
  · cases h
  · split at h
    · rw [deviceRole] at h
      split at h
      · rename_i hparse
        exact hparse.1
      · cases h
    · cases h

/-- The bus was not given yet and can be. -/
def BusOpen (pe : ParseEnum) (pn : ParsedName) : Prop := pe = .first ∧ pn.specifiedBus = false

instance (pe : ParseEnum) (pn : ParsedName) : Decidable (BusOpen pe pn) :=
  inferInstanceAs (Decidable (pe = .first ∧ pn.specifiedBus = false))

/-- What is known of the paths between two segments. -/
structure Keeps (atStart : Bool) (segments : List Bytes) (pe : ParseEnum) (pn : ParsedName)
    (xs : List Bytes) : Prop where
  server : pn.pathToServer = separated (chr '/') xs
  slash : ∀ x ∈ xs, chr '/' ∉ x
  ne_nil : segments ≠ [] → xs ≠ []
  path : BusOpen pe pn → pn.path = separated (chr '/') xs
  start : BusOpen pe pn → atStart = true → xs = segments
  later : BusOpen pe pn → atStart = false → ∃ y ys, xs = y :: ys ∧ ¬StartsBus y

theorem busOpen_of_role_eq_bus {pe : ParseEnum} {segment : Bytes} {pn : ParsedName} {t : Table}
    (h : role env pe segment pn t = .bus) : StartsBus segment ∧ BusOpen pe pn := by
  rw [role] at h
  split at h
  · rename_i hbus
    exact ⟨(matchesStart_rxBus_iff segment).mp hbus.2.1, hbus.1, hbus.2.2⟩
  · split at h
    · rw [deviceRole] at h
      split at h
      · split at h <;> cases h
      · cases h
    · cases h

/-- As long as a bus can follow, only modes were read. -/
theorem busOpen_of_parseSegment {segment : Bytes} {pe pe' : ParseEnum} {pp pp' : Pointers}
    {pn pn' : ParsedName} {t t' : Table}
    (h : parseSegment env .preRemote pe segment pp pn t = some (pe', pn', pp', t'))
    (herror : pe' ≠ .error) (hopen : BusOpen pe' pn') :
    BusOpen pe pn ∧ ¬StartsBus segment ∧ role env pe segment pn t = .plain := by
  obtain ⟨-, -, hfirst⟩ := parseSegment_paths env h herror
  obtain ⟨hpe, hspecified, hknown⟩ := hfirst hopen.1
  rw [matchesStart_rxBus_iff, hopen.2] at hspecified
  have hbus : ¬StartsBus segment := fun h => absurd (hspecified (.inl h)) Bool.false_ne_true
  refine ⟨⟨hpe, Bool.eq_false_of_not_eq_true fun h =>
    absurd (hspecified (.inr h)) Bool.false_ne_true⟩, hbus, ?_⟩
  cases hrole : role env pe segment pn t with
  | plain => rfl
  | bus => exact absurd (busOpen_of_role_eq_bus env hrole).1 hbus
  | known sn => exact absurd hrole (hknown sn)

theorem not_slash_mem_digits (sn : SerialNumber) : chr '/' ∉ digits sn := by
  intro hmem
  have hall := (hexDigits_bytes2string (sn.bytes.take 7)).2
  exact absurd (List.all_eq_true.mp hall _ hmem) (by decide)

theorem mem_replace {x segment new : Bytes} {xs : List Bytes} (h : x ∈ xs.replace segment new) :
    x ∈ xs ∨ x = new := by
  induction xs with
  | nil => cases h
  | cons y ys ih =>
    rw [List.replace_cons] at h
    split at h
    · obtain rfl | h := List.mem_cons.mp h
      · exact .inr rfl
      · exact .inl (List.mem_cons_of_mem _ h)
    · obtain rfl | h := List.mem_cons.mp h
      · exact .inl List.mem_cons_self
      · exact (ih h).imp (List.mem_cons_of_mem _) id

theorem Role.slash_rewrite {atStart : Bool} {xs : List Bytes} {segment : Bytes}
    (hslash : chr '/' ∉ segment) (hxs : ∀ x ∈ xs, chr '/' ∉ x) (r : Role) :
    ∀ x ∈ r.rewrite atStart xs segment, chr '/' ∉ x := by
  have htail : ∀ x ∈ xs.tail, chr '/' ∉ x := fun x hx => hxs x (List.mem_of_mem_tail hx)
  intro x hx
  cases r with
  | plain => exact hxs x hx
  | bus =>
    rw [Role.rewrite] at hx
    split at hx
    · split at hx
      · exact htail x hx
      · obtain rfl | hx := List.mem_cons.mp hx
        · exact fun hmem => hslash (List.mem_of_mem_drop ((List.dropWhile_suffix _).subset hmem))
        · exact htail x hx
    · exact hxs x hx
  | known sn =>
    rw [Role.rewrite] at hx
    split at hx
    · obtain hx | rfl := mem_replace hx
      · exact hxs x hx
      · exact not_slash_mem_digits sn
    · exact hxs x hx

/-- One segment keeps what is known of the paths. -/
theorem Keeps.step {atStart : Bool} {segment : Bytes} {segments xs : List Bytes}
    {pe pe' : ParseEnum} {pp pp' : Pointers} {pn pn' : ParsedName} {t t' : Table}
    (hk : Keeps atStart (segment :: segments) pe pn xs) (hslash : chr '/' ∉ segment)
    (h : parseSegment env .preRemote pe segment pp pn t = some (pe', pn', pp', t'))
    (herror : pe' ≠ .error) :
    Keeps false segments pe' pn' ((role env pe segment pn t).rewrite atStart xs segment) := by
  obtain ⟨hpath, hserver, -⟩ := parseSegment_paths env h herror
  have hxs := hk.ne_nil (List.cons_ne_nil _ _)
  refine ⟨?_, Role.slash_rewrite hslash hk.slash _, ?_, ?_, nofun, ?_⟩
  · rw [hserver]
    cases hrole : role env pe segment pn t with
    | plain => exact hk.server
    | bus =>
      obtain ⟨hbus, hopen'⟩ := busOpen_of_role_eq_bus env hrole
      cases atStart with
      | true =>
        obtain rfl := hk.start hopen' rfl
        exact pathAfter_bus_first hslash hbus (hk.path hopen')
      | false =>
        obtain ⟨y, ys, rfl, hy⟩ := hk.later hopen' rfl
        rw [pathAfter_bus_later hy (hk.path hopen')]
        exact hk.server
    | known sn => exact replaceAliasInPath_separated hslash hxs hk.slash hk.server
  · intro hsegments
    cases hrole : role env pe segment pn t with
    | plain => exact hxs
    | bus =>
      obtain ⟨hbus, hopen'⟩ := busOpen_of_role_eq_bus env hrole
      cases atStart with
      | true =>
        obtain rfl := hk.start hopen' rfl
        rw [Role.rewrite, if_pos rfl]
        split
        · exact hsegments
        · exact List.cons_ne_nil _ _
      | false => exact hxs
    | known sn =>
      rw [Role.rewrite]
      split
      · exact List.ne_nil_of_length_pos
          (by rw [List.length_replace]; exact List.length_pos_iff.mpr hxs)
      · exact hxs
  · intro h'
    obtain ⟨hopen', -, hrole⟩ := busOpen_of_parseSegment env h herror h'
    rw [hpath, hrole]
    exact hk.path hopen'
  · intro h' _
    obtain ⟨hopen', hbus, hrole⟩ := busOpen_of_parseSegment env h herror h'
    rw [hrole, Role.rewrite]
    cases atStart with
    | true => exact ⟨segment, segments, hk.start hopen' rfl, hbus⟩
    | false => exact hk.later hopen' rfl

theorem pathToServer_finish (pn : ParsedName) : (finish pn).pathToServer = pn.pathToServer := by
  unfold finish
  split
  · split
    · rfl
    · split <;> rfl
  · rfl
  · split <;> rfl

theorem parseLoop_nil {pe : ParseEnum} {pp : Pointers} {pn pn' : ParsedName} {t t' : Table}
    (h : parseLoop env .preRemote [] pe pp pn t = some (.ok pn', t')) : pn' = finish pn := by
  cases pe <;> cases h <;> rfl

/-- How the loop goes on if there is another segment. -/
theorem parseLoop_cons {segment : Bytes} {segments : List Bytes} {pe : ParseEnum} {pp : Pointers}
    {pn pn' : ParsedName} {t t' : Table}
    (h : parseLoop env .preRemote (segment :: segments) pe pp pn t = some (.ok pn', t')) :
    segment = [] ∧ segments = [] ∧ pn' = finish pn ∨
      segment ≠ [] ∧ ∃ pe₁ pn₁ pp₁ t₁,
      parseSegment env .preRemote pe segment pp pn t = some (pe₁, pn₁, pp₁, t₁) ∧
        parseLoop env .preRemote segments pe₁ pp₁ pn₁ t₁ = some (.ok pn', t') := by
  have hnext : pe ≠ .done ∧ pe ≠ .error := by
    constructor
    · rintro rfl
      rw [parseLoop, if_neg (List.cons_ne_nil _ _)] at h
      cases h
    · rintro rfl
      cases h
  rw [parseLoop] at h
  · by_cases hsegment : segment = []
    · rw [if_pos hsegment] at h
      by_cases hsegments : segments = []
      · rw [if_pos hsegments] at h
        cases h
        exact .inl ⟨hsegment, hsegments, rfl⟩
      · rw [if_neg hsegments] at h
        cases h
    · rw [if_neg hsegment] at h
      obtain ⟨⟨pe₁, pn₁, pp₁, t₁⟩, hstep, hloop⟩ := Option.bind_eq_some_iff.mp h
      exact .inr ⟨hsegment, pe₁, pn₁, pp₁, t₁, hstep, hloop⟩
  · exact hnext.1
  · exact hnext.2

theorem parseLoop_error_ne {segments : List Bytes} {pp : Pointers} {pn pn' : ParsedName}
    {t t' : Table} :
    parseLoop env .preRemote segments .error pp pn t ≠ some (.ok pn', t') := by
  cases segments <;> nofun

/-- The path for the server after the loop. -/
theorem parseLoop_paths {segments : List Bytes} :
    ∀ {atStart : Bool} {xs : List Bytes} {pe : ParseEnum} {pp : Pointers}
    {pn pn' : ParsedName} {t t' : Table},
    (∀ s ∈ segments, chr '/' ∉ s) → Keeps atStart segments pe pn xs →
    parseLoop env .preRemote segments pe pp pn t = some (.ok pn', t') →
    pn'.pathToServer = separated (chr '/')
    (rewritten atStart xs (readings env segments pe pp pn t)) ∧
      WellRead (decide (BusOpen pe pn)) (readings env segments pe pp pn t) := by
  induction segments with
  | nil =>
    intro atStart xs pe pp pn pn' t t' _ hk h
    rw [parseLoop_nil env h, pathToServer_finish]
    exact ⟨hk.server, trivial⟩
  | cons segment segments ih =>
    intro atStart xs pe pp pn pn' t t' hslash hk h
    rw [List.forall_mem_cons] at hslash
    obtain ⟨rfl, rfl, rfl⟩ | ⟨hsegment, pe₁, pn₁, pp₁, t₁, hstep, hloop⟩ := parseLoop_cons env h
    · rw [pathToServer_finish, readings, if_pos rfl]
      exact ⟨hk.server, hslash.1, fun _ => rfl, false, nofun, trivial⟩
    · have herror : pe₁ ≠ .error := by
        rintro rfl
        exact parseLoop_error_ne env hloop
      obtain ⟨hserver, hread⟩ := ih hslash.2 (hk.step env hslash.1 hstep herror) hloop
      rw [readings, if_neg hsegment, hstep]
      refine ⟨hserver, hslash.1, fun h => absurd h hsegment, ?_⟩
      have hopen := busOpen_of_parseSegment env hstep herror
      cases hrole : role env pe segment pn t with
      | plain => exact ⟨_, fun h => decide_eq_true (hopen (of_decide_eq_true h)).1, hread⟩
      | bus =>
        have hclosed : ¬BusOpen pe₁ pn₁ := by
          intro h
          rw [(hopen h).2.2] at hrole
          cases hrole
        rw [decide_eq_false hclosed] at hread
        obtain ⟨hbus, hopen'⟩ := busOpen_of_role_eq_bus env hrole
        exact ⟨decide_eq_true hopen', hbus, hread⟩
      | known sn =>
        have hclosed : ¬BusOpen pe₁ pn₁ := by
          intro h
          rw [(hopen h).2.2] at hrole
          cases hrole
        rw [decide_eq_false hclosed] at hread
        exact ⟨notSn_of_role_eq_known env hrole, hread⟩

/-- All segments of a path that is accepted are read. -/
theorem map_fst_readings {segments : List Bytes} :
    ∀ {pe : ParseEnum} {pp : Pointers} {pn pn' : ParsedName} {t t' : Table},
      parseLoop env .preRemote segments pe pp pn t = some (.ok pn', t') →
    (readings env segments pe pp pn t).map Prod.fst = segments := by
  induction segments with
  | nil => exact fun _ => rfl
  | cons segment segments ih =>
    intro pe pp pn pn' t t' h
    obtain ⟨rfl, rfl, -⟩ | ⟨hsegment, pe₁, pn₁, pp₁, t₁, hstep, hloop⟩ := parseLoop_cons env h
    · rfl
    · rw [readings, if_neg hsegment, hstep, List.map_cons, ih hloop]

end

end Owfs.Path
