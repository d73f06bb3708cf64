import Owfs.Path.Parse

/-!
# Which aliases can be reached

`Test_and_Add_Alias` refuses the names that the parser of paths reads differently, but the two do
not agree on which these are. It compares whole words in lower case; the parser looks for words at
the start of a segment, in either case, for more words, and before that for serial numbers and
external sensors. A name that is accepted leads to its device exactly when the parser leaves it
alone.
-/

namespace Owfs.Path

open Infra Owfs.Cache Owfs.Device Owfs.Alias

/-! ## Names that the parser takes -/

/-- The words that `Parse_Unspecified`, `Parse_Branch` and `Parse_Real` look for. -/
def parserWords : List Bytes :=
  [ascii "settings", ascii "statistics", ascii "structure", ascii "system", ascii "interface",
    ascii "text", ascii "json", ascii "uncached", ascii "unaliased", ascii "alar",
    ascii "simultaneous", ascii "thermostat"]

/-- `bus.` and a digit -/
def busName (name : Bytes) : Bool :=
  (ascii "bus.").isPrefixOf (name.map toLower) && ((name.drop 4).head?.map isDigit).getD false

/-- A name that starts with one of the parser's words, in either case. -/
def captured (name : Bytes) : Bool :=
  busName name || parserWords.any (·.isPrefixOf (name.map toLower))

theorem matchesStart_rxWord {w : String} (hw : (ascii w).map toLower = ascii w) (name : Bytes) :
    matchesStart (rxWord w) name = (ascii w).isPrefixOf (name.map toLower) := by
  rw [Bool.eq_iff_iff, matchesStart, Option.isSome_iff_ne_none, ne_eq, Rx.execAtStart_eq_none_iff,
    rxWord, Rx.run_cat_opt_eq_nil_iff, Rx.run_word, hw, List.isPrefixOf_iff_prefix]
  simp

theorem matchesStart_rxAla (name : Bytes) :
    matchesStart rxAla name = (ascii "alar").isPrefixOf (name.map toLower) := by
  rw [Bool.eq_iff_iff, matchesStart, Option.isSome_iff_ne_none, ne_eq, Rx.execAtStart_eq_none_iff,
    rxAla, Rx.run_cat_opt_eq_nil_iff, Rx.run_word, List.isPrefixOf_iff_prefix]
  simp [show (ascii "alar").map toLower = ascii "alar" by decide]

theorem matchesStart_rxBus (name : Bytes) : matchesStart rxBus name = busName name := by
  rw [Bool.eq_iff_iff, matchesStart, Option.isSome_iff_ne_none, ne_eq, Rx.execAtStart_eq_none_iff,
    rxBus, Rx.run_cat_opt_eq_nil_iff]
  simp only [Rx.run, Rx.run_word, show (ascii "bus.").map toLower = ascii "bus." by decide, busName,
    Bool.and_eq_true, List.isPrefixOf_iff_prefix]
  by_cases h : ascii "bus." <+: name.map toLower
  · have hlen : (ascii "bus.").length = 4 := by decide
    rw [if_pos h, List.flatMap_singleton, hlen]
    cases name.drop 4 with
    | nil => simp
    | cons d rest => by_cases hd : isDigit d = true <;> simp [h, hd]
  · simp [h]

/-- The words of the parser, one by one. -/
theorem captured_eq_false_iff (name : Bytes) : captured name = false ↔
    matchesStart rxBus name = false ∧ matchesStart rxSet name = false ∧
    matchesStart rxSta name = false ∧
    matchesStart rxStr name = false ∧ matchesStart rxSys name = false ∧
    matchesStart rxInt name = false ∧
    matchesStart rxTex name = false ∧ matchesStart rxJso name = false ∧
    matchesStart rxUnc name = false ∧
    matchesStart rxUna name = false ∧ matchesStart rxAla name = false ∧
    matchesStart rxSim name = false ∧
    matchesStart rxThe name = false := by
  simp only [captured, parserWords, List.any_cons, List.any_nil, Bool.or_false,
    Bool.or_eq_false_iff]
  rw [← matchesStart_rxBus, ← matchesStart_rxAla]
  simp only [rxSet, rxSta, rxStr, rxSys, rxInt, rxTex, rxJso, rxUnc, rxUna, rxSim, rxThe]
  repeat rw [matchesStart_rxWord (by decide)]

section

variable (env : Env) {name : Bytes} {sn : SerialNumber} {t : Table} {pn : ParsedName}

/-- **A name that is not captured is read as a device.** -/
theorem parseUnspecified_of_not_captured (h : captured name = false) (pass : ParsePass)
    (pn : ParsedName) (t : Table) :
    parseUnspecified env name pass pn t =
      parseRealDevice env name pass { pn with type := .real } t := by
  obtain ⟨hbus, hset, hsta, hstr, hsys, hint, htex, hjso, hunc, huna, hala, hsim, hthe⟩ :=
    (captured_eq_false_iff name).mp h
  rw [matchesStart, Option.isSome_eq_false_iff, Option.isNone_iff_eq_none] at hbus
  rw [parseUnspecified, hbus, parseBranch, parseReal]
  simp only [hset, hsta, hstr, hsys, hint, htex, hjso, hunc, huna, hala, hsim, hthe,
    Bool.false_eq_true, if_false]

/-- What a captured name selects is no device with a serial number. -/
def NoDevice (pn : ParsedName) : Prop :=
  pn.selectedDevice = none ∨ pn.selectedDevice = some deviceSimultaneous ∨
    pn.selectedDevice = some deviceThermostat

/-- The parser sets the bus, and nothing else of these. -/
theorem setKnownBus_frame {busNumber : Int} {pn' : ParsedName}
    (h : setKnownBus env busNumber pn = some pn') :
    pn'.selectedDevice = pn.selectedDevice ∧ pn'.sn = pn.sn ∧ pn'.type = pn.type := by
  unfold setKnownBus at h
  split at h
  · cases h
    exact ⟨rfl, rfl, rfl⟩
  · cases h

theorem trySetKnownBus_frame (busNumber : Int) (pn : ParsedName) :
    (trySetKnownBus env busNumber pn).selectedDevice = pn.selectedDevice ∧
      (trySetKnownBus env busNumber pn).sn = pn.sn ∧
      (trySetKnownBus env busNumber pn).type = pn.type := by
  unfold trySetKnownBus
  cases h : setKnownBus env busNumber pn with
  | none => exact ⟨rfl, rfl, rfl⟩
  | some pn' => exact setKnownBus_frame env h

theorem noDevice_setType {type : PnType} (h : pn.selectedDevice = none) :
    NoDevice (setType type pn).2 := by
  unfold setType
  split <;> exact .inl h

theorem noDevice_parseBus (busNumber : Int) (h : pn.selectedDevice = none) :
    NoDevice (parseBus env busNumber pn).2 := by
  refine .inl ?_
  unfold parseBus
  split
  · exact h
  split
  · exact h
  split
  · exact h
  split
  · exact h
  · rename_i pn' hset
    have hdevice := (setKnownBus_frame env hset).1.trans h
    dsimp only
    split <;> simp only [apply_ite ParsedName.selectedDevice, ite_self, hdevice]

theorem noDevice_parseReal (hdevice : pn.selectedDevice = none) {pass : ParsePass} {pe : ParseEnum}
    {pn' : ParsedName} {t' : Table} (hparse : parseReal env name pass pn t = some (pe, pn', t')) :
    NoDevice pn' ∨ matchesStart rxSim name = false ∧ matchesStart rxThe name = false := by
  unfold parseReal at hparse
  split at hparse
  · cases hparse
    exact .inl (.inr (.inl rfl))
  rename_i hsim
  split at hparse
  · cases hparse
    exact .inl (.inl hdevice)
  split at hparse
  · cases hparse
    exact .inl (.inl hdevice)
  split at hparse
  · cases hparse
    exact .inl (.inr (.inr rfl))
  rename_i hthe
  exact .inr ⟨Bool.eq_false_iff.mpr hsim, Bool.eq_false_iff.mpr hthe⟩

theorem noDevice_parseBranch (hdevice : pn.selectedDevice = none) {pass : ParsePass}
    {pe : ParseEnum} {pn' : ParsedName} {t' : Table}
    (hparse : parseBranch env name pass pn t = some (pe, pn', t')) :
    NoDevice pn' ∨
      matchesStart rxAla name = false ∧ matchesStart rxSim name = false ∧
      matchesStart rxThe name = false := by
  unfold parseBranch at hparse
  split at hparse
  · cases hparse
    exact .inl (.inl hdevice)
  · rename_i hala
    exact (noDevice_parseReal env hdevice hparse).imp_right fun h => ⟨Bool.eq_false_iff.mpr hala, h⟩

/-- **A captured name selects no device.** -/
theorem noDevice_parseUnspecified (h : captured name = true) (hdevice : pn.selectedDevice = none)
    {pass : ParsePass} {pe : ParseEnum} {pn' : ParsedName} {t' : Table}
    (hparse : parseUnspecified env name pass pn t = some (pe, pn', t')) : NoDevice pn' := by
  rw [parseUnspecified] at hparse
  split at hparse
  · cases hparse
    exact noDevice_parseBus env _ hdevice
  rename_i hbus
  rcases ite_eq_iff.mp hparse with ⟨-, hparse⟩ | ⟨hset, hparse⟩
  · cases hparse
    exact noDevice_setType hdevice
  rcases ite_eq_iff.mp hparse with ⟨-, hparse⟩ | ⟨hsta, hparse⟩
  · cases hparse
    exact noDevice_setType hdevice
  rcases ite_eq_iff.mp hparse with ⟨-, hparse⟩ | ⟨hstr, hparse⟩
  · cases hparse
    exact noDevice_setType hdevice
  rcases ite_eq_iff.mp hparse with ⟨-, hparse⟩ | ⟨hsys, hparse⟩
  · cases hparse
    exact noDevice_setType hdevice
  rcases ite_eq_iff.mp hparse with ⟨-, hparse⟩ | ⟨hint, hparse⟩
  · split at hparse <;> (cases hparse; exact .inl hdevice)
  rcases ite_eq_iff.mp hparse with ⟨-, hparse⟩ | ⟨htex, hparse⟩
  · cases hparse
    exact .inl hdevice
  rcases ite_eq_iff.mp hparse with ⟨-, hparse⟩ | ⟨hjso, hparse⟩
  · cases hparse
    exact .inl hdevice
  rcases ite_eq_iff.mp hparse with ⟨-, hparse⟩ | ⟨hunc, hparse⟩
  · cases hparse
    exact .inl hdevice
  rcases ite_eq_iff.mp hparse with ⟨-, hparse⟩ | ⟨huna, hparse⟩
  · cases hparse
    exact .inl hdevice
  have hdevice' : ({ pn with type := .real } : ParsedName).selectedDevice = none := hdevice
  rcases noDevice_parseBranch env hdevice' hparse with hno | ⟨hala, hsim, hthe⟩
  · exact hno
  · -- nothing is left that the name could start with
    have hfree : captured name = false := by
      have hbus' : matchesStart rxBus name = false := by
        rw [matchesStart, hbus]
        rfl
      rw [captured_eq_false_iff]
      exact ⟨hbus', Bool.eq_false_iff.mpr hset, Bool.eq_false_iff.mpr hsta,
        Bool.eq_false_iff.mpr hstr, Bool.eq_false_iff.mpr hsys, Bool.eq_false_iff.mpr hint,
        Bool.eq_false_iff.mpr htex, Bool.eq_false_iff.mpr hjso, Bool.eq_false_iff.mpr hunc,
        Bool.eq_false_iff.mpr huna, hala, hsim, hthe⟩
    rw [h] at hfree
    exact absurd hfree (by decide)

/-! ## Devices that are present -/

/-- The device answers in the root directory, or is known to: `CheckPresence` finds a bus. -/
def Env.Present (sn : SerialNumber) : Prop :=
  ∀ pn : ParsedName, pn.sn = sn → pn.bp = [] →
    (env.cacheGetDevice pn).isSome = true ∨ (env.checkPresenceLow pn).isSome = true

/-- The result of a parse is the device with this serial number. -/
structure Selects (sn : SerialNumber) (pn : ParsedName) : Prop where
  type_eq : pn.type = .real
  sn_eq : pn.sn = sn
  device_eq : pn.selectedDevice = some (fsDevicefindhex env sn.family pn)

variable {env}

theorem fsDevicefindhex_congr {pn pn' : ParsedName} (h : pn'.type = pn.type) (f : Byte) :
    fsDevicefindhex env f pn' = fsDevicefindhex env f pn := by
  unfold fsDevicefindhex
  rw [h]

theorem fsDevicefindhex_ne_external (f : Byte) (family : Bytes) :
    fsDevicefindhex env f pn ≠ .external family := by
  unfold fsDevicefindhex
  split_ifs <;> exact Device.noConfusion

/-- A family code has two digits. -/
theorem fsDevicefindhex_ne_listed {code : Bytes} (hcode : code.length ≠ 2) (f : Byte) :
    fsDevicefindhex env f pn ≠ .listed code := by
  unfold fsDevicefindhex
  intro h
  split_ifs at h <;> (cases h; exact hcode rfl)

theorem Selects.of_frame {pn pn' : ParsedName} (h : Selects env sn pn)
    (hframe : pn'.selectedDevice = pn.selectedDevice ∧ pn'.sn = pn.sn ∧ pn'.type = pn.type) :
    Selects env sn pn' where
  type_eq := hframe.2.2.trans h.type_eq
  sn_eq := hframe.2.1.trans h.sn_eq
  device_eq := by rw [hframe.1, h.device_eq, fsDevicefindhex_congr hframe.2.2]

theorem NoDevice.not_selects (h : NoDevice pn) : ¬ Selects env sn pn := by
  intro hs
  have hd := hs.device_eq
  rcases h with hn | hn | hn <;> rw [hn] at hd
  · cases hd
  · exact fsDevicefindhex_ne_listed (by decide) _ (Option.some.inj hd).symm
  · exact fsDevicefindhex_ne_listed (by decide) _ (Option.some.inj hd).symm

theorem checkPresence_frame (env : Env) (pn : ParsedName) :
    (checkPresence env pn).2.selectedDevice = pn.selectedDevice ∧
    (checkPresence env pn).2.sn = pn.sn ∧
      (checkPresence env pn).2.type = pn.type := by
  unfold checkPresence
  split
  · exact ⟨rfl, rfl, rfl⟩
  split
  · exact ⟨rfl, rfl, rfl⟩
  split
  · exact ⟨rfl, rfl, rfl⟩
  split
  · exact trySetKnownBus_frame env _ pn
  split
  · exact trySetKnownBus_frame env _ pn
  · exact ⟨rfl, rfl, rfl⟩

theorem sn_parseRealDeviceSN (pass : ParsePass) (pn : ParsedName) :
    (parseRealDeviceSN env pass pn).2.sn = pn.sn := by
  unfold parseRealDeviceSN
  dsimp only
  split
  · rfl
  split
  · exact (trySetKnownBus_frame env _ _).2.1
  split
  all_goals
    rename_i hcheck
    have := (checkPresence_frame env
      { pn with selectedDevice := some (fsDevicefindhex env pn.sn.family pn) }).2.1
    rw [hcheck] at this
    exact this

/-- **A device that is present is selected by its serial number.** -/
theorem selects_parseRealDeviceSN (pn : ParsedName) (hpresent : env.Present pn.sn)
    (hreal : pn.type = .real) (hroot : pn.bp = []) (hbus : pn.state.bus = false) :
    ∃ pn', parseRealDeviceSN env .preRemote pn = (.prop, pn') ∧ Selects env pn.sn pn' := by
  set named := { pn with selectedDevice := some (fsDevicefindhex env pn.sn.family pn) } with hnamed
  have hselects : Selects env pn.sn named := ⟨hreal, rfl, rfl⟩
  have hfound : (checkPresence env named).1.isSome = true := by
    unfold checkPresence
    split
    · rfl
    split
    · rfl
    rw [if_neg (by simp [hnamed, hbus])]
    cases hc : env.cacheGetDevice named with
    | some => rfl
    | none =>
      cases hl : env.checkPresenceLow named with
      | some => rfl
      | none =>
        rcases hpresent named rfl hroot with h | h
        · rw [hc] at h
          cases h
        · rw [hl] at h
          cases h
  rw [parseRealDeviceSN, if_neg (by decide)]
  split
  · exact ⟨_, rfl, hselects.of_frame (trySetKnownBus_frame env _ _)⟩
  have hframe := checkPresence_frame env named
  cases hcheck : checkPresence env named with
  | mk bus pn' =>
    rw [hcheck] at hfound hframe
    cases bus with
    | none => cases hfound
    | some bus => exact ⟨pn', rfl, hselects.of_frame hframe⟩

/-! ## The path of a name -/

/-- The path `/name` leads to the device. -/
def Resolves (env : Env) (t : Table) (name : Bytes) (sn : SerialNumber) : Prop :=
  ∃ pn t', fsParsedName env (chr '/' :: name) t = some (.ok pn, t') ∧ Selects env sn pn

/-- The parser leaves the name alone: it is no word of the parser, no external sensor, and no serial
number but that of the device itself. -/
def LeftAlone (env : Env) (sn : SerialNumber) (name : Bytes) : Prop :=
  captured name = false ∧ match parseSerialNumber name with
    | .notSn => env.findExternalSensor name = none
    | .valid sn' => sn' = sn
    | .invalid => False

theorem finish_frame (pn : ParsedName) :
    (finish pn).selectedDevice = pn.selectedDevice ∧ (finish pn).sn = pn.sn := by
  unfold finish
  repeat' split
  all_goals exact ⟨rfl, rfl⟩

theorem Selects.finish (h : Selects env sn pn) : Selects env sn (finish pn) := by
  refine h.of_frame ⟨(finish_frame pn).1, (finish_frame pn).2, ?_⟩
  simp only [Path.finish, h.type_eq]
  split
  · rfl
  · exact h.type_eq

theorem fsParsedName_name (hslash : chr '/' ∉ name) (hlen : name.length ≤ propertyLengthAlias)
    (hne : name ≠ []) (t : Table) :
    fsParsedName env (chr '/' :: name) t
      = (parseUnspecified env name .preRemote (fsParsedNameSetup env (chr '/' :: name)) t).map
        fun r => (if r.1 = .error then .error .badPathSyntax else .ok (finish r.2.1), r.2.2) := by
  have hmax : ¬ (chr '/' :: name).length > pathMax := by
    simp only [propertyLengthAlias, pathMax, List.length_cons] at hlen ⊢
    omega
  have hpath : (fsParsedNameSetup env (chr '/' :: name)).path.tail = name := rfl
  rw [fsParsedName, fsParsedNameAnywhere, if_neg hmax]
  simp only [hpath, splitSep_of_not_mem hslash]
  rw [parseLoop, if_neg hne, parseSegment]
  · cases parseUnspecified env name .preRemote (fsParsedNameSetup env (chr '/' :: name)) t with
    | none => rfl
    | some r =>
      obtain ⟨pe, pn, t'⟩ := r
      cases pe <;> rfl
  all_goals exact ParseEnum.noConfusion

/-- What `Parse_Unspecified` makes of the name decides. -/
theorem resolves_iff_unspecified (hslash : chr '/' ∉ name)
    (hlen : name.length ≤ propertyLengthAlias) (hne : name ≠ []) :
    Resolves env t name sn ↔ ∃ pe pn t',
      parseUnspecified env name .preRemote (fsParsedNameSetup env (chr '/' :: name)) t =
      some (pe, pn, t') ∧
        pe ≠ .error ∧ Selects env sn (finish pn) := by
  rw [Resolves, fsParsedName_name hslash hlen hne]
  constructor
  · rintro ⟨pn, t', hparse, hsel⟩
    obtain ⟨⟨pe, pn', t''⟩, hun, hr⟩ := Option.map_eq_some_iff.mp hparse
    split at hr
    · cases hr
    · rename_i hpe
      cases hr
      exact ⟨pe, pn', _, hun, hpe, hsel⟩
  · rintro ⟨pe, pn, t', hun, hpe, hsel⟩
    exact ⟨finish pn, t', by simp [hun, hpe], hsel⟩

theorem not_selects_external (family : Bytes) (h : pn.selectedDevice = some (.external family)) :
    ¬ Selects env sn pn := by
  intro hs
  rw [hs.device_eq] at h
  exact fsDevicefindhex_ne_external _ _ (Option.some.inj h)

/-- Only the path for the server changes. -/
theorem replaceAliasInPath_eq (filename : Bytes) (pn : ParsedName) :
    ∃ p, replaceAliasInPath filename pn = { pn with pathToServer := p } := by
  unfold replaceAliasInPath
  split
  · split
    · exact ⟨_, rfl⟩
    · exact ⟨pn.pathToServer, rfl⟩
  · exact ⟨pn.pathToServer, rfl⟩

/-- **A name in the table is read as its device, unless it means something else.** -/
theorem selects_parseRealDevice_iff (hpresent : env.Present sn)
    (hfind : cacheGetAliasSN name t = some (some sn)) (hreal : pn.type = .real) (hroot : pn.bp = [])
    (hbus : pn.state.bus = false) :
    (∃ pe pn' t', parseRealDevice env name .preRemote pn t = some (pe, pn', t') ∧ pe ≠ .error ∧
        Selects env sn (finish pn')) ↔
      match parseSerialNumber name with
      | .notSn => env.findExternalSensor name = none
      | .valid sn' => sn' = sn
      | .invalid => False := by
  rw [parseRealDevice]
  cases parseSerialNumber name with
  | notSn =>
    dsimp only
    cases env.findExternalSensor name with
    | some family =>
      refine iff_of_false ?_ (Option.some_ne_none family)
      rintro ⟨pe, pn', t', hparse, -, hsel⟩
      cases hparse
      refine not_selects_external family ?_ hsel
      rw [(finish_frame _).1]
      exact (trySetKnownBus_frame env _ _).1
    | none =>
      refine iff_of_true ?_ rfl
      simp only [parseAlias, hfind, Option.bind_eq_bind, Option.bind_some, parseAliasKnown, if_pos]
      obtain ⟨p, hp⟩ := replaceAliasInPath_eq name
        { pn with deviceName := findSegmentInPath name pn.path, sn := sn }
      rw [hp]
      obtain ⟨pn', hdevice, hsel⟩ := selects_parseRealDeviceSN
        { pn with deviceName := findSegmentInPath name pn.path, sn := sn, pathToServer := p }
        hpresent hreal hroot hbus
      exact ⟨.prop, pn', t, by rw [hdevice], ParseEnum.noConfusion, hsel.finish⟩
  | valid sn' =>
    dsimp only
    constructor
    · rintro ⟨pe, pn', t', hparse, -, hsel⟩
      cases hparse
      have hsn := hsel.sn_eq
      rw [(finish_frame _).2, sn_parseRealDeviceSN] at hsn
      exact hsn
    · rintro rfl
      obtain ⟨pn', hdevice, hsel⟩ := selects_parseRealDeviceSN
        { pn with deviceName := findSegmentInPath name pn.path, sn := sn' } hpresent hreal hroot
          hbus
      exact ⟨.prop, pn', t, by rw [hdevice], ParseEnum.noConfusion, hsel.finish⟩
  | invalid =>
    refine iff_of_false ?_ id
    rintro ⟨pe, pn', t', hparse, hpe, -⟩
    cases hparse
    exact hpe rfl

/-- **A name in the table leads to its device exactly when the parser leaves it alone.** -/
theorem resolves_iff (hname : admissible name = true) (hne : name ≠ []) (hpresent : env.Present sn)
    (hfind : cacheGetAliasSN name t = some (some sn)) :
    Resolves env t name sn ↔ LeftAlone env sn name := by
  simp only [admissible, Bool.and_eq_true, decide_eq_true_eq, Bool.not_eq_true',
    List.contains_eq_mem, decide_eq_false_iff_not] at hname
  rw [resolves_iff_unspecified hname.2 hname.1.1.1 hne, LeftAlone]
  cases hcap : captured name with
  | true =>
    refine iff_of_false ?_ fun h => Bool.noConfusion h.1
    rintro ⟨pe, pn, t', hparse, -, hsel⟩
    have hno := noDevice_parseUnspecified env hcap rfl hparse
    refine absurd hsel (NoDevice.not_selects ?_)
    rw [NoDevice, (finish_frame pn).1]
    exact hno
  | false =>
    rw [parseUnspecified_of_not_captured env hcap,
      selects_parseRealDevice_iff hpresent hfind rfl rfl rfl]
    exact (and_iff_right rfl).symm

/-- The path `/` is the root directory. -/
theorem not_resolves_nil : ¬ Resolves env t [] sn := by
  rintro ⟨pn, t', hparse, hsel⟩
  have hroot : fsParsedName env [chr '/'] t
      = some (.ok (finish (fsParsedNameSetup env [chr '/'])), t) := rfl
  rw [hroot] at hparse
  cases hparse
  refine NoDevice.not_selects (.inl ?_) hsel
  exact (finish_frame _).1

/-! ## Accepted names -/

theorem cacheGetAliasSN_testAndAddAlias (env : Env) {c : AliasCall} (h : t.Good env.markers)
    (hok : admissible (trim c.name) = true) (hne : trim c.name ≠ [])
    (hkeeps : t.Keeps env.markers c) :
    ∃ t', testAndAddAlias env.markers c.made c.name c.sn t = some (.good, t') ∧
      cacheGetAliasSN (trim c.name) t' = some (some c.sn) := by
  rcases hkeeps hok with hl | hfresh
  · refine ⟨t, testAndAddAlias_repeat h hok hl c.made, ?_⟩
    rw [h.cacheGetAliasSN, hl, Option.map_some]
  · refine ⟨_, testAndAddAlias_fresh h hok hfresh c.made, ?_⟩
    rw [if_neg hne, (h.assign hne hfresh c.made).cacheGetAliasSN, Table.assign, AList.lookup_insert,
      Option.map_some]

/-- **An accepted name leads to its device exactly when the parser leaves it alone** and no call, up
to this one, took an alias away. -/
theorem accepted_resolves_iff (env : Env) (temporary : CacheData) (history : List AliasCall)
    (c : AliasCall) (hok : admissible (trim c.name) = true) (hpresent : env.Present c.sn) :
    (∃ t t', aliasRun env.markers (some { trees := { temporary } }) history = some t ∧
        testAndAddAlias env.markers c.made c.name c.sn t = some (.good, t') ∧
        Resolves env t' (trim c.name) c.sn) ↔
      EachStep (aliasStep env.markers) (fun s c => ∀ t, s = some t → t.Keeps env.markers c)
          (some { trees := { temporary } }) (history ++ [c]) ∧
        trim c.name ≠ [] ∧ LeftAlone env c.sn (trim c.name) := by
  by_cases hne : trim c.name = []
  · refine iff_of_false ?_ fun h => h.2.1 hne
    rintro ⟨t, t', -, -, hres⟩
    rw [hne] at hres
    exact not_resolves_nil hres
  rcases keeps_or_broken (good_empty temporary) history with ⟨t, hrun, h, heach⟩ | ⟨hbroken, heach⟩
  · have hstep : EachStep (aliasStep env.markers)
        (fun s c => ∀ t, s = some t → t.Keeps env.markers c)
        (some t) [c] ↔ t.Keeps env.markers c := by
      simp only [EachStep, aliasStep, Option.some.injEq, forall_eq', and_true]
    rw [heach, hstep, hrun]
    by_cases hkeeps : t.Keeps env.markers c
    · obtain ⟨t', hcall, hfind⟩ := cacheGetAliasSN_testAndAddAlias env h hok hne hkeeps
      have hres := resolves_iff hok hne hpresent hfind
      constructor
      · rintro ⟨t₀, t₁, ht, hcall', hr⟩
        cases ht
        rw [hcall] at hcall'
        cases hcall'
        exact ⟨hkeeps, hne, hres.mp hr⟩
      · rintro ⟨-, -, hleft⟩
        exact ⟨t, t', rfl, hcall, hres.mpr hleft⟩
    · refine iff_of_false ?_ fun hall => hkeeps hall.1
      rintro ⟨t₀, t₁, ht, hcall, -⟩
      cases ht
      simp only [Table.Keeps, not_forall, not_or] at hkeeps
      obtain ⟨_, hrepeat, hfresh⟩ := hkeeps
      obtain ⟨t₂, hbroken, hadd⟩ := testAndAddAlias_removes h hok hrepeat hfresh hcall
      rw [cacheAddAlias_of_not_intact hbroken hne] at hadd
      cases hadd
  · refine iff_of_false ?_ fun hall => heach _ hall.1
    rintro ⟨t, t', hrun, hcall, -⟩
    exact hne ((testAndAddAlias_of_not_intact (hbroken t hrun) hcall).2 hok)

end

/-- One bus with one thermometer. -/
def sampleEnv : Env where
  uncached := false
  unaliased := false
  oneDevice := false
  localControlFlags := 0
  connections := [⟨0, false⟩]
  tree := fun type code => decide (type = .real) && code == ascii "10"
  filetypeArray := fun _ => []
  findExternalSensor := fun _ => none
  externalIndex := 0
  cacheGetDevice := fun _ => none
  checkPresenceLow := fun pn => if pn.sn = sampleSn then some 0 else none
  cacheGetAliasBus := fun _ => none
  remoteAlias := fun _ => none
  markers := ⟨1, 2, 3⟩
  now := 0

theorem present_sampleEnv : sampleEnv.Present sampleSn := by
  intro pn hsn _
  exact .inr (by simp [sampleEnv, hsn])

theorem accepted_resolves_iff_kitchen :
    ∃ t t', aliasRun sampleEnv.markers (some { trees := { temporary := {} } }) [] = some t ∧
      testAndAddAlias sampleEnv.markers 0 (ascii "kitchen") sampleSn t = some (.good, t') ∧
      Resolves sampleEnv t' (trim (ascii "kitchen")) sampleSn := by
  refine (accepted_resolves_iff sampleEnv {} [] ⟨ascii "kitchen", sampleSn, 0⟩ (by decide)
    present_sampleEnv).mpr ⟨?_, by decide, by decide, ?_⟩
  · intro s' _
    refine ⟨?_, trivial⟩
    intro t ht _
    cases ht
    exact .inr ⟨rfl, rfl⟩
  · exact (rfl : sampleEnv.findExternalSensor _ = none)

/-- The name is accepted, but its path is the directory of alarms. -/
theorem not_resolves_alarmclock :
    ∃ t', testAndAddAlias sampleEnv.markers 0 (ascii "alarmclock") sampleSn
      { trees := { temporary := {} } }
        = some (.good, t') ∧ sampleEnv.Present sampleSn ∧
      ¬ Resolves sampleEnv t' (ascii "alarmclock") sampleSn := by
  have hok : admissible (trim (ascii "alarmclock")) = true := by decide
  have htrim : trim (ascii "alarmclock") = ascii "alarmclock" := by decide
  obtain ⟨t', hcall, hfind⟩ := cacheGetAliasSN_testAndAddAlias sampleEnv
    (c := ⟨ascii "alarmclock", sampleSn, 0⟩) (good_empty {}) hok (by decide) fun _ =>
      .inr ⟨rfl, rfl⟩
  refine ⟨t', hcall, present_sampleEnv, ?_⟩
  dsimp only at hfind
  rw [htrim] at hok hfind
  rw [resolves_iff hok (by decide) present_sampleEnv hfind]
  rintro ⟨hcap, -⟩
  exact absurd hcap (by decide)

end Owfs.Path
