import Owfs.Infra.CString
import Owfs.Path.PropertyName
import Owfs.Path.ToServer

/-!
# The arrays for paths

Paths are kept in arrays of fixed sizes: two of them in `struct parsedname`, a third one while a
path is parsed, and some on the stack. Here the functions that write to them are modelled with their
arrays, so that a write that does not fit is a fault: `FS_ParsedName_setup`, `Parse_Bus`,
`ReplaceAliasInPath` and `FS_ParsedNamePlus` (`ow_parsename.c`), `FS_dir_entry_aliased`
(`ow_alias.c`) and `OWQ_create_sibling` (`ow_parseobject.c`).

`PATH_MAX` bounds the length of the path that is parsed, without a slash at its start.
-/

namespace Owfs.Path

open Infra Owfs.Device Owfs.Cache

/-! ## The functions -/

/-- `path` and `path_to_server` of `struct parsedname`, and `pathcpy` of `struct
parsedname_pointers` -/
structure PathBuffers where
  path : Buffer (2 * pathMax + 2)
  pathToServer : Buffer (pathMax + 2)
  pathcpy : Buffer (pathMax + 1)

/-- What `FS_ParsedName_setup` writes, once it has found that the path is not too long. -/
def setupBuffers (path : Bytes) (b : PathBuffers) : Option PathBuffers := do
  let p ← b.path.strcpy 0 [chr '/']
  let p ← p.strcpy 1 (if path.head? = some (chr '/') then path.tail else path)
  let s ← p.string 0
  let server ← b.pathToServer.strcpy 0 s
  let rest ← p.string 1
  let pathcpy ← b.pathcpy.strcpy 0 rest
  some ⟨p, server, pathcpy⟩

/-- What `Parse_Bus` writes. The pattern is anchored, so there is nothing before its match. -/
def parseBusBuffers (b : PathBuffers) : Option PathBuffers := do
  let s ← b.path.string 0
  match rxPBus.execAtStart false s with
  | none => some b
  | some (_, post) => do
    let server ← b.pathToServer.strcpy 0 []
    let server ← server.strcat [chr '/']
    let server ← server.strcat post
    some { b with pathToServer := server }

/-- What `ReplaceAliasInPath` writes. -/
def replaceAliasBuffers (filename : Bytes) (sn : SerialNumber) (b : PathBuffers) :
    Option PathBuffers := do
  let s ← b.pathToServer.string 0
  if s.length + 14 - filename.length ≤ pathMax then
    match findSegmentInPath filename s with
    | none => some b
    | some loc => do
      let post ← b.pathToServer.string (loc + filename.length)
      let server ← b.pathToServer.memmove (loc + 14) (loc + filename.length) (post.length + 1)
      let server ← server.write loc (digits sn)
      some { b with pathToServer := server }
  else some b

/-- What is written for a segment, by its role. -/
def Role.buffers (segment : Bytes) : Role → PathBuffers → Option PathBuffers
  | .plain, b => some b
  | .bus, b => parseBusBuffers b
  | .known sn, b => replaceAliasBuffers segment sn b

/-- What is written for one segment after another. -/
def parseBuffers : List (Bytes × Role) → PathBuffers → Option PathBuffers
  | [], b => some b
  | (segment, r) :: rest, b => (r.buffers segment b).bind (parseBuffers rest)

/-- `FS_ParsedNamePlus`, with the memory that it has allocated: the path that is parsed. -/
def fsParsedNamePlus (path file : Bytes) (fullpath : Buffer (file.length + path.length + 2)) :
    Option Bytes := do
  let b ← fullpath.strcpy 0 path
  let s ← b.string 0
  let last ← b.get ((s.length : Int) - 1)
  let b ← if last ≠ chr '/' then b.strcat [chr '/'] else some b
  let b ← b.strcat file
  b.string 0

/-- The loop of `FS_dir_entry_aliased`, over the segments that `strsep` gives. -/
def aliasedLoop (cacheGetAlias : SerialNumber → Option CString) (original : Bytes) :
    List Bytes → Buffer (2 * pathMax + 2) → Option (Buffer (2 * pathMax + 2))
  | [], copy => some copy
  | segment :: rest, copy => do
    let s ← copy.string 0
    -- "too long, just use initial copy"
    if pathMax < s.length + segment.length then copy.strcpy 0 original
    else
      let name : Bytes := match parseSerialNumber segment with
        | .valid sn => ((cacheGetAlias sn).map Subtype.val).getD segment
        | _ => segment
      if pathMax < s.length + name.length then copy.strcpy 0 original
      else do
        let copy ← copy.strcat name
        let copy ← if rest ≠ [] then copy.strcat [chr '/'] else some copy
        aliasedLoop cacheGetAlias original rest copy

/-- `FS_dir_entry_aliased`: the path that is given to `dirfunc`. -/
def fsDirEntryAliased (cacheGetAlias : SerialNumber → Option CString) (unaliased : Bool)
    (path : Buffer (2 * pathMax + 2)) (pathLocal : Buffer (pathMax + 3)) :
    Option (Buffer (2 * pathMax + 2)) :=
  if unaliased then some path
  else do
    let copy ← path.write 0 [0]
    let s ← path.string 0
    let pathLocal ← pathLocal.strcpy 0 s
    let s' ← pathLocal.string 0
    aliasedLoop cacheGetAlias s (splitSep (chr '/') s') copy

/-- What `OWQ_create_sibling` writes behind the name of the sibling: an extension, if both
properties are aggregates. -/
def siblingExtension (array : List Filetype) (sibling : Bytes) (pn : ParsedName) : Option Bytes :=
  match pn.selectedFiletype with
  | none => none
  | some ft =>
    if ft.ag = none then none
    else match bsearch (fun f => strcmp sibling f.name) array with
      | none => none
      | some sib =>
        if sib.ag = none then none
        else if pn.extension = extensionByte then some (ascii ".BYTE")
        else if pn.extension = extensionAll then some (ascii ".ALL")
        else if sib.letters then some ([chr '.',
          BitVec.ofInt 8 (pn.extension + (chr 'A').toNat)].take (owFullnameMax - 1))
        else some ((chr '.' :: signedDecimal pn.extension).take (owFullnameMax - 1))

/-- The arrays of `OWQ_create_sibling`: the path of the sibling. A negative length is a huge one. -/
def owqCreateSibling (array : List Filetype) (sibling : Bytes) (pn : ParsedName)
    (path : Buffer pathMax) : Option Bytes := do
  let dirlength := pn.dirlength.toNat
  let b ← if pn.dirlength < 0 then none else path.strncpy 0 pn.path dirlength
  let b ← b.strcpy dirlength sibling
  match siblingExtension array sibling pn with
  | none => b.string 0
  | some ext => do
    let s ← b.string 0
    let b ← b.write s.length (ext ++ [0])
    b.string 0

/-! ## Parsing a path -/

theorem zero_not_mem_digits (sn : SerialNumber) : 0 ∉ digits sn := by
  intro hmem
  have hall := (hexDigits_bytes2string (sn.bytes.take 7)).2
  exact absurd (List.all_eq_true.mp hall _ hmem) (by decide)

theorem length_digits (sn : SerialNumber) : (digits sn).length = 14 := by
  have hlength := (hexDigits_bytes2string (sn.bytes.take 7)).1
  rw [List.length_take, sn.length_bytes] at hlength
  exact hlength

/-- The arrays of a parsed name have its paths. -/
structure PathBuffers.Holds (b : PathBuffers) (pn : ParsedName) : Prop where
  path : b.path.Holds pn.path
  pathToServer : b.pathToServer.Holds pn.pathToServer
  /-- The path starts with a slash. -/
  slash : pn.path.head? = some (chr '/')
  length_le : pn.path.length ≤ pathMax + 1

theorem length_setup_le (env : Env) {path : Bytes} (h : path.length ≤ pathMax) :
    (fsParsedNameSetup env path).path.length ≤ pathMax + 1 := by
  simp only [fsParsedNameSetup, List.length_cons]
  split
  · rw [List.length_tail]
    omega
  · omega

theorem zero_not_mem_setup (env : Env) (path : CString) :
    0 ∉ (fsParsedNameSetup env path.1).path := by
  have hzero := path.2
  simp only [fsParsedNameSetup, List.mem_cons, not_or]
  refine ⟨by decide, ?_⟩
  split
  · exact fun hmem => hzero (List.mem_of_mem_tail hmem)
  · exact hzero

/-- `FS_ParsedName_setup` stays in its arrays. -/
theorem setupBuffers_holds (env : Env) (path : CString) (h : path.1.length ≤ pathMax)
    (b : PathBuffers) :
    ∃ b', setupBuffers path.1 b = some b' ∧ b'.Holds (fsParsedNameSetup env path.1) := by
  have hlength := length_setup_le env h
  have hzero := zero_not_mem_setup env path
  generalize hrest : (if path.1.head? = some (chr '/') then path.1.tail else path.1) = rest
  have hpath : (fsParsedNameSetup env path.1).path = chr '/' :: rest := by
    rw [← hrest]
    rfl
  have hserver : (fsParsedNameSetup env path.1).pathToServer = chr '/' :: rest := hpath
  rw [hpath, List.length_cons] at hlength
  rw [hpath, List.mem_cons, not_or] at hzero
  obtain ⟨p₁, hp₁, hholds₁⟩ :=
    Buffer.strcpy_zero_holds (b := b.path) (s := [chr '/']) (by decide) (by decide)
  obtain ⟨p₂, hp₂, hholds₂⟩ := Buffer.strcpy_holds (i := 1) hholds₁ le_rfl hzero.2 (by omega)
  obtain ⟨server, hserver', hholds₃⟩ :=
    Buffer.strcpy_zero_holds (b := b.pathToServer) (s := chr '/' :: rest)
    (by rw [List.mem_cons, not_or]; exact hzero) (by rw [List.length_cons]; omega)
  obtain ⟨cpy, hcpy, -⟩ := Buffer.strcpy_zero_holds (b := b.pathcpy) hzero.2 (by omega)
  have hstring := hholds₂.string_zero
  have htail := hholds₂.string_drop (i := 1) (by simp)
  refine ⟨⟨p₂, server, cpy⟩, ?_, ⟨?_, ?_, ?_, ?_⟩⟩
  · simp only [setupBuffers, hrest, hp₁, hp₂, hstring, htail, Option.bind_eq_bind, Option.bind_some,
      List.take_succ_cons, List.take_zero, List.cons_append, List.nil_append, List.drop_succ_cons,
      List.drop_zero, hserver', hcpy]
  · rw [hpath]
    exact hholds₂
  · rw [hserver]
    exact hholds₃
  · rw [hpath]
    rfl
  · rw [hpath, List.length_cons]
    exact hlength

/-- What is left of a path after its bus is shorter. -/
theorem suffix_of_execAtStart_rxPBus {s post : Bytes} {c : Rx.Captures}
    (h : rxPBus.execAtStart false (chr '/' :: s) = some (c, post)) : post <:+ s := by
  have hbus : StartsBus s := by
    by_contra hne
    rw [execAtStart_rxPBus_eq_none hne] at h
    cases h
  have htail : busTail s <:+ s := (List.dropWhile_suffix _).trans (List.drop_suffix _ _)
  rw [execAtStart_rxPBus hbus, Option.some.injEq, Prod.mk.injEq] at h
  rw [← h.2]
  split
  · exact (List.tail_suffix _).trans htail
  · exact htail

theorem findSegmentInPath_eq_some {segment s : Bytes} {loc : Nat}
    (h : findSegmentInPath segment s = some loc) :
    ∃ t v, t.length = loc ∧ s = t ++ segment ++ v := by
  induction s generalizing loc with
  | nil => cases h
  | cons b s ih =>
    rw [findSegmentInPath] at h
    obtain ⟨hhere, heq⟩ | ⟨-, heq⟩ := ite_eq_iff.mp h
    · rw [Bool.and_eq_true, List.isPrefixOf_iff_prefix, List.cons_prefix_cons] at hhere
      obtain ⟨v, rfl⟩ := hhere.1.2
      cases heq
      exact ⟨[b], v, rfl, by simp⟩
    · obtain ⟨loc', hloc, rfl⟩ := Option.map_eq_some_iff.mp heq
      obtain ⟨t, v, rfl, rfl⟩ := ih hloc
      exact ⟨b :: t, v, rfl, by simp⟩

/-- The parsed name after a segment, as far as the paths go. -/
def Role.apply (segment : Bytes) (r : Role) (pn : ParsedName) : ParsedName :=
  { pn with pathToServer := pathAfter segment pn r }

/-- `Parse_Bus` stays in its arrays. -/
theorem parseBusBuffers_holds {b : PathBuffers} {pn : ParsedName} (h : b.Holds pn)
    (segment : Bytes) :
    ∃ b', parseBusBuffers b = some b' ∧ b'.Holds (Role.bus.apply segment pn) := by
  obtain ⟨hpath, hserver, hslash, hlength⟩ := h
  obtain ⟨s, hs⟩ := List.head?_eq_some_iff.mp hslash
  cases hexec : rxPBus.execAtStart false pn.path with
  | none =>
    refine ⟨b, ?_, hpath, ?_, hslash, hlength⟩
    · simp only [parseBusBuffers, hpath.string_zero, Option.bind_eq_bind, Option.bind_some, hexec]
    · simpa only [Role.apply, pathAfter, hexec] using hserver
  | some m =>
    obtain ⟨c, post⟩ := m
    rw [hs] at hexec
    have hsuffix := suffix_of_execAtStart_rxPBus hexec
    have hzero : 0 ∉ post :=
      fun hmem => hpath.1 (by rw [hs]; exact List.mem_cons_of_mem _ (hsuffix.subset hmem))
    have hle := hsuffix.length_le
    rw [hs, List.length_cons] at hlength
    rw [← hs] at hexec
    obtain ⟨b₁, hb₁, hholds₁⟩ :=
      Buffer.strcpy_zero_holds (b := b.pathToServer) (s := []) (by simp) (by decide)
    obtain ⟨b₂, hb₂, hholds₂⟩ :=
      Buffer.strcat_holds (s := [chr '/']) hholds₁ (by decide) (by decide)
    obtain ⟨b₃, hb₃, hholds₃⟩ :=
      Buffer.strcat_holds hholds₂ hzero
        (by simp only [List.nil_append, List.length_singleton]; omega)
    refine ⟨{ b with pathToServer := b₃ }, ?_, hpath, ?_, hslash, ?_⟩
    · simp only [parseBusBuffers, hpath.string_zero, Option.bind_eq_bind, Option.bind_some, hexec,
        hb₁, hb₂, hb₃]
    · simpa only [Role.apply, pathAfter, hexec, List.nil_append,
        List.singleton_append] using hholds₃
    · simp only [Role.apply, hs, List.length_cons]
      exact hlength

/-- `ReplaceAliasInPath` stays in its array. -/
theorem replaceAliasBuffers_holds {b : PathBuffers} {pn : ParsedName} (h : b.Holds pn)
    (segment : Bytes) (sn : SerialNumber) :
    ∃ b', replaceAliasBuffers segment sn b = some b' ∧
      b'.Holds ((Role.known sn).apply segment pn) := by
  obtain ⟨hpath, hserver, hslash, hlength⟩ := h
  have happly : ((Role.known sn).apply segment pn).pathToServer =
      if pn.pathToServer.length + 14 - segment.length ≤ pathMax then
        replaceSegment segment (digits sn) pn.pathToServer
      else pn.pathToServer := pathToServer_replaceAliasInPath segment { pn with sn }
  by_cases hfits : pn.pathToServer.length + 14 - segment.length ≤ pathMax
  · rw [if_pos hfits] at happly
    cases hfind : findSegmentInPath segment pn.pathToServer with
    | none =>
      refine ⟨b, ?_, hpath, ?_, hslash, hlength⟩
      · simp only [replaceAliasBuffers, hserver.string_zero, Option.bind_eq_bind, Option.bind_some,
          if_pos hfits, hfind]
      · rw [happly, replaceSegment, hfind]
        exact hserver
    | some loc =>
      obtain ⟨t, v, rfl, hs⟩ := findSegmentInPath_eq_some hfind
      have hreplaced :
          replaceSegment segment (digits sn) pn.pathToServer = t ++ digits sn ++ v := by
        rw [replaceSegment, hfind]
        simp only [hs, List.append_assoc]
        rw [List.take_left, ← List.append_assoc t segment v, ← List.length_append, List.drop_left]
      have hlengths := congrArg List.length hs
      simp only [List.length_append] at hlengths
      have hpost := hserver.string_drop (i := t.length + segment.length) (by omega)
      rw [hs, ← List.length_append, List.drop_left, List.length_append] at hpost
      rw [hs] at hserver
      obtain ⟨b', hb', hholds⟩ := Buffer.memmove_write_holds hserver (zero_not_mem_digits sn)
        (by rw [length_digits]; omega)
      rw [length_digits] at hb'
      obtain ⟨b₁, hb₁, hb₂⟩ := Option.bind_eq_some_iff.mp hb'
      refine ⟨{ b with pathToServer := b' }, ?_, hpath, ?_, hslash, hlength⟩
      · rw [← hs] at hserver
        simp only [replaceAliasBuffers, hserver.string_zero, Option.bind_eq_bind, Option.bind_some,
          if_pos hfits, hfind, hpost, hb₁, hb₂]
      · rw [happly, hreplaced]
        exact hholds
  · rw [if_neg hfits] at happly
    refine ⟨b, ?_, hpath, ?_, hslash, hlength⟩
    · simp only [replaceAliasBuffers, hserver.string_zero, Option.bind_eq_bind, Option.bind_some,
        if_neg hfits]
    · rw [happly]
      exact hserver

/-- Whatever the segments are, the arrays are large enough. -/
theorem parseBuffers_holds (rs : List (Bytes × Role)) {b : PathBuffers} {pn : ParsedName}
    (h : b.Holds pn) :
    ∃ b', parseBuffers rs b = some b' ∧ b'.Holds (rs.foldl (fun pn r => r.2.apply r.1 pn) pn) := by
  induction rs generalizing b pn with
  | nil => exact ⟨b, rfl, h⟩
  | cons r rs ih =>
    obtain ⟨segment, r⟩ := r
    obtain ⟨b₁, hb₁, hholds₁⟩ : ∃ b', r.buffers segment b = some b' ∧
        b'.Holds (r.apply segment pn) := by
      cases r with
      | plain => exact ⟨b, rfl, h⟩
      | bus => exact parseBusBuffers_holds h segment
      | known sn => exact replaceAliasBuffers_holds h segment sn
    obtain ⟨b₂, hb₂, hholds₂⟩ := ih hholds₁
    exact ⟨b₂, by rw [parseBuffers, hb₁, Option.bind_some, hb₂], hholds₂⟩

/-! ## Other paths -/

/-- `FS_ParsedNamePlus` has allocated enough, but it looks at the last character of the path. -/
theorem isSome_fsParsedNamePlus_iff (path file : CString)
    (fullpath : Buffer (file.1.length + path.1.length + 2)) :
    (fsParsedNamePlus path.1 file.1 fullpath).isSome = true ↔ path.1 ≠ [] := by
  obtain ⟨b₁, hb₁, hholds₁⟩ := Buffer.strcpy_zero_holds (b := fullpath) path.2 (by omega)
  constructor
  · intro h hnil
    have hlength := List.length_eq_zero_iff.mpr hnil
    have hget : b₁.get ((path.1.length : Int) - 1) = none := if_neg (by omega)
    simp only [fsParsedNamePlus, hb₁, hholds₁.string_zero, hget, Option.bind_eq_bind,
      Option.bind_some, Option.bind_none] at h
    cases h
  · intro hne
    have hpos : 0 < path.1.length := List.length_pos_iff.mpr hne
    have hget : b₁.get ((path.1.length : Int) - 1) = some (path.1[path.1.length - 1]) := by
      have hlast := hholds₁.get (i := path.1.length - 1) (by omega)
      rw [List.getElem?_eq_getElem (by omega), Nat.cast_sub (by omega)] at hlast
      exact hlast
    by_cases hslash : path.1[path.1.length - 1] ≠ chr '/'
    · obtain ⟨b₂, hb₂, hholds₂⟩ := Buffer.strcat_holds (s := [chr '/']) hholds₁ (by decide)
        (by rw [List.length_singleton]; omega)
      obtain ⟨b₃, hb₃, hholds₃⟩ := Buffer.strcat_holds hholds₂ file.2
        (by rw [List.length_append, List.length_singleton]; omega)
      simp only [fsParsedNamePlus, hb₁, hholds₁.string_zero, hget, if_pos hslash, hb₂, hb₃,
        hholds₃.string_zero, Option.bind_eq_bind, Option.bind_some, Option.isSome_some]
    · obtain ⟨b₃, hb₃, hholds₃⟩ := Buffer.strcat_holds hholds₁ file.2 (by omega)
      simp only [fsParsedNamePlus, hb₁, hholds₁.string_zero, hget, if_neg hslash, hb₃,
        hholds₃.string_zero, Option.bind_eq_bind, Option.bind_some, Option.isSome_some]

theorem zero_not_mem_of_mem_splitSep {s p : Bytes} (hs : 0 ∉ s) (hp : p ∈ splitSep (chr '/') s) :
    0 ∉ p := by
  intro hmem
  have hall : (0 : Byte) ∈ separated (chr '/') (splitSep (chr '/') s) := by
    rw [separated_eq_flatMap _ (splitSep_ne_nil _ s)]
    exact List.mem_flatMap.mpr ⟨p, hp, List.mem_cons_of_mem _ hmem⟩
  rw [separated_splitSep] at hall
  obtain hslash | hmem' := List.mem_cons.mp hall
  · exact absurd hslash (by decide)
  · exact hs hmem'

/-- The copy never gets longer than a path with a slash behind it. -/
theorem isSome_aliasedLoop (cacheGetAlias : SerialNumber → Option CString) {original : Bytes}
    (hlength : original.length ≤ pathMax + 1) :
    ∀ (segments : List Bytes) {copy : Buffer (2 * pathMax + 2)} {s : Bytes},
      (∀ p ∈ segments, 0 ∉ p) → copy.Holds s → s.length ≤ pathMax + 1 →
    (aliasedLoop cacheGetAlias original segments copy).isSome = true := by
  intro segments
  have hinitial (copy : Buffer (2 * pathMax + 2)) : (copy.strcpy 0 original).isSome = true :=
    Buffer.isSome_strcpy_iff.mpr (by omega)
  induction segments with
  | nil => exact fun _ _ _ => rfl
  | cons segment rest ih =>
    intro copy s hsegments hholds hs
    rw [List.forall_mem_cons] at hsegments
    rw [aliasedLoop, hholds.string_zero]
    simp only [Option.bind_eq_bind, Option.bind_some]
    generalize hname : (match parseSerialNumber segment with
      | .valid sn => ((cacheGetAlias sn).map Subtype.val).getD segment
      | _ => segment) = name
    have hzero : 0 ∉ name := by
      rw [← hname]
      split
      · rename_i sn _
        cases hget : cacheGetAlias sn with
        | none => exact hsegments.1
        | some alias' => exact alias'.2
      · exact hsegments.1
    by_cases hlong : pathMax < s.length + segment.length
    · rw [if_pos hlong]
      exact hinitial copy
    rw [if_neg hlong]
    by_cases hlong' : pathMax < s.length + name.length
    · rw [if_pos hlong']
      exact hinitial copy
    rw [if_neg hlong']
    obtain ⟨c₁, hc₁, hholds₁⟩ := Buffer.strcat_holds hholds hzero (by omega)
    rw [hc₁, Option.bind_some]
    by_cases hrest : rest ≠ []
    · obtain ⟨c₂, hc₂, hholds₂⟩ := Buffer.strcat_holds (s := [chr '/']) hholds₁ (by decide)
        (by rw [List.length_append, List.length_singleton]; omega)
      rw [if_pos hrest, hc₂, Option.bind_some]
      exact ih hsegments.2 hholds₂ (by simp only [List.length_append, List.length_singleton]; omega)
    · rw [if_neg hrest]
      exact ih hsegments.2 hholds₁ (by rw [List.length_append]; omega)

theorem isSome_fsDirEntryAliased (cacheGetAlias : SerialNumber → Option CString) (unaliased : Bool)
    {path : Buffer (2 * pathMax + 2)} {s : Bytes} (hholds : path.Holds s)
    (hs : s.length ≤ pathMax + 1) (pathLocal : Buffer (pathMax + 3)) :
    (fsDirEntryAliased cacheGetAlias unaliased path pathLocal).isSome = true := by
  cases unaliased with
  | true => rfl
  | false =>
    obtain ⟨copy, hcopy, hholds₁⟩ :=
      Buffer.strcpy_zero_holds (b := path) (s := []) (by simp) (by decide)
    obtain ⟨l, hl, hholds₂⟩ := Buffer.strcpy_zero_holds (b := pathLocal) hholds.1 (by omega)
    have hloop := isSome_aliasedLoop cacheGetAlias hs (splitSep (chr '/') s)
      (fun p hp => zero_not_mem_of_mem_splitSep hholds.1 hp) hholds₁ (Nat.zero_le _)
    rw [fsDirEntryAliased, if_neg Bool.false_ne_true]
    replace hcopy : path.write 0 [0] = some copy := hcopy
    simp only [Option.bind_eq_bind, hcopy, hholds.string_zero, hl, hholds₂.string_zero,
      Option.bind_some, hloop]

/-- The path that `OWQ_create_sibling` has before the extension. If the length of the directory is
wrong, it ends where the original one does. -/
def siblingPath (sibling : Bytes) (pn : ParsedName) : Bytes :=
  if pn.path.length < pn.dirlength then pn.path else pn.path.take pn.dirlength.toNat ++ sibling

/-- The path of a sibling fits its array. -/
def SiblingFits (array : List Filetype) (sibling : Bytes) (pn : ParsedName) : Prop :=
  0 ≤ pn.dirlength ∧ pn.dirlength + sibling.length < pathMax ∧
    ∀ ext, siblingExtension array sibling pn = some ext →
    (siblingPath sibling pn).length + ext.length < pathMax

theorem siblingPath_holds (sibling : CString) {pn : ParsedName} (hpn : 0 ∉ pn.path)
    (hnonneg : ¬pn.dirlength < 0) (hfits : pn.dirlength + sibling.1.length < pathMax)
    (path : Buffer pathMax) :
    ∃ b, ((path.strncpy 0 pn.path pn.dirlength.toNat).bind fun b =>
      b.strcpy pn.dirlength.toNat sibling.1) = some b ∧
      b.Holds (siblingPath sibling.1 pn) := by
  obtain ⟨d, hd⟩ : ∃ d : Nat, pn.dirlength = d := ⟨pn.dirlength.toNat, by omega⟩
  rw [hd] at hfits
  have hlength : ((pn.path ++ List.replicate d 0).take d).length = d := by
    rw [List.length_take, List.length_append, List.length_replicate]
    omega
  obtain ⟨b₁, hb₁, hcontent₁⟩ :=
    Buffer.write_eq_some (b := path) (i := 0) (d := (pn.path ++ List.replicate d 0).take d)
    (by omega)
  obtain ⟨b₂, hb₂, hcontent₂⟩ := Buffer.write_eq_some (b := b₁) (i := d) (d := sibling.1 ++ [0])
    (by rw [List.length_append, List.length_singleton]; omega)
  rw [List.take_zero, List.nil_append] at hcontent₁
  rw [hcontent₁, List.take_append_of_le_length (by omega),
    List.take_of_length_le (by omega)] at hcontent₂
  generalize List.drop (d + (sibling.1 ++ [0]).length) _ = rest at hcontent₂
  refine ⟨b₂, ?_, ?_⟩
  · rw [hd, Int.toNat_natCast, Buffer.strncpy, hb₁, Option.bind_some, Buffer.strcpy, hb₂]
  · rw [siblingPath, hd, Int.toNat_natCast]
    split
    · rename_i hshort
      obtain ⟨k, hk⟩ : ∃ k, d = pn.path.length + (k + 1) := ⟨d - pn.path.length - 1, by omega⟩
      refine ⟨hpn, ?_⟩
      rw [hcontent₂, hk, List.take_append, List.take_of_length_le (by omega),
        Nat.add_sub_cancel_left, List.take_replicate, Nat.min_eq_left (by omega),
        List.replicate_succ]
      exact ⟨List.replicate k 0 ++ (sibling.1 ++ 0 :: rest), by simp⟩
    · rename_i hlong
      refine ⟨?_, ?_⟩
      · rw [List.mem_append, not_or]
        exact ⟨fun hmem => hpn (List.mem_of_mem_take hmem), sibling.2⟩
      · rw [hcontent₂, List.take_append_of_le_length (by omega)]
        exact ⟨rest, by simp⟩

theorem isSome_owqCreateSibling_iff (array : List Filetype) (sibling : CString) {pn : ParsedName}
    (hpn : 0 ∉ pn.path) (path : Buffer pathMax) :
    (owqCreateSibling array sibling.1 pn path).isSome = true ↔ SiblingFits array sibling.1 pn := by
  by_cases hnonneg : pn.dirlength < 0
  · refine iff_of_false ?_ fun h => absurd h.1 (by omega)
    simp [owqCreateSibling, hnonneg]
  by_cases hfits : pn.dirlength + sibling.1.length < pathMax
  · obtain ⟨b, hb, hholds⟩ := siblingPath_holds sibling hpn hnonneg hfits path
    cases hext : siblingExtension array sibling.1 pn with
    | none =>
      refine iff_of_true ?_ ⟨by omega, hfits, by simp [hext]⟩
      simp only [owqCreateSibling, if_neg hnonneg, Option.bind_eq_bind, hext]
      rw [← Option.bind_assoc, hb, Option.bind_some, hholds.string_zero]
      rfl
    | some ext =>
      have hwrite : (owqCreateSibling array sibling.1 pn path).isSome =
          (b.write (siblingPath sibling.1 pn).length (ext ++ [0])).isSome := by
        simp only [owqCreateSibling, if_neg hnonneg, Option.bind_eq_bind, hext]
        rw [← Option.bind_assoc, hb, Option.bind_some, hholds.string_zero, Option.bind_some]
        cases hb' : b.write (siblingPath sibling.1 pn).length (ext ++ [0]) with
        | none => rfl
        | some b' => exact Buffer.isSome_string_of_write hb' (by simp)
      rw [hwrite, Buffer.isSome_write_iff, List.length_append, List.length_singleton, SiblingFits]
      simp only [hext, Option.some.injEq, forall_eq']
      omega
  · refine iff_of_false ?_ fun h => hfits h.2.1
    simp only [owqCreateSibling, if_neg hnonneg, Option.bind_eq_bind]
    cases hb : path.strncpy 0 pn.path pn.dirlength.toNat with
    | none => simp
    | some b =>
      have hnone : b.strcpy pn.dirlength.toNat sibling.1 = none := by
        rw [← Option.not_isSome_iff_eq_none, Buffer.isSome_strcpy_iff]
        omega
      simp [hnone]

/-! ## All of them -/

section

variable (env : Env) (path file sibling : CString) (rs : List (Bytes × Role))
  (cacheGetAlias : SerialNumber → Option CString) (unaliased : Bool) (array : List Filetype)
  (pn : ParsedName) (b : PathBuffers) (fullpath : Buffer (file.1.length + path.1.length + 2))
  (pathLocal : Buffer (pathMax + 3)) (siblingBuffer : Buffer pathMax)

/-- Nothing is written or read outside of an array: while a path is parsed, with any roles of its
segments, when an entry of a directory is shown under its aliases, when a file is appended and when
a sibling is made. -/
structure StaysInside : Prop where
  parsing : ∃ b', ((setupBuffers path.1 b).bind (parseBuffers rs)) = some b' ∧
    (fsDirEntryAliased cacheGetAlias unaliased b'.path pathLocal).isSome = true
  appending : (fsParsedNamePlus path.1 file.1 fullpath).isSome = true
  sibling : (owqCreateSibling array sibling.1 pn siblingBuffer).isSome = true

theorem parsing_staysInside (h : path.1.length ≤ pathMax) :
    ∃ b', ((setupBuffers path.1 b).bind (parseBuffers rs)) = some b' ∧
      b'.Holds (rs.foldl (fun pn r => r.2.apply r.1 pn) (fsParsedNameSetup env path.1)) ∧
      (fsDirEntryAliased cacheGetAlias unaliased b'.path pathLocal).isSome = true := by
  obtain ⟨b₁, hb₁, hholds₁⟩ := setupBuffers_holds env path h b
  obtain ⟨b₂, hb₂, hholds₂⟩ := parseBuffers_holds rs hholds₁
  refine ⟨b₂, by rw [hb₁, Option.bind_some, hb₂], hholds₂, ?_⟩
  exact isSome_fsDirEntryAliased cacheGetAlias unaliased hholds₂.path hholds₂.length_le pathLocal

theorem staysInside_iff_of (h : path.1.length ≤ pathMax)
    (hpn : pn.path = (fsParsedNameSetup env path.1).path) :
    StaysInside path file sibling rs cacheGetAlias unaliased array pn b fullpath pathLocal
      siblingBuffer ↔
      path.1 ≠ [] ∧ SiblingFits array sibling.1 pn := by
  have hzero : 0 ∉ pn.path := by
    rw [hpn]
    exact zero_not_mem_setup env path
  constructor
  · rintro ⟨-, happending, hsibling⟩
    exact ⟨(isSome_fsParsedNamePlus_iff path file fullpath).mp happending,
      (isSome_owqCreateSibling_iff array sibling hzero siblingBuffer).mp hsibling⟩
  · rintro ⟨hne, hfits⟩
    obtain ⟨b', hb', -, hdir⟩ :=
      parsing_staysInside env path rs cacheGetAlias unaliased b pathLocal h
    exact ⟨⟨b', hb', hdir⟩, (isSome_fsParsedNamePlus_iff path file fullpath).mpr hne,
      (isSome_owqCreateSibling_iff array sibling hzero siblingBuffer).mpr hfits⟩

/-- **The arrays for paths.** For every path that is not too long, parsing it and showing it with
aliases stays in the arrays, which then have the paths of the parsed name. A file can be appended if
and only if the path is not empty, and a sibling can be made if and only if its path, with the
extension, is shorter than `PATH_MAX`. -/
theorem staysInside_iff (h : path.1.length ≤ pathMax)
    (hpn : pn.path = (fsParsedNameSetup env path.1).path) :
    (∃ b', ((setupBuffers path.1 b).bind (parseBuffers rs)) = some b' ∧
      b'.Holds (rs.foldl (fun pn r => r.2.apply r.1 pn) (fsParsedNameSetup env path.1)) ∧
      (fsDirEntryAliased cacheGetAlias unaliased b'.path pathLocal).isSome = true) ∧
    (StaysInside path file sibling rs cacheGetAlias unaliased array pn b fullpath pathLocal
      siblingBuffer ↔
      path.1 ≠ [] ∧ SiblingFits array sibling.1 pn) :=
  ⟨parsing_staysInside env path rs cacheGetAlias unaliased b pathLocal h,
    staysInside_iff_of env path file sibling rs cacheGetAlias unaliased array pn b fullpath
    pathLocal siblingBuffer h hpn⟩

end

/-- An array of zeros -/
def zeros (n : Nat) : Buffer n := ⟨List.replicate n 0, List.length_replicate⟩

def zeroBuffers : PathBuffers := ⟨zeros _, zeros _, zeros _⟩

/-- A property of a thermometer -/
def thermometerPath : CString := ⟨ascii "/10.67C6697351FF/temperature", by decide⟩

/-- The type of the same thermometer as its sibling. -/
theorem staysInside_iff_thermometer :
    StaysInside thermometerPath ⟨ascii "power", by decide⟩ ⟨ascii "type", by decide⟩ []
      (fun _ => none) false [] (fsParsedNameSetup sampleEnv thermometerPath.1) zeroBuffers (zeros _)
      (zeros _) (zeros _) :=
  (staysInside_iff sampleEnv thermometerPath ⟨ascii "power", by decide⟩ ⟨ascii "type", by decide⟩ []
    (fun _ => none) false []
    (fsParsedNameSetup sampleEnv thermometerPath.1) zeroBuffers (zeros _) (zeros _) (zeros _)
      (by decide) rfl).2.mpr
    ⟨by decide, by decide, by decide, nofun⟩

/-- The empty path has no last character. -/
theorem emptyPath_not_staysInside :
    ¬StaysInside ⟨[], by decide⟩ ⟨ascii "power", by decide⟩ ⟨ascii "type", by decide⟩ []
      (fun _ => none) false [] (fsParsedNameSetup sampleEnv []) zeroBuffers (zeros _) (zeros _)
      (zeros _) := by
  intro hinside
  exact ((staysInside_iff_of sampleEnv ⟨[], by decide⟩ ⟨ascii "power", by decide⟩
    ⟨ascii "type", by decide⟩ [] (fun _ => none)
    false [] (fsParsedNameSetup sampleEnv []) zeroBuffers (zeros _) (zeros _) (zeros _) (by decide)
      rfl).mp hinside).1 rfl

end Owfs.Path
