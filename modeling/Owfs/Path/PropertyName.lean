import Owfs.Infra.Decimal
import Owfs.Infra.Sorted
import Owfs.Path.AliasName

/-!
# The names of properties

The last segment of a path is the name of a property, and for an aggregate a dot and an extension
follow. `Parse_Property` (`ow_parsename.c`) looks for the name in front of the first dot, but its
patterns read the extension behind the last one.

`FS_ParsedNamePlusExt` is the other direction: it makes such a segment from the name of an aggregate
and an extension.
-/

namespace Owfs.Path

open Infra Owfs.Cache

/-- The dot before an extension. -/
def dot : Byte := chr '.'

/-! ## Building a name -/

/-- `OW_FULLNAME_MAX` -/
def owFullnameMax : Nat := 38

/-- The segment that `FS_ParsedNamePlusText` makes. `snprintf` keeps what fits, with a zero behind
it. -/
def fsParsedNamePlusText (file extension : Bytes) : Bytes :=
  (file ++ dot :: extension).take (owFullnameMax - 1)

/-- The text of an extension. A letter is computed as a `char`, and a zero is the end of the text;
no number is too long for its own array. -/
def extensionText (extension : Int) (letters : Bool) : Bytes :=
  if extension = extensionByte then ascii "BYTE"
  else if extension = extensionAll then ascii "ALL"
  else if letters then [BitVec.ofInt 8 ((chr 'A').toNat + extension)].takeWhile (· ≠ 0)
  else signedDecimal extension

/-- The segment that `FS_ParsedNamePlusExt` makes. -/
def fsParsedNamePlusExt (file : Bytes) (extension : Int) (letters : Bool) : Bytes :=
  fsParsedNamePlusText file (extensionText extension letters)

/-! ## The grammar -/

/-- One or more decimal digits -/
def isNumber (x : Bytes) : Bool := !x.isEmpty && x.all isDigit

/-- The number of a letter, in either case -/
def letterIndex (b : Byte) : Int := (toUpper b).toNat - (chr 'A').toNat

/-- What a segment says of the element: the extension, and the text of a sparse array that is
indexed by text. -/
abbrev Element := Int × Option Bytes

/-- What the text behind the dot should stand for, for an aggregate. -/
inductive Denotes (ft : Filetype) (ag : Aggregate) : Bytes → Element → Prop where
  | text (x : Bytes) : ag.combined = .sparse → ft.letters = true → Denotes ft ag x (0, some x)
  | sparse (x : Bytes) : ag.combined = .sparse → ft.letters = false → isNumber x = true →
    Denotes ft ag x (digitsValue x, none)
  | all (x : Bytes) : ag.combined ≠ .sparse → x.map toLower = ascii "all" →
      Denotes ft ag x (extensionAll, none)
  | byte (x : Bytes) : ag.combined ≠ .sparse → ft.format = .bitfield →
      x.map toLower = ascii "byte" →
    Denotes ft ag x (extensionByte, none)
  | letter (b : Byte) : ag.combined ≠ .sparse → ft.letters = true → isAlpha b = true →
      letterIndex b < ag.elements →
    Denotes ft ag [b] (letterIndex b, none)
  | number (x : Bytes) : ag.combined ≠ .sparse → ft.letters = false → isNumber x = true →
      digitsValue x < ag.elements →
    Denotes ft ag x (digitsValue x, none)

/-- A segment names an element of a property. -/
inductive Names (ft : Filetype) : Bytes → Element → Prop where
  | plain : ft.ag = none → Names ft ft.name (0, none)
  | element (ag : Aggregate) (x : Bytes) (e : Element) : ft.ag = some ag → Denotes ft ag x e →
      Names ft (ft.name ++ dot :: x) e

/-! ## What the parser makes of it -/

/-- The name that is looked for. -/
def nameOf (filename : Bytes) : Bytes :=
  ((rxExtension.exec false filename).map Rx.Match.pre).getD filename

/-- What `struct parsedname` says of the element. -/
def elementOf (ft : Filetype) (pn : ParsedName) : Element :=
  (pn.extension, if ft.letters ∧ ∃ ag, ft.ag = some ag ∧ ag.combined = .sparse then pn.sparseName
    else none)

/-- `Parse_Property` finds the property and takes the segment for this element of it. -/
def ReadsAs (env : Env) (pdev : Device) (pn : ParsedName) (filename : Bytes) (ft : Filetype)
    (e : Element) : Prop :=
  bsearch (fun f => strcmp (nameOf filename) f.name) (env.filetypeArray pdev) = some ft ∧
    (parseProperty env filename pn).1 ≠ .error ∧ elementOf ft (parseProperty env filename pn).2 = e

/-! ## The patterns -/

theorem toLower_eq_dot : ∀ b : Byte, toLower b = dot ↔ b = dot := by decide +kernel

theorem execAtStart_word (w s : Bytes) :
    (Rx.word w).execAtStart true s = if s.map toLower = w.map toLower then some
    ([], []) else none := by
  rw [Rx.execAtStart, Rx.run_word]
  by_cases hs : s.map toLower = w.map toLower
  · have hlen : s.length = w.length := by simpa using congrArg List.length hs
    simp [hs, ← hlen]
  · rw [if_neg hs]
    split
    · rename_i hbegins
      rw [List.find?_eq_none]
      intro m hm hend
      have hm' := List.mem_singleton.mp hm
      subst hm'
      have hlen : s.length ≤ w.length := by simpa using hend
      exact hs (hbegins.eq_of_length_le (by simpa using hlen)).symm
    · rfl

/-- A word that starts with a dot and has no other. -/
theorem onlyFrom_word {v : Bytes} (hv : ∀ b ∈ v, toLower b ≠ dot) :
    Rx.OnlyFrom dot (.word (dot :: v)) := by
  intro s m hm hend
  have hsome : ((Rx.word (dot :: v)).execAtStart true s).isSome := by
    rw [Rx.execAtStart, List.find?_isSome]
    exact ⟨m, hm, by simp [hend]⟩
  rw [execAtStart_word] at hsome
  have hs : s.map toLower = (dot :: v).map toLower := by
    by_contra hne
    rw [if_neg hne] at hsome
    cases hsome
  cases s with
  | nil => simp at hs
  | cons b w =>
    rw [List.map_cons, List.map_cons, List.cons.injEq] at hs
    have hb : b = dot := (toLower_eq_dot b).mp (hs.1.trans ((toLower_eq_dot dot).mpr rfl))
    refine ⟨w, by rw [hb], fun hmem => ?_⟩
    have hlow := List.mem_map_of_mem (f := toLower) hmem
    rw [hs.2, (toLower_eq_dot dot).mpr rfl] at hlow
    obtain ⟨x, hx, hxdot⟩ := List.mem_map.mp hlow
    exact hv x hx hxdot

theorem run_dot_cat (r : Rx) (s : Bytes) (m : Rx.Captures × Bytes) :
    m ∈ (Rx.cat (.one (· == chr '.')) r).run s ↔ ∃ w, s = dot :: w ∧ m ∈ r.run w := by
  cases s with
  | nil => simp [Rx.run]
  | cons b w =>
    by_cases hb : b = chr '.'
    · simp [Rx.run, hb, dot]
    · simp [Rx.run, hb, dot]

theorem not_isDigit_dot : isDigit dot = false := by decide

theorem not_isAlpha_dot : isAlpha dot = false := by decide

/-- The digits up to the end of a text are all of it. -/
theorem mem_run_many_iff (w : Bytes) (m : Rx.Captures × Bytes) :
    m ∈ (Rx.many isDigit).run w ∧ m.2 = [] ↔ isNumber w = true ∧ m = ([], []) := by
  have hmem : m ∈ (Rx.many isDigit).run w ↔ ∃ k < (w.takeWhile isDigit).length,
      m = ([], w.drop (k + 1)) := by
    simp [Rx.run, eq_comm]
  have hle := (List.takeWhile_prefix isDigit (l := w)).length_le
  rw [hmem, isNumber, Bool.and_eq_true, List.all_eq_true]
  constructor
  · rintro ⟨⟨k, hk, rfl⟩, hend⟩
    rw [List.drop_eq_nil_iff] at hend
    have hall : w.takeWhile isDigit = w := (List.takeWhile_prefix _).eq_of_length_le (by omega)
    refine ⟨⟨?_, List.takeWhile_eq_self_iff.mp hall⟩, by simp [hend]⟩
    cases w with
    | nil => simp at hk
    | cons b w => rfl
  · rintro ⟨⟨hne, hall⟩, rfl⟩
    have hpos : 0 < w.length := by
      cases w with
      | nil => simp at hne
      | cons b w => simp
    refine ⟨⟨w.length - 1, ?_, ?_⟩, rfl⟩
    · rw [List.takeWhile_eq_self_iff.mpr hall]
      omega
    · rw [Nat.sub_add_cancel hpos, List.drop_length]

theorem onlyFrom_rxNumber : Rx.OnlyFrom dot rxNumber := by
  intro s m hm hend
  obtain ⟨w, rfl, hw⟩ := (run_dot_cat _ s m).mp hm
  obtain ⟨m', hm', rfl⟩ := List.mem_map.mp hw
  obtain ⟨hnumber, -⟩ := (mem_run_many_iff w m').mp ⟨hm', hend⟩
  refine ⟨w, rfl, fun hdot => ?_⟩
  have hdigit := List.all_eq_true.mp ((Bool.and_eq_true _ _).mp hnumber).2 dot hdot
  exact absurd hdigit (by simp [not_isDigit_dot])

theorem onlyFrom_rxLetter : Rx.OnlyFrom dot rxLetter := by
  intro s m hm hend
  obtain ⟨w, rfl, hw⟩ := (run_dot_cat _ s m).mp hm
  refine ⟨w, rfl, fun hdot => ?_⟩
  cases w with
  | nil => cases hdot
  | cons b w =>
    by_cases hb : isAlpha b = true
    · simp only [Rx.run, hb, if_true, List.map_cons, List.map_nil, List.mem_singleton] at hw
      rw [hw] at hend
      dsimp only at hend
      rw [hend, List.mem_singleton] at hdot
      simp [← hdot, not_isAlpha_dot] at hb
    · simp [Rx.run, hb] at hw

/-- `rx_number` reads the digits behind the last dot. -/
theorem extensionOf_rxNumber (value : Bytes → Int) (u : Bytes) {w : Bytes} (hw : dot ∉ w) :
    extensionOf rxNumber value (u ++ dot :: w) = if isNumber w = true then some (value w)
      else none := by
  rw [extensionOf, Rx.exec_append_of_onlyFrom onlyFrom_rxNumber u hw]
  cases hexec : rxNumber.execAtStart true (dot :: w) with
  | none =>
    have hnumber : ¬isNumber w = true := by
      intro hnumber
      have hmem := ((mem_run_many_iff w ([], [])).mpr ⟨hnumber, rfl⟩).1
      rw [Rx.execAtStart, List.find?_eq_none] at hexec
      refine hexec _ ((run_dot_cat _ _ _).mpr ⟨w, rfl, List.mem_map_of_mem hmem⟩) ?_
      rfl
    rw [if_neg hnumber]
    rfl
  | some m =>
    obtain ⟨hend, -⟩ := List.find?_eq_some_iff_append.mp hexec
    obtain ⟨w', hw', hm⟩ := (run_dot_cat _ _ m).mp (List.mem_of_find?_eq_some hexec)
    obtain ⟨m', hm', rfl⟩ := List.mem_map.mp hm
    obtain ⟨-, rfl⟩ := List.cons.inj hw'
    obtain ⟨hnumber, rfl⟩ := (mem_run_many_iff w m').mp ⟨hm', by simpa using hend⟩
    rw [if_pos hnumber]
    simp

/-- The number of a text that is one letter. -/
def oneLetter : Bytes → Option Int
  | [b] => if isAlpha b = true then some (letterIndex b) else none
  | _ => none

/-- `rx_letter` reads the letter behind the last dot. -/
theorem extensionOf_rxLetter (u : Bytes) {w : Bytes} (hw : dot ∉ w) :
    extensionOf rxLetter (fun text => (toUpper (text.getD 0 0)).toNat - (chr 'A').toNat)
      (u ++ dot :: w) = oneLetter w := by
  rw [extensionOf, Rx.exec_append_of_onlyFrom onlyFrom_rxLetter u hw]
  match w with
  | [] => rfl
  | [b] =>
    by_cases hb : isAlpha b = true
    · simp [Rx.execAtStart, rxLetter, Rx.run, hb, dot, oneLetter, letterIndex]
    · simp [Rx.execAtStart, rxLetter, Rx.run, hb, dot, oneLetter]
  | b :: b' :: w =>
    by_cases hb : isAlpha b = true
    · simp [Rx.execAtStart, rxLetter, Rx.run, hb, dot, oneLetter]
    · simp [Rx.execAtStart, rxLetter, Rx.run, hb, dot, oneLetter]

theorem exec_word_dot {v : Bytes} (hv : ∀ b ∈ v, toLower b ≠ dot) (u : Bytes) {w : Bytes}
    (hw : dot ∉ w) :
    ((Rx.word (dot :: v)).exec true (u ++ dot :: w)).isSome = true ↔
      w.map toLower = v.map toLower := by
  rw [Rx.exec_append_of_onlyFrom (onlyFrom_word hv) u hw, execAtStart_word, List.map_cons,
    List.map_cons]
  by_cases h : w.map toLower = v.map toLower
  · simp [h]
  · simp [h]

/-! ## The parser -/

/-- What the patterns make of the text behind the last dot. -/
def lastExtension (ft : Filetype) (ag : Aggregate) (w : Bytes) : Option Int :=
  if ag.combined = .sparse then if isNumber w = true then some (atoi w) else none
  else if w.map toLower = ascii "all" then some extensionAll
  else if ft.format = .bitfield ∧ w.map toLower = ascii "byte" then some extensionByte
  else
    (if ft.letters = true then oneLetter w else if isNumber w = true then some (atoi w)
      else none).bind fun e => if e < 0 ∨ e ≥ ag.elements then none else some e

theorem parseExtension_eq {ft : Filetype} {ag : Aggregate} (hag : ft.ag = some ag)
    (htext : ¬(ag.combined = .sparse ∧ ft.letters = true)) (u : Bytes) {w : Bytes} (hw : dot ∉ w)
    (post : Bytes) (pn : ParsedName) :
    parseExtension (u ++ dot :: w) (some post) ft pn = (lastExtension ft ag w).map fun e =>
      { pn with extension := e } := by
  have hall : (rxAll.exec true (u ++ dot :: w)).isSome = true ↔ w.map toLower = ascii "all" :=
    exec_word_dot (v := ascii "all") (by decide) u hw
  have hbyte : (rxByte.exec true (u ++ dot :: w)).isSome = true ↔ w.map toLower = ascii "byte" :=
    exec_word_dot (v := ascii "byte") (by decide) u hw
  have hcheck (o : Option Int) :
      (o.bind fun extension => if extension < 0 ∨ extension ≥ ag.elements then none
        else some { pn with extension }) =
        (o.bind fun e => if e < 0 ∨ e ≥ ag.elements then none else some e).map fun extension =>
          { pn with extension } := by
    cases o with
    | none => rfl
    | some e =>
      by_cases hrange : e < 0 ∨ e ≥ ag.elements
      · simp [hrange]
      · simp [hrange]
  unfold parseExtension
  simp only [hag]
  rw [extensionOf_rxNumber atoi u hw, extensionOf_rxLetter u hw, lastExtension,
    if_congr hall rfl rfl, if_congr (and_congr_right' hbyte) rfl rfl]
  by_cases hsparse : ag.combined = .sparse
  · have hnumbers : ¬ft.letters = true := fun h => htext ⟨hsparse, h⟩
    rw [if_pos hsparse, if_pos hsparse, if_neg hnumbers]
  · rw [if_neg hsparse, if_neg hsparse]
    by_cases h1 : w.map toLower = ascii "all"
    · rw [if_pos h1, if_pos h1]
      rfl
    · rw [if_neg h1, if_neg h1]
      by_cases h2 : ft.format = .bitfield ∧ w.map toLower = ascii "byte"
      · rw [if_pos h2, if_pos h2]
        rfl
      · rw [if_neg h2, if_neg h2]
        by_cases hletters : ft.letters = true
        · rw [if_pos hletters, if_pos hletters]
          exact hcheck (oneLetter w)
        · rw [if_neg hletters, if_neg hletters]
          exact hcheck _

/-- The first dot. -/
theorem exec_rxExtension_append {a : Bytes} (ha : dot ∉ a) (post : Bytes) :
    rxExtension.exec false (a ++ dot :: post) = some ⟨a, [], post⟩ := by
  have hne : ∀ b ∈ a, (!(b == chr '.')) = true := by
    intro b hb
    have hb' : b ≠ chr '.' := by
      rintro rfl
      exact ha hb
    simp [hb']
  rw [rxExtension, Rx.exec_one, if_pos (by simp [dot]), List.takeWhile_append_of_pos hne,
    List.dropWhile_append_of_pos hne]
  simp [dot]

theorem exec_rxExtension_eq_none {s : Bytes} (hs : dot ∉ s) : rxExtension.exec false s = none := by
  rw [rxExtension, Rx.exec_one, if_neg]
  simpa [dot] using hs

theorem nameOf_append {a : Bytes} (ha : dot ∉ a) (post : Bytes) :
    nameOf (a ++ dot :: post) = a := by
  rw [nameOf, exec_rxExtension_append ha]
  rfl

theorem nameOf_of_not_mem {s : Bytes} (hs : dot ∉ s) : nameOf s = s := by
  rw [nameOf, exec_rxExtension_eq_none hs]
  rfl

/-- A segment is a name, or a name, a dot and something. -/
theorem exists_split (s : Bytes) : dot ∉ s ∨ ∃ a post, dot ∉ a ∧ s = a ++ dot :: post := by
  by_cases hs : dot ∈ s
  · obtain ⟨a, post, rfl, ha⟩ := List.eq_append_cons_of_mem hs
    exact .inr ⟨a, post, ha, rfl⟩
  · exact .inl hs

/-- The text behind the last dot, and what is in front of it. -/
theorem exists_append_rtakeWhile (a post : Bytes) :
    ∃ u, a ++ dot :: post = u ++ dot :: post.rtakeWhile (· ≠ dot) := by
  induction post using List.reverseRecOn generalizing a with
  | nil => exact ⟨a, rfl⟩
  | append_singleton post b ih =>
    by_cases hb : b = dot
    · refine ⟨a ++ dot :: post, ?_⟩
      rw [List.rtakeWhile_concat_neg _ _ _ (by simp [hb]), hb]
      simp
    · obtain ⟨u, hu⟩ := ih a
      refine ⟨u, ?_⟩
      rw [List.rtakeWhile_concat_pos _ _ _ (by simp [hb]), ← List.cons_append, ← List.append_assoc,
        hu]
      simp

theorem not_mem_rtakeWhile (post : Bytes) : dot ∉ post.rtakeWhile (· ≠ dot) := by
  intro h
  simpa using List.mem_rtakeWhile_imp h

theorem rtakeWhile_eq_self {post : Bytes} (h : dot ∉ post) : post.rtakeWhile (· ≠ dot) = post := by
  refine List.rtakeWhile_eq_self_iff.mpr fun b hb => ?_
  have : b ≠ dot := fun heq => h (heq ▸ hb)
  simpa using this

/-- The element that the parser reads from a segment, once it has the property. -/
inductive Reads (ft : Filetype) : Bytes → Element → Prop where
  | plain (s : Bytes) : dot ∉ s → ft.ag = none → Reads ft s (0, none)
  | text (ag : Aggregate) (a post : Bytes) : dot ∉ a → ft.ag = some ag → ag.combined = .sparse →
      ft.letters = true →
    Reads ft (a ++ dot :: post) (0, some post)
  | element (ag : Aggregate) (a post : Bytes) (e : Int) : dot ∉ a → ft.ag = some ag →
      ¬(ag.combined = .sparse ∧ ft.letters = true) →
    lastExtension ft ag (post.rtakeWhile (· ≠ dot)) = some e → Reads ft (a ++ dot :: post) (e, none)

/-- What happens after the extension is read changes neither it nor the text. -/
theorem parseProperty_eq {env : Env} {pn : ParsedName} {pdev : Device}
    (hdev : pn.selectedDevice = some pdev) (hremote : pdev ≠ .remote) {filename : Bytes}
    {ft : Filetype} (hft : (env.filetypeArray pdev).find? (·.name == nameOf filename) = some ft)
    (e : Element) :
    ((parseProperty env filename pn).1 ≠ .error ∧
      elementOf ft (parseProperty env filename pn).2 = e) ↔
      ∃ pn', parseExtension filename ((rxExtension.exec false filename).map Rx.Match.post) ft
        { pn with selectedFiletype := some ft } = some pn' ∧ elementOf ft pn' = e := by
  rw [nameOf] at hft
  unfold parseProperty
  rw [hdev]
  cases pdev with
  | remote => exact absurd rfl hremote
  | _ =>
    simp only [hft]
    rw [← hdev]
    cases parseExtension filename ((rxExtension.exec false filename).map Rx.Match.post) ft
        { pn with selectedFiletype := some ft } with
    | none => simp
    | some pn' =>
      simp only [Option.some.injEq, exists_eq_left']
      split
      · split
        · simp
        · simp [branchAdd, elementOf]
      · simp [elementOf]
      · simp

theorem elementOf_eq {ft : Filetype} {pn : ParsedName}
    (h : ¬(ft.letters = true ∧ ∃ ag, ft.ag = some ag ∧ ag.combined = .sparse)) :
    elementOf ft pn = (pn.extension, none) := by
  rw [elementOf, if_neg h]

theorem reads_iff {env : Env} {pn : ParsedName} {pdev : Device}
    (hdev : pn.selectedDevice = some pdev) (hremote : pdev ≠ .remote) {filename : Bytes}
    {ft : Filetype} (hft : (env.filetypeArray pdev).find? (·.name == nameOf filename) = some ft)
    (e : Element) :
    ((parseProperty env filename pn).1 ≠ .error ∧
      elementOf ft (parseProperty env filename pn).2 = e) ↔ Reads ft filename e := by
  rw [parseProperty_eq hdev hremote hft]
  obtain hdot | ⟨a, post, ha, rfl⟩ := exists_split filename
  · rw [exec_rxExtension_eq_none hdot, Option.map_none]
    cases hag : ft.ag with
    | none =>
      have hplain : ¬(ft.letters = true ∧ ∃ ag, ft.ag = some ag ∧
          ag.combined = .sparse) := by simp [hag]
      simp only [parseExtension, hag, Option.some.injEq, exists_eq_left', elementOf_eq hplain]
      constructor
      · rintro rfl
        exact .plain _ hdot hag
      · intro h
        cases h with
        | plain => rfl
        | text ag a post => simp at hdot
        | element ag a post e => simp at hdot
    | some ag =>
      simp only [parseExtension, hag, reduceCtorEq, false_and, exists_false, false_iff]
      intro h
      cases h with
      | plain _ _ hnone => simp [hag] at hnone
      | text ag a post => simp at hdot
      | element ag a post e => simp at hdot
  · rw [exec_rxExtension_append ha, Option.map_some]
    have hsplit {a' post' : Bytes} (ha' : dot ∉ a') (heq : a ++ dot :: post = a' ++ dot :: post') :
        a = a' ∧ post = post' := by
      have hname := congrArg nameOf heq
      rw [nameOf_append ha, nameOf_append ha'] at hname
      subst hname
      exact ⟨rfl, by simpa using heq⟩
    cases hag : ft.ag with
    | none =>
      simp only [parseExtension, hag, reduceCtorEq, false_and, exists_false, false_iff]
      intro h
      generalize hs : a ++ dot :: post = s at h
      cases h with
      | plain _ hdot => simp [← hs] at hdot
      | text ag _ _ _ hsome => simp [hag] at hsome
      | element ag _ _ _ _ hsome => simp [hag] at hsome
    | some ag =>
      by_cases htext : ag.combined = .sparse ∧ ft.letters = true
      · have helement : ft.letters = true ∧ ∃ ag, ft.ag = some ag ∧ ag.combined = .sparse :=
          ⟨htext.2, ag, hag, htext.1⟩
        simp only [parseExtension, hag, if_pos htext.1, if_pos htext.2, Option.some.injEq,
          exists_eq_left']
        rw [elementOf, if_pos helement]
        constructor
        · rintro rfl
          exact .text ag a post ha hag htext.1 htext.2
        · intro h
          generalize hs : a ++ dot :: post = s at h
          cases h with
          | plain _ hdot => simp [← hs] at hdot
          | text ag' a' post' ha' =>
            obtain ⟨-, rfl⟩ := hsplit ha' hs
            rfl
          | element ag' _ _ _ _ hsome hnot =>
            rw [hag, Option.some.injEq] at hsome
            exact absurd (hsome ▸ htext) hnot
      · have helement : ¬(ft.letters = true ∧ ∃ ag, ft.ag = some ag ∧ ag.combined = .sparse) := by
          rintro ⟨hletters, ag', hag', hsparse⟩
          rw [hag, Option.some.injEq] at hag'
          exact htext ⟨hag' ▸ hsparse, hletters⟩
        obtain ⟨u, hu⟩ := exists_append_rtakeWhile a post
        have hparse :=
          parseExtension_eq hag htext u (not_mem_rtakeWhile post) post
            { pn with selectedFiletype := some ft }
        rw [← hu] at hparse
        rw [hparse]
        simp only [Option.map_eq_some_iff, exists_exists_and_eq_and, elementOf_eq helement]
        constructor
        · rintro ⟨e, he, rfl⟩
          exact .element ag a post e ha hag htext he
        · intro h
          generalize hs : a ++ dot :: post = s at h
          cases h with
          | plain _ hdot => simp [← hs] at hdot
          | text ag' _ _ _ hsome hsparse hletters =>
            rw [hag, Option.some.injEq] at hsome
            exact absurd ⟨hsome ▸ hsparse, hletters⟩ htext
          | element ag' a' post' e ha' hsome _ he =>
            obtain ⟨-, rfl⟩ := hsplit ha' hs
            rw [hag, Option.some.injEq] at hsome
            exact ⟨e, hsome ▸ he, rfl⟩

/-! ## Extensions -/

theorem atoi_eq_iff (ds : Bytes) : atoi ds = digitsValue ds ↔ digitsValue ds < 2 ^ 31 := by
  have hrange := toInt_ofInt_eq_iff (digitsValue ds)
  constructor
  · intro h
    have hlt := BitVec.toInt_lt (x := BitVec.ofNat 32 (min (digitsValue ds) (2 ^ 63 - 1)))
    rw [atoi] at h
    omega
  · intro h
    rw [atoi, Nat.min_eq_left (by omega), ← BitVec.ofInt_natCast]
    exact hrange.mpr (by omega)

theorem toLower_digit : ∀ b : Byte, isDigit b = true → toLower b = b := by decide +kernel

theorem letterIndex_alpha :
    ∀ b : Byte, isAlpha b = true → 0 ≤ letterIndex b ∧ letterIndex b < 26 := by decide +kernel

/-- A number is no word. -/
theorem map_toLower_of_isNumber {x : Bytes} (hx : isNumber x = true) : x.map toLower = x := by
  have hall := List.all_eq_true.mp ((Bool.and_eq_true _ _).mp hx).2
  exact (List.map_congr_left fun b hb => toLower_digit b (hall b hb)).trans (List.map_id x)

theorem not_isNumber_of_word {x v : Bytes} (h : x.map toLower = v) (hv : isNumber v = false) :
    ¬isNumber x = true := by
  intro hx
  rw [map_toLower_of_isNumber hx] at h
  rw [h, hv] at hx
  cases hx

theorem not_dot_mem_of_isNumber {x : Bytes} (hx : isNumber x = true) : dot ∉ x := by
  intro hmem
  have hdigit := List.all_eq_true.mp ((Bool.and_eq_true _ _).mp hx).2 dot hmem
  rw [not_isDigit_dot] at hdigit
  cases hdigit

theorem isDigit_of_isAlpha : ∀ b : Byte, isAlpha b = true → isDigit b = false := by decide +kernel

theorem not_isNumber_letter {b : Byte} (hb : isAlpha b = true) : ¬isNumber [b] = true := by
  intro hx
  have hdigit := List.all_eq_true.mp ((Bool.and_eq_true _ _).mp hx).2 b List.mem_cons_self
  rw [isDigit_of_isAlpha b hb] at hdigit
  cases hdigit

/-- There is no dot in an extension. -/
theorem Denotes.not_dot_mem {ft : Filetype} {ag : Aggregate} {x : Bytes} {e : Element}
    (h : Denotes ft ag x e) (htext : ¬(ag.combined = .sparse ∧ ft.letters = true)) : dot ∉ x := by
  have hword {v : Bytes} (hx : x.map toLower = v) (hv : dot ∉ v) : dot ∉ x := by
    intro hmem
    have hlow := List.mem_map_of_mem (f := toLower) hmem
    rw [hx, (toLower_eq_dot dot).mpr rfl] at hlow
    exact hv hlow
  cases h with
  | text _ hsparse hletters => exact absurd ⟨hsparse, hletters⟩ htext
  | sparse _ _ _ hnumber => exact not_dot_mem_of_isNumber hnumber
  | all _ _ hall => exact hword hall (by decide)
  | byte _ _ _ hbyte => exact hword hbyte (by decide)
  | letter b _ _ hb =>
    rw [List.mem_singleton]
    rintro rfl
    rw [not_isAlpha_dot] at hb
    cases hb
  | number _ _ _ hnumber => exact not_dot_mem_of_isNumber hnumber

theorem oneLetter_eq_some_iff (x : Bytes) (e : Int) :
    oneLetter x = some e ↔ ∃ b, x = [b] ∧ isAlpha b = true ∧ letterIndex b = e := by
  match x with
  | [] => simp [oneLetter]
  | [b] => simp [oneLetter]
  | b :: b' :: w => simp [oneLetter]

/-- The parser understands an extension that is no number, or a small one. -/
theorem lastExtension_eq_some_iff {ft : Filetype} {ag : Aggregate}
    (htext : ¬(ag.combined = .sparse ∧ ft.letters = true)) {x : Bytes}
    (hsmall : isNumber x = true → digitsValue x < 2 ^ 31) (e : Int) :
    lastExtension ft ag x = some e ↔ Denotes ft ag x (e, none) := by
  have hnumber : (if isNumber x = true then some (atoi x) else none) = some e ↔ isNumber x = true ∧
      (digitsValue x : Int) = e := by
    by_cases hx : isNumber x = true
    · simp [hx, (atoi_eq_iff x).mpr (hsmall hx)]
    · simp [hx]
  unfold lastExtension
  by_cases hsparse : ag.combined = .sparse
  · have hletters : ft.letters = false := by simpa using fun h => htext ⟨hsparse, h⟩
    rw [if_pos hsparse, hnumber]
    constructor
    · rintro ⟨hx, rfl⟩
      exact .sparse x hsparse hletters hx
    · intro h
      cases h with
      | sparse _ _ _ hx => exact ⟨hx, rfl⟩
      | all _ hne => exact absurd hsparse hne
      | byte _ hne => exact absurd hsparse hne
      | letter _ hne => exact absurd hsparse hne
      | number _ hne => exact absurd hsparse hne
  rw [if_neg hsparse]
  by_cases hall : x.map toLower = ascii "all"
  · rw [if_pos hall, Option.some.injEq]
    constructor
    · rintro rfl
      exact .all x hsparse hall
    · intro h
      cases h with
      | sparse _ hyes => exact absurd hyes hsparse
      | all => rfl
      | byte _ _ _ hbyte => exact absurd (hall.symm.trans hbyte) (by decide)
      | letter b => exact absurd (congrArg List.length hall) (show 1 ≠ 3 by decide)
      | number _ _ _ hx => exact absurd hx (not_isNumber_of_word hall (by decide))
  rw [if_neg hall]
  by_cases hbyte : ft.format = .bitfield ∧ x.map toLower = ascii "byte"
  · rw [if_pos hbyte, Option.some.injEq]
    constructor
    · rintro rfl
      exact .byte x hsparse hbyte.1 hbyte.2
    · intro h
      cases h with
      | sparse _ hyes => exact absurd hyes hsparse
      | all _ _ hyes => exact absurd hyes hall
      | byte => rfl
      | letter b => exact absurd (congrArg List.length hbyte.2) (show 1 ≠ 4 by decide)
      | number _ _ _ hx => exact absurd hx (not_isNumber_of_word hbyte.2 (by decide))
  rw [if_neg hbyte, Option.bind_eq_some_iff]
  by_cases hletters : ft.letters = true
  · simp only [if_pos hletters, oneLetter_eq_some_iff]
    constructor
    · rintro ⟨_, ⟨b, rfl, hb, rfl⟩, hrange⟩
      split at hrange
      · cases hrange
      · rename_i hin
        cases hrange
        exact .letter b hsparse hletters hb (by omega)
    · intro h
      cases h with
      | sparse _ hyes => exact absurd hyes hsparse
      | all _ _ hyes => exact absurd hyes hall
      | byte _ _ hf hyes => exact absurd ⟨hf, hyes⟩ hbyte
      | letter b _ _ hb hlt =>
        have hnonneg := (letterIndex_alpha b hb).1
        exact ⟨_, ⟨b, rfl, hb, rfl⟩, if_neg (by omega)⟩
      | number _ _ hno => simp [hletters] at hno
  · simp only [if_neg hletters]
    constructor
    · rintro ⟨v, hv, hrange⟩
      by_cases hx : isNumber x = true
      · rw [if_pos hx, Option.some.injEq, (atoi_eq_iff x).mpr (hsmall hx)] at hv
        subst hv
        split at hrange
        · cases hrange
        · rename_i hin
          cases hrange
          exact .number x hsparse (by simpa using hletters) hx (by omega)
      · rw [if_neg hx] at hv
        cases hv
    · intro h
      cases h with
      | sparse _ hyes => exact absurd hyes hsparse
      | all _ _ hyes => exact absurd hyes hall
      | byte _ _ hf hyes => exact absurd ⟨hf, hyes⟩ hbyte
      | letter _ _ hyes => exact absurd hyes hletters
      | number _ _ _ hx hlt =>
        refine ⟨digitsValue x, ?_, if_neg (by omega)⟩
        rw [if_pos hx, (atoi_eq_iff x).mpr (hsmall hx)]

/-- All the ways in which the parser takes a text as an extension. -/
theorem lastExtension_cases {ft : Filetype} {ag : Aggregate} {w : Bytes} {e : Int}
    (h : lastExtension ft ag w = some e) :
    (isNumber w = true ∧ e = atoi w ∧ (ag.combined ≠ .sparse → ft.letters = false ∧ 0 ≤ e)) ∨
      (w.map toLower = ascii "all" ∧ e = extensionAll) ∨
      (w.map toLower = ascii "byte" ∧ e = extensionByte) ∨
      (ag.combined ≠ .sparse ∧ ft.letters = true ∧ ∃ b, w = [b] ∧ isAlpha b = true ∧
      letterIndex b = e) := by
  have hnumber (h : (if isNumber w = true then some (atoi w) else none) = some e) :
      isNumber w = true ∧ e = atoi w := by
    split at h
    · exact ⟨‹_›, (Option.some.inj h).symm⟩
    · cases h
  unfold lastExtension at h
  by_cases hsparse : ag.combined = .sparse
  · rw [if_pos hsparse] at h
    obtain ⟨hx, he⟩ := hnumber h
    exact .inl ⟨hx, he, fun hne => absurd hsparse hne⟩
  rw [if_neg hsparse] at h
  by_cases hall : w.map toLower = ascii "all"
  · rw [if_pos hall] at h
    exact .inr (.inl ⟨hall, (Option.some.inj h).symm⟩)
  rw [if_neg hall] at h
  by_cases hbyte : ft.format = .bitfield ∧ w.map toLower = ascii "byte"
  · rw [if_pos hbyte] at h
    exact .inr (.inr (.inl ⟨hbyte.2, (Option.some.inj h).symm⟩))
  rw [if_neg hbyte, Option.bind_eq_some_iff] at h
  obtain ⟨v, hv, hrange⟩ := h
  have hin : ¬(v < 0 ∨ v ≥ ag.elements) := by
    intro hout
    rw [if_pos hout] at hrange
    cases hrange
  rw [if_neg hin] at hrange
  obtain rfl := Option.some.inj hrange
  by_cases hletters : ft.letters = true
  · rw [if_pos hletters, oneLetter_eq_some_iff] at hv
    exact .inr (.inr (.inr ⟨hsparse, hletters, hv⟩))
  · rw [if_neg hletters] at hv
    obtain ⟨hx, he⟩ := hnumber hv
    exact .inl ⟨hx, he, fun _ => ⟨by simpa using hletters, by omega⟩⟩

/-- A number that the parser takes as an extension is what `atoi` makes of it. -/
theorem eq_atoi_of_lastExtension {ft : Filetype} {ag : Aggregate} {x : Bytes} {e : Int}
    (h : lastExtension ft ag x = some e) (hx : isNumber x = true) : e = atoi x := by
  obtain ⟨-, he, -⟩ | ⟨hall, -⟩ | ⟨hbyte, -⟩ | ⟨-, -, b, rfl, hb, -⟩ := lastExtension_cases h
  · exact he
  · exact absurd hx (not_isNumber_of_word hall (by decide))
  · exact absurd hx (not_isNumber_of_word hbyte (by decide))
  · exact absurd hx (not_isNumber_letter hb)

/-! ## Segments -/

section

variable {env : Env} {pn : ParsedName} {pdev : Device}

/-- In a sorted array `bsearch` finds the property that `find?` finds. -/
theorem find?_eq_some_iff_bsearch {array : List Filetype}
    (hsorted : array.Pairwise fun a b => strcmp a.name b.name = .lt) (name : Bytes)
    (ft : Filetype) :
    array.find? (·.name == name) = some ft ↔
      bsearch (fun f => strcmp name f.name) array = some ft := by
  have hmem {x : Filetype} (hx : array.find? (·.name == name) = some x) :
      bsearch (fun f => strcmp name f.name) array = some x := by
    have hname := List.find?_some hx
    simp only [beq_iff_eq] at hname
    exact (bsearch_strcmp hsorted name x).mpr ⟨List.mem_of_find?_eq_some hx, hname.symm⟩
  refine ⟨hmem, fun h => ?_⟩
  obtain ⟨hft, rfl⟩ := (bsearch_strcmp hsorted name ft).mp h
  cases hx : array.find? (·.name == ft.name) with
  | none => exact absurd (List.find?_eq_none.mp hx ft hft) (by simp)
  | some x => exact (hmem hx).symm.trans h

theorem readsAs_iff (hdev : pn.selectedDevice = some pdev) (hremote : pdev ≠ .remote)
    (hsorted : (env.filetypeArray pdev).Pairwise fun a b => strcmp a.name b.name = .lt)
    (filename : Bytes) (ft : Filetype) (e : Element) :
    ReadsAs env pdev pn filename ft e ↔ ft ∈ env.filetypeArray pdev ∧ nameOf filename = ft.name ∧
      Reads ft filename e := by
  rw [ReadsAs, ← and_assoc (a := ft ∈ _), ← bsearch_strcmp hsorted]
  refine and_congr_right fun hft => ?_
  exact reads_iff hdev hremote ((find?_eq_some_iff_bsearch hsorted _ ft).mpr hft) e

/-- The segments that the parser and the grammar understand alike. No property with a dot in its
name is meant, and if the text behind the last dot does as an extension, then this is the only dot,
and a number is not too large. -/
def Unambiguous (array : List Filetype) (filename : Bytes) : Prop :=
  (∀ ft ∈ array, ∀ e, Names ft filename e → dot ∉ ft.name) ∧
  ∀ ft ∈ array, ∀ ag post, ft.ag = some ag → ¬(ag.combined = .sparse ∧ ft.letters = true) →
  dot ∉ ft.name →
    filename = ft.name ++ dot :: post →
    (lastExtension ft ag (post.rtakeWhile (· ≠ dot))).isSome = true →
    dot ∉ post ∧ (isNumber post = true → digitsValue post < 2 ^ 31)

theorem not_dot_mem_nameOf (filename : Bytes) : dot ∉ nameOf filename := by
  obtain hdot | ⟨a, post, ha, rfl⟩ := exists_split filename
  · rwa [nameOf_of_not_mem hdot]
  · rwa [nameOf_append ha]

theorem reads_of_names {ft : Filetype} (helements : ∀ ag, ft.ag = some ag → ag.elements < 2 ^ 31)
    (hdot : dot ∉ ft.name) {filename : Bytes} {e : Element} (hnames : Names ft filename e)
    (hsmall : ∀ ag post, ft.ag = some ag → ¬(ag.combined = .sparse ∧ ft.letters = true) →
      filename = ft.name ++ dot :: post →
      (lastExtension ft ag (post.rtakeWhile (· ≠ dot))).isSome = true → isNumber post = true →
      digitsValue post < 2 ^ 31) :
    Reads ft filename e := by
  cases hnames with
  | plain hag => exact .plain _ hdot hag
  | element ag x e hag hdenotes =>
    by_cases htext : ag.combined = .sparse ∧ ft.letters = true
    · cases hdenotes with
      | text => exact .text ag _ x hdot hag htext.1 htext.2
      | sparse _ _ hno => simp [htext.2] at hno
      | all _ hne => exact absurd htext.1 hne
      | byte _ hne => exact absurd htext.1 hne
      | letter _ hne => exact absurd htext.1 hne
      | number _ hne => exact absurd htext.1 hne
    · have hx := rtakeWhile_eq_self (hdenotes.not_dot_mem htext)
      have hlast := hsmall ag x hag htext rfl
      rw [hx] at hlast
      -- numbers of the grammar are smaller than the number of elements, or in a sparse array
      have hx' : isNumber x = true → digitsValue x < 2 ^ 31 := by
        intro hnumber
        have hbound := helements ag hag
        cases hdenotes with
        | text _ hsparse hletters => exact absurd ⟨hsparse, hletters⟩ htext
        | sparse _ hsparse =>
          refine hlast ?_ hnumber
          rw [lastExtension, if_pos hsparse, if_pos hnumber]
          rfl
        | all _ _ hall => exact absurd hnumber (not_isNumber_of_word hall (by decide))
        | byte _ _ _ hbyte => exact absurd hnumber (not_isNumber_of_word hbyte (by decide))
        | letter b _ _ hb => exact absurd hnumber (not_isNumber_letter hb)
        | number _ _ _ _ hlt => omega
      obtain ⟨v, rfl⟩ : ∃ v, e = (v, none) := by
        cases hdenotes with
        | text _ hsparse hletters => exact absurd ⟨hsparse, hletters⟩ htext
        | sparse => exact ⟨_, rfl⟩
        | all => exact ⟨_, rfl⟩
        | byte => exact ⟨_, rfl⟩
        | letter => exact ⟨_, rfl⟩
        | number => exact ⟨_, rfl⟩
      refine .element ag _ x v hdot hag htext ?_
      rw [hx]
      exact (lastExtension_eq_some_iff htext hx' v).mpr hdenotes

theorem names_of_reads {ft : Filetype} {filename : Bytes} {e : Element}
    (hname : nameOf filename = ft.name) (hreads : Reads ft filename e)
    (hlast : ∀ ag post, ft.ag = some ag → ¬(ag.combined = .sparse ∧ ft.letters = true) →
      filename = ft.name ++ dot :: post →
      (lastExtension ft ag (post.rtakeWhile (· ≠ dot))).isSome = true →
      dot ∉ post ∧ (isNumber post = true → digitsValue post < 2 ^ 31)) : Names ft filename e := by
  cases hreads with
  | plain _ hdot hag =>
    rw [nameOf_of_not_mem hdot] at hname
    rw [hname]
    exact .plain hag
  | text ag a post ha hag hsparse hletters =>
    rw [nameOf_append ha] at hname
    rw [hname]
    exact .element ag post _ hag (.text post hsparse hletters)
  | element ag a post e ha hag htext he =>
    rw [nameOf_append ha] at hname
    obtain ⟨hdot, hsmall⟩ := hlast ag post hag htext (by rw [hname]) (Option.isSome_of_eq_some he)
    rw [rtakeWhile_eq_self hdot] at he
    rw [hname]
    exact .element ag post _ hag ((lastExtension_eq_some_iff htext hsmall e).mp he)

theorem readsAs_iff_names_iff (hdev : pn.selectedDevice = some pdev) (hremote : pdev ≠ .remote)
    (hsorted : (env.filetypeArray pdev).Pairwise fun a b => strcmp a.name b.name = .lt)
    (helements : ∀ ft ∈ env.filetypeArray pdev, ∀ ag, ft.ag = some ag → ag.elements < 2 ^ 31)
    (filename : Bytes) :
    (∀ ft e, ReadsAs env pdev pn filename ft e ↔ ft ∈ env.filetypeArray pdev ∧
      Names ft filename e) ↔
      Unambiguous (env.filetypeArray pdev) filename := by
  simp only [readsAs_iff hdev hremote hsorted]
  constructor
  · intro h
    refine ⟨fun ft hft e hnames => ?_, ?_⟩
    · rw [← ((h ft e).mpr ⟨hft, hnames⟩).2.1]
      exact not_dot_mem_nameOf filename
    · rintro ft hft ag post hag htext hdot rfl hsome
      obtain ⟨e, he⟩ := Option.isSome_iff_exists.mp hsome
      have hnames :=
        ((h ft (e, none)).mp ⟨hft, nameOf_append hdot post,
          .element ag _ post e hdot hag htext he⟩).2
      generalize hs : ft.name ++ dot :: post = s at hnames
      cases hnames with
      | plain hnone => simp [hag] at hnone
      | element ag' x _ hag' hdenotes =>
        obtain rfl : ag = ag' := by simpa [hag] using hag'
        obtain rfl : post = x := by simpa using hs
        have hpost := hdenotes.not_dot_mem htext
        refine ⟨hpost, fun hnumber => ?_⟩
        rw [rtakeWhile_eq_self hpost] at he
        have hvalue : e = digitsValue post := by
          cases hdenotes with
          | sparse => rfl
          | all _ _ hall => exact absurd hnumber (not_isNumber_of_word hall (by decide))
          | byte _ _ _ hbyte => exact absurd hnumber (not_isNumber_of_word hbyte (by decide))
          | letter b _ _ hb => exact absurd hnumber (not_isNumber_letter hb)
          | number => rfl
        rw [← atoi_eq_iff, ← eq_atoi_of_lastExtension he hnumber, hvalue]
  · rintro ⟨hnodot, hlast⟩ ft e
    constructor
    · rintro ⟨hft, hname, hreads⟩
      refine ⟨hft, names_of_reads hname hreads fun ag post hag htext hpost =>
        hlast ft hft ag post hag htext ?_ hpost⟩
      rw [← hname]
      exact not_dot_mem_nameOf filename
    · rintro ⟨hft, hnames⟩
      have hdot := hnodot ft hft e hnames
      have hreads :=
        reads_of_names (helements ft hft) hdot hnames fun ag post hag htext hpost hsome =>
        (hlast ft hft ag post hag htext hdot hpost hsome).2
      refine ⟨hft, ?_, hreads⟩
      cases hnames with
      | plain => exact nameOf_of_not_mem hdot
      | element => exact nameOf_append hdot _

end

/-! ## Names that are built -/

/-- The extensions that an aggregate has. -/
inductive HasExtension (ft : Filetype) (ag : Aggregate) : Int → Prop where
  | all : ag.combined ≠ .sparse → HasExtension ft ag extensionAll
  | byte : ag.combined ≠ .sparse → ft.format = .bitfield → HasExtension ft ag extensionByte
  | index (e : Nat) : ag.combined ≠ .sparse → e < ag.elements → HasExtension ft ag e
  | sparse (e : Nat) : ag.combined = .sparse → ft.letters = false → e < 2 ^ 31 →
      HasExtension ft ag e

theorem digitsValue_append (x y : Bytes) :
    digitsValue (x ++ y) = digitsValue x * 10 ^ y.length + digitsValue y := by
  induction y using List.reverseRecOn with
  | nil => simp [digitsValue]
  | append_singleton y b ih =>
    have hlast (z : Bytes) : digitsValue (z ++ [b]) = 10 * digitsValue z + (b - chr '0').toNat := by
      rw [digitsValue, List.foldl_append]
      rfl
    rw [← List.append_assoc, hlast, hlast, ih, List.length_append, List.length_singleton, pow_succ]
    ring

/-- No other beginning of a number has its value. -/
theorem eq_decimal_of_prefix {n : Nat} (hn : n < 2 ^ 31) {x : Bytes} (hbegins : x <+: decimal n)
    (hne : x ≠ []) (hx : atoi x = n) : x = decimal n := by
  obtain ⟨y, hy⟩ := hbegins
  have hvalue := congrArg digitsValue hy
  rw [digitsValue_append, digitsValue_decimal] at hvalue
  have hle : digitsValue x ≤ digitsValue x * 10 ^ y.length :=
    Nat.le_mul_of_pos_right _ (by positivity)
  rw [(atoi_eq_iff x).mpr (by omega)] at hx
  have hx' : digitsValue x = n := by exact_mod_cast hx
  cases y with
  | nil => rw [← hy, List.append_nil]
  | cons b y =>
    have hmul : digitsValue x * 10 ≤ digitsValue x * 10 ^ (b :: y).length := by
      rw [List.length_cons, pow_succ, ← mul_assoc, mul_comm _ 10, mul_comm _ 10]
      exact Nat.mul_le_mul_left 10 (Nat.le_mul_of_pos_right _ (by positivity))
    -- the number can only be zero, and this has one digit
    have hzero : n = 0 := by omega
    rw [hzero] at hy
    have hlength := congrArg List.length hy
    have hone : (decimal 0).length = 1 := rfl
    rw [List.length_append, List.length_cons, hone] at hlength
    exact absurd (List.length_eq_zero_iff.mp (by omega)) hne

theorem isNumber_decimal (n : Nat) : isNumber (decimal n) = true := by
  rw [isNumber, Bool.and_eq_true, List.all_eq_true]
  refine ⟨?_, fun b hb => isDigit_of_mem_decimal hb⟩
  simpa using decimal_ne_nil n

theorem letter_of_lt :
    ∀ e < 26, [BitVec.ofNat 8 (65 + e)].takeWhile (· ≠ (0 : Byte)) = [BitVec.ofNat 8 (65 + e)] ∧
    isAlpha (BitVec.ofNat 8 (65 + e)) = true ∧
    letterIndex (BitVec.ofNat 8 (65 + e)) = e := by decide +kernel

theorem extensionText_letter {e : Nat} (he : e < 26) :
    extensionText e true = [BitVec.ofNat 8 (65 + e)] := by
  have hA : (((chr 'A').toNat : Int) + (e : Int)) = ((65 + e : Nat) : Int) := by
    rw [Nat.cast_add]
    rfl
  rw [extensionText, if_neg (by unfold extensionByte; omega),
    if_neg (by unfold extensionAll; omega), if_pos rfl, hA, BitVec.ofInt_natCast,
    (letter_of_lt e he).1]

theorem extensionText_number (e : Nat) : extensionText e false = decimal e := by
  rw [extensionText, if_neg (by unfold extensionByte; omega),
    if_neg (by unfold extensionAll; omega), if_neg (by decide), signedDecimal, if_neg (by omega),
    Int.natAbs_natCast]

theorem HasExtension.lt {ft : Filetype} {ag : Aggregate} {e : Int} (h : HasExtension ft ag e)
    (helements : ag.elements < 2 ^ 31) :
    e < 2 ^ 31 := by
  cases h with
  | all => decide
  | byte => decide
  | index e _ he => omega
  | sparse e _ _ he => omega

/-- The text of an extension stands for it, unless there are not enough letters. -/
theorem denotes_extensionText {ft : Filetype} {ag : Aggregate} {e : Int} (h : HasExtension ft ag e)
    (hletters : ft.letters = true → e < 26) :
    Denotes ft ag (extensionText e ft.letters) (e, none) := by
  cases h with
  | all hne => exact .all _ hne (show (ascii "ALL").map toLower = ascii "all" by decide)
  | byte hne hformat =>
      exact .byte _ hne hformat (show (ascii "BYTE").map toLower = ascii "byte" by decide)
  | index e hne he =>
    cases hl : ft.letters with
    | true =>
      have he' : e < 26 := by exact_mod_cast hletters hl
      obtain ⟨-, halpha, hindex⟩ := letter_of_lt e he'
      have hletter := @Denotes.letter ft ag (BitVec.ofNat 8 (65 + e)) hne hl halpha
        (by rw [hindex]; exact_mod_cast he)
      rw [extensionText_letter he', ← hindex]
      exact hletter
    | false =>
      have hnumber :=
        @Denotes.number ft ag (decimal e) hne hl (isNumber_decimal e) (by rwa [digitsValue_decimal])
      rw [digitsValue_decimal] at hnumber
      rwa [extensionText_number]
  | sparse e hsparse hl =>
    have hnumber := @Denotes.sparse ft ag (decimal e) hsparse hl (isNumber_decimal e)
    rw [digitsValue_decimal] at hnumber
    rwa [hl, extensionText_number]

/-- What is left of the text of an extension stands for another one, if anything. -/
theorem eq_extensionText_of_prefix {ft : Filetype} {ag : Aggregate} {e : Int}
    (h : HasExtension ft ag e) (helements : ag.elements < 2 ^ 31)
    (hletters : ft.letters = true → e < 26) {x : Bytes} (hbegins : x <+: extensionText e ft.letters)
    (hx : lastExtension ft ag x = some e) : x = extensionText e ft.letters := by
  have hlt := h.lt helements
  obtain ⟨hnumber, he, hnonneg⟩ | ⟨hall, rfl⟩ | ⟨hbyte, rfl⟩ | ⟨hne, hl, b, rfl, hb, he⟩ :=
    lastExtension_cases hx
  · have hnil : x ≠ [] := by
      rintro rfl
      cases hnumber
    cases h with
    | all hne => exact absurd (hnonneg hne).2 (by decide)
    | byte hne => exact absurd (hnonneg hne).2 (by decide)
    | index n hne =>
      rw [(hnonneg hne).1, extensionText_number] at hbegins ⊢
      exact eq_decimal_of_prefix (by exact_mod_cast hlt) hbegins hnil he.symm
    | sparse n _ hl =>
      rw [hl, extensionText_number] at hbegins ⊢
      exact eq_decimal_of_prefix (by exact_mod_cast hlt) hbegins hnil he.symm
  · have hlength : x.length = 3 := (List.length_map toLower).symm.trans (congrArg List.length hall)
    exact hbegins.eq_of_length hlength
  · have hlength : x.length = 4 := (List.length_map toLower).symm.trans (congrArg List.length hbyte)
    exact hbegins.eq_of_length hlength
  · have hindex := letterIndex_alpha b hb
    cases h with
    | all => exact absurd hindex.1 (by rw [he]; decide)
    | byte => exact absurd hindex.1 (by rw [he]; decide)
    | index n =>
      rw [hl, extensionText_letter (by exact_mod_cast hletters hl)] at hbegins ⊢
      exact hbegins.eq_of_length rfl
    | sparse n hsparse => exact absurd hsparse hne

theorem isNumber_small {ft : Filetype} {ag : Aggregate} {e : Int} {x : Bytes}
    (h : Denotes ft ag x (e, none)) (he : e < 2 ^ 31) (hx : isNumber x = true) :
    digitsValue x < 2 ^ 31 := by
  cases h with
  | sparse => exact_mod_cast he
  | all _ _ hall => exact absurd hx (not_isNumber_of_word hall (by decide))
  | byte _ _ _ hbyte => exact absurd hx (not_isNumber_of_word hbyte (by decide))
  | letter b _ _ hb => exact absurd hx (not_isNumber_letter hb)
  | number => exact_mod_cast he

/-- A name with the text of an extension, of which the first `n` bytes are kept. -/
theorem readsAs_take_iff {env : Env} {pn : ParsedName} {pdev : Device}
    (hdev : pn.selectedDevice = some pdev) (hremote : pdev ≠ .remote)
    (hsorted : (env.filetypeArray pdev).Pairwise fun a b => strcmp a.name b.name = .lt)
    (helements : ∀ ft ∈ env.filetypeArray pdev, ∀ ag, ft.ag = some ag → ag.elements < 2 ^ 31)
    {ft : Filetype} (hft : ft ∈ env.filetypeArray pdev) {ag : Aggregate} (hag : ft.ag = some ag)
    {e : Int} (he : HasExtension ft ag e) (n : Nat) :
    ReadsAs env pdev pn ((ft.name ++ dot :: extensionText e ft.letters).take n) ft (e, none) ↔
      dot ∉ ft.name ∧ (ft.name ++ dot :: extensionText e ft.letters).length ≤ n ∧
      (ft.letters = true → e < 26) := by
  rw [readsAs_iff hdev hremote hsorted]
  constructor
  · rintro ⟨-, hname, hreads⟩
    have hdot : dot ∉ ft.name := by
      rw [← hname]
      exact not_dot_mem_nameOf _
    generalize hs : (ft.name ++ dot :: extensionText e ft.letters).take n = s at hname hreads
    cases hreads with
    | plain _ _ hnone => simp [hag] at hnone
    | element ag' a post e ha hag' htext hlast =>
      obtain rfl : ag = ag' := by simpa [hag] using hag'
      have hletters : ft.letters = true → e < 26 := by
        intro hl
        obtain ⟨-, -, hnumber⟩ | ⟨-, rfl⟩ | ⟨-, rfl⟩ | ⟨-, -, b, -, hb, rfl⟩ :=
          lastExtension_cases hlast
        · have hno := (hnumber fun hsparse => htext ⟨hsparse, hl⟩).1
          simp [hl] at hno
        · decide
        · decide
        · exact (letterIndex_alpha b hb).2
      rw [nameOf_append ha] at hname
      rw [hname] at hs
      -- what is behind the dot is the text of the extension, or a beginning of it
      have hbegins : post <+: extensionText e ft.letters := by
        have htake := List.take_prefix n (ft.name ++ dot :: extensionText e ft.letters)
        rw [hs, List.prefix_append_right_inj, List.cons_prefix_cons] at htake
        exact htake.2
      have hpost : dot ∉ post := fun hmem =>
        (denotes_extensionText he hletters).not_dot_mem htext (hbegins.subset hmem)
      rw [rtakeWhile_eq_self hpost] at hlast
      have hall := eq_extensionText_of_prefix he (helements ft hft ag hag) hletters hbegins hlast
      refine ⟨hdot, ?_, hletters⟩
      rw [← hall, ← hs, List.length_take]
      omega
  · rintro ⟨hdot, hlength, hletters⟩
    rw [List.take_of_length_le hlength]
    have hdenotes := denotes_extensionText he hletters
    refine ⟨hft, nameOf_append hdot _, ?_⟩
    refine reads_of_names (helements ft hft) hdot (.element ag _ _ hag hdenotes) fun ag' post hag'
      htext hpost _ => ?_
    obtain rfl : post = extensionText e ft.letters := by simpa using hpost.symm
    exact isNumber_small hdenotes (he.lt (helements ft hft ag hag))

theorem readsAs_built_iff {env : Env} {pn : ParsedName} {pdev : Device}
    (hdev : pn.selectedDevice = some pdev) (hremote : pdev ≠ .remote)
    (hsorted : (env.filetypeArray pdev).Pairwise fun a b => strcmp a.name b.name = .lt)
    (helements : ∀ ft ∈ env.filetypeArray pdev, ∀ ag, ft.ag = some ag → ag.elements < 2 ^ 31)
    {ft : Filetype} (hft : ft ∈ env.filetypeArray pdev) {ag : Aggregate} (hag : ft.ag = some ag)
    {e : Int} (he : HasExtension ft ag e) :
    ReadsAs env pdev pn (fsParsedNamePlusExt ft.name e ft.letters) ft (e, none) ↔
      dot ∉ ft.name ∧ (ft.name ++ dot :: extensionText e ft.letters).length < owFullnameMax ∧
      (ft.letters = true → e < 26) := by
  have htake := readsAs_take_iff hdev hremote hsorted helements hft hag he (owFullnameMax - 1)
  rwa [← Nat.lt_iff_le_pred (by decide)] at htake

/-- **The grammar of segments.** For a sorted array of properties, `Parse_Property` takes a segment
for exactly the elements that it names, if and only if the segment is unambiguous. A segment that is
built from an aggregate and one of its extensions is read back if and only if there is no dot in the
name, nothing was cut off, and there are enough letters. -/
theorem parseProperty_iff {env : Env} {pn : ParsedName} {pdev : Device}
    (hdev : pn.selectedDevice = some pdev) (hremote : pdev ≠ .remote)
    (hsorted : (env.filetypeArray pdev).Pairwise fun a b => strcmp a.name b.name = .lt)
    (helements : ∀ ft ∈ env.filetypeArray pdev, ∀ ag, ft.ag = some ag → ag.elements < 2 ^ 31) :
    (∀ filename, (∀ ft e, ReadsAs env pdev pn filename ft e ↔ ft ∈ env.filetypeArray pdev ∧
      Names ft filename e) ↔
      Unambiguous (env.filetypeArray pdev) filename) ∧
    ∀ ft ∈ env.filetypeArray pdev, ∀ ag, ft.ag = some ag → ∀ e, HasExtension ft ag e →
      (ReadsAs env pdev pn (fsParsedNamePlusExt ft.name e ft.letters) ft (e, none) ↔
        dot ∉ ft.name ∧ (ft.name ++ dot :: extensionText e ft.letters).length < owFullnameMax ∧
        (ft.letters = true → e < 26)) :=
  ⟨readsAs_iff_names_iff hdev hremote hsorted helements, fun _ hft _ hag _ he =>
    readsAs_built_iff hdev hremote hsorted helements hft hag he⟩

/-! ## A switch -/

/-- `PIO` of a DS2408 -/
def pio : Filetype := ⟨ascii "PIO", some ⟨8, .aggregate⟩, false, .bitfield, 0⟩

/-- Some properties of a DS2408 -/
def switchEnv : Env := { sampleEnv with
  filetypeArray := fun _ => [pio, ⟨ascii "power", none, false, .yesno, 0⟩] }

def switchName : ParsedName where
  path := []
  pathToServer := []
  selectedDevice := some (.listed (ascii "29"))
  controlFlags := 0

/-- The last bit of a DS2408 -/
theorem parseProperty_iff_pio :
    ReadsAs switchEnv (.listed (ascii "29")) switchName (fsParsedNamePlusExt pio.name 7 pio.letters)
      pio (7, none) :=
  ((@parseProperty_iff switchEnv switchName _ rfl (by decide) (by decide) (by decide)).2 pio
    (by decide) _ rfl 7
    (.index 7 (by decide) (by decide))).mpr (by decide)

/-- `PIO.old.3` names nothing, but is taken for a bit. -/
theorem parseProperty_dots :
    ¬∀ ft e, ReadsAs switchEnv (.listed (ascii "29")) switchName (ascii "PIO.old.3") ft e ↔
    ft ∈ switchEnv.filetypeArray (.listed (ascii "29")) ∧ Names ft (ascii "PIO.old.3") e := by
  rw [@readsAs_iff_names_iff switchEnv switchName _ rfl (by decide) (by decide) (by decide)]
  intro h
  exact absurd (h.2 pio (by decide) _ (ascii "old.3") rfl (by decide) (by decide) rfl (by decide)).1
    (by decide)

end Owfs.Path
