import Owfs.Path.DeviceName
import Owfs.Infra.Segments

/-!
# Links of a directory page

A directory page has a link for each entry, which is the escaped path, and a link to the directory
above. This module says for which paths a request for the link comes back to the path.

`httpescape` and `httpunescape` are inverse to each other, but `URLparse` stands between them, and
cuts the file at a `?` that `httpescape` has left there. The link to the directory above has another
flaw: its length is that of the directory's path, but it is taken from the escaped path.
-/

namespace Owfs.Http

open Infra Owfs.Path

/-! ## Escaping (`owhttpd_escape.c`) -/

/-- The characters that `httpescape` writes in hexadecimal. -/
def specials : Bytes :=
  [chr ' ', chr '!', chr '"', chr '#', chr '$', chr '%', chr '@', chr '\'', chr '(', chr ')',
    chr '<', chr '>', chr ';', chr ':', chr '+', chr ',', chr '=']

/-- One character of `httpescape`. -/
def escapeChar (c : Byte) : Bytes := if c ∈ specials then chr '%' :: num2string c else [c]

/-- `httpescape` -/
def httpescape (s : Bytes) : Bytes := s.flatMap escapeChar

/-- A character that is not the start of an escape. -/
def unescapeChar (c : Byte) : Byte := if c = chr '+' then chr ' ' else c

/-- The loop of `httpunescape`. Fewer than three characters are no escape. -/
def unescape : Bytes → Bytes
  | c :: h :: l :: s =>
    if c = chr '%' ∧ isXdigit h = true ∧ isXdigit l = true then string2num [h, l] :: unescape s
    else unescapeChar c :: unescape (h :: l :: s)
  | c :: s => unescapeChar c :: unescape s
  | [] => []

/-- `httpunescape`, and what is then read as a string. -/
def httpunescape (s : Bytes) : Bytes := (unescape s).takeWhile (· ≠ 0)

/-! ## `URLparse` -/

/-- `struct urlparse` -/
structure UrlParse where
  cmd : Option Bytes
  file : Option Bytes
  version : Option Bytes
  request : Option Bytes
  value : Option Bytes

/-- The special case for sparse arrays: `?EXTENSION=` is read as `/`. -/
def sparseLine (line : Bytes) : Bytes :=
  let extension := line.dropWhile (· ≠ chr '?')
  if ascii "?EXTENSION=" <+: extension then line.takeWhile (· ≠ chr '?') ++ chr '/' ::
    extension.drop 11 else line

/-- The parameters of a line are separated by these. -/
def isGap (c : Byte) : Bool := c = chr ' ' || c = 10 || c = 13

/-- The parameters of a line. -/
def parameters (line : Bytes) : List Bytes := (line.splitOnP isGap).filter (· ≠ [])

/-- What stands before the first `sep`, and what stands behind it if there is one. -/
def cutAt (sep : Byte) (s : Bytes) : Bytes × Option Bytes :=
  (s.takeWhile (· ≠ sep), if sep ∈ s then some (s.dropWhile (· ≠ sep)).tail else none)

/-- Trims off a trailing slash. -/
def trimSlash (file : Bytes) : Bytes :=
  if file.getLast? = some (chr '/') ∧ 1 < file.length then file.dropLast else file

/-- The value of a form: up to the first `&`, and the special case of a checkbox. -/
def formValue (value : Bytes) : Bytes :=
  let value := (cutAt (chr '&') value).1
  if value = ascii "CHANGE" then ascii "0" else value

/-- `URLparse` -/
def urlParse (line : Bytes) : UrlParse :=
  let words := parameters (sparseLine line)
  let request := words[1]?.bind fun file => (cutAt (chr '?') file).2
  { cmd := words[0]?
    file := words[1]?.map fun file => trimSlash (cutAt (chr '?') file).1
    version := words[2]?
    request := request.map fun request => (cutAt (chr '=') request).1
    value := request.bind fun request => (cutAt (chr '=') request).2.map formValue }

/-! ## Links -/

/-- The loop of `Backup`, from position `i` down. -/
def backupLoop (path : Bytes) : Nat → Option Nat
  | 0 => if path[0]? = some (chr '/') then some 1 else none
  | i + 1 => if path[i + 1]? = some (chr '/') then some (i + 2) else backupLoop path i

/-- `Backup`: the length of the directory above. A path without a slash has none. -/
def backup (path : Bytes) : Option Nat :=
  match path.length with
  | 0 => none
  | 1 => some 1
  | n + 2 => backupLoop path (if path[n + 1]? = some (chr '/') then n else n + 1)

/-- The link that `ShowDir` calls `up` or `top`. -/
def upLink (path : Bytes) : Option Bytes :=
  (backup path).map fun b => if b ≠ 1 then (httpescape path).take b else [chr '/']

/-- The request for a link. -/
def getLine (link : Bytes) : Bytes := ascii "GET " ++ link ++ ascii " HTTP/1.1"

/-- The file that a request for a link is about. -/
def requestedFile (link : Bytes) : Option Bytes := (urlParse (getLine link)).file.map httpunescape

/-- A printable character. -/
def isPrint (c : Byte) : Bool := chr ' ' ≤ c && c ≤ chr '~'

/-- A path in a directory page. -/
structure ShownPath where
  segments : List Bytes
  segments_ne_nil : segments ≠ []
  segment_ne_nil : ∀ s ∈ segments, s ≠ []
  printable : ∀ s ∈ segments, ∀ c ∈ s, isPrint c = true
  noSlash : ∀ s ∈ segments, chr '/' ∉ s

/-- The text of a path. -/
def ShownPath.text (p : ShownPath) : Bytes := separated (chr '/') p.segments

/-- The directory above. -/
def ShownPath.parent (p : ShownPath) : Bytes := separated (chr '/') p.segments.dropLast

/-- The links lead where they should. -/
structure ShownPath.LeadsBack (p : ShownPath) : Prop where
  file : requestedFile (httpescape p.text) = some p.text
  request : (urlParse (getLine (httpescape p.text))).request = none
  up : (upLink p.text).bind requestedFile = some p.parent

/-! ## Escaping and back -/

theorem unescape_cons {c : Byte} (h : c ≠ chr '%') (s : Bytes) :
    unescape (c :: s) = unescapeChar c :: unescape s := by
  match s with
  | [] | [_] => rfl
  | _ :: _ :: _ => rw [unescape, if_neg (fun hc => h hc.1)]

/-- A character that `httpescape` leaves is left by `httpunescape`. -/
theorem unescape_cons_of_plain {c : Byte} (h : c ∉ specials) (s : Bytes) :
    unescape (c :: s) = c :: unescape s := by
  have hpercent : c ≠ chr '%' := by
    rintro rfl
    exact h (by decide)
  have hplus : c ≠ chr '+' := by
    rintro rfl
    exact h (by decide)
  rw [unescape_cons hpercent, unescapeChar, if_neg hplus]

/-- The digits of an escape. -/
theorem num2string_digits (c : Byte) :
    ∃ h l, num2string c = [h, l] ∧ isXdigit h = true ∧ isXdigit l = true ∧
      string2num [h, l] = c := by
  have hall := hexDigits_num2string c
  have hnum := string2num_num2string c
  refine ⟨_, _, rfl, ?_, ?_, hnum⟩
  · exact List.all_eq_true.mp hall _ List.mem_cons_self
  · exact List.all_eq_true.mp hall _ (List.mem_cons_of_mem _ List.mem_cons_self)

theorem httpescape_cons (c : Byte) (s : Bytes) :
    httpescape (c :: s) = escapeChar c ++ httpescape s :=
  List.flatMap_cons

theorem httpescape_append (s t : Bytes) :
    httpescape (s ++ t) = httpescape s ++ httpescape t := List.flatMap_append

theorem httpescape_of_plain {s : Bytes} (h : ∀ c ∈ s, c ∉ specials) : httpescape s = s := by
  induction s with
  | nil => rfl
  | cons c s ih =>
    rw [httpescape_cons, escapeChar, if_neg (h c List.mem_cons_self),
      ih fun d hd => h d (List.mem_cons_of_mem _ hd)]
    rfl

theorem length_httpescape (s : Bytes) :
    (httpescape s).length = s.length + 2 * s.countP (· ∈ specials) := by
  induction s with
  | nil => rfl
  | cons c s ih =>
    rw [httpescape_cons, List.length_append, ih, List.countP_cons, List.length_cons, escapeChar]
    by_cases hc : c ∈ specials
    · rw [if_pos hc]
      simp [num2string, hc]
      omega
    · rw [if_neg hc]
      simp [hc]
      omega

/-- **What a beginning of an escaped text is read as.** It may end inside an escape, which is then
no escape. -/
theorem unescape_take_httpescape (s : Bytes) : ∀ k ≤ (httpescape s).length,
    ∃ j r, unescape ((httpescape s).take k) = s.take j ++ r ∧
    k = (httpescape (s.take j)).length + r.length ∧
      j ≤ s.length ∧ 0 ∉ r ∧ (r = [] ∨ ∃ x, (httpescape s)[k]? = some x ∧ isXdigit x = true) := by
  induction s with
  | nil =>
    intro k hk
    obtain rfl : k = 0 := Nat.le_zero.mp hk
    exact ⟨0, [], rfl, rfl, Nat.le_refl 0, List.not_mem_nil, .inl rfl⟩
  | cons c s ih =>
    intro k hk
    have hzero : ∃ j r, unescape ((httpescape (c :: s)).take 0) = (c :: s).take j ++ r ∧
        0 = (httpescape ((c :: s).take j)).length + r.length ∧ j ≤ (c :: s).length ∧ 0 ∉ r ∧
        (r = [] ∨ ∃ x, (httpescape (c :: s))[0]? = some x ∧ isXdigit x = true) :=
      ⟨0, [], rfl, rfl, Nat.zero_le _, List.not_mem_nil, .inl rfl⟩
    by_cases hc : c ∈ specials
    · obtain ⟨h, l, hhl, hh, hl, hnum⟩ := num2string_digits c
      have heq : httpescape (c :: s) = chr '%' :: h :: l :: httpescape s := by
        rw [httpescape_cons, escapeChar, if_pos hc, hhl]
        rfl
      have hne : h ≠ chr '+' ∧ h ≠ 0 := by
        constructor
        · rintro rfl
          exact absurd hh (by decide)
        · rintro rfl
          exact absurd hh (by decide)
      match k, hk with
      | 0, _ => exact hzero
      | 1, _ =>
        refine ⟨0, [chr '%'], ?_, rfl, Nat.zero_le _, by decide, .inr ⟨h, ?_, hh⟩⟩
        · rw [heq]
          rfl
        · rw [heq]
          rfl
      | 2, _ =>
        refine ⟨0, [chr '%', h], ?_, rfl, Nat.zero_le _, ?_, .inr ⟨l, ?_, hl⟩⟩
        · rw [heq]
          show [chr '%', unescapeChar h] = [chr '%', h]
          rw [unescapeChar, if_neg hne.1]
        · simp only [List.mem_cons, List.not_mem_nil, or_false, not_or]
          exact ⟨by decide, hne.2.symm⟩
        · rw [heq]
          rfl
      | k + 3, hk =>
        rw [heq] at hk
        obtain ⟨j, r, hun, hlen, hj, hr, hnext⟩ := ih k (by simpa using hk)
        refine ⟨j + 1, r, ?_, ?_, Nat.succ_le_succ hj, hr, ?_⟩
        · rw [heq, List.take_succ_cons, List.take_succ_cons, List.take_succ_cons, unescape,
            if_pos ⟨rfl, hh, hl⟩, hnum, hun]
          rfl
        · rw [List.take_succ_cons, httpescape_cons, escapeChar, if_pos hc, hhl, hlen]
          simp
          omega
        · rw [heq]
          simpa using hnext
    · have heq : httpescape (c :: s) = c :: httpescape s := by
        rw [httpescape_cons, escapeChar, if_neg hc]
        rfl
      match k, hk with
      | 0, _ => exact hzero
      | k + 1, hk =>
        rw [heq] at hk
        obtain ⟨j, r, hun, hlen, hj, hr, hnext⟩ := ih k (by simpa using hk)
        refine ⟨j + 1, r, ?_, ?_, Nat.succ_le_succ hj, hr, ?_⟩
        · rw [heq, List.take_succ_cons, unescape_cons_of_plain hc, hun]
          rfl
        · rw [List.take_succ_cons, httpescape_cons, escapeChar, if_neg hc, hlen]
          simp
          omega
        · rw [heq]
          simpa using hnext

/-! ## The request line -/

/-- A text that is one parameter of a line, and no form of a sparse array. -/
def OneWord (link : Bytes) : Prop := link ≠ [] ∧ ∀ c ∈ link, isGap c = false ∧ c ≠ chr '='

theorem sparseLine_of_not_mem {line : Bytes} (h : chr '=' ∉ line) : sparseLine line = line := by
  unfold sparseLine
  refine if_neg fun hbegins => h ?_
  exact (List.dropWhile_sublist _).mem (hbegins.subset (by decide))

theorem urlParse_getLine {link : Bytes} (h : OneWord link) :
    (urlParse (getLine link)).file = some (trimSlash (cutAt (chr '?') link).1) ∧
      (urlParse (getLine link)).request
        = (cutAt (chr '?') link).2.map fun request => (cutAt (chr '=') request).1 := by
  obtain ⟨hne, hall⟩ := h
  have hline : getLine link = ascii "GET" ++ chr ' ' :: (link ++ chr ' ' :: ascii "HTTP/1.1") := by
    have hget : ascii "GET " = ascii "GET" ++ [chr ' '] := by decide
    have hversion : ascii " HTTP/1.1" = chr ' ' :: ascii "HTTP/1.1" := by decide
    rw [getLine, hget, hversion]
    simp
  have hequal : chr '=' ∉ getLine link := by
    have hget : chr '=' ∉ ascii "GET" := by decide
    have hversion : chr '=' ∉ ascii "HTTP/1.1" := by decide
    have hlink : chr '=' ∉ link := fun h => (hall _ h).2 rfl
    have hblank : chr '=' ≠ chr ' ' := by decide
    rw [hline]
    simp [hget, hversion, hlink, hblank]
  have hwords : parameters (getLine link) = [ascii "GET", link, ascii "HTTP/1.1"] := by
    rw [parameters, hline, List.splitOnP_append_cons_of_forall_mem (by decide) _ (by decide),
      List.splitOnP_append_cons_of_forall_mem (fun c hc => (hall c hc).1) _ (by decide),
      List.splitOnP_eq_singleton (by decide)]
    have hget : ascii "GET" ≠ [] := by decide
    have hversion : ascii "HTTP/1.1" ≠ [] := by decide
    simp [hget, hversion, hne]
  unfold urlParse
  rw [sparseLine_of_not_mem hequal, hwords]
  exact ⟨rfl, rfl⟩

/-- A link without a `?` is all file. -/
theorem urlParse_of_not_mem {link : Bytes} (h : OneWord link) (hmark : chr '?' ∉ link) :
    (urlParse (getLine link)).file = some (trimSlash link) ∧
    (urlParse (getLine link)).request = none := by
  have htake : link.takeWhile (· ≠ chr '?') = link := by
    rw [List.takeWhile_eq_self_iff]
    intro c hc
    have hne : c ≠ chr '?' := by
      rintro rfl
      exact hmark hc
    simpa using hne
  obtain ⟨hfile, hrequest⟩ := urlParse_getLine h
  rw [cutAt, htake] at hfile
  rw [cutAt, if_neg hmark] at hrequest
  exact ⟨hfile, hrequest⟩

/-- A link with a `?` is a form. -/
theorem request_ne_none {link : Bytes} (h : OneWord link) (hmark : chr '?' ∈ link) :
    (urlParse (getLine link)).request ≠ none := by
  rw [(urlParse_getLine h).2, cutAt, if_pos hmark]
  exact Option.some_ne_none _

theorem requestedFile_of_not_mem {link : Bytes} (h : OneWord link) (hmark : chr '?' ∉ link) :
    requestedFile link = some (httpunescape (trimSlash link)) := by
  rw [requestedFile, (urlParse_of_not_mem h hmark).1, Option.map_some]

/-- The characters of an escaped text. -/
theorem mem_httpescape {s : Bytes} {d : Byte} (h : d ∈ httpescape s) :
    d = chr '%' ∨ isXdigit d = true ∨ d ∈ s ∧ d ∉ specials := by
  obtain ⟨c, hc, hd⟩ := List.mem_flatMap.mp h
  unfold escapeChar at hd
  split at hd
  · rcases List.mem_cons.mp hd with rfl | hd
    · exact .inl rfl
    · exact .inr (.inl (List.all_eq_true.mp (hexDigits_num2string c) d hd))
  · rename_i hspecial
    obtain rfl := List.mem_singleton.mp hd
    exact .inr (.inr ⟨hc, hspecial⟩)

theorem isGap_of_isPrint :
    ∀ c : Byte, isPrint c = true → c ∉ specials → isGap c = false := by decide

theorem isGap_of_isXdigit :
    ∀ c : Byte, isXdigit c = true → isGap c = false ∧ c ≠ chr '=' ∧ c ≠ chr '?' := by decide

/-- An escaped text, or the beginning of one, is one parameter. -/
theorem oneWord_httpescape {s link : Bytes} (hs : ∀ c ∈ s, isPrint c = true)
    (hlink : link ⊆ httpescape s) (hne : link ≠ []) : OneWord link := by
  refine ⟨hne, fun d hd => ?_⟩
  rcases mem_httpescape (hlink hd) with rfl | hx | ⟨hmem, hspecial⟩
  · decide
  · exact ⟨(isGap_of_isXdigit d hx).1, (isGap_of_isXdigit d hx).2.1⟩
  · refine ⟨isGap_of_isPrint d (hs d hmem) hspecial, ?_⟩
    rintro rfl
    exact hspecial (by decide)

theorem mark_mem_httpescape {s : Bytes} : chr '?' ∈ httpescape s ↔ chr '?' ∈ s := by
  constructor
  · intro h
    rcases mem_httpescape h with hp | hx | ⟨hmem, -⟩
    · exact absurd hp (by decide)
    · exact absurd rfl (isGap_of_isXdigit _ hx).2.2
    · exact hmem
  · intro h
    exact List.mem_flatMap.mpr ⟨_, h, by decide⟩

/-! ## The directory above -/

/-- `Backup` finds the last slash. -/
theorem backupLoop_eq {above last : Bytes} (hlast : chr '/' ∉ last) :
    ∀ j ≤ last.length, backupLoop (above ++ chr '/' :: last) (above.length + j) =
      some (above.length + 1)
  | 0, _ => by
    have hslash : (above ++ chr '/' :: last)[above.length]? = some (chr '/') := by simp
    rw [Nat.add_zero]
    generalize above ++ chr '/' :: last = path at hslash
    cases hlen : above.length with
    | zero =>
      rw [hlen] at hslash
      rw [backupLoop, if_pos hslash]
    | succ i =>
      rw [hlen] at hslash
      rw [backupLoop, if_pos hslash]
  | j + 1, hj => by
    have hget : (above ++ chr '/' :: last)[above.length + j + 1]? ≠ some (chr '/') := by
      rw [List.getElem?_append_right (by omega),
        show above.length + j + 1 - above.length = j + 1 by omega, List.getElem?_cons_succ]
      exact fun h => hlast (List.mem_of_getElem? h)
    rw [← Nat.add_assoc, backupLoop, if_neg hget]
    exact backupLoop_eq hlast j (by omega)

theorem backup_eq {above last : Bytes} (hne : last ≠ []) (hlast : chr '/' ∉ last) :
    backup (above ++ chr '/' :: last) = some (above.length + 1) := by
  obtain ⟨n, hn⟩ : ∃ n, last.length = n + 1 :=
    Nat.exists_eq_succ_of_ne_zero (mt List.length_eq_zero_iff.mp hne)
  have hlen : (above ++ chr '/' :: last).length = above.length + n + 2 := by
    simp [hn]
    omega
  have hget : (above ++ chr '/' :: last)[above.length + n + 1]? ≠ some (chr '/') := by
    rw [List.getElem?_append_right (by omega),
      show above.length + n + 1 - above.length = n + 1 by omega, List.getElem?_cons_succ]
    exact fun h => hlast (List.mem_of_getElem? h)
  rw [backup, hlen]
  dsimp only
  rw [if_neg hget, show above.length + n + 1 = above.length + last.length by omega]
  exact backupLoop_eq hlast _ (Nat.le_refl _)

namespace ShownPath

variable (p : ShownPath)

/-- The text in front of the last slash. -/
def above : Bytes := p.segments.dropLast.flatMap (chr '/' :: ·)

/-- The name in the directory. -/
def name : Bytes := p.segments.getLast p.segments_ne_nil

theorem text_eq : p.text = p.above ++ chr '/' :: p.name := by
  have hsplit := List.dropLast_append_getLast p.segments_ne_nil
  rw [text, separated_eq_flatMap _ p.segments_ne_nil, ← hsplit, List.flatMap_append]
  simp [above, name]

theorem parent_eq : p.parent = if p.above = [] then [chr '/'] else p.above := by
  unfold parent above
  cases hinit : p.segments.dropLast with
  | nil => rfl
  | cons s rest =>
    rw [separated_eq_flatMap _ (List.cons_ne_nil _ _), if_neg (by simp)]

theorem name_ne_nil : p.name ≠ [] := p.segment_ne_nil _ (List.getLast_mem _)

theorem slash_not_mem_name : chr '/' ∉ p.name := p.noSlash _ (List.getLast_mem _)

theorem isPrint_text : ∀ c ∈ p.text, isPrint c = true := by
  intro c hc
  rw [text, separated_eq_flatMap _ p.segments_ne_nil] at hc
  obtain ⟨s, hs, hc⟩ := List.mem_flatMap.mp hc
  rcases List.mem_cons.mp hc with rfl | hc
  · decide
  · exact p.printable s hs c hc

theorem nul_not_mem_text : 0 ∉ p.text := fun h => absurd (p.isPrint_text 0 h) (by decide)

theorem upLink_eq : upLink p.text
    = some (if p.above = [] then [chr '/'] else (httpescape p.text).take (p.above.length + 1)) := by
  have hb : backup p.text = some (p.above.length + 1) := by
    rw [p.text_eq]
    exact backup_eq p.name_ne_nil p.slash_not_mem_name
  rw [upLink, hb, Option.map_some]
  by_cases habove : p.above = []
  · rw [if_pos habove, if_neg (by simp [habove])]
  · rw [if_neg habove, if_pos]
    have := List.length_pos_of_ne_nil habove
    omega

/-! ## Which links lead back -/

theorem httpunescape_httpescape {s : Bytes} (h : 0 ∉ s) : httpunescape (httpescape s) = s := by
  have hall : ∀ t : Bytes, unescape (httpescape t) = t := by
    intro t
    induction t with
    | nil => rfl
    | cons c t ih =>
      rw [httpescape_cons, escapeChar]
      split
      · obtain ⟨x, y, hxy, hx, hy, hnum⟩ := num2string_digits c
        rw [hxy]
        show unescape (chr '%' :: x :: y :: httpescape t) = _
        rw [unescape, if_pos ⟨rfl, hx, hy⟩, hnum, ih]
      · rename_i hc
        show unescape (c :: httpescape t) = _
        rw [unescape_cons_of_plain hc, ih]
  rw [httpunescape, hall, List.takeWhile_eq_self_iff]
  intro c hc
  have hne : c ≠ 0 := by
    rintro rfl
    exact h hc
  simpa using hne

theorem getLast?_escapeChar :
    ∀ c : Byte, c ≠ chr '/' → (escapeChar c).getLast? ≠ some (chr '/') := by decide

theorem escapeChar_ne_nil (c : Byte) : escapeChar c ≠ [] := by
  unfold escapeChar
  split <;> exact List.cons_ne_nil _ _

/-- The escaped path does not end with a slash. -/
theorem trimSlash_httpescape : trimSlash (httpescape p.text) = httpescape p.text := by
  refine if_neg fun h => ?_
  obtain ⟨init, c, hname⟩ := List.eq_nil_or_concat p.name |>.resolve_left p.name_ne_nil
  have hc : c ≠ chr '/' := by
    rintro rfl
    exact p.slash_not_mem_name (by rw [hname]; simp)
  have htext : p.text = (p.above ++ chr '/' :: init) ++ [c] := by
    rw [p.text_eq, hname]
    simp
  have hlast : (httpescape p.text).getLast? = (escapeChar c).getLast? := by
    rw [htext, httpescape_append]
    show (_ ++ (escapeChar c ++ [])).getLast? = _
    rw [List.append_nil, List.getLast?_append_of_ne_nil _ (escapeChar_ne_nil c)]
  exact getLast?_escapeChar c hc (hlast.symm.trans h.1)

theorem httpescape_text_ne_nil : httpescape p.text ≠ [] := by
  rw [p.text_eq, httpescape_append, httpescape_cons]
  simp [escapeChar_ne_nil]

/-- **The link of an entry.** -/
theorem entry_iff : requestedFile (httpescape p.text) = some p.text ∧
    (urlParse (getLine (httpescape p.text))).request = none ↔ chr '?' ∉ p.text := by
  have hword : OneWord (httpescape p.text) :=
    oneWord_httpescape p.isPrint_text (List.Subset.refl _) p.httpescape_text_ne_nil
  constructor
  · rintro ⟨-, hrequest⟩ hmark
    exact request_ne_none hword (mark_mem_httpescape.mpr hmark) hrequest
  · intro hmark
    have hmark' : chr '?' ∉ httpescape p.text := mt mark_mem_httpescape.mp hmark
    refine ⟨?_, (urlParse_of_not_mem hword hmark').2⟩
    rw [requestedFile_of_not_mem hword hmark', p.trimSlash_httpescape,
      httpunescape_httpescape p.nul_not_mem_text]

theorem above_prefix : p.above <+: p.text := by
  rw [p.text_eq]
  exact List.prefix_append _ _

/-- The beginning of the escaped path, as far as the link goes, when it needs no escapes. -/
theorem take_httpescape_of_plain (h : ∀ c ∈ p.above, c ∉ specials) :
    (httpescape p.text).take (p.above.length + 1) = p.above ++ [chr '/'] := by
  have hslash : httpescape (chr '/' :: p.name) = chr '/' :: httpescape p.name := by
    rw [httpescape_cons]
    rfl
  rw [p.text_eq, httpescape_append, httpescape_of_plain h, hslash, List.take_append,
    List.take_of_length_le (by omega)]
  simp

/-- **The link to the directory above**, for a path without a `?`. -/
theorem up_iff (hmark : chr '?' ∉ p.text) (habove : p.above ≠ []) :
    requestedFile ((httpescape p.text).take (p.above.length + 1)) = some p.above ↔ ∀ c ∈ p.above,
      c ∉ specials := by
  have hlen := List.length_pos_of_ne_nil habove
  have hwhole : p.above.length + 1 ≤ (httpescape p.text).length := by
    rw [length_httpescape, p.text_eq]
    simp
    omega
  have hne : (httpescape p.text).take (p.above.length + 1) ≠ [] := by
    intro h
    have := congrArg List.length h
    rw [List.length_take, List.length_nil] at this
    omega
  have hword : OneWord ((httpescape p.text).take (p.above.length + 1)) :=
    oneWord_httpescape p.isPrint_text (List.take_subset _ _) hne
  have hmark' : chr '?' ∉ (httpescape p.text).take (p.above.length + 1) :=
    fun h => hmark (mark_mem_httpescape.mp (List.take_subset _ _ h))
  rw [requestedFile_of_not_mem hword hmark', Option.some.injEq]
  constructor
  · intro hfile
    -- what is read back from a beginning of the escaped path is a beginning of the path
    have hread : ∀ k ≤ (httpescape p.text).length,
        httpunescape ((httpescape p.text).take k) = p.above →
        ∃ j r, p.above = p.text.take j ++ r ∧
        k = j + 2 * (p.text.take j).countP (· ∈ specials) + r.length ∧
          j ≤ p.text.length ∧ (r = [] ∨ ∃ x, (httpescape p.text)[k]? = some x ∧
          isXdigit x = true) := by
      intro k hk h
      obtain ⟨j, r, hun, hlen, hj, hr, hnext⟩ := unescape_take_httpescape p.text k hk
      have hnul : 0 ∉ p.text.take j ++ r := by
        rw [List.mem_append, not_or]
        exact ⟨fun h => p.nul_not_mem_text (List.take_subset _ _ h), hr⟩
      have hsame : (p.text.take j ++ r).takeWhile (· ≠ 0) = p.text.take j ++ r := by
        rw [List.takeWhile_eq_self_iff]
        intro c hc
        have hne : c ≠ 0 := by
          rintro rfl
          exact hnul hc
        simpa using hne
      rw [httpunescape, hun, hsame] at h
      rw [length_httpescape, List.length_take, Nat.min_eq_left hj] at hlen
      exact ⟨j, r, h.symm, hlen, hj, hnext⟩
    unfold trimSlash at hfile
    split at hfile
    · rename_i htrim
      have hdrop : ((httpescape p.text).take (p.above.length + 1)).dropLast =
          (httpescape p.text).take p.above.length := by
        rw [List.dropLast_eq_take, List.length_take, Nat.min_eq_left hwhole, List.take_take,
          Nat.add_sub_cancel, Nat.min_eq_left (Nat.le_succ _)]
      rw [hdrop] at hfile
      obtain ⟨j, r, habove', hk, hj, hnext⟩ := hread _ (by omega) hfile
      have hslash : (httpescape p.text)[p.above.length]? = some (chr '/') := by
        have hlast := htrim.1
        rw [List.getLast?_eq_getElem?, List.length_take, Nat.min_eq_left hwhole, Nat.add_sub_cancel,
          List.getElem?_take_of_lt (by omega)] at hlast
        exact hlast
      rcases hnext with rfl | ⟨x, hx, hdigit⟩
      · -- nothing was escaped as far as the link goes
        have hlength := congrArg List.length habove'
        rw [List.append_nil] at habove'
        rw [List.append_nil, List.length_take, Nat.min_eq_left hj] at hlength
        rw [List.length_nil] at hk
        have hcount : (p.text.take j).countP (· ∈ specials) = 0 := by omega
        rw [← habove', List.countP_eq_zero] at hcount
        exact fun c hc => by simpa using hcount c hc
      · obtain rfl := Option.some.inj (hx.symm.trans hslash)
        exact absurd hdigit (by decide)
    · -- an escape takes two more characters, so the lengths differ by an even number
      obtain ⟨j, r, habove', hk, hj, -⟩ := hread _ hwhole hfile
      have hlength := congrArg List.length habove'
      rw [List.length_append, List.length_take, Nat.min_eq_left hj] at hlength
      omega
  · intro hplain
    rw [p.take_httpescape_of_plain hplain, trimSlash, if_pos ⟨by simp, by simp; omega⟩,
      List.dropLast_concat]
    have hun := httpunescape_httpescape fun h => p.nul_not_mem_text (p.above_prefix.subset h)
    rwa [httpescape_of_plain hplain] at hun

/-- **The links of a path lead back if and only if** there is no `?` in it, and no character that is
escaped in the directory above. -/
theorem leadsBack_iff : p.LeadsBack ↔ chr '?' ∉ p.text ∧ ∀ c ∈ p.parent, c ∉ specials := by
  have hup : (upLink p.text).bind requestedFile = some p.parent ↔
      if p.above = [] then True
      else requestedFile ((httpescape p.text).take (p.above.length + 1)) = some p.above := by
    rw [p.upLink_eq, p.parent_eq, Option.bind_some]
    split
    · exact iff_of_true (by decide) trivial
    · exact Iff.rfl
  have hcond : (∀ c ∈ p.parent, c ∉ specials) ↔ if p.above = [] then True else ∀ c ∈ p.above,
      c ∉ specials := by
    rw [p.parent_eq]
    split
    · exact iff_of_true (by decide) trivial
    · exact Iff.rfl
  rw [hcond]
  constructor
  · rintro ⟨hfile, hrequest, hparent⟩
    have hmark := p.entry_iff.mp ⟨hfile, hrequest⟩
    refine ⟨hmark, ?_⟩
    have hlink := hup.mp hparent
    split
    · trivial
    · rename_i habove
      rw [if_neg habove] at hlink
      exact (p.up_iff hmark habove).mp hlink
  · rintro ⟨hmark, hplain⟩
    obtain ⟨hfile, hrequest⟩ := p.entry_iff.mpr hmark
    refine ⟨hfile, hrequest, hup.mpr ?_⟩
    split
    · trivial
    · rename_i habove
      rw [if_neg habove] at hplain
      exact (p.up_iff hmark habove).mpr hplain

end ShownPath

/-- A device with the alias `attic?`. -/
def markedPath : ShownPath where
  segments := [ascii "attic?"]
  segments_ne_nil := by decide
  segment_ne_nil := by decide
  printable := by decide
  noSlash := by decide

/-- The link of this device asks for `attic`. -/
theorem markedPath_not_leadsBack : ¬ markedPath.LeadsBack := by
  intro h
  exact markedPath.entry_iff.mp ⟨h.file, h.request⟩ (by decide)

end Owfs.Http
