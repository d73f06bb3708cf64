import Owfs.Infra.Text

/-!
# Tokens of the lines for external devices

The lines of external sensors and properties are tokens with commas between them, with backslash
escapes and matching quotes. `GetQuotedString` takes the next token: `string_parse` copies it,
quotes and all, into a duplicate of the rest of the line, and `LastParam` learns from the last
character of the copy whether a comma ended the token.

A quotation inside a token is a call of `string_parse` of its own, with the quote for a delimiter.
Here the open quotes are also a stack, over which the line is read in one pass: that is the
description of a line that the calls are compared with.
-/

namespace Owfs.Config

open Infra

/-! ## `string_parse` -/

def backslash : Byte := 92

def doubleQuote : Byte := 34

def singleQuote : Byte := 39

/-- The characters that open a quotation. -/
def isQuote (c : Byte) : Bool := c = doubleQuote || c = singleQuote

/-- `owstrdup` of the string at an offset: the string and its NUL. -/
def owstrdup (mem : Bytes) (start : Nat) : Option Bytes := (cstring (mem.drop start)).map (· ++ [0])

/-- What a call of `string_parse` leaves: the line, the block it returns and `*last_char`. -/
structure Parsed where
  line : Bytes
  copy : Bytes
  last : Nat
deriving DecidableEq

/-- The loop of `string_parse`, at `old_string_pointer` in the line and at `new_string_pointer` in
the copy. -/
def stringParseLoop : Nat → Bytes → Bytes → Byte → Nat → Nat → Option Parsed
  | 0, _, _, _, _, _ => none
  | fuel + 1, line, copy, delim, old, new => do
    let current ← load line old
    let copy ← store copy new current
    if current = 0 then some ⟨line, copy, old⟩
    else if current = backslash then
      let next ← load line (old + 1)
      -- use the next character literally, unless there is no next character
      if next ≠ 0 then
        let copy ← store copy new next
        stringParseLoop fuel line copy delim (old + 2) (new + 1)
      else some ⟨line, copy, old + 1⟩
    else if current = delim then
      let copy ← store copy (new + 1) 0
      some ⟨line, copy, old⟩
    else if isQuote current then
      let duplicate ← owstrdup line (old + 1)
      let quoted ← stringParseLoop fuel line duplicate current (old + 1) 0
      let text ← cstring quoted.copy
      let copy ← blit copy (new + 1) (text ++ [0])
      let ending ← load quoted.line quoted.last
      if ending = current then
        -- clear the trailing quote
        let line ← store quoted.line quoted.last 0
        stringParseLoop fuel line copy delim (quoted.last + 1) (new + text.length + 1)
      else stringParseLoop fuel quoted.line copy delim quoted.last (new + text.length + 1)
    else stringParseLoop fuel line copy delim (old + 1) (new + 1)

/-- `string_parse`. Every turn and every call moves on in the line, so that its length is fuel
enough. -/
def stringParse (line : Bytes) (start : Nat) (delim : Byte) : Option Parsed := do
  let copy ← owstrdup line start
  stringParseLoop line.length line copy delim start 0

/-! ## `GetQuotedString` -/

/-- White space that `trim_parse` takes off the end. -/
def isTrimmed (c : Byte) : Bool := c = chr ' ' || c = 9 || c = 10 || c = 13

/-- `trim_parse` -/
def trimParse (raw : Bytes) : Bytes :=
  let start := raw.dropWhile fun c => c = chr ' ' || c = 9
  match start with
  | [] => []
  -- the end of the line is an empty string
  | c :: _ => if c = 10 ∨ c = 13 then [] else start.rdropWhile isTrimmed

/-- `unquote_parse` -/
def unquoteParse : Bytes → Bytes
  | [] => []
  | q :: text =>
    if isQuote q then
      if text = [] then []
      else if text.getLast? = some q then text.dropLast else text
    else q :: text

/-- `LastParam`: whether the string does not end in a comma, and the string without it. -/
def lastParam (input : Bytes) : Bool × Bytes :=
  if input.getLast? = some comma then (false, input.dropLast) else (true, input)

/-- What `GetQuotedString` leaves: the line, `start_pointer` and the token. -/
structure Token where
  line : Bytes
  start : Nat
  text : Bytes
deriving DecidableEq

/-- `GetQuotedString` -/
def getQuotedString (line : Bytes) (start : Nat) : Option Token := do
  let parsed ← stringParse line start comma
  let copy ← cstring parsed.copy
  let (last, copy) := lastParam copy
  some ⟨parsed.line, if last then parsed.last else parsed.last + 1, unquoteParse (trimParse copy)⟩

/-- Calls of `GetQuotedString` one after the other, as `AddProperty` and `AddSensor` make them: the
tokens, and where `start_pointer` ends up. -/
def getTokens : Nat → Bytes → Nat → Option (List Bytes × Nat)
  | 0, _, start => some ([], start)
  | n + 1, line, start => do
    let token ← getQuotedString line start
    let (texts, start) ← getTokens n token.line token.start
    some (token.text :: texts, start)

/-! ## A line in one pass -/

/-- Where the reading of a line stands: the open quotes, the innermost first, and whether a
backslash takes the next character literally. -/
structure Lexing where
  opened : List Byte := []
  escaped : Bool := false
deriving DecidableEq

/-- The next character of a line. -/
def Lexing.next (s : Lexing) (c : Byte) : Lexing :=
  if s.escaped then { s with escaped := false }
  else if c = backslash then { s with escaped := true }
  else if s.opened.head? = some c then { s with opened := s.opened.tail }
  else if isQuote c then { s with opened := c :: s.opened }
  else s

/-- Where the reading stands behind a text. -/
def lexing (text : Bytes) : Lexing := text.foldl Lexing.next {}

/-- Every character is copied, but not the backslash in front of another one. -/
def Lexing.copied (s : Lexing) (c : Byte) : Bytes :=
  if s.escaped = false ∧ c = backslash then [] else [c]

/-- A field of a line: the copy of it with its delimiter, the line from the delimiter on, and
whether the line ended in the middle of an escape. -/
structure Field where
  copy : Bytes
  rest : Bytes
  hanging : Bool
deriving DecidableEq

/-- More in front of a copy. -/
def Field.prepend (a : Bytes) (f : Field) : Field := { f with copy := a ++ f.copy }

/-- The field up to a delimiter that stands outside every quotation. -/
def field (delim : Byte) : Lexing → Bytes → Field
  | s, [] => ⟨if s.escaped then [backslash] else [], [], s.escaped⟩
  | s, c :: rest =>
    if s.opened = [] ∧ s.escaped = false ∧ c = delim then ⟨[c], c :: rest, false⟩
    else (field delim (s.next c) rest).prepend (s.copied c)

/-- A comma at the end of the line is a separator: it is not escaped and in no quotation. -/
def Separates (line : Bytes) : Prop := ∀ init, line = init ++ [comma] → lexing init = {}

/-! ## Tokens as they are written -/

/-- A character of a token, and whether it is written with a backslash. -/
structure Letter where
  char : Byte
  escaped : Bool
  ne_nul : char ≠ 0

/-- How a character is written. -/
def Letter.raw (l : Letter) : Bytes := if l.escaped then [backslash, l.char] else [l.char]

/-- The two quotes. -/
inductive Quote where
  | single
  | double
deriving DecidableEq

/-- The character of a quote. -/
def Quote.byte : Quote → Byte
  | .single => singleQuote
  | .double => doubleQuote

/-- The other quote. -/
def Quote.other : Quote → Quote
  | .single => .double
  | .double => .single

/-- A token as it is written: with every special character escaped, or inside matching quotes, where
the quote itself and the backslash are escaped still. -/
inductive Written where
  | bare (letters : List Letter)
      (special : ∀ l ∈ letters, l.char = backslash ∨ l.char = comma ∨ isQuote l.char → l.escaped)
  | quoted (quote : Quote) (letters : List Letter)
      (special : ∀ l ∈ letters, l.char = backslash ∨ l.char = quote.byte → l.escaped)

/-- The text of letters. -/
def textOf (letters : List Letter) : Bytes := letters.map Letter.char

/-- How letters are written. -/
def rawOf (letters : List Letter) : Bytes := letters.flatMap Letter.raw

/-- The token. -/
def Written.text : Written → Bytes
  | .bare letters _ => textOf letters
  | .quoted _ letters _ => textOf letters

/-- What stands in the line. -/
def Written.raw : Written → Bytes
  | .bare letters _ => rawOf letters
  | .quoted quote letters _ => quote.byte :: rawOf letters ++ [quote.byte]

/-- The line of some tokens. -/
def lineOf (ws : List Written) : Bytes := [comma].intercalate (ws.map Written.raw)

/-- How many of the other quotes stand in a quotation without a backslash. -/
def openings (quote : Quote) (letters : List Letter) : Nat :=
  letters.countP fun l => l.escaped = false ∧ l.char = quote.other.byte

/-- A token without quotes neither starts nor ends with white space and starts with no quote. -/
def Written.Plain : Written → Prop
  | .bare letters _ =>
    (∀ c ∈ (textOf letters).head?, isTrimmed c = false ∧ isQuote c = false) ∧
      ∀ c ∈ (textOf letters).getLast?, isTrimmed c = false
  | .quoted _ _ _ => True

/-- The other quotes inside a quotation come in pairs. -/
def Written.Closed : Written → Prop
  | .bare _ _ => True
  | .quoted quote letters _ => openings quote letters % 2 = 0

/-- A token without quotes does not end in a comma. -/
def Written.NoComma : Written → Prop
  | .bare letters _ => (textOf letters).getLast? ≠ some comma
  | .quoted _ _ _ => True

/-- The tokens are read as they were written, and the line is used up. -/
def GivesBack (ws : List Written) : Prop :=
  getTokens ws.length (lineOf ws ++ [0]) 0 = some (ws.map Written.text, (lineOf ws).length)

/-- However many tokens are taken, all of it stays in the line and `start_pointer` goes no further
than its NUL. -/
def StaysInLine (line : Bytes) : Prop :=
  ∀ n, ∃ texts start, getTokens n (line ++ [0]) 0 = some (texts, start) ∧ start ≤ line.length

/-! ## Fields -/

theorem comma_plain : comma ≠ 0 ∧ comma ≠ backslash ∧ isQuote comma = false := by decide

theorem isQuote_ne {c : Byte} (h : isQuote c = true) : c ≠ 0 ∧ c ≠ backslash := by
  constructor <;> rintro rfl <;> simp [isQuote, backslash, doubleQuote, singleQuote] at h

@[simp] theorem Field.prepend_rest (a : Bytes) (f : Field) : (f.prepend a).rest = f.rest := rfl

@[simp] theorem Field.prepend_copy (a : Bytes) (f : Field) : (f.prepend a).copy = a ++ f.copy := rfl

@[simp] theorem Field.prepend_hanging (a : Bytes) (f : Field) :
    (f.prepend a).hanging = f.hanging := rfl

theorem Field.prepend_prepend (a b : Bytes) (f : Field) :
    (f.prepend b).prepend a = f.prepend (a ++ b) := by
  simp [Field.prepend]

theorem field_stop (delim : Byte) (rest : Bytes) :
    field delim {} (delim :: rest) = ⟨[delim], delim :: rest, false⟩ := by
  rw [field, if_pos ⟨rfl, rfl, rfl⟩]

theorem field_go {delim c : Byte} {s : Lexing}
    (h : ¬(s.opened = [] ∧ s.escaped = false ∧ c = delim)) (rest : Bytes) :
    field delim s (c :: rest) = (field delim (s.next c) rest).prepend (s.copied c) := by
  rw [field, if_neg h]

/-- A character with a backslash. -/
theorem field_escaped (delim c : Byte) (opened : List Byte) (rest : Bytes)
    (hdelim : delim ≠ backslash) :
    field delim ⟨opened, false⟩ (backslash :: c :: rest) =
      (field delim ⟨opened, false⟩ rest).prepend [c] := by
  rw [field_go (fun h => hdelim h.2.2.symm), field_go (by simp [Lexing.next])]
  simp [Lexing.next, Lexing.copied, Field.prepend]

/-- A character that means nothing. -/
theorem field_plain {delim c : Byte} {opened : List Byte} (hback : c ≠ backslash)
    (hquote : isQuote c = false) (hhead : opened.head? ≠ some c) (hdelim : c ≠ delim ∨ opened ≠ [])
    (rest : Bytes) :
    field delim ⟨opened, false⟩ (c :: rest) = (field delim ⟨opened, false⟩ rest).prepend [c] := by
  rw [field_go (fun h => hdelim.elim (· h.2.2) (· h.1))]
  simp [Lexing.next, Lexing.copied, hback, hquote, hhead]

/-- A quote that opens a quotation. -/
theorem field_opens {delim c : Byte} {opened : List Byte} (hquote : isQuote c = true)
    (hhead : opened.head? ≠ some c) (hdelim : c ≠ delim ∨ opened ≠ []) (rest : Bytes) :
    field delim ⟨opened, false⟩ (c :: rest) =
      (field delim ⟨c :: opened, false⟩ rest).prepend [c] := by
  rw [field_go (fun h => hdelim.elim (· h.2.2) (· h.1))]
  simp [Lexing.next, Lexing.copied, (isQuote_ne hquote).2, hquote, hhead]

/-- A quote that closes the innermost quotation. -/
theorem field_closes {delim c : Byte} {opened : List Byte} (hback : c ≠ backslash) (rest : Bytes) :
    field delim ⟨c :: opened, false⟩ (c :: rest) =
      (field delim ⟨opened, false⟩ rest).prepend [c] := by
  rw [field_go (by simp)]
  simp [Lexing.next, Lexing.copied, hback]

/-- Characters do to the quotes inside a quotation what they do to quotes alone, up to the one that
ends it. -/
theorem next_append {q c : Byte} {opened quotes : List Byte} {escaped : Bool}
    (h : ¬(opened = [] ∧ escaped = false ∧ c = q)) :
    Lexing.next ⟨opened ++ q :: quotes, escaped⟩ c =
      ⟨(Lexing.next ⟨opened, escaped⟩ c).opened ++ q :: quotes,
        (Lexing.next ⟨opened, escaped⟩ c).escaped⟩ := by
  cases opened with
  | nil =>
    have hq : escaped = false → q ≠ c := fun he hqc => h ⟨rfl, he, hqc.symm⟩
    unfold Lexing.next
    cases escaped <;> by_cases hc : c = backslash <;> by_cases hquote : isQuote c = true <;>
      simp_all
  | cons o opened =>
    unfold Lexing.next
    cases escaped <;> by_cases hc : c = backslash <;> by_cases ho : o = c <;>
      by_cases hquote : isQuote c = true <;> simp_all

/-- **A quotation inside a field is a field of its own, up to its quote.** -/
theorem field_nested (delim : Byte) {q : Byte} (hq : q ≠ backslash) (quotes : List Byte)
    (text : Bytes) :
    ∀ (opened : List Byte) (escaped : Bool),
      field delim ⟨opened ++ q :: quotes, escaped⟩ text =
        if (field q ⟨opened, escaped⟩ text).rest = [] then field q ⟨opened, escaped⟩ text
        else (field delim ⟨quotes, false⟩ (field q ⟨opened, escaped⟩ text).rest.tail).prepend
          (field q ⟨opened, escaped⟩ text).copy := by
  induction text with
  | nil =>
    intro opened escaped
    simp [field]
  | cons c rest ih =>
    intro opened escaped
    by_cases hstop : opened = [] ∧ escaped = false ∧ c = q
    · obtain ⟨rfl, rfl, rfl⟩ := hstop
      rw [List.nil_append, field_closes hq, field_stop]
      simp
    · have hcopied : Lexing.copied ⟨opened ++ q :: quotes, escaped⟩ c =
          Lexing.copied ⟨opened, escaped⟩ c := rfl
      rw [field_go (by simp), field_go hstop, next_append hstop, ih, hcopied]
      split <;> simp_all [Field.prepend_prepend]

/-- A field that ends at its delimiter. -/
structure EndsAt (delim : Byte) (s : Lexing) (text rest : Bytes) (f : Field) : Prop where
  split : ∃ pre, text = pre ++ delim :: rest ∧ f.copy.length ≤ pre.length + 1 ∧
    pre.foldl Lexing.next s = {}
  copy : f.copy.getLast? = some delim
  hanging : f.hanging = false

theorem field_rest {delim : Byte} {text : Bytes} : ∀ {s : Lexing}, (field delim s text).rest ≠ [] →
    ∃ rest, (field delim s text).rest = delim :: rest ∧
    EndsAt delim s text rest (field delim s text) := by
  induction text with
  | nil =>
    intro s h
    exact absurd rfl h
  | cons c rest ih =>
    intro s h
    by_cases hstop : s.opened = [] ∧ s.escaped = false ∧ c = delim
    · obtain ⟨ho, he, rfl⟩ := hstop
      have hs : s = {} := by
        cases s
        simp_all
      rw [field, if_pos ⟨ho, he, rfl⟩]
      exact ⟨rest, rfl, ⟨[], rfl, by simp, hs⟩, rfl, rfl⟩
    · rw [field_go hstop] at h ⊢
      obtain ⟨rest', hrest, ⟨pre, hpre, hlen, hfold⟩, hcopy, hhang⟩ := ih h
      have hcopied : (s.copied c).length ≤ 1 := by
        unfold Lexing.copied
        split <;> simp
      refine ⟨rest', hrest, ⟨c :: pre, by rw [hpre]; rfl, ?_, hfold⟩, ?_, hhang⟩
      · simp only [Field.prepend_copy, List.length_append, List.length_cons]
        omega
      · rw [Field.prepend_copy, List.getLast?_append, hcopy]
        rfl

/-- A field that the line ends in: the copy ends as the line does, and a delimiter at the end of the
line is none. -/
theorem field_last {delim : Byte} {text : Bytes} : ∀ {s : Lexing}, (field delim s text).rest = [] →
    (text ≠ [] → (field delim s text).copy.getLast? = text.getLast?) ∧
      ((field delim s text).hanging = true → (field delim s text).copy.getLast? = some backslash) ∧
      ∀ init, text = init ++ [delim] → init.foldl Lexing.next s ≠ {} := by
  induction text with
  | nil =>
    intro s _
    refine ⟨fun h => absurd rfl h, fun h => ?_, fun init h => absurd h.symm (by simp)⟩
    simp_all [field]
  | cons c rest ih =>
    intro s h
    by_cases hstop : s.opened = [] ∧ s.escaped = false ∧ c = delim
    · rw [field, if_pos hstop] at h
      exact absurd h (by simp)
    · rw [field_go hstop] at h ⊢
      obtain ⟨hlast, hhang, hinit⟩ := ih h
      refine ⟨fun _ => ?_, fun hh => ?_, fun init hsplit => ?_⟩
      · rw [Field.prepend_copy]
        by_cases hrest : rest = []
        · -- the last character is copied, or is a backslash that is kept
          subst hrest
          obtain ⟨opened, escaped⟩ := s
          unfold Lexing.copied Lexing.next field
          cases escaped <;> by_cases hc : c = backslash <;>
            by_cases hhead : opened.head? = some c <;>
            by_cases hquote : isQuote c = true <;> simp [hc, hhead, hquote]
        · rw [List.getLast?_append, hlast hrest, List.getLast?_cons_of_ne_nil hrest]
          cases hr : rest.getLast? with
          | none => exact absurd (List.getLast?_eq_none_iff.mp hr) hrest
          | some a => rfl
      · rw [Field.prepend_copy, List.getLast?_append, hhang hh]
        rfl
      · cases init with
        | nil =>
          obtain ⟨hc, -⟩ := List.cons.inj hsplit
          intro hs
          exact hstop ⟨congrArg Lexing.opened hs, congrArg Lexing.escaped hs, hc⟩
        | cons a init =>
          obtain ⟨rfl, hrest⟩ := List.cons.inj hsplit
          exact hinit init hrest

/-! ## The calls of `string_parse` -/

theorem load_of_drop {line rest : Bytes} {old : Nat} {c : Byte} (h : line.drop old = c :: rest) :
    load line old = some c ∧ line.drop (old + 1) = rest := by
  constructor
  · have := congrArg (·[0]?) h
    simpa [load] using this
  · rw [← List.tail_drop, h]
    rfl

theorem store_of_drop {line rest : Bytes} {old : Nat} {c : Byte} (v : Byte)
    (h : line.drop old = c :: rest) :
    ∃ line', store line old v = some line' ∧ line'.drop (old + 1) = rest ∧
      line'.length = line.length := by
  have hlt : old < line.length := by
    by_contra hge
    rw [List.drop_eq_nil_of_le (by omega)] at h
    exact absurd h (by simp)
  have hstore : store line old v = some (line.take old ++ [v] ++ line.drop (old + 1)) := if_pos hlt
  have htake : (line.take old ++ [v]).length = old + 1 := by
    simp
    omega
  refine ⟨_, hstore, ?_, length_blit hstore⟩
  rw [(load_of_drop h).2, ← htake, List.drop_left]

theorem blit_append {a m d : Bytes} (h : d.length ≤ m.length) :
    blit (a ++ m) a.length d = some (a ++ d ++ m.drop d.length) := by
  rw [blit, if_pos (by simp; omega), List.take_left, ← List.drop_drop, List.drop_left]

theorem nul_not_mem_cstring {b s : Bytes} (h : cstring b = some s) : 0 ∉ s := by
  unfold cstring at h
  split at h
  · cases h
    intro h0
    simpa using List.mem_takeWhile_imp h0
  · cases h

theorem length_cstring {b s : Bytes} (h : cstring b = some s) : s.length < b.length := by
  have hnul := nul_not_mem_cstring h
  unfold cstring at h
  split at h
  · next h0 =>
    cases h
    have hpre := List.takeWhile_prefix (p := fun c => decide (c ≠ 0)) (l := b)
    refine lt_of_le_of_ne hpre.length_le fun heq => ?_
    rw [hpre.eq_of_length heq] at hnul
    exact hnul h0
  · cases h

/-- A block with `done` in front. Behind the place that is written next there is still the end of
the duplicate, with all the text that is to come. -/
def Room (copy done gap text : Bytes) : Prop := ∃ x, copy = done ++ x :: (gap ++ (text ++ [0])).tail

theorem room_of_append {copy done gap text : Bytes} (h : copy = done ++ (gap ++ (text ++ [0]))) :
    Room copy done gap text := by
  cases hg : gap ++ (text ++ [0]) with
  | nil => simp at hg
  | cons x rest => exact ⟨x, by rw [h, hg]; rfl⟩

theorem tail_gap {m : Bytes} (hm : m ≠ []) (gap text : Bytes) :
    (gap ++ (m ++ text ++ [0])).tail = (gap ++ m).tail ++ (text ++ [0]) := by
  rw [show gap ++ (m ++ text ++ [0]) = gap ++ m ++ (text ++ [0]) by simp,
    List.tail_append_of_ne_nil (by simp [hm])]

/-- One more character is written, for one or two of the line. -/
theorem Room.write {copy done gap m text : Bytes} {v : Byte} (hm : m ≠ []) (h0 : 0 ∉ gap ++ m)
    (h : Room copy done gap (m ++ text)) :
    ∃ copy' gap', store copy done.length v = some copy' ∧ copy'.length = copy.length ∧
      copy' = done ++ v :: (gap ++ (m ++ text ++ [0])).tail ∧ 0 ∉ gap' ∧
      Room copy' (done ++ [v]) gap' text := by
  obtain ⟨x, rfl⟩ := h
  refine ⟨_, (gap ++ m).tail, store_append _ _ _ _, by simp, rfl, fun h =>
    h0 (List.mem_of_mem_tail h), room_of_append ?_⟩
  rw [tail_gap hm]
  simp

/-- The copy of a quotation is put behind its quote. -/
theorem Room.quote {copy done gap pre text t : Bytes} {c : Byte} (ht : t.length ≤ pre.length)
    (h0 : 0 ∉ gap ++ [c] ++ pre) (h : Room copy done gap (c :: (pre ++ text))) :
    ∃ copy₁ copy₂ gap', store copy done.length c = some copy₁ ∧
      blit copy₁ (done.length + 1) (t ++ [0]) = some copy₂ ∧ copy₂.length = copy.length ∧
      0 ∉ gap' ∧ Room copy₂ (done ++ c :: t) gap' text := by
  obtain ⟨x, rfl⟩ := h
  have htail : (gap ++ (c :: (pre ++ text) ++ [0])).tail = (gap ++ [c]).tail ++ pre ++
      (text ++ [0]) := by
    have := tail_gap (m := [c]) (by simp) gap (pre ++ text)
    simpa using this
  have hblit :=
    blit_append (a := done ++ [c]) (m := (gap ++ [c]).tail ++ pre ++ (text ++ [0])) (d := t ++ [0])
    (by simp; omega)
  have hblock : done ++ [c] ++ ((gap ++ [c]).tail ++ pre ++ (text ++ [0]))
      = done ++ c :: (gap ++ (c :: (pre ++ text) ++ [0])).tail := by
    rw [htail]
    simp
  rw [hblock, List.length_append, List.length_singleton] at hblit
  refine ⟨_, _, ((gap ++ [c]).tail ++ pre).drop t.length, store_append _ _ _ _, hblit,
    (length_blit hblit).trans (by simp), fun h => h0 ?_, 0, ?_⟩
  · rcases List.mem_append.mp (List.mem_of_mem_drop h) with h | h
    · exact List.mem_append_left _ (List.mem_of_mem_tail h)
    · exact List.mem_append_right _ h
  · rw [List.length_append, List.length_singleton, ← List.tail_drop,
      List.drop_append_of_le_length (by simp; omega)]
    simp

/-- What a call of `string_parse` leaves of a field. Where the line ended in a backslash, the end of
the duplicate stands behind the copy. -/
structure Reads (delim : Byte) (line copy done text : Bytes) (p : Parsed) : Prop where
  rest : p.line.drop p.last = (field delim {} text).rest ++ [0]
  length : p.line.length = line.length
  block : p.copy.length = copy.length
  copy : ∃ leftover, cstring p.copy = some (done ++ (field delim {} text).copy ++ leftover) ∧
    ((field delim {} text).hanging = false → leftover = []) ∧ ∀ c ∈ leftover.getLast?, c = backslash

/-- The turns of the loop that only copy. -/
theorem Reads.step {delim : Byte} {line line' copy copy' done text text' d : Bytes} {p : Parsed}
    (h : Reads delim line' copy' (done ++ d) text' p) (hline : line'.length = line.length)
    (hcopy : copy'.length = copy.length)
    (hfield : field delim {} text = (field delim {} text').prepend d) :
    Reads delim line copy done text p where
  rest := by rw [hfield]; exact h.rest
  length := h.length.trans hline
  block := h.block.trans hcopy
  copy := by
    obtain ⟨leftover, hstring, hhang, hlast⟩ := h.copy
    rw [hfield]
    exact ⟨leftover, by rw [hstring]; simp, hhang, hlast⟩

/-- The loop is at a text, with `done` copied. -/
structure Stands (line copy done gap text : Bytes) (old : Nat) : Prop where
  at_text : line.drop old = text ++ [0]
  nul_text : 0 ∉ text
  nul_done : 0 ∉ done
  nul_gap : 0 ∉ gap
  room : Room copy done gap text

/-- A call starts with the duplicate. -/
theorem stands_duplicate {line text : Bytes} {old : Nat} (hline : line.drop old = text ++ [0])
    (h0 : 0 ∉ text) :
    Stands line (text ++ [0]) [] [] text old :=
  ⟨hline, h0, by simp, by simp, room_of_append rfl⟩

/-- With this fuel the loop reads a field. -/
def LoopReads (fuel : Nat) : Prop :=
  ∀ {line copy done gap text : Bytes} {delim : Byte} {old : Nat},
    Stands line copy done gap text old →
    delim ≠ 0 → delim ≠ backslash → text.length < fuel →
    ∃ p, stringParseLoop fuel line copy delim old done.length = some p ∧
    Reads delim line copy done text p

section Loop

variable {fuel : Nat} {line copy done gap text rest : Bytes} {delim c d : Byte} {old : Nat}

theorem loop_end (h : Stands line copy done gap [] old) :
    ∃ p, stringParseLoop (fuel + 1) line copy delim old done.length = some p ∧
      Reads delim line copy done [] p := by
  obtain ⟨x, rfl⟩ := h.room
  refine ⟨⟨line, done ++ 0 :: (gap ++ ([] ++ [0])).tail, old⟩, ?_, h.at_text, rfl, by simp, [], ?_,
    fun _ => rfl, by simp⟩
  · rw [stringParseLoop, (load_of_drop h.at_text).1]
    simp [store_append]
  · rw [cstring_append h.nul_done]
    simp [field]

/-- There is no next character: the duplicate is left as it is behind the backslash. -/
theorem loop_hanging (h : Stands line copy done gap [backslash] old) (hdelim : delim ≠ backslash) :
    ∃ p, stringParseLoop (fuel + 1) line copy delim old done.length = some p ∧
      Reads delim line copy done [backslash] p := by
  obtain ⟨x, rfl⟩ := h.room
  obtain ⟨hload, hdrop⟩ := load_of_drop h.at_text
  have hfield : field delim {} [backslash] = ⟨[backslash], [], true⟩ := by
    rw [field_go (fun h => hdelim h.2.2.symm)]
    simp [field, Lexing.next, Lexing.copied, Field.prepend]
  have hnul : (0 : Byte) ≠ backslash := by decide
  have hgap : 0 ∉ (gap ++ [backslash]).tail := fun h0 => by
    have := List.mem_of_mem_tail h0
    have := h.nul_gap
    simp_all
  have htail := tail_gap (m := [backslash]) (by simp) gap []
  refine ⟨⟨line, done ++ backslash :: (gap ++ ([backslash] ++ [0])).tail, old + 1⟩, ?_, ?_, rfl,
    by simp, (gap ++ [backslash]).tail, ?_, ?_, ?_⟩
  · rw [stringParseLoop, hload]
    simp [store_append, (load_of_drop hdrop).1, backslash]
  · rw [hfield]
    exact hdrop
  · have hblock : done ++ backslash :: (gap ++ ([backslash] ++ [0])).tail
        = done ++ [backslash] ++ (gap ++ [backslash]).tail ++ 0 :: [] := by
      rw [show [backslash] ++ [(0 : Byte)] = [backslash] ++ [] ++ [0] from rfl, htail]
      simp
    have hdone := h.nul_done
    rw [hblock, cstring_append (by simp_all), hfield]
  · rw [hfield]
    exact fun h => absurd h (by simp)
  · intro b hb
    cases gap with
    | nil => simp at hb
    | cons g gap => simpa using hb.symm

theorem loop_escape (ih : LoopReads fuel)
    (h : Stands line copy done gap (backslash :: d :: rest) old) (hdelim0 : delim ≠ 0)
    (hdelim : delim ≠ backslash) (hfuel : (backslash :: d :: rest).length < fuel + 1) :
    ∃ p, stringParseLoop (fuel + 1) line copy delim old done.length = some p ∧
      Reads delim line copy done (backslash :: d :: rest) p := by
  obtain ⟨hload, hdrop⟩ := load_of_drop h.at_text
  obtain ⟨hload', hdrop'⟩ := load_of_drop hdrop
  have hback0 : ¬ backslash = 0#8 := by decide
  have htext := h.nul_text
  have hdone := h.nul_done
  have hgap := h.nul_gap
  simp only [List.mem_cons, not_or] at htext
  have hd0 : ¬ d = 0#8 := Ne.symm htext.2.1
  have h0 : 0 ∉ gap ++ [backslash, d] := by simp_all
  obtain ⟨copy₁, -, hstore₁, hlen₁, hcopy₁, -⟩ := Room.write (v := backslash) (by simp) h0 h.room
  have hroom₁ : Room copy₁ done gap ([backslash, d] ++ rest) := ⟨backslash, hcopy₁⟩
  obtain ⟨copy₂, gap', hstore₂, hlen₂, -, hgap', hroom₂⟩ := hroom₁.write (v := d) (by simp) h0
  obtain ⟨p, hp, hreads⟩ :=
    ih ⟨hdrop', htext.2.2, by simp_all, hgap', hroom₂⟩ hdelim0 hdelim (by simp at hfuel; omega)
  refine ⟨p, ?_, hreads.step rfl (hlen₂.trans hlen₁) (field_escaped delim d [] rest hdelim)⟩
  rw [stringParseLoop, hload]
  simpa [hstore₁, hstore₂, hload', hback0, hd0] using hp

theorem loop_delim (h : Stands line copy done gap (delim :: rest) old)
    (hdelim : delim ≠ backslash) :
    ∃ p, stringParseLoop (fuel + 1) line copy delim old done.length = some p ∧
      Reads delim line copy done (delim :: rest) p := by
  obtain ⟨x, rfl⟩ := h.room
  have htext := h.nul_text
  have hdone := h.nul_done
  simp only [List.mem_cons, not_or] at htext
  have htail := tail_gap (m := [delim]) (by simp) gap rest
  have hblit :=
    blit_append (a := done ++ [delim]) (m := (gap ++ [delim]).tail ++ (rest ++ [0])) (d := [0])
      (by simp; omega)
  have hblock : done ++ [delim] ++ ((gap ++ [delim]).tail ++ (rest ++ [0]))
      = done ++ delim :: (gap ++ (delim :: rest ++ [0])).tail := by
    rw [show delim :: rest ++ [0] = [delim] ++ rest ++ [0] from rfl, htail]
    simp
  rw [hblock, List.length_append, List.length_singleton] at hblit
  refine ⟨⟨line, _, old⟩, ?_, by rw [field_stop]; exact h.at_text, rfl,
    (length_blit hblit).trans (by simp), [], ?_, fun _ => rfl, by simp⟩
  rotate_left
  · rw [field_stop]
    show cstring (done ++ [delim] ++ [0] ++ _) = _
    rw [List.append_assoc, List.singleton_append, cstring_append (by simp_all)]
    simp
  · rw [stringParseLoop, (load_of_drop h.at_text).1]
    simp only [Option.bind_eq_bind, Option.bind_some, store_append]
    rw [if_neg (Ne.symm htext.1), if_neg hdelim, if_pos trivial, store, hblit]
    rfl

theorem loop_plain (ih : LoopReads fuel) (h : Stands line copy done gap (c :: rest) old)
    (hdelim0 : delim ≠ 0) (hdelim : delim ≠ backslash) (hfuel : (c :: rest).length < fuel + 1)
    (hback : c ≠ backslash) (hend : c ≠ delim) (hquote : isQuote c = false) :
    ∃ p, stringParseLoop (fuel + 1) line copy delim old done.length = some p ∧
      Reads delim line copy done (c :: rest) p := by
  obtain ⟨hload, hdrop⟩ := load_of_drop h.at_text
  have htext := h.nul_text
  have hdone := h.nul_done
  have hgap := h.nul_gap
  simp only [List.mem_cons, not_or] at htext
  have hc0 : ¬ c = 0#8 := Ne.symm htext.1
  obtain ⟨copy₁, gap', hstore, hlen₁, -, hgap', hroom₁⟩ :=
    Room.write (m := [c]) (v := c) (by simp) (by simp_all) h.room
  obtain ⟨p, hp, hreads⟩ :=
    ih ⟨hdrop, htext.2, by simp_all, hgap', hroom₁⟩ hdelim0 hdelim (by simpa using hfuel)
  refine ⟨p, ?_, hreads.step rfl hlen₁ (field_plain hback hquote (by simp) (.inl hend) rest)⟩
  rw [stringParseLoop, hload]
  simpa [hstore, hc0, hback, hend, hquote] using hp

/-- A quotation. The call for it reads a field of its own, and the loop goes on behind that. -/
theorem loop_quote (ih : LoopReads fuel) (h : Stands line copy done gap (c :: rest) old)
    (hdelim0 : delim ≠ 0) (hdelim : delim ≠ backslash) (hfuel : (c :: rest).length < fuel + 1)
    (hend : c ≠ delim) (hquote : isQuote c = true) :
    ∃ p, stringParseLoop (fuel + 1) line copy delim old done.length = some p ∧
      Reads delim line copy done (c :: rest) p := by
  have hload := (load_of_drop h.at_text).1
  have hdrop : line.drop (old + 1) = rest ++ [0] := (load_of_drop h.at_text).2
  obtain ⟨hc0, hback⟩ := isQuote_ne hquote
  have htext := h.nul_text
  have hdone := h.nul_done
  have hgap := h.nul_gap
  simp only [List.mem_cons, not_or] at htext
  have hlen : rest.length < fuel := by simpa using hfuel
  have hdup : owstrdup line (old + 1) = some (rest ++ [0]) := by
    rw [owstrdup, hdrop, cstring_append htext.2]
    rfl
  obtain ⟨q, hq, hreadsq⟩ : ∃ q, stringParseLoop fuel line (rest ++ [0]) c (old + 1) 0 = some q ∧
      Reads c line (rest ++ [0]) [] rest q := ih (stands_duplicate hdrop htext.2) hc0 hback hlen
  obtain ⟨leftover, hstring, hhang, hlast⟩ := hreadsq.copy
  rw [List.nil_append] at hstring
  have hnul := nul_not_mem_cstring hstring
  have hlength := length_cstring hstring
  rw [hreadsq.block, @List.length_append _ rest, List.length_singleton] at hlength
  have hfield : field delim {} (c :: rest) = (field delim ⟨[] ++ [c], false⟩ rest).prepend [c] :=
    field_opens hquote (by simp) (.inl hend) rest
  rw [field_nested delim hback [] rest [] false] at hfield
  have hdropq := hreadsq.rest
  by_cases hopen : (field c {} rest).rest = []
  · -- the line ends inside the quotation
    rw [if_pos hopen] at hfield
    rw [hopen] at hdropq
    have hroom : Room copy done gap (c :: (rest ++ [])) := by simpa using h.room
    obtain ⟨copy₁, copy₂, gap', hstore, hblit, hlen₂, hgap', hroom₂⟩ :=
      hroom.quote (t := (field c {} rest).copy ++ leftover) (by omega) (by simp_all)
    obtain ⟨p, hp, hreads⟩ :=
      ih ⟨hdropq, by simp, by simp_all, hgap', hroom₂⟩ hdelim0 hdelim (by simp; omega)
    obtain ⟨more, hmore, hnone, -⟩ := hreads.copy
    refine ⟨p, ?_, ?_, hreads.length.trans hreadsq.length, hreads.block.trans hlen₂, leftover, ?_,
      ?_, hlast⟩
    · rw [List.length_append, List.length_cons, ← Nat.add_assoc] at hp
      rw [stringParseLoop, hload]
      simp only [Option.bind_eq_bind, Option.bind_some, hstore]
      rw [if_neg hc0, if_neg hback, if_neg hend, if_pos hquote]
      simp only [hdup, hq, hstring, hblit, (load_of_drop hdropq).1, Option.bind_some]
      rw [if_neg (Ne.symm hc0), hp]
    · rw [hfield, Field.prepend_rest, hopen]
      exact hreads.rest
    · rw [hmore, hnone rfl, hfield]
      simp [field]
    · rw [hfield]
      exact hhang
  · obtain ⟨rest', hrest', ⟨pre, hpre, hcopy, -⟩, -, hnohang⟩ := field_rest hopen
    obtain rfl := hhang hnohang
    rw [List.append_nil] at *
    rw [if_neg hopen, hrest'] at hfield
    rw [hrest'] at hdropq
    have hsplit : 0 ∉ pre ++ c :: rest' := hpre ▸ htext.2
    have hroom := h.room
    rw [hpre, show pre ++ c :: rest' = pre ++ [c] ++ rest' by simp] at hroom
    obtain ⟨copy₁, copy₂, gap', hstore, hblit, hlen₂, hgap', hroom₂⟩ :=
      hroom.quote (t := (field c {} rest).copy) (by simpa using hcopy) (by simp_all)
    obtain ⟨line', hclear, hdrop', hlen'⟩ := store_of_drop 0 hdropq
    have hfuel' : rest'.length < fuel := by
      have := congrArg List.length hpre
      simp at this
      omega
    obtain ⟨p, hp, hreads⟩ :=
      ih ⟨hdrop', by simp_all, by simp_all, hgap', hroom₂⟩ hdelim0 hdelim hfuel'
    refine ⟨p, ?_, hreads.step (d := c :: (field c {} rest).copy) (hlen'.trans hreadsq.length) hlen₂
      ?_⟩
    · rw [List.length_append, List.length_cons, ← Nat.add_assoc] at hp
      rw [stringParseLoop, hload]
      simp only [Option.bind_eq_bind, Option.bind_some, hstore]
      rw [if_neg hc0, if_neg hback, if_neg hend, if_pos hquote]
      simp only [hdup, hq, hstring, hblit, (load_of_drop hdropq).1, Option.bind_some]
      rw [if_pos trivial, hclear]
      exact hp
    · rw [hfield]
      simp [Field.prepend_prepend]

end Loop

/-- **`string_parse` copies a field, and nothing that it reads or writes is outside the line or the
duplicate.** The induction is on the fuel, for every delimiter at once. -/
theorem loopReads (fuel : Nat) : LoopReads fuel := by
  induction fuel with
  | zero =>
    intro line copy done gap text delim old _ _ _ hfuel
    exact absurd hfuel (by omega)
  | succ fuel ih =>
    intro line copy done gap text delim old h hdelim0 hdelim hfuel
    match text with
    | [] => exact loop_end h
    | c :: rest =>
      by_cases hback : c = backslash
      · subst hback
        cases rest with
        | nil => exact loop_hanging h hdelim
        | cons d rest => exact loop_escape ih h hdelim0 hdelim hfuel
      · by_cases hend : c = delim
        · subst hend
          exact loop_delim h hdelim
        · by_cases hquote : isQuote c = true
          · exact loop_quote ih h hdelim0 hdelim hfuel hend hquote
          · exact loop_plain ih h hdelim0 hdelim hfuel hback hend (by simpa using hquote)

theorem stringParse_reads {line text : Bytes} {start : Nat} (hline : line.drop start = text ++ [0])
    (h0 : 0 ∉ text) :
    ∃ p, stringParse line start comma = some p ∧ Reads comma line (text ++ [0]) [] text p := by
  have hlen := congrArg List.length hline
  simp at hlen
  obtain ⟨p, hp, hreads⟩ :=
    loopReads line.length (stands_duplicate hline h0) comma_plain.1 comma_plain.2.1 (by omega)
  refine ⟨p, ?_, hreads⟩
  rw [stringParse, owstrdup, hline, cstring_append h0]
  exact hp

/-! ## `GetQuotedString` -/

/-- What a call of `GetQuotedString` leaves: the rest of the line, and the token of a copy. -/
structure Takes (line rest copy : Bytes) (token : Token) : Prop where
  rest : token.line.drop token.start = rest
  length : token.line.length = line.length
  text : token.text = unquoteParse (trimParse copy)

section GetQuotedString

variable {line text rest : Bytes} {start : Nat}

/-- The token before a separator. -/
theorem getQuotedString_separated (hline : line.drop start = text ++ [0]) (h0 : 0 ∉ text)
    (hrest : (field comma {} text).rest = comma :: rest) :
    ∃ token, getQuotedString line start = some token ∧
      Takes line (rest ++ [0]) (field comma {} text).copy.dropLast token := by
  obtain ⟨p, hp, hreads⟩ := stringParse_reads hline h0
  have hends : (field comma {} text).rest ≠ [] := by
    rw [hrest]
    simp
  obtain ⟨rest', hrest', ends⟩ := field_rest hends
  obtain ⟨leftover, hstring, hhang, -⟩ := hreads.copy
  obtain rfl := hhang ends.hanging
  rw [List.nil_append, List.append_nil] at hstring
  have hdrop := hreads.rest
  rw [hrest] at hdrop
  refine ⟨⟨p.line, p.last + 1, unquoteParse (trimParse (field comma {} text).copy.dropLast)⟩, ?_,
    (load_of_drop hdrop).2, hreads.length, rfl⟩
  rw [getQuotedString, hp]
  simp [hstring, lastParam, ends.copy]

/-- The token at the end of the line. -/
theorem getQuotedString_last (hline : line.drop start = text ++ [0]) (h0 : 0 ∉ text)
    (hrest : (field comma {} text).rest = []) (hlast : text.getLast? ≠ some comma) :
    ∃ token leftover, getQuotedString line start = some token ∧
      Takes line [0] ((field comma {} text).copy ++ leftover) token ∧
      ((field comma {} text).hanging = false → leftover = []) := by
  obtain ⟨p, hp, hreads⟩ := stringParse_reads hline h0
  obtain ⟨hcopy, hback, -⟩ := field_last hrest
  obtain ⟨leftover, hstring, hhang, hend⟩ := hreads.copy
  rw [List.nil_append] at hstring
  have hdrop := hreads.rest
  rw [hrest] at hdrop
  have hcomma : ((field comma {} text).copy ++ leftover).getLast? ≠ some comma := by
    rw [List.getLast?_append]
    cases hl : leftover.getLast? with
    | some b =>
      rw [hend b hl, Option.some_or]
      decide
    | none =>
      rw [Option.none_or]
      by_cases htext : text = []
      · subst htext
        simp [field]
      · rw [hcopy htext]
        exact hlast
  refine ⟨⟨p.line, p.last, unquoteParse (trimParse ((field comma {} text).copy ++ leftover))⟩,
    leftover, ?_, ⟨hdrop, hreads.length, rfl⟩, hhang⟩
  have hparam : lastParam ((field comma {} text).copy ++ leftover) =
      (true, (field comma {} text).copy ++ leftover) :=
    if_neg hcomma
  rw [getQuotedString, hp]
  simp [hstring, hparam]

/-- The line ends in a comma that is no separator: `LastParam` takes it for one, and `start_pointer`
moves past the end. -/
theorem getQuotedString_past (hline : line.drop start = text ++ [0]) (h0 : 0 ∉ text)
    (hrest : (field comma {} text).rest = []) (hlast : text.getLast? = some comma) :
    ∃ token, getQuotedString line start = some token ∧
      Takes line [] (field comma {} text).copy.dropLast token := by
  obtain ⟨p, hp, hreads⟩ := stringParse_reads hline h0
  obtain ⟨hcopy, hback, -⟩ := field_last hrest
  obtain ⟨leftover, hstring, hhang, hend⟩ := hreads.copy
  have htext : text ≠ [] := by
    rintro rfl
    simp at hlast
  have hcomma : (field comma {} text).copy.getLast? = some comma := (hcopy htext).trans hlast
  have hnohang : (field comma {} text).hanging = false := by
    by_contra hh
    rw [hback (by simpa using hh)] at hcomma
    exact absurd hcomma (by decide)
  obtain rfl := hhang hnohang
  rw [List.nil_append, List.append_nil] at hstring
  have hdrop := hreads.rest
  rw [hrest] at hdrop
  refine ⟨⟨p.line, p.last + 1, unquoteParse (trimParse (field comma {} text).copy.dropLast)⟩, ?_,
    (load_of_drop hdrop).2, hreads.length, rfl⟩
  rw [getQuotedString, hp]
  simp [hstring, lastParam, hcomma]

/-- Behind the end of the line there is nothing to read. -/
theorem getQuotedString_none (hline : line.drop start = []) :
    getQuotedString line start = none := by
  rw [getQuotedString, stringParse, owstrdup, hline]
  rfl

end GetQuotedString

theorem lt_of_drop_ne_nil {line : Bytes} {start : Nat} (h : line.drop start ≠ []) :
    start < line.length := by
  by_contra hge
  exact h (List.drop_eq_nil_of_le (by omega))

/-! ## How far `start_pointer` goes -/

/-- However many tokens are taken from a place on, all of it stays in the line. -/
def Stays (line : Bytes) (start : Nat) : Prop :=
  ∀ n, ∃ texts e, getTokens n line start = some (texts, e) ∧ e < line.length

theorem getTokens_succ {line : Bytes} {start : Nat} {token : Token}
    (h : getQuotedString line start = some token) (n : Nat) :
    getTokens (n + 1) line start
      = (getTokens n token.line token.start).map fun r => (token.text :: r.1, r.2) := by
  simp only [getTokens, h, Option.bind_eq_bind, Option.bind_some]
  cases getTokens n token.line token.start <;> rfl

/-- One token more or less makes no difference. -/
theorem stays_step {line : Bytes} {start : Nat} {token : Token}
    (h : getQuotedString line start = some token) (hstart : start < line.length)
    (hlen : token.line.length = line.length) :
    Stays line start ↔ Stays token.line token.start := by
  constructor
  · intro hstays n
    obtain ⟨texts, e, he, hlt⟩ := hstays (n + 1)
    rw [getTokens_succ h, Option.map_eq_some_iff] at he
    obtain ⟨⟨texts', e'⟩, he, heq⟩ := he
    cases heq
    exact ⟨texts', e', he, hlen ▸ hlt⟩
  · intro hstays n
    cases n with
    | zero => exact ⟨[], start, rfl, hstart⟩
    | succ n =>
      obtain ⟨texts, e, he, hlt⟩ := hstays n
      exact ⟨token.text :: texts, e, by rw [getTokens_succ h, he]; rfl, hlen ▸ hlt⟩

/-- At the end of the line the tokens are empty and `start_pointer` does not move. -/
theorem stays_at_end {line : Bytes} {start : Nat} (hline : line.drop start = [0]) :
    Stays line start := by
  intro n
  induction n generalizing line start with
  | zero => exact ⟨[], start, rfl, lt_of_drop_ne_nil (by rw [hline]; simp)⟩
  | succ n ih =>
    obtain ⟨token, leftover, htoken, htakes, -⟩ :=
      getQuotedString_last (show line.drop start = [] ++ [0] from hline) (by simp) rfl (by simp)
    obtain ⟨texts, e, he, hlt⟩ := ih htakes.rest
    exact ⟨token.text :: texts, e, by rw [getTokens_succ htoken, he]; rfl, htakes.length ▸ hlt⟩

theorem lexing_append_comma {pre : Bytes} (hpre : lexing pre = {}) (rest : Bytes) :
    lexing (pre ++ comma :: rest) = lexing rest := by
  have hcomma : Lexing.next {} comma = {} := by decide
  rw [lexing, List.foldl_append, List.foldl_cons, ← lexing, hpre, hcomma]
  rfl

/-- Only the last field of a line matters. -/
theorem separates_append {pre : Bytes} (hpre : lexing pre = {}) (rest : Bytes) :
    Separates (pre ++ comma :: rest) ↔ Separates rest := by
  constructor
  · rintro h init rfl
    rw [← lexing_append_comma hpre]
    exact h (pre ++ comma :: init) (by simp)
  · intro h init hinit
    rcases List.eq_nil_or_concat rest with rfl | ⟨front, b, rfl⟩
    · obtain ⟨rfl, -⟩ := List.append_inj' hinit rfl
      exact hpre
    · have hsplit : (pre ++ comma :: front) ++ [b] = init ++ [comma] := by
        rw [← hinit]
        simp
      obtain ⟨rfl, hb⟩ := List.append_inj' hsplit rfl
      rw [lexing_append_comma hpre]
      exact h front (by rw [List.singleton_inj.mp hb]; simp)

/-- The induction is on the text that is left: each token takes a field of it. -/
theorem stays_iff (n : Nat) :
    ∀ {text line : Bytes} {start : Nat}, text.length ≤ n → line.drop start = text ++ [0] →
    0 ∉ text → (Stays line start ↔ Separates text) := by
  induction n with
  | zero =>
    intro text line start hlen hline _
    obtain rfl := List.length_eq_zero_iff.mp (Nat.le_zero.mp hlen)
    exact iff_of_true (stays_at_end hline) (fun init h => absurd h.symm (by simp))
  | succ n ih =>
    intro text line start hlen hline h0
    have hstart : start < line.length := lt_of_drop_ne_nil (by rw [hline]; simp)
    by_cases hrest : (field comma {} text).rest = []
    · by_cases hlast : text.getLast? = some comma
      · obtain ⟨token, htoken, htakes⟩ := getQuotedString_past hline h0 hrest hlast
        refine iff_of_false (fun hstays => ?_) (fun hsep => ?_)
        · obtain ⟨texts, e, he, hlt⟩ := hstays 1
          rw [getTokens_succ htoken] at he
          cases he
          have := htakes.rest
          rw [List.drop_eq_nil_iff, htakes.length] at this
          omega
        · obtain ⟨init, hinit⟩ := List.getLast?_eq_some_iff.mp hlast
          exact (field_last hrest).2.2 init hinit (hsep init hinit)
      · obtain ⟨token, leftover, htoken, htakes, -⟩ := getQuotedString_last hline h0 hrest hlast
        refine iff_of_true ((stays_step htoken hstart htakes.length).mpr (stays_at_end htakes.rest))
          ?_
        rintro init rfl
        exact absurd (by simp) hlast
    · obtain ⟨rest, hrest, ends⟩ := field_rest hrest
      obtain ⟨pre, rfl, -, hpre⟩ := ends.split
      obtain ⟨token, htoken, htakes⟩ := getQuotedString_separated hline h0 hrest
      rw [stays_step htoken hstart htakes.length, separates_append hpre]
      refine ih ?_ htakes.rest (fun h => h0 (List.mem_append_right _ (List.mem_cons_of_mem _ h)))
      simp at hlen
      omega

theorem staysInLine_iff {line : Bytes} (h0 : 0 ∉ line) : StaysInLine line ↔ Separates line := by
  have hstays : Stays (line ++ [0]) 0 ↔ Separates line := stays_iff line.length le_rfl rfl h0
  rw [← hstays]
  simp [StaysInLine, Stays]

/-! ## White space and quotes around a token -/

theorem isTrimmed_quote {c : Byte} (h : isQuote c = true) : isTrimmed c = false := by
  rcases Bool.or_eq_true _ _ ▸ h with h | h <;> rw [of_decide_eq_true h] <;> decide

theorem trimParse_cons {c : Byte} (hc : isTrimmed c = false) (s : Bytes) :
    trimParse (c :: s) = (c :: s).rdropWhile isTrimmed := by
  simp only [isTrimmed, Bool.or_eq_false_iff, decide_eq_false_iff_not] at hc
  obtain ⟨⟨⟨hblank, htab⟩, hlf⟩, hcr⟩ := hc
  have hdrop : (c :: s).dropWhile (fun c => c = chr ' ' || c = 9) = c :: s :=
    List.dropWhile_cons_of_neg (by rw [decide_eq_false hblank, decide_eq_false htab]; simp)
  simp only [trimParse, hdrop]
  rw [if_neg (not_or.mpr ⟨hlf, hcr⟩)]

/-- What is not white space ends what is trimmed. -/
theorem rdropWhile_append_cons {c : Byte} (hc : isTrimmed c = false) (a s : Bytes) :
    (a ++ c :: s).rdropWhile isTrimmed = a ++ c :: s.rdropWhile isTrimmed := by
  have hstop : (c :: a.reverse).dropWhile isTrimmed = c :: a.reverse :=
    List.dropWhile_cons_of_neg (by simp [hc])
  rw [List.rdropWhile, List.rdropWhile, List.reverse_append, List.reverse_cons, List.append_assoc,
    List.singleton_append, List.dropWhile_append, hstop]
  split
  · next h =>
    rw [List.isEmpty_iff.mp h]
    simp
  · simp

theorem length_trimParse_le {c : Byte} (hc : isTrimmed c = true) (s : Bytes) :
    (trimParse (c :: s)).length ≤ s.length := by
  by_cases hblank : (c = chr ' ' || c = 9) = true
  · have hdrop : (c :: s).dropWhile (fun c => c = chr ' ' || c = 9) =
        s.dropWhile (fun c => c = chr ' ' || c = 9) :=
      List.dropWhile_cons_of_pos hblank
    have hle := (List.dropWhile_sublist (l := s) fun c => c = chr ' ' || c = 9).length_le
    simp only [trimParse, hdrop]
    split
    · simp
    · split
      · simp
      · exact (List.rdropWhile_prefix _ _).length_le.trans hle
  · have hdrop : (c :: s).dropWhile (fun c => c = chr ' ' || c = 9) = c :: s :=
      List.dropWhile_cons_of_neg hblank
    have hend : c = 10 ∨ c = 13 := by
      simp only [isTrimmed, Bool.or_eq_true, decide_eq_true_eq] at hc hblank
      tauto
    simp only [trimParse, hdrop]
    rw [if_pos hend]
    exact Nat.zero_le _

theorem length_unquoteParse_cons {q : Byte} (hq : isQuote q = true) (s : Bytes) :
    (unquoteParse (q :: s)).length ≤ s.length := by
  simp only [unquoteParse, hq, if_true]
  split
  · simp
  · split <;> simp

theorem length_unquoteParse_le (s : Bytes) : (unquoteParse s).length ≤ s.length := by
  cases s with
  | nil => simp [unquoteParse]
  | cons q s =>
    by_cases hq : isQuote q = true
    · exact (length_unquoteParse_cons hq s).trans (by simp)
    · simp [unquoteParse, hq]

/-- A token keeps its text if and only if it neither starts nor ends with white space and starts
with no quote. -/
theorem unquoteParse_trimParse_iff (s : Bytes) :
    unquoteParse (trimParse s) = s ↔
      (∀ c ∈ s.head?, isTrimmed c = false ∧ isQuote c = false) ∧ ∀ c ∈ s.getLast?,
      isTrimmed c = false := by
  cases s with
  | nil => simp [trimParse, unquoteParse]
  | cons c s =>
    rw [List.head?_cons, List.getLast?_eq_getLast_of_ne_nil (by simp)]
    simp only [Option.mem_def, Option.some.injEq, forall_eq']
    by_cases hc : isTrimmed c = true
    · refine iff_of_false (fun h => ?_) (by simp [hc])
      have := length_unquoteParse_le (trimParse (c :: s))
      have := length_trimParse_le hc s
      rw [h, List.length_cons] at *
      omega
    · have hc : isTrimmed c = false := by simpa using hc
      have htrim := trimParse_cons hc s
      rw [htrim]
      by_cases hquote : isQuote c = true
      · refine iff_of_false (fun h => ?_) (by simp [hquote])
        have hcons := rdropWhile_append_cons hc [] s
        have hle := (List.rdropWhile_prefix isTrimmed s).length_le
        rw [List.nil_append, List.nil_append] at hcons
        rw [hcons] at h
        have hlen := length_unquoteParse_cons hquote (s.rdropWhile isTrimmed)
        rw [h, List.length_cons] at hlen
        omega
      · have hcons := rdropWhile_append_cons hc [] s
        rw [List.nil_append, List.nil_append] at hcons
        have hunquote : unquoteParse ((c :: s).rdropWhile isTrimmed) =
            (c :: s).rdropWhile isTrimmed := by
          rw [hcons]
          simp [unquoteParse, hquote]
        rw [hunquote, List.rdropWhile_eq_self_iff]
        simp [hc, hquote]

theorem unquoteParse_trimParse_quoted {q : Byte} (hq : isQuote q = true) (s : Bytes) :
    unquoteParse (trimParse (q :: s ++ [q])) = s := by
  have htrim := isTrimmed_quote hq
  have hself : (q :: s ++ [q]).rdropWhile isTrimmed = q :: s ++ [q] := by
    simpa using rdropWhile_append_cons htrim (q :: s) []
  rw [List.cons_append, trimParse_cons htrim, ← List.cons_append, hself]
  simp [unquoteParse, hq]

/-- A comma behind the quotes stays, so that the token is longer than what the quotes hold. -/
theorem lt_length_unquoteParse {q : Byte} (hq : isQuote q = true) (s more : Bytes) :
    s.length < (unquoteParse (trimParse (q :: s ++ [q] ++ comma :: more))).length := by
  have htrim := isTrimmed_quote hq
  have hself := rdropWhile_append_cons (c := comma) (by decide) (q :: s ++ [q]) more
  rw [show q :: s ++ [q] ++ comma :: more = q :: (s ++ [q] ++ comma :: more) from rfl] at *
  rw [trimParse_cons htrim, hself]
  simp only [List.cons_append, unquoteParse, hq, if_true]
  split
  · next h => simp at h
  · split <;> simp

/-! ## The round trip -/

theorem Quote.isQuote_byte (q : Quote) : isQuote q.byte = true := by
  cases q <;> decide

theorem Quote.byte_ne_other (q : Quote) : q.byte ≠ q.other.byte := by
  cases q <;> decide

theorem Quote.isQuote_iff (q : Quote) (c : Byte) :
    isQuote c = true ↔ c = q.byte ∨ c = q.other.byte := by
  cases q <;> simp [isQuote, Quote.byte, Quote.other, or_comm]

theorem field_bare {letters : List Letter}
    (h : ∀ l ∈ letters, l.char = backslash ∨ l.char = comma ∨ isQuote l.char → l.escaped)
    (rest : Bytes) :
    field comma {} (rawOf letters ++ rest) = (field comma {} rest).prepend (textOf letters) := by
  induction letters with
  | nil => rfl
  | cons l letters ih =>
    obtain ⟨hl, htail⟩ := List.forall_mem_cons.mp h
    have hraw : rawOf (l :: letters) ++ rest = l.raw ++ (rawOf letters ++ rest) := by simp [rawOf]
    have hstep : field comma {} (l.raw ++ (rawOf letters ++ rest)) =
        (field comma {} (rawOf letters ++ rest)).prepend [l.char] := by
      unfold Letter.raw
      by_cases he : l.escaped = true
      · rw [if_pos he]
        exact field_escaped comma l.char [] _ comma_plain.2.1
      · have hplain := mt hl he
        simp only [not_or] at hplain
        rw [if_neg he]
        exact field_plain hplain.1 (by simpa using hplain.2.2) (by simp) (.inl hplain.2.1) _
    rw [hraw, hstep, ih htail, Field.prepend_prepend]
    rfl

/-- The quotes that are open inside a quotation, with the other quote open or not. -/
def Quote.opened (q : Quote) (other : Bool) : List Byte :=
  if other then [q.other.byte, q.byte] else [q.byte]

/-- Inside a quotation, the other quote opens and closes in turn. -/
theorem field_quoted (q : Quote) {letters : List Letter}
    (h : ∀ l ∈ letters, l.char = backslash ∨ l.char = q.byte → l.escaped) (rest : Bytes) :
    ∀ other : Bool, field comma ⟨q.opened other, false⟩ (rawOf letters ++ rest) =
      (field comma ⟨q.opened (other ^^ decide (openings q letters % 2 = 1)), false⟩ rest).prepend
      (textOf letters) := by
  induction letters with
  | nil =>
    intro other
    simp [rawOf, textOf, openings, Field.prepend]
  | cons l letters ih =>
    intro other
    obtain ⟨hl, htail⟩ := List.forall_mem_cons.mp h
    have hraw : rawOf (l :: letters) ++ rest = l.raw ++ (rawOf letters ++ rest) := by simp [rawOf]
    have hne : q.opened other ≠ [] := by
      unfold Quote.opened
      split <;> simp
    rw [hraw]
    by_cases hturn : l.escaped = false ∧ l.char = q.other.byte
    · have hstep : field comma ⟨q.opened other, false⟩ (l.raw ++ (rawOf letters ++ rest)) =
          (field comma ⟨q.opened (!other), false⟩ (rawOf letters ++ rest)).prepend [l.char] := by
        rw [Letter.raw, if_neg (by simp [hturn.1]), hturn.2]
        cases other with
        | false =>
          exact field_opens q.other.isQuote_byte
            (by simpa [Quote.opened] using q.byte_ne_other) (.inr hne) _
        | true => exact field_closes (isQuote_ne q.other.isQuote_byte).2 _
      have hcount : openings q (l :: letters) = openings q letters + 1 :=
        List.countP_cons_of_pos (by simpa using hturn)
      rw [hstep, ih htail, Field.prepend_prepend, hcount]
      congr 4
      by_cases hodd : openings q letters % 2 = 1
      · rw [decide_eq_true hodd, decide_eq_false (by omega)]
        cases other <;> rfl
      · rw [decide_eq_false hodd, decide_eq_true (by omega)]
        cases other <;> rfl
    · have hstep : field comma ⟨q.opened other, false⟩ (l.raw ++ (rawOf letters ++ rest)) =
          (field comma ⟨q.opened other, false⟩ (rawOf letters ++ rest)).prepend [l.char] := by
        unfold Letter.raw
        by_cases he : l.escaped = true
        · rw [if_pos he]
          exact field_escaped comma l.char _ _ comma_plain.2.1
        · have hplain := mt hl he
          simp only [not_or] at hplain
          have hother : l.char ≠ q.other.byte := fun hc => hturn ⟨by simpa using he, hc⟩
          have hquote : isQuote l.char = false := by
            rw [Bool.eq_false_iff]
            exact fun hq => ((q.isQuote_iff _).mp hq).elim hplain.2 hother
          have hhead : (q.opened other).head? ≠ some l.char := by
            unfold Quote.opened
            split <;> simp [Ne.symm hplain.2, Ne.symm hother]
          rw [if_neg he]
          exact field_plain hplain.1 hquote hhead (.inr hne) _
      have hcount : openings q (l :: letters) = openings q letters :=
        List.countP_cons_of_neg (by simpa using hturn)
      rw [hstep, ih htail, Field.prepend_prepend, hcount]
      rfl

/-- What is copied of a token: the quotes as well. -/
def Written.copied : Written → Bytes
  | .bare letters _ => textOf letters
  | .quoted quote letters _ => quote.byte :: textOf letters ++ [quote.byte]

theorem field_raw {w : Written} (h : w.Closed) (rest : Bytes) :
    field comma {} (w.raw ++ rest) = (field comma {} rest).prepend w.copied := by
  cases w with
  | bare letters special => exact field_bare special rest
  | quoted q letters special =>
    have heven : decide (openings q letters % 2 = 1) = false :=
      decide_eq_false (by rw [show openings q letters % 2 = 0 from h]; omega)
    have hinner : field comma ⟨[q.byte], false⟩ (rawOf letters ++ q.byte :: rest)
        = (field comma ⟨[q.byte], false⟩ (q.byte :: rest)).prepend (textOf letters) := by
      simpa [Quote.opened, heven] using field_quoted q special (q.byte :: rest) false
    rw [show Written.raw (.quoted q letters special) ++ rest = q.byte ::
      (rawOf letters ++ q.byte :: rest)
        by simp [Written.raw], field_opens q.isQuote_byte (by simp) (.inl
        (by cases q <;> decide)), hinner, field_closes (isQuote_ne q.isQuote_byte).2]
    simp [Field.prepend_prepend, Written.copied]

/-- After an odd number of other quotes the quote at the end opens one more quotation. -/
theorem field_raw_open {q : Quote} {letters : List Letter}
    (special : ∀ l ∈ letters, l.char = backslash ∨ l.char = q.byte → l.escaped)
    (h : openings q letters % 2 ≠ 0) (rest : Bytes) :
    field comma {} ((Written.quoted q letters special).raw ++ rest) =
      (field comma ⟨[q.byte, q.other.byte, q.byte], false⟩ rest).prepend
      (q.byte :: textOf letters ++ [q.byte]) := by
  have hodd : decide (openings q letters % 2 = 1) = true := decide_eq_true (by omega)
  have hinner : field comma ⟨[q.byte], false⟩ (rawOf letters ++ q.byte :: rest)
      = (field comma ⟨[q.other.byte, q.byte], false⟩ (q.byte :: rest)).prepend
        (textOf letters) := by
    simpa [Quote.opened, hodd] using field_quoted q special (q.byte :: rest) false
  rw [show Written.raw (.quoted q letters special) ++ rest = q.byte ::
    (rawOf letters ++ q.byte :: rest)
      by simp [Written.raw], field_opens q.isQuote_byte (by simp) (.inl
      (by cases q <;> decide)), hinner,
    field_opens q.isQuote_byte (by simpa using q.byte_ne_other.symm) (.inr (by simp))]
  simp [Field.prepend_prepend]

theorem token_iff (w : Written) : unquoteParse (trimParse w.copied) = w.text ↔ w.Plain := by
  cases w with
  | bare letters special => exact unquoteParse_trimParse_iff _
  | quoted q letters special =>
      exact iff_of_true (unquoteParse_trimParse_quoted q.isQuote_byte _) trivial

theorem nul_not_mem_rawOf (letters : List Letter) : 0 ∉ rawOf letters := by
  intro h
  obtain ⟨l, -, hl⟩ := List.mem_flatMap.mp h
  have := l.ne_nul
  unfold Letter.raw at hl
  split at hl <;> simp_all [backslash]

theorem Written.nul_not_mem_raw (w : Written) : 0 ∉ w.raw := by
  cases w with
  | bare letters special => exact nul_not_mem_rawOf letters
  | quoted q letters special =>
    have hq := Ne.symm (isQuote_ne q.isQuote_byte).1
    rw [Written.raw, List.cons_append, List.mem_cons, List.mem_append, List.mem_singleton]
    rintro (h | h | h)
    · exact hq h
    · exact nul_not_mem_rawOf letters h
    · exact hq h

theorem lineOf_cons (w : Written) {ws : List Written} (h : ws ≠ []) :
    lineOf (w :: ws) = w.raw ++ comma :: lineOf ws := by
  cases ws with
  | nil => exact absurd rfl h
  | cons w' ws => simp [lineOf, List.intercalate]

theorem nul_not_mem_lineOf (ws : List Written) : 0 ∉ lineOf ws := by
  induction ws with
  | nil => simp [lineOf, List.intercalate]
  | cons w ws ih =>
    by_cases h : ws = []
    · subst h
      simpa [lineOf, List.intercalate] using w.nul_not_mem_raw
    · rw [lineOf_cons w h, List.mem_append, List.mem_cons]
      rintro (h | h | h)
      · exact w.nul_not_mem_raw h
      · exact comma_plain.1 h.symm
      · exact ih h

/-- Tokens that are read as they are written. -/
def Readable (ws : List Written) : Prop :=
  (∀ w ∈ ws, w.Plain) ∧ (∀ w ∈ ws.dropLast, w.Closed) ∧ ∀ w ∈ ws.getLast?, w.NoComma

theorem readable_cons (w : Written) {ws : List Written} (h : ws ≠ []) :
    Readable (w :: ws) ↔ w.Plain ∧ w.Closed ∧ Readable ws := by
  simp only [Readable, List.forall_mem_cons, List.dropLast_cons_of_ne_nil h,
    List.getLast?_cons_of_ne_nil h]
  tauto

theorem field_raw_end (w : Written) : field comma {} w.raw = ⟨w.copied, [], false⟩ := by
  have hnil : ∀ opened : List Byte, field comma ⟨opened, false⟩ [] = ⟨[], [], false⟩ := fun _ => rfl
  by_cases h : w.Closed
  · have := field_raw h []
    rw [List.append_nil, hnil] at this
    rw [this]
    simp [Field.prepend]
  · cases w with
    | bare letters special => exact absurd trivial h
    | quoted q letters special =>
      have := field_raw_open special h []
      rw [List.append_nil, hnil] at this
      rw [this]
      simp [Field.prepend, Written.copied]

theorem length_token_le (s : Bytes) : (unquoteParse (trimParse s)).length ≤ s.length := by
  refine (length_unquoteParse_le _).trans ?_
  cases s with
  | nil => simp [trimParse]
  | cons c s =>
    by_cases hc : isTrimmed c = true
    · exact (length_trimParse_le hc s).trans (by simp)
    · rw [trimParse_cons (by simpa using hc)]
      exact (List.rdropWhile_prefix _ _).length_le

theorem map_cons_eq_some_iff {o : Option (List Bytes × Nat)} {t a : Bytes} {as : List Bytes}
    {e : Nat} :
    (o.map fun r => (t :: r.1, r.2)) = some (a :: as, e) ↔ t = a ∧ o = some (as, e) := by
  cases o with
  | none => simp
  | some r =>
    obtain ⟨ts, e'⟩ := r
    simp [and_assoc]

section RoundTrip

variable {line : Bytes} {start : Nat}

/-- The last token of a line. -/
theorem getTokens_last (w : Written) (hline : line.drop start = w.raw ++ [0]) :
    getTokens 1 line start = some ([w.text], line.length - 1) ↔ w.Plain ∧ w.NoComma := by
  have hfield := field_raw_end w
  have hrest : (field comma {} w.raw).rest = [] := by rw [hfield]
  have hsame : w.raw ≠ [] → w.copied.getLast? = w.raw.getLast? := by
    have := (field_last hrest).1
    rwa [hfield] at this
  have hnoComma : w.NoComma ↔ w.raw.getLast? ≠ some comma := by
    by_cases hraw : w.raw = []
    · cases w with
      | bare letters special =>
        have hcopied := congrArg Field.copy hfield
        rw [hraw] at hcopied
        have : textOf letters = [] := hcopied.symm
        simp [Written.NoComma, this, hraw]
      | quoted q letters special => simp [Written.raw] at hraw
    · rw [← hsame hraw]
      cases w with
      | bare letters special => exact Iff.rfl
      | quoted q letters special =>
        refine iff_of_true trivial ?_
        rw [Written.copied, List.getLast?_concat]
        cases q <;> decide
  rw [hnoComma]
  by_cases hcomma : w.raw.getLast? = some comma
  · obtain ⟨token, htoken, htakes⟩ := getQuotedString_past hline w.nul_not_mem_raw hrest hcomma
    have hraw : w.raw ≠ [] := fun h => by simp [h] at hcomma
    rw [getTokens_succ htoken, map_cons_eq_some_iff, htakes.text, hfield]
    refine iff_of_false (fun h => ?_) (fun h => h.2 hcomma)
    -- a token without quotes has lost its comma
    cases w with
    | bare letters special =>
      have hlast : (textOf letters).getLast? = some comma := (hsame hraw).trans hcomma
      have hle := length_token_le (textOf letters).dropLast
      have heq := congrArg List.length h.1
      have hpos : (textOf letters).length ≠ 0 := fun h0 => by
        rw [List.length_eq_zero_iff.mp h0] at hlast
        simp at hlast
      simp only [Written.copied, Written.text, List.length_dropLast] at heq hle
      omega
    | quoted q letters special => exact absurd hcomma (hnoComma.mp trivial)
  · obtain ⟨token, leftover, htoken, htakes, hnone⟩ :=
      getQuotedString_last hline w.nul_not_mem_raw hrest hcomma
    obtain rfl := hnone (by rw [hfield])
    have hstart : token.start = line.length - 1 := by
      have := congrArg List.length htakes.rest
      rw [List.length_drop, htakes.length, List.length_singleton] at this
      omega
    rw [getTokens_succ htoken, map_cons_eq_some_iff, htakes.text, hfield, List.append_nil,
      token_iff]
    simp [getTokens, hstart, hcomma]

/-- A token with others behind it. -/
theorem getTokens_cons {w : Written} {ws : List Written} (hws : ws ≠ [])
    (hline : line.drop start = lineOf (w :: ws) ++ [0])
    (ih : ∀ {line : Bytes} {start : Nat}, line.drop start = lineOf ws ++ [0] →
      (getTokens ws.length line start = some (ws.map Written.text, line.length - 1) ↔
      Readable ws)) :
    getTokens (ws.length + 1) line start = some (w.text :: ws.map Written.text, line.length - 1) ↔
      w.Plain ∧ w.Closed ∧ Readable ws := by
  have h0 := nul_not_mem_lineOf (w :: ws)
  rw [lineOf_cons w hws] at hline h0
  by_cases hclosed : w.Closed
  · have hfield := field_raw hclosed (comma :: lineOf ws)
    rw [field_stop] at hfield
    have hrest : (field comma {} (w.raw ++ comma :: lineOf ws)).rest = comma :: lineOf ws := by
      rw [hfield]
      rfl
    obtain ⟨token, htoken, htakes⟩ := getQuotedString_separated hline h0 hrest
    have hih := ih htakes.rest
    rw [htakes.length] at hih
    rw [getTokens_succ htoken, map_cons_eq_some_iff, htakes.text, hfield, hih]
    simp only [Field.prepend_copy, List.dropLast_concat, token_iff, hclosed, true_and]
  · -- the other quotes do not pair off: the quotation goes on behind the comma
    refine iff_of_false (fun h => ?_) (fun h => hclosed h.2.1)
    cases w with
    | bare letters special => exact hclosed trivial
    | quoted q letters special =>
      have hfield := field_raw_open special hclosed (comma :: lineOf ws)
      rw [field_plain comma_plain.2.1 comma_plain.2.2 (by cases q <;> decide) (.inr (by simp)),
        Field.prepend_prepend] at hfield
      generalize hf : field comma ⟨[q.byte, q.other.byte, q.byte], false⟩ (lineOf ws) = f at hfield
      have hcopy : (field comma {} ((Written.quoted q letters special).raw ++ comma ::
          lineOf ws)).copy
          = q.byte :: textOf letters ++ [q.byte] ++ comma :: f.copy := by
        rw [hfield]
        simp
      by_cases hrest : (field comma {}
        ((Written.quoted q letters special).raw ++ comma :: lineOf ws)).rest = []
      · by_cases hlast : ((Written.quoted q letters special).raw ++ comma :: lineOf ws).getLast? =
          some comma
        · obtain ⟨token, htoken, htakes⟩ := getQuotedString_past hline h0 hrest hlast
          obtain ⟨n, hn⟩ :=
            Nat.exists_eq_succ_of_ne_zero (fun h0 => hws (List.length_eq_zero_iff.mp h0))
          rw [getTokens_succ htoken, hn, getTokens, getQuotedString_none htakes.rest] at h
          exact absurd h (by simp)
        · obtain ⟨token, leftover, htoken, htakes, -⟩ := getQuotedString_last hline h0 hrest hlast
          rw [getTokens_succ htoken, map_cons_eq_some_iff, htakes.text, hcopy, List.append_assoc,
            List.cons_append] at h
          exact absurd (congrArg List.length h.1) (lt_length_unquoteParse q.isQuote_byte _ _).ne'
      · obtain ⟨rest, hrest, ends⟩ := field_rest hrest
        obtain ⟨token, htoken, htakes⟩ := getQuotedString_separated hline h0 hrest
        have hne : f.copy ≠ [] := by
          intro hnil
          have hopen :
              (field comma ⟨[q.byte, q.other.byte, q.byte], false⟩ (lineOf ws)).rest ≠ [] := by
            rw [hfield, Field.prepend_rest] at hrest
            rw [hf, hrest]
            simp
          obtain ⟨_, -, ends'⟩ := field_rest hopen
          have hcomma := ends'.copy
          rw [hf, hnil] at hcomma
          exact absurd hcomma (by simp)
        rw [getTokens_succ htoken, map_cons_eq_some_iff, htakes.text, hcopy,
          List.dropLast_append_of_ne_nil (by simp), List.dropLast_cons_of_ne_nil hne] at h
        exact absurd (congrArg List.length h.1) (lt_length_unquoteParse q.isQuote_byte _ _).ne'

end RoundTrip

theorem getTokens_iff {ws : List Written} (hws : ws ≠ []) : ∀ {line : Bytes} {start : Nat},
    line.drop start = lineOf ws ++ [0] →
      (getTokens ws.length line start = some (ws.map Written.text, line.length - 1) ↔
      Readable ws) := by
  induction ws with
  | nil => exact absurd rfl hws
  | cons w ws ih =>
    intro line start hline
    by_cases h : ws = []
    · subst h
      rw [List.length_singleton, List.map_singleton,
        getTokens_last w (by simpa [lineOf, List.intercalate] using hline)]
      simp [Readable]
    · rw [List.length_cons, List.map_cons, getTokens_cons h hline (ih h), readable_cons w h]

theorem givesBack_iff (ws : List Written) : GivesBack ws ↔ Readable ws := by
  by_cases h : ws = []
  · subst h
    exact iff_of_true rfl ⟨by simp, by simp, by simp⟩
  · have htokens := getTokens_iff h (show (lineOf ws ++ [0]).drop 0 = lineOf ws ++ [0] from rfl)
    rw [← htokens, GivesBack]
    simp

/-- **A line is read inside its bounds if and only if a comma at its end separates, and tokens come
back if and only if white space, quotes and commas do not stand where they are taken for
others.** -/
theorem tokens_read_iff (line : Bytes) (ws : List Written) :
    (0 ∉ line → (StaysInLine line ↔ Separates line)) ∧ (GivesBack ws ↔ Readable ws) :=
  ⟨staysInLine_iff, givesBack_iff ws⟩

/-- The token `a`, and a blank and a comma in quotes. -/
def sampleTokens : List Written :=
  [.bare [⟨chr 'a', false, by decide⟩] (by decide),
    .quoted .double [⟨chr ' ', false, by decide⟩, ⟨chr ',', false, by decide⟩] (by decide)]

theorem tokens_read_iff_sampleTokens :
    StaysInLine (lineOf sampleTokens) ∧ GivesBack sampleTokens := by
  obtain ⟨hline, htokens⟩ := tokens_read_iff (lineOf sampleTokens) sampleTokens
  refine ⟨(hline (by decide)).mpr fun init h => ?_, htokens.mpr ⟨?_, ?_, ?_⟩⟩
  · have hlast : (lineOf sampleTokens).getLast? = some comma := by rw [h, List.getLast?_concat]
    exact absurd hlast (by decide)
  · simp [sampleTokens, Written.Plain, textOf]
    decide
  · simp [sampleTokens, Written.Closed]
  · simp [sampleTokens, Written.NoComma]

/-- The token `a,`, its comma escaped. -/
def escapedComma : Written :=
  .bare [⟨chr 'a', false, by decide⟩, ⟨chr ',', true, by decide⟩] (by decide)

/-- The comma is lost, and `start_pointer` ends up behind the NUL of the line. -/
theorem escapedComma_lost :
    getTokens 1 (lineOf [escapedComma] ++ [0]) 0 =
      some ([[chr 'a']], (lineOf [escapedComma]).length + 1) ∧
      ¬ GivesBack [escapedComma] ∧ ¬ StaysInLine (lineOf [escapedComma]) := by
  have htokens : getTokens 1 (lineOf [escapedComma] ++ [0]) 0 =
      some ([[chr 'a']], (lineOf [escapedComma]).length + 1) := by
    decide
  refine ⟨htokens, by show ¬ getTokens _ _ _ = _; decide, fun h => ?_⟩
  obtain ⟨texts, start, hrun, hle⟩ := h 1
  rw [htokens] at hrun
  cases hrun
  omega

end Owfs.Config
