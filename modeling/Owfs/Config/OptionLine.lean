import Owfs.Infra.Text

/-!
# Lines of a configuration file

`ParseTheLine` reads a line of the form `prog: opt = val`, where the program and the `=` may be left
out. It is a machine with five states that looks at one character at a time. That a word was the
name of a program it learns only at the colon behind it.

The states before a value are two: `ps_pre_equals` between the option and the `=`, and
`ps_pre_value` behind the `=`. Only the second knows that a value may start with `-`, `!` or `:`.
-/

namespace Owfs.Config

open Infra

/-! ## `ParseTheLine` -/

/-- `enum e_parse_state` -/
inductive ParseState where
  | preOpt
  | inOpt
  | preEquals
  | preValue
  | inValue
deriving DecidableEq

/-- Lines for external devices: `AddSensor`, `AddProperty`. -/
inductive ExternalLine where
  | sensor (text : Bytes)
  | script (text : Bytes)
deriving DecidableEq

/-- `struct lineparse`, and the call that a line for an external device leads to. The fields point
into the line in the source; here they are the strings. -/
structure LineParse where
  prog : Option Bytes := none
  opt : Option Bytes := none
  val : Option Bytes := none
  reverseProg : Bool := false
  external : Option ExternalLine := none
deriving DecidableEq

/-- The cases of the `switch` over the characters. The end of the string counts as the end of the
line. -/
inductive CharClass where
  | lineEnd
  | blank
  | dash
  | bang
  | colon
  | equals
  | other
deriving DecidableEq

/-- The case of a character. -/
def classOf (c : Byte) : CharClass :=
  if c = 0 ∨ c = chr '#' ∨ c = 10 ∨ c = 13 then .lineEnd
  else if c = chr ' ' ∨ c = 9 then .blank
  else if c = chr '-' then .dash
  else if c = chr '!' then .bang
  else if c = chr ':' then .colon
  else if c = chr '=' then .equals
  else .other

/-- A character that nothing is done about stays in the word that is being read. -/
def LineParse.keep (lp : LineParse) (c : Byte) : ParseState → LineParse
  | .inOpt => { lp with opt := lp.opt.map (· ++ [c]) }
  | .inValue => { lp with val := lp.val.map (· ++ [c]) }
  | _ => lp

/-- What a character does: the line is done, or goes on in a state. -/
inductive Outcome where
  | stop (lp : LineParse)
  | go (lp : LineParse) (state : ParseState)

/-- The colon behind a program. Sensor and property lines use a different syntax, from `rest` on. -/
def parseProg (lp : LineParse) (rest : Bytes) : Outcome :=
  let prog := (lp.opt.getD []).map toLower
  if ascii "sensor" <:+: prog then .stop
    { lp with prog := none, opt := none, external := some (.sensor rest) }
  else if ascii "script" <:+: prog then .stop
    { lp with prog := none, opt := none, external := some (.script rest) }
  else if ascii "property" <:+: prog then .stop
    { lp with prog := none, opt := none, external := some (.script rest) }
  else .go { lp with prog := some prog, opt := none } .preOpt

/-- One turn of the loop of `ParseTheLine`. -/
def parseChar (lp : LineParse) (state : ParseState) (c : Byte) (rest : Bytes) : Outcome :=
  match classOf c, state with
  | .lineEnd, _ => .stop lp
  | .blank, .inOpt => .go lp .preEquals
  | .blank, .inValue => .stop lp
  | .blank, state => .go lp state
  | .dash, .preValue => .go { lp with val := some [c] } .inValue
  | .dash, state => .go (lp.keep c state) state
  | .bang, .preOpt => .go { lp with reverseProg := !lp.reverseProg } .preOpt
  | .bang, .preValue => .go { lp with val := some [c] } .inValue
  | .bang, state => .go (lp.keep c state) state
  | .colon, .inOpt => parseProg lp rest
  | .colon, .preEquals => parseProg lp rest
  | .colon, .preValue => .go { lp with val := some [c] } .inValue
  | .colon, state => .go (lp.keep c state) state
  | .equals, .inOpt => .go lp .preValue
  | .equals, .preEquals => .go lp .preValue
  | .equals, .inValue => .go (lp.keep c .inValue) .inValue
  | .equals, _ => .stop lp
  | .other, .preOpt => .go { lp with opt := some [c] } .inOpt
  | .other, .preEquals => .go { lp with val := some [c] } .inValue
  | .other, .preValue => .go { lp with val := some [c] } .inValue
  | .other, state => .go (lp.keep c state) state

/-- The loop of `ParseTheLine`. -/
def parseFrom (lp : LineParse) (state : ParseState) : Bytes → LineParse
  | [] => lp
  | c :: rest =>
    match parseChar lp state c rest with
    | .stop lp => lp
    | .go lp state => parseFrom lp state rest

/-- `ParseTheLine` -/
def parseTheLine (line : Bytes) : LineParse := parseFrom {} .preOpt line

/-! ## The grammar -/

/-- Blanks. -/
abbrev Blanks := { b : Bytes // ∀ c ∈ b, classOf c = .blank }

/-- The name of an option or of a program. -/
structure Name where
  text : Bytes
  ne_nil : text ≠ []
  inner : ∀ c ∈ text, classOf c = .dash ∨ classOf c = .bang ∨ classOf c = .other
  head : ∀ c ∈ text.head?, classOf c = .other

/-- A value. -/
structure Value where
  text : Bytes
  ne_nil : text ≠ []
  inner : ∀ c ∈ text, classOf c ≠ .lineEnd ∧ classOf c ≠ .blank
  head : ∀ c ∈ text.head?, classOf c ≠ .equals

/-- What stands between an option and its value. -/
inductive Separator where
  | equals (before after : Blanks)
  | blanks (gap : Blanks) (ne_nil : gap.1 ≠ [])

/-- The text of a separator. -/
def Separator.text : Separator → Bytes
  | .equals before after => before.1 ++ chr '=' :: after.1
  | .blanks gap _ => gap.1

/-- The name of a program, with the colon. The lines of external devices have a syntax of their
own. -/
structure Program where
  name : Name
  notExternal : ¬ ascii "sensor" <:+: name.text.map toLower ∧
    ¬ ascii "script" <:+: name.text.map toLower ∧
    ¬ ascii "property" <:+: name.text.map toLower
  before : Blanks
  after : Blanks

/-- The text of a program. -/
def Program.text (p : Program) : Bytes := p.name.text ++ p.before.1 ++ chr ':' :: p.after.1

/-- A line that sets an option: blanks and `!` signs, a program or none, the option and its value,
and then blanks and a comment or the end of the line. -/
structure OptionLine where
  lead : Bytes
  lead_class : ∀ c ∈ lead, classOf c = .blank ∨ classOf c = .bang
  program : Option Program
  option : Name
  separator : Separator
  value : Value
  gap : Blanks
  comment : Bytes
  comment_head : ∀ c ∈ comment.head?, classOf c = .lineEnd

namespace OptionLine

/-- The text of a line. -/
def text (l : OptionLine) : Bytes :=
  l.lead ++ ((l.program.map Program.text).getD [] ++
    (l.option.text ++ (l.separator.text ++ (l.value.text ++ (l.gap.1 ++ l.comment)))))

/-- What a line means. -/
def meaning (l : OptionLine) : LineParse where
  prog := l.program.map fun p => p.name.text.map toLower
  opt := some l.option.text
  val := some l.value.text
  reverseProg := (l.lead.countP fun c => classOf c = .bang) % 2 = 1

/-- A line is read as it is meant. -/
def Understood (l : OptionLine) : Prop := parseTheLine l.text = l.meaning

/-- The value starts with no sign of its own, or there is a `=` in front of it. -/
def PlainStart (l : OptionLine) : Prop :=
  (∃ before after, l.separator = .equals before after) ∨ ∀ c ∈ l.value.text.head?,
    classOf c = .other

end OptionLine

/-! ## Parts of a line -/

variable {lp lp' : LineParse} {state state' : ParseState} {c : Byte}

theorem parseFrom_go {rest : Bytes} (h : parseChar lp state c rest = .go lp' state') :
    parseFrom lp state (c :: rest) = parseFrom lp' state' rest := by
  rw [parseFrom, h]

theorem parseFrom_stop {rest : Bytes} (h : parseChar lp state c rest = .stop lp') :
    parseFrom lp state (c :: rest) = lp' := by
  rw [parseFrom, h]

/-- Blanks between words. -/
theorem parseFrom_blanks (b : Blanks) (rest : Bytes) (hopt : state ≠ .inOpt)
    (hval : state ≠ .inValue) :
    parseFrom lp state (b.1 ++ rest) = parseFrom lp state rest := by
  obtain ⟨b, hb⟩ := b
  induction b with
  | nil => rfl
  | cons c b ih =>
    have hc := hb c List.mem_cons_self
    have hgo : parseChar lp state c (b ++ rest) = .go lp state := by
      unfold parseChar
      rw [hc]
      cases state <;> first | rfl | contradiction
    exact (parseFrom_go hgo).trans (ih fun d hd => hb d (List.mem_cons_of_mem _ hd))

/-- Blanks behind an option. -/
theorem parseFrom_inOpt_blanks (b : Blanks) (rest : Bytes) (hb : b.1 ≠ []) :
    parseFrom lp .inOpt (b.1 ++ rest) = parseFrom lp .preEquals rest := by
  obtain ⟨b, hall⟩ := b
  cases b with
  | nil => exact absurd rfl hb
  | cons c b =>
    have hgo : parseChar lp .inOpt c (b ++ rest) = .go lp .preEquals := by
      unfold parseChar
      rw [hall c List.mem_cons_self]
    exact (parseFrom_go hgo).trans
      (parseFrom_blanks ⟨b, fun d hd => hall d (List.mem_cons_of_mem _ hd)⟩ rest (by decide)
        (by decide))

/-- Blanks and `!` signs in front of a line. -/
theorem parseFrom_lead {lead : Bytes} (hlead : ∀ c ∈ lead, classOf c = .blank ∨ classOf c = .bang)
    (rest : Bytes) :
    parseFrom lp .preOpt (lead ++ rest)
      = parseFrom { lp with
          reverseProg :=
        lp.reverseProg ^^ ((lead.countP fun c => classOf c = .bang) % 2 = 1 : Bool)
          } .preOpt rest := by
  induction lead generalizing lp with
  | nil => simp
  | cons c lead ih =>
    have htail : ∀ d ∈ lead, classOf d = .blank ∨ classOf d = .bang :=
      fun d hd => hlead d (List.mem_cons_of_mem _ hd)
    rcases hlead c List.mem_cons_self with hc | hc
    · have hgo : parseChar lp .preOpt c (lead ++ rest) = .go lp .preOpt := by
        unfold parseChar
        rw [hc]
      rw [List.cons_append, parseFrom_go hgo, ih htail, List.countP_cons_of_neg (by simp [hc])]
    · have hgo : parseChar lp .preOpt c (lead ++ rest) =
          .go { lp with reverseProg := !lp.reverseProg } .preOpt := by
        unfold parseChar
        rw [hc]
      rw [List.cons_append, parseFrom_go hgo, ih htail, List.countP_cons_of_pos (by simp [hc])]
      congr 2
      -- one more sign turns the parity
      generalize (lead.countP fun c => classOf c = .bang) = n
      by_cases hn : n % 2 = 1
      · have : ¬ (n + 1) % 2 = 1 := by omega
        simp [hn, this]
      · have : (n + 1) % 2 = 1 := by omega
        simp [hn, this]

/-- Characters inside a word. -/
theorem parseFrom_inOpt {w : Bytes}
    (hw : ∀ c ∈ w, classOf c = .dash ∨ classOf c = .bang ∨ classOf c = .other) (o rest : Bytes)
    (hlp : lp.opt = some o) :
    parseFrom lp .inOpt (w ++ rest) = parseFrom { lp with opt := some (o ++ w) } .inOpt rest := by
  induction w generalizing lp o with
  | nil =>
    rw [List.append_nil, ← hlp]
    rfl
  | cons c w ih =>
    have hgo : parseChar lp .inOpt c (w ++ rest) = .go (lp.keep c .inOpt) .inOpt := by
      unfold parseChar
      rcases hw c List.mem_cons_self with hc | hc | hc <;> rw [hc]
    have hopt : (lp.keep c .inOpt).opt = some (o ++ [c]) := by
      show lp.opt.map _ = _
      rw [hlp]
      rfl
    rw [List.cons_append, parseFrom_go hgo,
      ih (fun d hd => hw d (List.mem_cons_of_mem _ hd)) _ hopt, List.append_assoc]
    rfl

theorem parseFrom_inValue {w : Bytes} (hw : ∀ c ∈ w, classOf c ≠ .lineEnd ∧ classOf c ≠ .blank)
    (v rest : Bytes) (hlp : lp.val = some v) :
    parseFrom lp .inValue (w ++ rest) =
      parseFrom { lp with val := some (v ++ w) } .inValue rest := by
  induction w generalizing lp v with
  | nil =>
    rw [List.append_nil, ← hlp]
    rfl
  | cons c w ih =>
    have hgo : parseChar lp .inValue c (w ++ rest) = .go (lp.keep c .inValue) .inValue := by
      obtain ⟨hend, hblank⟩ := hw c List.mem_cons_self
      unfold parseChar
      cases hc : classOf c <;> first | rfl | contradiction
    have hval : (lp.keep c .inValue).val = some (v ++ [c]) := by
      show lp.val.map _ = _
      rw [hlp]
      rfl
    rw [List.cons_append, parseFrom_go hgo,
      ih (fun d hd => hw d (List.mem_cons_of_mem _ hd)) _ hval, List.append_assoc]
    rfl

/-- The name of an option, or of a program. -/
theorem parseFrom_name (n : Name) (rest : Bytes) :
    parseFrom lp .preOpt (n.text ++ rest) =
      parseFrom { lp with opt := some n.text } .inOpt rest := by
  obtain ⟨w, hne, hinner, hhead⟩ := n
  cases w with
  | nil => exact absurd rfl hne
  | cons c w =>
    have hgo : parseChar lp .preOpt c (w ++ rest) = .go { lp with opt := some [c] } .inOpt := by
      unfold parseChar
      rw [hhead c rfl]
    exact (parseFrom_go hgo).trans
      (parseFrom_inOpt (fun d hd => hinner d (List.mem_cons_of_mem _ hd)) [c] rest rfl)

/-- A value behind the `=`, or one that starts with no sign of its own. -/
theorem parseFrom_value (v : Value) (rest : Bytes)
    (hstate : state = .preValue ∨ state = .preEquals ∧ ∀ c ∈ v.text.head?, classOf c = .other) :
    parseFrom lp state (v.text ++ rest) =
      parseFrom { lp with val := some v.text } .inValue rest := by
  obtain ⟨w, hne, hinner, hhead⟩ := v
  cases w with
  | nil => exact absurd rfl hne
  | cons c w =>
    have hgo : parseChar lp state c (w ++ rest) = .go { lp with val := some [c] } .inValue := by
      unfold parseChar
      rcases hstate with rfl | ⟨rfl, hother⟩
      · obtain ⟨hend, hblank⟩ := hinner c List.mem_cons_self
        have hequals := hhead c rfl
        cases hc : classOf c <;> first | rfl | contradiction
      · rw [hother c rfl]
    exact (parseFrom_go hgo).trans
      (parseFrom_inValue (fun d hd => hinner d (List.mem_cons_of_mem _ hd)) [c] rest rfl)

/-- A comment, or the end of the line. -/
theorem parseFrom_comment {comment : Bytes} (h : ∀ c ∈ comment.head?, classOf c = .lineEnd) :
    parseFrom lp state comment = lp := by
  cases comment with
  | nil => rfl
  | cons c rest =>
    refine parseFrom_stop ?_
    unfold parseChar
    rw [h c rfl]

/-- What stands behind a value. -/
theorem parseFrom_inValue_tail (b : Blanks) {comment : Bytes}
    (h : ∀ c ∈ comment.head?, classOf c = .lineEnd) :
    parseFrom lp .inValue (b.1 ++ comment) = lp := by
  obtain ⟨b, hb⟩ := b
  cases b with
  | nil => exact parseFrom_comment h
  | cons c b =>
    refine parseFrom_stop ?_
    unfold parseChar
    rw [hb c List.mem_cons_self]

theorem parseProg_program (p : Program) (rest : Bytes) (h : lp.opt = some p.name.text) :
    parseProg lp rest = .go { lp with prog := some (p.name.text.map toLower), opt := none }
      .preOpt := by
  obtain ⟨hsensor, hscript, hproperty⟩ := p.notExternal
  unfold parseProg
  rw [h, Option.getD_some, if_neg hsensor, if_neg hscript, if_neg hproperty]

/-- A program and its colon. -/
theorem parseFrom_program (p : Program) (rest : Bytes) :
    parseFrom lp .preOpt (p.text ++ rest)
      = parseFrom { lp with prog := some (p.name.text.map toLower), opt := none } .preOpt rest := by
  have htext : p.text ++ rest = p.name.text ++ (p.before.1 ++ chr ':' :: (p.after.1 ++ rest)) := by
    simp [Program.text]
  have hcolon : classOf (chr ':') = .colon := by decide
  have hafter (lp : LineParse) :
      parseFrom lp .preOpt (p.after.1 ++ rest) = parseFrom lp .preOpt rest :=
    parseFrom_blanks p.after rest (by decide) (by decide)
  have hgo : ∀ state, state = .inOpt ∨ state = .preEquals →
      parseChar { lp with opt := some p.name.text } state (chr ':') (p.after.1 ++ rest)
        = .go { lp with prog := some (p.name.text.map toLower), opt := none } .preOpt := by
    intro state hstate
    unfold parseChar
    rw [hcolon]
    rcases hstate with rfl | rfl <;> exact parseProg_program p (p.after.1 ++ rest) rfl
  rw [htext, parseFrom_name]
  by_cases hbefore : p.before.1 = []
  · rw [hbefore, List.nil_append, parseFrom_go (hgo _ (.inl rfl)), hafter]
  · rw [parseFrom_inOpt_blanks p.before _ hbefore, parseFrom_go (hgo _ (.inr rfl)), hafter]

/-! ## The length of a value -/

/-- The result so far. -/
def Outcome.line : Outcome → LineParse
  | .stop lp => lp
  | .go lp _ => lp

theorem val_parseProg (lp : LineParse) (rest : Bytes) : (parseProg lp rest).line.val = lp.val := by
  unfold parseProg
  dsimp only
  split
  · rfl
  · split
    · rfl
    · split <;> rfl

/-- A character adds at most itself to the value. -/
theorem length_val_parseChar (lp : LineParse) (state : ParseState) (c : Byte) (rest : Bytes) :
    ((parseChar lp state c rest).line.val.getD []).length ≤ (lp.val.getD []).length + 1 := by
  have hkeep : ∀ state, ((lp.keep c state).val.getD []).length ≤ (lp.val.getD []).length + 1 := by
    intro state
    cases state with
    | inValue => cases hval : lp.val <;> simp [LineParse.keep, hval]
    | _ => exact Nat.le_succ _
  have hprog : ((parseProg lp rest).line.val.getD []).length ≤ (lp.val.getD []).length + 1 := by
    rw [val_parseProg]
    exact Nat.le_succ _
  unfold parseChar
  cases classOf c <;> cases state <;>
    first
      | exact hprog
      | exact hkeep .inValue
      | exact Nat.le_succ _
      | exact Nat.le_add_left _ _

theorem val_parseFrom_tail (b : Blanks) {comment : Bytes}
    (h : ∀ c ∈ comment.head?, classOf c = .lineEnd) :
    (parseFrom lp state (b.1 ++ comment)).val = lp.val := by
  by_cases hb : b.1 = []
  · rw [hb, List.nil_append, parseFrom_comment h]
  cases state with
  | inOpt => rw [parseFrom_inOpt_blanks b comment hb, parseFrom_comment h]
  | inValue => rw [parseFrom_inValue_tail b h]
  | preOpt | preEquals | preValue =>
      rw [parseFrom_blanks b comment (by decide) (by decide), parseFrom_comment h]

/-- The value that is read is no longer than the text. -/
theorem length_val_parseFrom (b : Blanks) {comment : Bytes}
    (h : ∀ c ∈ comment.head?, classOf c = .lineEnd) (w : Bytes) :
    ∀ (lp : LineParse) (state : ParseState),
      ((parseFrom lp state (w ++ (b.1 ++ comment))).val.getD []).length ≤
      (lp.val.getD []).length + w.length := by
  induction w with
  | nil =>
    intro lp state
    rw [List.nil_append, val_parseFrom_tail b h]
    exact Nat.le_add_right _ _
  | cons c w ih =>
    intro lp state
    have hchar := length_val_parseChar lp state c (w ++ (b.1 ++ comment))
    rw [List.cons_append, parseFrom, List.length_cons]
    cases hout : parseChar lp state c (w ++ (b.1 ++ comment)) with
    | stop lp' =>
      rw [hout] at hchar
      dsimp only [Outcome.line] at hchar ⊢
      omega
    | go lp' state' =>
      rw [hout] at hchar
      have := ih lp' state'
      dsimp only [Outcome.line] at hchar ⊢
      omega

/-! ## Which lines are understood -/

namespace OptionLine

/-- The line in front of the separator. -/
theorem parseTheLine_text (l : OptionLine) :
    parseTheLine l.text = parseFrom { l.meaning with val := none } .inOpt
      (l.separator.text ++ (l.value.text ++ (l.gap.1 ++ l.comment))) := by
  rw [parseTheLine, text, parseFrom_lead l.lead_class]
  cases hprogram : l.program with
  | none =>
    rw [Option.map_none, Option.getD_none, List.nil_append, parseFrom_name]
    simp [meaning, hprogram]
  | some p =>
    rw [Option.map_some, Option.getD_some, parseFrom_program, parseFrom_name]
    simp [meaning, hprogram]

/-- Behind a `=` every value is understood. -/
theorem understood_equals {l : OptionLine} {before after : Blanks}
    (h : l.separator = .equals before after) :
    l.Understood := by
  have hequals : classOf (chr '=') = .equals := by decide
  have hsep (lp : LineParse) (rest : Bytes) :
      parseFrom lp .inOpt (l.separator.text ++ rest) = parseFrom lp .preValue rest := by
    have htext : l.separator.text ++ rest = before.1 ++ chr '=' :: (after.1 ++ rest) := by
      rw [h]
      simp [Separator.text]
    have hafter : parseFrom lp .preValue (after.1 ++ rest) = parseFrom lp .preValue rest :=
      parseFrom_blanks after rest (by decide) (by decide)
    have hgo : ∀ state, state = .inOpt ∨ state = .preEquals →
        parseChar lp state (chr '=') (after.1 ++ rest) = .go lp .preValue := by
      intro state hstate
      unfold parseChar
      rw [hequals]
      rcases hstate with rfl | rfl <;> rfl
    rw [htext]
    by_cases hbefore : before.1 = []
    · rw [hbefore, List.nil_append, parseFrom_go (hgo _ (.inl rfl)), hafter]
    · rw [parseFrom_inOpt_blanks before _ hbefore, parseFrom_go (hgo _ (.inr rfl)), hafter]
  rw [Understood, parseTheLine_text, hsep, parseFrom_value l.value _ (.inl rfl),
    parseFrom_inValue_tail l.gap l.comment_head]
  rfl

/-- Without a `=` the value has to start with no sign of its own. -/
theorem understood_blanks_iff {l : OptionLine} {gap : Blanks} {hgap : gap.1 ≠ []}
    (h : l.separator = .blanks gap hgap) :
    l.Understood ↔ ∀ c ∈ l.value.text.head?, classOf c = .other := by
  have hsep (lp : LineParse) (rest : Bytes) :
      parseFrom lp .inOpt (l.separator.text ++ rest) = parseFrom lp .preEquals rest := by
    rw [h]
    exact parseFrom_inOpt_blanks gap rest hgap
  rw [Understood, parseTheLine_text, hsep]
  constructor
  · intro hread c hc
    by_contra hother
    -- the first character is no part of the value that is read
    obtain ⟨w, hw⟩ : ∃ w, l.value.text = c :: w := by
      cases htext : l.value.text with
      | nil => exact absurd htext l.value.ne_nil
      | cons d w =>
        rw [htext] at hc
        exact ⟨w, by rw [Option.mem_some.mp hc]⟩
    have hval : ∀ rest, (parseChar { l.meaning with val := none } .preEquals c rest).line.val =
        none := by
      intro rest
      obtain ⟨hend, hblank⟩ := l.value.inner c (by rw [hw]; exact List.mem_cons_self)
      have hequals := l.value.head c hc
      unfold parseChar
      cases hclass : classOf c <;> first | contradiction | rfl | exact val_parseProg _ rest
    have hlen : ((parseFrom { l.meaning with val := none } .preEquals
        (l.value.text ++ (l.gap.1 ++ l.comment))).val.getD []).length ≤ w.length := by
      have hval := hval (w ++ (l.gap.1 ++ l.comment))
      rw [hw, List.cons_append, parseFrom]
      cases hout : parseChar { l.meaning with val := none } .preEquals c
        (w ++ (l.gap.1 ++ l.comment)) with
      | stop lp' =>
        rw [hout] at hval
        dsimp only [Outcome.line] at hval ⊢
        rw [hval]
        exact Nat.zero_le _
      | go lp' state' =>
        rw [hout] at hval
        have := length_val_parseFrom l.gap l.comment_head w lp' state'
        rw [show lp'.val = none from hval] at this
        simpa using this
    rw [hread] at hlen
    have : (l.meaning.val.getD []).length = w.length + 1 := by
      show l.value.text.length = _
      rw [hw, List.length_cons]
    omega
  · intro hother
    rw [parseFrom_value l.value _ (.inr ⟨rfl, hother⟩), parseFrom_inValue_tail l.gap l.comment_head]
    rfl

/-- **A line is understood if and only if** its value stands behind a `=`, or starts with none of
`-`, `!` and `:`. -/
theorem understood_iff (l : OptionLine) : l.Understood ↔ l.PlainStart := by
  unfold PlainStart
  cases h : l.separator with
  | equals before after => exact iff_of_true (understood_equals h) (.inl ⟨_, _, rfl⟩)
  | blanks gap hgap =>
    rw [understood_blanks_iff h]
    refine ⟨.inr, fun hplain => hplain.resolve_left ?_⟩
    rintro ⟨_, _, ⟨⟩⟩

end OptionLine

/-- `templow -20` -/
def negativeLine : OptionLine where
  lead := []
  lead_class := by decide
  program := none
  option := ⟨ascii "templow", by decide, by decide, by decide⟩
  separator := .blanks ⟨[chr ' '], by decide⟩ (by decide)
  value := ⟨ascii "-20", by decide, by decide, by decide⟩
  gap := ⟨[], by decide⟩
  comment := []
  comment_head := by decide

/-- The value of this line is read as `20`. -/
theorem negativeLine_not_understood : ¬ negativeLine.Understood := by
  rw [OptionLine.Understood]
  decide

end Owfs.Config
