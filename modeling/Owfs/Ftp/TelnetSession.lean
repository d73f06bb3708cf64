import Owfs.Infra.Bytes
import Owfs.Infra.Ring
import Owfs.Infra.Threads

/-!
# The control connection of the FTP server

`telnet_session.c` of `owftpd` reads commands from a connection and writes the replies. What comes
in goes through the commands of telnet into a ring, from which `telnet_session_readln` takes the
lines; what goes out waits in a second ring until the connection takes it. `process_data` waits
until one of both can go on.

The connection is one socket for both directions, as `ftp_listener.c` makes it. What `select`,
`read` and `write` answer is given with each call of `process_data`.
-/

namespace Owfs.Ftp

open Infra

/-! ## The code -/

/-- `BUF_LEN` -/
def bufLen : Nat := 2048

def lf : Byte := 10

def cr : Byte := 13

/-- `IAC` and the commands behind it that are followed by an option -/
def iac : Byte := 255

def will : Byte := 251

def wont : Byte := 252

def doOption : Byte := 253

def dont : Byte := 254

/-- The input states -/
inductive InStatus where
  | normal | gotIac | gotWill | gotWont | gotDo | gotDont | gotCr
deriving DecidableEq

/-- `struct telnet_session_s`. The last four fields are not in the source: they keep what has gone
through the session. -/
structure TelnetSession where
  inBuf : Ring Byte bufLen
  inErrno : Bool
  inEof : Bool
  inStatus : InStatus
  outBuf : Ring Byte bufLen
  outErrno : Bool
  outEof : Bool
  /-- what `read` has returned -/
  received : Bytes
  /-- what was taken out of the input buffer -/
  used : Bytes
  /-- what was put into the output buffer -/
  offered : Bytes
  /-- what `write` has taken -/
  sent : Bytes

/-- `telnet_session_init`, before it calls `process_data` -/
def telnetSessionInit : TelnetSession where
  inBuf := .empty 0 (by decide)
  inErrno := false
  inEof := false
  inStatus := .normal
  outBuf := .empty 0 (by decide)
  outErrno := false
  outEof := false
  received := []
  used := []
  offered := []
  sent := []

namespace TelnetSession

/-- `add_incoming_char` -/
def addIncomingChar (t : TelnetSession) (c : Byte) : TelnetSession :=
  { t with inBuf := t.inBuf.push c }

/-- `use_incoming_char` -/
def useIncomingChar (t : TelnetSession) (h : 0 < t.inBuf.count) : Byte × TelnetSession :=
  (t.inBuf.front, { t with inBuf := t.inBuf.drop 1 h, used := t.used ++ [t.inBuf.front] })

/-- `add_outgoing_char` -/
def addOutgoingChar (t : TelnetSession) (c : Byte) : TelnetSession :=
  { t with outBuf := t.outBuf.push c, offered := t.offered ++ [c] }

/-- `process_incoming_char` -/
def processIncomingChar (t : TelnetSession) (c : Byte) : TelnetSession :=
  match t.inStatus with
  | .gotIac =>
    if c = will then { t with inStatus := .gotWill }
    else if c = wont then { t with inStatus := .gotWont }
    else if c = doOption then { t with inStatus := .gotDo }
    else if c = dont then { t with inStatus := .gotDont }
    else if c = iac then { t.addIncomingChar iac with inStatus := .normal }
    else { t with inStatus := .normal }
  | .gotWill => { ((t.addOutgoingChar iac).addOutgoingChar dont).addOutgoingChar c with inStatus :=
      .normal }
  | .gotWont => { t with inStatus := .normal }
  | .gotDo => { ((t.addOutgoingChar iac).addOutgoingChar wont).addOutgoingChar c with inStatus :=
      .normal }
  | .gotDont => { t with inStatus := .normal }
  | .gotCr =>
    if c ≠ lf then { (t.addIncomingChar lf).addIncomingChar c with inStatus := .normal }
    else { t.addIncomingChar lf with inStatus := .normal }
  | .normal =>
    if c = iac then { t with inStatus := .gotIac }
    else if c = cr then { t with inStatus := .gotCr }
    else t.addIncomingChar c

/-- `max_input_read` -/
def maxInputRead (t : TelnetSession) : Nat := min (bufLen - t.inBuf.count) (bufLen - t.outBuf.count)

end TelnetSession

/-- What `read` answers: it fails, or returns bytes, and none at the end. -/
inductive ReadResult where
  | failed
  | returned (d : Bytes)

/-- What `write` answers: it fails, or takes bytes. -/
inductive WriteResult where
  | failed
  | wrote (k : Nat)

/-- What `select` tells of the connection, and what `read` and `write` answer if they are called. -/
structure Poll where
  exception : Bool
  input : Option ReadResult
  output : Option WriteResult

namespace TelnetSession

/-- `read_incoming_data`. No more is returned than was asked for. -/
def readIncomingData (t : TelnetSession) : ReadResult → TelnetSession
  | .failed => { t with inErrno := true }
  | .returned d =>
    if d.take t.maxInputRead = [] then { t with inEof := true }
    else
      { (d.take t.maxInputRead).foldl processIncomingChar t with
        received := t.received ++ d.take t.maxInputRead }

/-- `write_outgoing_data` -/
def writeOutgoingData (t : TelnetSession) (h : 0 < t.outBuf.count) : WriteResult → TelnetSession
  | .failed => { t with outErrno := true }
  | .wrote k =>
    if min k t.outBuf.segment = 0 then { t with outEof := true }
    else
      { t with
        outBuf := t.outBuf.drop (min k t.outBuf.segment)
          (Nat.le_trans (Nat.min_le_right _ _) (t.outBuf.segment_bounds h).2.1)
        sent := t.sent ++ t.outBuf.contiguous.take (min k t.outBuf.segment) }

/-- `process_data` asks for input. -/
def wantsInput (t : TelnetSession) : Bool := !t.inErrno && !t.inEof && decide (0 < t.maxInputRead)

/-- `process_data` asks for output. -/
def wantsOutput (t : TelnetSession) : Bool :=
  !t.outErrno && !t.outEof && decide (0 < t.outBuf.count)

/-- The input of `process_data` -/
def pollInput (t : TelnetSession) (p : Poll) : TelnetSession :=
  match p.input with
  | none => t
  | some r => if t.wantsInput then t.readIncomingData r else t

/-- The output of `process_data` -/
def pollOutput (t : TelnetSession) (p : Poll) : TelnetSession :=
  match p.output with
  | none => t
  -- nothing is taken out of the buffer between the `select` and here
  | some r => if h : 0 < t.outBuf.count then t.writeOutgoingData h r else t

/-- `process_data` -/
def processData (t : TelnetSession) (p : Poll) : TelnetSession :=
  if p.exception && (t.wantsInput || t.wantsOutput) then { t with inEof := true, outEof := true }
  else if t.wantsOutput then (t.pollInput p).pollOutput p
  else t.pollInput p

/-- The inner loop of `telnet_session_readln`, for a buffer with `room` bytes and a zero; `n` is the
number of bytes that wait. It tells whether the line is finished. -/
def readBuffered (room : Nat) : Nat → TelnetSession → Bytes → Bool × Bytes × TelnetSession
  | 0, t, line => (false, line, t)
  | n + 1, t, line =>
    if h : 0 < t.inBuf.count then
      if line.length = room then (true, line, t)
      else
        let r := t.useIncomingChar h
        if r.1 = lf then (true, line ++ [r.1], r.2) else readBuffered room n r.2 (line ++ [r.1])
    else (false, line, t)

/-- `telnet_session_readln`: the line, or `none` where it returns 0. It is still waiting at the end
of the polls if there is no result. -/
def readln (room : Nat) : List Poll → TelnetSession → Bytes → Option (Option Bytes) × TelnetSession
  | polls, t, line =>
    if t.inErrno || t.inEof then (some none, t)
    else
      match readBuffered room t.inBuf.count t line with
      | (true, line, t) => (some (some line), t)
      | (false, line, t) =>
        match polls with
        | [] => (none, t)
        | p :: polls => readln room polls (t.processData p) line

/-- The bytes of a text that there is room for, and those that are left. -/
def addText : Bytes → TelnetSession → Bytes × TelnetSession
  | [], t => ([], t)
  | c :: s, t => if t.outBuf.count < bufLen then addText s (t.addOutgoingChar c) else (c :: s, t)

/-- The second loop of `telnet_session_print` -/
def flush : List Poll → TelnetSession → Option Bool × TelnetSession
  | polls, t =>
    if t.outBuf.count = 0 then (some true, t)
    else if t.outErrno || t.outEof then (some false, t)
    else
      match polls with
      | [] => (none, t)
      | p :: polls => flush polls (t.processData p)

/-- The first loop of `telnet_session_print` -/
def printLoop : List Poll → Bytes → TelnetSession → Option Bool × TelnetSession
  | polls, s, t =>
    if t.outErrno || t.outEof then (some false, t)
    else
      match polls with
      | [] => (none, (addText s t).2)
      | p :: polls =>
        if (addText s t).1 = [] then flush polls ((addText s t).2.processData p)
        else printLoop polls (addText s t).1 ((addText s t).2.processData p)

/-- `telnet_session_print`; `telnet_session_println` calls it twice. -/
def print (s : Bytes) (polls : List Poll) (t : TelnetSession) : Option Bool × TelnetSession :=
  if s = [] then (some true, t) else printLoop polls s t

end TelnetSession

/-- What the server does with the session. -/
inductive Call where
  | poll (p : Poll)
  | readln (room : Nat) (polls : List Poll)
  | print (s : Bytes) (polls : List Poll)

/-- The calls one after the other, up to one that still waits: the lines that were read, with the
room for each. -/
def runCalls : List Call → TelnetSession → List (Nat × Bytes) × TelnetSession
  | [], t => ([], t)
  | .poll p :: calls, t => runCalls calls (t.processData p)
  | .readln room polls :: calls, t =>
    match t.readln room polls [] with
    | (some (some line), t) => ((room, line) :: (runCalls calls t).1, (runCalls calls t).2)
    | (some none, t) => runCalls calls t
    | (none, t) => ([], t)
  | .print s polls :: calls, t =>
    match t.print s polls with
    | (some _, t) => runCalls calls t
    | (none, t) => ([], t)

/-! ## Steps

All calls are made of three steps. -/

/-- A step: a call of `process_data`, a byte taken out of the input buffer, or a byte put into the
output buffer where there is room. -/
inductive Event where
  | poll (p : Poll)
  | use
  | add (c : Byte)

namespace TelnetSession

def step (t : TelnetSession) : Event → Option TelnetSession
  | .poll p => some (t.processData p)
  | .use => if h : 0 < t.inBuf.count then some (t.useIncomingChar h).2 else none
  | .add c => if t.outBuf.count < bufLen then some (t.addOutgoingChar c) else none

/-- Steps lead from one session to another. -/
def Goes (t t' : TelnetSession) : Prop := ∃ es : List Event, es.foldlM step t = some t'

end TelnetSession

/-! ## What the session should do -/

/-- What a byte of telnet stands for: the status behind it, the bytes for the reader, and the
replies. -/
structure Decoded where
  status : InStatus
  text : Bytes
  replies : Bytes

/-- One byte. -/
def feed : InStatus → Byte → Decoded
  | .gotIac, c =>
    if c = will then ⟨.gotWill, [], []⟩
    else if c = wont then ⟨.gotWont, [], []⟩
    else if c = doOption then ⟨.gotDo, [], []⟩
    else if c = dont then ⟨.gotDont, [], []⟩
    else if c = iac then ⟨.normal, [iac], []⟩
    else ⟨.normal, [], []⟩
  | .gotWill, c => ⟨.normal, [], [iac, dont, c]⟩
  | .gotWont, _ => ⟨.normal, [], []⟩
  | .gotDo, c => ⟨.normal, [], [iac, wont, c]⟩
  | .gotDont, _ => ⟨.normal, [], []⟩
  | .gotCr, c => ⟨.normal, if c ≠ lf then [lf, c] else [lf], []⟩
  | .normal, c => if c = iac then ⟨.gotIac, [], []⟩ else if c = cr then ⟨.gotCr, [], []⟩
      else ⟨.normal, [c], []⟩

/-- All bytes. -/
def decode : InStatus → Bytes → Decoded
  | st, [] => ⟨st, [], []⟩
  | st, c :: d =>
    let r := decode (feed st c).status d
    ⟨r.status, (feed st c).text ++ r.text, (feed st c).replies ++ r.replies⟩

namespace TelnetSession

variable (t : TelnetSession)

/-- The text that has come in. -/
def text : Bytes := (decode .normal t.received).text

/-- Nothing was overwritten: what was put into the buffers and not taken out of them is in them. -/
structure Intact : Prop where
  input : t.text = t.used ++ t.inBuf.toList
  output : t.offered = t.sent ++ t.outBuf.toList

/-- There is room in both buffers for what these bytes stand for. -/
def Fits (d : Bytes) : Prop :=
  t.inBuf.count + (decode t.inStatus d).text.length ≤ bufLen ∧
    t.outBuf.count + (decode t.inStatus d).replies.length ≤ bufLen

/-- The bytes that are read while `process_data` waits. -/
def pollData (p : Poll) : Bytes :=
  match p.input with
  | some (.returned d) =>
    if p.exception = false ∧ t.wantsInput = true then d.take t.maxInputRead else []
  | _ => []

end TelnetSession

/-- A line as a reader with this room gets it: up to the line feed, or as much as there is room
for. -/
def IsPiece (room : Nat) (line : Bytes) : Prop :=
  (∃ a, line = a ++ [lf] ∧ lf ∉ a ∧ a.length < room) ∨ line.length = room ∧ lf ∉ line

/-- The lines follow each other in a text. -/
inductive Lines : Bytes → List (Nat × Bytes) → Prop where
  | nil (s : Bytes) : Lines s []
  | cons (room : Nat) (line s : Bytes) (ls : List (Nat × Bytes)) : IsPiece room line → Lines s ls →
    Lines (line ++ s) ((room, line) :: ls)

/-! ## Decoding -/

theorem decode_append (st : InStatus) (d e : Bytes) : decode st (d ++ e) =
    ⟨(decode (decode st d).status e).status,
      (decode st d).text ++ (decode (decode st d).status e).text, (decode st d).replies ++
      (decode (decode st d).status e).replies⟩ := by
  induction d generalizing st with
  | nil => rfl
  | cons c d ih => simp [decode, ih]

/-- A line without carriage returns and `IAC` stands for itself. -/
theorem decode_println {s : Bytes} (hcr : cr ∉ s) (hiac : iac ∉ s) :
    decode .normal (s ++ [cr, lf]) = ⟨.normal, s ++ [lf], []⟩ := by
  have hplain : decode .normal s = ⟨.normal, s, []⟩ := by
    induction s with
    | nil => rfl
    | cons c s ih =>
      rw [List.mem_cons, not_or] at hcr hiac
      simp [decode, feed, Ne.symm hcr.1, Ne.symm hiac.1, ih hcr.2 hiac.2]
  rw [decode_append, hplain]
  rfl

/-- A byte stands for at most one byte, but the one behind a carriage return for two. -/
theorem length_text_decode_le (st : InStatus) (d : Bytes) :
    (decode st d).text.length ≤ d.length + (if st = .gotCr then 1 else 0) := by
  induction d generalizing st with
  | nil => simp [decode]
  | cons c d ih =>
    have hrest := ih (feed st c).status
    have hfirst : (feed st c).text.length + (if (feed st c).status = .gotCr then 1 else 0) ≤ 1 +
        (if st = .gotCr then 1 else 0) := by
      cases st <;> simp only [feed] <;> (repeat' split) <;> simp_all
    simp only [decode, List.length_append, List.length_cons]
    omega

/-- The bytes that wait for the last byte of a reply. -/
def InStatus.pending : InStatus → Nat
  | .gotIac => 1
  | .gotWill | .gotDo => 2
  | _ => 0

theorem length_replies_decode_le (st : InStatus) (d : Bytes) :
    (decode st d).replies.length ≤ d.length + st.pending := by
  induction d generalizing st with
  | nil => simp [decode]
  | cons c d ih =>
    have hrest := ih (feed st c).status
    have hfirst : (feed st c).replies.length + (feed st c).status.pending ≤ 1 + st.pending := by
      cases st <;> simp only [feed] <;> (repeat' split) <;> simp_all [InStatus.pending]
    simp only [decode, List.length_append, List.length_cons]
    omega

/-! ## One step -/

namespace TelnetSession

variable {t t' : TelnetSession} {p : Poll}

theorem processIncomingChar_eq (t : TelnetSession) (c : Byte) : t.processIncomingChar c =
    { t with
      inBuf := t.inBuf.pushAll (feed t.inStatus c).text
      inStatus := (feed t.inStatus c).status
      outBuf := t.outBuf.pushAll (feed t.inStatus c).replies
      offered := t.offered ++ (feed t.inStatus c).replies } := by
  obtain ⟨inBuf, inErrno, inEof, inStatus, outBuf, outErrno, outEof, received, used, offered,
      sent⟩ := t
  cases inStatus <;> simp only [processIncomingChar, feed] <;> (repeat' split) <;>
    simp_all [Ring.pushAll, addIncomingChar, addOutgoingChar]

theorem foldl_processIncomingChar (t : TelnetSession) (d : Bytes) : d.foldl processIncomingChar t =
    { t with
      inBuf := t.inBuf.pushAll (decode t.inStatus d).text
      inStatus := (decode t.inStatus d).status
      outBuf := t.outBuf.pushAll (decode t.inStatus d).replies
      offered := t.offered ++ (decode t.inStatus d).replies } := by
  induction d generalizing t with
  | nil => simp [decode, Ring.pushAll]
  | cons c d ih =>
    rw [List.foldl_cons, ih, processIncomingChar_eq]
    simp [decode, Ring.pushAll, List.foldl_append]

/-- What holds in every session, also when bytes were overwritten. -/
structure Sound (t : TelnetSession) : Prop where
  status : t.inStatus = (decode .normal t.received).status
  input : t.used.length + t.inBuf.count ≤ t.text.length
  output : t.sent.length + t.outBuf.count ≤ t.offered.length

/-- No more comes in. -/
def Dead (t : TelnetSession) : Prop := t.inErrno = true ∨ t.inEof = true

theorem text_append (t : TelnetSession) (d : Bytes) (h : t.Sound) :
    (decode .normal (t.received ++ d)).text = t.text ++ (decode t.inStatus d).text := by
  rw [decode_append, ← h.status]
  rfl

/-- The bytes that `read` returns go through the session as they should if and only if there is
room. -/
theorem received_spec (t : TelnetSession) (hs : t.Sound) (d : Bytes) :
    Sound { d.foldl processIncomingChar t with received := t.received ++ d } ∧
      (Intact { d.foldl processIncomingChar t with received := t.received ++ d } ↔ t.Intact ∧
      t.Fits d) := by
  rw [foldl_processIncomingChar]
  have hin := t.inBuf.count_pushAll (decode t.inStatus d).text
  have hout := t.outBuf.count_pushAll (decode t.inStatus d).replies
  have htext := t.text_append d hs
  have hinput := hs.input
  have houtput := hs.output
  refine ⟨⟨?_, ?_, ?_⟩, ?_⟩
  · rw [decode_append, ← hs.status]
  · show t.used.length + (t.inBuf.pushAll _).count ≤ (decode .normal (t.received ++ d)).text.length
    rw [htext, hin, List.length_append]
    omega
  · show t.sent.length + (t.outBuf.pushAll _).count ≤ (t.offered ++ _).length
    rw [hout, List.length_append]
    omega
  · have hinput' := t.inBuf.append_eq_append_pushAll_iff hinput (decode t.inStatus d).text
    have houtput' := t.outBuf.append_eq_append_pushAll_iff houtput (decode t.inStatus d).replies
    rw [← htext] at hinput'
    constructor
    · rintro ⟨hi, ho⟩
      obtain ⟨hi, hroom⟩ := hinput'.mp hi
      obtain ⟨ho, hroom'⟩ := houtput'.mp ho
      exact ⟨⟨hi, ho⟩, hroom, hroom'⟩
    · rintro ⟨⟨hi, ho⟩, hroom, hroom'⟩
      exact ⟨hinput'.mpr ⟨hi, hroom⟩, houtput'.mpr ⟨ho, hroom'⟩⟩

theorem fits_nil (t : TelnetSession) : t.Fits [] := by
  have hin := t.inBuf.count_le
  have hout := t.outBuf.count_le
  exact ⟨by simpa [decode] using hin, by simpa [decode] using hout⟩

/-- What a step does to the session, if these bytes came in. -/
structure Receives (t t' : TelnetSession) (d : Bytes) : Prop where
  received : t'.received = t.received ++ d
  used : t'.used = t.used
  offered : t.offered <+: t'.offered
  dead : t.Dead → t'.Dead
  sound : t.Sound → t'.Sound
  intact : t.Sound → (t'.Intact ↔ t.Intact ∧ t.Fits d)

/-- Only flags change. -/
theorem Receives.flags (hin : t'.inBuf = t.inBuf) (hstatus : t'.inStatus = t.inStatus)
    (hout : t'.outBuf = t.outBuf) (hreceived : t'.received = t.received) (hused : t'.used = t.used)
    (hoffered : t'.offered = t.offered) (hsent : t'.sent = t.sent) (hdead : t.Dead → t'.Dead) :
    Receives t t' [] where
  received := by rw [hreceived, List.append_nil]
  used := hused
  offered := by rw [hoffered]
  dead := hdead
  sound := by
    rintro ⟨hs, hi, ho⟩
    exact ⟨by rw [hstatus, hreceived, hs], by rw [text, hreceived, hused, hin]; exact hi,
      by rw [hsent, hout, hoffered]; exact ho⟩
  intact := by
    intro _
    rw [and_iff_left t.fits_nil]
    constructor
    · rintro ⟨hi, ho⟩
      rw [text, hreceived, hused, hin] at hi
      rw [hoffered, hsent, hout] at ho
      exact ⟨hi, ho⟩
    · rintro ⟨hi, ho⟩
      exact ⟨by rw [text, hreceived, hused, hin]; exact hi, by rw [hoffered, hsent, hout]; exact ho⟩

theorem Receives.refl (t : TelnetSession) : Receives t t [] := .flags rfl rfl rfl rfl rfl rfl rfl id

theorem Receives.append {t'' : TelnetSession} {d : Bytes} (h : Receives t t' d)
    (h' : Receives t' t'' []) : Receives t t'' d where
  received := by rw [h'.received, List.append_nil, h.received]
  used := h'.used.trans h.used
  offered := h.offered.trans h'.offered
  dead := fun hd => h'.dead (h.dead hd)
  sound := fun hs => h'.sound (h.sound hs)
  intact := fun hs => by rw [h'.intact (h.sound hs), and_iff_left t'.fits_nil, h.intact hs]

theorem pollInput_receives (t : TelnetSession) (p : Poll)
    (hp : p.exception = false ∨ t.wantsInput = false) :
    Receives t (t.pollInput p) (t.pollData p) := by
  unfold pollInput pollData
  cases hinput : p.input with
  | none => exact .refl t
  | some r =>
    by_cases hwants : t.wantsInput = true
    · have hexception : p.exception = false := by
        rcases hp with hp | hp
        · exact hp
        · rw [hwants] at hp
          cases hp
      cases r with
      | failed =>
        simp only [hwants, if_true]
        exact .flags rfl rfl rfl rfl rfl rfl rfl fun _ => .inl rfl
      | returned d =>
        simp only [hwants, hexception, if_true, and_self, readIncomingData]
        split
        · rename_i hnil
          rw [hnil]
          exact .flags rfl rfl rfl rfl rfl rfl rfl fun _ => .inr rfl
        · refine ⟨rfl, ?_, ?_, ?_, fun hs => (t.received_spec hs _).1, fun hs =>
            (t.received_spec hs _).2⟩
          · rw [foldl_processIncomingChar]
          · rw [foldl_processIncomingChar]
            exact List.prefix_append _ _
          · rw [foldl_processIncomingChar]
            exact id
    · dsimp only
      rw [if_neg hwants]
      cases r with
      | failed => exact .refl t
      | returned d =>
        dsimp only
        rw [if_neg (fun h => hwants h.2)]
        exact .refl t

theorem pollOutput_receives (t : TelnetSession) (p : Poll) : Receives t (t.pollOutput p) [] := by
  unfold pollOutput
  split
  · exact .refl t
  · split
    · rename_i r h
      unfold writeOutgoingData
      split
      · exact .flags rfl rfl rfl rfl rfl rfl rfl id
      · rename_i k
        split
        · exact .flags rfl rfl rfl rfl rfl rfl rfl id
        · obtain ⟨-, hsegment, -⟩ := t.outBuf.segment_bounds h
          have hsent : t.outBuf.contiguous.take (min k t.outBuf.segment) =
              t.outBuf.toList.take (min k t.outBuf.segment) := by
            rw [t.outBuf.contiguous_eq h, List.take_take, Nat.min_eq_left (Nat.min_le_right _ _)]
          have hrest :=
            t.outBuf.toList_drop (min k t.outBuf.segment)
              (Nat.le_trans (Nat.min_le_right _ _) hsegment)
          refine ⟨(List.append_nil _).symm, rfl, List.prefix_refl _, id, fun hs =>
            ⟨hs.status, hs.input, ?_⟩, fun hs => ?_⟩
          · have houtput := hs.output
            show (t.sent ++ _).length + (t.outBuf.count - min k t.outBuf.segment) ≤ t.offered.length
            rw [List.length_append, hsent, List.length_take, Ring.length_toList]
            omega
          · rw [and_iff_left t.fits_nil]
            have hiff : t.offered = t.sent ++ t.outBuf.toList ↔
                t.offered = t.sent ++ t.outBuf.contiguous.take (min k t.outBuf.segment)
                ++ (t.outBuf.drop (min k t.outBuf.segment)
                  (Nat.le_trans (Nat.min_le_right _ _) hsegment)).toList := by
              rw [hsent, hrest, List.append_assoc, List.take_append_drop]
            exact ⟨fun h => ⟨h.input, hiff.mpr h.output⟩, fun h => ⟨h.input, hiff.mp h.output⟩⟩
    · exact .refl t

/-- A call of `process_data` keeps an intact session intact if and only if there is room for what
comes in. -/
theorem processData_receives (t : TelnetSession) (p : Poll) :
    Receives t (t.processData p) (t.pollData p) := by
  unfold processData
  split
  · rename_i hexception
    rw [Bool.and_eq_true] at hexception
    have hnone : t.pollData p = [] := by
      unfold pollData
      split
      · rw [if_neg]
        rintro ⟨hfalse, -⟩
        rw [hexception.1] at hfalse
        cases hfalse
      · rfl
    rw [hnone]
    exact .flags rfl rfl rfl rfl rfl rfl rfl fun _ => .inr rfl
  · rename_i hexception
    have hinput : Receives t (t.pollInput p) (t.pollData p) := by
      refine t.pollInput_receives p ?_
      cases hp : p.exception with
      | false => exact .inl rfl
      | true =>
        rw [hp, Bool.true_and, Bool.or_eq_true, not_or] at hexception
        exact .inr (Bool.eq_false_iff.mpr hexception.1)
    split
    · exact hinput.append (pollOutput_receives _ p)
    · exact hinput

theorem useIncomingChar_keeps (t : TelnetSession) (h : 0 < t.inBuf.count) :
    (t.Sound → (t.useIncomingChar h).2.Sound) ∧ ((t.useIncomingChar h).2.Intact ↔ t.Intact) := by
  refine ⟨fun hs => ⟨hs.status, ?_, hs.output⟩, ?_⟩
  · have hinput := hs.input
    show (t.used ++ [_]).length + (t.inBuf.count - 1) ≤ t.text.length
    rw [List.length_append, List.length_singleton]
    omega
  · have hiff : t.text = t.used ++ t.inBuf.toList ↔
        t.text = (t.used ++ [t.inBuf.front]) ++ (t.inBuf.drop 1 h).toList := by
      rw [t.inBuf.toList_eq_front_cons h, List.append_assoc]
      rfl
    exact ⟨fun hi => ⟨hiff.mpr hi.input, hi.output⟩, fun hi => ⟨hiff.mp hi.input, hi.output⟩⟩

theorem addOutgoingChar_keeps (t : TelnetSession) (c : Byte) (h : t.outBuf.count < bufLen)
    (hs : t.Sound) :
    (t.addOutgoingChar c).Sound ∧ ((t.addOutgoingChar c).Intact ↔ t.Intact) := by
  have hcount := t.outBuf.count_push c
  have hiff := t.outBuf.append_eq_append_pushAll_iff hs.output [c]
  rw [and_iff_left (show t.outBuf.count + [c].length ≤ bufLen from h)] at hiff
  refine ⟨⟨hs.status, hs.input, ?_⟩, fun hi => ⟨hi.input, hiff.mp hi.output⟩, fun hi =>
    ⟨hi.input, hiff.mpr hi.output⟩⟩
  have houtput := hs.output
  show t.sent.length + (t.outBuf.push c).count ≤ (t.offered ++ [c]).length
  rw [List.length_append, List.length_singleton]
  omega

/-- There is room for what comes in during the step. -/
def FitsStep (t : TelnetSession) (e : Event) : Prop := ∀ p, e = .poll p → t.Fits (t.pollData p)

theorem step_keeps {e : Event} (hs : t.Sound) (hstep : t.step e = some t') :
    t'.Sound ∧ (t'.Intact ↔ t.Intact ∧ t.FitsStep e) := by
  cases e with
  | poll p =>
    cases hstep
    have h := t.processData_receives p
    refine ⟨h.sound hs, (h.intact hs).trans (and_congr_right fun _ => ?_)⟩
    constructor
    · rintro hf _ ⟨⟩
      exact hf
    · exact fun hf => hf p rfl
  | use =>
    rw [step] at hstep
    split at hstep
    · rename_i h
      cases hstep
      obtain ⟨hsound, hiff⟩ := t.useIncomingChar_keeps h
      exact ⟨hsound hs, by rw [hiff, and_iff_left (show t.FitsStep .use from nofun)]⟩
    · cases hstep
  | add c =>
    rw [step] at hstep
    split at hstep
    · rename_i h
      cases hstep
      obtain ⟨hsound, hiff⟩ := t.addOutgoingChar_keeps c h hs
      exact ⟨hsound, by rw [hiff, and_iff_left (show t.FitsStep (.add c) from nofun)]⟩
    · cases hstep

theorem step_received {e : Event} (hstep : t.step e = some t') :
    t.received <+: t'.received ∧ t.offered <+: t'.offered ∧ (t.Dead → t'.Dead) := by
  cases e with
  | poll p =>
    cases hstep
    have h := t.processData_receives p
    exact ⟨⟨_, h.received.symm⟩, h.offered, h.dead⟩
  | use =>
    rw [step] at hstep
    split at hstep
    · cases hstep
      exact ⟨List.prefix_refl _, List.prefix_refl _, id⟩
    · cases hstep
  | add c =>
    rw [step] at hstep
    split at hstep
    · cases hstep
      exact ⟨List.prefix_refl _, List.prefix_append _ _, id⟩
    · cases hstep

/-- What steps keep. What is not right before them is not right behind them. -/
structure Keeps (t t' : TelnetSession) : Prop where
  received : t.received <+: t'.received
  offered : t.offered <+: t'.offered
  dead : t.Dead → t'.Dead
  sound : t.Sound → t'.Sound
  intact : t.Sound → t'.Intact → t.Intact

theorem Goes.keeps (h : Goes t t') : Keeps t t' := by
  obtain ⟨es, hes⟩ := h
  induction es generalizing t with
  | nil =>
    cases hes
    exact ⟨List.prefix_refl _, List.prefix_refl _, id, id, fun _ => id⟩
  | cons e es ih =>
    rw [List.foldlM_cons] at hes
    obtain ⟨t₁, hstep, hes⟩ := Option.bind_eq_some_iff.mp hes
    obtain ⟨hreceived, hoffered, hdead⟩ := step_received hstep
    have hrest := ih hes
    exact ⟨hreceived.trans hrest.received, hoffered.trans hrest.offered, fun hd =>
      hrest.dead (hdead hd), fun hs => hrest.sound (step_keeps hs hstep).1, fun hs hi =>
        ((step_keeps hs hstep).2.mp (hrest.intact (step_keeps hs hstep).1 hi)).1⟩

/-! ## Calls -/

/-- The steps of a call that takes these bytes out of the input buffer. -/
structure Uses (t t' : TelnetSession) (u : Bytes) : Prop where
  goes : Goes t t'
  used : t'.used = t.used ++ u

theorem Uses.refl (t : TelnetSession) : Uses t t [] := ⟨⟨[], rfl⟩, (List.append_nil _).symm⟩

theorem Uses.trans {t'' : TelnetSession} {u u' : Bytes} (h : Uses t t' u) (h' : Uses t' t'' u') :
    Uses t t'' (u ++ u') := by
  obtain ⟨⟨es, hes⟩, hused⟩ := h
  obtain ⟨⟨es', hes'⟩, hused'⟩ := h'
  refine ⟨⟨es ++ es', ?_⟩, by rw [hused', hused, List.append_assoc]⟩
  rw [List.foldlM_append, hes]
  exact hes'

theorem Uses.of_step {e : Event} {u : Bytes} (hstep : t.step e = some t')
    (hused : t'.used = t.used ++ u) : Uses t t' u := by
  refine ⟨⟨[e], ?_⟩, hused⟩
  rw [List.foldlM_cons, hstep]
  rfl

theorem processData_uses (t : TelnetSession) (p : Poll) : Uses t (t.processData p) [] :=
  .of_step (e := .poll p) rfl (by rw [(t.processData_receives p).used, List.append_nil])

theorem useIncomingChar_uses (t : TelnetSession) (h : 0 < t.inBuf.count) :
    Uses t (t.useIncomingChar h).2 [(t.useIncomingChar h).1] :=
  .of_step (e := .use) (dif_pos h) rfl

theorem addOutgoingChar_uses (t : TelnetSession) (c : Byte) (h : t.outBuf.count < bufLen) :
    Uses t (t.addOutgoingChar c) [] :=
  .of_step (e := .add c) (if_pos h) (List.append_nil _).symm

theorem addText_uses (s : Bytes) (t : TelnetSession) : Uses t (addText s t).2 [] := by
  induction s generalizing t with
  | nil => exact .refl t
  | cons c s ih =>
    rw [addText]
    split
    · rename_i h
      exact (t.addOutgoingChar_uses c h).trans (ih _)
    · exact .refl t

theorem flush_uses (polls : List Poll) (t : TelnetSession) : Uses t (flush polls t).2 [] := by
  induction polls generalizing t with
  | nil =>
    rw [flush]
    split
    · exact .refl t
    · split <;> exact .refl t
  | cons p polls ih =>
    rw [flush]
    split
    · exact .refl t
    · split
      · exact .refl t
      · exact (t.processData_uses p).trans (ih _)

theorem printLoop_uses (polls : List Poll) (s : Bytes) (t : TelnetSession) :
    Uses t (printLoop polls s t).2 [] := by
  induction polls generalizing s t with
  | nil =>
    rw [printLoop]
    split
    · exact .refl t
    · exact addText_uses s t
  | cons p polls ih =>
    rw [printLoop]
    split
    · exact .refl t
    · have hpoll := (addText_uses s t).trans (processData_uses _ p)
      split
      · exact hpoll.trans (flush_uses polls _)
      · exact hpoll.trans (ih _ _)

theorem print_uses (s : Bytes) (polls : List Poll) (t : TelnetSession) :
    Uses t (t.print s polls).2 [] := by
  unfold print
  split
  · exact .refl t
  · exact printLoop_uses polls s t

/-- The inner loop goes on with a line until it is finished or nothing is left. -/
theorem readBuffered_spec {room n : Nat} {t : TelnetSession} {line : Bytes} (hline : lf ∉ line)
    (hroom : line.length ≤ room) :
    ∃ u, (readBuffered room n t line).2.1 = line ++ u ∧ Uses t (readBuffered room n t line).2.2 u ∧
      ((readBuffered room n t line).1 = true → IsPiece room (line ++ u)) ∧
      ((readBuffered room n t line).1 = false → lf ∉ line ++ u ∧ (line ++ u).length ≤ room) := by
  induction n generalizing t line with
  | zero => exact ⟨[], (List.append_nil _).symm, .refl t, nofun, fun _ =>
      by simpa using ⟨hline, hroom⟩⟩
  | succ n ih =>
    rw [readBuffered]
    split
    · rename_i h
      split
      · rename_i hfull
        exact ⟨[], (List.append_nil _).symm, .refl t, fun _ => .inr (by simpa using ⟨hfull, hline⟩),
          nofun⟩
      · rename_i hfull
        have huse := t.useIncomingChar_uses h
        generalize t.useIncomingChar h = r at huse
        obtain ⟨c, t'⟩ := r
        dsimp only at huse ⊢
        split
        · rename_i hlf
          refine ⟨[c], rfl, huse, fun _ => .inl ⟨line, by rw [hlf], hline, by omega⟩, nofun⟩
        · rename_i hlf
          obtain ⟨u, hu, huses, hpiece, hrest⟩ := @ih t' (line ++ [c])
            (by simp [hline, Ne.symm hlf]) (by simp; omega)
          rw [List.append_assoc] at hu hpiece hrest
          exact ⟨c :: u, hu, huse.trans huses, hpiece, hrest⟩
    · exact ⟨[], (List.append_nil _).symm, .refl t, nofun, fun _ => by simpa using ⟨hline, hroom⟩⟩

theorem readln_spec {room : Nat} {polls : List Poll} {t : TelnetSession} {line : Bytes}
    (hline : lf ∉ line) (hroom : line.length ≤ room) :
    ∃ u, Uses t (readln room polls t line).2 u ∧
      (∀ l, (readln room polls t line).1 = some (some l) → l = line ++ u ∧ IsPiece room l) ∧
      ((readln room polls t line).1 = some none → (readln room polls t line).2.Dead) := by
  induction polls generalizing t line with
  | nil =>
    rw [readln]
    split
    · rename_i hdead
      exact ⟨[], .refl t, nofun, fun _ => by simpa [Dead] using hdead⟩
    · obtain ⟨u, hu, huses, hpiece, -⟩ := readBuffered_spec (n := t.inBuf.count) hline hroom
      generalize readBuffered room t.inBuf.count t line = r at hu huses hpiece
      obtain ⟨finished, line', t'⟩ := r
      cases finished with
      | false => exact ⟨u, huses, nofun, nofun⟩
      | true =>
        refine ⟨u, huses, fun l hl => ?_, nofun⟩
        cases hl
        exact ⟨hu, by rw [show line' = line ++ u from hu]; exact hpiece rfl⟩
  | cons p polls ih =>
    rw [readln]
    split
    · rename_i hdead
      exact ⟨[], .refl t, nofun, fun _ => by simpa [Dead] using hdead⟩
    · obtain ⟨u, hu, huses, hpiece, hrest⟩ := readBuffered_spec (n := t.inBuf.count) hline hroom
      generalize readBuffered room t.inBuf.count t line = r at hu huses hpiece hrest
      obtain ⟨finished, line', t'⟩ := r
      cases finished with
      | false =>
        obtain ⟨hline', hroom'⟩ := hrest rfl
        dsimp only at hu huses
        rw [← hu] at hline' hroom'
        obtain ⟨u', huses', hfound, hdead⟩ := ih (t := t'.processData p) hline' hroom'
        refine ⟨u ++ u', ?_, fun l hl => ?_, hdead⟩
        · have htrans := (huses.trans (t'.processData_uses p)).trans huses'
          rwa [List.append_nil] at htrans
        · rw [← List.append_assoc, ← hu]
          exact hfound l hl
      | true =>
        refine ⟨u, huses, fun l hl => ?_, nofun⟩
        cases hl
        exact ⟨hu, by rw [show line' = line ++ u from hu]; exact hpiece rfl⟩

theorem flush_done {polls : List Poll} {t : TelnetSession} (h : (flush polls t).1 = some true) :
    (flush polls t).2.outBuf.count = 0 := by
  induction polls generalizing t with
  | nil =>
    rw [flush] at h ⊢
    split at h
    · rename_i hempty
      rwa [if_pos hempty]
    · split at h <;> cases h
  | cons p polls ih =>
    rw [flush] at h ⊢
    split at h
    · rename_i hempty
      rwa [if_pos hempty]
    · rename_i hne
      rw [if_neg hne]
      split at h
      · cases h
      · rename_i hflags
        rw [if_neg hflags]
        exact ih h

theorem addText_offered (s : Bytes) (t : TelnetSession) :
    ∃ done, s = done ++ (addText s t).1 ∧ (addText s t).2.offered = t.offered ++ done := by
  induction s generalizing t with
  | nil => exact ⟨[], rfl, (List.append_nil _).symm⟩
  | cons c s ih =>
    rw [addText]
    split
    · obtain ⟨done, hs, hoffered⟩ := ih (t.addOutgoingChar c)
      refine ⟨c :: done, by rw [List.cons_append, ← hs], ?_⟩
      rw [hoffered, addOutgoingChar, List.append_assoc]
      rfl
    · exact ⟨[], rfl, (List.append_nil _).symm⟩

theorem printLoop_done {polls : List Poll} {s : Bytes} {t : TelnetSession}
    (h : (printLoop polls s t).1 = some true) :
    (printLoop polls s t).2.outBuf.count = 0 ∧
      ∃ added, (printLoop polls s t).2.offered = t.offered ++ added ∧ s.Sublist added := by
  induction polls generalizing s t with
  | nil =>
    rw [printLoop] at h
    split at h <;> cases h
  | cons p polls ih =>
    rw [printLoop] at h ⊢
    split at h
    · cases h
    · rename_i hflags
      rw [if_neg hflags]
      obtain ⟨done, hs, hoffered⟩ := addText_offered s t
      obtain ⟨replies, hreplies⟩ := (processData_uses (addText s t).2 p).goes.keeps.offered
      rw [hoffered] at hreplies
      split at h
      · rename_i hall
        rw [if_pos hall]
        obtain ⟨more, hmore⟩ :=
          (flush_uses polls ((addText s t).2.processData p)).goes.keeps.offered
        rw [hall, List.append_nil] at hs
        refine ⟨flush_done h, done ++ (replies ++ more), ?_, ?_⟩
        · rw [← hmore, ← hreplies]
          simp
        · rw [hs]
          exact List.sublist_append_left _ _
      · rename_i hrest
        rw [if_neg hrest]
        obtain ⟨hempty, added, hadded, hsub⟩ := ih h
        refine ⟨hempty, done ++ (replies ++ added), ?_, ?_⟩
        · rw [hadded, ← hreplies]
          simp
        · rw [hs]
          exact (List.Sublist.refl done).append (hsub.trans (List.sublist_append_right _ _))

/-- When `telnet_session_print` returns 1 everything is handed over, the text in its order. -/
theorem print_done {polls : List Poll} {s : Bytes} {t : TelnetSession} (hne : s ≠ [])
    (h : (t.print s polls).1 = some true) (hi : (t.print s polls).2.Intact) :
    (t.print s polls).2.sent = (t.print s polls).2.offered ∧
      ∃ added, (t.print s polls).2.offered = t.offered ++ added ∧ s.Sublist added := by
  have houtput := hi.output
  unfold print at h houtput ⊢
  rw [if_neg hne] at h houtput ⊢
  obtain ⟨hempty, hadded⟩ := printLoop_done h
  have hnil : (printLoop polls s t).2.outBuf.toList = [] :=
    List.length_eq_zero_iff.mp (by rw [Ring.length_toList, hempty])
  rw [hnil, List.append_nil] at houtput
  exact ⟨houtput.symm, hadded⟩

theorem inv_init : Sound telnetSessionInit ∧ Intact telnetSessionInit :=
  ⟨⟨rfl, Nat.le_refl _, Nat.le_refl _⟩, rfl, rfl⟩

/-- In these states no reply and no line is half read, and there is always room. -/
theorem fits_of_calm (t : TelnetSession) (p : Poll) (h : t.inStatus ≠ .gotCr)
    (hpending : t.inStatus.pending = 0) :
    t.Fits (t.pollData p) := by
  have hlength : (t.pollData p).length ≤ t.maxInputRead := by
    unfold pollData
    split
    · split
      · exact List.length_take_le _ _
      · exact Nat.zero_le _
    · exact Nat.zero_le _
  have htext := length_text_decode_le t.inStatus (t.pollData p)
  have hreplies := length_replies_decode_le t.inStatus (t.pollData p)
  have hin := t.inBuf.count_le
  have hout := t.outBuf.count_le
  rw [if_neg h] at htext
  unfold maxInputRead at hlength
  exact ⟨by omega, by omega⟩

end TelnetSession

/-- Nothing more is read from a session that is dead. -/
theorem runCalls_dead {calls : List Call} {t : TelnetSession} (h : t.Dead) :
    (runCalls calls t).1 = [] := by
  induction calls generalizing t with
  | nil => rfl
  | cons c calls ih =>
    cases c with
    | poll p => exact ih ((t.processData_uses p).goes.keeps.dead h)
    | readln room polls =>
      have hnone : t.readln room polls [] = (some none, t) := by
        have hdead : (t.inErrno || t.inEof) = true := by simpa [TelnetSession.Dead] using h
        cases polls <;> rw [TelnetSession.readln, if_pos hdead]
      simp only [runCalls, hnone]
      exact ih h
    | print s polls =>
      have huses := t.print_uses s polls
      simp only [runCalls]
      split
      · rename_i hprint
        rw [hprint] at huses
        exact ih (huses.goes.keeps.dead h)
      · rfl

theorem TelnetSession.Uses.text {t t' : TelnetSession} {u : Bytes} (h : TelnetSession.Uses t t' u) :
    t.text <+: t'.text := by
  obtain ⟨d, hd⟩ := h.goes.keeps.received
  rw [TelnetSession.text, TelnetSession.text, ← hd, decode_append]
  exact List.prefix_append _ _

/-- What the calls do, and the lines they return. -/
theorem runCalls_spec {calls : List Call} {t : TelnetSession} (hs : t.Sound) : ∃ u,
    TelnetSession.Uses t (runCalls calls t).2 u ∧
      ((runCalls calls t).2.Intact →
      Lines ((runCalls calls t).2.text.drop t.used.length) (runCalls calls t).1) := by
  induction calls generalizing t with
  | nil => exact ⟨[], .refl t, fun _ => .nil _⟩
  | cons c calls ih =>
    cases c with
    | poll p =>
      have huses := t.processData_uses p
      obtain ⟨u, huses', hlines⟩ := ih (huses.goes.keeps.sound hs)
      rw [huses.used, List.append_nil] at hlines
      exact ⟨u, huses.trans huses', hlines⟩
    | readln room polls =>
      obtain ⟨u, huses, hfound, hdead⟩ :=
        @TelnetSession.readln_spec room polls t [] (by simp) (by simp)
      rw [runCalls]
      generalize t.readln room polls [] = r at huses hfound hdead
      obtain ⟨result, t'⟩ := r
      dsimp only at huses hfound hdead
      cases result with
      | none => exact ⟨u, huses, fun _ => .nil _⟩
      | some result =>
        obtain ⟨u', huses', hlines⟩ := ih (huses.goes.keeps.sound hs)
        refine ⟨u ++ u', by cases result <;> exact huses.trans huses', fun hi => ?_⟩
        cases result with
        | none =>
          dsimp only
          rw [runCalls_dead (hdead rfl)]
          exact .nil _
        | some line =>
          obtain ⟨rfl, hpiece⟩ := hfound line rfl
          -- what was used is a part of the text, and the line is the end of it
          obtain ⟨rest, hrest⟩ := huses'.text
          have hintact := huses'.goes.keeps.intact (huses.goes.keeps.sound hs) hi
          have htext : (runCalls calls t').2.text = t.used ++
              (line ++ (t'.inBuf.toList ++ rest)) := by
            rw [← hrest, hintact.input, huses.used]
            simp
          have hlines' := hlines hi
          rw [htext, huses.used, ← List.append_assoc, List.drop_left] at hlines'
          dsimp only
          rw [htext, List.drop_left]
          exact .cons room line _ _ hpiece hlines'
    | print s polls =>
      have huses := t.print_uses s polls
      rw [runCalls]
      generalize t.print s polls = r at huses
      obtain ⟨result, t'⟩ := r
      dsimp only at huses
      cases result with
      | none => exact ⟨[], huses, fun _ => .nil _⟩
      | some result =>
        obtain ⟨u, huses', hlines⟩ := ih (huses.goes.keeps.sound hs)
        rw [huses.used, List.append_nil] at hlines
        exact ⟨u, huses.trans huses', hlines⟩

theorem throughout_intact_iff (es : List Event) :
    Throughout TelnetSession.step TelnetSession.Intact telnetSessionInit es ↔
    EachStep TelnetSession.step TelnetSession.FitsStep telnetSessionInit es := by
  refine throughout_iff (I := fun t : TelnetSession => t.Sound ∧ t.Intact) (fun h => h.2)
    (fun h hstep hfits => ?_)
    (fun h hstep hfits => ?_) TelnetSession.inv_init
  · obtain ⟨hsound, hiff⟩ := TelnetSession.step_keeps h.1 hstep
    exact ⟨hsound, hiff.mpr ⟨h.2, hfits⟩⟩
  · exact fun hi => hfits ((TelnetSession.step_keeps h.1 hstep).2.mp hi).2

/-- **The control connection.** Through all steps both rings hold exactly what was put into them and
not yet taken out, in order, if and only if each time there is room for what the bytes that come in
stand for. There always is where no carriage return and no command of telnet is half read.

The calls of the server are made of these steps. If the rings are right at the end, then the lines
that were read are the text that came in, one behind the other, however it came in pieces; and a
text is handed over as a whole when `telnet_session_print` returns 1. A line that
`telnet_session_println` sends is read as this line at the other end, if there is no carriage return
and no `IAC` in it. -/
theorem telnetSession_spec :
    (∀ es, Throughout TelnetSession.step TelnetSession.Intact telnetSessionInit es ↔
      EachStep TelnetSession.step TelnetSession.FitsStep telnetSessionInit es) ∧
    (∀ (t : TelnetSession) (p : Poll), t.inStatus ≠ .gotCr → t.inStatus.pending = 0 →
      t.Fits (t.pollData p)) ∧
    (∀ calls, TelnetSession.Goes telnetSessionInit (runCalls calls telnetSessionInit).2 ∧
      ((runCalls calls telnetSessionInit).2.Intact →
        Lines (runCalls calls telnetSessionInit).2.text (runCalls calls telnetSessionInit).1)) ∧
    (∀ (t : TelnetSession) (s : Bytes) (polls : List Poll), s ≠ [] →
      (t.print s polls).1 = some true →
      (t.print s polls).2.Intact → (t.print s polls).2.sent = (t.print s polls).2.offered ∧
        ∃ added, (t.print s polls).2.offered = t.offered ++ added ∧ s.Sublist added) ∧
    ∀ s, cr ∉ s → iac ∉ s → decode .normal (s ++ [cr, lf]) = ⟨.normal, s ++ [lf], []⟩ := by
  refine ⟨throughout_intact_iff, fun t p => t.fits_of_calm p, fun calls => ?_, fun t s polls =>
    TelnetSession.print_done, fun s => decode_println⟩
  obtain ⟨u, huses, hlines⟩ := @runCalls_spec calls _ TelnetSession.inv_init.1
  exact ⟨huses.goes, hlines⟩

/-- `HI`, an offer of an option, and the end of the line. -/
def sampleInput : Bytes := [72, 73, iac, will, 1, cr, lf]

/-- The connection gives them, and takes three bytes. -/
def samplePoll : Poll := ⟨false, some (.returned sampleInput), some (.wrote 3)⟩

theorem telnetSession_spec_samplePoll :
    Throughout TelnetSession.step TelnetSession.Intact telnetSessionInit [.poll samplePoll, .use] ∧
      telnetSessionInit.Fits (telnetSessionInit.pollData samplePoll) ∧
      Lines [72, 73, lf] [(10, [72, 73, lf])] ∧
      (telnetSessionInit.print [50, 50] [samplePoll, ⟨false, none, some (.wrote 3)⟩]).2.sent
        = [50, 50, iac, dont, 1] ∧
      decode .normal [72, 73, cr, lf] = ⟨.normal, [72, 73, lf], []⟩ := by
  obtain ⟨hruns, hcalm, hcalls, hprint, hline⟩ := telnetSession_spec
  have hfits := hcalm telnetSessionInit samplePoll (by decide) rfl
  refine ⟨(hruns _).mpr ?_, hfits, ?_, ?_, hline [72, 73] (by decide) (by decide)⟩
  · rintro _ ⟨⟩
    refine ⟨?_, ?_⟩
    · rintro p ⟨⟩
      exact hfits
    · rintro t ht
      exact ⟨nofun, trivial⟩
  · have hread :=
      (hcalls [.poll samplePoll, .readln 10 []]).2 ⟨by decide +kernel, by decide +kernel⟩
    exact hread
  · have hdone := hprint telnetSessionInit [50, 50] [samplePoll, ⟨false, none, some (.wrote 3)⟩]
      (by decide) (by decide +kernel) ⟨by decide +kernel, by decide +kernel⟩
    exact hdone.1.trans (by decide +kernel)

end Owfs.Ftp
