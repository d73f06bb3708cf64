import Owfs.Infra.Bytes

/-!
# The DS2480 on a serial line

The serial adapter with the DS2480 chip (`ow_ds9097U.c`) takes commands and data over one line. A
byte on the line says that from now on there are data, another one that there are commands. Both do
not get a response. In between the chip answers to every byte of data with one byte.

The byte `MODE_COMMAND` can be one of the data. It is sent twice then. So what is written is longer
than the data, and it is cut into segments that fit into a buffer.

The mode is remembered in the connection. What the chip makes of the bytes is in `decode`, and the
results say that both agree.
-/

namespace Owfs.Ds2480

open Infra

/-! ## The code -/

/-- `MODE_DATA` -/
def modeData : Byte := 0xE1

/-- `MODE_COMMAND` -/
def modeCommand : Byte := 0xE3

/-- `MAX_SEND_SIZE` -/
def maxSendSize : Nat := 64

/-- `enum ds2480b_mode` -/
inductive Ds2480bMode where
  | dataMode
  | commandMode
  deriving DecidableEq

/-- `DS2480_write` and `DS2480_read`, which are the same for a serial port and for telnet. -/
structure Port (σ : Type) where
  write : Bytes → σ → Bool × σ
  read : Nat → σ → Option Bytes × σ

/-- The part of `struct connection_in` that is used here. -/
structure Connection (σ : Type) where
  mode : Ds2480bMode
  port : σ

variable {σ : Type} (port : Port σ)

/-- `DS2480_sendout_cmd` -/
def sendoutCmd (cmd : Bytes) (c : Connection σ) : Bool × Connection σ :=
  match c.mode with
  | .commandMode =>
    let (good, s) := port.write cmd c.port
    (good, ⟨.commandMode, s⟩)
  | .dataMode =>
    let (good, s) := port.write (modeCommand :: cmd) c.port
    (good, ⟨.commandMode, s⟩)

/-- The loop in `DS2480_sendback_cmd`, with the commands that are still to be sent. -/
def sendbackCmdLoop (cmd : Bytes) (extraByteForModeshift : Bool) (resp : Bytes) (c : Connection σ) :
    Bool × Bytes × Connection σ :=
  if _h : cmd = [] then (true, resp, c)
  else
    let limit := maxSendSize - extraByteForModeshift.toNat
    let bytesThisSegment := if limit < cmd.length then limit else cmd.length
    match sendoutCmd port (cmd.take bytesThisSegment) c with
    | (false, c) => (false, resp, c)
    | (true, c) =>
      match port.read bytesThisSegment c.port with
      | (none, s) => (false, resp, { c with port := s })
      | (some r, s) =>
        sendbackCmdLoop (cmd.drop bytesThisSegment)
          (if limit < cmd.length then false else extraByteForModeshift)
          (resp ++ r) { c with port := s }
termination_by cmd.length
decreasing_by
  have hpos : 0 < cmd.length := List.length_pos_iff.mpr _h
  have hlimit : 0 < maxSendSize - extraByteForModeshift.toNat := by
    cases extraByteForModeshift <;> decide
  rw [List.length_drop]
  split <;> omega

/-- `DS2480_sendback_cmd` -/
def sendbackCmd (cmd : Bytes) (c : Connection σ) : Bool × Bytes × Connection σ :=
  sendbackCmdLoop port cmd (c.mode ≠ .commandMode) [] c

/-- One byte more in the array `sendout`. Behind its end there is no room. -/
def push (sendout : Bytes) (b : Byte) : Option Bytes :=
  if sendout.length < maxSendSize then some (sendout ++ [b]) else none

/-- The second copy of a byte that would end the data. -/
def double (sendout : Bytes) (b : Byte) : Option Bytes :=
  if b = modeCommand then push sendout b else some sendout

/-- The loop in `DS2480_sendback_data`, with the data that are still to be sent. -/
def sendbackDataLoop :
    (data : Bytes) → (bytesFromList bytesAtSegmentStart : Nat) → (sendout resp : Bytes) →
    Connection σ → Option (Bool × Bytes × Connection σ)
  | [], _, _, _, resp, c => some (true, resp, c)
  | currentChar :: data, bytesFromList, bytesAtSegmentStart, sendout, resp, c => do
    let sendout ← push sendout currentChar
    let sendout ← double sendout currentChar
    if maxSendSize - 2 < sendout.length ∨ data = [] then
      match port.write sendout c.port with
      | (false, s) => some (false, resp, { c with port := s })
      | (true, s) =>
        match port.read (bytesFromList + 1 - bytesAtSegmentStart) s with
        | (none, s) => some (false, resp, { c with port := s })
        | (some r, s) =>
          sendbackDataLoop data (bytesFromList + 1) (bytesFromList + 1) [] (resp ++ r)
            { c with port := s }
    else sendbackDataLoop data (bytesFromList + 1) bytesAtSegmentStart sendout resp c

/-- `DS2480_sendback_data` -/
def sendbackData (data : Bytes) (c : Connection σ) : Option (Bool × Bytes × Connection σ) :=
  if data = [] then some (true, [], c)
  else if c.mode ≠ .dataMode then do
    let sendout ← push [] modeData
    sendbackDataLoop port data 0 0 sendout [] { c with mode := .dataMode }
  else sendbackDataLoop port data 0 0 [] [] c

/-! ## The chip -/

/-- How the chip takes the next byte. After a byte `MODE_COMMAND` between data it depends on the
next one whether the mode changes. -/
inductive ChipMode where
  | command
  | data
  | pending
  deriving DecidableEq

/-- What the chip gets from the line. -/
inductive Event where
  | command (b : Byte)
  | data (b : Byte)
  deriving DecidableEq

/-- A byte that is taken as a command. -/
def takeCommand (b : Byte) : ChipMode × List Event :=
  if b = modeData then (.data, [])
  else if b = modeCommand then (.command, [])
  else (.command, [.command b])

/-- A byte on the line. -/
def take : ChipMode → Byte → ChipMode × List Event
  | .command, b => takeCommand b
  | .data, b => if b = modeCommand then (.pending, []) else (.data, [.data b])
  | .pending, b => if b = modeCommand then (.data, [.data b]) else takeCommand b

/-- The bytes on the line, one after the other. -/
def decode : ChipMode → Bytes → ChipMode × List Event
  | m, [] => (m, [])
  | m, b :: bs => ((decode (take m b).1 bs).1, (take m b).2 ++ (decode (take m b).1 bs).2)

/-- The mode of the chip that belongs to a remembered mode. -/
def Ds2480bMode.chip : Ds2480bMode → ChipMode
  | .dataMode => .data
  | .commandMode => .command

/-- What is done with the port. -/
inductive Op where
  | write (buf : Bytes)
  | read (size : Nat)
  deriving DecidableEq

/-- A port whose use is recorded. -/
def Port.recorded : Port (σ × List Op) where
  write buf s := ((port.write buf s.1).1, (port.write buf s.1).2, s.2 ++ [.write buf])
  read size s := ((port.read size s.1).1, (port.read size s.1).2, s.2 ++ [.read size])

/-- All bytes that were written. -/
def written (ops : List Op) : Bytes := ops.flatMap fun
  | .write buf => buf
  | .read _ => []

/-- Bytes that are written in one go, and the number of bytes that are read then. -/
structure Segment where
  out : Bytes
  size : Nat

def Segment.ops (seg : Segment) : List Op := [.write seg.out, .read seg.size]

/-- The segments of a block of data. -/
structure Framed (m : ChipMode) (data : Bytes) (segs : List Segment) : Prop where
  /-- They fit into the buffer. -/
  bounded : ∀ seg ∈ segs, seg.out.length ≤ maxSendSize
  /-- The chip gets the data. -/
  decoded : (decode m (segs.flatMap Segment.out)).2 = data.map .data
  /-- For each segment as many bytes are read as there are data in it. -/
  counted : ∀ before seg after, segs = before ++ seg :: after →
    (decode (decode m (before.flatMap Segment.out)).1 seg.out).2.length = seg.size

/-! ## Decoding -/

theorem decode_append (m : ChipMode) (xs ys : Bytes) :
    decode m (xs ++ ys) =
      ((decode (decode m xs).1 ys).1, (decode m xs).2 ++ (decode (decode m xs).1 ys).2) := by
  induction xs generalizing m with
  | nil => rfl
  | cons x xs ih => simp only [List.cons_append, decode, ih, List.append_assoc]

/-- A byte of the data, as it is sent. -/
def escaped (b : Byte) : Bytes := if b = modeCommand then [b, b] else [b]

theorem length_escaped_le (b : Byte) : (escaped b).length ≤ 2 := by
  unfold escaped
  split <;> simp

theorem decode_escaped (b : Byte) : decode .data (escaped b) = (.data, [.data b]) := by
  unfold escaped
  by_cases hb : b = modeCommand
  · simp [hb, decode, take]
  · simp [hb, decode, take]

/-- Commands that do not change the mode. -/
theorem decode_commands {cmd : Bytes} (hcmd : ∀ b ∈ cmd, b ≠ modeData ∧ b ≠ modeCommand) :
    decode .command cmd = (.command, cmd.map .command) := by
  induction cmd with
  | nil => rfl
  | cons b cmd ih =>
    have hb := hcmd b List.mem_cons_self
    have htake : take .command b = (.command, [.command b]) := by
      simp [take, takeCommand, hb]
    rw [decode, htake, ih fun b' hb' => hcmd b' (List.mem_cons_of_mem b hb')]
    rfl

/-- The same after the switch of the mode. -/
theorem decode_modeCommand {cmd : Bytes} (hne : cmd ≠ [])
    (hcmd : ∀ b ∈ cmd, b ≠ modeData ∧ b ≠ modeCommand) :
    decode .data (modeCommand :: cmd) = (.command, cmd.map .command) := by
  obtain ⟨b, cmd, rfl⟩ := List.exists_cons_of_ne_nil hne
  have hb := hcmd b List.mem_cons_self
  -- the first command ends the doubt
  have hpending : decode .pending (b :: cmd) = decode .command (b :: cmd) := by
    simp only [decode, take, if_neg hb.2]
  have hswitch : take .data modeCommand = (.pending, []) := rfl
  rw [decode, hswitch, hpending, decode_commands hcmd]
  rfl

/-! ## Segments of data -/

/-- The segments that the loop makes of some data, when there are `n` bytes in `sendout` already. -/
def segments : (data : Bytes) → (n : Nat) → (sendout : Bytes) → List Segment
  | [], _, _ => []
  | b :: data, n, sendout =>
    if maxSendSize - 2 < (sendout ++ escaped b).length ∨ data = [] then
      ⟨sendout ++ escaped b, n + 1⟩ :: segments data 0 []
    else segments data (n + 1) (sendout ++ escaped b)

/-- Write the segments and read the responses. -/
def ship : List Segment → Bytes → Connection σ → Bool × Bytes × Connection σ
  | [], resp, c => (true, resp, c)
  | seg :: segs, resp, c =>
    match port.write seg.out c.port with
    | (false, s) => (false, resp, { c with port := s })
    | (true, s) =>
      match port.read seg.size s with
      | (none, s) => (false, resp, { c with port := s })
      | (some r, s) => ship segs (resp ++ r) { c with port := s }

theorem push_eq_some {sendout : Bytes} {b : Byte} (h : sendout.length < maxSendSize) :
    push sendout b = some (sendout ++ [b]) := if_pos h

/-- There is room for a byte that is doubled. -/
theorem push_escaped {sendout : Bytes} (h : sendout.length ≤ maxSendSize - 2) (b : Byte) :
    ((push sendout b).bind fun sendout => double sendout b) = some (sendout ++ escaped b) := by
  have hroom : sendout.length + 1 < maxSendSize := by
    have : maxSendSize - 2 + 1 < maxSendSize := by decide
    omega
  rw [push_eq_some (by omega), Option.bind_some, double, escaped]
  by_cases hb : b = modeCommand
  · rw [if_pos hb, if_pos hb, push_eq_some (by simpa using hroom), List.append_assoc]
    rfl
  · rw [if_neg hb, if_neg hb]

/-- The loop ships these segments, and never leaves its buffer. -/
theorem sendbackDataLoop_eq (data : Bytes) (start n : Nat) (sendout resp : Bytes) (c : Connection σ)
    (h : sendout.length ≤ maxSendSize - 2) :
    sendbackDataLoop port data (start + n) start sendout resp c
      = some (ship port (segments data n sendout) resp c) := by
  induction data generalizing start n sendout resp c with
  | nil => rfl
  | cons b data ih =>
    rw [sendbackDataLoop]
    simp only [Option.bind_eq_bind]
    rw [← Option.bind_assoc, push_escaped h, Option.bind_some, segments]
    by_cases hfull : maxSendSize - 2 < (sendout ++ escaped b).length ∨ data = []
    · rw [if_pos hfull, if_pos hfull, ship, show start + n + 1 - start = n + 1 by omega]
      rcases port.write (sendout ++ escaped b) c.port with ⟨_ | _, s⟩
      · rfl
      · dsimp only
        rcases port.read (n + 1) s with ⟨_ | r, s'⟩
        · rfl
        · exact ih (start + n + 1) 0 [] (resp ++ r) _ (Nat.zero_le _)
    · rw [if_neg hfull, if_neg hfull]
      exact ih start (n + 1) (sendout ++ escaped b) resp c (by omega)

theorem decode_nil : decode .data [] = (.data, ([] : Bytes).map .data) := rfl

theorem bounded_segments {data : Bytes} {n : Nat} {sendout : Bytes}
    (h : sendout.length ≤ maxSendSize - 2) :
    ∀ seg ∈ segments data n sendout, seg.out.length ≤ maxSendSize := by
  induction data generalizing n sendout with
  | nil => nofun
  | cons b data ih =>
    have hlen : (sendout ++ escaped b).length ≤ maxSendSize := by
      have hb := length_escaped_le b
      have : maxSendSize - 2 + 2 = maxSendSize := rfl
      rw [List.length_append]
      omega
    rw [segments]
    split
    · intro seg hseg
      obtain rfl | hseg := List.mem_cons.mp hseg
      · exact hlen
      · exact ih (Nat.zero_le _) seg hseg
    · next hfull => exact ih (by omega)

/-- The data that are in `sendout` come before the others. -/
theorem decode_segments {m : ChipMode} {sent data : Bytes} {n : Nat} {sendout : Bytes}
    (hm : decode m sendout = (.data, sent.map .data)) (hne : data ≠ []) :
    decode m ((segments data n sendout).flatMap Segment.out) =
      (.data, (sent ++ data).map .data) := by
  induction data generalizing m n sendout sent with
  | nil => exact absurd rfl hne
  | cons b data ih =>
    have hb : decode m (sendout ++ escaped b) = (.data, (sent ++ [b]).map .data) := by
      rw [decode_append, hm, decode_escaped, List.map_append]
      rfl
    rw [segments]
    by_cases hdata : data = []
    · subst hdata
      rw [if_pos (.inr rfl), List.flatMap_cons, segments, List.flatMap_nil, List.append_nil, hb]
    · split
      · rw [List.flatMap_cons, decode_append, hb, ih decode_nil hdata, ← List.map_append,
          List.append_assoc]
        rfl
      · rw [ih hb hdata, List.append_assoc]
        rfl

theorem counted_segments {m : ChipMode} {sent data : Bytes} {sendout : Bytes}
    (hm : decode m sendout = (.data, sent.map .data)) {before after : List Segment} {seg : Segment}
    (h : segments data sent.length sendout = before ++ seg :: after) :
    (decode (decode m (before.flatMap Segment.out)).1 seg.out).2.length = seg.size := by
  induction data generalizing m sendout sent before with
  | nil => exact absurd h.symm (by simp [segments])
  | cons b data ih =>
    have hb : decode m (sendout ++ escaped b) = (.data, (sent ++ [b]).map .data) := by
      rw [decode_append, hm, decode_escaped, List.map_append]
      rfl
    rw [segments] at h
    split at h
    · cases before with
      | nil =>
        obtain ⟨rfl, -⟩ := List.cons.inj h
        rw [List.flatMap_nil, decode, hb, List.length_map, List.length_append]
        rfl
      | cons seg' before =>
        rw [List.cons_append] at h
        obtain ⟨rfl, htail⟩ := List.cons.inj h
        rw [List.flatMap_cons, decode_append, hb]
        exact ih decode_nil htail
    · exact ih hb (by rwa [List.length_append])

/-- What is done with the port when segments are shipped. -/
theorem ship_recorded {segs : List Segment} {resp resp' : Bytes} {c c' : Connection (σ × List Op)}
    {good : Bool} (h : ship port.recorded segs resp c = (good, resp', c')) :
    ∃ ops, c'.port.2 = c.port.2 ++ ops ∧ ops <+: segs.flatMap Segment.ops ∧
      (good = true → ops = segs.flatMap Segment.ops) ∧ c'.mode = c.mode := by
  induction segs generalizing resp c with
  | nil =>
    cases h
    exact ⟨[], (List.append_nil _).symm, List.nil_prefix, fun _ => rfl, rfl⟩
  | cons seg segs ih =>
    rw [ship] at h
    rcases hwrite : port.recorded.write seg.out c.port with ⟨_ | _, s⟩
    all_goals
      have hs : s.2 = c.port.2 ++ [.write seg.out] := (congrArg (fun x => x.2.2) hwrite).symm
      rw [hwrite] at h
      dsimp only at h
    · cases h
      refine ⟨[.write seg.out], hs, ⟨.read seg.size :: segs.flatMap Segment.ops, rfl⟩, nofun, rfl⟩
    · rcases hread : port.recorded.read seg.size s with ⟨_ | r, s'⟩
      all_goals
        have hs' : s'.2 = c.port.2 ++ seg.ops := by
          have := (congrArg (fun x => x.2.2) hread).symm
          rw [this]
          show s.2 ++ [.read seg.size] = _
          rw [hs, List.append_assoc]
          rfl
        rw [hread] at h
        dsimp only at h
      · cases h
        exact ⟨seg.ops, hs', ⟨segs.flatMap Segment.ops, rfl⟩, nofun, rfl⟩
      · obtain ⟨ops, hops, hbegins, hgood, hmode⟩ := ih h
        refine ⟨seg.ops ++ ops, ?_, ?_, ?_, hmode⟩
        · rw [hops, hs', List.append_assoc]
        · exact (List.prefix_append_right_inj seg.ops).mpr hbegins
        · intro h
          rw [hgood h]
          rfl

/-! ## A block of data -/

/-- What is written and read for a block of data, up to the first failure. -/
def Sends (m : ChipMode) (data : Bytes) (ops : List Op) (good : Bool) : Prop :=
  ∃ segs, Framed m data segs ∧ ops <+: segs.flatMap Segment.ops ∧
    (good = true → ops = segs.flatMap Segment.ops)

theorem written_append (xs ys : List Op) : written (xs ++ ys) = written xs ++ written ys :=
  List.flatMap_append

theorem written_segments (segs : List Segment) :
    written (segs.flatMap Segment.ops) = segs.flatMap Segment.out := by
  induction segs with
  | nil => rfl
  | cons seg segs ih =>
    have hseg : written seg.ops = seg.out := by simp [written, Segment.ops]
    rw [List.flatMap_cons, written_append, ih, hseg, List.flatMap_cons]

/-- Data are shipped from data mode. -/
theorem sendbackData_eq {data : Bytes} (hne : data ≠ []) (c : Connection σ) :
    ∃ sendout, sendout.length ≤ maxSendSize - 2 ∧
      decode c.mode.chip sendout = (.data, ([] : Bytes).map .data) ∧
      sendbackData port data c =
      some (ship port (segments data 0 sendout) [] { c with mode := .dataMode }) := by
  obtain ⟨mode, s⟩ := c
  cases mode with
  | dataMode =>
    refine ⟨[], Nat.zero_le _, rfl, ?_⟩
    rw [sendbackData, if_neg hne, if_neg (by simp)]
    exact sendbackDataLoop_eq port data 0 0 [] [] _ (Nat.zero_le _)
  | commandMode =>
    refine ⟨[modeData], by decide, rfl, ?_⟩
    rw [sendbackData, if_neg hne, if_pos (by simp), push_eq_some (by decide)]
    exact sendbackDataLoop_eq port data 0 0 [modeData] [] _ (by decide)

/-- The chip gets the data, segment by segment, and is in data mode then. -/
theorem sendbackData_recorded (data : Bytes) (c : Connection (σ × List Op)) :
    ∃ good resp c' ops, sendbackData port.recorded data c = some (good, resp, c') ∧
      c'.port.2 = c.port.2 ++ ops ∧ Sends c.mode.chip data ops good ∧
      (good = true → decode c.mode.chip (written ops) = (c'.mode.chip, data.map .data)) := by
  by_cases hne : data = []
  · subst hne
    have hnil : Framed c.mode.chip [] [] := ⟨nofun, rfl, by simp⟩
    exact ⟨true, [], c, [], rfl, (List.append_nil _).symm,
      ⟨[], hnil, List.prefix_rfl, fun _ => rfl⟩, fun _ => rfl⟩
  · obtain ⟨sendout, hlen, hsendout, heq⟩ := sendbackData_eq port.recorded hne c
    have hdecode := decode_segments (n := 0) hsendout hne
    rcases hship : ship port.recorded (segments data 0 sendout) [] { c with mode := .dataMode }
      with ⟨good, resp, c'⟩
    obtain ⟨ops, hops, hbegins, hgood, hmode⟩ := ship_recorded port hship
    refine ⟨good, resp, c', ops, heq.trans (congrArg some hship), hops, ?_, ?_⟩
    · exact ⟨segments data 0 sendout,
        ⟨bounded_segments hlen, congrArg Prod.snd hdecode, fun _ _ _ => counted_segments hsendout⟩,
        hbegins, hgood⟩
    · intro h
      rw [hgood h, written_segments, hdecode, hmode]
      rfl

/-! ## Commands -/

/-- A command that gets a response, or that the search starts and ends with. It does not change the
mode. -/
structure Command where
  code : Byte
  keepsMode : code ≠ modeData ∧ code ≠ modeCommand

/-- `DS2480b_speed_byte` -/
def speedByte (overdrive flex : Bool) : Byte :=
  if overdrive then 0x08 else if flex then 0x04 else 0x00

/-- `CMD_COMM | FUNCTSEL_RESET` -/
def Command.reset (overdrive flex : Bool) : Command :=
  ⟨0x81 ||| 0x40 ||| speedByte overdrive flex, by cases overdrive <;> cases flex <;> decide⟩

/-- `CMD_COMM | FUNCTSEL_SEARCHON` and `CMD_COMM | FUNCTSEL_SEARCHOFF` -/
def Command.search (on overdrive flex : Bool) : Command :=
  ⟨0x81 ||| (if on then 0x30 else 0x20) ||| speedByte overdrive flex,
    by cases on <;> cases overdrive <;> cases flex <;> decide⟩

/-- `CMD_COMM | FUNCTSEL_BIT`, with `BITPOL_ONE` and `PRIME5V_TRUE` -/
def Command.bit (one prime overdrive flex : Bool) : Command :=
  ⟨(if one then 0x10 else 0x00) ||| 0x81 ||| 0x00 ||| speedByte overdrive flex |||
    (if prime then 0x02 else 0x00),
      by cases one <;> cases prime <;> cases overdrive <;> cases flex <;> decide⟩

/-- `CMD_COMM | FUNCTSEL_CHMOD | BITPOL_12V | SPEEDSEL_PULSE` -/
def Command.programPulse : Command := ⟨0x81 ||| 0x60 ||| 0x10 ||| 0x0C, by decide⟩

/-- `CMD_CONFIG`, with a parameter (`PARMSEL_PARMREAD` is 0) and a value -/
def Command.config (parameter value : BitVec 3) : Command :=
  ⟨0x01 ||| parameter.zeroExtend 8 <<< 4 ||| value.zeroExtend 8 <<< 1,
    by revert parameter value; decide⟩

/-- The calls of the other functions of the driver. -/
inductive Call where
  | sendoutCmd (cmd : Command)
  | sendbackCmd (cmd : List Command)
  | sendbackData (data : Bytes)

/-- What the chip should get. -/
def Call.events : Call → List Event
  | .sendoutCmd cmd => [.command cmd.code]
  | .sendbackCmd cmd => cmd.map fun cmd => .command cmd.code
  | .sendbackData data => data.map .data

/-- A call, if it is successful. -/
def Call.succeed (call : Call) (c : Connection σ) : Option (Connection σ) :=
  match call with
  | .sendoutCmd cmd =>
    match Ds2480.sendoutCmd port [cmd.code] c with
    | (true, c) => some c
    | (false, _) => none
  | .sendbackCmd cmd =>
    match Ds2480.sendbackCmd port (cmd.map Command.code) c with
    | (true, _, c) => some c
    | (false, _, _) => none
  | .sendbackData data =>
    match Ds2480.sendbackData port data c with
    | some (true, _, c) => some c
    | _ => none

/-- Calls that are all successful. -/
def runCalls : List Call → Connection σ → Option (Connection σ)
  | [], c => some c
  | call :: calls, c => (call.succeed port c).bind (runCalls calls)

/-! ## Runs -/

section

variable {port} {c c' : Connection (σ × List Op)}

/-- Between two states the chip got these events, and its mode was followed. -/
def Follows (c c' : Connection (σ × List Op)) (events : List Event) : Prop :=
  ∃ ops, c'.port.2 = c.port.2 ++ ops ∧ decode c.mode.chip (written ops) = (c'.mode.chip, events)

theorem Follows.refl (c : Connection (σ × List Op)) : Follows c c [] :=
  ⟨[], (List.append_nil _).symm, rfl⟩

theorem Follows.trans {c₁ c₂ c₃ : Connection (σ × List Op)} {xs ys : List Event}
    (h : Follows c₁ c₂ xs) (h' : Follows c₂ c₃ ys) : Follows c₁ c₃ (xs ++ ys) := by
  obtain ⟨ops, hops, hdecode⟩ := h
  obtain ⟨ops', hops', hdecode'⟩ := h'
  refine ⟨ops ++ ops', by rw [hops', hops, List.append_assoc], ?_⟩
  rw [written_append, decode_append, hdecode, hdecode']

/-- Reading does not matter to the chip. -/
theorem Follows.read (port : Port σ) {xs : List Event} (h : Follows c c' xs) (n : Nat) :
    Follows c { c' with port := (port.recorded.read n c'.port).2 } xs := by
  obtain ⟨ops, hops, hdecode⟩ := h
  refine ⟨ops ++ [.read n], ?_, ?_⟩
  · show c'.port.2 ++ [.read n] = _
    rw [hops, List.append_assoc]
  · rw [written_append]
    show decode c.mode.chip (written ops ++ []) = _
    rw [List.append_nil, hdecode]

theorem follows_sendoutCmd (port : Port σ) {cmd : Bytes} (hne : cmd ≠ [])
    (hcmd : ∀ b ∈ cmd, b ≠ modeData ∧ b ≠ modeCommand) (c : Connection (σ × List Op)) :
    Follows c (sendoutCmd port.recorded cmd c).2 (cmd.map .command) := by
  obtain ⟨mode, s, ops⟩ := c
  cases mode with
  | commandMode =>
    refine ⟨[.write cmd], rfl, ?_⟩
    rw [show written [.write cmd] = cmd from List.append_nil cmd]
    exact decode_commands hcmd
  | dataMode =>
    refine ⟨[.write (modeCommand :: cmd)], rfl, ?_⟩
    rw [show written [.write (modeCommand :: cmd)] = modeCommand :: cmd from List.append_nil _]
    exact decode_modeCommand hne hcmd

theorem follows_sendbackCmdLoop {cmd : Bytes} (hcmd : ∀ b ∈ cmd, b ≠ modeData ∧ b ≠ modeCommand)
    {extra : Bool} {resp resp' : Bytes}
    (h : sendbackCmdLoop port.recorded cmd extra resp c = (true, resp', c')) :
    Follows c c' (cmd.map .command) := by
  induction hlen : cmd.length using Nat.strong_induction_on generalizing cmd extra resp c with
  | _ n ih =>
    subst hlen
    rw [sendbackCmdLoop] at h
    by_cases hne : cmd = []
    · subst hne
      cases h
      exact Follows.refl _
    · rw [dif_neg hne] at h
      dsimp only at h
      generalize hk : (if maxSendSize - extra.toNat < cmd.length then maxSendSize - extra.toNat
        else cmd.length) = k at h
      have hpos : 0 < k := by
        have : 0 < cmd.length := List.length_pos_iff.mpr hne
        have : 0 < maxSendSize - extra.toNat := by cases extra <;> decide
        split at hk <;> omega
      have hhead : Follows c (sendoutCmd port.recorded (cmd.take k) c).2
          ((cmd.take k).map .command) :=
        follows_sendoutCmd port (List.take_eq_nil_iff.not.mpr (by simp [hne, Nat.ne_of_gt hpos]))
          (fun b hb => hcmd b (List.mem_of_mem_take hb)) c
      rcases hsend : sendoutCmd port.recorded (cmd.take k) c with ⟨_ | _, c₁⟩
      · rw [hsend] at h
        cases h
      · rw [hsend] at h hhead
        dsimp only at h
        have hread := hhead.read port k
        rcases heq : port.recorded.read k c₁.port with ⟨_ | r, s⟩
        · rw [heq] at h
          cases h
        · rw [heq] at h hread
          have htail := ih (cmd.drop k).length (by
            have : 0 < cmd.length := List.length_pos_iff.mpr hne
            rw [List.length_drop]
            omega) (fun b hb => hcmd b (List.mem_of_mem_drop hb)) h rfl
          have := hread.trans htail
          rwa [← List.map_append, List.take_append_drop] at this

theorem follows_succeed {call : Call} (h : call.succeed port.recorded c = some c') :
    Follows c c' call.events := by
  cases call with
  | sendoutCmd cmd =>
    have hsend := follows_sendoutCmd port (List.cons_ne_nil cmd.code [])
      (by intro b hb; rw [List.mem_singleton.mp hb]; exact cmd.keepsMode) c
    rw [Call.succeed] at h
    rcases heq : sendoutCmd port.recorded [cmd.code] c with ⟨_ | _, c₁⟩
    · rw [heq] at h
      cases h
    · rw [heq] at h hsend
      cases h
      exact hsend
  | sendbackCmd cmd =>
    rw [Call.succeed, sendbackCmd] at h
    rcases heq : sendbackCmdLoop port.recorded (cmd.map Command.code) (c.mode ≠ .commandMode) [] c
      with ⟨_ | _, resp, c₁⟩
    · rw [heq] at h
      cases h
    · rw [heq] at h
      cases h
      have hcmd : ∀ b ∈ cmd.map Command.code, b ≠ modeData ∧ b ≠ modeCommand := by
        intro b hb
        obtain ⟨x, -, rfl⟩ := List.mem_map.mp hb
        exact x.keepsMode
      have hloop := follows_sendbackCmdLoop hcmd heq
      rwa [List.map_map] at hloop
  | sendbackData data =>
    obtain ⟨good, resp, c₁, ops, heq, hops, -, hgood⟩ := sendbackData_recorded port data c
    rw [Call.succeed, heq] at h
    cases good with
    | false => cases h
    | true =>
      cases h
      exact ⟨ops, hops, hgood rfl⟩

theorem follows_runCalls {calls : List Call} (h : runCalls port.recorded calls c = some c') :
    Follows c c' (calls.flatMap Call.events) := by
  induction calls generalizing c with
  | nil =>
    cases h
    exact Follows.refl _
  | cons call calls ih =>
    obtain ⟨c₁, hcall, hrest⟩ := Option.bind_eq_some_iff.mp h
    exact (follows_succeed hcall).trans (ih hrest)

end

/-- **What is written is what the chip gets.** Data come in segments that fit into the buffer, with
as many responses as data; and after calls that were successful the chip got what they were for, and
is in the mode that is remembered. -/
theorem sendback_framed (port : Port σ) (mode : Ds2480bMode) (s : σ) :
    (∀ data, ∃ good resp c', sendbackData port.recorded data ⟨mode, s, []⟩ = some (good, resp, c') ∧
        Sends mode.chip data c'.port.2 good) ∧
      ∀ calls c', runCalls port.recorded calls ⟨mode, s, []⟩ = some c' →
        decode mode.chip (written c'.port.2) = (c'.mode.chip, calls.flatMap Call.events) := by
  refine ⟨fun data => ?_, fun calls c' h => ?_⟩
  · obtain ⟨good, resp, c', ops, heq, hops, hsends, -⟩ :=
      sendbackData_recorded port data ⟨mode, s, []⟩
    exact ⟨good, resp, c', heq, by rwa [hops]⟩
  · obtain ⟨ops, hops, hdecode⟩ := follows_runCalls h
    rwa [hops]

/-- A port that always works, and the calls of a search. -/
def workingPort : Port Unit := ⟨fun _ _ => (true, ()), fun n _ => (some (List.replicate n 0), ())⟩

def searchCalls : List Call :=
  [.sendbackCmd [.reset false false], .sendbackData [0xF0], .sendoutCmd (.search true false false),
    .sendbackData [0x00, 0xE3, 0x00], .sendoutCmd (.search false false false)]

theorem sendback_framed_searchCalls :
    ∃ c', runCalls workingPort.recorded searchCalls ⟨.commandMode, (), []⟩ = some c' ∧
      decode .command (written c'.port.2) = (c'.mode.chip, searchCalls.flatMap Call.events) := by
  have hreset : (Call.sendbackCmd [.reset false false]).succeed workingPort.recorded
      ⟨.commandMode, (), []⟩
      = some ⟨.commandMode, (), [.write [0xC1], .read 1]⟩ := by
    simp [Call.succeed, sendbackCmd, sendbackCmdLoop, sendoutCmd, workingPort, Port.recorded,
      maxSendSize, Command.reset, speedByte]
  have hrun : ∃ c', runCalls workingPort.recorded searchCalls ⟨.commandMode, (), []⟩ = some c' := by
    rw [searchCalls, runCalls, hreset]
    exact ⟨_, rfl⟩
  obtain ⟨c', hc'⟩ := hrun
  exact ⟨c', hc', (sendback_framed workingPort .commandMode ()).2 searchCalls c' hc'⟩

end Owfs.Ds2480
