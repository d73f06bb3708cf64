import Owfs.Infra.Record

/-!
# Messages to and from the kernel's w1 driver

A message has three headers, of the netlink, of the connector and of the w1 driver, and for commands
a fourth. Each has a length field of its own. `W1_send_msg` writes them, `Netlink_Parse_Buffer`
checks a message that was received and finds its parts.

The parser compares the outermost length with the three headers only. It never asks whether a
fourth header is there, nor whether the length that the innermost header gives is.
-/

namespace Owfs.Bus.Netlink

open Infra

/-! ## Layout -/

/-- `enum w1_netlink_message_types` -/
inductive W1Type where
  | slaveAdd
  | slaveRemove
  | masterAdd
  | masterRemove
  | masterCmd
  | slaveCmd
  | listMasters
deriving DecidableEq

/-- The number of a type. -/
def W1Type.code : W1Type → Byte
  | .slaveAdd => 0
  | .slaveRemove => 1
  | .masterAdd => 2
  | .masterRemove => 3
  | .masterCmd => 4
  | .slaveCmd => 5
  | .listMasters => 6

/-- The type of a number, if it is one. -/
def w1Type (b : Byte) : Option W1Type :=
  if b = 0 then some .slaveAdd
  else if b = 1 then some .slaveRemove
  else if b = 2 then some .masterAdd
  else if b = 3 then some .masterRemove
  else if b = 4 then some .masterCmd
  else if b = 5 then some .slaveCmd
  else if b = 6 then some .listMasters
  else none

/-- The types with a command header. -/
def W1Type.hasCommand : W1Type → Bool
  | .masterCmd => true
  | .slaveCmd => true
  | _ => false

/-- `W1_NLM_LENGTH`, `W1_CN_LENGTH`, `W1_W1M_LENGTH`, `W1_W1C_LENGTH` -/
def nlmLength : Nat := 16
@[inherit_doc nlmLength] def cnLength : Nat := 20
@[inherit_doc nlmLength] def w1mLength : Nat := 12
@[inherit_doc nlmLength] def w1cLength : Nat := 4

/-- `NLMSG_DONE` -/
def nlmsgDone : Nat := 3

section Fields

variable (mem : Mem)

/-! The message starts at address 0. -/

/-- `nlm->nlmsg_len` -/
def nlmsgLen : Nat := mem.word 0 4
/-- `nlm->nlmsg_type` -/
def nlmsgType : Nat := mem.word 4 2
/-- `nlm->nlmsg_seq` -/
def nlmsgSeq : Nat := mem.word 8 4
/-- `nlm->nlmsg_pid` -/
def nlmsgPid : Nat := mem.word 12 4
/-- `cn->seq` -/
def cnSeq : Nat := mem.word 24 4
/-- `w1m->type` -/
def w1mType : Byte := mem 36
/-- `w1m->len` -/
def w1mLen : Nat := mem.word 38 2
/-- `w1m->id` -/
def w1mId : Bytes := mem.read 40 8
/-- `w1c->len` -/
def w1cLen : Nat := mem.word 50 2

end Fields

/-! ## `Netlink_Parse_Buffer` -/

/-- The fields of `struct netlink_parse` that depend on the message. Pointers are given relative to
the message; `cn` and `w1m` always point to 16 and 36. -/
structure NetlinkParse where
  w1c : Option Int
  data : Option Int
  dataSize : Int
deriving DecidableEq

/-- `NLMSG_OK` -/
def nlmsgOk (nlmsgLen len : Nat) : Bool := nlmLength ≤ len && nlmLength ≤ nlmsgLen && nlmsgLen ≤ len

/-- The `switch` over the type. It has no case for other types, which leave what there was. -/
def findData (nlp : NetlinkParse) (mem : Mem) : NetlinkParse :=
  match w1Type (w1mType mem) with
  | some type =>
    if type.hasCommand then { w1c := some 48, data := some 52, dataSize := w1cLen mem }
    else { w1c := none, data := some 48, dataSize := w1mLen mem }
  | none => nlp

/-- No data is a NULL pointer. -/
def NetlinkParse.clean (nlp : NetlinkParse) : NetlinkParse :=
  if nlp.dataSize = 0 then { nlp with data := none } else nlp

/-- `Netlink_Parse_Buffer`. `nlp` is the structure as it was before. -/
def netlinkParseBuffer (nlp : NetlinkParse) (mem : Mem) : Option NetlinkParse :=
  if ¬ nlmsgOk (nlmsgLen mem) (nlmsgLen mem) then none
  else if nlmsgPid mem ≠ 0 then none
  else if nlmsgType mem ≠ nlmsgDone then none
  else if nlmsgLen mem < nlmLength + cnLength + w1mLength then none
  else if nlmsgSeq mem ≠ cnSeq mem then none
  else some (findData nlp mem).clean

/-! ## `W1_send_msg` -/

/-- What `W1_send_msg` is called with: the message, with a command or without, and its data. -/
structure W1Message where
  bus : Nat
  seq : Nat
  pid : Nat
  type : W1Type
  status : Byte
  id : Bytes
  length_id : id.length = 8
  command : Option (Byte × Byte)
  data : Bytes

namespace W1Message

variable (m : W1Message)

/-- `MAKE_NL_SEQ` -/
def nlSeq : Nat := m.bus % 2 ^ 16 * 2 ^ 16 + m.seq % 2 ^ 16

/-- `nlm_payload` -/
def nlmPayload : Nat :=
  cnLength + w1mLength + (if m.command.isSome then w1cLength else 0) + m.data.length

/-- `cn->len`, a 16-bit field. -/
def cnLen : Nat := (m.nlmPayload - cnLength) % 2 ^ 16

/-- The command header. -/
def commandHeader : Bytes :=
  match m.command with
  | some (cmd, res) => [cmd, res] ++ wordBytes 2 m.data.length
  | none => []

/-- The message header of the w1 driver; `len` is a 16-bit field. -/
def w1mHeader : Bytes :=
  [m.type.code, m.status] ++ wordBytes 2 (m.cnLen + 2 ^ 16 - w1mLength) ++ m.id

/-- The connector header: `CN_W1_IDX` and `CN_W1_VAL` of `connector.h`, which is included before
`w1_netlink.h` with its own values. -/
def cnHeader : Bytes :=
  wordBytes 4 3 ++ wordBytes 4 1 ++ wordBytes 4 m.nlSeq ++ wordBytes 4 m.nlSeq ++
    wordBytes 2 m.cnLen ++ wordBytes 2 0

/-- The netlink header: `NLMSG_LENGTH`, `NLMSG_DONE`, `NLM_F_REQUEST | NLM_F_ACK`. -/
def nlmHeader : Bytes :=
  wordBytes 4 (m.nlmPayload + nlmLength) ++ wordBytes 2 nlmsgDone ++ wordBytes 2 5 ++
    wordBytes 4 m.nlSeq ++
    wordBytes 4 m.pid

/-- The bytes that `W1_send_msg` sends, up to `nlmsg_len`; `NLMSG_SPACE` fills up with zeros. -/
def bytes : Bytes := m.nlmHeader ++ m.cnHeader ++ m.w1mHeader ++ m.commandHeader ++ m.data

/-- The lengths fit the 16-bit length fields. -/
def Fits : Prop := m.nlmPayload - cnLength < 2 ^ 16

end W1Message

/-- The pid field set to 0, as in a reply of the kernel. -/
def fromKernel (b : Bytes) : Bytes := b.take 12 ++ wordBytes 4 0 ++ b.drop 16

/-! ## What is to be shown -/

/-- The parts of a message lie inside its `n` bytes. -/
structure NetlinkParse.InBounds (nlp : NetlinkParse) (n : Nat) : Prop where
  w1m : 36 + w1mLength ≤ n
  w1c : ∀ p ∈ nlp.w1c, 0 ≤ p ∧ p + w1cLength ≤ n
  data : ∀ p ∈ nlp.data, 0 ≤ p ∧ p + nlp.dataSize ≤ n

/-- The length that the innermost header gives is there. For a type that is none, it is what was in
the structure before. -/
def InnerLengthFits (nlp : NetlinkParse) (mem : Mem) : Prop :=
  match w1Type (w1mType mem) with
  | some type =>
    if type.hasCommand then nlmLength + cnLength + w1mLength + w1cLength + w1cLen mem ≤ nlmsgLen mem
    else nlmLength + cnLength + w1mLength + w1mLen mem ≤ nlmsgLen mem
  | none =>
    (∀ p ∈ nlp.w1c, 0 ≤ p ∧ p + w1cLength ≤ nlmsgLen mem) ∧
      (nlp.dataSize ≠ 0 → ∀ p ∈ nlp.data, 0 ≤ p ∧ p + nlp.dataSize ≤ nlmsgLen mem)

/-- The command and the data that the parser has found. -/
def NetlinkParse.command (nlp : NetlinkParse) (mem : Mem) : Option (Byte × Byte) :=
  nlp.w1c.map fun p => (mem p.toNat, mem (p.toNat + 1))

@[inherit_doc NetlinkParse.command]
def NetlinkParse.dataBytes (nlp : NetlinkParse) (mem : Mem) : Bytes :=
  match nlp.data with
  | some p => mem.read p.toNat nlp.dataSize.toNat
  | none => []

/-- A message comes back as it was sent, whatever stands behind it in memory. -/
def W1Message.RoundTrip (m : W1Message) : Prop :=
  ∀ nlp mem, mem.At 0 (fromKernel m.bytes) → ∃ nlp', netlinkParseBuffer nlp mem = some nlp' ∧
    w1Type (w1mType mem) = some m.type ∧ w1mId mem = m.id ∧ nlp'.command mem = m.command ∧
    nlp'.dataBytes mem = m.data

/-! ## Bounds -/

variable {nlp nlp' : NetlinkParse} {mem : Mem}

/-- What an accepted message has passed. -/
theorem netlinkParseBuffer_eq_some (h : netlinkParseBuffer nlp mem = some nlp') :
    nlmLength + cnLength + w1mLength ≤ nlmsgLen mem ∧
      nlp' = (findData nlp mem).clean := by
  unfold netlinkParseBuffer at h
  split at h
  · cases h
  split at h
  · cases h
  split at h
  · cases h
  split at h
  · cases h
  rename_i hlen
  split at h
  · cases h
  exact ⟨Nat.not_lt.mp hlen, (Option.some.inj h).symm⟩

theorem clean_inBounds_iff {n : Nat} (hlen : 36 + w1mLength ≤ n) :
    nlp.clean.InBounds n ↔ (∀ p ∈ nlp.w1c, 0 ≤ p ∧ p + w1cLength ≤ n) ∧
      (nlp.dataSize ≠ 0 → ∀ p ∈ nlp.data, 0 ≤ p ∧ p + nlp.dataSize ≤ n) := by
  unfold NetlinkParse.clean
  by_cases hsize : nlp.dataSize = 0
  · rw [if_pos hsize]
    constructor
    · rintro ⟨-, hw1c, -⟩
      exact ⟨hw1c, fun hne => absurd hsize hne⟩
    · rintro ⟨hw1c, -⟩
      exact ⟨hlen, hw1c, by rintro p ⟨⟩⟩
  · rw [if_neg hsize]
    constructor
    · rintro ⟨-, hw1c, hdata⟩
      exact ⟨hw1c, fun _ => hdata⟩
    · rintro ⟨hw1c, hdata⟩
      exact ⟨hlen, hw1c, hdata hsize⟩

/-- **An accepted message lies inside its bytes if and only if the innermost length does.** -/
theorem inBounds_iff (h : netlinkParseBuffer nlp mem = some nlp') :
    nlp'.InBounds (nlmsgLen mem) ↔ InnerLengthFits nlp mem := by
  obtain ⟨hlen, rfl⟩ := netlinkParseBuffer_eq_some h
  have hlen : 48 ≤ nlmsgLen mem := hlen
  rw [clean_inBounds_iff hlen]
  unfold findData InnerLengthFits
  cases w1Type (w1mType mem) with
  | none => exact Iff.rfl
  | some type =>
    dsimp only
    split
    · simp only [Option.mem_some_iff, forall_eq', nlmLength, cnLength, w1mLength, w1cLength]
      constructor
      · rintro ⟨⟨-, hheader⟩, hdata⟩
        by_cases hsize : w1cLen mem = 0
        · omega
        · have := hdata (by omega)
          omega
      · intro hfits
        exact ⟨by omega, fun _ => by omega⟩
    · simp only [Option.mem_some_iff, forall_eq', nlmLength, cnLength, w1mLength]
      constructor
      · rintro ⟨-, hdata⟩
        by_cases hsize : w1mLen mem = 0
        · omega
        · have := hdata (by omega)
          omega
      · intro hfits
        exact ⟨by rintro p ⟨⟩, fun _ => by omega⟩

/-! ## Round trip -/

theorem w1Type_code (t : W1Type) : w1Type t.code = some t := by cases t <;> decide

namespace W1Message

variable {m : W1Message}

theorem fromKernel_bytes : fromKernel m.bytes = { m with pid := 0 }.bytes := by
  have hsplit (p : Nat) : { m with pid := p }.bytes
      = (wordBytes 4 (m.nlmPayload + nlmLength) ++ wordBytes 2 nlmsgDone ++ wordBytes 2 5 ++
        wordBytes 4 m.nlSeq) ++
        (wordBytes 4 p ++ (m.cnHeader ++ m.w1mHeader ++ m.commandHeader ++ m.data)) := by
    simp only [bytes, nlmHeader, List.append_assoc]
    rfl
  have hself := hsplit m.pid
  have htake {x y : Bytes} (hx : x.length = 12) :
      (x ++ y).take 12 = x := by rw [← hx, List.take_left]
  have hdrop {x y z : Bytes} (hx : x.length = 12) (hy : y.length = 4) :
      (x ++ (y ++ z)).drop 16 = z := by
    rw [← List.append_assoc]
    exact List.drop_left' (by rw [List.length_append, hx, hy])
  rw [hsplit 0, fromKernel, hself, htake (by simp), hdrop (by simp) (by simp), List.append_assoc]

/-- The fields of a message in memory. -/
structure Stands (m : W1Message) (mem : Mem) : Prop where
  nlmsgLen : nlmsgLen mem = (m.nlmPayload + nlmLength) % 256 ^ 4
  nlmsgType : nlmsgType mem = nlmsgDone
  nlmsgSeq : nlmsgSeq mem = cnSeq mem
  nlmsgPid : nlmsgPid mem = 0
  type : w1mType mem = m.type.code
  w1mLen : w1mLen mem = (m.cnLen + 2 ^ 16 - w1mLength) % 256 ^ 2
  id : w1mId mem = m.id
  rest : mem.At 48 (m.commandHeader ++ m.data)

theorem stands {mem : Mem} (h : mem.At 0 (fromKernel m.bytes)) : m.Stands mem := by
  rw [fromKernel_bytes, bytes, List.append_assoc, List.append_assoc, List.append_assoc,
    Mem.at_append, Mem.at_append, Mem.at_append] at h
  obtain ⟨hnlm, hcn, hw1m, hrest⟩ := h
  have hlen : m.id.length = 8 := m.length_id
  simp only [nlmHeader, cnHeader, w1mHeader, Mem.at_append, Mem.at_cons, List.length_append,
    length_wordBytes, List.length_cons, List.length_nil, hlen, Nat.reduceAdd,
    Nat.zero_add] at hnlm hcn hw1m hrest
  obtain ⟨⟨⟨⟨hlength, htype⟩, -⟩, hseq⟩, hpid⟩ := hnlm
  obtain ⟨⟨⟨⟨-, hcnseq⟩, -⟩, -⟩, -⟩ := hcn
  obtain ⟨⟨⟨hw1type, -⟩, hw1len⟩, hid⟩ := hw1m
  refine ⟨Mem.word_of_at hlength, Mem.word_of_at htype, ?_, Mem.word_of_at hpid, hw1type,
    Mem.word_of_at hw1len, ?_, Mem.at_append.mpr hrest⟩
  · exact (Mem.word_of_at hseq).trans (Mem.word_of_at hcnseq).symm
  · rw [Mem.At, hlen] at hid
    exact hid

/-- The parser accepts what was sent. -/
theorem Stands.accepted {mem : Mem} (h : m.Stands mem) (hfits : m.Fits) (nlp : NetlinkParse) :
    netlinkParseBuffer nlp mem = some (findData nlp mem).clean := by
  have hfits : m.nlmPayload - 20 < 2 ^ 16 := hfits
  have hpayload : 32 ≤ m.nlmPayload := by
    simp only [nlmPayload, cnLength, w1mLength]
    omega
  have hlen : Netlink.nlmsgLen mem = m.nlmPayload + 16 :=
    h.nlmsgLen.trans (Nat.mod_eq_of_lt (by simp only [nlmLength]; omega))
  have hok : nlmsgOk (Netlink.nlmsgLen mem) (Netlink.nlmsgLen mem) = true := by
    simp only [nlmsgOk, nlmLength, hlen, Bool.and_eq_true, decide_eq_true_eq]
    omega
  rw [netlinkParseBuffer, if_neg (not_not.mpr hok), if_neg (not_not.mpr h.nlmsgPid),
    if_neg (not_not.mpr h.nlmsgType), if_neg, if_neg (not_not.mpr h.nlmsgSeq)]
  simp only [nlmLength, cnLength, w1mLength, hlen]
  omega

theorem dataBytes_clean {nlp : NetlinkParse} {mem : Mem} {a : Nat} {d : Bytes}
    (hdata : nlp.data = some (a : Int)) (hsize : nlp.dataSize = d.length) (hat : mem.At a d) :
    nlp.clean.dataBytes mem = d := by
  unfold NetlinkParse.clean
  by_cases hzero : nlp.dataSize = 0
  · have hd : d = [] := List.length_eq_zero_iff.mp (by omega)
    rw [if_pos hzero, hd]
    rfl
  · rw [if_neg hzero, NetlinkParse.dataBytes, hdata, hsize]
    exact hat

theorem command_clean (nlp : NetlinkParse) (mem : Mem) :
    nlp.clean.command mem = nlp.command mem := by
  unfold NetlinkParse.clean
  split <;> rfl

/-- **A message comes back if and only if a command is sent with the types that have one.** -/
theorem roundTrip_iff (hfits : m.Fits) : m.RoundTrip ↔ m.command.isSome = m.type.hasCommand := by
  constructor
  · intro h
    let mem : Mem := fun i => (fromKernel m.bytes).getD i 0
    have hat : mem.At 0 (fromKernel m.bytes) := by
      refine List.ext_getElem (Mem.length_read _ _ _) fun i hi hi' => ?_
      simp only [mem, Mem.read, List.getElem_map, List.getElem_range, Nat.zero_add,
        List.getD_eq_getElem?_getD, List.getElem?_eq_getElem hi', Option.getD_some]
    obtain ⟨nlp', haccepted, htype, -, hcommand, -⟩ := h ⟨none, none, 0⟩ mem hat
    rw [(stands hat).accepted hfits] at haccepted
    rw [← Option.some.inj haccepted, command_clean, findData, htype] at hcommand
    rw [← hcommand]
    dsimp only
    cases hcmd : m.type.hasCommand with
    | true => rfl
    | false => rfl
  · intro hcommand nlp mem hat
    have hstands := stands hat
    have hw1type : w1Type (w1mType mem) = some m.type := by rw [hstands.type, w1Type_code]
    have hrest := hstands.rest
    refine ⟨_, hstands.accepted hfits nlp, hw1type, hstands.id, ?_⟩
    rw [command_clean]
    unfold findData
    rw [hw1type]
    dsimp only
    have hfits : m.nlmPayload - 20 < 2 ^ 16 := hfits
    cases hm : m.command with
    | some c =>
      obtain ⟨cmd, res⟩ := c
      rw [← hcommand, hm]
      have hpayload : m.nlmPayload = 36 + m.data.length := by
        simp only [nlmPayload, hm, Option.isSome_some, if_pos, cnLength, w1mLength, w1cLength]
      rw [commandHeader, hm] at hrest
      simp only [List.cons_append, List.nil_append, Mem.at_cons, Mem.at_append, length_wordBytes,
        Nat.reduceAdd] at hrest
      obtain ⟨hcmd, hres, hlen, hdata⟩ := hrest
      have hw1c : w1cLen mem = m.data.length :=
        (Mem.word_of_at hlen).trans (Nat.mod_eq_of_lt (by omega))
      refine ⟨?_, dataBytes_clean rfl ?_ hdata⟩
      · show some (mem 48, mem 49) = some (cmd, res)
        rw [hcmd, hres]
      · show (w1cLen mem : Int) = _
        rw [hw1c]
    | none =>
      rw [← hcommand, hm]
      have hpayload : m.nlmPayload = 32 + m.data.length := by
        simp only [nlmPayload, hm, Option.isSome_none, Bool.false_eq_true, if_false, cnLength,
          w1mLength]
      rw [commandHeader, hm, List.nil_append] at hrest
      have hw1m : Netlink.w1mLen mem = m.data.length := by
        have hcn : m.cnLen = 12 + m.data.length := by
          rw [cnLen, cnLength, hpayload, Nat.mod_eq_of_lt (by omega)]
          omega
        rw [hstands.w1mLen, hcn, w1mLength]
        omega
      refine ⟨rfl, dataBytes_clean rfl ?_ hrest⟩
      show (Netlink.w1mLen mem : Int) = _
      rw [hw1m]

end W1Message

/-- **Bounds and round trip of the messages.** -/
theorem parse_bounds_and_roundTrip (nlp : NetlinkParse) (mem : Mem) (m : W1Message) :
    (∀ nlp', netlinkParseBuffer nlp mem = some nlp' →
      (nlp'.InBounds (nlmsgLen mem) ↔ InnerLengthFits nlp mem)) ∧
    (m.Fits → (m.RoundTrip ↔ m.command.isSome = m.type.hasCommand)) :=
  ⟨fun _ h => inBounds_iff h, fun hfits => W1Message.roundTrip_iff hfits⟩

/-- A reset of bus master 1. -/
def resetMessage : W1Message :=
  ⟨1, 7, 0, .masterCmd, 0, [1, 0, 0, 0, 0, 0, 0, 0], rfl, some (5, 0), []⟩

/-- A command without its header: the message ends behind the third header. -/
def headless : Mem := fun i =>
  (wordBytes 4 48 ++ wordBytes 2 3 ++ wordBytes 2 0 ++ wordBytes 4 7 ++ wordBytes 4 0 ++
    (wordBytes 4 4 ++ wordBytes 4 1 ++ wordBytes 4 7 ++ wordBytes 4 0 ++ wordBytes 2 12 ++
    wordBytes 2 0) ++
    ([4, 0] ++ wordBytes 2 0 ++ [1, 0, 0, 0, 0, 0, 0, 0])).getD i 0

theorem parse_bounds_and_roundTrip_samples :
    resetMessage.RoundTrip ∧
      (NetlinkParse.InBounds ⟨some 48, none, 0⟩ (nlmsgLen headless) ↔
      InnerLengthFits ⟨none, none, 0⟩ headless) :=
  ⟨((parse_bounds_and_roundTrip ⟨none, none, 0⟩ headless resetMessage).2
      (by show (16 : Nat) < 2 ^ 16; decide)).mpr rfl,
    (parse_bounds_and_roundTrip ⟨none, none, 0⟩ headless resetMessage).1 _ (by decide)⟩

/-- Such a message is accepted, and its command header is said to stand behind its end. -/
theorem headless_accepted :
    nlmsgLen headless = 48 ∧ netlinkParseBuffer ⟨none, none, 0⟩ headless = some ⟨some 48, none, 0⟩ ∧
      ¬ NetlinkParse.InBounds ⟨some 48, none, 0⟩ 48 := by
  refine ⟨by decide, by decide, fun h => ?_⟩
  exact absurd (h.w1c 48 rfl).2 (by decide)

end Owfs.Bus.Netlink
