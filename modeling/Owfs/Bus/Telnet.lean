import Mathlib.Data.List.Count
import Mathlib.Logic.Relation
import Owfs.Infra.Bytes

/-!
# Telnet

An adapter behind a terminal server is reached by telnet. `telnet_write_binary`
(`ow_telnet_write.c`) sends the byte 255 twice, because a single one starts a command. `telnet_read`
(`ow_read_telnet.c`) takes the commands of the peer out again.

It does not know how long the commands are. It fetches as many bytes as it still needs, and some
more when it is within a command. This goes wrong in three ways. Between the two bytes of a 255 one
byte more is fetched, which belongs to what comes later if the rest of the block is plain. Behind
the start of a sub-negotiation more can be fetched than the buffer holds. And not all
sub-negotiations are understood.

The connection is open here, and bytes that do not come in time are not in the input.
-/

namespace Owfs.Telnet

open Infra

/-! ## The code -/

/-- `TELNET_IAC` -/
def telnetIAC : Byte := 255

/-- `TELNET_DONT` -/
def telnetDONT : Byte := 254

/-- `TELNET_DO` -/
def telnetDO : Byte := 253

/-- `TELNET_WONT` -/
def telnetWONT : Byte := 252

/-- `TELNET_WILL` -/
def telnetWILL : Byte := 251

/-- `TELNET_SB` -/
def telnetSB : Byte := 250

/-- `TELNET_SE` -/
def telnetSE : Byte := 240

/-- From `TELNET_EOF` to `TELNET_GA`, `TELNET_SE` among them. -/
def twoByteCommands : List Byte :=
  [236, 237, 238, 239, 240, 241, 242, 243, 244, 245, 246, 247, 248, 249]

/-- What `telnet_write_binary` sends. -/
def telnetWriteBinary : (buf : Bytes) → Bytes
  | [] => []
  | c :: buf => (if c = telnetIAC then [telnetIAC] else []) ++ c :: telnetWriteBinary buf

/-- The states of `telnet_read` -/
inductive TelnetReadState where
  | telnetRegular
  | telnetIac
  | telnetSb
  | telnetSbOpt
  | telnetSbVal
  | telnetSbIac
  | telnetWill
  | telnetWont
  | telnetDo
  | telnetDont
  deriving DecidableEq

/-- How many characters are read on top of those that are still needed. -/
def TelnetReadState.extra : TelnetReadState → Nat
  | .telnetSb => 4
  | .telnetSbOpt => 3
  | .telnetSbVal => 2
  | .telnetIac | .telnetSbIac | .telnetWill | .telnetWont | .telnetDo | .telnetDont => 1
  | .telnetRegular => 0

/-- The large `switch`: the state then, and the byte for `buf` if there is one. An unexpected
sequence has none. -/
def TelnetReadState.next (state : TelnetReadState) (c : Byte) :
    Option (TelnetReadState × Option Byte) :=
  match state with
  | .telnetRegular => if c = telnetIAC then some (.telnetIac, none)
      else some (.telnetRegular, some c)
  | .telnetIac =>
    if c ∈ twoByteCommands then some (.telnetRegular, none)
    else if c = telnetSB then some (.telnetSb, none)
    else if c = telnetWILL then some (.telnetWill, none)
    else if c = telnetWONT then some (.telnetWont, none)
    else if c = telnetDO then some (.telnetDo, none)
    else if c = telnetDONT then some (.telnetDont, none)
    else if c = telnetIAC then some (.telnetRegular, some 0xFF)
    else none
  | .telnetSb => if c = telnetIAC then none else some (.telnetSbOpt, none)
  | .telnetSbOpt => if c = telnetIAC then none else some (.telnetSbVal, none)
  | .telnetSbVal => if c = telnetIAC then some (.telnetSbIac, none) else some (.telnetSbVal, none)
  | .telnetSbIac => if c = telnetSE then some (.telnetRegular, none) else none
  | .telnetWill | .telnetWont | .telnetDo | .telnetDont => some (.telnetRegular, none)

/-- How much is in `readin_buf` before a character is taken out of it: what was there, or what
`tcp_read` puts there. No result is a write behind its end, or a connection that gave too little. -/
def readin (size available fetched : Nat) (state : TelnetReadState) (stillNeeded : Nat) :
    Option (Option Nat) :=
  if fetched ≠ 0 then some (some fetched)
  else if size + 2 < stillNeeded + state.extra then none
  else if available < stillNeeded + state.extra then some none
  else some (some (stillNeeded + state.extra))

/-- The loop of `telnet_read`. The input is all that comes, of which the first `fetched` bytes are
in `readin_buf`. A good result is what was read, and what is left in the connection. -/
def telnetReadLoop (size : Nat) :
    (input : Bytes) → (fetched : Nat) → TelnetReadState → (stillNeeded : Nat) →
    (buf : Bytes) → Option (Option (Bytes × Bytes))
  | input, fetched, _, 0, buf => some (some (buf, input.drop fetched))
  | [], fetched, state, stillNeeded + 1, _ =>
    (readin size 0 fetched state (stillNeeded + 1)).bind fun _ => some none
  | c :: input, fetched, state, stillNeeded + 1, buf =>
    (readin size (c :: input).length fetched state (stillNeeded + 1)).bind fun
      | none => some none
      | some fetched =>
        match state.next c with
        | none => some none
        | some (state, none) => telnetReadLoop size input (fetched - 1) state (stillNeeded + 1) buf
        | some (state, some d) =>
            telnetReadLoop size input (fetched - 1) state stillNeeded (buf ++ [d])

/-- `telnet_read` -/
def telnetRead (size : Nat) (input : Bytes) : Option (Option (Bytes × Bytes)) :=
  telnetReadLoop size input 0 .telnetRegular size []

/-- Successive calls, up to one that fails. -/
def telnetReads : (sizes : List Nat) → (input : Bytes) → List (Option (Option (Bytes × Bytes)))
  | [], _ => []
  | size :: sizes, input =>
    telnetRead size input ::
      match telnetRead size input with
      | some (some (_, input)) => telnetReads sizes input
      | _ => []

/-! ## The peer -/

/-- `WILL`, `WONT`, `DO` and `DONT` -/
inductive Verb where
  | will
  | wont
  | doIt
  | dont

def Verb.byte : Verb → Byte
  | .will => telnetWILL
  | .wont => telnetWONT
  | .doIt => telnetDO
  | .dont => telnetDONT

/-- The commands that a peer can put between the data. -/
inductive Command where
  | twoByte (c : Byte) (h : c ∈ twoByteCommands)
  | negotiation (verb : Verb) (option : Byte)
  | subnegotiation (option : Byte) (parameters : Bytes)

def Command.bytes : Command → Bytes
  | .twoByte c _ => [telnetIAC, c]
  | .negotiation verb option => [telnetIAC, verb.byte, option]
  | .subnegotiation option parameters =>
    [telnetIAC, telnetSB, option] ++ telnetWriteBinary parameters ++ [telnetIAC, telnetSE]

/-- A byte of data, and the commands before it. -/
structure Item where
  commands : List Command
  byte : Byte

/-- What the peer sends. -/
def Item.bytes (item : Item) : Bytes :=
  item.commands.flatMap Command.bytes ++ telnetWriteBinary [item.byte]

/-- The data that one call asks for. -/
abbrev Block := List Item

def Block.data (block : Block) : Bytes := block.map Item.byte

def Block.stream (block : Block) : Bytes := block.flatMap Item.bytes

/-- What successive calls should return: each its block, and the other blocks are left. -/
def expected : (blocks : List Block) → (rest : Bytes) → List (Option (Option (Bytes × Bytes)))
  | [], _ => []
  | block :: blocks, rest =>
    some (some (block.data, blocks.flatMap Block.stream ++ rest)) :: expected blocks rest

/-! ## Where bytes are fetched -/

/-- A byte of the stream, the state in which it is taken, and whether it is one of the data. -/
structure Mark where
  byte : Byte
  before : TelnetReadState
  isData : Bool

/-- A parameter of a sub-negotiation. -/
def parameterMarks (before : TelnetReadState) (p : Byte) : List Mark :=
  if p = telnetIAC then [⟨telnetIAC, before, false⟩, ⟨p, .telnetSbIac, false⟩]
    else [⟨p, before, false⟩]

/-- All parameters, and the end of the sub-negotiation. -/
def parametersMarks : (parameters : Bytes) → List Mark
  | [] => [⟨telnetIAC, .telnetSbOpt, false⟩, ⟨telnetSE, .telnetSbIac, false⟩]
  | p :: ps =>
    parameterMarks .telnetSbOpt p ++ (ps.flatMap (parameterMarks .telnetSbVal) ++
      [⟨telnetIAC, .telnetSbVal, false⟩, ⟨telnetSE, .telnetSbIac, false⟩])

def Verb.state : Verb → TelnetReadState
  | .will => .telnetWill
  | .wont => .telnetWont
  | .doIt => .telnetDo
  | .dont => .telnetDont

def Command.marks : Command → List Mark
  | .twoByte c _ => [⟨telnetIAC, .telnetRegular, false⟩, ⟨c, .telnetIac, false⟩]
  | .negotiation verb option =>
    [⟨telnetIAC, .telnetRegular, false⟩, ⟨verb.byte, .telnetIac, false⟩,
      ⟨option, verb.state, false⟩]
  | .subnegotiation option parameters =>
    [⟨telnetIAC, .telnetRegular, false⟩, ⟨telnetSB, .telnetIac, false⟩,
      ⟨option, .telnetSb, false⟩] ++
      parametersMarks parameters

/-- A byte 255 is behind another one. -/
def dataMarks (c : Byte) : List Mark :=
  if c = telnetIAC then [⟨telnetIAC, .telnetRegular, false⟩, ⟨c, .telnetIac, true⟩]
    else [⟨c, .telnetRegular, true⟩]

def Item.marks (item : Item) : List Mark :=
  item.commands.flatMap Command.marks ++ dataMarks item.byte

def Block.marks (block : Block) : List Mark := block.flatMap Item.marks

/-- The number of data bytes. -/
def delivered (marks : List Mark) : Nat := marks.countP (·.isData)

/-- The number of the other bytes. -/
def overhead (marks : List Mark) : Nat := marks.countP (!·.isData)

/-- When the first `k` bytes are taken and no more are fetched, `k'` bytes will be fetched. -/
def Fetches (size : Nat) (marks : List Mark) (k k' : Nat) : Prop :=
  ∃ m, marks[k]? = some m ∧ k' = size + overhead (marks.take k) + m.before.extra

/-- How many bytes are fetched at some time. -/
def Fetched (size : Nat) (marks : List Mark) : Nat → Prop :=
  Relation.ReflTransGen (Fetches size marks) 0

/-- It does no harm to fetch more before `m`, behind the bytes in `done`. -/
structure Harmless (done : List Mark) (m : Mark) (todo : List Mark) : Prop where
  sb : m.before = .telnetSb → 2 ≤ delivered done
  sbOpt : m.before = .telnetSbOpt → 1 ≤ delivered done
  iac : m.before = .telnetIac → m.isData = true → ∃ m' ∈ todo, m'.isData = false

/-- A sub-negotiation that is not an unexpected sequence. -/
def Command.Understood : Command → Prop
  | .subnegotiation option parameters => option ≠ telnetIAC ∧ parameters ≠ [] ∧
      telnetIAC ∉ parameters
  | _ => True

/-- A block that `telnet_read` can read. -/
structure Block.Readable (block : Block) : Prop where
  understood : ∀ item ∈ block, ∀ command ∈ item.commands, command.Understood
  harmless : ∀ k, Fetched block.length block.marks k → ∀ m, block.marks[k]? = some m →
    Harmless (block.marks.take k) m (block.marks.drop (k + 1))

/-! ## The loop -/

section

/-- Every mark is in the state that the bytes before it lead to, up to an unexpected one. -/
def Chained : TelnetReadState → List Mark → Prop
  | _, [] => True
  | state, m :: marks => m.before = state ∧
    ∀ state' stored, state.next m.byte = some (state', stored) →
      stored = (if m.isData then some m.byte else none) ∧ Chained state' marks

/-- A fetch that stays within the buffer and the block. -/
def Fits (done : List Mark) (m : Mark) (todo : List Mark) : Prop :=
  m.before.extra ≤ 2 + delivered done ∧ m.before.extra ≤ overhead (m :: todo)

/-- No byte is unexpected. -/
def Accepted (marks : List Mark) : Prop := ∀ m ∈ marks, m.before.next m.byte ≠ none

variable {size : Nat} {marks : List Mark}

theorem length_eq (marks : List Mark) : marks.length = delivered marks + overhead marks := by
  rw [delivered, overhead, List.length_eq_countP_add_countP (p := (·.isData))]
  simp

/-- The last byte is one of the data. -/
def Ended (marks : List Mark) : Prop := ∀ m ∈ marks.getLast?, m.isData = true

theorem Ended.delivered_pos {m : Mark} (h : Ended (m :: marks)) : 0 < delivered (m :: marks) := by
  obtain ⟨last, hlast⟩ : ∃ last, (m :: marks).getLast? = some last := ⟨_, List.getLast?_cons⟩
  exact List.countP_pos_iff.mpr ⟨last, List.mem_of_getLast? hlast, h last hlast⟩

theorem Ended.tail {m : Mark} (h : Ended (m :: marks)) : Ended marks := by
  intro last hlast
  refine h last ?_
  cases marks with
  | nil => cases hlast
  | cons m' marks => rwa [List.getLast?_cons_cons]

/-- The data of a stream. -/
def dataOf (marks : List Mark) : Bytes := (marks.filter (·.isData)).map Mark.byte

/-- Everything that is fetched from `k` on fits. -/
def FitsFrom (size : Nat) (marks : List Mark) (k : Nat) : Prop :=
  ∀ k', Relation.ReflTransGen (Fetches size marks) k k' → ∀ m, marks[k']? = some m →
    Fits (marks.take k') m (marks.drop (k' + 1))

theorem fitsFrom_of_length_le {k : Nat} (h : marks.length ≤ k) : FitsFrom size marks k := by
  intro k' hk' m hm
  obtain rfl | ⟨k₁, ⟨m₁, hm₁, -⟩, -⟩ := hk'.cases_head
  · rw [List.getElem?_eq_none h] at hm
    cases hm
  · rw [List.getElem?_eq_none h] at hm₁
    cases hm₁

/-- One fetch, and those after it. -/
theorem fitsFrom_iff {done todo : List Mark} {m : Mark} (hmarks : marks = done ++ m :: todo) :
    FitsFrom size marks done.length ↔
      Fits done m todo ∧ FitsFrom size marks (size + overhead done + m.before.extra) := by
  have hget : marks[done.length]? = some m := by
    rw [hmarks]
    simp
  have htake : marks.take done.length = done := by
    rw [hmarks]
    simp
  have hdrop : marks.drop (done.length + 1) = todo := by
    rw [hmarks, List.drop_append]
    simp
  have hfetch : Fetches size marks done.length (size + overhead done + m.before.extra) :=
    ⟨m, hget, by rw [htake]⟩
  constructor
  · intro h
    refine ⟨?_, fun k' hk' => h k' (.head hfetch hk')⟩
    have hfits := h _ .refl m hget
    rwa [htake, hdrop] at hfits
  · rintro ⟨hfits, h⟩ k' hk' m' hm'
    obtain rfl | ⟨k₁, ⟨m₁, hm₁, rfl⟩, hrest⟩ := hk'.cases_head
    · rw [hget] at hm'
      cases hm'
      rwa [htake, hdrop]
    · rw [hget] at hm₁
      cases hm₁
      rw [htake] at hrest
      exact h k' hrest m' hm'

theorem delivered_cons (m : Mark) (marks : List Mark) :
    delivered (m :: marks) = delivered marks + if m.isData then 1 else 0 := List.countP_cons

theorem dataOf_cons (m : Mark) (marks : List Mark) :
    dataOf (m :: marks) = dataOf [m] ++ dataOf marks := by
  rw [dataOf, dataOf, dataOf, ← List.map_append, ← List.filter_append, List.singleton_append]

/-- Without room in the buffer, or without enough bytes, nothing is read. -/
theorem telnetReadLoop_ne {c : Byte} {input buf : Bytes} {fetched stillNeeded : Nat}
    {state : TelnetReadState} (hpos : 0 < stillNeeded)
    (hreadin : ∀ f, readin size (input.length + 1) fetched state stillNeeded ≠ some (some f))
    (r : Bytes × Bytes) :
    telnetReadLoop size (c :: input) fetched state stillNeeded buf ≠ some (some r) := by
  obtain ⟨n, rfl⟩ := Nat.exists_eq_add_one_of_ne_zero (Nat.ne_of_gt hpos)
  rw [telnetReadLoop, List.length_cons]
  match hr : readin size (input.length + 1) fetched state (n + 1) with
  | none => nofun
  | some none => nofun
  | some (some f) => exact absurd hr (hreadin f)

/-- A byte is taken out of the buffer, unless it is unexpected. -/
theorem telnetReadLoop_take {m : Mark} {todo : List Mark} {state : TelnetReadState}
    (hchain : Chained state (m :: todo)) (hended : Ended (m :: todo)) {input buf : Bytes}
    {fetched f : Nat} (hreadin : readin size (input.length + 1) fetched state
      (delivered (m :: todo)) = some (some f)) :
    (m.before.next m.byte = none ∧
        telnetReadLoop size (m.byte :: input) fetched state (delivered (m :: todo)) buf =
        some none) ∨
      ∃ state', m.before.next m.byte ≠ none ∧ Chained state' todo ∧
        telnetReadLoop size (m.byte :: input) fetched state (delivered (m :: todo)) buf =
          telnetReadLoop size input (f - 1) state' (delivered todo) (buf ++ dataOf [m]) := by
  obtain ⟨rfl, hnext⟩ := hchain
  obtain ⟨n, hn⟩ := Nat.exists_eq_add_one_of_ne_zero (Nat.ne_of_gt hended.delivered_pos)
  rw [hn] at hreadin ⊢
  rw [telnetReadLoop, List.length_cons, hreadin, Option.bind_some]
  rw [delivered_cons] at hn
  dsimp only
  cases hstep : m.before.next m.byte with
  | none => exact .inl ⟨rfl, rfl⟩
  | some r =>
    obtain ⟨state', stored⟩ := r
    obtain ⟨rfl, hchain'⟩ := hnext _ _ hstep
    refine .inr ⟨state', Option.some_ne_none _, hchain', ?_⟩
    cases hdata : m.isData with
    | true =>
      rw [hdata] at hn
      obtain rfl : delivered todo = n := by simpa using hn
      simp [dataOf, hdata]
    | false =>
      rw [hdata] at hn
      have hn' : delivered todo = n + 1 := by simpa using hn
      rw [hn']
      simp [dataOf, hdata]

theorem accepted_cons {m : Mark} :
    Accepted (m :: marks) ↔ m.before.next m.byte ≠ none ∧ Accepted marks :=
  List.forall_mem_cons

theorem overhead_append (a b : List Mark) :
    overhead (a ++ b) = overhead a + overhead b := List.countP_append

theorem delivered_append (a b : List Mark) :
    delivered (a ++ b) = delivered a + delivered b := List.countP_append

/-- **The loop.** It returns the data and leaves the rest if and only if no byte is unexpected and
all that is fetched fits. -/
theorem telnetReadLoop_iff {done todo : List Mark} (hmarks : marks = done ++ todo)
    (hsize : size = delivered marks) {state : TelnetReadState} (hchain : Chained state todo)
    (hended : Ended todo) {fetched : Nat} (hdone : done.length ≤ fetched) {rest : Bytes}
    (hrest : fetched ≤ marks.length + rest.length) (buf : Bytes) :
    telnetReadLoop size (todo.map Mark.byte ++ rest) (fetched - done.length) state (delivered todo)
      buf
        = some (some (buf ++ dataOf todo, rest)) ↔
      Accepted todo ∧ fetched ≤ marks.length ∧ FitsFrom size marks fetched := by
  induction todo generalizing done state fetched buf with
  | nil =>
    rw [List.append_nil] at hmarks
    subst hmarks
    have hdrop : rest.drop (fetched - marks.length) = rest ↔ fetched ≤ marks.length := by
      constructor
      · intro h
        have hlen := congrArg List.length h
        rw [List.length_drop] at hlen
        omega
      · intro h
        rw [Nat.sub_eq_zero_of_le h, List.drop_zero]
    rw [delivered, List.countP_nil, telnetReadLoop]
    simp only [List.map_nil, List.nil_append, dataOf, List.filter_nil, List.append_nil,
      Option.some.injEq, Prod.mk.injEq, true_and, hdrop]
    constructor
    · intro h
      exact ⟨nofun, h, fitsFrom_of_length_le hdone⟩
    · exact fun h => h.2.1
  | cons m todo ih =>
    have hlength : marks.length = done.length + (todo.length + 1) := by
      rw [hmarks, List.length_append, List.length_cons]
    have hmarks' : marks = (done ++ [m]) ++ todo := by
      rw [hmarks, List.append_assoc, List.singleton_append]
    have hinput : (todo.map Mark.byte ++ rest).length = todo.length + rest.length := by
      rw [List.length_append, List.length_map]
    -- a byte is taken when the first `k` bytes are fetched
    have htake : ∀ k, done.length < k → k ≤ marks.length + rest.length →
        readin size ((todo.map Mark.byte ++ rest).length + 1) (fetched - done.length) state
        (delivered (m :: todo))
          = some (some (k - done.length)) →
        (telnetReadLoop size (m.byte :: (todo.map Mark.byte ++ rest)) (fetched - done.length) state
            (delivered (m :: todo)) buf = some (some (buf ++ dataOf (m :: todo), rest)) ↔
          Accepted (m :: todo) ∧ k ≤ marks.length ∧ FitsFrom size marks k) := by
      intro k hk hkrest hreadin
      rw [dataOf_cons, ← List.append_assoc, accepted_cons]
      obtain ⟨hnone, hloop⟩ | ⟨state', hne, hchain', hloop⟩ :=
        telnetReadLoop_take hchain hended hreadin
      · rw [hloop]
        exact iff_of_false nofun fun h => h.1.1 hnone
      · have hih := @ih (done ++ [m]) hmarks' state' hchain' hended.tail k
          (by rw [List.length_append, List.length_singleton]; omega) hkrest (buf ++ dataOf [m])
        rw [List.length_append, List.length_singleton, ← Nat.sub_sub] at hih
        rw [hloop, hih, and_iff_right hne]
    rw [List.map_cons, List.cons_append]
    by_cases hempty : fetched = done.length
    · subst hempty
      obtain ⟨hbefore, -⟩ := hchain
      have hsizes : size = delivered done + delivered (m :: todo) := by
        rw [hsize, hmarks, delivered_append]
      have hdoneLength := length_eq done
      have htodoLength := length_eq (m :: todo)
      rw [List.length_cons] at htodoLength
      rw [fitsFrom_iff hmarks, Fits]
      -- the bytes that are needed do not fit, or do not come
      by_cases hfits : delivered (m :: todo) + m.before.extra ≤ size + 2 ∧
          delivered (m :: todo) + m.before.extra ≤ (todo.map Mark.byte ++ rest).length + 1
      · have hk : size + overhead done + m.before.extra - done.length = delivered (m :: todo) +
            m.before.extra := by omega
        have hpos := hended.delivered_pos
        rw [htake (size + overhead done + m.before.extra) (by omega) (by omega)]
        · constructor
          · rintro ⟨haccepted, hle, hfrom⟩
            exact ⟨haccepted, by omega, ⟨by omega, by omega⟩, hfrom⟩
          · rintro ⟨haccepted, -, ⟨-, hover⟩, hfrom⟩
            exact ⟨haccepted, by omega, hfrom⟩
        · rw [readin, if_neg (by omega), ← hbefore, if_neg (by omega), if_neg (by omega), hk]
      · refine iff_of_false (telnetReadLoop_ne hended.delivered_pos (fun f hf => ?_) _) fun h =>
          hfits ⟨?_, ?_⟩
        · rw [readin, if_neg (by omega), ← hbefore] at hf
          split at hf
          · cases hf
          · split at hf
            · cases hf
            · omega
        · obtain ⟨-, -, ⟨hroom, -⟩, -⟩ := h
          omega
        · obtain ⟨-, -, ⟨-, hover⟩, -⟩ := h
          omega
    · exact htake fetched (by omega) hrest (if_pos (by omega))

end

/-! ## Commands and data -/

section

variable {state state' : TelnetReadState} {m : Mark} {marks a b : List Mark}

theorem chained_cons (hbefore : m.before = state)
    (hnext : state.next m.byte = some (state', if m.isData then some m.byte else none))
    (h : Chained state' marks) :
    Chained state (m :: marks) := by
  refine ⟨hbefore, fun state₁ stored hstored => ?_⟩
  rw [hnext] at hstored
  cases hstored
  exact ⟨rfl, h⟩

theorem chained_unexpected (hbefore : m.before = state) (hnext : state.next m.byte = none) :
    Chained state (m :: marks) := by
  refine ⟨hbefore, fun state₁ stored hstored => ?_⟩
  rw [hnext] at hstored
  cases hstored

/-- The parameters from the second one on, and the end of the sub-negotiation. -/
theorem chained_parameters (ps : Bytes) (h : Chained .telnetRegular marks) :
    Chained .telnetSbVal (ps.flatMap (parameterMarks .telnetSbVal) ++
      (⟨telnetIAC, .telnetSbVal, false⟩ :: ⟨telnetSE, .telnetSbIac, false⟩ :: marks)) := by
  induction ps with
  | nil => exact chained_cons rfl rfl (chained_cons rfl rfl h)
  | cons p ps ih =>
    rw [List.flatMap_cons, List.append_assoc, parameterMarks]
    split
    · rename_i hp
      exact chained_cons rfl rfl (chained_unexpected rfl (by rw [hp]; rfl))
    · rename_i hp
      exact chained_cons rfl (if_neg hp) ih

theorem chained_command (c : Command) (h : Chained .telnetRegular marks) :
    Chained .telnetRegular (c.marks ++ marks) := by
  cases c with
  | twoByte c hc => exact chained_cons rfl rfl (chained_cons rfl (if_pos hc) h)
  | negotiation verb option =>
    cases verb <;> exact chained_cons rfl rfl (chained_cons rfl rfl (chained_cons rfl rfl h))
  | subnegotiation option parameters =>
    refine chained_cons rfl rfl (chained_cons rfl rfl ?_)
    by_cases hoption : option = telnetIAC
    · exact chained_unexpected rfl (if_pos hoption)
    · refine chained_cons rfl (if_neg hoption) ?_
      cases parameters with
      | nil => exact chained_unexpected rfl rfl
      | cons p ps =>
        change Chained _ (parametersMarks (p :: ps) ++ marks)
        rw [parametersMarks, List.append_assoc, List.append_assoc, parameterMarks]
        split
        · exact chained_unexpected rfl rfl
        · rename_i hp
          exact chained_cons rfl (if_neg hp) (chained_parameters ps h)

theorem chained_data (c : Byte) (h : Chained .telnetRegular marks) :
    Chained .telnetRegular (dataMarks c ++ marks) := by
  rw [dataMarks]
  split
  · rename_i hc
    subst hc
    exact chained_cons rfl rfl (chained_cons rfl rfl h)
  · rename_i hc
    exact chained_cons rfl (if_neg hc) h

theorem chained_block (block : Block) : Chained .telnetRegular block.marks := by
  induction block with
  | nil => exact trivial
  | cons item block ih =>
    rw [Block.marks, List.flatMap_cons, Item.marks, List.append_assoc]
    generalize item.commands = commands
    induction commands with
    | nil => exact chained_data item.byte ih
    | cons c commands ihc =>
      rw [List.flatMap_cons, List.append_assoc]
      exact chained_command c ihc

theorem accepted_append : Accepted (a ++ b) ↔ Accepted a ∧ Accepted b := List.forall_mem_append

theorem accepted_flatMap {α : Type} (f : α → List Mark) (l : List α) :
    Accepted (l.flatMap f) ↔ ∀ x ∈ l, Accepted (f x) := by
  induction l with
  | nil => simp [Accepted]
  | cons x l ih => rw [List.flatMap_cons, accepted_append, ih, List.forall_mem_cons]

theorem accepted_parameterMarks {p : Byte} (hstate : state = .telnetSbOpt ∨ state = .telnetSbVal) :
    Accepted (parameterMarks state p) ↔ p ≠ telnetIAC := by
  rw [parameterMarks]
  split
  · rename_i hp
    refine iff_of_false (fun h => h ⟨p, .telnetSbIac, false⟩ (by simp) ?_) fun h => h hp
    rw [hp]
    rfl
  · rename_i hp
    refine iff_of_true ?_ hp
    obtain rfl | rfl := hstate <;> simp [Accepted, TelnetReadState.next, hp]

/-- Only sub-negotiations can be unexpected. -/
theorem accepted_command_iff (c : Command) : Accepted c.marks ↔ c.Understood := by
  cases c with
  | twoByte c hc => simp [Command.marks, Accepted, TelnetReadState.next, hc, Command.Understood]
  | negotiation verb option =>
    cases verb <;> simp [Command.marks, Accepted, TelnetReadState.next, Command.Understood,
      Verb.byte, Verb.state, telnetWILL, telnetWONT, telnetDO, telnetDONT, telnetSB, telnetIAC,
      twoByteCommands]
  | subnegotiation option parameters =>
    have hstart : Accepted [⟨telnetIAC, .telnetRegular, false⟩, ⟨telnetSB, .telnetIac, false⟩,
        ⟨option, .telnetSb, false⟩]
        ↔ option ≠ telnetIAC := by
      simp [Accepted, TelnetReadState.next, telnetSB, twoByteCommands]
    have hend : Accepted [⟨telnetIAC, .telnetSbVal, false⟩, ⟨telnetSE, .telnetSbIac, false⟩] := by
      simp [Accepted, TelnetReadState.next]
    rw [Command.marks, accepted_append, hstart, Command.Understood]
    refine and_congr_right fun _ => ?_
    cases parameters with
    | nil =>
      refine iff_of_false (fun h => ?_) fun h => h.1 rfl
      exact h ⟨telnetIAC, .telnetSbOpt, false⟩ List.mem_cons_self rfl
    | cons p ps =>
      have hps : (∀ q ∈ ps, Accepted (parameterMarks .telnetSbVal q)) ↔ telnetIAC ∉ ps := by
        simp only [accepted_parameterMarks (.inr rfl)]
        exact ⟨fun h hmem => h _ hmem rfl, fun h q hq hiac => h (hiac ▸ hq)⟩
      rw [parametersMarks, accepted_append, accepted_append, accepted_parameterMarks (.inl rfl),
        accepted_flatMap, hps, and_iff_left hend, and_iff_right (List.cons_ne_nil p ps),
        List.mem_cons, not_or, ne_comm]

theorem accepted_block_iff (block : Block) :
    Accepted block.marks ↔ ∀ item ∈ block, ∀ command ∈ item.commands, command.Understood := by
  have hdata (c : Byte) : Accepted (dataMarks c) := by
    rw [dataMarks]
    split
    · rename_i hc
      rw [hc]
      simp [Accepted, TelnetReadState.next, telnetIAC, telnetSB, telnetWILL, telnetWONT, telnetDO,
        telnetDONT, twoByteCommands]
    · rename_i hc
      simp [Accepted, TelnetReadState.next, hc]
  rw [Block.marks, accepted_flatMap]
  refine forall₂_congr fun item _ => ?_
  rw [Item.marks, accepted_append, and_iff_left (hdata item.byte), accepted_flatMap]
  exact forall₂_congr fun c _ => accepted_command_iff c

/-- Within a command at least as many bytes follow as are fetched in addition. -/
def Backed : List Mark → Prop
  | [] => True
  | m :: todo => (m.before = .telnetIac ∧ m.isData = true ∨ m.before.extra ≤ overhead (m :: todo)) ∧
      Backed todo

theorem backed_append (ha : Backed a) (hb : Backed b) : Backed (a ++ b) := by
  induction a with
  | nil => exact hb
  | cons m a ih =>
    obtain ⟨hm, ha⟩ := ha
    refine ⟨hm.imp_right fun h => ?_, ih ha⟩
    have hover := overhead_append (m :: a) b
    rw [List.cons_append] at hover
    exact Nat.le_trans h (hover ▸ Nat.le_add_right _ _)

theorem backed_flatMap {α : Type} {f : α → List Mark} {l : List α} (h : ∀ x ∈ l, Backed (f x)) :
    Backed (l.flatMap f) := by
  induction l with
  | nil => exact trivial
  | cons x l ih =>
    rw [List.flatMap_cons]
    exact backed_append (h x List.mem_cons_self) (ih fun y hy => h y (List.mem_cons_of_mem _ hy))

theorem overhead_cons_command (c : Byte) (state : TelnetReadState) (marks : List Mark) :
    overhead (⟨c, state, false⟩ :: marks) = overhead marks + 1 := by
  rw [overhead, List.countP_cons_of_pos rfl]
  rfl

theorem backed_parameters {ps : Bytes} (h : telnetIAC ∉ ps) :
    2 ≤ overhead (ps.flatMap (parameterMarks .telnetSbVal) ++
        [⟨telnetIAC, .telnetSbVal, false⟩, ⟨telnetSE, .telnetSbIac, false⟩]) ∧
      Backed (ps.flatMap (parameterMarks .telnetSbVal) ++
        [⟨telnetIAC, .telnetSbVal, false⟩, ⟨telnetSE, .telnetSbIac, false⟩]) := by
  induction ps with
  | nil => simp [Backed, overhead, TelnetReadState.extra]
  | cons p ps ih =>
    rw [List.mem_cons, not_or] at h
    obtain ⟨hover, hbacked⟩ := ih h.2
    rw [List.flatMap_cons, List.append_assoc, parameterMarks, if_neg (Ne.symm h.1),
      List.singleton_append, overhead_cons_command]
    exact ⟨by omega, .inr (by rw [overhead_cons_command]; exact Nat.le_add_right_of_le hover),
      hbacked⟩

theorem backed_command (c : Command) (h : c.Understood) : Backed c.marks := by
  cases c with
  | twoByte c hc => simp [Command.marks, Backed, TelnetReadState.extra, overhead]
  | negotiation verb option =>
    cases verb <;> simp [Command.marks, Backed, TelnetReadState.extra, overhead, Verb.state]
  | subnegotiation option parameters =>
    obtain ⟨-, hne, hiac⟩ := h
    cases parameters with
    | nil => exact absurd rfl hne
    | cons p ps =>
      rw [List.mem_cons, not_or] at hiac
      obtain ⟨hover, hbacked⟩ := backed_parameters hiac.2
      rw [Command.marks, parametersMarks, parameterMarks, if_neg (Ne.symm hiac.1)]
      simp only [List.cons_append, List.nil_append, Backed, overhead_cons_command,
        TelnetReadState.extra]
      exact ⟨.inr (Nat.zero_le _), .inr (by omega), .inr (by omega), .inr (by omega), hbacked⟩

theorem backed_block {block : Block}
    (h : ∀ item ∈ block, ∀ command ∈ item.commands, command.Understood) :
    Backed block.marks := by
  refine backed_flatMap fun item hitem =>
    backed_append (backed_flatMap fun c hc => backed_command c (h item hitem c hc)) ?_
  rw [dataMarks]
  split <;> simp [Backed, TelnetReadState.extra]

theorem telnetWriteBinary_append (a b : Bytes) :
    telnetWriteBinary (a ++ b) = telnetWriteBinary a ++ telnetWriteBinary b := by
  induction a with
  | nil => rfl
  | cons c a ih => simp [telnetWriteBinary, ih]

theorem bytes_parameterMarks (state : TelnetReadState) (p : Byte) :
    (parameterMarks state p).map Mark.byte = telnetWriteBinary [p] := by
  rw [parameterMarks, telnetWriteBinary]
  split <;> rfl

theorem bytes_parametersMarks (parameters : Bytes) :
    (parametersMarks parameters).map Mark.byte = telnetWriteBinary parameters ++
    [telnetIAC, telnetSE] := by
  have hflat (ps : Bytes) :
      (ps.flatMap (parameterMarks .telnetSbVal)).map Mark.byte = telnetWriteBinary ps := by
    induction ps with
    | nil => rfl
    | cons p ps ih =>
      rw [List.flatMap_cons, List.map_append, bytes_parameterMarks, ih, ← telnetWriteBinary_append,
        List.singleton_append]
  cases parameters with
  | nil => rfl
  | cons p ps =>
    rw [parametersMarks, List.map_append, List.map_append, bytes_parameterMarks, hflat,
      ← List.append_assoc, ← telnetWriteBinary_append, List.singleton_append]
    rfl

theorem bytes_command (c : Command) : c.marks.map Mark.byte = c.bytes := by
  cases c with
  | twoByte c hc => rfl
  | negotiation verb option => rfl
  | subnegotiation option parameters =>
    rw [Command.marks, List.map_append, bytes_parametersMarks, Command.bytes, List.append_assoc]
    rfl

theorem bytes_data (c : Byte) : (dataMarks c).map Mark.byte = telnetWriteBinary [c] := by
  rw [dataMarks, telnetWriteBinary]
  split <;> rfl

/-- The marks are on the bytes that the peer sends. -/
theorem bytes_block (block : Block) : block.marks.map Mark.byte = block.stream := by
  rw [Block.marks, Block.stream, List.map_flatMap]
  refine List.flatMap_congr fun item _ => ?_
  rw [Item.marks, Item.bytes, List.map_append, bytes_data, List.map_flatMap]
  simp only [bytes_command]

/-- Without commands they are what `telnet_write_binary` sends. -/
theorem stream_eq_telnetWriteBinary {block : Block} (h : ∀ item ∈ block, item.commands = []) :
    block.stream = telnetWriteBinary block.data := by
  induction block with
  | nil => rfl
  | cons item block ih =>
    rw [List.forall_mem_cons] at h
    have hrest : Block.stream block = telnetWriteBinary (Block.data block) := ih h.2
    rw [Block.stream, List.flatMap_cons, Item.bytes, h.1, List.flatMap_nil, List.nil_append,
      ← Block.stream, hrest, ← telnetWriteBinary_append]
    rfl

/-- None of the bytes of a command is one of the data. -/
theorem filter_command (c : Command) : c.marks.filter (·.isData) = [] := by
  have hparameter (state : TelnetReadState) (p : Byte) :
      (parameterMarks state p).filter (·.isData) = [] := by
    rw [parameterMarks]
    split <;> rfl
  cases c with
  | twoByte c hc => rfl
  | negotiation verb option => rfl
  | subnegotiation option parameters =>
    cases parameters with
    | nil => rfl
    | cons p ps => simp [Command.marks, parametersMarks, List.filter_flatMap, hparameter]

theorem dataOf_block (block : Block) : dataOf block.marks = block.data := by
  have hdata (c : Byte) : dataOf (dataMarks c) = [c] := by
    rw [dataMarks]
    split <;> rfl
  have hitem (item : Item) : (item.marks.filter (·.isData)).map Mark.byte = [item.byte] := by
    have hcommands : (item.commands.flatMap Command.marks).filter (·.isData) = [] := by
      rw [List.filter_flatMap, List.flatMap_eq_nil_iff]
      exact fun c _ => filter_command c
    rw [Item.marks, List.filter_append, hcommands, List.nil_append]
    exact hdata item.byte
  rw [dataOf, Block.marks, List.filter_flatMap, List.map_flatMap]
  simp only [hitem]
  rw [Block.data, List.map_eq_flatMap]

theorem delivered_block (block : Block) : delivered block.marks = block.length := by
  have hlen := congrArg List.length (dataOf_block block)
  rwa [dataOf, List.length_map, ← List.countP_eq_length_filter, Block.data, List.length_map] at hlen

theorem ended_block (block : Block) : Ended block.marks := by
  have hdata (c : Byte) : ∃ init m, dataMarks c = init ++ [m] ∧ m.isData = true := by
    rw [dataMarks]
    split
    · exact ⟨[_], _, rfl, rfl⟩
    · exact ⟨[], _, rfl, rfl⟩
  intro m hm
  obtain rfl | ⟨block, item, rfl⟩ := block.eq_nil_or_concat
  · cases hm
  · obtain ⟨init, last, heq, hlast⟩ := hdata item.byte
    rw [List.concat_eq_append, Block.marks, List.flatMap_append, List.flatMap_singleton, Item.marks,
      heq, ← List.append_assoc, ← List.append_assoc, List.getLast?_concat] at hm
    cases hm
    exact hlast

end

/-! ## All blocks -/

section

variable {marks : List Mark} {k : Nat} {m : Mark}

theorem Backed.drop (h : Backed marks) (k : Nat) : Backed (marks.drop k) := by
  induction k generalizing marks with
  | zero => exact h
  | succ k ih =>
    cases marks with
    | nil => exact trivial
    | cons m marks => exact ih h.2

/-- Within commands that are understood, these are the only fetches that do not fit. -/
theorem fits_iff_harmless (hbacked : Backed marks) (hm : marks[k]? = some m) :
    Fits (marks.take k) m (marks.drop (k + 1)) ↔
      Harmless (marks.take k) m (marks.drop (k + 1)) := by
  obtain ⟨hk, rfl⟩ := List.getElem?_eq_some_iff.mp hm
  have hdrop := hbacked.drop k
  rw [List.drop_eq_getElem_cons hk] at hdrop
  obtain ⟨hback, -⟩ := hdrop
  generalize marks[k] = m at hback
  generalize marks.take k = done
  generalize marks.drop (k + 1) = todo at hback ⊢
  have hroom : m.before.extra ≤ 2 + delivered done ↔
      (m.before = .telnetSb → 2 ≤ delivered done) ∧
      (m.before = .telnetSbOpt → 1 ≤ delivered done) := by
    cases m.before <;> simp [TelnetReadState.extra] <;> omega
  have hover : m.before.extra ≤ overhead (m :: todo) ↔
      (m.before = .telnetIac → m.isData = true → ∃ m' ∈ todo, m'.isData = false) := by
    have hdata (h : m.isData = true) : overhead (m :: todo) = overhead todo := by
      rw [overhead, List.countP_cons_of_neg (by simp [h]), overhead]
    have hpos : 1 ≤ overhead todo ↔ ∃ m' ∈ todo, m'.isData = false := by
      simp [overhead, Nat.one_le_iff_ne_zero, List.countP_eq_zero]
    constructor
    · intro h hiac hd
      rw [hiac, hdata hd] at h
      exact hpos.mp h
    · intro h
      obtain ⟨hiac, hd⟩ | hle := hback
      · rw [hiac, hdata hd]
        exact hpos.mpr (h hiac hd)
      · exact hle
  rw [Fits, hroom, hover]
  exact ⟨fun ⟨⟨hsb, hsbOpt⟩, hiac⟩ => ⟨hsb, hsbOpt, hiac⟩, fun h => ⟨⟨h.sb, h.sbOpt⟩, h.iac⟩⟩

/-- One call. -/
theorem telnetRead_iff (block : Block) (rest : Bytes) :
    telnetRead block.length (block.stream ++ rest) = some (some (block.data, rest)) ↔
      block.Readable := by
  have hloop :=
    @telnetReadLoop_iff block.length block.marks [] block.marks rfl (delivered_block block).symm
    .telnetRegular (chained_block block) (ended_block block) 0 (le_refl 0) rest (Nat.zero_le _) []
  rw [bytes_block, delivered_block, dataOf_block, List.nil_append] at hloop
  rw [telnetRead]
  refine hloop.trans ?_
  rw [accepted_block_iff]
  constructor
  · rintro ⟨hunderstood, -, hfits⟩
    exact ⟨hunderstood, fun k hk m hm =>
      (fits_iff_harmless (backed_block hunderstood) hm).mp (hfits k hk m hm)⟩
  · rintro ⟨hunderstood, hharmless⟩
    exact ⟨hunderstood, Nat.zero_le _, fun k hk m hm =>
      (fits_iff_harmless (backed_block hunderstood) hm).mpr (hharmless k hk m hm)⟩

end

/-- **Successive calls.** Each one returns its block and leaves all that comes later, if and only if
all blocks can be read. -/
theorem telnetReads_iff (blocks : List Block) (rest : Bytes) :
    telnetReads (blocks.map List.length) (blocks.flatMap Block.stream ++ rest) =
      expected blocks rest ↔
      ∀ block ∈ blocks, block.Readable := by
  induction blocks with
  | nil => simp [telnetReads, expected]
  | cons block blocks ih =>
    rw [List.map_cons, List.flatMap_cons, List.append_assoc, telnetReads, expected, List.cons.injEq,
      telnetRead_iff, List.forall_mem_cons]
    refine and_congr_right fun hreadable => ?_
    rw [(telnetRead_iff block _).mpr hreadable, ← ih]

/-- A single byte 255. -/
def singleFF : Block := [⟨[], 0xFF⟩]

/-- Each call for a byte 255 also takes the byte behind it out of the connection. -/
theorem singleFF_next :
    telnetRead 1 (singleFF.stream ++ [0x01]) = some (some ([0xFF], [])) ∧
      telnetReads [1] (singleFF.stream ++ [0x01]) ≠ expected [singleFF] [0x01] := by
  decide

end Owfs.Telnet
