import Owfs.Transaction.Log
import Owfs.Device.SerialNumber

/-!
# Blocks through single bits

`BUS_sendback_data` (`ow_bus_data.c`) exchanges a block of bytes with the bus. An adapter that has
no routine for this gets the bits one by one, least significant bit first, from
`BUS_sendback_data_bitbang`.

A block that is too long for the buffer of the adapter is split, and both parts are sent. Then the
code goes on as if it had not been split, and sends the whole block once more.

The length of a block is a `size_t` and what is computed from it an `int`. The bits are in an array
on the stack, so the length is far from where that matters.
-/

namespace Owfs.BitData

open Infra Owfs.Device
open Owfs.Transaction (St)

/-! ## The code -/

/-- The routines of an adapter that are used here. A failure has no reply; there is one byte for
each bit, and a reply is as long as what was sent. -/
structure Adapter (σ : Type) where
  sendbackData : Option (Bytes → σ → Option Bytes × σ)
  sendbackBits : Bytes → σ → Option Bytes × σ
  length_sendbackBits : ∀ {d s r s'}, sendbackBits d s = (some r, s') → r.length = d.length

/-- `MAX_FIFO_SIZE / 8` -/
def maxSplitBytes : Nat := 160 / 8

/-- The bits of a block, as bytes. -/
def encodeBits (data : Bytes) : Bytes :=
  (List.range (data.length * 8)).map fun i => if utGetbit data i then 0xFF else 0x00

/-- The lowest bits of `bits` put into the bits of `resp`. -/
def decodeBits (bits resp : Bytes) : Bytes :=
  (List.range bits.length).foldl (fun resp i => utSetbit resp i ((bits.getD i 0).getLsbD 0)) resp

variable {σ : Type} (adapter : Adapter σ)

/-- The second part of `BUS_sendback_data_bitbang`. -/
def sendbackBlock (data resp : Ptr) (len : Nat) (st : St σ) : Option (Bool × St σ) := do
  let block ← st.mem.fetch data len
  match adapter.sendbackBits (encodeBits block) st.bus with
  | (none, s) => some (false, ⟨st.mem, s⟩)
  | (some bits, s) =>
    if resp = none then some (true, ⟨st.mem, s⟩)
    else do
      let old ← st.mem.fetch resp len
      let mem ← st.mem.deposit resp (decodeBits bits old)
      some (true, ⟨mem, s⟩)

/-- `BUS_sendback_data_bitbang` -/
def busSendbackDataBitbang (data resp : Ptr) (len : Nat) (st : St σ) : Option (Bool × St σ) :=
  if len = 0 then some (true, st)
  else if _h : maxSplitBytes < len then
    (busSendbackDataBitbang data resp maxSplitBytes st).bind fun
      | (false, st) => some (false, st)
      | (true, st) =>
        (busSendbackDataBitbang (data.map (· + maxSplitBytes)) (resp.map (· + maxSplitBytes))
            (len - maxSplitBytes) st).bind fun
          | (false, st) => some (false, st)
          | (true, st) => sendbackBlock adapter data resp len st
  else sendbackBlock adapter data resp len st
termination_by len
decreasing_by
  · exact _h
  · exact Nat.sub_lt (Nat.lt_trans (by decide) _h) (by decide)

/-- `BUS_sendback_data` -/
def busSendbackData (data resp : Ptr) (len : Nat) (st : St σ) : Option (Bool × St σ) :=
  if len = 0 then some (true, st)
  else
    match adapter.sendbackData with
    | some sendbackData => do
      let block ← st.mem.fetch data len
      match sendbackData block st.bus with
      | (none, s) => some (false, ⟨st.mem, s⟩)
      | (some reply, s) => do
        let mem ← st.mem.deposit resp reply
        some (true, ⟨mem, s⟩)
    | none => busSendbackDataBitbang adapter data resp len st

/-- A block that is not split. -/
theorem busSendbackDataBitbang_of_le {data resp : Ptr} {len : Nat} {st : St σ} (hzero : len ≠ 0)
    (hshort : len ≤ maxSplitBytes) :
    busSendbackDataBitbang adapter data resp len st = sendbackBlock adapter data resp len st := by
  rw [busSendbackDataBitbang, if_neg hzero, dif_neg (Nat.not_lt.mpr hshort)]

/-! ## Bits -/

theorem length_encodeBits (data : Bytes) : (encodeBits data).length = 8 * data.length := by
  rw [encodeBits, List.length_map, List.length_range, Nat.mul_comm]

theorem getD_encodeBits {data : Bytes} {i : Nat} (h : i < 8 * data.length) :
    (encodeBits data).getD i 0 = if utGetbit data i then 0xFF else 0x00 := by
  have hlen : i < (encodeBits data).length := by rwa [length_encodeBits]
  rw [List.getD_eq_getElem _ _ hlen]
  simp [encodeBits]

theorem length_decodeBits (bits resp : Bytes) : (decodeBits bits resp).length = resp.length := by
  unfold decodeBits
  generalize List.range bits.length = is
  induction is generalizing resp with
  | nil => rfl
  | cons i is ih => rw [List.foldl_cons, ih, length_utSetbit]

/-- After `n` rounds the first `n` bits are there, and the others as they were. -/
theorem utGetbit_foldl_utSetbit (bit : Nat → Bool) (resp : Bytes) {n : Nat}
    (h : n ≤ 8 * resp.length) (j : Nat) :
    utGetbit ((List.range n).foldl (fun resp i => utSetbit resp i (bit i)) resp) j
      = if j < n then bit j else utGetbit resp j := by
  have hlen : ∀ n, ((List.range n).foldl (fun resp i => utSetbit resp i (bit i)) resp).length =
      resp.length := by
    intro n
    induction n with
    | zero => rfl
    | succ n ih =>
      rw [List.range_succ, List.foldl_append, List.foldl_cons, List.foldl_nil, length_utSetbit, ih]
  induction n with
  | zero => simp
  | succ n ih =>
    rw [List.range_succ, List.foldl_append, List.foldl_cons, List.foldl_nil,
      utGetbit_utSetbit (by rw [hlen]; omega), ih (by omega)]
    by_cases hj : j = n
    · rw [if_pos hj, if_pos (by omega), hj]
    · rw [if_neg hj]
      by_cases hlt : j < n
      · rw [if_pos hlt, if_pos (by omega)]
      · rw [if_neg hlt, if_neg (by omega)]

theorem utGetbit_decodeBits {bits resp : Bytes} (h : bits.length = 8 * resp.length) {j : Nat}
    (hj : j < 8 * resp.length) : utGetbit (decodeBits bits resp) j = (bits.getD j 0).getLsbD 0 := by
  rw [decodeBits, utGetbit_foldl_utSetbit (fun i => (bits.getD i 0).getLsbD 0) resp (le_of_eq h),
    if_pos (h ▸ hj)]

/-! ## What a transfer is -/

/-- A call of `sendback_bits`: what was sent, and what came back. -/
abbrev Call := Bytes × Option Bytes

/-- An adapter whose calls are recorded. -/
def Adapter.recorded : Adapter (σ × List Call) where
  sendbackData := none
  sendbackBits d s := ((adapter.sendbackBits d s.1).1, (adapter.sendbackBits d s.1).2,
    s.2 ++ [(d, (adapter.sendbackBits d s.1).1)])
  length_sendbackBits := by
    rintro d s r s' h
    obtain ⟨hr, -⟩ := Prod.mk.inj h
    exact adapter.length_sendbackBits (Prod.ext hr rfl)

/-- All bits that were sent. -/
def sentBits (calls : List Call) : Bytes := calls.flatMap Prod.fst

/-- All bits that came back. -/
def returnedBits (calls : List Call) : Bytes := calls.flatMap fun call => call.2.getD []

/-- The block was sent bit by bit, once and in order, and each byte of the reply is made of the
bits of its group of eight; or the transfer is bad, because a call failed. -/
structure Transferred (block : Bytes) (resp : Ptr) (calls : List Call) (good : Bool) (mem : Mem) :
    Prop where
  failed : good = false ↔ ∃ call ∈ calls, call.2 = none
  count : good = true → (sentBits calls).length = 8 * block.length
  sent : good = true → ∀ i < block.length, ∀ k < 8,
    (sentBits calls).getD (8 * i + k) 0 = if (block.getD i 0).getLsbD k then 0xFF else 0x00
  received : good = true → ∀ a, resp = some a → ∀ i < block.length, ∀ k < 8,
    (mem (a + i)).getLsbD k = ((returnedBits calls).getD (8 * i + k) 0).getLsbD 0

/-- Blocks of this length are transferred, by every adapter and to every place. -/
def TransfersAll (len : Nat) : Prop :=
  ∀ (σ : Type) (adapter : Adapter σ) (s : σ) (mem : Mem) (data : Nat) (resp : Ptr),
    ∃ good st, busSendbackDataBitbang adapter.recorded (some data) resp len ⟨mem, s, []⟩ =
    some (good, st) ∧
      Transferred (mem.read data len) resp st.bus.2 good st.mem

/-! ## One block -/

section

variable {adapter} {mem : Mem} {s : σ} {calls : List Call} {data : Nat} {resp : Ptr} {len : Nat}

/-- The memory after the bits were put together. -/
def received (resp : Ptr) (len : Nat) (bits : Bytes) (mem : Mem) : Mem :=
  match resp with
  | none => mem
  | some a => mem.write a (decodeBits bits (mem.read a len))

theorem sendbackBlock_recorded (hlen : len ≠ 0) :
    sendbackBlock adapter.recorded (some data) resp len ⟨mem, s, calls⟩ =
      match adapter.sendbackBits (encodeBits (mem.read data len)) s with
      | (none, s') => some (false, ⟨mem, s', calls ++ [(encodeBits (mem.read data len), none)]⟩)
      | (some bits, s') =>
        some (true, ⟨received resp len bits mem, s',
          calls ++ [(encodeBits (mem.read data len), some bits)]⟩) := by
  rw [sendbackBlock, Mem.fetch_some, Option.bind_eq_bind, Option.bind_some]
  rcases hcall : adapter.sendbackBits (encodeBits (mem.read data len)) s with ⟨_ | bits, s'⟩
  · simp only [Adapter.recorded, hcall]
  · cases resp with
    | none => simp only [Adapter.recorded, hcall, if_true, received]
    | some a =>
      have hne : decodeBits bits (mem.read a len) ≠ [] := by
        intro h
        have hnil := congrArg List.length h
        rw [length_decodeBits, Mem.length_read] at hnil
        exact hlen hnil
      simp only [Adapter.recorded, hcall, reduceCtorEq, if_false, Mem.fetch_some,
        Option.bind_eq_bind, Option.bind_some, Mem.deposit, if_neg hne, Option.map_some, received]

/-- Reading a bit of a byte in memory. -/
theorem getLsbD_write {a i k : Nat} {d : Bytes} (hi : i < d.length) (hk : k < 8) :
    (mem.write a d (a + i)).getLsbD k = utGetbit d (8 * i + k) := by
  rw [Mem.write, if_pos ⟨Nat.le_add_right a i, by omega⟩, utGetbit, Nat.add_sub_cancel_left,
    show (8 * i + k) / 8 = i by omega, show (8 * i + k) % 8 = k by omega]

/-- A block that is sent in one call is transferred. -/
theorem transferred_block (hlen : len ≠ 0) :
    ∃ good st, sendbackBlock adapter.recorded (some data) resp len ⟨mem, s, []⟩ = some (good, st) ∧
      Transferred (mem.read data len) resp st.bus.2 good st.mem := by
  rw [sendbackBlock_recorded hlen]
  rcases hcall : adapter.sendbackBits (encodeBits (mem.read data len)) s with ⟨_ | bits, s'⟩
  · exact ⟨false, _, rfl, ⟨fun _ => ⟨_, List.mem_singleton_self _, rfl⟩, fun _ => rfl⟩, nofun,
      nofun, nofun⟩
  · have hbits : bits.length = 8 * len := by
      rw [adapter.length_sendbackBits hcall, length_encodeBits, Mem.length_read]
    refine ⟨true, _, rfl, ⟨nofun, ?_⟩, fun _ => ?_, fun _ i hi k hk => ?_,
      fun _ a ha i hi k hk => ?_⟩
    · rintro ⟨call, hmem, hnone⟩
      rw [List.nil_append, List.mem_singleton] at hmem
      rw [hmem] at hnone
      cases hnone
    · rw [sentBits, List.nil_append, List.flatMap_singleton, length_encodeBits]
    · rw [sentBits, List.nil_append, List.flatMap_singleton, getD_encodeBits (by omega), utGetbit,
        show (8 * i + k) / 8 = i by omega, show (8 * i + k) % 8 = k by omega]
    · subst ha
      rw [Mem.length_read] at hi
      have hlen' : (decodeBits bits (mem.read a len)).length = len := by
        rw [length_decodeBits, Mem.length_read]
      rw [returnedBits, List.nil_append, List.flatMap_singleton, Option.getD_some, received,
        getLsbD_write (by rw [hlen']; exact hi) hk,
        utGetbit_decodeBits (by rw [Mem.length_read]; exact hbits) (by rw [Mem.length_read]; omega)]

/-! ## A whole run -/

/-- What is known of every run that made the calls `more`. -/
structure Ran (adapter : Adapter σ) (len : Nat) (good : Bool) (more : List Call) : Prop where
  failed : good = false ↔ ∃ call ∈ more, call.2 = none
  asked : ∀ call ∈ more, ∃ s, call.2 = (adapter.sendbackBits call.1 s).1
  /-- The parts, and then the block. -/
  count : good = true →
    8 * len + (if maxSplitBytes < len then 8 * len else 0) ≤ (sentBits more).length

theorem ran_block (adapter : Adapter σ) (data : Nat) (resp : Ptr) (mem : Mem) (s : σ)
    (calls : List Call) (hlen : len ≠ 0) :
    ∃ good mem' s' more, sendbackBlock adapter.recorded (some data) resp len ⟨mem, s, calls⟩
        = some (good, ⟨mem', s', calls ++ more⟩) ∧
      (good = false ↔ ∃ call ∈ more, call.2 = none) ∧
      (∀ call ∈ more, ∃ s, call.2 = (adapter.sendbackBits call.1 s).1) ∧
      (sentBits more).length = 8 * len := by
  rw [sendbackBlock_recorded hlen]
  have hcount : ∀ reply, (sentBits [(encodeBits (mem.read data len), reply)]).length = 8 * len := by
    intro reply
    rw [sentBits, List.flatMap_singleton, length_encodeBits, Mem.length_read]
  rcases hcall : adapter.sendbackBits (encodeBits (mem.read data len)) s with ⟨_ | bits, s'⟩
  · refine ⟨false, _, _, _, rfl, ⟨fun _ => ⟨_, List.mem_singleton_self _, rfl⟩, fun _ => rfl⟩, ?_,
      hcount _⟩
    intro call hmem
    rw [List.mem_singleton] at hmem
    exact ⟨s, by rw [hmem, hcall]⟩
  · refine ⟨true, _, _, _, rfl, ⟨nofun, ?_⟩, ?_, hcount _⟩
    · rintro ⟨call, hmem, hnone⟩
      rw [List.mem_singleton] at hmem
      rw [hmem] at hnone
      cases hnone
    · intro call hmem
      rw [List.mem_singleton] at hmem
      exact ⟨s, by rw [hmem, hcall]⟩

theorem sentBits_append (calls more : List Call) :
    sentBits (calls ++ more) = sentBits calls ++ sentBits more :=
  List.flatMap_append

/-- A part that is good, and what comes behind it. -/
theorem Ran.append {part rest : Nat} {good : Bool} {more more' : List Call}
    (h : Ran adapter part true more) (hfailed : good = false ↔ ∃ call ∈ more', call.2 = none)
    (hasked : ∀ call ∈ more', ∃ s, call.2 = (adapter.sendbackBits call.1 s).1)
    (hcount : good = true → 8 * rest + (if maxSplitBytes < rest then 8 * rest else 0)
      ≤ (sentBits (more ++ more')).length) : Ran adapter rest good (more ++ more') where
  failed := by
    rw [hfailed]
    constructor
    · rintro ⟨call, hmem, hnone⟩
      exact ⟨call, List.mem_append_right _ hmem, hnone⟩
    · rintro ⟨call, hmem, hnone⟩
      rcases List.mem_append.mp hmem with hmem | hmem
      · cases h.failed.mpr ⟨call, hmem, hnone⟩
      · exact ⟨call, hmem, hnone⟩
  asked := by
    intro call hmem
    rcases List.mem_append.mp hmem with hmem | hmem
    · exact h.asked call hmem
    · exact hasked call hmem
  count := hcount

/-- A run that stops at a part that is bad. -/
theorem Ran.bad {part len : Nat} {more : List Call} (h : Ran adapter part false more) :
    Ran adapter len false more where
  failed := h.failed
  asked := h.asked
  count := nofun

theorem ran_bitbang (adapter : Adapter σ) (len : Nat) :
    ∀ (data : Nat) (resp : Ptr) (mem : Mem) (s : σ) (calls : List Call), ∃ good mem' s' more,
      busSendbackDataBitbang adapter.recorded (some data) resp len ⟨mem, s, calls⟩
        = some (good, ⟨mem', s', calls ++ more⟩) ∧ Ran adapter len good more := by
  induction len using Nat.strong_induction_on with
  | _ len ih =>
    intro data resp mem s calls
    by_cases hzero : len = 0
    · subst hzero
      refine ⟨true, mem, s, [], ?_, ⟨nofun, nofun⟩, nofun, fun _ => Nat.zero_le _⟩
      rw [busSendbackDataBitbang, if_pos rfl, List.append_nil]
    · by_cases hsplit : maxSplitBytes < len
      · obtain ⟨good₁, mem₁, s₁, more₁, hrun₁, hran₁⟩ :=
          ih maxSplitBytes hsplit data resp mem s calls
        rw [busSendbackDataBitbang, if_neg hzero, dif_pos hsplit, hrun₁, Option.bind_some]
        cases good₁ with
        | false => exact ⟨false, mem₁, s₁, more₁, rfl, hran₁.bad⟩
        | true =>
          obtain ⟨good₂, mem₂, s₂, more₂, hrun₂, hran₂⟩ := ih (len - maxSplitBytes)
            (Nat.sub_lt (Nat.pos_of_ne_zero hzero) (by decide)) (data + maxSplitBytes)
            (resp.map (· + maxSplitBytes)) mem₁ s₁ (calls ++ more₁)
          simp only [Option.map_some, hrun₂, Option.bind_some]
          cases good₂ with
          | false =>
            refine ⟨false, mem₂, s₂, more₁ ++ more₂, by rw [List.append_assoc], ?_⟩
            exact hran₁.append hran₂.failed hran₂.asked nofun
          | true =>
            -- both parts are through, and now the block is sent
            obtain ⟨good, mem', s', more, hrun, hfailed, hasked, hcount⟩ :=
              ran_block adapter data resp mem₂ s₂
              (calls ++ more₁ ++ more₂) hzero
            refine ⟨good, mem', s', (more₁ ++ more₂) ++ more, ?_, ?_⟩
            · dsimp only
              rw [hrun, List.append_assoc, List.append_assoc, List.append_assoc]
            · have hparts : Ran adapter (len - maxSplitBytes) true (more₁ ++ more₂) :=
                hran₁.append hran₂.failed hran₂.asked fun _ => by
                  have := hran₂.count rfl
                  rw [sentBits_append, List.length_append]
                  omega
              refine hparts.append hfailed hasked fun _ => ?_
              have h₁ := hran₁.count rfl
              have h₂ := hran₂.count rfl
              rw [sentBits_append, sentBits_append, List.length_append, List.length_append,
                if_pos hsplit, hcount]
              omega
      · obtain ⟨good, mem', s', more, hrun, hfailed, hasked, hcount⟩ :=
          ran_block adapter data resp mem s calls
          hzero
        refine ⟨good, mem', s', more, ?_, hfailed, hasked, fun _ => ?_⟩
        · rw [busSendbackDataBitbang_of_le _ hzero (Nat.not_lt.mp hsplit), hrun]
        · rw [if_neg hsplit, hcount, Nat.add_zero]

end

/-! ## Long blocks -/

/-- An adapter on a wire with no slaves. -/
def echo : Adapter Unit where
  sendbackData := none
  sendbackBits d s := (some d, s)
  length_sendbackBits := by
    rintro d s r s' h
    rw [← Option.some.inj (Prod.mk.inj h).1]

/-- A long block is sent twice over that wire. -/
theorem echo_long (len : Nat) (h : maxSplitBytes < len) :
    ∃ st, busSendbackDataBitbang echo.recorded (some 0) none len ⟨fun _ => 0, (), []⟩ =
      some (true, st) ∧
      2 * (8 * len) ≤ (sentBits st.bus.2).length := by
  obtain ⟨good, mem', s', more, hrun, hran⟩ := ran_bitbang echo len 0 none (fun _ => 0) () []
  have hgood : good = true := by
    by_contra hbad
    obtain ⟨call, hmem, hnone⟩ := hran.failed.mp (Bool.eq_false_of_not_eq_true hbad)
    obtain ⟨s, hs⟩ := hran.asked call hmem
    rw [hnone] at hs
    cases hs
  have hcount := hran.count hgood
  rw [if_pos h] at hcount
  subst hgood
  exact ⟨_, hrun, by rw [List.nil_append, Nat.two_mul]; exact hcount⟩

/-- **Exactly the blocks that are not split are transferred.** -/
theorem transfersAll_iff (len : Nat) : TransfersAll len ↔ len ≤ maxSplitBytes := by
  constructor
  · intro h
    by_contra hlong
    have hlong := Nat.not_le.mp hlong
    obtain ⟨st', hrun', htwice⟩ := echo_long len hlong
    obtain ⟨good, st, hrun, htrans⟩ := h Unit echo () (fun _ => 0) 0 none
    rw [hrun] at hrun'
    cases hrun'
    have hexact := htrans.count rfl
    rw [Mem.length_read] at hexact
    omega
  · intro hshort σ adapter s mem data resp
    by_cases hzero : len = 0
    · subst hzero
      refine ⟨true, ⟨mem, s, []⟩, by rw [busSendbackDataBitbang, if_pos rfl], ⟨nofun, nofun⟩,
        fun _ => rfl, ?_, ?_⟩
      · rintro - i hi
        exact absurd hi (Nat.not_lt_zero i)
      · rintro - a - i hi
        exact absurd hi (Nat.not_lt_zero i)
    · rw [busSendbackDataBitbang_of_le _ hzero hshort]
      exact transferred_block hzero

/-- Of 21 bytes more bits are sent than there are. -/
theorem long_block_sent_twice :
    ∃ st, busSendbackDataBitbang echo.recorded (some 0) none 21 ⟨fun _ => 0, (), []⟩ =
      some (true, st) ∧
      2 * (8 * 21) ≤ (sentBits st.bus.2).length ∧
      ¬ Transferred (Mem.read (fun _ => 0) 0 21) none st.bus.2 true st.mem := by
  obtain ⟨st, hrun, htwice⟩ := echo_long 21 (by decide)
  refine ⟨st, hrun, htwice, fun htrans => ?_⟩
  have hexact := htrans.count rfl
  rw [Mem.length_read] at hexact
  omega

end Owfs.BitData
