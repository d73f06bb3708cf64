import Owfs.Transaction.Bundle

/-!
# Items that travel in a block

Most items do the same alone and in a bundle: alone, `BUS_transaction_single` sends the bytes of
the item and uses the reply at once; in a bundle the bytes go out in a block and
`Bundle_unpack` uses the reply later. `single_eq_good_iff` makes that precise for every item that
travels, one case for each kind.
-/

namespace Owfs.Transaction

open Infra Owfs.Device

/-- The items that a bundle treats like the loop does. The others are bus operations, items of
bits, and items with power. -/
def Trxn.travels : Trxn → Bool
  | .write .. | .read .. | .modify .. | .blind .. | .compare .. | .compareBits .. | .crc8 ..
  | .crc16 .. | .crc16Seeded .. | .delay .. | .nop => true
  | _ => false

variable {σ : Type} {bus : BusRoutines σ}

/-! ## Sending -/

@[simp] theorem busSendbackData_nil (s : σ) : busSendbackData bus [] s = (some [], s) := rfl

theorem length_busSendbackData {d r : Bytes} {s s' : σ}
    (h : busSendbackData bus d s = (some r, s')) : r.length = d.length := by
  unfold busSendbackData at h
  split at h
  · next hd =>
    cases h
    rw [hd]
  · exact bus.length_sendbackData h

/-- `BUS_send_data` is good when the echo is the data. -/
theorem busSendData_eq_good_iff {d : Bytes} {s s' : σ} :
    busSendData bus d s = (gbGood, s') ↔ busSendbackData bus d s = (some d, s') := by
  unfold busSendData
  rcases busSendbackData bus d s with ⟨_ | r, s₁⟩
  · simp
  · simp only [Prod.mk.injEq, goodOrBad_eq_good_iff, beq_iff_eq, Option.some.injEq]
    rw [eq_comm (a := d)]

theorem sendInto_eq_good_iff {send : Bytes → σ → Option Bytes × σ} {d : Bytes} {p : Ptr}
    {m m' : Mem} {s s' : σ} :
    sendInto send d p ⟨m, s⟩ = some (gbGood, ⟨m', s'⟩) ↔
      ∃ r, send d s = (some r, s') ∧ m.deposit p r = some m' := by
  unfold sendInto
  rcases hsend : send d s with ⟨_ | r, s₁⟩
  · simp
  · constructor
    · intro h
      obtain ⟨m₁, hm, he⟩ := Option.map_eq_some_iff.mp h
      cases he
      exact ⟨r, rfl, hm⟩
    · rintro ⟨_, he, hm⟩
      cases he
      simp [hm]

/-- The ones that were sent leave no trace in the buffer. -/
theorem readin_eq_good_iff {send : Bytes → σ → Option Bytes × σ} {p : Ptr} {n : Nat}
    {m m' : Mem} {s s' : σ}
    (hlen : ∀ {d s r s'}, send d s = (some r, s') → r.length = d.length) :
    readin send p n ⟨m, s⟩ = some (gbGood, ⟨m', s'⟩) ↔
      ∃ r, send (List.replicate n 0xFF) s = (some r, s') ∧ m.deposit p r = some m' := by
  unfold readin
  cases hm : m.deposit p (List.replicate n 0xFF) with
  | none =>
    constructor
    · intro h
      cases h
    · rintro ⟨r, hr, hd⟩
      rw [Mem.deposit_eq_none hm (hlen hr)] at hd
      cases hd
  | some m₁ =>
    have hfetch := (Mem.deposit_deposit (e := List.replicate n 0xFF) hm rfl).1
    rw [List.length_replicate] at hfetch
    simp only [Option.bind_eq_bind, Option.bind_some, hfetch]
    rw [sendInto_eq_good_iff]
    refine exists_congr fun r => and_congr_right fun hr => ?_
    rw [(Mem.deposit_deposit hm (hlen hr)).2]

/-! ## Alone and in a block -/

/-- The check of an item that only looks at the memory, as the code makes it. -/
def Trxn.Passes (x : Trxn) (m : Mem) : Prop :=
  match x with
  | .compare .. => compareBuffers (· == ·) x.item m = true
  | .compareBits .. => compareBuffers busCompareBits x.item m = true
  | .crc8 p n => ∃ d, m.fetch p n = some d ∧ Device.crc8 d = 0
  | .crc16 p n | .crc16Seeded p n _ => ∃ d, m.fetch p n = some d ∧ Device.crc16 d = 0
  | _ => True

/-- What an item does with its part `r` of the reply. -/
def Trxn.Uses (x : Trxn) (r : Bytes) (m m' : Mem) : Prop :=
  match x with
  | .write p n => m.fetch p n = some r ∧ m' = m
  | .read p _ | .modify _ p _ => m.deposit p r = some m'
  | x => x.Passes m ∧ m' = m

/-- A check answers good and keeps what it is given. -/
theorem check_eq_good_iff {α : Type} {ret : Int} {a b : α} :
    some (ret, a) = some (gbGood, b) ↔ ret = gbGood ∧ b = a := by
  rw [Option.some.injEq, Prod.mk.injEq, eq_comm (a := a)]

/-- A check of the bytes behind a pointer. -/
theorem fetch_check_eq_good_iff {α : Type} {m : Mem} {p : Ptr} {n : Nat} {check : Bytes → Int}
    {a b : α} : ((m.fetch p n).bind fun d => some (check d, a)) = some (gbGood, b) ↔
      (∃ d, m.fetch p n = some d ∧ check d = gbGood) ∧ b = a := by
  simp only [Option.bind_eq_some_iff, check_eq_good_iff]
  constructor
  · rintro ⟨d, hd, hcheck, rfl⟩
    exact ⟨⟨d, hd, hcheck⟩, rfl⟩
  · rintro ⟨⟨d, hd, hcheck⟩, rfl⟩
    exact ⟨d, hd, hcheck, rfl⟩

theorem crc8_eq_good_iff {d : Bytes} : ((Device.crc8 d).toNat : Int) = gbGood ↔
    Device.crc8 d = 0 := by
  simp [gbGood, BitVec.toNat_eq]

/-- `Bundle_unpack` takes the part of one item off the reply. -/
theorem unpackItem_eq_good_iff {x : Trxn} (hx : x.travels) {m m' : Mem} {r rest data : Bytes}
    (hr : r.length = x.item.weight) :
    unpackItem x.item (r ++ rest) m = some (gbGood, data, m') ↔ data = rest ∧ x.Uses r m m' := by
  have hnil : x.item.weight = 0 → r ++ rest = rest := by
    intro h
    rw [List.length_eq_zero_iff.mp (hr.trans h), List.nil_append]
  cases x with
  | write p n =>
    have htake : (r ++ rest).take n = r := List.take_left' hr
    have hdrop : (r ++ rest).drop n = rest := List.drop_left' hr
    simp only [unpackItem, Trxn.item, Trxn.Uses, htake, hdrop, Option.bind_eq_bind,
      fetch_check_eq_good_iff, goodOrBad_eq_good_iff, beq_iff_eq, exists_eq_right, Prod.mk.injEq]
    exact and_left_comm
  | read p n | modify _ p n =>
    have htake : (r ++ rest).take n = r := List.take_left' hr
    have hdrop : (r ++ rest).drop n = rest := List.drop_left' hr
    simp only [unpackItem, Trxn.item, Trxn.Uses, htake, hdrop, Option.bind_eq_bind,
      Option.bind_eq_some_iff, check_eq_good_iff, Prod.mk.injEq]
    constructor
    · rintro ⟨m₁, hdep, -, rfl, rfl⟩
      exact ⟨rfl, hdep⟩
    · rintro ⟨rfl, hdep⟩
      exact ⟨m', hdep, trivial, rfl, rfl⟩
  | blind p n =>
    have hdrop : (r ++ rest).drop n = rest := List.drop_left' hr
    simp only [unpackItem, Trxn.item, Trxn.Uses, Trxn.Passes, hdrop, check_eq_good_iff,
      Prod.mk.injEq, true_and]
  | compare p q n | compareBits p q n =>
    simp only [unpackItem, Trxn.item, Trxn.Uses, Trxn.Passes, hnil rfl, check_eq_good_iff,
      goodOrBad_eq_good_iff, Prod.mk.injEq]
    exact and_left_comm
  | crc8 p n | crc16 p n | crc16Seeded p n _ =>
    simp only [unpackItem, Trxn.item, Trxn.Uses, Trxn.Passes, hnil rfl, Option.bind_eq_bind,
      fetch_check_eq_good_iff, goodOrBad_eq_good_iff, beq_iff_eq, Prod.mk.injEq]
    exact and_left_comm
  | delay msec | nop =>
    simp only [unpackItem, Trxn.item, Trxn.Uses, Trxn.Passes, hnil rfl, check_eq_good_iff,
      Prod.mk.injEq, true_and]
  | _ => cases hx

/-- An item without bytes does not touch the bus. -/
theorem exists_send_nil_iff {s s' : σ} {P : Prop} :
    (∃ o r, some [] = some o ∧ busSendbackData bus o s = (some r, s') ∧ P) ↔ s' = s ∧ P := by
  constructor
  · rintro ⟨_, r, ho, hs, hP⟩
    cases ho
    cases hs
    exact ⟨rfl, hP⟩
  · rintro ⟨rfl, hP⟩
    exact ⟨[], [], rfl, rfl, hP⟩

/-- A match is good when its bytes come back. -/
theorem single_write_eq_good_iff {p : Ptr} {n : Nat} {m m' : Mem} {s s' : σ} :
    busTransactionSingle bus (Trxn.write p n).item ⟨m, s⟩ = some (gbGood, ⟨m', s'⟩) ↔
      ∃ o r, m.fetch p n = some o ∧ busSendbackData bus o s = (some r, s') ∧
        m.fetch p n = some r ∧ m' = m := by
  -- nothing is sent of an empty match, and it counts as echoed
  have hsingle : busTransactionSingle bus (Trxn.write p n).item ⟨m, s⟩ =
      (m.fetch p n).bind fun d =>
        some ((busSendData bus d s).1, ⟨m, (busSendData bus d s).2⟩) := by
    by_cases hn : n = 0
    · subst hn
      rw [Mem.fetch_zero]
      rfl
    · simp [busTransactionSingle, Trxn.item, hn]
  rw [hsingle]
  simp only [Option.bind_eq_some_iff, check_eq_good_iff]
  constructor
  · rintro ⟨d, hd, hret, he⟩
    cases he
    have hs := busSendData_eq_good_iff.mp (Prod.ext hret rfl)
    exact ⟨d, d, hd, hs, hd, rfl⟩
  · rintro ⟨d, r, hd, hs, hr, rfl⟩
    obtain rfl : d = r := Option.some.inj (hd.symm.trans hr)
    have hsend := busSendData_eq_good_iff.mpr hs
    exact ⟨d, hd, by rw [hsend], by rw [hsend]⟩

/-- A blind item is good when it is answered at all. -/
theorem single_blind_eq_good_iff {p : Ptr} {n : Nat} {m m' : Mem} {s s' : σ} :
    busTransactionSingle bus (Trxn.blind p n).item ⟨m, s⟩ = some (gbGood, ⟨m', s'⟩) ↔
      ∃ o r, m.fetch p n = some o ∧ busSendbackData bus o s = (some r, s') ∧ True ∧ m' = m := by
  have hsingle : busTransactionSingle bus (Trxn.blind p n).item ⟨m, s⟩ =
      (m.fetch p n).bind fun d =>
        some (goodOrBad (busSendbackData bus d s).1.isSome, ⟨m, (busSendbackData bus d s).2⟩) := by
    simp [busTransactionSingle, Trxn.item]
  rw [hsingle]
  simp only [Option.bind_eq_some_iff, check_eq_good_iff, goodOrBad_eq_good_iff,
    Option.isSome_iff_exists, true_and]
  constructor
  · rintro ⟨d, hd, ⟨r, hr⟩, he⟩
    cases he
    exact ⟨d, r, hd, Prod.ext hr rfl, rfl⟩
  · rintro ⟨d, r, hd, hs, rfl⟩
    exact ⟨d, hd, ⟨r, by rw [hs]⟩, by rw [hs]⟩

/-- **An item that travels does the same alone as in a block**: its bytes are sent and its part of
the reply is used. -/
theorem single_eq_good_iff {x : Trxn} (hx : x.travels) {m m' : Mem} {s s' : σ} :
    busTransactionSingle bus x.item ⟨m, s⟩ = some (gbGood, ⟨m', s'⟩) ↔
      ∃ o r, x.item.load m = some o ∧ busSendbackData bus o s = (some r, s') ∧ x.Uses r m m' := by
  cases x with
  | write p n => exact single_write_eq_good_iff
  | read p n =>
    have hload : (Trxn.read p n).item.load m = some (List.replicate n 0xFF) := rfl
    have hreadin : busTransactionSingle bus (Trxn.read p n).item ⟨m, s⟩ = some (gbGood, ⟨m', s'⟩) ↔
        readin (busSendbackData bus) p n ⟨m, s⟩ = some (gbGood, ⟨m', s'⟩) := by
      by_cases hn : n = 0
      · subst hn
        rfl
      · simp [busTransactionSingle, Trxn.item, hn]
    rw [hreadin, hload, readin_eq_good_iff length_busSendbackData]
    simp only [Trxn.Uses, Option.some.injEq, exists_and_left, exists_eq_left']
  | modify p q n =>
    simp only [busTransactionSingle, Trxn.item, Item.load, Trxn.Uses, Option.bind_eq_bind,
      Option.bind_eq_some_iff, sendInto_eq_good_iff, exists_and_left]
  | blind p n => exact single_blind_eq_good_iff
  | compare p q n | compareBits p q n =>
    simp only [busTransactionSingle, Trxn.item, Item.load, Trxn.Uses, Trxn.Passes,
      exists_send_nil_iff, check_eq_good_iff, goodOrBad_eq_good_iff, St.mk.injEq]
    rw [← and_assoc, and_comm]
  | crc8 p n =>
    simp only [busTransactionSingle, Trxn.item, Item.load, Trxn.Uses, Trxn.Passes,
      exists_send_nil_iff, Option.bind_eq_bind, fetch_check_eq_good_iff, crc8_eq_good_iff,
      St.mk.injEq]
    rw [← and_assoc, and_comm]
  | crc16 p n | crc16Seeded p n seed =>
    simp only [busTransactionSingle, Trxn.item, Item.load, Trxn.Uses, Trxn.Passes,
      exists_send_nil_iff, Option.bind_eq_bind, fetch_check_eq_good_iff, St.mk.injEq]
    rw [← and_assoc, and_comm]
  | delay msec | nop =>
    simp only [busTransactionSingle, Trxn.item, Item.load, Trxn.Uses, Trxn.Passes,
      exists_send_nil_iff, check_eq_good_iff, St.mk.injEq, true_and]
    exact and_comm
  | _ => cases hx

theorem unpackItems_cons_eq_good_iff {t : Item} {ts : List Item} {data : Bytes} {m m' : Mem} :
    unpackItems (t :: ts) data m = some (gbGood, m') ↔
      ∃ data₁ m₁, unpackItem t data m = some (gbGood, data₁, m₁) ∧
        unpackItems ts data₁ m₁ = some (gbGood, m') := by
  simp only [unpackItems, Option.bind_eq_bind, Option.bind_eq_some_iff, Prod.exists]
  constructor
  · rintro ⟨ret, data₁, m₁, h, hts⟩
    split at hts
    · next hret => exact ⟨data₁, m₁, by rw [h, hret], hts⟩
    · next hret =>
      cases hts
      exact absurd rfl hret
  · rintro ⟨data₁, m₁, h, hts⟩
    exact ⟨gbGood, data₁, m₁, h, by rw [if_pos rfl, hts]⟩

theorem loads_cons_eq_some_iff {m : Mem} {x : Trxn} {xs : List Trxn} {o : Bytes} :
    loads m (x :: xs) = some o ↔
      ∃ ox oxs, x.item.load m = some ox ∧ loads m xs = some oxs ∧ ox ++ oxs = o := by
  simp only [loads, Option.bind_eq_bind, Option.bind_eq_some_iff, Option.some.injEq,
    exists_and_left]

/-- A bundle answers good when its block is answered and every item is content. -/
theorem shipItems_eq_good_iff {xs : List Trxn} {m m' : Mem} {s s' : σ} :
    shipItems bus xs ⟨m, s⟩ = some (gbGood, ⟨m', s'⟩) ↔
      ∃ o r, loads m xs = some o ∧
        bundleEnroute bus (xs.any fun x => x.item.isSelect) o s = (some r, s') ∧
        unpackItems (xs.map Trxn.item) r m = some (gbGood, m') := by
  unfold shipItems
  split
  · next hxs =>
    subst hxs
    constructor
    · intro h
      cases h
      exact ⟨[], [], rfl, rfl, rfl⟩
    · rintro ⟨o, r, ho, hs, hu⟩
      cases ho
      cases hs
      cases hu
      rfl
  · cases ho : loads m xs with
    | none => simp
    | some o =>
      simp only [Option.bind_eq_bind, Option.bind_some, Option.some.injEq, exists_eq_left',
        exists_and_left]
      rcases bundleEnroute bus (xs.any fun x => x.item.isSelect) o s with ⟨_ | r, s₁⟩
      · simp
      · constructor
        · intro h
          obtain ⟨⟨ret, m₁⟩, hu, he⟩ := Option.map_eq_some_iff.mp h
          cases he
          exact ⟨r, rfl, hu⟩
        · rintro ⟨_, he, hu⟩
          cases he
          exact Option.map_eq_some_iff.mpr ⟨_, hu, rfl⟩

/-! ## The code that ends the loop -/

theorem sendInto_ne_other {send : Bytes → σ → Option Bytes × σ} {d : Bytes} {p : Ptr}
    {st st' : St σ} : sendInto send d p st ≠ some (gbOther, st') := by
  unfold sendInto
  split
  · simp
  · simp

theorem readin_ne_other {send : Bytes → σ → Option Bytes × σ} {p : Ptr} {n : Nat}
    {st st' : St σ} : readin send p n st ≠ some (gbOther, st') := by
  intro h
  obtain ⟨m, -, h⟩ := Option.bind_eq_some_iff.mp h
  obtain ⟨d, -, h⟩ := Option.bind_eq_some_iff.mp h
  exact sendInto_ne_other h

theorem powered_ne_other {send : Byte → Nat → σ → Option Byte × σ} {t : Item} {st st' : St σ} :
    powered send t st ≠ some (gbOther, st') := by
  intro h
  obtain ⟨d, -, h⟩ := Option.bind_eq_some_iff.mp h
  split at h
  · cases h
  · obtain ⟨m, -, h⟩ := Option.map_eq_some_iff.mp h
    cases h

theorem busSendData_ne_other (d : Bytes) (s : σ) : (busSendData bus d s).1 ≠ gbOther := by
  unfold busSendData
  split
  · exact (by decide : gbBad ≠ gbOther)
  · exact goodOrBad_ne_other _

theorem busSendBits_ne_other (d : Bytes) (s : σ) : (busSendBits bus d s).1 ≠ gbOther := by
  unfold busSendBits
  split
  · exact (by decide : gbBad ≠ gbOther)
  · exact goodOrBad_ne_other _

theorem crc16_ne_other (d : Bytes) : Device.crc16 d ≠ gbOther := by
  unfold Device.crc16 Device.crc16Seeded
  split <;> decide

/-- **Only a checksum with residue two is taken for the end of the log.** -/
theorem Trxn.single_eq_other {x : Trxn} {st st' : St σ}
    (h : busTransactionSingle bus x.item st = some (gbOther, st')) :
    ∃ p n d, x = .crc8 p n ∧ st.mem.fetch p n = some d ∧ Device.crc8 d = 2 := by
  have fst_eq : ∀ {ret : Int} {st₁ : St σ}, some (ret, st₁) = some (gbOther, st') →
    ret = gbOther := fun he => congrArg Prod.fst (Option.some.inj he)
  cases x with
  | start | reset | program | compare p q n | compareBits p q n =>
    exact absurd (fst_eq h) (goodOrBad_ne_other _)
  | nverify | averify =>
    simp only [busTransactionSingle, Trxn.item] at h
    split at h
    · cases h
    · exact absurd (fst_eq h) (goodOrBad_ne_other _)
  | write p n =>
    by_cases hn : n = 0
    · subst hn
      cases h
    · simp only [busTransactionSingle, Trxn.item, ne_eq, not_true_eq_false, if_false, hn] at h
      obtain ⟨d, -, h⟩ := Option.bind_eq_some_iff.mp h
      exact absurd (fst_eq h) (busSendData_ne_other d st.bus)
  | writeBits p n =>
    by_cases hn : n = 0
    · subst hn
      cases h
    · simp only [busTransactionSingle, Trxn.item, ne_eq, not_true_eq_false, if_false, hn] at h
      obtain ⟨d, -, h⟩ := Option.bind_eq_some_iff.mp h
      exact absurd (fst_eq h) (busSendBits_ne_other d st.bus)
  | read p n | readBits p n =>
    by_cases hn : n = 0
    · subst hn
      cases h
    · simp only [busTransactionSingle, Trxn.item, ne_eq, not_true_eq_false, if_false, hn] at h
      exact absurd h readin_ne_other
  | modify p q n | modifyBits p q n =>
    obtain ⟨d, -, h⟩ := Option.bind_eq_some_iff.mp h
    exact absurd h sendInto_ne_other
  | blind p n =>
    obtain ⟨d, -, h⟩ := Option.bind_eq_some_iff.mp h
    exact absurd (fst_eq h) (goodOrBad_ne_other _)
  | power p msec | powerBit p msec => exact absurd h powered_ne_other
  | crc8 p n =>
    obtain ⟨d, hd, h⟩ := Option.bind_eq_some_iff.mp h
    have hres : ((Device.crc8 d).toNat : Int) = 2 := fst_eq h
    exact ⟨p, n, d, rfl, hd, BitVec.eq_of_toNat_eq (Int.ofNat_inj.mp hres)⟩
  | crc16 p n | crc16Seeded p n seed =>
    obtain ⟨d, -, h⟩ := Option.bind_eq_some_iff.mp h
    exact absurd (fst_eq h) (crc16_ne_other d)
  | delay msec | nop => cases h

/-! ## Buffers of other items -/

/-- The buffer that an item fills. -/
def Trxn.filled : Trxn → Ptr × Nat
  | .read p n | .modify _ p n | .readBits p n | .modifyBits _ p n => (p, n)
  | .power p _ | .powerBit p _ => (p, 1)
  | _ => (none, 0)

/-- The out buffer of an item that sends it. -/
def Trxn.sent : Trxn → Ptr × Nat
  | .write p n | .modify p _ n | .blind p n | .writeBits p n | .modifyBits p _ n => (p, n)
  | .power p _ | .powerBit p _ => (p, 1)
  | _ => (none, 0)

/-- `x` does not fill what `y` sends. -/
def Trxn.Spares (x y : Trxn) : Prop := Mem.PtrApart x.filled.1 x.filled.2 y.sent.1 y.sent.2

instance (x y : Trxn) : Decidable (x.Spares y) :=
  inferInstanceAs (Decidable (Mem.PtrApart ..))

/-- The bytes of an item depend on the buffer that it sends. -/
theorem Trxn.load_congr {y : Trxn} {m m' : Mem}
    (h : m'.fetch y.sent.1 y.sent.2 = m.fetch y.sent.1 y.sent.2) :
    y.item.load m' = y.item.load m := by
  cases y <;> first
    | exact h
    | rfl

/-- An item leaves the bytes of the items that it spares. -/
theorem Trxn.Uses.load_eq {x y : Trxn} (hx : x.travels) {r : Bytes} {m m' : Mem}
    (h : x.Uses r m m') (hr : r.length = x.item.weight) (hxy : x.Spares y) :
    y.item.load m' = y.item.load m := by
  cases x with
  | read p n | modify _ p n =>
    refine Trxn.load_congr (Mem.fetch_deposit_of_apart h ?_)
    rw [hr]
    exact hxy
  | write | blind | compare | compareBits | crc8 | crc16 | crc16Seeded | delay | nop => rw [h.2]
  | _ => cases hx

end Owfs.Transaction
