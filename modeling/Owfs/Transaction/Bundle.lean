import Owfs.Transaction.Log

/-!
# Bundled execution

An adapter with the flag `ADAP_FLAG_bundle` gets the items of a log in bundles: `Pack_item`
appends the bytes of an item to a block, `Bundle_ship` exchanges the block with the bus in one
go and `Bundle_unpack` hands the reply back to the items.

The second half of this module says what that amounts to. `plan` cuts a log into segments by
looking at types and sizes only, and `packLoop_eq_good_iff` shows that `Bundle_pack` runs the
segments of the plan, one after the other.
-/

namespace Owfs.Transaction

open Infra Owfs.Device

/-! ## Packing -/

/-- The answer of `Pack_item`: added, cannot be packed at all, should be at the start. -/
inductive Packing where
  | good
  | bad
  | other
  deriving DecidableEq

/-- `struct transaction_bundle`. `start` is the log from the first packed item on. -/
structure Bundle where
  start : List Item
  packets : Nat
  maxSize : Nat
  mb : Bytes
  selectFirst : Bool

/-- `Bundle_init` -/
def bundleInit (maxSize : Nat) : Bundle := ⟨[], 0, maxSize, [], false⟩

/-- The bundle with one more item, the first of `log`. -/
def Bundle.count (tb : Bundle) (log : List Item) : Bundle :=
  { tb with
    start := if tb.packets = 0 then log else tb.start
    packets := tb.packets + 1 }

/-- Whether `n` more bytes fit into a block that holds `used` bytes. -/
def room (maxSize used n : Nat) : Packing :=
  if maxSize < n then .bad
  else if maxSize < n + used then .other
  else .good

/-- Add the first item of `log` with `n` bytes, if there is room. -/
def Bundle.add (tb : Bundle) (log : List Item) (n : Nat) (data : Option Bytes) :
    Option (Packing × Bundle) :=
  match room tb.maxSize tb.mb.length n with
  | .good => data.map fun d => (.good, Bundle.count { tb with mb := tb.mb ++ d } log)
  | packing => some (packing, tb)

/-- `Pack_item`, for the first item `tl` of `log`. -/
def packItem (tl : Item) (log : List Item) (mem : Mem) (tb : Bundle) : Option (Packing × Bundle) :=
  match tl.type with
  | .trxnSelect =>
    if tb.packets ≠ 0 then some (.other, tb)
    else some (.good, Bundle.count { tb with selectFirst := true } log)
  | .trxnCompare | .trxnBitcompare => some (.good, tb.count log)
  | .trxnRead | .trxnBitread => tb.add log tl.size (some (List.replicate tl.size 0xFF))
  | .trxnMatch | .trxnBitmatch | .trxnModify | .trxnBitmodify | .trxnBlind =>
    tb.add log tl.size (mem.fetch tl.out tl.size)
  | .trxnPower | .trxnBitpower | .trxnProgram => tb.add log 1 (mem.fetch tl.out 1)
  | .trxnCrc8 | .trxnCrc8seeded | .trxnCrc16 | .trxnCrc16seeded => some (.good, tb.count log)
  | .trxnDelay | .trxnUdelay => some (.good, tb.count log)
  | .trxnReset | .trxnEnd | .trxnVerify => some (.bad, tb)
  | .trxnNop => some (.good, tb.count log)

/-! ## Shipping -/

variable {σ : Type} (bus : BusRoutines σ)

/-- `Bundle_enroute` -/
def bundleEnroute (selectFirst : Bool) (mb : Bytes) (s : σ) : Option Bytes × σ :=
  if selectFirst then busSelectAndSendback bus mb s else busSendbackData bus mb s

/-- The body of the loop in `Bundle_unpack`: the answer, and what is left of the reply. -/
def unpackItem (tl : Item) (data : Bytes) (mem : Mem) : Option (Int × Bytes × Mem) :=
  match tl.type with
  | .trxnCompare => some (goodOrBad (compareBuffers (· == ·) tl mem), data, mem)
  | .trxnBitcompare => some (goodOrBad (compareBuffers busCompareBits tl mem), data, mem)
  | .trxnMatch => do
    let out ← mem.fetch tl.out tl.size
    some (goodOrBad (out == data.take tl.size), data.drop tl.size, mem)
  | .trxnRead | .trxnModify => do
    let mem ← mem.deposit tl.into (data.take tl.size)
    some (gbGood, data.drop tl.size, mem)
  | .trxnBlind => some (gbGood, data.drop tl.size, mem)
  | .trxnPower | .trxnProgram => do
    let mem ← mem.deposit tl.into (data.take 1)
    some (gbGood, data.drop 1, mem)
  | .trxnCrc8 => do
    let out ← mem.fetch tl.out tl.size
    some (goodOrBad (Device.crc8 out == 0), data, mem)
  | .trxnCrc8seeded => do
    let seed ← mem.fetchUint tl.into
    let out ← mem.fetch tl.out tl.size
    some (goodOrBad (crc8Compute out (seed.truncate 8) == 0), data, mem)
  | .trxnCrc16 => do
    let out ← mem.fetch tl.out tl.size
    some (goodOrBad (Device.crc16 out == 0), data, mem)
  | .trxnCrc16seeded => do
    let seed ← mem.fetchUint tl.into
    let out ← mem.fetch tl.out tl.size
    some (goodOrBad (Device.crc16Seeded out seed == 0), data, mem)
  | .trxnReset | .trxnEnd | .trxnVerify => some (gbBad, data, mem)
  | .trxnDelay | .trxnUdelay | .trxnNop | .trxnSelect => some (gbGood, data, mem)
  -- the bit items are packed, but here the source only logs that they are not supported
  | .trxnBitmatch | .trxnBitmodify | .trxnBitread | .trxnBitpower => some (gbGood, data, mem)

/-- The loop of `Bundle_unpack` -/
def unpackItems : List Item → Bytes → Mem → Option (Int × Mem)
  | [], _, mem => some (gbGood, mem)
  | tl :: tls, data, mem => do
    let (ret, data, mem) ← unpackItem tl data mem
    if ret = gbGood then unpackItems tls data mem else some (ret, mem)

/-- Clear the bundle. -/
def Bundle.clear (tb : Bundle) : Bundle :=
  { tb with mb := [], packets := 0, selectFirst := false }

/-- `Bundle_ship` with `Bundle_unpack` -/
def bundleShip (tb : Bundle) (st : St σ) : Option (Int × Bundle × St σ) :=
  if tb.packets = 0 then some (gbGood, tb, st)
  else
    match bundleEnroute bus tb.selectFirst tb.mb st.bus with
    | (none, s) => some (gbBad, tb.clear, ⟨st.mem, s⟩)
    | (some resp, s) =>
      (unpackItems (tb.start.take tb.packets) resp st.mem).map fun (ret, mem) =>
        (ret, tb.clear, ⟨mem, s⟩)

/-- `RETURN_BAD_IF_BAD`: go on with the result of a call only when its code is good. -/
def returnBadIfBad {α : Type} (state : α → St σ) (call : Option (Int × α))
    (next : α → Option (Int × St σ)) : Option (Int × St σ) :=
  call.bind fun (ret, a) => if ret = gbGood then next a else some (gbBad, state a)

/-- The loop of `Bundle_pack` -/
def packLoop : List Item → Bundle → St σ → Option (Int × St σ)
  | [], _, _ => none
  | t :: ts, tb, st =>
    if t.type = .trxnEnd then
      (bundleShip bus tb st).map fun (ret, _, st) => (ret, st)
    else
      (packItem t (t :: ts) st.mem tb).bind fun
        | (.good, tb) => packLoop ts tb st
        | (.bad, tb) =>
          returnBadIfBad Prod.snd (bundleShip bus tb st) fun (tb, st) =>
            returnBadIfBad id (busTransactionSingle bus t st) fun st => packLoop ts tb st
        | (.other, tb) =>
          returnBadIfBad Prod.snd (bundleShip bus tb st) fun (tb, st) =>
            (packItem t (t :: ts) st.mem tb).bind fun
              | (.good, tb) => packLoop ts tb st
              | (_, tb) =>
                returnBadIfBad id (busTransactionSingle bus t st) fun st => packLoop ts tb st

/-- `Bundle_pack` -/
def bundlePack (maxSize : Nat) (log : List Item) (st : St σ) : Option (Int × St σ) :=
  packLoop bus log (bundleInit maxSize) st

/-- `BUS_transaction_nolock`. `bundling` is the `bundling_length` of an adapter that has the flag
`ADAP_FLAG_bundle`. -/
def busTransactionNolock (bundling : Option Nat) (log : List Item) (st : St σ) :
    Option (Int × St σ) :=
  match bundling with
  | some maxSize => bundlePack bus maxSize log st
  | none => transactionLoop bus log st

/-! ## The bytes of an item -/

/-- How many bytes of a block an item takes. -/
def Item.weight (t : Item) : Nat :=
  match t.type with
  | .trxnRead | .trxnBitread | .trxnMatch | .trxnBitmatch | .trxnModify | .trxnBitmodify
  | .trxnBlind => t.size
  | .trxnPower | .trxnBitpower | .trxnProgram => 1
  | _ => 0

/-- The bytes that an item adds to a block. -/
def Item.load (t : Item) (m : Mem) : Option Bytes :=
  match t.type with
  | .trxnRead | .trxnBitread => some (List.replicate t.size 0xFF)
  | .trxnMatch | .trxnBitmatch | .trxnModify | .trxnBitmodify | .trxnBlind => m.fetch t.out t.size
  | .trxnPower | .trxnBitpower | .trxnProgram => m.fetch t.out 1
  | _ => some []

/-- Whether an item can join `packets` items with `used` bytes. -/
def Item.fit (t : Item) (maxSize used packets : Nat) : Packing :=
  match t.type with
  | .trxnSelect => if packets = 0 then .good else .other
  | .trxnReset | .trxnEnd | .trxnVerify => .bad
  | .trxnRead | .trxnBitread | .trxnMatch | .trxnBitmatch | .trxnModify | .trxnBitmodify
  | .trxnBlind => room maxSize used t.size
  | .trxnPower | .trxnBitpower | .trxnProgram => room maxSize used 1
  | _ => .good

def Item.isSelect (t : Item) : Bool :=
  match t.type with
  | .trxnSelect => true
  | _ => false

theorem Item.length_load {t : Item} {m : Mem} {d : Bytes} (h : t.load m = some d) :
    d.length = t.weight := by
  obtain ⟨out, into, size, type⟩ := t
  cases type <;> first
    | exact Mem.length_fetch h
    | rw [← Option.some.inj h]; rfl
    | rw [← Option.some.inj h]; exact List.length_replicate

/-- What `Pack_item` does, said by `fit` and `load`. -/
theorem packItem_eq (tl : Item) (log : List Item) (mem : Mem) (tb : Bundle) :
    packItem tl log mem tb =
      match tl.fit tb.maxSize tb.mb.length tb.packets with
      | .good => (tl.load mem).map fun d =>
          (.good, Bundle.count { tb with
            mb := tb.mb ++ d
            selectFirst := tb.selectFirst || tl.isSelect } log)
      | packing => some (packing, tb) := by
  obtain ⟨out, into, size, type⟩ := tl
  cases type with
  | trxnSelect =>
    by_cases h : tb.packets = 0 <;>
      simp [packItem, Item.fit, Item.load, Item.isSelect, h]
  | _ => simp [packItem, Item.fit, Item.load, Item.isSelect, Bundle.add]

theorem room_zero_of_other {maxSize used n : Nat} (h : room maxSize used n = .other) :
    room maxSize 0 n = .good := by
  unfold room at h ⊢
  split at h
  · cases h
  · next hle => rw [if_neg hle, if_neg (by omega)]

/-- An item that does not fit behind others fits at the start. -/
theorem Item.fit_zero_of_other {t : Item} {maxSize used packets : Nat}
    (h : t.fit maxSize used packets = .other) : t.fit maxSize 0 0 = .good := by
  obtain ⟨out, into, size, type⟩ := t
  cases type <;> first
    | cases h
    | exact room_zero_of_other h
    | rfl

/-! ## The plan of a log -/

/-- A piece of a log that is run in one go. -/
inductive Segment where
  | bundle (xs : List Trxn)
  | single (x : Trxn)
  deriving DecidableEq

def Segment.items : Segment → List Trxn
  | .bundle xs => xs
  | .single x => [x]

def weights (xs : List Trxn) : Nat := (xs.map fun x => x.item.weight).sum

/-- How `Bundle_pack` cuts the rest `xs` of a log when the items `acc` are packed already. -/
def plan (maxSize : Nat) : List Trxn → List Trxn → List Segment
  | acc, [] => [.bundle acc]
  | acc, x :: xs =>
    match x.item.fit maxSize (weights acc) acc.length with
    | .good => plan maxSize (acc ++ [x]) xs
    | .bad => .bundle acc :: .single x :: plan maxSize [] xs
    | .other => .bundle acc :: plan maxSize [x] xs

/-- No item is lost, doubled or moved. -/
theorem flatMap_plan (maxSize : Nat) (acc xs : List Trxn) :
    (plan maxSize acc xs).flatMap Segment.items = acc ++ xs := by
  induction xs generalizing acc with
  | nil => simp [plan, Segment.items]
  | cons x xs ih =>
    rw [plan]
    split
    · rw [ih, List.append_assoc, List.singleton_append]
    · simp [Segment.items, ih]
    · simp [Segment.items, ih]

/-- The packed items are shipped first. -/
theorem plan_eq_cons (maxSize : Nat) (acc xs : List Trxn) :
    ∃ more segs, plan maxSize acc xs = .bundle (acc ++ more) :: segs := by
  induction xs generalizing acc with
  | nil => exact ⟨[], [], by rw [plan, List.append_nil]⟩
  | cons x xs ih =>
    rw [plan]
    split
    · obtain ⟨more, segs, h⟩ := ih (acc ++ [x])
      exact ⟨[x] ++ more, segs, by rw [h, List.append_assoc]⟩
    · exact ⟨[], _, by rw [List.append_nil]⟩
    · exact ⟨[], _, by rw [List.append_nil]⟩

/-- The block that a bundle of items sends. -/
def loads (m : Mem) : List Trxn → Option Bytes
  | [] => some []
  | x :: xs => do
    let d ← x.item.load m
    let ds ← loads m xs
    some (d ++ ds)

theorem loads_append (m : Mem) (xs ys : List Trxn) :
    loads m (xs ++ ys) = (loads m xs).bind fun d => (loads m ys).map fun e => d ++ e := by
  induction xs with
  | nil => simp [loads]
  | cons x xs ih =>
    cases hx : x.item.load m with
    | none => simp [loads, hx]
    | some d =>
      cases hxs : loads m xs with
      | none => simp [loads, hx, ih, hxs]
      | some ds => cases hys : loads m ys <;> simp [loads, hx, ih, hxs, hys]

theorem length_loads {m : Mem} {xs : List Trxn} {d : Bytes} (h : loads m xs = some d) :
    d.length = weights xs := by
  induction xs generalizing d with
  | nil => rw [← Option.some.inj h]; rfl
  | cons x xs ih =>
    obtain ⟨e, he, h⟩ := Option.bind_eq_some_iff.mp h
    obtain ⟨es, hes, h⟩ := Option.bind_eq_some_iff.mp h
    rw [← Option.some.inj h, List.length_append, Item.length_load he, ih hes]
    rfl

/-- Send the block of a bundle and hand the reply out. -/
def shipItems (xs : List Trxn) (st : St σ) : Option (Int × St σ) :=
  if xs = [] then some (gbGood, st)
  else do
    let data ← loads st.mem xs
    match bundleEnroute bus (xs.any fun x => x.item.isSelect) data st.bus with
    | (none, s) => some (gbBad, ⟨st.mem, s⟩)
    | (some resp, s) =>
      (unpackItems (xs.map Trxn.item) resp st.mem).map fun (ret, mem) => (ret, ⟨mem, s⟩)

def Segment.run : Segment → St σ → Option (Int × St σ)
  | .bundle xs, st => shipItems bus xs st
  | .single x, st => busTransactionSingle bus x.item st

/-- Every segment answers good, from `st` to `st'`. -/
def PlanGood : List Segment → St σ → St σ → Prop
  | [], st, st' => st' = st
  | seg :: segs, st, st' => ∃ st₁, seg.run bus st = some (gbGood, st₁) ∧ PlanGood segs st₁ st'

/-! ## The loop follows the plan -/

/-- The bundle holds the items `acc`, and `log` is what follows them. -/
structure Holds (maxSize : Nat) (acc : List Trxn) (log : List Item) (m : Mem) (tb : Bundle) :
    Prop where
  maxSize : tb.maxSize = maxSize
  packets : tb.packets = acc.length
  start : acc ≠ [] → tb.start = acc.map Trxn.item ++ log
  mb : loads m acc = some tb.mb
  selectFirst : tb.selectFirst = acc.any fun x => x.item.isSelect

variable {bus} {maxSize : Nat} {acc : List Trxn} {log : List Item} {m : Mem} {tb : Bundle}

theorem holds_bundleInit : Holds maxSize [] log m (bundleInit maxSize) where
  maxSize := rfl
  packets := rfl
  start := fun h => absurd rfl h
  mb := rfl
  selectFirst := rfl

namespace Holds

theorem clear (h : Holds maxSize acc log m tb) (log' : List Item) (m' : Mem) :
    Holds maxSize [] log' m' tb.clear where
  maxSize := h.maxSize
  packets := rfl
  start := fun hne => absurd rfl hne
  mb := rfl
  selectFirst := rfl

theorem take_start (h : Holds maxSize acc log m tb) (hne : acc ≠ []) :
    tb.start.take tb.packets = acc.map Trxn.item := by
  rw [h.start hne, h.packets]
  exact List.take_left' (List.length_map _)

/-- An item that fits joins the bundle. -/
theorem push {x : Trxn} {d : Bytes} (h : Holds maxSize acc (x.item :: log) m tb)
    (hd : x.item.load m = some d) :
    Holds maxSize (acc ++ [x]) log m (Bundle.count { tb with
      mb := tb.mb ++ d
      selectFirst := tb.selectFirst || x.item.isSelect } (x.item :: log)) where
  maxSize := h.maxSize
  packets := by simp [Bundle.count, h.packets]
  start := by
    intro _
    cases acc with
    | nil => simp [Bundle.count, h.packets]
    | cons y ys =>
      have hstart := h.start (List.cons_ne_nil y ys)
      simp [Bundle.count, h.packets, hstart]
  mb := by simp [loads_append, h.mb, loads, hd, Bundle.count]
  selectFirst := by simp [Bundle.count, h.selectFirst]

theorem packItem_eq (h : Holds maxSize acc log m tb) (x : Trxn) (log' : List Item) :
    packItem x.item log' m tb =
      match x.item.fit maxSize (weights acc) acc.length with
      | .good => (x.item.load m).map fun d =>
          (.good, Bundle.count { tb with
            mb := tb.mb ++ d
            selectFirst := tb.selectFirst || x.item.isSelect } log')
      | packing => some (packing, tb) := by
  rw [Transaction.packItem_eq, h.maxSize, length_loads h.mb, h.packets]

/-- Shipping the bundle ships the items and leaves an empty bundle. -/
theorem bundleShip_eq (bus : BusRoutines σ) {st : St σ} (h : Holds maxSize acc log st.mem tb) :
    ∃ tb', (∀ log' m', Holds maxSize [] log' m' tb') ∧
      bundleShip bus tb st = (shipItems bus acc st).map fun (ret, st') => (ret, tb', st') := by
  by_cases hne : acc = []
  · subst hne
    refine ⟨tb, fun log' m' => ?_, ?_⟩
    · exact ⟨h.maxSize, h.packets, fun hc => absurd rfl hc, h.mb, h.selectFirst⟩
    · simp [bundleShip, shipItems, h.packets]
  · refine ⟨tb.clear, h.clear, ?_⟩
    have hp : tb.packets ≠ 0 := by
      rw [h.packets]
      exact fun h0 => hne (List.length_eq_zero_iff.mp h0)
    rw [bundleShip, if_neg hp, shipItems, if_neg hne, h.mb, h.take_start hne, h.selectFirst]
    simp only [Option.bind_eq_bind, Option.bind_some]
    split
    · rfl
    · rw [Option.map_map]
      rfl

end Holds

/-- A bundle with an item that cannot be read does not answer good. -/
theorem not_planGood_of_loads {st st' : St σ} {xs : List Trxn} (h : loads st.mem acc = none) :
    ¬ PlanGood bus (plan maxSize acc xs) st st' := by
  obtain ⟨more, segs, hplan⟩ := plan_eq_cons maxSize acc xs
  rw [hplan]
  rintro ⟨st₁, hrun, -⟩
  have hne : acc ++ more ≠ [] := by
    intro h0
    rw [(List.append_eq_nil_iff.mp h0).1] at h
    cases h
  rw [Segment.run, shipItems, if_neg hne, loads_append, h] at hrun
  cases hrun

theorem returnBadIfBad_eq_good_iff {α : Type} {state : α → St σ} {call : Option (Int × α)}
    {next : α → Option (Int × St σ)} {st' : St σ} :
    returnBadIfBad state call next = some (gbGood, st') ↔
      ∃ a, call = some (gbGood, a) ∧ next a = some (gbGood, st') := by
  unfold returnBadIfBad
  rw [Option.bind_eq_some_iff]
  constructor
  · rintro ⟨⟨ret, a⟩, hcall, h⟩
    simp only at h
    split at h
    · next hret => exact ⟨a, by rw [hcall, hret], h⟩
    · cases h
  · rintro ⟨a, hcall, h⟩
    exact ⟨(gbGood, a), hcall, by simp [h]⟩

/-- Going on after the bundle was shipped. -/
theorem Holds.returnBadIfBad_ship {st st' : St σ} (h : Holds maxSize acc log st.mem tb)
    {next : Bundle × St σ → Option (Int × St σ)} {segs : List Segment}
    (hnext : ∀ tb₁ st₁, (∀ log' m', Holds maxSize [] log' m' tb₁) →
      (next (tb₁, st₁) = some (gbGood, st') ↔ PlanGood bus segs st₁ st')) :
    returnBadIfBad Prod.snd (bundleShip bus tb st) next = some (gbGood, st') ↔
      PlanGood bus (.bundle acc :: segs) st st' := by
  obtain ⟨tb₁, htb₁, hship⟩ := h.bundleShip_eq bus
  rw [returnBadIfBad_eq_good_iff, hship]
  constructor
  · rintro ⟨a, hcall, h⟩
    obtain ⟨⟨ret, st₁⟩, hs, he⟩ := Option.map_eq_some_iff.mp hcall
    cases he
    exact ⟨st₁, hs, (hnext tb₁ st₁ htb₁).mp h⟩
  · rintro ⟨st₁, hs, h⟩
    refine ⟨(tb₁, st₁), ?_, (hnext tb₁ st₁ htb₁).mpr h⟩
    rw [show shipItems bus acc st = some (gbGood, st₁) from hs]
    rfl

/-- **`Bundle_pack` runs the segments of the plan.** -/
theorem packLoop_eq_good_iff {st st' : St σ} {xs : List Trxn}
    (h : Holds maxSize acc (logOf xs) st.mem tb) :
    packLoop bus (logOf xs) tb st = some (gbGood, st') ↔
      PlanGood bus (plan maxSize acc xs) st st' := by
  induction xs generalizing acc tb st with
  | nil =>
    obtain ⟨tb', -, hship⟩ := h.bundleShip_eq bus
    rw [logOf_nil, packLoop, if_pos (show Item.trxnEnd.type = .trxnEnd from rfl), hship,
      Option.map_map, plan]
    constructor
    · intro hs
      obtain ⟨⟨ret, st₁⟩, hs, he⟩ := Option.map_eq_some_iff.mp hs
      cases he
      exact ⟨st', hs, rfl⟩
    · rintro ⟨_, hs, rfl⟩
      rw [show shipItems bus acc st = some (gbGood, st') from hs]
      rfl
  | cons x xs ih =>
    rw [logOf_cons] at h ⊢
    rw [packLoop, if_neg x.type_item_ne_end, h.packItem_eq, plan]
    cases hfit : x.item.fit maxSize (weights acc) acc.length with
    | good =>
      cases hd : x.item.load st.mem with
      | none =>
        have hnone : loads st.mem (acc ++ [x]) = none := by
          rw [loads_append, h.mb]
          simp [loads, hd]
        simp [not_planGood_of_loads hnone]
      | some d => exact ih (h.push hd)
    | bad =>
      simp only [Option.bind_some]
      refine h.returnBadIfBad_ship fun tb₁ st₁ htb₁ => ?_
      rw [returnBadIfBad_eq_good_iff]
      exact exists_congr fun st₂ => and_congr_right fun _ => ih (htb₁ _ _)
    | other =>
      simp only [Option.bind_some]
      refine h.returnBadIfBad_ship fun tb₁ st₁ htb₁ => ?_
      simp only [(htb₁ (x.item :: logOf xs) st₁.mem).packItem_eq]
      rw [show x.item.fit maxSize (weights []) ([] : List Trxn).length = .good from
        Item.fit_zero_of_other hfit]
      cases hd : x.item.load st₁.mem with
      | none =>
        have hnone : loads st₁.mem [x] = none := by simp [loads, hd]
        simp [not_planGood_of_loads hnone]
      | some d => exact ih ((htb₁ (x.item :: logOf xs) st₁.mem).push hd)

end Owfs.Transaction
