import Owfs.Transaction.Delivery

/-!
# Bundled and sequential execution agree

The bus here is any that answers each byte by what it has seen so far: the selects and the bytes,
in order. Its state is that history, so two runs that end in the same state have put the same
selects and bytes on the bus in the same order.

`bundlePack_eq_good_iff` compares `Bundle_pack` with the loop of `BUS_transaction_nolock` for
every log of the items that travel and every bundle size. A bundle reads all the bytes that it
sends before it unpacks the first reply, so the theorem needs that no item fills what a later one
sends.
-/

namespace Owfs.Transaction

open Infra

/-! ## A bus that answers bytes -/

inductive BusEvent where
  | select
  | byte (b : Byte)
  deriving DecidableEq

/-- The answers of the bus to a select and to a byte, after a history. A byte may be answered by
an error. -/
structure ByteBus where
  select : List BusEvent → Bool
  answer : List BusEvent → Byte → Option Byte

/-- Send a block byte by byte; the first error ends it. -/
def ByteBus.exchange (b : ByteBus) : Bytes → List BusEvent → Option Bytes × List BusEvent
  | [], h => (some [], h)
  | x :: xs, h =>
    match b.answer h x with
    | none => (none, h ++ [.byte x])
    | some r => ((b.exchange xs (h ++ [.byte x])).1.map (r :: ·),
        (b.exchange xs (h ++ [.byte x])).2)

theorem ByteBus.exchange_cons_iff {b : ByteBus} {x : Byte} {xs r : Bytes} {h h' : List BusEvent} :
    b.exchange (x :: xs) h = (some r, h') ↔
      ∃ y ys, y :: ys = r ∧ b.answer h x = some y ∧
        b.exchange xs (h ++ [.byte x]) = (some ys, h') := by
  rw [exchange]
  cases b.answer h x with
  | none => simp
  | some y =>
    simp only [Prod.mk.injEq, Option.map_eq_some_iff]
    constructor
    · rintro ⟨⟨ys, hys, rfl⟩, hh⟩
      exact ⟨y, ys, rfl, rfl, Prod.ext hys hh⟩
    · rintro ⟨_, ys, rfl, hy, hys⟩
      cases hy
      rw [hys]
      exact ⟨⟨ys, rfl, rfl⟩, rfl⟩

theorem ByteBus.length_exchange {b : ByteBus} {d r : Bytes} {h h' : List BusEvent}
    (he : b.exchange d h = (some r, h')) : r.length = d.length := by
  induction d generalizing h r with
  | nil =>
    cases he
    rfl
  | cons x xs ih =>
    obtain ⟨y, ys, rfl, -, hys⟩ := exchange_cons_iff.mp he
    rw [List.length_cons, List.length_cons, ih hys]

/-- The routines of an adapter on such a bus. It has no routine that selects and sends in one go;
what the items of bits and the other operations do is left to `other`. -/
def ByteBus.routines (b : ByteBus) (other : BusRoutines (List BusEvent)) :
    BusRoutines (List BusEvent) :=
  { other with
    select := fun h => (b.select h, h ++ [.select])
    sendbackData := b.exchange
    selectAndSendback := none
    length_sendbackData := ByteBus.length_exchange
    length_selectAndSendback := by simp }

/-- A block may be cut anywhere. -/
theorem ByteBus.exchange_append {b : ByteBus} {d e r : Bytes} {h h' : List BusEvent} :
    b.exchange (d ++ e) h = (some r, h') ↔
      ∃ rd re h₁, rd ++ re = r ∧ b.exchange d h = (some rd, h₁) ∧
        b.exchange e h₁ = (some re, h') := by
  induction d generalizing h r with
  | nil =>
    constructor
    · intro he
      exact ⟨[], r, h, rfl, rfl, he⟩
    · rintro ⟨rd, re, h₁, rfl, hd, he⟩
      cases hd
      exact he
  | cons x xs ih =>
    rw [List.cons_append, exchange_cons_iff]
    constructor
    · rintro ⟨y, ys, rfl, hy, hys⟩
      obtain ⟨rd, re, h₁, rfl, hd, he⟩ := ih.mp hys
      exact ⟨y :: rd, re, h₁, rfl, exchange_cons_iff.mpr ⟨y, rd, rfl, hy, hd⟩, he⟩
    · rintro ⟨rd, re, h₁, rfl, hd, he⟩
      obtain ⟨y, ys, rfl, hy, hys⟩ := exchange_cons_iff.mp hd
      exact ⟨y, ys ++ re, rfl, hy, ih.mpr ⟨ys, re, h₁, rfl, hys, he⟩⟩

section Serial

variable {σ : Type} {bus : BusRoutines σ}

/-- A block may be cut anywhere without a change in the replies. -/
def Serial (bus : BusRoutines σ) : Prop :=
  ∀ {d e r : Bytes} {s s' : σ}, busSendbackData bus (d ++ e) s = (some r, s') ↔
    ∃ rd re s₁, rd ++ re = r ∧ busSendbackData bus d s = (some rd, s₁) ∧
      busSendbackData bus e s₁ = (some re, s')

/-- Every item answers good when it is run alone. -/
abbrev SequentialGood (bus : BusRoutines σ) (xs : List Trxn) (st st' : St σ) : Prop :=
  PlanGood bus (xs.map .single) st st'

theorem planGood_append {segs segs' : List Segment} {st st' : St σ} :
    PlanGood bus (segs ++ segs') st st' ↔
      ∃ st₁, PlanGood bus segs st st₁ ∧ PlanGood bus segs' st₁ st' := by
  induction segs generalizing st with
  | nil => simp [PlanGood]
  | cons seg segs ih =>
    simp only [List.cons_append, PlanGood, ih]
    constructor
    · rintro ⟨st₁, hrun, st₂, h₂, h'⟩
      exact ⟨st₂, ⟨st₁, hrun, h₂⟩, h'⟩
    · rintro ⟨st₂, ⟨st₁, hrun, h₂⟩, h'⟩
      exact ⟨st₁, hrun, st₂, h₂, h'⟩

/-- Sending the bytes of all items and unpacking the replies is running the items one by one. The
bytes are read from the memory `m₀` of the time of packing; `hload` says that they are still
there. -/
theorem send_unpack_iff (hserial : Serial bus) {xs : List Trxn} (hxs : ∀ x ∈ xs, x.travels)
    (hspare : xs.Pairwise Trxn.Spares) {m₀ m m' : Mem} {s s' : σ}
    (hload : ∀ x ∈ xs, x.item.load m = x.item.load m₀) :
    (∃ o r, loads m₀ xs = some o ∧ busSendbackData bus o s = (some r, s') ∧
      unpackItems (xs.map Trxn.item) r m = some (gbGood, m')) ↔
      SequentialGood bus xs ⟨m, s⟩ ⟨m', s'⟩ := by
  induction xs generalizing m s with
  | nil =>
    constructor
    · rintro ⟨o, r, ho, hs, hu⟩
      cases ho
      cases hs
      cases hu
      rfl
    · intro h
      cases h
      exact ⟨[], [], rfl, rfl, rfl⟩
  | cons x xs ih =>
    have hx : x.travels := hxs x List.mem_cons_self
    obtain ⟨hspare_x, hspare_xs⟩ := List.pairwise_cons.mp hspare
    have hload_x : x.item.load m = x.item.load m₀ := hload x List.mem_cons_self
    -- what `x` leaves for the others
    have hnext : ∀ {ox rx : Bytes} {m₁ : Mem} {s₁ : σ}, x.item.load m₀ = some ox →
        busSendbackData bus ox s = (some rx, s₁) → x.Uses rx m m₁ →
        rx.length = x.item.weight ∧ ∀ y ∈ xs, y.item.load m₁ = y.item.load m₀ := by
      intro ox rx m₁ s₁ hox hsx huse
      have hlen : rx.length = x.item.weight :=
        (length_busSendbackData hsx).trans (Item.length_load hox)
      refine ⟨hlen, fun y hy => ?_⟩
      rw [huse.load_eq hx hlen (hspare_x y hy), hload y (List.mem_cons_of_mem x hy)]
    have ih' := fun {m₁ : Mem} {s₁ : σ} hl => ih (m := m₁) (s := s₁)
      (fun y hy => hxs y (List.mem_cons_of_mem x hy)) hspare_xs hl
    constructor
    · rintro ⟨o, r, ho, hs, hu⟩
      obtain ⟨ox, oxs, hox, hoxs, rfl⟩ := loads_cons_eq_some_iff.mp ho
      obtain ⟨rx, rxs, s₁, rfl, hsx, hsxs⟩ := hserial.mp hs
      obtain ⟨data₁, m₁, hux, huxs⟩ := unpackItems_cons_eq_good_iff.mp hu
      have hlen : rx.length = x.item.weight :=
        (length_busSendbackData hsx).trans (Item.length_load hox)
      obtain ⟨rfl, huse⟩ := (unpackItem_eq_good_iff hx hlen).mp hux
      refine ⟨⟨m₁, s₁⟩, ?_, ?_⟩
      · exact (single_eq_good_iff hx).mpr ⟨ox, rx, hload_x.trans hox, hsx, huse⟩
      · exact (ih' (hnext hox hsx huse).2).mp ⟨oxs, data₁, hoxs, hsxs, huxs⟩
    · rintro ⟨⟨m₁, s₁⟩, hrun, hseq⟩
      obtain ⟨ox, rx, hox, hsx, huse⟩ := (single_eq_good_iff hx).mp hrun
      rw [hload_x] at hox
      obtain ⟨hlen, hl⟩ := hnext hox hsx huse
      obtain ⟨oxs, rxs, hoxs, hsxs, huxs⟩ := (ih' hl).mpr hseq
      refine ⟨ox ++ oxs, rx ++ rxs, ?_, ?_, ?_⟩
      · exact loads_cons_eq_some_iff.mpr ⟨ox, oxs, hox, hoxs, rfl⟩
      · exact hserial.mpr ⟨rx, rxs, s₁, rfl, hsx, hsxs⟩
      · exact unpackItems_cons_eq_good_iff.mpr
          ⟨rxs, m₁, (unpackItem_eq_good_iff hx hlen).mpr ⟨rfl, huse⟩, huxs⟩

/-! ## Segments -/

/-- The items that the two executions are compared on. -/
def Trxn.inBlocks : Trxn → Bool
  | .start | .write .. | .read .. | .modify .. | .blind .. | .compare .. | .crc16 ..
  | .crc16Seeded .. | .delay .. | .nop => true
  | _ => false

theorem Trxn.travels_of_inBlocks {x : Trxn} (h : x.inBlocks) (hne : x ≠ .start) : x.travels := by
  cases x <;> first
    | exact absurd rfl hne
    | rfl
    | cases h

theorem Trxn.isSelect_item_of_ne {x : Trxn} (h : x ≠ .start) : x.item.isSelect = false := by
  cases x <;> first
    | rfl
    | exact absurd rfl h

/-- A bundle of items is shipped like the items one by one. A select can only be its first item. -/
theorem shipItems_iff_sequential (hserial : Serial bus) (hnone : bus.selectAndSendback = none)
    {xs : List Trxn} (hxs : ∀ x ∈ xs, x.inBlocks) (hhead : ∀ x ∈ xs.tail, x ≠ .start)
    (hspare : xs.Pairwise Trxn.Spares) {st st' : St σ} :
    shipItems bus xs st = some (gbGood, st') ↔ SequentialGood bus xs st st' := by
  obtain ⟨m, s⟩ := st
  obtain ⟨m', s'⟩ := st'
  rw [shipItems_eq_good_iff]
  have hbody : ∀ (ys : List Trxn) (s₁ : σ), ys.Sublist xs → (∀ y ∈ ys, y ≠ .start) →
      ((∃ o r, loads m ys = some o ∧ busSendbackData bus o s₁ = (some r, s') ∧
        unpackItems (ys.map Trxn.item) r m = some (gbGood, m')) ↔
        SequentialGood bus ys ⟨m, s₁⟩ ⟨m', s'⟩) := by
    intro ys s₁ hsub hys
    exact send_unpack_iff hserial
      (fun y hy => Trxn.travels_of_inBlocks (hxs y (hsub.subset hy)) (hys y hy))
      (hspare.sublist hsub) (fun _ _ => rfl)
  by_cases hstart : ∃ ys, xs = .start :: ys
  · obtain ⟨ys, rfl⟩ := hstart
    have hloads : loads m (.start :: ys) = loads m ys := by
      cases h : loads m ys <;> simp [loads, h, Trxn.item, Item.load]
    rcases hsel : bus.select s with ⟨ok, s₁⟩
    have hroute : ∀ o, bundleEnroute bus ((Trxn.start :: ys).any fun x => x.item.isSelect) o s =
        if ok = true then busSendbackData bus o s₁ else (none, s₁) := by
      intro o
      show busSelectAndSendback bus o s = _
      cases ok <;> simp [busSelectAndSendback, hnone, hsel]
    have hsingle : busTransactionSingle bus Trxn.start.item ⟨m, s⟩ =
        some (goodOrBad ok, ⟨m, s₁⟩) := by
      simp [busTransactionSingle, Trxn.item, hsel]
    simp only [hloads, hroute, SequentialGood, List.map_cons, PlanGood, Segment.run, hsingle]
    cases ok with
    | false => simp [goodOrBad]
    | true =>
      simp only [if_true, Option.some.injEq, Prod.mk.injEq, goodOrBad_eq_good_iff, true_and,
        exists_eq_left']
      exact hbody ys s₁ (List.sublist_cons_self .start ys) hhead
  · have hne : ∀ x ∈ xs, x ≠ .start := by
      intro x hx hxs'
      cases xs with
      | nil => cases hx
      | cons y ys =>
        rcases List.mem_cons.mp hx with rfl | hmem
        · exact hstart ⟨ys, by rw [hxs']⟩
        · exact hhead x hmem hxs'
    have hany : (xs.any fun x => x.item.isSelect) = false := by
      rw [List.any_eq_false]
      intro x hx
      rw [Trxn.isSelect_item_of_ne (hne x hx)]
      exact Bool.false_ne_true
    rw [hany]
    exact hbody xs s (List.Sublist.refl xs) hne

/-- A bundle has a select at its head only. -/
theorem plan_headed {maxSize : Nat} {acc xs : List Trxn} (hacc : ∀ x ∈ acc.tail, x ≠ .start) :
    ∀ seg ∈ plan maxSize acc xs, ∀ x ∈ seg.items.tail, x ≠ .start := by
  induction xs generalizing acc with
  | nil =>
    intro seg hseg
    rw [List.mem_singleton.mp hseg]
    exact hacc
  | cons x xs ih =>
    rw [plan]
    split
    · next hfit =>
      apply ih
      cases acc with
      | nil => simp
      | cons y ys =>
        intro z hz
        rcases List.mem_append.mp (show z ∈ ys ++ [x] from hz) with hz | hz
        · exact hacc z hz
        · rw [List.mem_singleton.mp hz]
          rintro rfl
          cases hfit
    · intro seg hseg
      rcases List.mem_cons.mp hseg with rfl | hseg
      · exact hacc
      · rcases List.mem_cons.mp hseg with rfl | hseg
        · simp [Segment.items]
        · exact ih (by simp) seg hseg
    · intro seg hseg
      rcases List.mem_cons.mp hseg with rfl | hseg
      · exact hacc
      · exact ih (by simp) seg hseg

/-- Segments are run like their items one by one. -/
theorem planGood_iff_sequential (hserial : Serial bus) (hnone : bus.selectAndSendback = none)
    {segs : List Segment} (hkind : ∀ x ∈ segs.flatMap Segment.items, x.inBlocks)
    (hhead : ∀ seg ∈ segs, ∀ x ∈ seg.items.tail, x ≠ .start)
    (hspare : (segs.flatMap Segment.items).Pairwise Trxn.Spares) {st st' : St σ} :
    PlanGood bus segs st st' ↔ SequentialGood bus (segs.flatMap Segment.items) st st' := by
  induction segs generalizing st with
  | nil => rfl
  | cons seg segs ih =>
    rw [List.flatMap_cons] at hkind hspare ⊢
    obtain ⟨hspare_seg, hspare_segs, -⟩ := List.pairwise_append.mp hspare
    have hrun : ∀ st₁, seg.run bus st = some (gbGood, st₁) ↔
        SequentialGood bus seg.items st st₁ := by
      intro st₁
      cases seg with
      | bundle xs =>
        exact shipItems_iff_sequential hserial hnone
          (fun x hx => hkind x (List.mem_append_left _ hx)) (hhead _ List.mem_cons_self) hspare_seg
      | single x =>
        simp [SequentialGood, PlanGood, Segment.items, Segment.run]
    rw [SequentialGood, List.map_append, planGood_append]
    refine exists_congr fun st₁ => and_congr (hrun st₁) ?_
    exact ih (fun x hx => hkind x (List.mem_append_right _ hx))
      (fun seg' hseg' => hhead seg' (List.mem_cons_of_mem seg hseg')) hspare_segs

/-! ## The loop -/

/-- None of these items answers with the code that ends the loop. -/
theorem Trxn.single_ne_other {x : Trxn} (hx : x.inBlocks) (st st' : St σ) :
    busTransactionSingle bus x.item st ≠ some (gbOther, st') := by
  intro h
  obtain ⟨p, n, d, rfl, -⟩ := Trxn.single_eq_other h
  cases hx

/-- Without that code the loop is good when every item is. -/
theorem transactionLoop_eq_good_iff {xs : List Trxn}
    (hne : ∀ x ∈ xs, ∀ st st', busTransactionSingle bus x.item st ≠ some (gbOther, st'))
    {st st' : St σ} :
    transactionLoop bus (logOf xs) st = some (gbGood, st') ↔ SequentialGood bus xs st st' := by
  induction xs generalizing st with
  | nil =>
    constructor
    · intro h
      cases h
      rfl
    · intro h
      cases h
      rfl
  | cons x xs ih =>
    rw [logOf_cons, transactionLoop]
    simp only [SequentialGood, List.map_cons, PlanGood, Segment.run]
    cases hrun : busTransactionSingle bus x.item st with
    | none => simp
    | some a =>
      obtain ⟨ret, st₁⟩ := a
      have hother : ret ≠ gbOther := by
        rintro rfl
        exact hne x List.mem_cons_self st st₁ hrun
      simp only [Option.bind_eq_bind, Option.bind_some, if_neg hother, Option.some.injEq,
        Prod.mk.injEq]
      by_cases hret : ret = gbGood
      · rw [if_pos hret, ih fun y hy => hne y (List.mem_cons_of_mem x hy)]
        simp [hret]
      · rw [if_neg hret]
        simp [hret]

end Serial

/-! ## A comparison at the end of a log

A log that is good up to its last item, which compares two buffers, answers with the verdict of this
comparison, bundled or not.
-/

section Comparison

variable {σ : Type} {bus : BusRoutines σ} {a b n maxSize : Nat}

/-- When the first items answer good, the others decide. -/
theorem unpackItems_append_of_good {xs : List Item} {r : Bytes} {m m' : Mem}
    (h : unpackItems xs r m = some (gbGood, m')) (ys : List Item) :
    ∃ r', unpackItems (xs ++ ys) r m = unpackItems ys r' m' := by
  induction xs generalizing r m with
  | nil =>
    cases h
    exact ⟨r, rfl⟩
  | cons x xs ih =>
    obtain ⟨r₁, m₁, hx, hxs⟩ := unpackItems_cons_eq_good_iff.mp h
    obtain ⟨r', hr'⟩ := ih hxs
    refine ⟨r', ?_⟩
    rw [List.cons_append, unpackItems, hx]
    exact hr'

theorem unpackItems_compare (r : Bytes) (m : Mem) :
    unpackItems [(Trxn.compare (some a) (some b) n).item] r m
      = some (goodOrBad (m.read b n == m.read a n), m) := by
  have hitem : unpackItem (Trxn.compare (some a) (some b) n).item r m
      = some (goodOrBad (m.read b n == m.read a n), r, m) := rfl
  rw [unpackItems, hitem]
  simp only [Option.bind_eq_bind, Option.bind_some]
  split
  · next hgood => rw [hgood, unpackItems]
  · rfl

/-- A comparison adds no byte to the block of a bundle. -/
theorem shipItems_compare {acc : List Trxn} {st st₁ : St σ}
    (h : shipItems bus acc st = some (gbGood, st₁)) :
    shipItems bus (acc ++ [.compare (some a) (some b) n]) st
      = some (goodOrBad (st₁.mem.read b n == st₁.mem.read a n), st₁) := by
  have hloads : loads st.mem (acc ++ [.compare (some a) (some b) n]) = loads st.mem acc := by
    rw [loads_append]
    cases loads st.mem acc <;> simp [loads, Trxn.item, Item.load]
  have hselect : ((acc ++ [Trxn.compare (some a) (some b) n]).any fun x => x.item.isSelect)
      = acc.any fun x => x.item.isSelect := by
    simp [Trxn.item, Item.isSelect]
  rw [shipItems, if_neg (by simp), hloads, hselect, List.map_append]
  by_cases hacc : acc = []
  · subst hacc
    cases h
    show (unpackItems [(Trxn.compare (some a) (some b) n).item] [] st.mem).map _ = _
    rw [unpackItems_compare, Option.map_some]
  · rw [shipItems, if_neg hacc] at h
    obtain ⟨data, hdata, h⟩ := Option.bind_eq_some_iff.mp h
    rw [hdata, Option.bind_eq_bind, Option.bind_some]
    rcases henroute : bundleEnroute bus (acc.any fun x => x.item.isSelect) data st.bus with
      ⟨_ | resp, s⟩ <;> rw [henroute] at h
    · cases h
    · obtain ⟨⟨ret, m⟩, hunpack, he⟩ := Option.map_eq_some_iff.mp h
      cases he
      obtain ⟨r', hr'⟩ := unpackItems_append_of_good hunpack
        [(Trxn.compare (some a) (some b) n).item]
      dsimp only
      rw [List.map_singleton, hr', unpackItems_compare, Option.map_some]

theorem packLoop_compare {acc xs : List Trxn} {tb : Bundle} {st st₁ : St σ}
    (h : Holds maxSize acc (logOf (xs ++ [.compare (some a) (some b) n])) st.mem tb)
    (hplan : PlanGood bus (plan maxSize acc xs) st st₁) :
    packLoop bus (logOf (xs ++ [.compare (some a) (some b) n])) tb st
      = some (goodOrBad (st₁.mem.read b n == st₁.mem.read a n), st₁) := by
  induction xs generalizing acc tb st with
  | nil =>
    obtain ⟨_, hship, rfl⟩ := hplan
    rw [List.nil_append, logOf_cons] at h ⊢
    have hload : (Trxn.compare (some a) (some b) n).item.load st.mem = some [] := rfl
    obtain ⟨tb', -, hship'⟩ := (h.push hload).bundleShip_eq bus
    rw [packLoop, if_neg (Trxn.type_item_ne_end _), h.packItem_eq]
    show packLoop bus (logOf []) _ st = _
    rw [shipItems_compare hship] at hship'
    rw [logOf_nil] at hship' ⊢
    rw [packLoop, if_pos (show Item.trxnEnd.type = .trxnEnd from rfl), hship']
    rfl
  | cons x xs ih =>
    rw [List.cons_append, logOf_cons] at h ⊢
    rw [packLoop, if_neg x.type_item_ne_end, h.packItem_eq]
    rw [plan] at hplan
    cases hfit : x.item.fit maxSize (weights acc) acc.length with
    | good =>
      rw [hfit] at hplan
      cases hd : x.item.load st.mem with
      | none =>
        have hnone : loads st.mem (acc ++ [x]) = none := by
          rw [loads_append, h.mb]
          simp [loads, hd]
        exact absurd hplan (not_planGood_of_loads hnone)
      | some d => exact ih (h.push hd) hplan
    | bad =>
      rw [hfit] at hplan
      obtain ⟨tb', htb', hship'⟩ := h.bundleShip_eq bus
      obtain ⟨st₂, hship, st₃, hsingle, hrest⟩ := hplan
      simp only [Segment.run] at hship hsingle
      simp only [Option.bind_some, returnBadIfBad, hship', hship, Option.map_some, hsingle, if_true]
      exact ih (htb' _ _) hrest
    | other =>
      rw [hfit] at hplan
      obtain ⟨tb', htb', hship'⟩ := h.bundleShip_eq bus
      obtain ⟨st₂, hship, hrest⟩ := hplan
      simp only [Segment.run] at hship
      simp only [Option.bind_some, returnBadIfBad, hship', hship, Option.map_some, if_true]
      rw [(htb' (x.item :: logOf (xs ++ [.compare (some a) (some b) n])) st₂.mem).packItem_eq,
        show x.item.fit maxSize (weights []) ([] : List Trxn).length = .good from
          Item.fit_zero_of_other hfit]
      cases hd : x.item.load st₂.mem with
      | none =>
        have hnone : loads st₂.mem [x] = none := by simp [loads, hd]
        exact absurd hrest (not_planGood_of_loads hnone)
      | some d => exact ih ((htb' (x.item :: logOf (xs ++ _)) st₂.mem).push hd) hrest

theorem transactionLoop_compare {xs : List Trxn} {st st₁ : St σ}
    (h : SequentialGood bus xs st st₁) :
    transactionLoop bus (logOf (xs ++ [.compare (some a) (some b) n])) st
      = some (goodOrBad (st₁.mem.read b n == st₁.mem.read a n), st₁) := by
  induction xs generalizing st with
  | nil =>
    obtain rfl := h
    have hsingle : busTransactionSingle bus (Trxn.compare (some a) (some b) n).item st₁
        = some (goodOrBad (st₁.mem.read b n == st₁.mem.read a n), st₁) := rfl
    rw [List.nil_append, logOf_cons, transactionLoop, hsingle]
    simp only [Option.bind_eq_bind, Option.bind_some, if_neg (goodOrBad_ne_other _)]
    split
    · next hgood =>
      rw [hgood]
      rfl
    · rfl
  | cons x xs ih =>
    obtain ⟨st₂, hsingle, hrest⟩ := h
    simp only [Segment.run] at hsingle
    rw [List.cons_append, logOf_cons, transactionLoop, hsingle]
    exact ih hrest

/-- **The comparison decides.** -/
theorem busTransactionNolock_compare (bundling : Option Nat) {xs : List Trxn}
    (hkind : ∀ x ∈ xs, x.inBlocks) {st st₁ : St σ}
    (h : busTransactionNolock bus bundling (logOf xs) st = some (gbGood, st₁)) :
    busTransactionNolock bus bundling (logOf (xs ++ [.compare (some a) (some b) n])) st
      = some (goodOrBad (st₁.mem.read b n == st₁.mem.read a n), st₁) := by
  cases bundling with
  | none =>
    have hgood := (transactionLoop_eq_good_iff fun x hx => Trxn.single_ne_other (hkind x hx)).mp h
    exact transactionLoop_compare hgood
  | some maxSize =>
    exact packLoop_compare holds_bundleInit ((packLoop_eq_good_iff holds_bundleInit).mp h)

end Comparison

/-! ## Any log, any bundle size -/

theorem ByteBus.serial_routines (b : ByteBus) (other : BusRoutines (List BusEvent)) :
    Serial (b.routines other) := by
  have hsend : ∀ d h, busSendbackData (b.routines other) d h = b.exchange d h := by
    intro d h
    unfold busSendbackData
    split
    · next hd =>
      rw [hd]
      rfl
    · rfl
  intro d e r h h'
  simp only [hsend]
  exact exchange_append

/-- **Bundled execution equals sequential execution.** On every log of these items, for every
bundle size and on every bus that answers each byte by what it has seen so far, `Bundle_pack` is
good if and only if the loop of `BUS_transaction_nolock` is, and then both end in the same state:
the same selects and bytes went over the bus in the same order, and all buffers are equal. -/
theorem bundlePack_eq_good_iff (b : ByteBus) (other : BusRoutines (List BusEvent)) (maxSize : Nat)
    {log : List Trxn} (hkind : ∀ x ∈ log, x.inBlocks) (hspare : log.Pairwise Trxn.Spares)
    (st st' : St (List BusEvent)) :
    bundlePack (b.routines other) maxSize (logOf log) st = some (gbGood, st') ↔
      transactionLoop (b.routines other) (logOf log) st = some (gbGood, st') := by
  have hitems : (plan maxSize [] log).flatMap Segment.items = log := flatMap_plan maxSize [] log
  rw [bundlePack, packLoop_eq_good_iff holds_bundleInit,
    planGood_iff_sequential (b.serial_routines other) rfl (by rwa [hitems])
      (plan_headed (by simp)) (by rwa [hitems]), hitems,
    transactionLoop_eq_good_iff fun x hx => Trxn.single_ne_other (hkind x hx)]

/-- A bus that echoes, but answers a byte of ones by the number of events before it. -/
def countingBus : ByteBus where
  select := fun _ => true
  answer := fun h b => some (if b = 0xFF then BitVec.ofNat 8 h.length else b)

/-- Routines that always fail. -/
def failingRoutines (σ : Type) : BusRoutines σ where
  select := fun s => (false, s)
  selectNoDevice := fun s => (false, s)
  sendbackData := fun _ s => (none, s)
  sendbackBits := fun _ s => (none, s)
  selectAndSendback := none
  powerByte := fun _ _ s => (none, s)
  powerBit := fun _ _ s => (none, s)
  programPulse := fun s => (false, s)
  reset := fun s => (false, s)
  verify := fun _ s => (false, s)
  length_sendbackData := by simp
  length_sendbackBits := by simp
  length_selectAndSendback := by simp

/-- Two selects, an item that is larger than a bundle of three bytes, and a comparison of what was
read with what was modified. -/
def sampleLog : List Trxn :=
  [.start, .write (some 0) 2, .read (some 8) 2, .delay 5, .modify (some 2) (some 16) 4, .start,
    .blind (some 0) 1, .modify (some 8) (some 12) 0, .compare (some 16) (some 2) 4]

theorem bundlePack_sampleLog :
    (∀ x ∈ sampleLog, x.inBlocks) ∧ sampleLog.Pairwise Trxn.Spares ∧
      ∃ st', transactionLoop (countingBus.routines (failingRoutines _)) (logOf sampleLog)
          ⟨fun a => BitVec.ofNat 8 a, []⟩ = some (gbGood, st') ∧
        bundlePack (countingBus.routines (failingRoutines _)) 3 (logOf sampleLog)
          ⟨fun a => BitVec.ofNat 8 a, []⟩ = some (gbGood, st') := by
  have hkind : ∀ x ∈ sampleLog, x.inBlocks := by decide
  have hspare : sampleLog.Pairwise Trxn.Spares := by decide
  have hgood : (transactionLoop (countingBus.routines (failingRoutines _)) (logOf sampleLog)
      ⟨fun a => BitVec.ofNat 8 a, []⟩).map Prod.fst = some gbGood := by decide +kernel
  obtain ⟨⟨ret, st'⟩, hloop, rfl⟩ := Option.map_eq_some_iff.mp hgood
  exact ⟨hkind, hspare, st', hloop,
    (bundlePack_eq_good_iff countingBus (failingRoutines _) 3 hkind hspare _ st').mpr hloop⟩

end Owfs.Transaction
