import Owfs.Transaction.Bundle

/-!
# Packing and unpacking

`Pack_item` and `Bundle_unpack` go through the types of items separately. Where both know a type,
the bytes that the one appends are the bytes that the other takes from the reply, so that every item
gets the bytes at its own position.

The bit items are packed, but not unpacked: what follows them in a bundle gets the bytes of the item
before. And the pulse of `TRXN_PROGRAM`, which has no data, is packed and unpacked like a byte that
is sent with power: through a pointer that the macro leaves NULL.
-/

namespace Owfs.Transaction

open Infra

/-! ## Items that are built -/

/-- The pointers that are given to a macro. -/
def Trxn.pointers : Trxn → List Ptr
  | .nverify | .averify | .start | .reset | .delay _ | .program | .nop => []
  | .write p _ | .writeBits p _ | .read p _ | .readBits p _ | .crc8 p _ | .crc16 p _ | .blind p _
  | .power p _ | .powerBit p _ => [p]
  | .modify p q _ | .modifyBits p q _ | .compare p q _ | .compareBits p q _ | .crc16Seeded p _ q =>
      [p, q]

/-- The types that no macro is for. -/
def TransactionType.handmade : TransactionType → Bool
  | .trxnCrc8seeded | .trxnCrc16seeded | .trxnUdelay => true
  | _ => false

/-- An entry of a log: a macro builds it from pointers that are not NULL, or it is made by hand with
two such pointers. -/
structure Entry where
  item : Item
  built : (∃ x : Trxn, x.item = item ∧ none ∉ x.pointers) ∨
    item.type.handmade = true ∧ item.out ≠ none ∧ item.into ≠ none

/-! ## Alignment -/

/-- The loop of `Bundle_unpack` up to some item: what is left of the reply then. -/
def unpackTo : List Entry → Bytes → Mem → Option (Bytes × Mem)
  | [], data, mem => some (data, mem)
  | e :: es, data, mem => do
    let (ret, data, mem) ← unpackItem e.item data mem
    if ret = gbGood then unpackTo es data mem else none

/-- The position behind some items of a block. -/
def position (es : List Entry) : Nat := (es.map fun e => e.item.weight).sum

/-- `Pack_item` and `Bundle_unpack` agree on the entries of a log. -/
structure Aligned (log : List Entry) : Prop where
  /-- As many bytes are taken as were appended. -/
  counts : ∀ e ∈ log, ∀ rest mem tb tb', packItem e.item rest mem tb = some (.good, tb') →
    ∀ data mem' ret left mem'', tb'.mb.length ≤ tb.mb.length + data.length →
      unpackItem e.item data mem' = some (ret, left, mem'') →
      tb.mb.length + data.length = tb'.mb.length + left.length
  /-- What is read goes to where it is read from. -/
  received : ∀ es e more, log = es ++ e :: more → e.item.type = .trxnRead ∨
    e.item.type = .trxnModify →
    ∀ reply mem data mem', unpackTo es reply mem = some (data, mem') →
      ∀ ret left mem'', unpackItem e.item data mem' = some (ret, left, mem'') →
        mem'.deposit e.item.into ((reply.drop (position es)).take e.item.size) = some mem''
  /-- Only pointers that were given are used. -/
  pointers : ∀ e ∈ log, (∀ rest mem tb, (packItem e.item rest mem tb).isSome = true) ∧
    ∀ data mem, (unpackItem e.item data mem).isSome = true

/-- The items that both know: no bits, and no programming pulse. -/
def Item.handled (t : Item) : Bool :=
  match t.type with
  | .trxnBitmatch | .trxnBitread | .trxnBitmodify => t.size = 0
  | .trxnBitpower | .trxnProgram => false
  | _ => true

section

variable {t : Item} {data left : Bytes} {mem mem' : Mem} {ret : Int}

/-- What is taken is the weight of the item. -/
theorem Item.left_of_handled (ht : t.handled = true)
    (h : unpackItem t data mem = some (ret, left, mem')) :
    left = data.drop t.weight := by
  obtain ⟨out, into, size, type⟩ := t
  cases type <;>
    simp only [unpackItem, Item.weight, Item.handled, Option.bind_eq_bind, Option.bind_eq_some_iff,
      Option.some.injEq, Prod.mk.injEq, decide_eq_true_eq, Bool.false_eq_true] at h ht ⊢ <;>
    grind

/-- What is appended is the weight of the item. -/
theorem length_packItem {rest : List Item} {tb tb' : Bundle}
    (h : packItem t rest mem tb = some (.good, tb')) :
    tb'.mb.length = tb.mb.length + t.weight := by
  rw [packItem_eq] at h
  split at h
  · obtain ⟨d, hd, he⟩ := Option.map_eq_some_iff.mp h
    rw [← (Prod.mk.inj he).2, Bundle.count, List.length_append, Item.length_load hd]
  · next hfit => exact absurd (Prod.mk.inj (Option.some.inj h)).1 hfit

theorem isSome_fetch {m : Mem} {p : Ptr} (h : p ≠ none) (n : Nat) :
    (m.fetch p n).isSome = true := by
  obtain ⟨a, rfl⟩ := Option.ne_none_iff_exists'.mp h
  rw [Mem.fetch_some]
  rfl

theorem isSome_deposit {m : Mem} {p : Ptr} (h : p ≠ none) (d : Bytes) :
    (m.deposit p d).isSome = true := by
  obtain ⟨a, rfl⟩ := Option.ne_none_iff_exists'.mp h
  rw [Mem.deposit]
  split <;> rfl

theorem isSome_bind_some {α β : Type} {o : Option α} {f : α → β} (h : o.isSome = true) :
    (o.bind fun a => some (f a)).isSome = true := by
  obtain ⟨a, rfl⟩ := Option.isSome_iff_exists.mp h
  rfl

/-- The pointers that a macro of a handled type needs are given to it. -/
theorem Trxn.pointers_given (x : Trxn) (hp : none ∉ x.pointers) (h : x.item.handled = true) :
    (x.item.load mem).isSome = true ∧ (unpackItem x.item data mem).isSome = true := by
  have hne : ∀ p ∈ x.pointers, p ≠ none := fun p hmem hnone => hp (hnone ▸ hmem)
  cases x with
  | nverify | averify | start | reset | delay msec | nop => exact ⟨rfl, rfl⟩
  | compare p q n | compareBits p q n => exact ⟨rfl, rfl⟩
  | program | powerBit p n => cases h
  | write p n =>
    have hfetch := isSome_fetch (m := mem) (hne p (.head _)) n
    exact ⟨hfetch, isSome_bind_some hfetch⟩
  | blind p n => exact ⟨isSome_fetch (hne p (.head _)) n, rfl⟩
  | writeBits p n | modifyBits p q n => exact ⟨isSome_fetch (hne p (.head _)) n, rfl⟩
  | readBits p n => exact ⟨rfl, rfl⟩
  | read p n => exact ⟨rfl, isSome_bind_some (isSome_deposit (hne p (.head _)) _)⟩
  | modify p q n =>
    exact ⟨isSome_fetch (hne p (.head _)) n,
      isSome_bind_some (isSome_deposit (hne q (.tail _ (.head _))) _)⟩
  | crc8 p n | crc16 p n | crc16Seeded p n seed =>
    exact ⟨rfl, isSome_bind_some (isSome_fetch (hne p (.head _)) n)⟩
  | power p msec =>
    exact ⟨isSome_fetch (hne p (.head _)) 1, isSome_bind_some (isSome_deposit (hne p (.head _)) _)⟩

theorem Entry.pointers_given {e : Entry} (h : e.item.handled = true) :
    (e.item.load mem).isSome = true ∧ (unpackItem e.item data mem).isSome = true := by
  obtain ⟨item, ⟨x, rfl, hp⟩ | ⟨hmade, hout, hinto⟩⟩ := e
  · exact x.pointers_given hp h
  · obtain ⟨out, into, size, type⟩ := item
    obtain ⟨a, rfl⟩ := Option.ne_none_iff_exists'.mp hout
    obtain ⟨b, rfl⟩ := Option.ne_none_iff_exists'.mp hinto
    cases type <;> simp [TransactionType.handmade, Item.load, unpackItem, Mem.fetchUint] at hmade ⊢

/-- Such an entry can be packed, if there is room. -/
theorem Entry.isSome_packItem {e : Entry} (h : e.item.handled = true) (rest : List Item) (mem : Mem)
    (tb : Bundle) :
    (packItem e.item rest mem tb).isSome = true := by
  have hload : (e.item.load mem).isSome = true := (@Entry.pointers_given [] mem e h).1
  obtain ⟨d, hd⟩ := Option.isSome_iff_exists.mp hload
  rw [packItem_eq]
  split
  · rw [hd]
    rfl
  · rfl

/-- What is left of the reply is what stands behind the items. -/
theorem unpackTo_eq {es : List Entry} (hes : ∀ e ∈ es, e.item.handled = true)
    (h : unpackTo es data mem = some (left, mem')) : left = data.drop (position es) := by
  induction es generalizing data mem with
  | nil =>
    cases h
    rfl
  | cons e es ih =>
    obtain ⟨⟨ret, data₁, mem₁⟩, hitem, h⟩ := Option.bind_eq_some_iff.mp h
    dsimp only at h
    split at h
    · rw [ih (fun e' he' => hes e' (List.mem_cons_of_mem e he')) h,
        Item.left_of_handled (hes e List.mem_cons_self) hitem, List.drop_drop]
      rfl
    · cases h

/-- Where all of the reply is left, no bytes were packed. -/
theorem Aligned.weight_eq_zero {log : List Entry} (h : Aligned log) {e : Entry} (he : e ∈ log)
    (hload : (e.item.load mem).isSome = true) (hfit : e.item.fit e.item.weight 0 0 = .good)
    (hleft : ∀ data, unpackItem e.item data mem = some (gbGood, data, mem)) :
    e.item.weight = 0 := by
  obtain ⟨d, hd⟩ := Option.isSome_iff_exists.mp hload
  have hpack : packItem e.item [] mem (bundleInit e.item.weight) =
      some (.good, Bundle.count { bundleInit e.item.weight with
        mb := d
        selectFirst := e.item.isSelect } []) := by
    rw [packItem_eq]
    simp [bundleInit, hfit, hd]
  have hlen := length_packItem hpack
  have hcount := h.counts e he [] mem _ _ hpack (List.replicate e.item.weight 0) mem _ _ _
    (by rw [hlen, List.length_replicate]) (hleft _)
  omega

theorem room_self (n : Nat) : room n 0 n = .good := by
  simp [room]

/-- The other types break the alignment. -/
theorem Aligned.handled {log : List Entry} (h : Aligned log) {e : Entry} (he : e ∈ log) :
    e.item.handled = true := by
  have hweight := fun mem => @Aligned.weight_eq_zero mem log h e he
  have hpointers := (h.pointers e he).1
  obtain ⟨item, ⟨x, rfl, hp⟩ | ⟨hmade, -, -⟩⟩ := e
  · have hne : ∀ p ∈ x.pointers, p ≠ none := fun p hmem hnone => hp (hnone ▸ hmem)
    let mem : Mem := fun _ => 0
    cases x with
    | writeBits p n | modifyBits p q n =>
      exact decide_eq_true
        (hweight mem (isSome_fetch (hne p (.head _)) n) (room_self n) fun data => rfl)
    | readBits p n => exact decide_eq_true (hweight mem rfl (room_self n) fun data => rfl)
    | powerBit p msec =>
      exact absurd (hweight mem (isSome_fetch (hne p (.head _)) 1) rfl fun data => rfl)
        Nat.one_ne_zero
    -- the pulse has room in an empty block, but its pointer is NULL
    | program => cases hpointers [] mem (bundleInit 1)
    | _ => rfl
  · obtain ⟨out, into, size, type⟩ := item
    cases type <;> first
      | rfl
      | cases hmade

end

/-- Packing and unpacking agree exactly on the logs without bits and without programming pulse. -/
theorem aligned_iff (log : List Entry) : Aligned log ↔ ∀ e ∈ log, e.item.handled = true := by
  constructor
  · intro h e he
    exact h.handled he
  · intro h
    refine ⟨?_, ?_, ?_⟩
    · intro e he rest mem tb tb' hpack data mem' ret left mem'' hlen hunpack
      have hpacked := length_packItem hpack
      have hleft := congrArg List.length (Item.left_of_handled (h e he) hunpack)
      rw [List.length_drop] at hleft
      omega
    · intro es e more hlog htype reply mem data mem' hdata ret left mem'' hunpack
      have hes : ∀ e ∈ es, e.item.handled = true := fun e he => h e (by simp [hlog, he])
      rw [← unpackTo_eq hes hdata]
      obtain ⟨⟨out, into, size, type⟩, built⟩ := e
      rcases htype with rfl | rfl
      all_goals
        obtain ⟨m, hm, heq⟩ := Option.bind_eq_some_iff.mp hunpack
        cases heq
        exact hm
    · intro e he
      exact ⟨Entry.isSome_packItem (h e he), fun data mem => (Entry.pointers_given (h e he)).2⟩

/-- Eight bits and a byte, to be read to the addresses 0 and 1. -/
def bitsAndByte : List Entry :=
  [⟨(Trxn.readBits (some 0) 1).item, .inl ⟨.readBits (some 0) 1, rfl, by decide⟩⟩,
    ⟨(Trxn.read (some 1) 1).item, .inl ⟨.read (some 1) 1, rfl, by decide⟩⟩]

/-- Of the two bytes of the reply, the second item gets the first. -/
theorem bitsAndByte_shifted :
    (unpackItems (bitsAndByte.map Entry.item) [0xAA, 0xBB] fun _ => 0).map
    (fun (ret, mem) => (ret, mem 1)) =
        some (gbGood, 0xAA) ∧
      ¬ Aligned bitsAndByte := by
  refine ⟨by decide, fun h => ?_⟩
  have hbits := h.handled (List.mem_cons_self (l := bitsAndByte.tail))
  exact absurd hbits (by decide)

end Owfs.Transaction
