import Owfs.Transaction.Equivalence

/-!
# What a good transaction has done

`Executed` says that every item of a log was carried out and that every check held: each echo is
what was sent, compared buffers are equal, and every checksum has its residue. It does not
mention return codes.

`BUS_transaction_nolock` does not promise that much. It takes the CRC8 residue 2 for the end of
the log, `TRXN_CRC16_seeded` builds an item that ignores its seed, a bundle does not look at items
of bits, and it compares an echo with a buffer that an earlier reply may have filled. `RunSafe`
excludes exactly these, at each step that the run reaches, and `transaction_good_iff` shows that a
good run has executed its log if and only if it was safe.
-/

namespace Owfs.Transaction

open Infra Owfs.Device

/-! ## Executed items -/

/-- The residue of a seeded CRC16 is right. -/
def SeededResidue (m : Mem) (d : Bytes) (seed : Ptr) : Prop :=
  ∃ w, m.fetchUint seed = some w ∧ crc16Compute d w = crc16Residue

/-- The check that a macro stands for. -/
def Trxn.Checked (x : Trxn) (m : Mem) : Prop :=
  match x with
  | .compare p q n => ∃ a b, p = some a ∧ q = some b ∧ m.read a n = m.read b n
  | .compareBits p q n => ∃ a b, p = some a ∧ q = some b ∧ ∀ i < n, m (a + i) = 0 ↔ m (b + i) = 0
  | .crc8 p n => ∃ d, m.fetch p n = some d ∧ crc8Compute d 0 = 0
  | .crc16 p n => ∃ d, m.fetch p n = some d ∧ crc16Compute d 0 = crc16Residue
  | .crc16Seeded p n seed => ∃ d, m.fetch p n = some d ∧ SeededResidue m d seed
  | _ => True

/-- The item got its part of a reply: the bytes `o` were sent for it and `r` came back. Items of
bits cannot be served by a block of bytes, unless they are empty. -/
def Trxn.Delivered (x : Trxn) (o r : Bytes) (m m' : Mem) : Prop :=
  match x with
  | .write _ _ => r = o ∧ m' = m
  | .read p _ | .modify _ p _ | .power p _ => m.deposit p r = some m'
  | .writeBits _ n | .readBits _ n | .modifyBits _ _ n => n = 0 ∧ m' = m
  | .nverify | .averify | .reset | .powerBit _ _ | .program => False
  | x => x.Checked m ∧ m' = m

variable {σ : Type} (bus : BusRoutines σ)

/-- The item was carried out by itself. -/
def Trxn.ExecutedAlone (x : Trxn) (st st' : St σ) : Prop :=
  match x with
  | .start => bus.select st.bus = (true, st'.bus) ∧ st'.mem = st.mem
  | .reset => bus.reset st.bus = (true, st'.bus) ∧ st'.mem = st.mem
  | .program => bus.programPulse st.bus = (true, st'.bus) ∧ st'.mem = st.mem
  | .nverify => (∃ s, bus.selectNoDevice st.bus = (true, s) ∧
      bus.verify 0xF0 s = (true, st'.bus)) ∧ st'.mem = st.mem
  | .averify => (∃ s, bus.selectNoDevice st.bus = (true, s) ∧
      bus.verify 0xEC s = (true, st'.bus)) ∧ st'.mem = st.mem
  | .power p msec => ∃ d r, st.mem.fetch p 1 = some [d] ∧
      bus.powerByte d msec st.bus = (some r, st'.bus) ∧ st.mem.deposit p [r] = some st'.mem
  | .powerBit p msec => ∃ d r, st.mem.fetch p 1 = some [d] ∧
      bus.powerBit d msec st.bus = (some r, st'.bus) ∧ st.mem.deposit p [r] = some st'.mem
  | .writeBits p n => n = 0 ∧ st' = st ∨ n ≠ 0 ∧ ∃ d r, st.mem.fetch p n = some d ∧
      bus.sendbackBits d st.bus = (some r, st'.bus) ∧ d.map (· == 0) = r.map (· == 0) ∧
      st'.mem = st.mem
  | .readBits p n => n = 0 ∧ st' = st ∨ n ≠ 0 ∧ ∃ r,
      bus.sendbackBits (List.replicate n 0xFF) st.bus = (some r, st'.bus) ∧
      st.mem.deposit p r = some st'.mem
  | .modifyBits p q n => ∃ d r, st.mem.fetch p n = some d ∧
      bus.sendbackBits d st.bus = (some r, st'.bus) ∧ st.mem.deposit q r = some st'.mem
  | x => ∃ o r, x.item.load st.mem = some o ∧ busSendbackData bus o st.bus = (some r, st'.bus) ∧
      x.Delivered o r st.mem st'.mem

/-- A reply is handed out to the items, each taking as many bytes as were sent for it. The bytes
were read from the memory `m₀`. -/
def DeliveredAll (m₀ : Mem) : List Trxn → Bytes → Mem → Mem → Prop
  | [], r, m, m' => r = [] ∧ m' = m
  | x :: xs, r, m, m' => ∃ o rx rxs m₁, x.item.load m₀ = some o ∧ rx ++ rxs = r ∧
      rx.length = o.length ∧ x.Delivered o rx m m₁ ∧ DeliveredAll m₀ xs rxs m₁ m'

def Segment.Executed : Segment → St σ → St σ → Prop
  | .single x, st, st' => x.ExecutedAlone bus st st'
  | .bundle xs, st, st' => ∃ o r, loads st.mem xs = some o ∧
      bundleEnroute bus (xs.any fun x => x.item.isSelect) o st.bus = (some r, st'.bus) ∧
      DeliveredAll st.mem xs r st.mem st'.mem

/-- Every item of the segments was carried out and every check among them held. -/
def Executed : List Segment → St σ → St σ → Prop
  | [], st, st' => st' = st
  | seg :: segs, st, st' => ∃ st₁, seg.Executed bus st st₁ ∧ Executed segs st₁ st'

/-! ## Safe steps -/

/-- The item ignores the seed; that does no harm where the seed leads to the same verdict. -/
def SeedAgrees (m : Mem) (p : Ptr) (n : Nat) (seed : Ptr) : Prop :=
  ∀ d, m.fetch p n = some d → crc16Compute d 0 = crc16Residue → SeededResidue m d seed

/-- The condition on the memory when an item is run alone. -/
def Trxn.SafeAlone (x : Trxn) (m : Mem) : Prop :=
  match x with
  | .crc8 p n => ∀ d, m.fetch p n = some d → Device.crc8 d ≠ 2
  | .crc16Seeded p n seed => SeedAgrees m p n seed
  | _ => True

/-- The condition on the memory when an item is unpacked for which the bytes `o` were packed. -/
def Trxn.SafePacked (x : Trxn) (o : Bytes) (m : Mem) : Prop :=
  match x with
  | .write p n => m.fetch p n = some o
  | .crc16Seeded p n seed => SeedAgrees m p n seed
  | .writeBits _ n | .readBits _ n | .modifyBits _ _ n => n = 0
  | .powerBit _ _ => False
  | _ => True

/-- Every item is safe when its turn comes to be unpacked. -/
def UnpackSafe (m₀ : Mem) : List Trxn → Bytes → Mem → Prop
  | [], _, _ => True
  | x :: xs, data, m => (∀ o, x.item.load m₀ = some o → x.SafePacked o m) ∧
      ∀ data₁ m₁, unpackItem x.item data m = some (gbGood, data₁, m₁) → UnpackSafe m₀ xs data₁ m₁

def Segment.Safe : Segment → St σ → Prop
  | .single x, st => x.SafeAlone st.mem
  | .bundle xs, st => ∀ o r s', loads st.mem xs = some o →
      bundleEnroute bus (xs.any fun x => x.item.isSelect) o st.bus = (some r, s') →
      UnpackSafe st.mem xs r st.mem

/-- Every segment that the run reaches is safe. -/
def RunSafe : List Segment → St σ → Prop
  | [], _ => True
  | seg :: segs, st => seg.Safe bus st ∧
      ∀ st₁, seg.run bus st = some (gbGood, st₁) → RunSafe segs st₁

/-- How the items of a log are grouped. -/
def segments (bundling : Option Nat) (log : List Trxn) : List Segment :=
  match bundling with
  | some maxSize => plan maxSize [] log
  | none => log.map .single

theorem flatMap_segments (bundling : Option Nat) (log : List Trxn) :
    (segments bundling log).flatMap Segment.items = log := by
  cases bundling with
  | some maxSize => exact flatMap_plan maxSize [] log
  | none => simp [segments, List.flatMap_map, Segment.items]

/-! ## One item -/

variable {bus}

theorem busCompareBits_read_iff {m : Mem} {a b n : Nat} :
    busCompareBits (m.read a n) (m.read b n) = true ↔ ∀ i < n, m (a + i) = 0 ↔ m (b + i) = 0 := by
  rw [busCompareBits, beq_iff_eq, Mem.read, Mem.read, List.map_map, List.map_map,
    List.map_inj_left]
  refine forall_congr' fun i => imp_congr List.mem_range ?_
  rw [Bool.eq_iff_iff]
  simp

/-- The checks of the code are those of the macros, but for the seeded checksum. -/
theorem Trxn.passes_iff_checked {x : Trxn} {m : Mem} (hx : ∀ p n seed, x ≠ .crc16Seeded p n seed) :
    x.Passes m ↔ x.Checked m := by
  cases x with
  | compare p q n =>
    cases p with
    | none => cases q <;> simp [Passes, Checked, compareBuffers, Trxn.item]
    | some a =>
      cases q with
      | none => simp [Passes, Checked, compareBuffers, Trxn.item]
      | some b =>
        simp only [Passes, Checked, compareBuffers, Trxn.item, beq_iff_eq, Option.some.injEq,
          exists_and_left, exists_eq_left']
        exact eq_comm
  | compareBits p q n =>
    cases p with
    | none => cases q <;> simp [Passes, Checked, compareBuffers, Trxn.item]
    | some a =>
      cases q with
      | none => simp [Passes, Checked, compareBuffers, Trxn.item]
      | some b =>
        simp only [Passes, Checked, compareBuffers, Trxn.item, busCompareBits_read_iff,
          Option.some.injEq, exists_and_left, exists_eq_left']
        exact forall_congr' fun i => imp_congr_right fun _ => iff_comm
  | crc8 p n => rfl
  | crc16 p n => exact exists_congr fun d => and_congr_right fun _ => crc16Seeded_eq_zero_iff
  | crc16Seeded p n seed => exact absurd rfl (hx p n seed)
  | _ => rfl

/-- An item that used its part of the reply was served, if it was safe. -/
theorem Trxn.Uses.delivered_iff {x : Trxn} (hx : x.travels) {o r : Bytes} {m m₁ m₂ : Mem}
    (h : x.Uses r m m₁) : x.Delivered o r m m₂ ↔ x.SafePacked o m ∧ m₂ = m₁ := by
  cases x with
  | write p n =>
    obtain ⟨hfetch, rfl⟩ := h
    simp only [Delivered, SafePacked, hfetch, Option.some.injEq]
  | read p n | modify _ p n =>
    have hdep : m.deposit p r = some m₁ := h
    simp only [Delivered, SafePacked, hdep, Option.some.injEq, true_and]
    exact eq_comm
  | crc16Seeded p n seed =>
    obtain ⟨⟨d, hd, hcrc⟩, rfl⟩ := h
    have hres : crc16Compute d 0 = crc16Residue := crc16Seeded_eq_zero_iff.mp hcrc
    simp only [Delivered, SafePacked, Checked, SeedAgrees, hd, Option.some.injEq, exists_eq_left',
      forall_eq', hres, true_implies]
  | blind | compare | compareBits | crc8 | crc16 | delay | nop =>
    obtain ⟨hpass, rfl⟩ := h
    have hcheck := (Trxn.passes_iff_checked (by simp)).mp hpass
    simp only [Delivered, SafePacked, hcheck, true_and]
  | _ => cases hx

/-! ## Items of a bundle -/

/-- An item that `Bundle_unpack` is content with was served, if it was safe, and then it took its
part of the reply. -/
theorem unpackItem_delivered {x : Trxn} {o rx rest data : Bytes} {m₀ m m₁ : Mem}
    (hload : x.item.load m₀ = some o) (hlen : rx.length = o.length)
    (hun : unpackItem x.item (rx ++ rest) m = some (gbGood, data, m₁)) :
    (∀ m₂, x.Delivered o rx m m₂ ↔ x.SafePacked o m ∧ m₂ = m₁) ∧
      (x.SafePacked o m → data = rest) := by
  have hnil : o = [] → rx = [] := by
    rintro rfl
    exact List.length_eq_zero_iff.mp hlen
  by_cases hx : x.travels
  · obtain ⟨rfl, huse⟩ :=
      (unpackItem_eq_good_iff hx (hlen.trans (Item.length_load hload))).mp hun
    exact ⟨fun m₂ => huse.delivered_iff hx, fun _ => rfl⟩
  · cases x with
    | start =>
      cases hun
      cases hload
      exact ⟨fun m₂ => Iff.rfl, fun _ => by rw [hnil rfl, List.nil_append]⟩
    | power p msec =>
      have hone : rx.length = 1 := hlen.trans (Item.length_load hload)
      obtain ⟨m', hdep, he⟩ := Option.bind_eq_some_iff.mp hun
      rw [List.take_left' hone] at hdep
      rw [List.drop_left' hone] at he
      cases he
      refine ⟨fun m₂ => ?_, fun _ => rfl⟩
      have hdep : m.deposit p rx = some m₁ := hdep
      simp only [Trxn.Delivered, Trxn.SafePacked, hdep, Option.some.injEq, true_and]
      exact eq_comm
    | writeBits p n | readBits p n | modifyBits p q n =>
      cases hun
      refine ⟨fun m₂ => Iff.rfl, fun hn => ?_⟩
      have hn : n = 0 := hn
      subst hn
      cases hload
      rw [hnil rfl, List.nil_append]
    | powerBit p msec => exact ⟨fun m₂ => ⟨False.elim, fun h => h.1⟩, False.elim⟩
    | nverify | averify | reset => cases hun
    | program => cases hload
    | _ => exact absurd rfl hx

theorem length_bundleEnroute {selectFirst : Bool} {o r : Bytes} {s s' : σ}
    (h : bundleEnroute bus selectFirst o s = (some r, s')) : r.length = o.length := by
  unfold bundleEnroute at h
  split at h
  · unfold busSelectAndSendback at h
    split at h
    · next f hf => exact bus.length_selectAndSendback f hf h
    · split at h
      · cases h
      · exact length_busSendbackData h
  · exact length_busSendbackData h

/-- A bundle that was unpacked without complaint served its items, if they were safe. -/
theorem unpackItems_delivered {xs : List Trxn} {o r : Bytes} {m₀ m m' : Mem}
    (hload : loads m₀ xs = some o) (hlen : r.length = o.length)
    (hun : unpackItems (xs.map Trxn.item) r m = some (gbGood, m')) (m₂ : Mem) :
    DeliveredAll m₀ xs r m m₂ ↔ UnpackSafe m₀ xs r m ∧ m₂ = m' := by
  induction xs generalizing o r m with
  | nil =>
    cases hload
    cases hun
    simp [DeliveredAll, UnpackSafe, List.length_eq_zero_iff.mp hlen]
  | cons x xs ih =>
    obtain ⟨ox, oxs, hox, hoxs, rfl⟩ := loads_cons_eq_some_iff.mp hload
    obtain ⟨data, m₁, hux, huxs⟩ := unpackItems_cons_eq_good_iff.mp hun
    -- the part of `x` and the rest of the reply
    obtain ⟨rx, rxs, rfl, hrx⟩ : ∃ rx rxs, rx ++ rxs = r ∧ rx.length = ox.length :=
      ⟨r.take ox.length, r.drop ox.length, List.take_append_drop _ _, by simp [hlen]⟩
    have hrxs : rxs.length = oxs.length := by
      simp only [List.length_append] at hlen
      omega
    obtain ⟨hdel, hrest⟩ := unpackItem_delivered hox hrx hux
    constructor
    · rintro ⟨o', rx', rxs', m₁', ho', hr', hlen', hd, hall⟩
      obtain rfl : ox = o' := Option.some.inj (hox.symm.trans ho')
      obtain ⟨rfl, rfl⟩ := List.append_inj hr' (hlen'.trans hrx.symm)
      obtain ⟨hsafe, rfl⟩ := (hdel m₁').mp hd
      obtain rfl := hrest hsafe
      obtain ⟨hall, rfl⟩ := (ih hoxs hrxs huxs).mp hall
      refine ⟨⟨fun o' ho' => ?_, fun data₁ m₁ h₁ => ?_⟩, rfl⟩
      · rwa [← Option.some.inj (hox.symm.trans ho')]
      · cases hux.symm.trans h₁
        exact hall
    · rintro ⟨⟨hsafe, hall⟩, rfl⟩
      have hsafe := hsafe ox hox
      obtain rfl := hrest hsafe
      exact ⟨ox, rx, data, m₁, hox, rfl, hrx, (hdel m₁).mpr ⟨hsafe, rfl⟩,
        (ih hoxs hrxs huxs).mpr ⟨hall data m₁ hux, rfl⟩⟩

/-! ## Items that are run alone -/

theorem Trxn.executedAlone_iff {x : Trxn} (hx : x.travels) {st st' : St σ} :
    x.ExecutedAlone bus st st' ↔ ∃ o r, x.item.load st.mem = some o ∧
      busSendbackData bus o st.bus = (some r, st'.bus) ∧ x.Delivered o r st.mem st'.mem := by
  cases x <;> first
    | rfl
    | cases hx

/-- Run alone, an item sends what it is compared with, so only the checksums matter. -/
theorem Trxn.Uses.safePacked_iff {x : Trxn} (hx : x.travels) {o r : Bytes} {m m₁ : Mem}
    (h : x.Uses r m m₁) (hload : x.item.load m = some o) : x.SafePacked o m ↔ x.SafeAlone m := by
  cases x with
  | write p n =>
    have hfetch : m.fetch p n = some o := hload
    simp only [SafePacked, SafeAlone, hfetch]
  | crc8 p n =>
    obtain ⟨⟨d, hd, hcrc⟩, -⟩ := h
    have hne : Device.crc8 d ≠ 2 := by
      rw [hcrc]
      decide
    simpa only [SafePacked, SafeAlone, hd, Option.some.injEq, forall_eq', true_iff] using hne
  | read | modify | blind | compare | compareBits | crc16 | crc16Seeded | delay | nop => rfl
  | _ => cases hx

/-- A routine that only knows good and bad. -/
theorem routine_executed_iff {routine : σ → Bool × σ} {m m₁ m₂ : Mem} {s s₁ s₂ : σ}
    (h : some (goodOrBad (routine s).1, St.mk m (routine s).2) = some (gbGood, St.mk m₁ s₁)) :
    routine s = (true, s₂) ∧ m₂ = m ↔ True ∧ St.mk m₂ s₂ = St.mk m₁ s₁ := by
  obtain ⟨hret, he⟩ := check_eq_good_iff.mp h
  cases he
  rw [goodOrBad_eq_good_iff] at hret
  simp only [Prod.ext_iff, hret, true_and, St.mk.injEq]
  rw [and_comm, eq_comm (a := s₂)]

/-- `BUS_send_bits` is good when the echo has the same bits. -/
theorem busSendBits_eq_good_iff {d : Bytes} {s s' : σ} :
    busSendBits bus d s = (gbGood, s') ↔
      ∃ r, bus.sendbackBits d s = (some r, s') ∧ d.map (· == 0) = r.map (· == 0) := by
  unfold busSendBits busCompareBits
  rcases bus.sendbackBits d s with ⟨_ | r, s₁⟩
  · simp
  · simp only [Prod.mk.injEq, goodOrBad_eq_good_iff, beq_iff_eq, Option.some.injEq]
    constructor
    · rintro ⟨h, rfl⟩
      exact ⟨r, ⟨rfl, rfl⟩, h⟩
    · rintro ⟨_, ⟨rfl, rfl⟩, h⟩
      exact ⟨h, rfl⟩

/-- A routine that sends a byte with power. -/
theorem powered_executed_iff {send : Byte → Nat → σ → Option Byte × σ} {t : Item}
    {m m₁ m₂ : Mem} {s s₁ s₂ : σ} (h : powered send t ⟨m, s⟩ = some (gbGood, St.mk m₁ s₁)) :
    (∃ d r, m.fetch t.out 1 = some [d] ∧ send d t.size s = (some r, s₂) ∧
      m.deposit t.into [r] = some m₂) ↔ True ∧ St.mk m₂ s₂ = St.mk m₁ s₁ := by
  obtain ⟨data, hdata, h⟩ := Option.bind_eq_some_iff.mp h
  obtain ⟨d, rfl⟩ := List.length_eq_one_iff.mp (Mem.length_fetch hdata)
  split at h
  · cases h
  · next r s' hsend =>
    obtain ⟨m', hdep, he⟩ := Option.map_eq_some_iff.mp h
    cases he
    constructor
    · rintro ⟨d', r', hd', hs', hm'⟩
      cases hdata.symm.trans hd'
      cases hsend.symm.trans hs'
      cases hdep.symm.trans hm'
      exact ⟨trivial, rfl⟩
    · rintro ⟨-, he⟩
      cases he
      exact ⟨d, r, hdata, hsend, hdep⟩

/-- A routine that sends data and stores the reply. -/
theorem sendInto_executed_iff {send : Bytes → σ → Option Bytes × σ} {d : Bytes} {p : Ptr}
    {m m₁ m₂ : Mem} {s s₁ s₂ : σ}
    (h : ∃ r, send d s = (some r, s₁) ∧ m.deposit p r = some m₁) :
    (∃ r, send d s = (some r, s₂) ∧ m.deposit p r = some m₂) ↔
      True ∧ St.mk m₂ s₂ = St.mk m₁ s₁ := by
  obtain ⟨r, hsend, hdep⟩ := h
  constructor
  · rintro ⟨r', hs', hm'⟩
    cases hsend.symm.trans hs'
    cases hdep.symm.trans hm'
    exact ⟨trivial, rfl⟩
  · rintro ⟨-, he⟩
    cases he
    exact ⟨r, hsend, hdep⟩

/-- **An item that answers good alone was executed if and only if it was safe.** -/
theorem Trxn.executedAlone_iff_safe {x : Trxn} {st st₁ : St σ}
    (hrun : busTransactionSingle bus x.item st = some (gbGood, st₁)) (st₂ : St σ) :
    x.ExecutedAlone bus st st₂ ↔ x.SafeAlone st.mem ∧ st₂ = st₁ := by
  obtain ⟨m, s⟩ := st
  obtain ⟨m₁, s₁⟩ := st₁
  obtain ⟨m₂, s₂⟩ := st₂
  by_cases hx : x.travels
  · obtain ⟨o, r, hload, hsend, huse⟩ := (single_eq_good_iff hx).mp hrun
    rw [Trxn.executedAlone_iff hx, ← huse.safePacked_iff hx hload]
    constructor
    · rintro ⟨o', r', ho', hr', hdel⟩
      cases hload.symm.trans ho'
      cases hsend.symm.trans hr'
      obtain ⟨hsafe, rfl⟩ := (huse.delivered_iff hx).mp hdel
      exact ⟨hsafe, rfl⟩
    · rintro ⟨hsafe, he⟩
      cases he
      exact ⟨o, r, hload, hsend, (huse.delivered_iff hx).mpr ⟨hsafe, rfl⟩⟩
  · cases x with
    | start | reset | program => exact routine_executed_iff hrun
    | nverify | averify =>
      simp only [busTransactionSingle, Trxn.item] at hrun
      split at hrun
      · cases hrun
      · next s' hsel =>
        refine Iff.trans (and_congr_left fun _ => ?_) (routine_executed_iff hrun)
        constructor
        · rintro ⟨s'', hsel', hver⟩
          cases hsel.symm.trans hsel'
          exact hver
        · exact fun hver => ⟨s', hsel, hver⟩
    | power p msec => exact powered_executed_iff hrun
    | powerBit p msec => exact powered_executed_iff hrun
    | writeBits p n =>
      by_cases hn : n = 0
      · subst hn
        cases hrun
        simp [ExecutedAlone, SafeAlone]
      · simp only [busTransactionSingle, Trxn.item, ne_eq, not_true_eq_false, if_false, hn] at hrun
        obtain ⟨d, hd, hrun⟩ := Option.bind_eq_some_iff.mp hrun
        obtain ⟨hret, he⟩ := check_eq_good_iff.mp hrun
        cases he
        obtain ⟨r, hsend, hecho⟩ := busSendBits_eq_good_iff.mp (Prod.ext hret rfl)
        simp only [ExecutedAlone, hn, false_and, false_or, not_false_eq_true, true_and, ne_eq]
        constructor
        · rintro ⟨d', r', hd', hsend', -, rfl⟩
          cases hd.symm.trans hd'
          cases hsend.symm.trans hsend'
          exact ⟨trivial, rfl⟩
        · rintro ⟨-, he⟩
          cases he
          exact ⟨d, r, hd, hsend, hecho, rfl⟩
    | readBits p n =>
      by_cases hn : n = 0
      · subst hn
        cases hrun
        simp [ExecutedAlone, SafeAlone]
      · simp only [busTransactionSingle, Trxn.item, ne_eq, not_true_eq_false, if_false, hn] at hrun
        rw [readin_eq_good_iff bus.length_sendbackBits] at hrun
        simp only [ExecutedAlone, hn, false_and, false_or, not_false_eq_true, true_and, ne_eq]
        exact sendInto_executed_iff hrun
    | modifyBits p q n =>
      obtain ⟨d, hd, hrun⟩ := Option.bind_eq_some_iff.mp hrun
      rw [sendInto_eq_good_iff] at hrun
      have hd : m.fetch p n = some d := hd
      simp only [ExecutedAlone, hd, Option.some.injEq, exists_and_left, exists_eq_left']
      exact sendInto_executed_iff hrun
    | _ => exact absurd rfl hx

/-! ## Whole runs -/

theorem Segment.executed_iff_safe {seg : Segment} {st st₁ : St σ}
    (hrun : seg.run bus st = some (gbGood, st₁)) (st₂ : St σ) :
    seg.Executed bus st st₂ ↔ seg.Safe bus st ∧ st₂ = st₁ := by
  cases seg with
  | single x => exact Trxn.executedAlone_iff_safe hrun st₂
  | bundle xs =>
    obtain ⟨m, s⟩ := st
    obtain ⟨m₁, s₁⟩ := st₁
    obtain ⟨m₂, s₂⟩ := st₂
    obtain ⟨o, r, hload, hroute, hun⟩ := shipItems_eq_good_iff.mp hrun
    have hdel := unpackItems_delivered hload (length_bundleEnroute hroute) hun m₂
    constructor
    · rintro ⟨o', r', ho', hr', hall⟩
      cases hload.symm.trans ho'
      cases hroute.symm.trans hr'
      obtain ⟨hsafe, rfl⟩ := hdel.mp hall
      refine ⟨fun o' r' s' ho' hr' => ?_, rfl⟩
      cases hload.symm.trans ho'
      cases hroute.symm.trans hr'
      exact hsafe
    · rintro ⟨hsafe, he⟩
      cases he
      exact ⟨o, r, hload, hroute, hdel.mpr ⟨hsafe o r s₁ hload hroute, rfl⟩⟩

/-- The run lemma for segments that all answer good. -/
theorem executed_iff_runSafe {segs : List Segment} {st st' : St σ}
    (hgood : PlanGood bus segs st st') : Executed bus segs st st' ↔ RunSafe bus segs st := by
  induction segs generalizing st with
  | nil => exact ⟨fun _ => trivial, fun _ => hgood⟩
  | cons seg segs ih =>
    obtain ⟨st₁, hrun, hgood⟩ := hgood
    constructor
    · rintro ⟨st₂, hex, hexs⟩
      obtain ⟨hsafe, rfl⟩ := (Segment.executed_iff_safe hrun st₂).mp hex
      refine ⟨hsafe, fun st₃ h₃ => ?_⟩
      cases hrun.symm.trans h₃
      exact (ih hgood).mp hexs
    · rintro ⟨hsafe, hsafes⟩
      exact ⟨st₁, (Segment.executed_iff_safe hrun st₁).mpr ⟨hsafe, rfl⟩,
        (ih hgood).mpr (hsafes st₁ hrun)⟩

/-- The run lemma for the loop, which a checksum may end early. -/
theorem transactionLoop_executed_iff {xs : List Trxn} {st st' : St σ}
    (hgood : transactionLoop bus (logOf xs) st = some (gbGood, st')) :
    Executed bus (xs.map .single) st st' ↔ RunSafe bus (xs.map .single) st := by
  induction xs generalizing st with
  | nil =>
    cases hgood
    exact ⟨fun _ => trivial, fun _ => rfl⟩
  | cons x xs ih =>
    rw [logOf_cons, transactionLoop] at hgood
    obtain ⟨⟨ret, st₁⟩, hrun, hgood⟩ := Option.bind_eq_some_iff.mp hgood
    simp only at hgood
    split at hgood
    · next hret =>
      -- the log ends here: the checksum is not executed, and it was not safe
      subst hret
      obtain ⟨p, n, d, rfl, hd, hcrc⟩ := Trxn.single_eq_other hrun
      constructor
      · rintro ⟨st₂, hex, -⟩
        obtain ⟨-, -, -, -, ⟨d', hd', hcrc'⟩, -⟩ := hex
        cases hd.symm.trans hd'
        cases hcrc.symm.trans hcrc'
      · rintro ⟨hsafe, -⟩
        exact absurd hcrc (hsafe d hd)
    · split at hgood
      · next hret =>
        subst hret
        constructor
        · rintro ⟨st₂, hex, hexs⟩
          obtain ⟨hsafe, rfl⟩ := (Trxn.executedAlone_iff_safe hrun st₂).mp hex
          refine ⟨hsafe, fun st₃ h₃ => ?_⟩
          cases hrun.symm.trans h₃
          exact (ih hgood).mp hexs
        · rintro ⟨hsafe, hsafes⟩
          exact ⟨st₁, (Trxn.executedAlone_iff_safe hrun st₁).mpr ⟨hsafe, rfl⟩,
            (ih hgood).mpr (hsafes st₁ hrun)⟩
      · next hret =>
        cases hgood
        exact absurd rfl hret

/-- **A good transaction has executed its log if and only if its run was safe.** On the plain and
on the bundling path, for every log, every bus and every reply: the segments hold all items of
the log in order, and when `BUS_transaction_nolock` answers good, every item was carried out and
every check held exactly when each step of the run met its condition. -/
theorem transaction_good_iff (bus : BusRoutines σ) (bundling : Option Nat) (log : List Trxn)
    (st st' : St σ) (hgood : busTransactionNolock bus bundling (logOf log) st =
      some (gbGood, st')) :
    (segments bundling log).flatMap Segment.items = log ∧
      (Executed bus (segments bundling log) st st' ↔ RunSafe bus (segments bundling log) st) := by
  refine ⟨flatMap_segments bundling log, ?_⟩
  cases bundling with
  | none => exact transactionLoop_executed_iff hgood
  | some maxSize =>
    exact executed_iff_runSafe ((packLoop_eq_good_iff holds_bundleInit).mp hgood)

/-- A log with a checksum of a byte that the first item reads. -/
def checkedLog : List Trxn := [.read (some 0) 1, .crc8 (some 0) 1]

/-- On a fresh bus that counts, the byte is zero and the checksum good. -/
theorem transaction_good_checkedLog :
    ∃ st', busTransactionNolock (countingBus.routines (failingRoutines _)) none (logOf checkedLog)
        ⟨fun _ => 0x32, []⟩ = some (gbGood, st') ∧
      Executed (countingBus.routines (failingRoutines _)) (segments none checkedLog)
        ⟨fun _ => 0x32, []⟩ st' := by
  have hgood : (busTransactionNolock (countingBus.routines (failingRoutines _)) none
      (logOf checkedLog) ⟨fun _ => 0x32, []⟩).map Prod.fst = some gbGood := by decide +kernel
  obtain ⟨⟨ret, st'⟩, hrun, rfl⟩ := Option.map_eq_some_iff.mp hgood
  refine ⟨st', hrun, (transaction_good_iff _ none checkedLog _ st' hrun).2.mpr ?_⟩
  refine ⟨trivial, fun st₁ h₁ => ⟨fun d hd => ?_, fun _ _ => trivial⟩⟩
  have hread : ((Segment.single (.read (some 0) 1)).run (countingBus.routines (failingRoutines _))
      ⟨fun _ => 0x32, []⟩).map (fun a => a.2.mem.fetch (some 0) 1) = some (some [0]) := by
    decide +kernel
  rw [h₁] at hread
  have hzero : st₁.mem.fetch (some 0) 1 = some [0] := Option.some.inj hread
  rw [← Option.some.inj (hzero.symm.trans hd)]
  decide

/-- The byte 0x32 has the CRC8 residue 2. The transaction answers good, although the checksum is
wrong and the echo of the write, on a bus that answers nothing, was never asked for. -/
theorem crc8_residue_ends_log :
    busTransactionNolock (failingRoutines Unit) none
        (logOf [.crc8 (some 0) 1, .write (some 1) 1]) ⟨fun _ => 0x32, ()⟩ =
        some (gbGood, ⟨fun _ => 0x32, ()⟩) ∧
      ¬ Executed (failingRoutines Unit) (segments none [.crc8 (some 0) 1, .write (some 1) 1])
        ⟨fun _ => 0x32, ()⟩ ⟨fun _ => 0x32, ()⟩ := by
  refine ⟨rfl, ?_⟩
  rintro ⟨st₁, ⟨-, -, -, -, ⟨d, hd, hcrc⟩, -⟩, -⟩
  cases hd
  exact absurd hcrc (by decide)

end Owfs.Transaction
