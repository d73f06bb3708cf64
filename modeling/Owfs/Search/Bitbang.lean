import Owfs.Search.Bus

/-!
# The bit-bang ROM search

`BUS_next_both_bitbang` and its callers (`ow_search.c`). On an ideal bus one attempt is one walk
through the trie of the slaves with the rule of the search state, so `BUS_first` and `BUS_next`
list the slaves in increasing order of their serial numbers read least significant bit first.
-/

namespace Owfs.Search

open Infra Owfs.Device

/-! ## The routine -/

/-- The decision at bit `i` from the pair `(b1, b2)`: the direction, and whether a zero was chosen
at a discrepancy. `none` when no device responds. -/
def choose (lastDiscrepancy : Int) (sn : SerialNumber) (i : Nat) (b1 b2 : Bool) :
    Option (Bool × Bool) :=
  if b1 then
    if b2 then none
    else some (true, false)
  else if b2 then some (false, false)
  else if (i : Int) > lastDiscrepancy then some (false, true)
  else if (i : Int) = lastDiscrepancy then some (true, false)
  else if sn.bit i then some (true, false)
  else some (false, true)

/-- How the loop over the bits ends; `sn` is written in place. -/
inductive LoopEnd where
  | error (sn : SerialNumber)
  | done (sn : SerialNumber)
  | finished (sn : SerialNumber) (lastZero : Int)

/-- The loop of `BUS_next_both_bitbang`, with the number of bits still to read. -/
def searchLoop {σ : Type} (bus : BitBus σ) (lastDiscrepancy : Int) :
    Nat → Bool → Int → SerialNumber → σ → LoopEnd
  | 0, searchDirection, lastZero, sn, s =>
    match bus.sendbackBits [searchDirection] s with
    | none => .error sn
    | some _ => .finished sn lastZero
  | n + 1, searchDirection, lastZero, sn, s =>
    let bitNumber := 63 - n
    let sent := if bitNumber = 0 then [true, true] else [searchDirection, true, true]
    match bus.sendbackBits sent s with
    | none => .error sn
    | some (resp, s) =>
      let b1 := resp.getD (sent.length - 2) true
      let b2 := resp.getD (sent.length - 1) true
      match choose lastDiscrepancy sn bitNumber b1 b2 with
      | none => .done sn
      | some (direction, zero) =>
        searchLoop bus lastDiscrepancy n direction (if zero then (bitNumber : Int) else lastZero)
          (sn.setBit bitNumber direction) s

/-- The search state after a find. -/
def DeviceSearch.advance (ds : DeviceSearch) (sn : SerialNumber) (lastZero : Int) :
    DeviceSearch :=
  { ds with
    sn := sn
    lastDiscrepancy := lastZero
    lastDevice := decide (lastZero < 0) }

@[simp] theorem DeviceSearch.sn_advance (ds : DeviceSearch) (sn : SerialNumber) (lastZero : Int) :
    (ds.advance sn lastZero).sn = sn := rfl

@[simp] theorem DeviceSearch.lastDiscrepancy_advance (ds : DeviceSearch) (sn : SerialNumber)
    (lastZero : Int) : (ds.advance sn lastZero).lastDiscrepancy = lastZero := rfl

/-- The checks after the loop. -/
def conclude (ds : DeviceSearch) (sn : SerialNumber) (lastZero : Int) :
    SearchStatus × DeviceSearch :=
  if crc8 sn.bytes ≠ 0 ∨ sn.family = 0 then (.error, { ds with sn := sn })
  else (.good, ds.advance sn lastZero)

/-- `BUS_next_both_bitbang` -/
def nextBothBitbang {σ : Type} (bus : BitBus σ) (ds : DeviceSearch) :
    SearchStatus × DeviceSearch :=
  match bus.select with
  | none => (.error, ds)
  | some s =>
    if ds.lastDevice then (.done, ds)
    else
      match bus.sendData [ds.search] s with
      | none => (.error, ds)
      | some s =>
        if bus.anyDevices s = false then (.done, { ds with lastDevice := true })
        else
          match searchLoop bus ds.lastDiscrepancy 64 false (-1) ds.sn s with
          | .error sn => (.error, { ds with sn := sn })
          | .done sn => (.done, { ds with sn := sn, lastDevice := true })
          | .finished sn lastZero => conclude ds sn lastZero

/-- `BUS_next_3try`: "try the directory search 3 times". -/
def busNext3try (nextBoth : DeviceSearch → SearchStatus × DeviceSearch) (ds : DeviceSearch) :
    SearchStatus × DeviceSearch :=
  match nextBoth ds with
  | (.error, ds) =>
    match nextBoth ds with
    | (.error, ds) => nextBoth ds
    | r => r
  | r => r

/-- `BUS_next` -/
def busNext (nextBoth : DeviceSearch → SearchStatus × DeviceSearch) (ds : DeviceSearch) :
    SearchStatus × DeviceSearch :=
  match busNext3try nextBoth ds with
  | (.good, ds) => (.good, ds)
  -- `BUS_next_cleanup`
  | (status, ds) => (status, { ds with gulp := ds.gulp.clear })

/-- What a caller sees of a call. -/
inductive Reply where
  | good (sn : SerialNumber)
  | done
  | error
deriving DecidableEq

def reply : SearchStatus × DeviceSearch → Reply
  | (.good, ds) => .good ds.sn
  | (.done, _) => .done
  | (.error, _) => .error

/-- The replies to `n` calls of `BUS_next`. -/
def listing (nextBoth : DeviceSearch → SearchStatus × DeviceSearch) :
    Nat → DeviceSearch → List Reply
  | 0, _ => []
  | n + 1, ds => reply (busNext nextBoth ds) :: listing nextBoth n (busNext nextBoth ds).2

/-! ## The loop on the ideal bus -/

section

variable {S : Finset SerialNumber} {sn₀ sn : SerialNumber} {ld : Int}

/-- The decision is the turn of the walk. -/
theorem choose_answer {A : Finset SerialNumber} {i : Nat} (hA : A.Nonempty)
    (hsn : sn.bit i = sn₀.bit i) :
    choose ld sn i (answer A i).1 (answer A i).2 =
      some ((trie S).turn (Trie.resume sn₀.bit ld) A i,
        decide ((trie S).IsFork A i ∧ Trie.resume sn₀.bit ld i = false)) := by
  by_cases hf : (trie S).IsFork A i
  · have ha := isFork_iff_answer.mp hf
    rw [ha, Trie.turn_of_isFork hf]
    simp only [choose, hf, true_and, Bool.false_eq_true, if_false, hsn]
    rcases lt_trichotomy (i : Int) ld with hlt | heq | hgt
    · rw [Trie.resume_of_lt hlt, if_neg (by omega), if_neg (by omega)]
      cases sn₀.bit i <;> rfl
    · rw [if_neg (by omega), if_pos heq, ← heq, Trie.resume_self]
      rfl
    · rw [Trie.resume_of_gt hgt, if_pos hgt]
      rfl
  · obtain ⟨hturn, hsnd⟩ := turn_eq_answer (Trie.resume sn₀.bit ld) hA hf
    rw [hturn, hsnd]
    simp only [choose, hf, false_and, decide_false]
    cases (answer A i).1 <;> rfl

/-- The bits written so far, and the old ones behind them. -/
def Written (sn₀ : SerialNumber) (direction : Nat → Bool) (n : Nat) (sn : SerialNumber) : Prop :=
  (∀ j < n, sn.bit j = direction j) ∧ ∀ j, n ≤ j → sn.bit j = sn₀.bit j

theorem Written.setBit {direction : Nat → Bool} {n : Nat} (h : Written sn₀ direction n sn)
    (hn : n < 64) : Written sn₀ direction (n + 1) (sn.setBit n (direction n)) := by
  constructor
  · intro j hj
    rw [SerialNumber.bit_setBit hn]
    split
    · next he => rw [he]
    · exact h.1 j (by omega)
  · intro j hj
    rw [SerialNumber.bit_setBit hn, if_neg (by omega)]
    exact h.2 j (by omega)

theorem Written.zero (sn₀ : SerialNumber) (direction : Nat → Bool) :
    Written sn₀ direction 0 sn₀ := ⟨fun j hj => absurd hj (Nat.not_lt_zero j), fun _ _ => rfl⟩

/-- The loop from bit `i` on, when the wire waits for the direction of bit `i - 1`. -/
theorem searchLoop_ideal (hS : S.Nonempty) (ld : Int) (n : Nat) : ∀ (i : Nat) (sn : SerialNumber),
    0 < i → n + i = 64 → Written sn₀ ((trie S).direction (Trie.resume sn₀.bit ld)) i sn →
    ∃ sn', searchLoop (idealBitBus S) ld n ((trie S).direction (Trie.resume sn₀.bit ld) (i - 1))
        ((trie S).lastZero (Trie.resume sn₀.bit ld) i) sn
        ⟨(trie S).walk (Trie.resume sn₀.bit ld) (i - 1), i - 1, .direction⟩
      = .finished sn' ((trie S).lastZero (Trie.resume sn₀.bit ld) 64) ∧
      Written sn₀ ((trie S).direction (Trie.resume sn₀.bit ld)) 64 sn' := by
  induction n with
  | zero =>
    intro i sn _ hi hw
    obtain rfl : i = 64 := by omega
    exact ⟨sn, rfl, hw⟩
  | succ n ih =>
    intro i sn hpos hi hw
    obtain ⟨k, rfl⟩ : ∃ k, i = k + 1 := ⟨i - 1, by omega⟩
    have hbit : 63 - n = k + 1 := by omega
    have hA : ((trie S).walk (Trie.resume sn₀.bit ld) (k + 1)).Nonempty :=
      Trie.walk_nonempty hS _
    have hnext := ih (k + 2) _ (by omega) (by omega) (hw.setBit (by omega))
    rw [searchLoop]
    simp only [hbit, Nat.add_one_ne_zero, if_false, idealBitBus, Nat.add_sub_cancel]
    rw [exchange_direction S]
    have hbranch : (trie S).branch ((trie S).walk (Trie.resume sn₀.bit ld) k) k
        ((trie S).direction (Trie.resume sn₀.bit ld) k)
        = (trie S).walk (Trie.resume sn₀.bit ld) (k + 1) := rfl
    rw [hbranch, exchange_read]
    simp only [List.length_cons, List.length_nil, Nat.zero_add, Nat.reduceAdd, Nat.reduceSub,
      List.getD_cons_succ, List.getD_cons_zero]
    rw [choose_answer (S := S) hA (hw.2 _ le_rfl)]
    have hzero : (if decide
          ((trie S).IsFork ((trie S).walk (Trie.resume sn₀.bit ld) (k + 1)) (k + 1) ∧
            Trie.resume sn₀.bit ld (k + 1) = false) = true then ((k + 1 : Nat) : Int)
        else (trie S).lastZero (Trie.resume sn₀.bit ld) (k + 1))
        = (trie S).lastZero (Trie.resume sn₀.bit ld) (k + 2) := by
      rw [Trie.lastZero]
      simp only [decide_eq_true_eq]
      rfl
    simp only [hzero]
    exact hnext

/-- The whole loop: 64 turns of the walk. -/
theorem searchLoop_start (hS : S.Nonempty) (ld : Int) (sn₀ : SerialNumber) :
    ∃ sn, searchLoop (idealBitBus S) ld 64 false (-1) sn₀ (Wire.start S)
        = .finished sn ((trie S).lastZero (Trie.resume sn₀.bit ld) 64) ∧
      Written sn₀ ((trie S).direction (Trie.resume sn₀.bit ld)) 64 sn := by
  have hw := (Written.zero sn₀ ((trie S).direction (Trie.resume sn₀.bit ld))).setBit (by omega)
  have hnext := searchLoop_ideal hS ld 63 1 _ (by omega) rfl hw
  rw [searchLoop]
  simp only [Nat.sub_self, if_true, idealBitBus, Wire.start, exchange_read, List.length_cons,
    List.length_nil, Nat.zero_add, Nat.reduceAdd, Nat.add_one_sub_one, List.getD_cons_succ,
    List.getD_cons_zero]
  rw [choose_answer (S := S) hS rfl]
  have hzero : (if decide ((trie S).IsFork S 0 ∧ Trie.resume sn₀.bit ld 0 = false) = true
      then ((0 : Nat) : Int) else -1) = (trie S).lastZero (Trie.resume sn₀.bit ld) 1 := by
    rw [Trie.lastZero]
    simp only [decide_eq_true_eq]
    rfl
  simp only [hzero]
  exact hnext

/-- One attempt on the ideal bus is one walk. -/
theorem nextBothBitbang_ideal (hS : S.Nonempty) {ds : DeviceSearch} (hl : ds.lastDevice = false) :
    ∃ sn ∈ (trie S).walk ds.rule 64,
      nextBothBitbang (idealBitBus S) ds = conclude ds sn ((trie S).lastZero ds.rule 64) := by
  obtain ⟨sn, hloop, hw⟩ := searchLoop_start hS ds.lastDiscrepancy ds.sn
  refine ⟨sn, mem_walk_of_bit hS hw.1, ?_⟩
  have hany : (idealBitBus S).anyDevices (Wire.start S) = true := decide_eq_true hS
  have hsend : (idealBitBus S).sendData [ds.search] (Wire.start S) = some (Wire.start S) := rfl
  have hsel : (idealBitBus S).select = some (Wire.start S) := rfl
  unfold nextBothBitbang
  simp only [hsel, hl, Bool.false_eq_true, if_false, hsend, hany, reduceCtorEq, hloop]
  rfl

end

theorem nextBothBitbang_of_lastDevice (S : Finset SerialNumber) {ds : DeviceSearch}
    (hl : ds.lastDevice = true) : nextBothBitbang (idealBitBus S) ds = (.done, ds) := by
  have hsel : (idealBitBus S).select = some (Wire.start S) := rfl
  unfold nextBothBitbang
  simp only [hsel, hl, if_true]

theorem nextBothBitbang_empty {ds : DeviceSearch} (hl : ds.lastDevice = false) :
    nextBothBitbang (idealBitBus ∅) ds = (.done, { ds with lastDevice := true }) := by
  have hany : (idealBitBus ∅).anyDevices (Wire.start ∅) = false := rfl
  have hsend : (idealBitBus ∅).sendData [ds.search] (Wire.start ∅) = some (Wire.start ∅) := rfl
  have hsel : (idealBitBus ∅).select = some (Wire.start ∅) := rfl
  unfold nextBothBitbang
  simp only [hsel, hl, Bool.false_eq_true, if_false, hsend, hany, if_true]

/-! ## Listing all slaves -/

/-- Slaves as the search accepts them. -/
def Acceptable (S : Finset SerialNumber) : Prop := ∀ s ∈ S, s.CrcValid ∧ s.family ≠ 0

/-- `s` comes before `t`, read from the least significant bit on. -/
def LsbBefore (s t : SerialNumber) : Prop :=
  ∃ i < 64, (∀ j < i, s.bit j = t.bit j) ∧ s.bit i = false ∧ t.bit i = true

instance (s t : SerialNumber) : Decidable (LsbBefore s t) :=
  inferInstanceAs (Decidable ((trie ∅).Before 64 s t))

theorem lsbBefore_iff (S : Finset SerialNumber) {s t : SerialNumber} :
    LsbBefore s t ↔ (trie S).Before 64 s t := Iff.rfl

theorem conclude_of_mem {S : Finset SerialNumber} (hS : Acceptable S) {sn : SerialNumber}
    (hsn : sn ∈ S) (ds : DeviceSearch) (lastZero : Int) :
    conclude ds sn lastZero = (.good, ds.advance sn lastZero) := by
  obtain ⟨hcrc, hfam⟩ := hS sn hsn
  unfold conclude
  rw [if_neg (by rintro (h | h); exacts [h hcrc, hfam h])]

theorem busNext_of_good {nextBoth : DeviceSearch → SearchStatus × DeviceSearch}
    {ds ds' : DeviceSearch} (h : nextBoth ds = (.good, ds')) :
    busNext nextBoth ds = (.good, ds') := by
  unfold busNext busNext3try
  simp only [h]

theorem busNext_of_done {nextBoth : DeviceSearch → SearchStatus × DeviceSearch}
    {ds ds' : DeviceSearch} (h : nextBoth ds = (.done, ds')) :
    busNext nextBoth ds = (.done, { ds' with gulp := ds'.gulp.clear }) := by
  unfold busNext busNext3try
  simp only [h]

/-- After the last device every call answers `search_done`. -/
theorem listing_of_lastDevice (S : Finset SerialNumber) : ∀ (n : Nat) (ds : DeviceSearch),
    ds.lastDevice = true →
      listing (nextBothBitbang (idealBitBus S)) n ds = List.replicate n .done
  | 0, _, _ => rfl
  | n + 1, ds, hl => by
    rw [listing, busNext_of_done (nextBothBitbang_of_lastDevice S hl), List.replicate_succ]
    exact congrArg _ (listing_of_lastDevice S n _ hl)

/-- The state after a find: the walk that led to it and its last zero. -/
structure Found (S : Finset SerialNumber) (ds : DeviceSearch) : Prop where
  walked : ∃ rule, ds.sn ∈ (trie S).walk rule 64 ∧
    ds.lastDiscrepancy = (trie S).lastZero rule 64
  last : ds.lastDevice = decide (ds.lastDiscrepancy < 0)

theorem found_advance {S : Finset SerialNumber} {rule : Nat → Bool} {sn : SerialNumber}
    {lastZero : Int} (h : sn ∈ (trie S).walk rule 64) (hz : lastZero = (trie S).lastZero rule 64)
    (ds : DeviceSearch) : Found S (ds.advance sn lastZero) := ⟨⟨rule, h, hz⟩, rfl⟩

/-- The slaves behind the next find are those behind this one, less the find itself. -/
theorem behind_next {S : Finset SerialNumber} {rule : Nat → Bool} {s t u : SerialNumber} {d : Nat}
    (hs : s ∈ (trie S).walk rule 64) (hd : d < 64) (hfork : (trie S).ForkAt rule d)
    (hzero : rule d = false) (hlast : (trie S).lastZero rule 64 = (d : Int))
    (ht : t ∈ (trie S).walk (Trie.resume s.bit d) 64) :
    u ∈ S ∧ LsbBefore s u ↔ u = t ∨ (u ∈ S ∧ LsbBefore t u) := by
  have hst : LsbBefore s t := Trie.before_of_resume hs hd hfork hzero ht
  constructor
  · rintro ⟨hu, hsu⟩
    rcases Trie.agree_or_before_of_resume hs hd hfork hzero hlast ht hu hsu with h | h
    · exact Or.inl (SerialNumber.ext_bit h).symm
    · exact Or.inr ⟨hu, h⟩
  · rintro (rfl | ⟨hu, htu⟩)
    · exact ⟨Trie.mem_members_of_mem_walk ht, hst⟩
    · exact ⟨hu, Trie.Before.trans ((lsbBefore_iff S).mp hst) htu⟩

/-- From a find on, the replies are the later slaves in order, and then `search_done`. -/
theorem listing_of_found {S : Finset SerialNumber} (hS : Acceptable S) (k : Nat) :
    ∀ (ds : DeviceSearch), Found S ds → (S.filter (fun s => LsbBefore ds.sn s)).card = k →
      ∃ L : List SerialNumber, L.Pairwise LsbBefore ∧
        (∀ s, s ∈ L ↔ s ∈ S ∧ LsbBefore ds.sn s) ∧
        ∀ n m, n ≤ m → listing (nextBothBitbang (idealBitBus S)) n ds
          = (L.map Reply.good ++ List.replicate m Reply.done).take n := by
  induction k using Nat.strong_induction_on with
  | _ k ih =>
    intro ds hfound hcard
    obtain ⟨rule, hs, hld⟩ := hfound.walked
    have hmem : ds.sn ∈ S := Trie.mem_members_of_mem_walk hs
    rcases Trie.lastZero_cases (trie S) rule 64 with hneg | ⟨d, hd, hlast, hfork, hzero⟩
    · -- the last one
      have hl : ds.lastDevice = true := by rw [hfound.last, hld, hneg]; rfl
      refine ⟨[], List.Pairwise.nil, fun s => ⟨fun h => by simp at h, ?_⟩, fun n m hnm => ?_⟩
      · rintro ⟨hsS, hb⟩
        exact absurd hb (Trie.not_before_of_lastZero_neg hs hneg hsS)
      · rw [listing_of_lastDevice S n ds hl, List.map_nil, List.nil_append, List.take_replicate,
          Nat.min_eq_left hnm]
    · have hl : ds.lastDevice = false := by
        rw [hfound.last, hld, hlast]
        exact decide_eq_false (by omega)
      obtain ⟨t, ht, hstep⟩ := nextBothBitbang_ideal ⟨ds.sn, hmem⟩ hl
      have hrule : ds.rule = Trie.resume ds.sn.bit d := by rw [DeviceSearch.rule, hld, hlast]
      rw [conclude_of_mem hS (Trie.mem_members_of_mem_walk ht)] at hstep
      have hbehind := fun u => behind_next (u := u) hs hd hfork hzero hlast (hrule ▸ ht)
      -- fewer slaves are behind the next one
      have hsub : S.filter (fun s => LsbBefore t s) ⊂ S.filter (fun s => LsbBefore ds.sn s) := by
        refine Finset.ssubset_iff_of_subset (fun u hu => ?_) |>.mpr ⟨t, ?_, ?_⟩
        · rw [Finset.mem_filter] at hu ⊢
          exact (hbehind u).mpr (Or.inr hu)
        · rw [Finset.mem_filter]
          exact (hbehind t).mpr (Or.inl rfl)
        · rw [Finset.mem_filter]
          exact fun h => Trie.Before.irrefl ((lsbBefore_iff S).mp h.2)
      obtain ⟨L, hpair, hL, hlist⟩ := ih _ (hcard ▸ Finset.card_lt_card hsub)
        (ds.advance t ((trie S).lastZero ds.rule 64)) (found_advance ht rfl ds) rfl
      refine ⟨t :: L, List.pairwise_cons.mpr ⟨fun u hu => ((hL u).mp hu).2, hpair⟩, ?_, ?_⟩
      · intro u
        rw [List.mem_cons, hL u, hbehind u, DeviceSearch.sn_advance]
      · intro n m hnm
        cases n with
        | zero => rfl
        | succ n =>
          rw [listing, busNext_of_good hstep, hlist n m (by omega)]
          rfl

/--
**The bit-bang search is complete and exact.** On an ideal bus `BUS_first` and then `BUS_next`
report every slave once, in increasing order read from the least significant bit, and then
`search_done` for ever.
-/
theorem listing_complete (S : Finset SerialNumber) (hS : Acceptable S) (search : Byte) :
    ∃ L : List SerialNumber, L.Pairwise LsbBefore ∧ (∀ s, s ∈ L ↔ s ∈ S) ∧
      ∀ n, listing (nextBothBitbang (idealBitBus S)) n (busFirstBoth search)
        = (L.map Reply.good ++ List.replicate n Reply.done).take n := by
  rcases S.eq_empty_or_nonempty with rfl | hne
  · refine ⟨[], List.Pairwise.nil, fun s => by simp, fun n => ?_⟩
    cases n with
    | zero => rfl
    | succ n =>
      rw [listing, busNext_of_done (nextBothBitbang_empty rfl), List.map_nil, List.nil_append,
        List.take_replicate, Nat.min_self, List.replicate_succ]
      exact congrArg _ (listing_of_lastDevice ∅ n _ rfl)
  · have hl : (busFirstBoth search).lastDevice = false := rfl
    obtain ⟨t, ht, hstep⟩ := nextBothBitbang_ideal hne hl
    rw [conclude_of_mem hS (Trie.mem_members_of_mem_walk ht)] at hstep
    obtain ⟨L, hpair, hL, hlist⟩ :=
      listing_of_found hS _ _ (found_advance ht rfl (busFirstBoth search)) rfl
    refine ⟨t :: L, List.pairwise_cons.mpr ⟨fun u hu => ((hL u).mp hu).2, hpair⟩, ?_, ?_⟩
    · intro u
      rw [List.mem_cons, hL u, DeviceSearch.sn_advance]
      constructor
      · rintro (rfl | h)
        · exact Trie.mem_members_of_mem_walk ht
        · exact h.1
      · intro hu
        rcases Trie.agree_or_before_of_first ht hu with h | h
        · exact Or.inl (SerialNumber.ext_bit h).symm
        · exact Or.inr ⟨hu, h⟩
    · intro n
      cases n with
      | zero => rfl
      | succ n =>
        rw [listing, busNext_of_good hstep, hlist n (n + 1) (by omega)]
        rfl

/-- A serial number from seven bytes. -/
def withCrc (bytes : Bytes) (h : bytes.length = 7) : SerialNumber :=
  ⟨bytes ++ [crc8 bytes], by rw [List.length_append, h]; rfl⟩

/-- Two thermometers and a coupler. -/
def sampleSlaves : Finset SerialNumber :=
  {withCrc [0x28, 1, 0, 0, 0, 0, 0] rfl, withCrc [0x28, 2, 0, 0, 0, 0, 0] rfl,
    withCrc [0x1F, 7, 0, 0, 0, 0, 0] rfl}

theorem listing_complete_sampleSlaves :
    ∃ L : List SerialNumber, L.Pairwise LsbBefore ∧ (∀ s, s ∈ L ↔ s ∈ sampleSlaves) ∧
      ∀ n, listing (nextBothBitbang (idealBitBus sampleSlaves)) n (busFirstBoth 0xF0)
        = (L.map Reply.good ++ List.replicate n Reply.done).take n :=
  listing_complete sampleSlaves (by unfold Acceptable; decide +kernel) 0xF0

end Owfs.Search
