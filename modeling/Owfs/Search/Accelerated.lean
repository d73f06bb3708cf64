import Owfs.Search.Bitbang

/-!
# Accelerated ROM searches

Three bus masters search with hardware help: the DS2482 with a command that handles one bit
(two reads and the write), the DS2480B and the DS1WM with a search accelerator that takes the
whole search as 64 pairs of bits.

All three walk through the trie of the slaves as the bit-bang search does, so they find the same
serial number and the same last discrepancy. They differ in where they keep the serial number
while they read it: the accelerated routines copy it to `ds->sn` only when it passes the checks.
-/

namespace Owfs.Search

open Infra Owfs.Device

/-! ## The DS2482 -/

/-- A DS2482 answers the triplet command with its status register. -/
structure TripletBus (σ : Type) extends SearchBus σ where
  triplet : Bool → σ → Option (Byte × σ)

/-- `DS2482_REG_STS_SBR`, `DS2482_REG_STS_TSB` and `DS2482_REG_STS_DIR`. -/
def stsSbr : Byte := 0x20

def stsTsb : Byte := 0x40

def stsDir : Byte := 0x80

/-- `DS2482_triple` -/
def ds2482Triple {σ : Type} (bus : TripletBus σ) (direction : Bool) (s : σ) :
    Option ((Bool × Bool × Bool) × σ) :=
  match bus.triplet direction s with
  | none => none
  | some (c, s) => some ((c &&& stsSbr != 0, c &&& stsTsb != 0, c &&& stsDir != 0), s)

/-- The loop of `DS2482_next_both`. -/
def tripletLoop {σ : Type} (bus : TripletBus σ) (lastDiscrepancy : Int) :
    Nat → Int → SerialNumber → σ → LoopEnd
  | 0, lastZero, sn, _ => .finished sn lastZero
  | n + 1, lastZero, sn, s =>
    let bitNumber := 63 - n
    let searchDirection :=
      if (bitNumber : Int) < lastDiscrepancy then sn.bit bitNumber
      else decide ((bitNumber : Int) = lastDiscrepancy)
    match ds2482Triple bus searchDirection s with
    | none => .error sn
    | some ((b0, b1, b2), s) =>
      if b0 || b1 || b2 then
        if b0 && b1 then .done sn
        else tripletLoop bus lastDiscrepancy n lastZero (sn.setBit bitNumber b2) s
      else tripletLoop bus lastDiscrepancy n bitNumber (sn.setBit bitNumber b2) s

/-- `DS2482_next_both` -/
def ds2482NextBoth {σ : Type} (bus : TripletBus σ) (ds : DeviceSearch) :
    SearchStatus × DeviceSearch :=
  if ds.lastDevice then (.done, ds)
  else
    match bus.select with
    | none => (.error, ds)
    | some s =>
      if bus.anyDevices s = false then (.done, { ds with lastDevice := true })
      else
        match bus.sendData [ds.search] s with
        | none => (.error, ds)
        | some s =>
          match tripletLoop bus ds.lastDiscrepancy 64 (-1) ds.sn s with
          | .error sn => (.error, { ds with sn := sn })
          | .done sn => (.done, { ds with sn := sn, lastDevice := true })
          | .finished sn lastZero => conclude ds sn lastZero

/-! ## The search accelerators -/

/-- A zeroed buffer of 16 bytes after `UT_set2bit(bitpairs, i, pair(i))` for `i < n`. -/
def writePairs (pair : Nat → BitVec 2) : Nat → Bytes
  | 0 => List.replicate 16 0
  | n + 1 => utSet2bit (writePairs pair n) n (pair n)

/-- The 16 bytes of the request. -/
def searchRequest (ds : DeviceSearch) : Bytes :=
  let bitpairs := writePairs (fun i => if ds.sn.bit i then 0b10 else 0) ds.lastDiscrepancy.toNat
  if ds.lastDiscrepancy > -1 then utSet2bit bitpairs ds.lastDiscrepancy.toNat 0b10 else bitpairs

/-- "interpret the bit stream": the serial number and the last mismatch of the first `n` pairs. -/
def interpretPairs (bitpairs : Bytes) : Nat → SerialNumber × Int
  | 0 => (SerialNumber.zero, -1)
  | i + 1 =>
    let (sn, mismatched) := interpretPairs bitpairs i
    (sn.setBit i ((utGet2bit bitpairs i).getLsbD 1),
      if utGet2bit bitpairs i = 0b01 then (i : Int) else mismatched)

/-- The common part of `DS2480_next_both` and `DS1WM_next_both`; `exchange` sends the search
command and the request, and returns the response. -/
def acceleratedNextBoth {σ : Type} (bus : SearchBus σ)
    (exchange : Byte → Bytes → σ → Option Bytes) (ds : DeviceSearch) :
    SearchStatus × DeviceSearch :=
  if ds.lastDevice then (.done, ds)
  else
    match bus.select with
    | none => (.error, ds)
    | some s =>
      if bus.anyDevices s = false then (.done, { ds with lastDevice := true })
      else
        match exchange ds.search (searchRequest ds) s with
        | none => (.error, ds)
        | some bitpairs =>
          let (sn, mismatched) := interpretPairs bitpairs 64
          -- "special case for no alarm present"
          if sn.bytes = List.replicate 8 0xFF then (.done, ds)
          else if crc8 sn.bytes ≠ 0 ∨ ds.lastDiscrepancy = 63 ∨ sn.family = 0 then (.error, ds)
          else
            (.good, { ds with
              sn := sn
              lastDiscrepancy := mismatched
              lastDevice :=
                if mismatched = ds.lastDiscrepancy ∨ mismatched = -1 then true
                else ds.lastDevice })

/-- A DS2480B: the accelerator is switched on and off by commands. -/
structure Ds2480Bus (σ : Type) extends SearchBus σ where
  sendoutSearchOn : σ → Option σ
  sendbackData : Bytes → σ → Option (Bytes × σ)
  sendoutSearchOff : σ → Option σ

/-- Search command, accelerator on, the pairs, accelerator off. -/
def ds2480Exchange {σ : Type} (bus : Ds2480Bus σ) (search : Byte) (bitpairs : Bytes) (s : σ) :
    Option Bytes := do
  let s ← bus.sendData [search] s
  let s ← bus.sendoutSearchOn s
  let (bitpairs, s) ← bus.sendbackData bitpairs s
  let _ ← bus.sendoutSearchOff s
  some bitpairs

/-- `DS2480_next_both` -/
def ds2480NextBoth {σ : Type} (bus : Ds2480Bus σ) (ds : DeviceSearch) :
    SearchStatus × DeviceSearch :=
  acceleratedNextBoth bus.toSearchBus (ds2480Exchange bus) ds

/-- A DS1WM: the accelerator is a bit of its command register. -/
structure Ds1wmBus (σ : Type) extends SearchBus σ where
  sendbackByte : Byte → σ → Option (Byte × σ)
  setSearchAccelerator : Bool → σ → σ
  sendbackData : Bytes → σ → Option (Bytes × σ)

/-- Search command, and the pairs with the accelerator on. -/
def ds1wmExchange {σ : Type} (bus : Ds1wmBus σ) (search : Byte) (bitpairs : Bytes) (s : σ) :
    Option Bytes := do
  let (_, s) ← bus.sendbackByte search s
  let (bitpairs, _) ← bus.sendbackData bitpairs (bus.setSearchAccelerator true s)
  some bitpairs

/-- `DS1WM_next_both` -/
def ds1wmNextBoth {σ : Type} (bus : Ds1wmBus σ) (ds : DeviceSearch) :
    SearchStatus × DeviceSearch :=
  acceleratedNextBoth bus.toSearchBus (ds1wmExchange bus) ds

/-! ## Ideal masters -/

/-- Two reads and the write of a search: the pair read, and the direction taken. Where the slaves
disagree `v` decides. -/
def Wire.triplet (v : Bool) (w : Wire) : (Bool × Bool × Bool) × Wire :=
  let (a, w) := w.timeSlot true
  let (b, w) := w.timeSlot true
  let direction := if a || b then a else v
  ((a, b, direction), (w.timeSlot direction).2)

def idealTripletBus (S : Finset SerialNumber) : TripletBus Wire where
  toSearchBus := idealBus S
  triplet v w :=
    let ((a, b, direction), w) := w.triplet v
    some ((if a then stsSbr else 0) ||| (if b then stsTsb else 0) |||
      (if direction then stsDir else 0), w)

/-- The pairs an accelerator answers: discrepancy and chosen bit. -/
def Wire.searchPairs (request : Bytes) : Nat → Wire → List (BitVec 2)
  | 0, _ => []
  | n + 1, w =>
    let ((a, b, direction), w) := w.triplet ((utGet2bit request (63 - n)).getLsbD 1)
    (BitVec.ofBool direction ++ BitVec.ofBool (a == b)) :: Wire.searchPairs request n w

/-- The response of an accelerator. -/
def Wire.accelerate (request : Bytes) (w : Wire) : Bytes :=
  let pairs := w.searchPairs request 64
  writePairs (fun i => pairs.getD i 0) 64

def idealDs2480Bus (S : Finset SerialNumber) : Ds2480Bus Wire where
  toSearchBus := idealBus S
  sendoutSearchOn w := some w
  sendbackData request w := some (w.accelerate request, w)
  sendoutSearchOff w := some w

def idealDs1wmBus (S : Finset SerialNumber) : Ds1wmBus Wire where
  toSearchBus := idealBus S
  sendbackByte b _ := some (b, Wire.start S)
  setSearchAccelerator _ w := w
  sendbackData request w := some (w.accelerate request, w)

section

variable {S A : Finset SerialNumber} {i : Nat} {rule : Nat → Bool}

/-- A triplet takes one turn of the walk. -/
theorem triplet_eq (hA : A.Nonempty) (i : Nat) (rule : Nat → Bool) :
    Wire.triplet (rule i) ⟨A, i, .bit⟩ =
      (((answer A i).1, (answer A i).2, (trie S).turn rule A i),
        ⟨(trie S).branch A i ((trie S).turn rule A i), i + 1, .bit⟩) := by
  have hdir : (if (answer A i).1 || (answer A i).2 then (answer A i).1 else rule i)
      = (trie S).turn rule A i := by
    by_cases hf : (trie S).IsFork A i
    · rw [isFork_iff_answer.mp hf, Trie.turn_of_isFork hf]
      rfl
    · obtain ⟨hturn, hsnd⟩ := turn_eq_answer rule hA hf
      rw [hturn, hsnd]
      cases (answer A i).1 <;> rfl
  have hraw : Wire.triplet (rule i) ⟨A, i, .bit⟩ =
      (((answer A i).1, (answer A i).2,
          if (answer A i).1 || (answer A i).2 then (answer A i).1 else rule i),
        ⟨(trie S).branch A i (if (answer A i).1 || (answer A i).2 then (answer A i).1
          else rule i), i + 1, .bit⟩) := by
    simp only [Wire.triplet, Wire.timeSlot, answer, Bool.true_and]
    rfl
  rw [hraw, hdir]

/-- The status register carries the three bits. -/
theorem status_bits (a b c : Bool) :
    let sts := (if a then stsSbr else 0) ||| (if b then stsTsb else 0) |||
      (if c then stsDir else 0)
    (sts &&& stsSbr != 0, sts &&& stsTsb != 0, sts &&& stsDir != 0) = (a, b, c) := by
  cases a <;> cases b <;> cases c <;> decide

theorem ds2482Triple_ideal (hA : A.Nonempty) (i : Nat) (rule : Nat → Bool) :
    ds2482Triple (idealTripletBus S) (rule i) ⟨A, i, .bit⟩ =
      some (((answer A i).1, (answer A i).2, (trie S).turn rule A i),
        ⟨(trie S).branch A i ((trie S).turn rule A i), i + 1, .bit⟩) := by
  unfold ds2482Triple
  simp only [idealTripletBus, triplet_eq (S := S) hA i rule]
  rw [status_bits]

/-- The loop of the DS2482 is the same walk. -/
theorem tripletLoop_ideal (hS : S.Nonempty) {sn₀ : SerialNumber} (ld : Int) (n : Nat) :
    ∀ (i : Nat) (sn : SerialNumber), n + i = 64 →
      Written sn₀ ((trie S).direction (Trie.resume sn₀.bit ld)) i sn →
      ∃ sn', tripletLoop (idealTripletBus S) ld n ((trie S).lastZero (Trie.resume sn₀.bit ld) i)
          sn ⟨(trie S).walk (Trie.resume sn₀.bit ld) i, i, .bit⟩
        = .finished sn' ((trie S).lastZero (Trie.resume sn₀.bit ld) 64) ∧
        Written sn₀ ((trie S).direction (Trie.resume sn₀.bit ld)) 64 sn' := by
  induction n with
  | zero =>
    intro i sn hi hw
    obtain rfl : i = 64 := by omega
    exact ⟨sn, rfl, hw⟩
  | succ n ih =>
    intro i sn hi hw
    have hbit : 63 - n = i := by omega
    have hA : ((trie S).walk (Trie.resume sn₀.bit ld) i).Nonempty := Trie.walk_nonempty hS _
    have hdir : (if (i : Int) < ld then sn.bit i else decide ((i : Int) = ld))
        = Trie.resume sn₀.bit ld i := by
      rw [hw.2 i le_rfl]
      rfl
    obtain ⟨sn', hnext, hw'⟩ := ih (i + 1) _ (by omega) (hw.setBit (by omega))
    refine ⟨sn', ?_, hw'⟩
    rw [tripletLoop]
    simp only [hbit, hdir, ds2482Triple_ideal hA i (Trie.resume sn₀.bit ld)]
    rw [← hnext]
    by_cases hf : (trie S).IsFork ((trie S).walk (Trie.resume sn₀.bit ld) i) i
    · simp only [isFork_iff_answer.mp hf, Trie.turn_of_isFork hf, Bool.or_self, Bool.false_or,
        Bool.and_self, Bool.false_eq_true, if_false]
      have hd : (trie S).direction (Trie.resume sn₀.bit ld) i = Trie.resume sn₀.bit ld i :=
        Trie.direction_of_forkAt hf
      have hwalk : (trie S).walk (Trie.resume sn₀.bit ld) (i + 1) = (trie S).branch
          ((trie S).walk (Trie.resume sn₀.bit ld) i) i (Trie.resume sn₀.bit ld i) := by
        rw [← hd]
        rfl
      have hzero : (trie S).lastZero (Trie.resume sn₀.bit ld) (i + 1)
          = if Trie.resume sn₀.bit ld i = false then (i : Int)
            else (trie S).lastZero (Trie.resume sn₀.bit ld) i := by
        rw [Trie.lastZero]
        simp only [show (trie S).ForkAt (Trie.resume sn₀.bit ld) i from hf, true_and]
      rw [hwalk, hzero, hd]
      cases Trie.resume sn₀.bit ld i <;> rfl
    · obtain ⟨hturn, hsnd⟩ := turn_eq_answer (Trie.resume sn₀.bit ld) hA hf
      have hzero : (trie S).lastZero (Trie.resume sn₀.bit ld) (i + 1)
          = (trie S).lastZero (Trie.resume sn₀.bit ld) i := by
        rw [Trie.lastZero, if_neg (fun h => hf h.1)]
      rw [hzero, hsnd]
      have hor : ((answer ((trie S).walk (Trie.resume sn₀.bit ld) i) i).1 ||
          !(answer ((trie S).walk (Trie.resume sn₀.bit ld) i) i).1 ||
          (trie S).turn (Trie.resume sn₀.bit ld)
            ((trie S).walk (Trie.resume sn₀.bit ld) i) i) = true := by
        rw [Bool.or_not_self, Bool.true_or]
      rw [hor, Bool.and_not_self]
      rfl

/-- One attempt of the DS2482 on the ideal bus is the attempt of the bit-bang search. -/
theorem ds2482NextBoth_ideal (hS : S.Nonempty) {ds : DeviceSearch} (hl : ds.lastDevice = false) :
    ∃ sn ∈ (trie S).walk ds.rule 64,
      ds2482NextBoth (idealTripletBus S) ds = conclude ds sn ((trie S).lastZero ds.rule 64) := by
  obtain ⟨sn, hloop, hw⟩ := tripletLoop_ideal hS ds.lastDiscrepancy 64 0 ds.sn rfl
    (Written.zero ds.sn _)
  refine ⟨sn, mem_walk_of_bit hS hw.1, ?_⟩
  have hany : (idealTripletBus S).anyDevices (Wire.start S) = true := decide_eq_true hS
  have hsend : (idealTripletBus S).sendData [ds.search] (Wire.start S) = some (Wire.start S) := rfl
  have hsel : (idealTripletBus S).select = some (Wire.start S) := rfl
  have hloop' : tripletLoop (idealTripletBus S) ds.lastDiscrepancy 64 (-1) ds.sn (Wire.start S)
      = .finished sn ((trie S).lastZero ds.rule 64) := hloop
  unfold ds2482NextBoth
  simp only [hsel, hl, Bool.false_eq_true, if_false, hsend, hany, reduceCtorEq, hloop']

/-! ## Pairs -/

@[simp] theorem length_writePairs (pair : Nat → BitVec 2) (n : Nat) :
    (writePairs pair n).length = 16 := by
  induction n with
  | zero => rfl
  | succ n ih => rw [writePairs, length_utSet2bit, ih]

theorem utGet2bit_zeros (i : Nat) : utGet2bit (List.replicate 16 0) i = 0 := by
  have hbyte : (List.replicate 16 (0 : Byte)).getD (i / 4) 0 = 0 := by
    rw [List.getD_eq_getElem?_getD, List.getElem?_replicate]
    split <;> rfl
  rw [utGet2bit, hbyte]
  exact BitVec.extractLsb'_zero

theorem utGet2bit_writePairs (pair : Nat → BitVec 2) {n : Nat} (hn : n ≤ 64) (i : Nat) :
    utGet2bit (writePairs pair n) i = if i < n then pair i else 0 := by
  induction n with
  | zero => rw [writePairs, utGet2bit_zeros]; rfl
  | succ n ih =>
    rw [writePairs, utGet2bit_utSet2bit (by rw [length_writePairs]; omega), ih (by omega)]
    by_cases h : i = n
    · rw [if_pos h, if_pos (by omega), h]
    · rw [if_neg h]
      have : i < n ↔ i < n + 1 := by omega
      simp only [this]

/-- The request asks for the turns of the rule. -/
theorem searchRequest_rule {ds : DeviceSearch} (hlo : -1 ≤ ds.lastDiscrepancy)
    (hhi : ds.lastDiscrepancy < 64) (j : Nat) :
    (utGet2bit (searchRequest ds) j).getLsbD 1 = ds.rule j := by
  unfold searchRequest
  rcases eq_or_lt_of_le hlo with heq | hpos
  · -- no discrepancy yet: all zeros
    rw [← heq]
    simp only [show ¬ ((-1 : Int) > -1) by omega, if_false, show (-1 : Int).toNat = 0 by rfl]
    rw [writePairs, utGet2bit_zeros, DeviceSearch.rule, ← heq, Trie.resume_of_gt (by omega)]
    rfl
  · obtain ⟨d, hd⟩ : ∃ d : Nat, ds.lastDiscrepancy = (d : Int) :=
      ⟨ds.lastDiscrepancy.toNat, by omega⟩
    rw [DeviceSearch.rule, hd]
    simp only [show (d : Int) > -1 by omega, if_true, Int.toNat_natCast]
    rw [utGet2bit_utSet2bit (by rw [length_writePairs]; omega),
      utGet2bit_writePairs _ (by omega)]
    rcases Nat.lt_trichotomy j d with hlt | rfl | hgt
    · rw [if_neg (by omega), if_pos hlt, Trie.resume_of_lt (by omega)]
      cases ds.sn.bit j <;> rfl
    · rw [if_pos rfl, Trie.resume_self]
      rfl
    · rw [if_neg (by omega), if_neg (by omega), Trie.resume_of_gt (by omega)]
      rfl

/-- The pair of an accelerator at bit `i`: chosen bit and discrepancy. -/
def searchPair (S : Finset SerialNumber) (rule : Nat → Bool) (i : Nat) : BitVec 2 :=
  BitVec.ofBool ((trie S).direction rule i) ++ BitVec.ofBool (decide ((trie S).ForkAt rule i))

theorem searchPairs_ideal (hS : S.Nonempty) {request : Bytes}
    (hreq : ∀ j, (utGet2bit request j).getLsbD 1 = rule j) (n : Nat) : ∀ i, n + i = 64 →
    ∀ k < n, (Wire.searchPairs request n ⟨(trie S).walk rule i, i, .bit⟩).getD k 0
      = searchPair S rule (i + k) := by
  induction n with
  | zero => intro i _ k hk; omega
  | succ n ih =>
    intro i hi k hk
    have hA : ((trie S).walk rule i).Nonempty := Trie.walk_nonempty hS _
    have heq : ((answer ((trie S).walk rule i) i).1 == (answer ((trie S).walk rule i) i).2)
        = decide ((trie S).ForkAt rule i) := by
      by_cases hf : (trie S).ForkAt rule i
      · rw [isFork_iff_answer.mp hf, decide_eq_true hf]
        rfl
      · obtain ⟨-, hsnd⟩ := turn_eq_answer rule hA hf
        rw [hsnd, decide_eq_false hf]
        cases (answer ((trie S).walk rule i) i).1 <;> rfl
    rw [Wire.searchPairs]
    simp only [show 63 - n = i by omega, hreq, triplet_eq (S := S) hA i rule, heq]
    cases k with
    | zero => rfl
    | succ k =>
      rw [List.getD_cons_succ, show i + (k + 1) = i + 1 + k by omega]
      exact ih (i + 1) (by omega) k (by omega)

theorem utGet2bit_accelerate (hS : S.Nonempty) {request : Bytes}
    (hreq : ∀ j, (utGet2bit request j).getLsbD 1 = rule j) {i : Nat} (hi : i < 64) :
    utGet2bit (Wire.accelerate request (Wire.start S)) i = searchPair S rule i := by
  unfold Wire.accelerate
  rw [utGet2bit_writePairs _ le_rfl, if_pos hi]
  have h := searchPairs_ideal hS hreq 64 0 rfl i hi
  rwa [Nat.zero_add] at h

/-- The response, interpreted: the serial number of the walk and its last zero. -/
theorem interpretPairs_ideal {bitpairs : Bytes}
    (h : ∀ i < 64, utGet2bit bitpairs i = searchPair S rule i) {n : Nat} (hn : n ≤ 64) :
    Written SerialNumber.zero ((trie S).direction rule) n (interpretPairs bitpairs n).1 ∧
      (interpretPairs bitpairs n).2 = (trie S).lastZero rule n := by
  induction n with
  | zero => exact ⟨Written.zero _ _, rfl⟩
  | succ n ih =>
    obtain ⟨hw, hz⟩ := ih (by omega)
    have hpair := h n (by omega)
    have hchosen : (searchPair S rule n).getLsbD 1 = (trie S).direction rule n := by
      unfold searchPair
      cases (trie S).direction rule n <;> cases decide ((trie S).ForkAt rule n) <;> rfl
    have hmis : searchPair S rule n = 0b01 ↔ (trie S).ForkAt rule n ∧ rule n = false := by
      unfold searchPair
      by_cases hf : (trie S).ForkAt rule n
      · rw [Trie.direction_of_forkAt hf, decide_eq_true hf]
        cases rule n <;> simp [hf]
      · rw [decide_eq_false hf]
        cases (trie S).direction rule n <;> simp [hf]
    rw [interpretPairs]
    simp only [hpair, hchosen, hz, hmis]
    exact ⟨hw.setBit (by omega), rfl⟩

end

/-! ## All drivers -/

/-- The search routines. -/
inductive Driver where
  | bitbang | ds2480 | ds2482 | ds1wm
deriving DecidableEq, Repr

/-- One attempt on the ideal bus. -/
def Driver.attempt (S : Finset SerialNumber) : Driver → DeviceSearch → SearchStatus × DeviceSearch
  | .bitbang => nextBothBitbang (idealBitBus S)
  | .ds2480 => ds2480NextBoth (idealDs2480Bus S)
  | .ds2482 => ds2482NextBoth (idealTripletBus S)
  | .ds1wm => ds1wmNextBoth (idealDs1wmBus S)

/-- The search states that attempts lead to after `BUS_first`. `BUS_next` adds only the clean-up. -/
inductive Reached (S : Finset SerialNumber) : DeviceSearch → Prop
  | first (search : Byte) : Reached S (busFirstBoth search)
  | attempt (driver : Driver) {ds : DeviceSearch} (h : Reached S ds) :
      Reached S (driver.attempt S ds).2
  | cleanup {ds : DeviceSearch} (h : Reached S ds) :
      Reached S { ds with gulp := ds.gulp.clear }

section

variable {S : Finset SerialNumber} {ds : DeviceSearch}

/-- The last discrepancy is none, or the last zero of some walk. -/
def Discrepant (S : Finset SerialNumber) (ds : DeviceSearch) : Prop :=
  ds.lastDiscrepancy = -1 ∨ ∃ rule, ds.lastDiscrepancy = (trie S).lastZero rule 64

/-- Serial numbers with good checksums part within the first 56 bits. -/
theorem Discrepant.bounds (hS : ∀ s ∈ S, s.CrcValid) (h : Discrepant S ds) :
    -1 ≤ ds.lastDiscrepancy ∧ ds.lastDiscrepancy < 56 := by
  rcases h with h | ⟨rule, h⟩
  · omega
  rcases Trie.lastZero_cases (trie S) rule 64 with hz | ⟨d, -, hz, hfork, -⟩
  · omega
  refine ⟨by omega, ?_⟩
  by_contra hc
  obtain ⟨⟨s, hs⟩, ⟨t, ht⟩⟩ := hfork
  obtain ⟨hs, hs0⟩ := Trie.mem_branch.mp hs
  obtain ⟨ht, ht1⟩ := Trie.mem_branch.mp ht
  rw [Trie.mem_walk_iff] at hs ht
  have heq : s = t := SerialNumber.eq_of_bit_of_crcValid (hS s hs.1) (hS t ht.1) fun i hi =>
    (hs.2 i (by omega)).trans (ht.2 i (by omega)).symm
  rw [heq, ht1] at hs0
  exact Bool.false_ne_true hs0.symm

/-- The walk does not turn to zero at the last discrepancy again. -/
theorem lastZero_rule_ne (h : (trie S).lastZero ds.rule 64
    = ds.lastDiscrepancy) : (trie S).lastZero ds.rule 64 = -1 := by
  rcases Trie.lastZero_cases (trie S) ds.rule 64 with hz | ⟨d, -, hz, -, hzero⟩
  · exact hz
  · rw [hz] at h
    rw [DeviceSearch.rule, ← h, Trie.resume_self] at hzero
    exact absurd hzero Bool.true_eq_false_eq_False

theorem crc8_ones : crc8 (List.replicate 8 0xFF) ≠ 0 := by decide +kernel

/-- What an accelerated routine makes of a walk. -/
theorem acceleratedNextBoth_ideal (hS : S.Nonempty) (hcrc : ∀ s ∈ S, s.CrcValid)
    (hd : Discrepant S ds) (hl : ds.lastDevice = false)
    (exchange : Byte → Bytes → Wire → Option Bytes)
    (hex : exchange ds.search (searchRequest ds) (Wire.start S)
      = some (Wire.accelerate (searchRequest ds) (Wire.start S))) :
    ∃ sn ∈ (trie S).walk ds.rule 64,
      acceleratedNextBoth (idealBus S) exchange ds =
        if sn.family = 0 then (.error, ds)
        else (.good, ds.advance sn ((trie S).lastZero ds.rule 64)) := by
  obtain ⟨hlo, hhi⟩ := hd.bounds hcrc
  obtain ⟨hw, hz⟩ := interpretPairs_ideal (n := 64)
    (fun i hi => utGet2bit_accelerate hS (searchRequest_rule hlo (by omega)) hi) le_rfl
  have hmem := mem_walk_of_bit hS hw.1
  have hvalid : crc8 (interpretPairs (Wire.accelerate (searchRequest ds) (Wire.start S)) 64).1.bytes
      = 0 := hcrc _ (Trie.mem_members_of_mem_walk hmem)
  have hany : (idealBus S).anyDevices (Wire.start S) = true := decide_eq_true hS
  have hsel : (idealBus S).select = some (Wire.start S) := rfl
  refine ⟨_, hmem, ?_⟩
  unfold acceleratedNextBoth
  simp only [hsel, hl, Bool.false_eq_true, if_false, hany, reduceCtorEq, hex]
  rw [if_neg (fun h => crc8_ones (by rw [← h]; exact hvalid)), hz]
  simp only [hvalid, ne_eq, not_true_eq_false, false_or,
    show ds.lastDiscrepancy ≠ 63 by omega]
  split
  · rfl
  · refine congrArg _ ?_
    rw [DeviceSearch.advance]
    have hlast : (if (trie S).lastZero ds.rule 64 = ds.lastDiscrepancy ∨
        (trie S).lastZero ds.rule 64 = -1 then true else false)
        = decide ((trie S).lastZero ds.rule 64 < 0) := by
      rcases Trie.lastZero_cases (trie S) ds.rule 64 with hneg | ⟨d, -, hpos, -, -⟩
      · rw [if_pos (Or.inr hneg), hneg]
        rfl
      · rw [if_neg ?_, hpos]
        · exact (decide_eq_false (by omega)).symm
        · rintro (h | h)
          · have := lastZero_rule_ne h
            omega
          · omega
    rw [hlast]

/-- A walk of 64 turns ends at one serial number. -/
theorem eq_of_mem_walk {rule : Nat → Bool} {s t : SerialNumber}
    (hs : s ∈ (trie S).walk rule 64) (ht : t ∈ (trie S).walk rule 64) : s = t :=
  SerialNumber.ext_bit fun i hi =>
    ((Trie.mem_walk_iff.mp hs).2 i hi).trans ((Trie.mem_walk_iff.mp ht).2 i hi).symm

/-- The serial number that fails the checks is in `ds->sn` already. -/
def Driver.storesRejected : Driver → Bool
  | .bitbang | .ds2482 => true
  | .ds2480 | .ds1wm => false

/-- Where the last device was seen, there is nothing more to do. -/
theorem Driver.attempt_of_lastDevice (driver : Driver) (S : Finset SerialNumber)
    (hl : ds.lastDevice = true) : driver.attempt S ds = (.done, ds) := by
  cases driver with
  | bitbang => exact nextBothBitbang_of_lastDevice S hl
  | ds2480 => exact if_pos hl
  | ds2482 => exact if_pos hl
  | ds1wm => exact if_pos hl

theorem Driver.attempt_empty (driver : Driver) (hl : ds.lastDevice = false) :
    driver.attempt ∅ ds = (.done, { ds with lastDevice := true }) := by
  cases driver with
  | bitbang => exact nextBothBitbang_empty hl
  | ds2480 => exact if_neg (by rw [hl]; exact Bool.false_ne_true)
  | ds2482 => exact if_neg (by rw [hl]; exact Bool.false_ne_true)
  | ds1wm => exact if_neg (by rw [hl]; exact Bool.false_ne_true)

/-- The checks after a walk, on a serial number with good checksum. -/
theorem conclude_of_crcValid {sn : SerialNumber} (h : sn.CrcValid) (lastZero : Int) :
    conclude ds sn lastZero =
      if sn.family = 0 then (.error, { ds with sn := sn })
        else (.good, ds.advance sn lastZero) := by
  unfold conclude
  simp only [show crc8 sn.bytes = 0 from h, ne_eq, not_true_eq_false, false_or]

/-- **One attempt of any driver is one walk.** -/
theorem Driver.attempt_eq (driver : Driver) (hS : S.Nonempty) (hcrc : ∀ s ∈ S, s.CrcValid)
    (hd : Discrepant S ds) (hl : ds.lastDevice = false) :
    ∃ sn ∈ (trie S).walk ds.rule 64, driver.attempt S ds =
      if sn.family = 0 then
        (.error, if driver.storesRejected then { ds with sn := sn } else ds)
      else (.good, ds.advance sn ((trie S).lastZero ds.rule 64)) := by
  cases driver with
  | bitbang =>
    obtain ⟨sn, hsn, h⟩ := nextBothBitbang_ideal hS hl
    exact ⟨sn, hsn, h.trans (conclude_of_crcValid (hcrc sn (Trie.mem_members_of_mem_walk hsn)) _)⟩
  | ds2482 =>
    obtain ⟨sn, hsn, h⟩ := ds2482NextBoth_ideal hS hl
    exact ⟨sn, hsn, h.trans (conclude_of_crcValid (hcrc sn (Trie.mem_members_of_mem_walk hsn)) _)⟩
  | ds2480 =>
    obtain ⟨sn, hsn, h⟩ :=
      acceleratedNextBoth_ideal hS hcrc hd hl (ds2480Exchange (idealDs2480Bus S)) rfl
    exact ⟨sn, hsn, h⟩
  | ds1wm =>
    obtain ⟨sn, hsn, h⟩ :=
      acceleratedNextBoth_ideal hS hcrc hd hl (ds1wmExchange (idealDs1wmBus S)) rfl
    exact ⟨sn, hsn, h⟩

/-- The last discrepancy of a reachable state comes from a walk. -/
theorem Reached.discrepant (hcrc : ∀ s ∈ S, s.CrcValid) (h : Reached S ds) :
    Discrepant S ds := by
  induction h with
  | first search => exact Or.inl rfl
  | cleanup _ ih => exact ih
  | @attempt driver ds _ ih =>
    cases hl : ds.lastDevice with
    | true =>
      rw [driver.attempt_of_lastDevice S hl]
      exact ih
    | false =>
      rcases S.eq_empty_or_nonempty with rfl | hS
      · rw [driver.attempt_empty hl]
        exact ih
      · obtain ⟨sn, -, h⟩ := driver.attempt_eq hS hcrc ih hl
        rw [h]
        split
        · split
          · exact ih
          · exact ih
        · exact Or.inr ⟨ds.rule, DeviceSearch.lastDiscrepancy_advance _ _ _⟩

/--
**The accelerated searches agree with the bit-bang one.** From every reachable search state they
return the same status and leave the same last discrepancy and last device. They leave the same
serial number too, except that on `search_error`, which only a slave with family code 0 brings
about, the DS2480B and the DS1WM keep the old one.
-/
theorem Driver.attempt_agrees (S : Finset SerialNumber) (hcrc : ∀ s ∈ S, s.CrcValid)
    (h : Reached S ds) (driver : Driver) :
    let r := nextBothBitbang (idealBitBus S) ds
    let r' := driver.attempt S ds
    r'.1 = r.1 ∧ r'.2.lastDiscrepancy = r.2.lastDiscrepancy ∧
      r'.2.lastDevice = r.2.lastDevice ∧
      (r'.2.sn = if r.1 = .error ∧ driver.storesRejected = false then ds.sn else r.2.sn) ∧
      (r.1 = .error → r.2.sn ∈ S ∧ r.2.sn.family = 0) := by
  show (driver.attempt S ds).1 = (Driver.bitbang.attempt S ds).1 ∧ _
  cases hl : ds.lastDevice with
  | true =>
    show _ ∧ _ ∧ _ ∧ (_ = if (Driver.bitbang.attempt S ds).1 = _ ∧ _ then _ else
      (Driver.bitbang.attempt S ds).2.sn) ∧ _
    rw [driver.attempt_of_lastDevice S hl]
    simp only [Driver.attempt, nextBothBitbang_of_lastDevice S hl]
    simp
  | false =>
    rcases S.eq_empty_or_nonempty with rfl | hS
    · rw [driver.attempt_empty hl]
      simp only [Driver.attempt, nextBothBitbang_empty hl]
      simp
    · obtain ⟨sn, hsn, heq⟩ := Driver.bitbang.attempt_eq hS hcrc (h.discrepant hcrc) hl
      obtain ⟨sn', hsn', heq'⟩ := driver.attempt_eq hS hcrc (h.discrepant hcrc) hl
      obtain rfl := eq_of_mem_walk hsn hsn'
      have hbit : nextBothBitbang (idealBitBus S) ds = Driver.bitbang.attempt S ds := rfl
      rw [hbit, heq, heq']
      have hmem : sn ∈ S := Trie.mem_members_of_mem_walk hsn
      by_cases hfam : sn.family = 0
      · simp only [if_pos hfam]
        cases driver <;> simp [Driver.storesRejected, hmem, hfam]
      · simp only [if_neg hfam]
        simp

end

theorem attempt_agrees_sampleSlaves :
    (Driver.ds2480.attempt sampleSlaves (busFirstBoth 0xF0)).1
      = (nextBothBitbang (idealBitBus sampleSlaves) (busFirstBoth 0xF0)).1 :=
  (Driver.attempt_agrees sampleSlaves (by decide +kernel) (.first 0xF0) .ds2480).1

/-- A serial number with good checksum and family code zero. -/
def nullFamily : SerialNumber := withCrc [0, 1, 0, 0, 0, 0, 0] rfl

/-- Both searches refuse it, but only the bit-bang one leaves it in `ds->sn`. -/
theorem ds2480_keeps_sn :
    (∀ s ∈ ({nullFamily} : Finset SerialNumber), s.CrcValid) ∧
    Reached {nullFamily} (busFirstBoth 0xF0) ∧
    (nextBothBitbang (idealBitBus {nullFamily}) (busFirstBoth 0xF0)).2.sn = nullFamily ∧
    (ds2480NextBoth (idealDs2480Bus {nullFamily}) (busFirstBoth 0xF0)).2.sn = SerialNumber.zero ∧
    nullFamily ≠ SerialNumber.zero := by
  have hcrc : ∀ s ∈ ({nullFamily} : Finset SerialNumber), s.CrcValid := by decide +kernel
  have hd : Discrepant {nullFamily} (busFirstBoth 0xF0) := Or.inl rfl
  have hfam : nullFamily.family = 0 := by decide
  refine ⟨hcrc, .first 0xF0, ?_, ?_, by decide⟩
  · obtain ⟨sn, hsn, h⟩ :=
      Driver.bitbang.attempt_eq (Finset.singleton_nonempty nullFamily) hcrc hd rfl
    have hmem := Finset.mem_singleton.mp (Trie.mem_members_of_mem_walk hsn)
    rw [hmem, if_pos hfam] at h
    have h' : nextBothBitbang (idealBitBus {nullFamily}) (busFirstBoth 0xF0) = _ := h
    rw [h']
    rfl
  · obtain ⟨sn, hsn, h⟩ :=
      Driver.ds2480.attempt_eq (Finset.singleton_nonempty nullFamily) hcrc hd rfl
    have hmem := Finset.mem_singleton.mp (Trie.mem_members_of_mem_walk hsn)
    rw [hmem, if_pos hfam] at h
    have h' : ds2480NextBoth (idealDs2480Bus {nullFamily}) (busFirstBoth 0xF0) = _ := h
    rw [h']
    rfl

end Owfs.Search
