import Owfs.Search.Accelerated
import Owfs.Search.Ds9490

/-!
# Retrying a search

`BUS_next_3try` repeats a failed attempt, "since ds->LastDescrepancy is altered only on success".
But the bit-bang search and the DS2482 write the bits of `ds->sn` as they read them, and the next
attempt looks at the bits before the last discrepancy to decide the forks there.

An attempt on a bus that fails or lies is described by a script: what is read at each bit. A bit
of `ds->sn` changes exactly where the script misleads (`Misleads`): the attempt reads there an
answer that points away from the stored bit. The retry gives what an undisturbed attempt would
have given exactly when no such bit is a fork of the slaves. The directory search of the DS9490
writes nothing before it succeeds, so there the retry is always safe.
-/

namespace Owfs.Search

open Infra Owfs.Device

/-! ## Buses that fail or lie -/

/-- What happens on the bus during one attempt; `answers i` is what is read at bit `i`, and `none`
is a failure of the bus. -/
structure Script (α : Type) where
  select : Bool
  sendData : Bool
  anyDevices : Bool
  answers : Nat → Option α
  lastBit : Bool

variable {α : Type}

/-- The state of a scripted bus is the next bit. -/
def Script.searchBus (script : Script α) : SearchBus Nat where
  select := if script.select then some 0 else none
  anyDevices _ := script.anyDevices
  sendData _ s := if script.sendData then some s else none

/-- Pairs of bits for the bit-bang search. -/
def scriptedBitBus (script : Script (Bool × Bool)) : BitBus Nat where
  toSearchBus := script.searchBus
  sendbackBits sent i :=
    if sent.length = 1 then
      if script.lastBit then some (sent, i) else none
    else
      match script.answers i with
      | none => none
      | some (a, b) => some (sent.take (sent.length - 2) ++ [a, b], i + 1)

/-- Status registers for the DS2482. -/
def scriptedTripletBus (script : Script Byte) : TripletBus Nat where
  toSearchBus := script.searchBus
  triplet _ i :=
    match script.answers i with
    | none => none
    | some c => some (c, i + 1)

/-! ## What a failed attempt leaves behind -/

/-- The serial number at the end of a loop that did not find the bus empty. -/
def LoopEnd.left : LoopEnd → Option SerialNumber
  | .error sn => some sn
  | .done _ => none
  | .finished sn _ => some sn

/-- The answers from bit `i` to bit `j` are there. -/
def Script.ReadsFrom (script : Script α) (i j : Nat) : Prop :=
  ∀ k, i ≤ k → k ≤ j → (script.answers k).isSome = true

section

variable {sn sn' : SerialNumber} {i j : Nat}

/-- Nothing is written once the bus fails. -/
theorem unchanged_of_failure {script : Script α} (h : script.answers i = none) (sn : SerialNumber)
    (j : Nat) (away : Prop) :
    sn.bit j ≠ sn.bit j ↔ i ≤ j ∧ script.ReadsFrom i j ∧ away := by
  constructor
  · intro hne
    exact absurd rfl hne
  · rintro ⟨hle, hall, -⟩
    have := hall i le_rfl hle
    rw [h] at this
    simp at this

/-- One bit is written, and the rest of the loop leaves it alone. -/
theorem changed_cons {script : Script α} {dir : Bool} {away away' : Prop} (hi : i < 64)
    (hans : (script.answers i).isSome = true)
    (hrest : sn'.bit j ≠ (sn.setBit i dir).bit j ↔
      i + 1 ≤ j ∧ script.ReadsFrom (i + 1) j ∧ away')
    (haway : j ≠ i → (away' ↔ away)) (hself : j = i → (dir ≠ sn.bit i ↔ away)) :
    sn'.bit j ≠ sn.bit j ↔ i ≤ j ∧ script.ReadsFrom i j ∧ away := by
  have hbit : (sn.setBit i dir).bit j = if j = i then dir else sn.bit j :=
    SerialNumber.bit_setBit hi dir j
  by_cases hj : j = i
  · subst hj
    rw [if_pos rfl] at hbit
    have hkeep : sn'.bit j = dir := by
      by_contra hc
      rw [← hbit] at hc
      have := (hrest.mp hc).1
      omega
    have hreads : script.ReadsFrom j j := by
      intro k hk hkj
      rw [show k = j by omega]
      exact hans
    rw [hkeep, hself rfl]
    exact ⟨fun h => ⟨le_rfl, hreads, h⟩, fun h => h.2.2⟩
  · rw [if_neg hj] at hbit
    rw [← hbit, hrest, haway hj]
    constructor
    · rintro ⟨hle, hall, hp⟩
      refine ⟨by omega, fun k hk hkj => ?_, hp⟩
      rcases Nat.eq_or_lt_of_le hk with rfl | hlt
      · exact hans
      · exact hall k hlt hkj
    · rintro ⟨hle, hall, hp⟩
      exact ⟨by omega, fun k hk hkj => hall k (by omega) hkj, hp⟩

/-- The decision before the last discrepancy. -/
theorem choose_before {ld : Int} (hi : (i : Int) < ld) {a b : Bool} {r : Bool × Bool}
    (h : choose ld sn i a b = some r) : r.1 ≠ sn.bit i ↔ a ≠ b ∧ a ≠ sn.bit i := by
  unfold choose at h
  rw [if_neg (by omega : ¬ (i : Int) > ld), if_neg (by omega : ¬ (i : Int) = ld)] at h
  cases a <;> cases b <;> cases hs : sn.bit i <;> simp_all <;> subst h <;> simp

/-- The answer at bit `j` points away from the stored bit. -/
def Script.Away (script : Script (Bool × Bool)) (sn : SerialNumber) (j : Nat) : Prop :=
  ∃ a b, script.answers j = some (a, b) ∧ a ≠ b ∧ a ≠ sn.bit j

end

/-- The direction of the bit before comes back first, except at bit 0. -/
theorem scriptedBitBus_sendbackBits (script : Script (Bool × Bool)) (dir : Bool) (i : Nat) :
    (scriptedBitBus script).sendbackBits (if i = 0 then [true, true] else [dir, true, true]) i =
      (script.answers i).map fun p =>
        (if i = 0 then [p.1, p.2] else [dir, p.1, p.2], i + 1) := by
  cases hans : script.answers i with
  | none => split <;> simp [scriptedBitBus, hans]
  | some p => split <;> simp [scriptedBitBus, hans]

/-- The bits before the last discrepancy that the bit-bang loop changes. -/
theorem searchLoop_scripted {script : Script (Bool × Bool)} {ld : Int} (n : Nat) :
    ∀ (i : Nat) (dir : Bool) (lastZero : Int) (sn sn' : SerialNumber), n + i = 64 →
      (searchLoop (scriptedBitBus script) ld n dir lastZero sn i).left = some sn' →
      ∀ j : Nat, j < 64 → (j : Int) < ld →
        (sn'.bit j ≠ sn.bit j ↔ i ≤ j ∧ script.ReadsFrom i j ∧ script.Away sn j) := by
  induction n with
  | zero =>
    intro i dir lastZero sn sn' hi hleft j hj _
    have hsn : sn' = sn := by
      rw [searchLoop] at hleft
      split at hleft
      · exact (Option.some.inj hleft).symm
      · exact (Option.some.inj hleft).symm
    rw [hsn]
    constructor
    · intro h
      exact absurd rfl h
    · rintro ⟨hle, -⟩
      omega
  | succ n ih =>
    intro i dir lastZero sn sn' hi hleft j hj hld
    have hbit : 63 - n = i := by omega
    rw [searchLoop] at hleft
    simp only [hbit, scriptedBitBus_sendbackBits] at hleft
    cases hans : script.answers i with
    | none =>
      rw [hans, Option.map_none] at hleft
      rw [← Option.some.inj hleft]
      exact unchanged_of_failure hans sn j _
    | some p =>
      obtain ⟨a, b⟩ := p
      have h1 : (if i = 0 then [a, b] else [dir, a, b]).getD
          ((if i = 0 then [true, true] else [dir, true, true]).length - 2) true = a := by
        split <;> rfl
      have h2 : (if i = 0 then [a, b] else [dir, a, b]).getD
          ((if i = 0 then [true, true] else [dir, true, true]).length - 1) true = b := by
        split <;> rfl
      simp only [hans, Option.map_some, h1, h2] at hleft
      cases hc : choose ld sn i a b with
      | none =>
        rw [hc] at hleft
        simp [LoopEnd.left] at hleft
      | some r =>
        rw [hc] at hleft
        refine changed_cons (by omega) (by rw [hans]; rfl)
          (ih (i + 1) r.1 _ _ sn' (by omega) hleft j hj hld) ?_ ?_
        · intro hne
          unfold Script.Away
          rw [SerialNumber.bit_setBit (by omega), if_neg hne]
        · rintro rfl
          rw [choose_before hld hc]
          constructor
          · exact fun hab => ⟨a, b, hans, hab⟩
          · rintro ⟨a', b', he, hab⟩
            rw [hans] at he
            obtain ⟨rfl, rfl⟩ := Prod.mk.inj (Option.some.inj he)
            exact hab

/-- The direction that the DS2482 reports at bit `j` is not the stored bit. -/
def Script.AwayTriplet (script : Script Byte) (sn : SerialNumber) (j : Nat) : Prop :=
  ∃ c, script.answers j = some c ∧ (c &&& stsDir != 0) ≠ sn.bit j

/-- The bits that the loop of the DS2482 changes. -/
theorem tripletLoop_scripted {script : Script Byte} {ld : Int} (n : Nat) :
    ∀ (i : Nat) (lastZero : Int) (sn sn' : SerialNumber), n + i = 64 →
      (tripletLoop (scriptedTripletBus script) ld n lastZero sn i).left = some sn' →
      ∀ j : Nat, j < 64 →
        (sn'.bit j ≠ sn.bit j ↔ i ≤ j ∧ script.ReadsFrom i j ∧ script.AwayTriplet sn j) := by
  induction n with
  | zero =>
    intro i lastZero sn sn' hi hleft j hj
    rw [tripletLoop] at hleft
    rw [← Option.some.inj hleft]
    constructor
    · intro h
      exact absurd rfl h
    · rintro ⟨hle, -⟩
      omega
  | succ n ih =>
    intro i lastZero sn sn' hi hleft j hj
    have hbit : 63 - n = i := by omega
    rw [tripletLoop] at hleft
    simp only [hbit] at hleft
    cases hans : script.answers i with
    | none =>
      simp only [ds2482Triple, scriptedTripletBus, hans] at hleft
      rw [← Option.some.inj hleft]
      exact unchanged_of_failure hans sn j _
    | some c =>
      have hrest : ∃ lz, (tripletLoop (scriptedTripletBus script) ld n lz
          (sn.setBit i (c &&& stsDir != 0)) (i + 1)).left = some sn' := by
        simp only [ds2482Triple, scriptedTripletBus, hans] at hleft
        split at hleft
        · split at hleft
          · simp [LoopEnd.left] at hleft
          · exact ⟨_, hleft⟩
        · exact ⟨_, hleft⟩
      obtain ⟨lz, hleft'⟩ := hrest
      refine changed_cons (by omega) (by rw [hans]; rfl)
        (ih (i + 1) lz _ sn' (by omega) hleft' j hj) ?_ ?_
      · intro hne
        unfold Script.AwayTriplet
        rw [SerialNumber.bit_setBit (by omega), if_neg hne]
      · rintro rfl
        constructor
        · exact fun hc => ⟨c, hans, hc⟩
        · rintro ⟨c', he, hc⟩
          rw [hans] at he
          obtain rfl := Option.some.inj he
          exact hc

/-- A failed attempt read at bit `i` an answer against the stored bit: only slaves with the other
bit seemed to be there. -/
def Script.Misleads (script : Script (Bool × Bool)) (sn : SerialNumber) (i : Nat) : Prop :=
  script.select = true ∧ script.sendData = true ∧ script.ReadsFrom 0 i ∧ script.Away sn i

/-- A failed attempt of the DS2482 was told the other direction at bit `i`. -/
def Script.MisleadsTriplet (script : Script Byte) (sn : SerialNumber) (i : Nat) : Prop :=
  script.select = true ∧ script.sendData = true ∧ script.ReadsFrom 0 i ∧
    script.AwayTriplet sn i

/-- What a failed attempt leaves: the same state but for bits of `sn`. -/
structure LeftBehind (ds ds' : DeviceSearch) (misleads : Nat → Prop) : Prop where
  same : ds' = { ds with sn := ds'.sn }
  bits : ∀ i : Nat, i < 64 → (i : Int) < ds.lastDiscrepancy →
    (ds'.sn.bit i ≠ ds.sn.bit i ↔ misleads i)
  last : ds.lastDevice = true → ∀ i, ¬ misleads i

theorem leftBehind_refl {ds : DeviceSearch} {misleads : Nat → Prop} (h : ∀ i, ¬ misleads i) :
    LeftBehind ds ds misleads where
  same := rfl
  bits i _ _ := ⟨fun hne => absurd rfl hne, fun hm => absurd hm (h i)⟩
  last _ := h

theorem conclude_error {ds ds' : DeviceSearch} {sn : SerialNumber} {lastZero : Int}
    (h : conclude ds sn lastZero = (.error, ds')) : ds' = { ds with sn := sn } := by
  unfold conclude at h
  split at h
  · exact (Prod.mk.inj h).2.symm
  · simp at h

theorem nextBothBitbang_leftBehind {script : Script (Bool × Bool)} {ds ds' : DeviceSearch}
    (h : nextBothBitbang (scriptedBitBus script) ds = (.error, ds')) :
    LeftBehind ds ds' (script.Misleads ds.sn) := by
  unfold nextBothBitbang at h
  cases hsel : script.select with
  | false =>
    simp only [scriptedBitBus, Script.searchBus, hsel, Bool.false_eq_true, if_false] at h
    rw [← (Prod.mk.inj h).2]
    exact leftBehind_refl fun i hm => absurd (hsel.symm.trans hm.1) Bool.false_ne_true
  | true =>
    have hsel' : (scriptedBitBus script).select = some 0 := by
      simp [scriptedBitBus, Script.searchBus, hsel]
    simp only [hsel'] at h
    cases hl : ds.lastDevice with
    | true => simp [hl] at h
    | false =>
      rw [if_neg (by rw [hl]; exact Bool.false_ne_true)] at h
      cases hsend : script.sendData with
      | false =>
        simp only [scriptedBitBus, Script.searchBus, hsend, Bool.false_eq_true, if_false] at h
        rw [← (Prod.mk.inj h).2]
        exact leftBehind_refl fun i hm => absurd (hsend.symm.trans hm.2.1) Bool.false_ne_true
      | true =>
        have hsend' : (scriptedBitBus script).sendData [ds.search] 0 = some 0 := by
          simp [scriptedBitBus, Script.searchBus, hsend]
        simp only [hsend'] at h
        split at h
        · simp at h
        · obtain ⟨sn', hleft, rfl⟩ : ∃ sn', (searchLoop (scriptedBitBus script)
              ds.lastDiscrepancy 64 false (-1) ds.sn 0).left = some sn' ∧
              ds' = { ds with sn := sn' } := by
            split at h
            · next sn hloop => exact ⟨sn, by rw [hloop]; rfl, (Prod.mk.inj h).2.symm⟩
            · simp at h
            · next sn lz hloop => exact ⟨sn, by rw [hloop]; rfl, conclude_error h⟩
          refine ⟨rfl, fun i hi hld => ?_, fun hl' => absurd (hl.symm.trans hl') (by simp)⟩
          show sn'.bit i ≠ ds.sn.bit i ↔ _
          rw [searchLoop_scripted 64 0 false (-1) ds.sn sn' rfl hleft i hi hld]
          simp [Script.Misleads, hsel, hsend]

theorem ds2482NextBoth_leftBehind {script : Script Byte} {ds ds' : DeviceSearch}
    (h : ds2482NextBoth (scriptedTripletBus script) ds = (.error, ds')) :
    LeftBehind ds ds' (script.MisleadsTriplet ds.sn) := by
  unfold ds2482NextBoth at h
  cases hl : ds.lastDevice with
  | true => simp [hl] at h
  | false =>
    rw [if_neg (by rw [hl]; exact Bool.false_ne_true)] at h
    cases hsel : script.select with
    | false =>
      simp only [scriptedTripletBus, Script.searchBus, hsel, Bool.false_eq_true, if_false] at h
      rw [← (Prod.mk.inj h).2]
      exact leftBehind_refl fun i hm => absurd (hsel.symm.trans hm.1) Bool.false_ne_true
    | true =>
      have hsel' : (scriptedTripletBus script).select = some 0 := by
        simp [scriptedTripletBus, Script.searchBus, hsel]
      simp only [hsel'] at h
      split at h
      · simp at h
      cases hsend : script.sendData with
      | false =>
        simp only [scriptedTripletBus, Script.searchBus, hsend, Bool.false_eq_true, if_false] at h
        rw [← (Prod.mk.inj h).2]
        exact leftBehind_refl fun i hm => absurd (hsend.symm.trans hm.2.1) Bool.false_ne_true
      | true =>
        have hsend' : (scriptedTripletBus script).sendData [ds.search] 0 = some 0 := by
          simp [scriptedTripletBus, Script.searchBus, hsend]
        simp only [hsend'] at h
        obtain ⟨sn', hleft, rfl⟩ : ∃ sn', (tripletLoop (scriptedTripletBus script)
            ds.lastDiscrepancy 64 (-1) ds.sn 0).left = some sn' ∧
            ds' = { ds with sn := sn' } := by
          split at h
          · next sn hloop => exact ⟨sn, by rw [hloop]; rfl, (Prod.mk.inj h).2.symm⟩
          · simp at h
          · next sn lz hloop => exact ⟨sn, by rw [hloop]; rfl, conclude_error h⟩
        refine ⟨rfl, fun i hi _ => ?_, fun hl' => absurd (hl.symm.trans hl') (by simp)⟩
        show sn'.bit i ≠ ds.sn.bit i ↔ _
        rw [tripletLoop_scripted 64 0 (-1) ds.sn sn' rfl hleft i hi]
        simp [Script.MisleadsTriplet, hsel, hsend]

/-! ## The retry -/

/-- The same status and search state; the serial number counts unless the search is over. -/
def SameAnswer (r r' : SearchStatus × DeviceSearch) : Prop :=
  r.1 = r'.1 ∧ r.2.lastDiscrepancy = r'.2.lastDiscrepancy ∧ r.2.lastDevice = r'.2.lastDevice ∧
    (r.1 ≠ .done → r.2.sn = r'.2.sn)

instance (r r' : SearchStatus × DeviceSearch) : Decidable (SameAnswer r r') :=
  inferInstanceAs (Decidable (_ ∧ _ ∧ _ ∧ (_ → _)))

section

variable {S : Finset SerialNumber} {ds ds' : DeviceSearch} {misleads : Nat → Prop}

/-- No bit that decides a fork was led astray. -/
def Untouched (S : Finset SerialNumber) (ds : DeviceSearch) (misleads : Nat → Prop) : Prop :=
  ∀ i : Nat, i < 64 → (i : Int) < ds.lastDiscrepancy → (trie S).ForkAt ds.rule i → ¬ misleads i

theorem conclude_sn (ds : DeviceSearch) (sn : SerialNumber) (lastZero : Int) :
    (conclude ds sn lastZero).2.sn = sn ∧ (conclude ds sn lastZero).1 ≠ .done := by
  unfold conclude
  split
  · exact ⟨rfl, by simp⟩
  · exact ⟨rfl, by simp⟩

/-- Two walks from the states before and after find the same exactly if the stored bits agree at
the forks. -/
theorem rule_eq_iff (h : LeftBehind ds ds' misleads) :
    (∀ i < 64, (trie S).ForkAt ds.rule i → ds.rule i = ds'.rule i) ↔ Untouched S ds misleads := by
  have hld : ds'.lastDiscrepancy = ds.lastDiscrepancy := by rw [h.same]
  have hrule : ∀ i : Nat, (i : Int) < ds.lastDiscrepancy →
      (ds.rule i = ds'.rule i ↔ ¬ ds'.sn.bit i ≠ ds.sn.bit i) := by
    intro i hi
    rw [DeviceSearch.rule, DeviceSearch.rule, hld, Trie.resume_of_lt hi, Trie.resume_of_lt hi,
      not_not]
    exact eq_comm
  constructor
  · intro hall i hi hlt hf hm
    exact (hrule i hlt).mp (hall i hi hf) ((h.bits i hi hlt).mpr hm)
  · intro hun i hi hf
    by_cases hlt : (i : Int) < ds.lastDiscrepancy
    · exact (hrule i hlt).mpr fun hne => hun i hi hlt hf ((h.bits i hi hlt).mp hne)
    · rw [DeviceSearch.rule, DeviceSearch.rule, hld, Trie.resume, Trie.resume, if_neg hlt,
        if_neg hlt]

/-- **The retry of a search that walks the trie.** It answers as an undisturbed attempt exactly
when no fork was led astray. -/
theorem sameAnswer_iff (attempt : DeviceSearch → SearchStatus × DeviceSearch)
    (hwalk : S.Nonempty → ∀ ds : DeviceSearch, ds.lastDevice = false →
      ∃ sn ∈ (trie S).walk ds.rule 64,
        attempt ds = conclude ds sn ((trie S).lastZero ds.rule 64))
    (hlast : ∀ ds : DeviceSearch, ds.lastDevice = true → attempt ds = (.done, ds))
    (hempty : S = ∅ → ∀ ds : DeviceSearch, ds.lastDevice = false →
      attempt ds = (.done, { ds with lastDevice := true }))
    (h : LeftBehind ds ds' misleads) :
    SameAnswer (attempt ds') (attempt ds) ↔ Untouched S ds misleads := by
  have hld : ds'.lastDiscrepancy = ds.lastDiscrepancy := by rw [h.same]
  have hdev : ds'.lastDevice = ds.lastDevice := by rw [h.same]
  cases hl : ds.lastDevice with
  | true =>
    rw [hlast ds hl, hlast ds' (hdev.trans hl)]
    refine ⟨fun _ i _ _ _ => h.last hl i, fun _ => ⟨rfl, hld, hdev, fun hne => absurd rfl hne⟩⟩
  | false =>
    rcases S.eq_empty_or_nonempty with rfl | hS
    · rw [hempty rfl ds hl, hempty rfl ds' (hdev.trans hl)]
      refine ⟨fun _ i _ _ hf => ?_, fun _ => ⟨rfl, hld, rfl, fun hne => absurd rfl hne⟩⟩
      obtain ⟨⟨s, hs⟩, -⟩ := hf
      have := Trie.mem_members_of_mem_walk (Trie.mem_branch.mp hs).1
      simp at this
    · obtain ⟨t, ht, heq⟩ := hwalk hS ds hl
      obtain ⟨t', ht', heq'⟩ := hwalk hS ds' (hdev.trans hl)
      rw [← rule_eq_iff h, ← Trie.direction_eq_iff, heq, heq']
      constructor
      · rintro ⟨-, -, -, hsn⟩ i hi
        have htt := hsn (conclude_sn _ _ _).2
        rw [(conclude_sn _ _ _).1, (conclude_sn _ _ _).1] at htt
        rw [← (Trie.mem_walk_iff.mp ht).2 i hi, ← (Trie.mem_walk_iff.mp ht').2 i hi, htt]
      · intro hdir
        have htt : t' = t := SerialNumber.ext_bit fun i hi => by
          have h1 := (Trie.mem_walk_iff.mp ht).2 i hi
          have h2 := (Trie.mem_walk_iff.mp ht').2 i hi
          rw [bit_trie] at h1 h2
          rw [h1, h2, hdir i hi]
        rw [htt, ← Trie.lastZero_eq_of_direction hdir]
        unfold conclude
        split
        · exact ⟨rfl, hld, hdev, fun _ => rfl⟩
        · exact ⟨rfl, rfl, rfl, fun _ => rfl⟩

end

/-- The retry of the bit-bang search. -/
theorem retry_bitbang_iff (S : Finset SerialNumber) {script : Script (Bool × Bool)}
    {ds ds' : DeviceSearch} (h : nextBothBitbang (scriptedBitBus script) ds = (.error, ds')) :
    SameAnswer (nextBothBitbang (idealBitBus S) ds') (nextBothBitbang (idealBitBus S) ds) ↔
      Untouched S ds (script.Misleads ds.sn) := by
  refine sameAnswer_iff _ (fun hS d hl => nextBothBitbang_ideal hS hl)
    (fun d hl => nextBothBitbang_of_lastDevice S hl) ?_ (nextBothBitbang_leftBehind h)
  rintro rfl d hl
  exact nextBothBitbang_empty hl

/-- The retry of the DS2482. -/
theorem retry_ds2482_iff (S : Finset SerialNumber) {script : Script Byte}
    {ds ds' : DeviceSearch} (h : ds2482NextBoth (scriptedTripletBus script) ds = (.error, ds')) :
    SameAnswer (ds2482NextBoth (idealTripletBus S) ds') (ds2482NextBoth (idealTripletBus S) ds) ↔
      Untouched S ds (script.MisleadsTriplet ds.sn) := by
  refine sameAnswer_iff _ (fun hS d hl => ds2482NextBoth_ideal hS hl)
    (fun d hl => Driver.ds2482.attempt_of_lastDevice S hl) ?_ (ds2482NextBoth_leftBehind h)
  rintro rfl d hl
  exact Driver.ds2482.attempt_empty hl

/--
**When a retry is safe.** After an attempt that ended in `search_error`, the next attempt on an
error-free bus answers as an undisturbed first attempt would have

* for the bit-bang search exactly when the failed attempt read no one-sided answer against the
  stored bit at a fork before the last discrepancy,
* for the DS2482 exactly when it was told no direction against the stored bit there,
* for the DS9490 always.
-/
theorem search_retry (S : Finset SerialNumber) :
    (∀ (script : Script (Bool × Bool)) (ds ds' : DeviceSearch),
      nextBothBitbang (scriptedBitBus script) ds = (.error, ds') →
      (SameAnswer (nextBothBitbang (idealBitBus S) ds') (nextBothBitbang (idealBitBus S) ds) ↔
        ∀ i : Nat, i < 64 → (i : Int) < ds.lastDiscrepancy → (trie S).ForkAt ds.rule i →
          ¬ script.Misleads ds.sn i)) ∧
    (∀ (script : Script Byte) (ds ds' : DeviceSearch),
      ds2482NextBoth (scriptedTripletBus script) ds = (.error, ds') →
      (SameAnswer (ds2482NextBoth (idealTripletBus S) ds')
          (ds2482NextBoth (idealTripletBus S) ds) ↔
        ∀ i : Nat, i < 64 → (i : Int) < ds.lastDiscrepancy → (trie S).ForkAt ds.rule i →
          ¬ script.MisleadsTriplet ds.sn i)) ∧
    ∀ (σ τ : Type) (bus : UsbBus σ) (bus' : UsbBus τ) (ds ds' : DeviceSearch),
      ds9490NextBoth bus ds = (.error, ds') →
      SameAnswer (ds9490NextBoth bus' ds') (ds9490NextBoth bus' ds) := by
  refine ⟨fun script ds ds' h => retry_bitbang_iff S h, fun script ds ds' h => retry_ds2482_iff S h,
    fun σ τ bus bus' ds ds' h => ?_⟩
  obtain ⟨hsn, hld, hdev, hsearch⟩ := ds9490NextBoth_error bus h
  obtain ⟨h1, h2, h3, h4⟩ := ds9490NextBoth_congr bus' hsn hld hdev hsearch
  exact ⟨h1, h2, h3, fun _ => h4⟩

/-! ## A retry that skips a slave -/

/-- Three thermometers that part at bits 8 and 9. -/
def slaveA : SerialNumber := withCrc (0x28 :: 0 :: List.replicate 5 0) rfl

def slaveB : SerialNumber := withCrc (0x28 :: 2 :: List.replicate 5 0) rfl

def slaveC : SerialNumber := withCrc (0x28 :: 1 :: List.replicate 5 0) rfl

def threeSlaves : Finset SerialNumber := {slaveA, slaveB, slaveC}

/-- The state after `BUS_first` has found the first of them. -/
def afterFirst : DeviceSearch := (nextBothBitbang (idealBitBus threeSlaves) (busFirstBoth 0xF0)).2

/-- The first bit read at the fork of bit 8 is flipped, and then the bus fails. -/
def glitch : Script (Bool × Bool) where
  select := true
  sendData := true
  anyDevices := true
  answers i := if i < 8 then some (slaveA.bit i, !slaveA.bit i)
    else if i = 8 then some (true, false) else none
  lastBit := true

/-- Undisturbed, the second slave is found. The retry after the glitch finds the third, and the
listing ends there. -/
theorem retry_skips_slave :
    Reached threeSlaves afterFirst ∧
    (nextBothBitbang (scriptedBitBus glitch) afterFirst).1 = .error ∧
    reply (nextBothBitbang (idealBitBus threeSlaves) afterFirst) = .good slaveB ∧
    listing (nextBothBitbang (idealBitBus threeSlaves)) 2
      (nextBothBitbang (scriptedBitBus glitch) afterFirst).2 = [.good slaveC, .done] ∧
    ¬ SameAnswer
      (nextBothBitbang (idealBitBus threeSlaves)
        (nextBothBitbang (scriptedBitBus glitch) afterFirst).2)
      (nextBothBitbang (idealBitBus threeSlaves) afterFirst) := by
  refine ⟨.attempt .bitbang (.first 0xF0), ?_, ?_, ?_, ?_⟩
  · decide +kernel
  · decide +kernel
  · decide +kernel
  · decide +kernel

/-- A bus that fails at bit 8 does no harm. -/
theorem search_retry_failure :
    SameAnswer
      (nextBothBitbang (idealBitBus threeSlaves)
        (nextBothBitbang (scriptedBitBus { glitch with
          answers := fun i => if i < 8 then glitch.answers i else none }) afterFirst).2)
      (nextBothBitbang (idealBitBus threeSlaves) afterFirst) := by
  refine ((search_retry threeSlaves).1 { glitch with
    answers := fun i => if i < 8 then glitch.answers i else none } afterFirst _ ?_).mpr ?_
  · refine Prod.ext ?_ rfl
    decide +kernel
  · rintro i - - - ⟨-, -, -, a, b, hans, hne, haway⟩
    have hsn : afterFirst.sn = slaveA := by decide +kernel
    rw [hsn] at haway
    by_cases hi : i < 8
    · simp only [hi, if_true, glitch, Option.some.injEq, Prod.mk.injEq] at hans
      exact haway hans.1.symm
    · simp [hi] at hans

end Owfs.Search
