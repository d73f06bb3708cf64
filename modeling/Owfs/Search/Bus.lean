import Owfs.Infra.Trie
import Owfs.Device.SerialNumber

/-!
# The bus seen by a ROM search

The state of a directory search (`struct device_search`), what the search routines ask of the
bus, and an ideal bus.

A bus that fails answers `none`. Every attempt starts with `BUS_select`, which resets the bus, so
no state of the bus passes from one attempt to the next and `select` needs no argument.

On the ideal bus the slaves share an open wire. In a time slot the wire is high only if the
master and all slaves that take part leave it high. During a search each slave sends its next
bit, then the complement, and drops out when the master answers with the other bit.
-/

namespace Owfs.Search

open Infra Owfs.Device

/-! ## Search state -/

/-- `enum search_status` -/
inductive SearchStatus where
  | good | done | error
deriving DecidableEq, Repr

/-- `struct dirblob`. `allocated` counts serial numbers. -/
structure Dirblob where
  snlist : List SerialNumber := []
  allocated : Nat := 0
  troubled : Bool := false
deriving DecidableEq

/-- `DirblobClear` -/
def Dirblob.clear (db : Dirblob) : Dirblob := { allocated := db.snlist.length }

/-- `DirblobAdd`, with the allocation granted. -/
def Dirblob.add (sn : SerialNumber) (db : Dirblob) : Dirblob :=
  if db.troubled then db
  else
    { db with
      snlist := db.snlist ++ [sn]
      allocated :=
        if db.snlist.length ≥ db.allocated ∨ db.snlist = [] then db.allocated + 10
        else db.allocated }

/-- `DirblobGet` -/
def Dirblob.get (i : Nat) (db : Dirblob) : Option SerialNumber := db.snlist[i]?

/-- `struct device_search` -/
structure DeviceSearch where
  lastDiscrepancy : Int
  lastDevice : Bool
  index : Int
  sn : SerialNumber
  search : Byte
  gulp : Dirblob
deriving DecidableEq

/-- `BUS_first_both` -/
def busFirstBoth (search : Byte) : DeviceSearch where
  lastDiscrepancy := -1
  lastDevice := false
  index := -1
  sn := SerialNumber.zero
  search := search
  gulp := {}

/-- The rule of the search: the stored bits before the last discrepancy, one at it, zeros
behind it. -/
def DeviceSearch.rule (ds : DeviceSearch) : Nat → Bool :=
  Trie.resume ds.sn.bit ds.lastDiscrepancy

/-! ## Bus masters -/

/-- What every search routine uses. -/
structure SearchBus (σ : Type) where
  /-- `BUS_select`, with its reset. -/
  select : Option σ
  /-- `AnyDevices`, as the reset left it. -/
  anyDevices : σ → Bool
  /-- `BUS_send_data` -/
  sendData : Bytes → σ → Option σ

/-- A master that sends and reads single bits. -/
structure BitBus (σ : Type) extends SearchBus σ where
  /-- `BUS_sendback_bits` -/
  sendbackBits : List Bool → σ → Option (List Bool × σ)

/-! ## The ideal bus -/

/-- What the slaves do in the next time slot of a search. -/
inductive Slot where
  | bit | complement | direction
deriving DecidableEq, Repr

/-- A search in progress: the slaves that still take part and the bit they are at. -/
structure Wire where
  active : Finset SerialNumber
  pos : Nat
  slot : Slot

/-- After the search command. -/
def Wire.start (S : Finset SerialNumber) : Wire := ⟨S, 0, .bit⟩

/-- One time slot: what the master sends, and what it reads. -/
def Wire.timeSlot (w : Wire) (sent : Bool) : Bool × Wire :=
  match w.slot with
  | .bit =>
    (sent && decide (∀ s ∈ w.active, s.bit w.pos = true), { w with slot := .complement })
  | .complement =>
    (sent && decide (∀ s ∈ w.active, s.bit w.pos = false), { w with slot := .direction })
  | .direction =>
    (sent, ⟨w.active.filter fun s => s.bit w.pos = sent, w.pos + 1, .bit⟩)

/-- Several time slots. -/
def Wire.exchange : List Bool → Wire → List Bool × Wire
  | [], w => ([], w)
  | b :: bs, w =>
    let (r, w) := w.timeSlot b
    let (rs, w) := Wire.exchange bs w
    (r :: rs, w)

/-- The parts that all ideal masters share. -/
def idealBus (S : Finset SerialNumber) : SearchBus Wire where
  select := some (Wire.start S)
  anyDevices _ := decide S.Nonempty
  sendData _ _ := some (Wire.start S)

def idealBitBus (S : Finset SerialNumber) : BitBus Wire where
  toSearchBus := idealBus S
  sendbackBits bs w := some (w.exchange bs)

/-! ## The slaves as a trie -/

/-- The trie of a set of slaves. -/
def trie (S : Finset SerialNumber) : Trie SerialNumber := ⟨S, SerialNumber.bit⟩

@[simp] theorem members_trie (S : Finset SerialNumber) : (trie S).members = S := rfl

@[simp] theorem bit_trie (S : Finset SerialNumber) : (trie S).bit = SerialNumber.bit := rfl

/-- The pair that the slaves of `A` answer at bit `i`. -/
def answer (A : Finset SerialNumber) (i : Nat) : Bool × Bool :=
  (decide (∀ s ∈ A, s.bit i = true), decide (∀ s ∈ A, s.bit i = false))

theorem answer_fst {S A : Finset SerialNumber} {i : Nat} :
    (answer A i).1 = false ↔ ((trie S).branch A i false).Nonempty := by
  simp only [answer, decide_eq_false_iff_not]
  constructor
  · intro h
    push Not at h
    obtain ⟨s, hs, hb⟩ := h
    exact ⟨s, Trie.mem_branch.mpr ⟨hs, Bool.eq_false_of_not_eq_true hb⟩⟩
  · rintro ⟨s, hs⟩ hall
    obtain ⟨hs, hb⟩ := Trie.mem_branch.mp hs
    rw [bit_trie, hall s hs] at hb
    exact Bool.false_ne_true hb.symm

theorem answer_snd {S A : Finset SerialNumber} {i : Nat} :
    (answer A i).2 = false ↔ ((trie S).branch A i true).Nonempty := by
  simp only [answer, decide_eq_false_iff_not]
  constructor
  · intro h
    push Not at h
    obtain ⟨s, hs, hb⟩ := h
    exact ⟨s, Trie.mem_branch.mpr ⟨hs, Bool.eq_true_of_not_eq_false hb⟩⟩
  · rintro ⟨s, hs⟩ hall
    obtain ⟨hs, hb⟩ := Trie.mem_branch.mp hs
    rw [bit_trie, hall s hs] at hb
    exact Bool.false_ne_true hb

/-- Both zero: a fork. -/
theorem isFork_iff_answer {S A : Finset SerialNumber} {i : Nat} :
    (trie S).IsFork A i ↔ answer A i = (false, false) := by
  unfold Trie.IsFork
  rw [← answer_fst, ← answer_snd, Prod.ext_iff]

/-- Otherwise the first bit is the one all have. -/
theorem turn_eq_answer {S A : Finset SerialNumber} {i : Nat} (rule : Nat → Bool)
    (hA : A.Nonempty) (h : ¬ (trie S).IsFork A i) :
    (trie S).turn rule A i = (answer A i).1 ∧ (answer A i).2 = !(answer A i).1 := by
  have hne : (answer A i).1 = false ∨ (answer A i).2 = false := by
    obtain ⟨s, hs⟩ := hA
    rw [answer_fst (S := S), answer_snd (S := S)]
    cases hb : s.bit i with
    | false => exact Or.inl ⟨s, Trie.mem_branch.mpr ⟨hs, hb⟩⟩
    | true => exact Or.inr ⟨s, Trie.mem_branch.mpr ⟨hs, hb⟩⟩
  have hnot : ¬ ((answer A i).1 = false ∧ (answer A i).2 = false) := by
    rw [answer_fst (S := S), answer_snd (S := S)]
    exact h
  rw [Trie.turn, if_neg h]
  have hsnd := answer_snd (S := S) (A := A) (i := i)
  cases h1 : (answer A i).1 <;> cases h2 : (answer A i).2 <;> simp_all

/-- The wire answers with the pair, and then waits for the direction. -/
theorem exchange_read (A : Finset SerialNumber) (i : Nat) :
    Wire.exchange [true, true] ⟨A, i, .bit⟩
      = ([(answer A i).1, (answer A i).2], ⟨A, i, .direction⟩) := by
  simp [Wire.exchange, Wire.timeSlot, answer]

/-- The direction drops the others, and the next pair follows. -/
theorem exchange_direction (S A : Finset SerialNumber) (i : Nat) (b : Bool) (bs : List Bool) :
    Wire.exchange (b :: bs) ⟨A, i, .direction⟩ =
      (b :: (Wire.exchange bs ⟨(trie S).branch A i b, i + 1, .bit⟩).1,
        (Wire.exchange bs ⟨(trie S).branch A i b, i + 1, .bit⟩).2) := rfl

/-- What is left after all 64 bits is one serial number. -/
theorem mem_walk_of_bit {S : Finset SerialNumber} {rule : Nat → Bool} {sn : SerialNumber}
    (hS : S.Nonempty) (h : ∀ i < 64, sn.bit i = (trie S).direction rule i) :
    sn ∈ (trie S).walk rule 64 := by
  obtain ⟨s, hs⟩ : ((trie S).walk rule 64).Nonempty := Trie.walk_nonempty hS 64
  have hbits := (Trie.mem_walk_iff.mp hs).2
  have heq : sn = s := SerialNumber.ext_bit fun i hi => (h i hi).trans (hbits i hi).symm
  rw [heq]
  exact hs

end Owfs.Search
