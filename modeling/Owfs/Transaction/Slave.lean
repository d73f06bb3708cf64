import Owfs.Transaction.Equivalence

/-!
# A device as a machine

What a device does is a step for every byte of the master: it puts a byte on the bus and is in a new
state. The bus is low where the master or the device pulls it down. Here are the routines of a bus
with one such device, and what each kind of item of a transaction does to the device and to the
buffers.
-/

namespace Owfs.Transaction

open Infra

/-- A device: what it does when it is selected, and what it does with a byte of the master. -/
structure Slave (δ : Type) where
  select : δ → δ
  byte : δ → Byte → Byte × δ

namespace Slave

variable {δ : Type} (s : Slave δ)

/-- The bytes of the bus during a block, and the device behind it. -/
def exchange : Bytes → δ → Bytes × δ
  | [], x => ([], x)
  | b :: d, x => ((b &&& (s.byte x b).1) :: (exchange d (s.byte x b).2).1,
      (exchange d (s.byte x b).2).2)

theorem length_exchange (d : Bytes) (x : δ) : (s.exchange d x).1.length = d.length := by
  induction d generalizing x with
  | nil => rfl
  | cons b d ih => simp [exchange, ih]

theorem exchange_append (d e : Bytes) (x : δ) :
    s.exchange (d ++ e) x
      = ((s.exchange d x).1 ++ (s.exchange e (s.exchange d x).2).1,
        (s.exchange e (s.exchange d x).2).2) := by
  induction d generalizing x with
  | nil => rfl
  | cons b d ih => simp [exchange, ih]

/-- An adapter without a routine that selects and sends in one go. -/
theorem length_noRoutine : ∀ f ∈ (none : Option (Bytes → δ → Option Bytes × δ)), ∀ {d x r x'},
    f d x = (some r, x') → r.length = d.length := by
  intro f hf
  cases hf

/-- The routines of a bus with this device. What the items of bits and the other operations do is
left to `other`. -/
def routines (other : BusRoutines δ) : BusRoutines δ :=
  { other with
    select := fun x => (true, s.select x)
    sendbackData := fun d x => (some (s.exchange d x).1, (s.exchange d x).2)
    selectAndSendback := none
    length_sendbackData := by
      intro d x r x' h
      cases h
      exact s.length_exchange d x
    length_selectAndSendback := length_noRoutine }

variable (other : BusRoutines δ)

theorem sendbackData_eq (d : Bytes) (x : δ) :
    busSendbackData (s.routines other) d x = (some (s.exchange d x).1, (s.exchange d x).2) := by
  unfold busSendbackData
  split
  · next hd =>
    rw [hd]
    rfl
  · rfl

theorem serial_routines : Serial (s.routines other) := by
  intro d e r x x'
  simp only [sendbackData_eq, exchange_append, Prod.mk.injEq, Option.some.injEq]
  constructor
  · rintro ⟨rfl, rfl⟩
    exact ⟨_, _, _, rfl, ⟨rfl, rfl⟩, rfl, rfl⟩
  · rintro ⟨rd, re, x₁, rfl, ⟨rfl, rfl⟩, rfl, rfl⟩
    exact ⟨rfl, rfl⟩

/-- Whether items are bundled or not, the transaction is good if and only if each of them is. -/
theorem busTransactionNolock_eq_good_iff (bundling : Option Nat) {log : List Trxn}
    (hkind : ∀ t ∈ log, t.inBlocks) (hspare : log.Pairwise Trxn.Spares) {st st' : St δ} :
    busTransactionNolock (s.routines other) bundling (logOf log) st = some (gbGood, st') ↔
      transactionLoop (s.routines other) (logOf log) st = some (gbGood, st') := by
  cases bundling with
  | none => exact Iff.rfl
  | some maxSize =>
    have hitems : (plan maxSize [] log).flatMap Segment.items = log := flatMap_plan maxSize [] log
    rw [busTransactionNolock, bundlePack, packLoop_eq_good_iff holds_bundleInit,
      planGood_iff_sequential (s.serial_routines other) rfl (by rwa [hitems])
      (plan_headed (by simp)) (by rwa [hitems]), hitems, transactionLoop_eq_good_iff fun t ht =>
        Trxn.single_ne_other (hkind t ht)]

/-! ## The items -/

theorem deposit_some (m : Mem) (q : Nat) (d : Bytes) :
    m.deposit (some q) d = some (m.write q d) := by
  unfold Mem.deposit
  split
  · next hnil =>
    subst hnil
    congr 1
    funext a
    simp [Mem.write]
  · rfl

section Items

variable {m : Mem} {x : δ} {rest : List Trxn}

theorem loop_end : transactionLoop (s.routines other) (logOf []) ⟨m, x⟩ = some (gbGood, ⟨m, x⟩) :=
  rfl

theorem loop_start :
    transactionLoop (s.routines other) (logOf (.start :: rest)) ⟨m, x⟩
      = transactionLoop (s.routines other) (logOf rest) ⟨m, s.select x⟩ := rfl

/-- Bytes are written that the device does not answer. -/
theorem loop_write {p n : Nat} (h : (s.exchange (m.read p n) x).1 = m.read p n) :
    transactionLoop (s.routines other) (logOf (.write (some p) n :: rest)) ⟨m, x⟩
      = transactionLoop (s.routines other) (logOf rest) ⟨m, (s.exchange (m.read p n) x).2⟩ := by
  have hsingle : busTransactionSingle (s.routines other) (Trxn.write (some p) n).item ⟨m, x⟩
      = some (gbGood, ⟨m, (s.exchange (m.read p n) x).2⟩) := by
    refine (single_eq_good_iff rfl).mpr
      ⟨m.read p n, m.read p n, Mem.fetch_some m p n, ?_, Mem.fetch_some m p n, rfl⟩
    rw [sendbackData_eq, h]
  rw [logOf_cons, transactionLoop, hsingle]
  rfl

/-- What the device says goes into a buffer. -/
theorem loop_read {q n : Nat} :
    transactionLoop (s.routines other) (logOf (.read (some q) n :: rest)) ⟨m, x⟩
      = transactionLoop (s.routines other) (logOf rest)
        ⟨m.write q (s.exchange (List.replicate n 0xFF) x).1,
          (s.exchange (List.replicate n 0xFF) x).2⟩ := by
  have hsingle : busTransactionSingle (s.routines other) (Trxn.read (some q) n).item ⟨m, x⟩
      = some (gbGood, ⟨m.write q (s.exchange (List.replicate n 0xFF) x).1,
        (s.exchange (List.replicate n 0xFF) x).2⟩) := by
    refine (single_eq_good_iff rfl).mpr
      ⟨List.replicate n 0xFF, (s.exchange (List.replicate n 0xFF) x).1, rfl,
        s.sendbackData_eq other _ x, ?_⟩
    exact deposit_some m q _
  rw [logOf_cons, transactionLoop, hsingle]
  rfl

theorem loop_crc16 {p n : Nat} (h : Device.crc16 (m.read p n) = 0) :
    transactionLoop (s.routines other) (logOf (.crc16 (some p) n :: rest)) ⟨m, x⟩
      = transactionLoop (s.routines other) (logOf rest) ⟨m, x⟩ := by
  have hsingle : busTransactionSingle (s.routines other) (Trxn.crc16 (some p) n).item ⟨m, x⟩ =
      some (gbGood, ⟨m, x⟩) :=
    (single_eq_good_iff rfl).mpr ⟨[], [], rfl, rfl, ⟨_, Mem.fetch_some m p n, h⟩, rfl⟩
  rw [logOf_cons, transactionLoop, hsingle]
  rfl

theorem loop_compare {a b n : Nat} :
    transactionLoop (s.routines other) (logOf (.compare (some a) (some b) n :: rest)) ⟨m, x⟩
      = if m.read a n = m.read b n then transactionLoop (s.routines other) (logOf rest) ⟨m, x⟩
        else some (gbBad, ⟨m, x⟩) := by
  have hsingle : busTransactionSingle (s.routines other) (Trxn.compare (some a) (some b) n).item
      ⟨m, x⟩
      = some (goodOrBad (m.read b n == m.read a n), ⟨m, x⟩) := rfl
  rw [logOf_cons, transactionLoop, hsingle]
  by_cases h : m.read a n = m.read b n
  · rw [if_pos h, h]
    simp [goodOrBad, gbGood, gbOther]
  · rw [if_neg h]
    simp [goodOrBad, gbGood, gbBad, gbOther, Ne.symm h]

theorem loop_nop :
    transactionLoop (s.routines other) (logOf (.nop :: rest)) ⟨m, x⟩
      = transactionLoop (s.routines other) (logOf rest) ⟨m, x⟩ := rfl

theorem loop_delay {msec : Nat} :
    transactionLoop (s.routines other) (logOf (.delay msec :: rest)) ⟨m, x⟩
      = transactionLoop (s.routines other) (logOf rest) ⟨m, x⟩ := rfl

end Items

end Slave

end Owfs.Transaction
