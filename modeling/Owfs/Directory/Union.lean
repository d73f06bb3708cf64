import Owfs.Infra.Bytes

/-!
# The union of the directories of all buses

`FS_dir_all_connections` lists a directory on every bus. Each port has a thread, which starts the
thread of the next port, lists the channels of its own port one after the other, and then takes
over the result of the next port when that thread has ended. Each thread works on a structure of
its own, which its parent reads only after the join, so the order in which the threads run does not
matter. The join of a thread that was created succeeds.

A channel overwrites the status of the channel before it, and the test of the status of the next
port is the wrong way round. The flags and the status that come back are right only under the
conditions of `rightUnion_iff`.
-/

namespace Owfs.Directory

open Infra

/-! ## Listing every bus -/

/-- A channel (`struct connection_in`), and what listing the directory there gives: the status, and
the flags that are added. -/
structure Channel where
  /-- `TestConnection` is good. -/
  testConnection : Bool
  busIsServer : Bool
  serverDir : Int × BitVec 32
  alarmdir : Int
  cacheOrReal : Int × BitVec 32

/-- `struct port_in` -/
structure Port where
  /-- `first`, and the `next` of each -/
  channels : List Channel
  /-- The thread for the next port can be created. -/
  threadCreated : Bool

/-- The part of `struct dir_all_connections_struct` that changes. -/
structure DirAllConnections where
  flags : BitVec 32
  ret : Int
deriving DecidableEq

section

variable (isAlarmDir : Bool)

/-- `FS_dir_all_connections_callback_conn` -/
def callbackConn : List Channel → DirAllConnections → DirAllConnections
  | [], dacs => dacs
  | cin :: next, dacs =>
    callbackConn next
      (if cin.testConnection = false then { dacs with ret := -econnaborted }
      else if cin.busIsServer then ⟨dacs.flags ||| cin.serverDir.2, cin.serverDir.1⟩
      else if isAlarmDir then { dacs with ret := cin.alarmdir }
      else ⟨dacs.flags ||| cin.cacheOrReal.2, cin.cacheOrReal.1⟩)

/-- `FS_dir_all_connections_callback_port` -/
def callbackPort : List Port → DirAllConnections → DirAllConnections
  | [], dacs => dacs
  | pin :: next, dacs =>
    let here := callbackConn isAlarmDir pin.channels dacs
    if next.isEmpty || !pin.threadCreated then here
    else
      let dacsNext := callbackPort next dacs
      -- "is it an error return? Then return this one"
      if dacsNext.ret ≥ 0 then { here with ret := dacsNext.ret }
      else { here with flags := here.flags ||| dacsNext.flags }

/-- `FS_dir_all_connections` -/
def fsDirAllConnections (headPort : List Port) : DirAllConnections :=
  callbackPort isAlarmDir headPort ⟨0#32, 0⟩

/-! ## What should come back -/

/-- The status of a channel. -/
def Channel.status (cin : Channel) : Int :=
  if cin.testConnection = false then -econnaborted
  else if cin.busIsServer then cin.serverDir.1
  else if isAlarmDir then cin.alarmdir
  else cin.cacheOrReal.1

/-- The flags of a channel. -/
def Channel.flags (cin : Channel) : BitVec 32 :=
  if cin.testConnection = false then 0#32
  else if cin.busIsServer then cin.serverDir.2
  else if isAlarmDir then 0#32
  else cin.cacheOrReal.2

/-- The ports up to the first that cannot start a thread for the next. -/
def queried : List Port → List Port
  | [] => []
  | pin :: next => pin :: if pin.threadCreated then queried next else []

/-- The channels that were listed. -/
def listed (ports : List Port) : List Channel := (queried ports).flatMap Port.channels

def unionFlags (channels : List Channel) : BitVec 32 :=
  channels.foldr (fun cin flags => cin.flags isAlarmDir ||| flags) 0#32

/-- The status of the last channel of a port. -/
def Port.lastStatus (pin : Port) : Int := pin.channels.getLast?.elim 0 (Channel.status isAlarmDir)

/-- The flags are those of all channels, and the status tells whether one of them failed. -/
structure RightUnion (ports : List Port) : Prop where
  flags : (fsDirAllConnections isAlarmDir ports).flags = unionFlags isAlarmDir (listed ports)
  success : (∀ cin ∈ listed ports, cin.status isAlarmDir = 0) →
    (fsDirAllConnections isAlarmDir ports).ret = 0
  failure : (∃ cin ∈ listed ports, cin.status isAlarmDir < 0) →
    (fsDirAllConnections isAlarmDir ports).ret < 0

/-- No flags are lost: the ports behind the first end with a failure, or have no flags that the
first port does not have. -/
def FlagsKept (ports : List Port) : Prop :=
  (∀ pin ∈ (queried ports).tail, pin.lastStatus isAlarmDir < 0) ∨
    unionFlags isAlarmDir (listed ports) = unionFlags isAlarmDir (ports.head?.elim [] Port.channels)

/-- No failure is lost: there is none, or all ports end with one. -/
def FailureKept (ports : List Port) : Prop :=
  (∀ cin ∈ listed ports, 0 ≤ cin.status isAlarmDir) ∨
    ∀ pin ∈ queried ports, pin.lastStatus isAlarmDir < 0

end

/-! ## One port -/

section

variable {isAlarmDir : Bool}

theorem unionFlags_append (xs ys : List Channel) :
    unionFlags isAlarmDir (xs ++ ys) = unionFlags isAlarmDir xs ||| unionFlags isAlarmDir ys := by
  induction xs with
  | nil => exact (BitVec.zero_or).symm
  | cons x xs ih =>
    show x.flags isAlarmDir ||| unionFlags isAlarmDir (xs ++ ys) = _
    rw [ih, ← BitVec.or_assoc]
    rfl

/-- The status of a port is that of its last channel. -/
theorem callbackConn_eq (channels : List Channel) (dacs : DirAllConnections) :
    callbackConn isAlarmDir channels dacs =
      ⟨dacs.flags ||| unionFlags isAlarmDir channels,
        channels.getLast?.elim dacs.ret (Channel.status isAlarmDir)⟩ := by
  induction channels generalizing dacs with
  | nil =>
    show dacs = ⟨dacs.flags ||| 0#32, dacs.ret⟩
    rw [BitVec.or_zero]
  | cons cin next ih =>
    have hstep : callbackConn isAlarmDir (cin :: next) dacs =
        callbackConn isAlarmDir next ⟨dacs.flags ||| cin.flags isAlarmDir,
          cin.status isAlarmDir⟩ := by
      rw [callbackConn]
      unfold Channel.flags Channel.status
      split
      · rw [BitVec.or_zero]
      · split
        · rfl
        · split
          · rw [BitVec.or_zero]
          · rfl
    rw [hstep, ih, BitVec.or_assoc]
    congr 1
    cases next with
    | nil => rfl
    | cons cin' next => rw [List.getLast?_cons_cons]; rfl

theorem callbackConn_start (pin : Port) :
    callbackConn isAlarmDir pin.channels ⟨0#32, 0⟩ =
      ⟨unionFlags isAlarmDir pin.channels, pin.lastStatus isAlarmDir⟩ := by
  rw [callbackConn_eq, BitVec.zero_or]
  rfl

/-! ## The chain of ports -/

theorem callbackPort_cons (pin : Port) (next : List Port) :
    callbackPort isAlarmDir (pin :: next) ⟨0#32, 0⟩ =
      if next.isEmpty || !pin.threadCreated then
        ⟨unionFlags isAlarmDir pin.channels, pin.lastStatus isAlarmDir⟩
      else if (callbackPort isAlarmDir next ⟨0#32, 0⟩).ret ≥ 0 then
        ⟨unionFlags isAlarmDir pin.channels, (callbackPort isAlarmDir next ⟨0#32, 0⟩).ret⟩
      else
        ⟨unionFlags isAlarmDir pin.channels ||| (callbackPort isAlarmDir next ⟨0#32, 0⟩).flags,
          pin.lastStatus isAlarmDir⟩ := by
  rw [callbackPort]
  dsimp only
  rw [callbackConn_start]

/-- Nothing behind the port is queried when there is no thread. -/
theorem queried_tail_eq_nil {pin : Port} {next : List Port}
    (h : (next.isEmpty || !pin.threadCreated) = true) : queried (pin :: next) = [pin] := by
  rw [queried]
  rcases Bool.or_eq_true_iff.mp h with hnext | hthread
  · rw [List.isEmpty_iff.mp hnext]
    split <;> rfl
  · rw [if_neg (by rw [Bool.not_eq_true'] at hthread; rw [hthread]; decide)]

theorem queried_cons_of_created {pin : Port} {next : List Port}
    (h : ¬ (next.isEmpty || !pin.threadCreated) = true) :
    next ≠ [] ∧ queried (pin :: next) = pin :: queried next := by
  rw [Bool.or_eq_true_iff, not_or] at h
  refine ⟨fun hnil => h.1 (List.isEmpty_iff.mpr hnil), ?_⟩
  rw [queried, if_pos]
  simpa using h.2

theorem mem_queried_head {pin : Port} {next : List Port} : pin ∈ queried (pin :: next) := by
  rw [queried]
  exact List.mem_cons_self

/-- **A failure comes back only if all ports end with one.** -/
theorem ret_neg_iff {ports : List Port} (hne : ports ≠ []) :
    (callbackPort isAlarmDir ports ⟨0#32, 0⟩).ret < 0 ↔
      ∀ pin ∈ queried ports, pin.lastStatus isAlarmDir < 0 := by
  induction ports with
  | nil => exact absurd rfl hne
  | cons pin next ih =>
    rw [callbackPort_cons]
    split
    · next hend =>
      rw [queried_tail_eq_nil hend]
      simp
    · next hmore =>
      obtain ⟨hnext, hqueried⟩ := queried_cons_of_created hmore
      have ih := ih hnext
      rw [hqueried, List.forall_mem_cons]
      split
      · next hgood =>
        rw [← ih]
        constructor
        · intro h
          exact absurd h (Int.not_lt.mpr hgood)
        · rintro ⟨-, h⟩
          exact absurd h (Int.not_lt.mpr hgood)
      · next hbad =>
        rw [← ih]
        exact ⟨fun h => ⟨h, Int.not_le.mp hbad⟩, fun h => h.1⟩

/-- Where the ports behind the first end with a failure, all flags come back. -/
theorem flags_of_failed {ports : List Port}
    (h : ∀ pin ∈ (queried ports).tail, pin.lastStatus isAlarmDir < 0) :
    (callbackPort isAlarmDir ports ⟨0#32, 0⟩).flags = unionFlags isAlarmDir (listed ports) := by
  induction ports with
  | nil => rfl
  | cons pin next ih =>
    unfold listed
    rw [callbackPort_cons]
    split
    · next hend =>
      rw [queried_tail_eq_nil hend]
      simp
    · next hmore =>
      obtain ⟨hnext, hqueried⟩ := queried_cons_of_created hmore
      rw [hqueried] at h ⊢
      have hneg := (ret_neg_iff hnext).mpr h
      rw [if_neg (Int.not_le.mpr hneg), List.flatMap_cons, unionFlags_append,
        ih fun q hq => h q (List.mem_of_mem_tail hq)]
      rfl

/-- Otherwise only those of the first port do. -/
theorem flags_of_not_failed {ports : List Port}
    (h : ¬ ∀ pin ∈ (queried ports).tail, pin.lastStatus isAlarmDir < 0) :
    (callbackPort isAlarmDir ports ⟨0#32, 0⟩).flags =
      unionFlags isAlarmDir (ports.head?.elim [] Port.channels) := by
  cases ports with
  | nil => rfl
  | cons pin next =>
    rw [callbackPort_cons]
    split
    · rfl
    · next hmore =>
      obtain ⟨hnext, hqueried⟩ := queried_cons_of_created hmore
      rw [hqueried, List.tail_cons, ← ret_neg_iff hnext] at h
      rw [if_pos (Int.not_lt.mp h)]
      rfl

/-- Without a failure the status is zero. -/
theorem ret_of_success {ports : List Port}
    (h : ∀ cin ∈ listed ports, cin.status isAlarmDir = 0) :
    (callbackPort isAlarmDir ports ⟨0#32, 0⟩).ret = 0 := by
  have hlast : ∀ pin ∈ queried ports, pin.lastStatus isAlarmDir = 0 := by
    intro pin hpin
    unfold Port.lastStatus
    cases hcin : pin.channels.getLast? with
    | none => rfl
    | some cin => exact h cin (List.mem_flatMap.mpr ⟨pin, hpin, List.mem_of_getLast? hcin⟩)
  clear h
  induction ports with
  | nil => rfl
  | cons pin next ih =>
    rw [callbackPort_cons]
    split
    · exact hlast pin mem_queried_head
    · next hmore =>
      rw [(queried_cons_of_created hmore).2] at hlast
      have hzero := ih fun q hq => hlast q (List.mem_cons_of_mem _ hq)
      rw [if_pos (by rw [hzero])]
      exact hzero

end

/-! ## The union -/

/-- **The union of the directories is right exactly when no flags and no failure are lost.** -/
theorem rightUnion_iff (isAlarmDir : Bool) (ports : List Port) :
    RightUnion isAlarmDir ports ↔ FlagsKept isAlarmDir ports ∧ FailureKept isAlarmDir ports := by
  constructor
  · rintro ⟨hflags, -, hfailure⟩
    constructor
    · by_cases hfailed : ∀ pin ∈ (queried ports).tail, pin.lastStatus isAlarmDir < 0
      · exact .inl hfailed
      · exact .inr (hflags.symm.trans (flags_of_not_failed hfailed))
    · by_cases hgood : ∀ cin ∈ listed ports, 0 ≤ cin.status isAlarmDir
      · exact .inl hgood
      · push Not at hgood
        obtain ⟨cin, hcin, hneg⟩ := hgood
        have hne : ports ≠ [] := by
          rintro rfl
          cases hcin
        exact .inr ((ret_neg_iff hne).mp (hfailure ⟨cin, hcin, hneg⟩))
  · rintro ⟨hflags, hfailure⟩
    refine ⟨?_, ret_of_success, ?_⟩
    · by_cases hfailed : ∀ pin ∈ (queried ports).tail, pin.lastStatus isAlarmDir < 0
      · exact flags_of_failed hfailed
      · have hsame := hflags.resolve_left hfailed
        exact (flags_of_not_failed hfailed).trans hsame.symm
    · rintro ⟨cin, hcin, hneg⟩
      have hall : ∀ pin ∈ queried ports, pin.lastStatus isAlarmDir < 0 :=
        hfailure.resolve_left fun hgood => absurd (hgood cin hcin) (Int.not_le.mpr hneg)
      have hne : ports ≠ [] := by
        rintro rfl
        cases hcin
      exact (ret_neg_iff hne).mpr hall

/-- A local bus whose devices have the flags. -/
def localBus (flags : BitVec 32) : Port :=
  ⟨[{ testConnection := true, busIsServer := false, serverDir := (0, 0), alarmdir := 0,
      cacheOrReal := (0, flags) }], true⟩

/-- The flags of the second of two buses are lost. -/
theorem second_bus_lost :
    fsDirAllConnections false [localBus 1, localBus 2] = ⟨1, 0⟩ ∧
      ¬ RightUnion false [localBus 1, localBus 2] := by
  refine ⟨by decide, ?_⟩
  intro h
  exact absurd h.flags (by decide)

end Owfs.Directory
