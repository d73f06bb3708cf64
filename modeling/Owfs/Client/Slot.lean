import Owfs.Infra.Threads
import Mathlib.Data.Finset.Basic

/-!
# The persistent connection of a port

All requests to one owserver share `pin->file_descriptor`, the slot of the persistent connection:
`FILE_DESCRIPTOR_BAD`, `FILE_DESCRIPTOR_PERSISTENT_IN_USE`, or the descriptor of an idle
connection. `To_Server` takes the slot or opens a connection of its own, `Close_Persistent` and
`Release_Persistent` give it back.

A step is what a request does between two accesses to the slot; everything else it works on
(`struct server_connection_state`) is its own. The answers of the system (`ClientConnect`, the
test read, the writes) are part of the step.

`To_Server` reconnects when the test read finds the connection closed. `Close_Persistent` has
already given up the slot by then, but the slot is marked as in use again: no request owns it and
none will release it. And a request that could not connect still counts as persistent.
-/

namespace Owfs.Client.Slot

open Infra

/-! ## The code -/

abbrev Fd := Nat

/-- `pin->file_descriptor` -/
inductive Port where
  | bad
  | inUse
  | idle (fd : Fd)
deriving DecidableEq, Repr

/-- `struct server_connection_state`; `persistent` is `persistent_yes`. -/
structure Scs where
  fileDescriptor : Option Fd
  persistent : Bool
deriving DecidableEq, Repr

/-- How far a request has come. -/
inductive Stage where
  /-- before the test read -/
  | probing
  /-- before the `ClientConnect` after a closed connection -/
  | reconnecting
  | writing
  /-- before the `ClientConnect` after a failed write -/
  | reopening
  | rewriting
  /-- `To_Server` has returned, and `Release_Persistent` has not been called -/
  | returned
deriving DecidableEq, Repr

/-- The slot, the descriptors that are open in the process, and the request of each thread. -/
structure Sys (ι : Type) where
  slot : Port
  opened : Finset Fd
  request : ι → Option (Stage × Scs)

/-- The steps, with what the system answers. -/
inductive Event where
  /-- the start of `To_Server`; `connect` is what `ClientConnect` answers -/
  | toServer (noPersistence : Bool) (connect : Option Fd)
  /-- the test read finds the connection `healthy` -/
  | probe (healthy : Bool)
  | reconnect (connect : Option Fd)
  | write (sent : Bool)
  | reopen (connect : Option Fd)
  | rewrite (sent : Bool)
  /-- `From_Server` closes the connection because the payload does not fit -/
  | close
  | release (granted : Bool)
deriving DecidableEq, Repr

variable {ι : Type} [DecidableEq ι]

def Sys.put (s : Sys ι) (i : ι) (r : Option (Stage × Scs)) : Sys ι :=
  { s with request := Function.update s.request i r }

/-- `ClientConnect`: a descriptor that was not open, or none. -/
def Sys.clientConnect (s : Sys ι) : Option Fd → Option (Sys ι)
  | none => some s
  | some fd => if fd ∈ s.opened then none else some { s with opened := insert fd s.opened }

/-- `Close_Persistent` -/
def Sys.closePersistent (s : Sys ι) (scs : Scs) : Sys ι :=
  { s with
    slot := if scs.persistent then .bad else s.slot
    opened := match scs.fileDescriptor with
      | some fd => s.opened.erase fd
      | none => s.opened }

/-- What `Close_Persistent` leaves. -/
def Scs.closed : Scs := ⟨none, false⟩

/-- `To_Server` up to the test read. -/
def Sys.toServer (s : Sys ι) (i : ι) (noPersistence : Bool) (connect : Option Fd) :
    Option (Sys ι) :=
  if noPersistence then
    (s.clientConnect connect).map fun s => s.put i (some (.probing, ⟨connect, false⟩))
  else match s.slot with
    | .inUse =>
      -- "Currently in use, so make new non-persistent connection"
      (s.clientConnect connect).map fun s => s.put i (some (.probing, ⟨connect, false⟩))
    | .bad =>
      (s.clientConnect connect).map fun s =>
        { s with slot := if connect.isSome then .inUse else .bad }.put i
          (some (.probing, ⟨connect, true⟩))
    | .idle fd => some ({ s with slot := .inUse }.put i (some (.probing, ⟨some fd, true⟩)))

/-- `Release_Persistent` -/
def Sys.releasePersistent (s : Sys ι) (i : ι) (scs : Scs) (granted : Bool) : Sys ι :=
  match granted, scs.fileDescriptor, scs.persistent with
  | true, some fd, true => { s with slot := .idle fd }.put i none
  | _, _, _ => (s.closePersistent scs).put i none

/-- One step of thread `i`. -/
def step (s : Sys ι) (e : ι × Event) : Option (Sys ι) :=
  match s.request e.1, e.2 with
  | none, .toServer noPersistence connect => s.toServer e.1 noPersistence connect
  | some (.probing, scs), .probe healthy =>
    -- `fcntl` fails where there is no descriptor
    if healthy && scs.fileDescriptor.isSome then some (s.put e.1 (some (.writing, scs)))
    else some ((s.closePersistent scs).put e.1 (some (.reconnecting, .closed)))
  | some (.reconnecting, scs), .reconnect connect =>
    (s.clientConnect connect).map fun s =>
      if connect.isSome then
        { s with slot := .inUse }.put e.1 (some (.writing, { scs with fileDescriptor := connect }))
      else (s.closePersistent scs).put e.1 (some (.returned, .closed))
  | some (.writing, scs), .write sent =>
    if sent then some (s.put e.1 (some (.returned, scs)))
    else if scs.persistent then some (s.put e.1 (some (.reopening, scs)))
    else some ((s.closePersistent scs).put e.1 (some (.returned, .closed)))
  | some (.reopening, scs), .reopen connect =>
    -- the old descriptor is neither closed nor kept
    (s.clientConnect connect).map fun s =>
      if connect.isSome then s.put e.1 (some (.rewriting, { scs with fileDescriptor := connect }))
      else (s.closePersistent { scs with fileDescriptor := none }).put e.1
        (some (.returned, .closed))
  | some (.rewriting, scs), .rewrite sent =>
    if sent then some (s.put e.1 (some (.returned, scs)))
    else some ((s.closePersistent scs).put e.1 (some (.returned, .closed)))
  | some (.returned, scs), .close =>
    some ((s.closePersistent scs).put e.1 (some (.returned, .closed)))
  | some (.returned, scs), .release granted => some (s.releasePersistent e.1 scs granted)
  | _, _ => none

/-- No request is in progress and no connection is open. -/
def Sys.start : Sys ι := ⟨.bad, ∅, fun _ => none⟩

/-! ## Ownership -/

/-- The request owns the persistent connection: it is in progress and persistent. -/
def Owns (r : Option (Stage × Scs)) : Prop :=
  ∃ stage scs, r = some (stage, scs) ∧ scs.persistent = true

/-- The descriptor that a request works with. -/
def descriptor (r : Option (Stage × Scs)) : Option Fd := r.bind fun x => x.2.fileDescriptor

/-- The slot is in use exactly when one request owns the connection, no two requests own it, the
slot is empty or idle when no request is in progress, and no two requests have one descriptor. -/
structure Owned (s : Sys ι) : Prop where
  inUse : s.slot = .inUse ↔ ∃! i, Owns (s.request i)
  one : ∀ i j, Owns (s.request i) → Owns (s.request j) → i = j
  rest : (∀ i, s.request i = none) → s.slot = .bad ∨ ∃ fd ∈ s.opened, s.slot = .idle fd
  apart : ∀ i j fd, descriptor (s.request i) = some fd → descriptor (s.request j) = some fd → i = j

/-- The steps that keep the slot in order. A request that wants the empty slot gets a connection,
and a request that reconnects gets none, or finds the slot in use by another request. -/
def Harmless (s : Sys ι) (e : ι × Event) : Prop :=
  match e.2 with
  | .toServer noPersistence connect => noPersistence = true ∨ s.slot ≠ .bad ∨ connect ≠ none
  | .reconnect connect => connect = none ∨ s.slot = .inUse
  | _ => True

@[simp] theorem owns_some {stage : Stage} {scs : Scs} :
    Owns (some (stage, scs)) ↔ scs.persistent = true := by
  constructor
  · rintro ⟨_, _, he, hp⟩
    cases he
    exact hp
  · exact fun hp => ⟨stage, scs, rfl, hp⟩

@[simp] theorem not_owns_none : ¬ Owns none := by
  rintro ⟨_, _, he, _⟩
  cases he

@[simp] theorem descriptor_some {stage : Stage} {scs : Scs} :
    descriptor (some (stage, scs)) = scs.fileDescriptor := rfl

@[simp] theorem descriptor_none : descriptor none = none := rfl

/-! ## Descriptors -/

/-- Every descriptor in use is open and has one user. -/
structure Separate (s : Sys ι) : Prop where
  opened : ∀ i fd, descriptor (s.request i) = some fd → fd ∈ s.opened
  idle : ∀ fd, s.slot = .idle fd → fd ∈ s.opened ∧ ∀ i, descriptor (s.request i) ≠ some fd
  apart : ∀ i j fd, descriptor (s.request i) = some fd → descriptor (s.request j) = some fd → i = j

section

variable {s s' t : Sys ι} {i : ι} {r : Option (Stage × Scs)} {scs : Scs} {fd : Fd}

/-- Request `i` goes on: what it has now is open and nobody else's, and it closed only what it
had before. -/
theorem Separate.put (h : Separate s) (hr : t.request = s.request)
    (hkeep : ∀ fd ∈ s.opened, descriptor (s.request i) ≠ some fd → fd ∈ t.opened)
    (hnew : ∀ fd, descriptor r = some fd →
      fd ∈ t.opened ∧ ∀ j, j ≠ i → descriptor (s.request j) ≠ some fd)
    (hidle : ∀ fd, t.slot = .idle fd → fd ∈ t.opened ∧ descriptor r ≠ some fd ∧
      ∀ j, j ≠ i → descriptor (s.request j) ≠ some fd) : Separate (t.put i r) := by
  have hat : ∀ j, (t.put i r).request j = if j = i then r else s.request j := by
    intro j
    rw [← hr]
    exact Function.update_apply ..
  refine ⟨fun j fd hj => ?_, fun fd hfd => ?_, fun j k fd hj hk => ?_⟩
  · rw [hat] at hj
    split at hj
    · exact (hnew fd hj).1
    · next hji => exact hkeep fd (h.opened j fd hj) fun hi => hji (h.apart j i fd hj hi)
  · obtain ⟨hopen, hown, hothers⟩ := hidle fd hfd
    refine ⟨hopen, fun j => ?_⟩
    rw [hat]
    split
    · exact hown
    · next hji => exact hothers j hji
  · rw [hat] at hj hk
    split at hj <;> split at hk
    · next hji hki => exact hji.trans hki.symm
    · next hki => exact absurd hk ((hnew fd hj).2 k hki)
    · next hji _ => exact absurd hj ((hnew fd hk).2 j hji)
    · exact h.apart j k fd hj hk

/-- Request `i` keeps its descriptor, or has none any more. -/
theorem Separate.keep (h : Separate s)
    (hd : descriptor r = descriptor (s.request i) ∨ descriptor r = none)
    (hslot : ∀ fd, t.slot = .idle fd → s.slot = .idle fd) (hopened : t.opened = s.opened)
    (hr : t.request = s.request) : Separate (t.put i r) := by
  refine h.put hr (fun fd hfd _ => hopened ▸ hfd) (fun fd hfd => ?_) (fun fd hfd => ?_)
  · rcases hd with hd | hd
    · rw [hd] at hfd
      refine ⟨hopened ▸ h.opened i fd hfd, fun j hji hj => hji (h.apart j i fd hj hfd)⟩
    · rw [hd] at hfd
      cases hfd
  · obtain ⟨hopen, hnone⟩ := h.idle fd (hslot fd hfd)
    refine ⟨hopened ▸ hopen, ?_, fun j _ => hnone j⟩
    rcases hd with hd | hd
    · rw [hd]
      exact hnone i
    · rw [hd]
      exact nofun

/-- Request `i` works with a new descriptor from now on, or has got none. -/
theorem Separate.connect (h : Separate s) {connect : Option Fd} {slot : Port}
    (hc : s.clientConnect connect = some t) (hslot : ∀ fd, slot = .idle fd → s.slot = .idle fd)
    (hd : descriptor r = connect) : Separate ({ t with slot := slot }.put i r) := by
  cases connect with
  | none =>
    cases hc
    exact h.keep (Or.inr hd) hslot rfl rfl
  | some fd =>
    rw [Sys.clientConnect] at hc
    split at hc
    · cases hc
    · next hfresh =>
      cases hc
      have hno : ∀ j, descriptor (s.request j) ≠ some fd := fun j hj => hfresh (h.opened j fd hj)
      refine h.put rfl (fun fd' hfd' _ => Finset.mem_insert_of_mem hfd') (fun fd' hfd' => ?_)
        (fun fd' hfd' => ?_)
      · cases hd.symm.trans hfd'
        exact ⟨Finset.mem_insert_self .., fun j _ => hno j⟩
      · obtain ⟨hopen, hnone⟩ := h.idle fd' (hslot fd' hfd')
        refine ⟨Finset.mem_insert_of_mem hopen, fun hfd => ?_, fun j _ => hnone j⟩
        cases hd.symm.trans hfd
        exact hfresh hopen

/-- `Close_Persistent` -/
theorem Separate.close (h : Separate s) (hd : descriptor (s.request i) = scs.fileDescriptor)
    (hr : descriptor r = none) : Separate ((s.closePersistent scs).put i r) := by
  have hslot : ∀ fd, (s.closePersistent scs).slot = .idle fd → s.slot = .idle fd := by
    intro fd hfd
    simp only [Sys.closePersistent] at hfd
    split at hfd
    · cases hfd
    · exact hfd
  cases hfile : scs.fileDescriptor with
  | none =>
    refine h.keep (Or.inr hr) hslot ?_ rfl
    simp only [Sys.closePersistent, hfile]
  | some fd =>
    have hopened : (s.closePersistent scs).opened = s.opened.erase fd := by
      simp only [Sys.closePersistent, hfile]
    rw [hfile] at hd
    refine h.put rfl (fun fd' hfd' hne => ?_) (fun fd' hfd' => ?_) (fun fd' hfd' => ?_)
    · rw [hopened]
      exact Finset.mem_erase.mpr ⟨fun he => hne (he ▸ hd), hfd'⟩
    · rw [hr] at hfd'
      cases hfd'
    · obtain ⟨hopen, hnone⟩ := h.idle fd' (hslot fd' hfd')
      rw [hopened, hr]
      exact ⟨Finset.mem_erase.mpr ⟨fun he => hnone i (he ▸ hd), hopen⟩, nofun, fun j _ => hnone j⟩

/-! ## One step -/

/-- The descriptors stay apart, the slot is in use exactly when a request owns the connection,
one request at most does, and a request that reconnects has given the connection up. -/
structure Inv (s : Sys ι) : Prop extends Separate s where
  owned : s.slot = .inUse ↔ ∃ i, Owns (s.request i)
  one : ∀ i j, Owns (s.request i) → Owns (s.request j) → i = j
  gaveUp : ∀ i scs, s.request i = some (.reconnecting, scs) → scs = .closed

omit [DecidableEq ι] in
theorem inv_start : Inv (Sys.start : Sys ι) where
  opened := nofun
  idle := nofun
  apart := nofun
  owned := by
    constructor
    · intro h
      cases h
    · rintro ⟨_, _, _, h, _⟩
      cases h
  one := by
    rintro i j ⟨_, _, h, _⟩
    cases h
  gaveUp := nofun

omit [DecidableEq ι] in
/-- Another request owns the connection. -/
theorem Inv.others_iff (h : Inv s) (i : ι) :
    (∃ j, j ≠ i ∧ Owns (s.request j)) ↔ s.slot = .inUse ∧ ¬ Owns (s.request i) := by
  constructor
  · rintro ⟨j, hji, hj⟩
    exact ⟨h.owned.mpr ⟨j, hj⟩, fun hi => hji (h.one j i hj hi)⟩
  · rintro ⟨hslot, hi⟩
    obtain ⟨j, hj⟩ := h.owned.mp hslot
    refine ⟨j, ?_, hj⟩
    rintro rfl
    exact hi hj

/-- What request `i` has to leave behind. -/
theorem Inv.put (h : Inv s) (hsep : Separate (t.put i r)) (hr : t.request = s.request)
    (hslot : t.slot = .inUse ↔ Owns r ∨ (s.slot = .inUse ∧ ¬ Owns (s.request i)))
    (hone : Owns r → ¬ (s.slot = .inUse ∧ ¬ Owns (s.request i)))
    (hgave : ∀ scs, r = some (.reconnecting, scs) → scs = .closed) : Inv (t.put i r) := by
  have hat : ∀ j, (t.put i r).request j = if j = i then r else s.request j := by
    intro j
    rw [← hr]
    exact Function.update_apply ..
  rw [← h.others_iff i] at hslot hone
  refine { hsep with owned := hslot.trans ⟨?_, ?_⟩, one := ?_, gaveUp := ?_ }
  · rintro (hown | ⟨j, hji, hj⟩)
    · exact ⟨i, by rwa [hat, if_pos rfl]⟩
    · exact ⟨j, by rwa [hat, if_neg hji]⟩
  · rintro ⟨j, hj⟩
    rw [hat] at hj
    split at hj
    · exact Or.inl hj
    · next hji => exact Or.inr ⟨j, hji, hj⟩
  · intro j k hj hk
    rw [hat] at hj hk
    split at hj <;> split at hk
    · next hji hki => exact hji.trans hki.symm
    · next hki => exact absurd ⟨k, hki, hk⟩ (hone hj)
    · next hji _ => exact absurd ⟨j, hji, hj⟩ (hone hk)
    · exact h.one j k hj hk
  · intro j scs hj
    rw [hat] at hj
    split at hj
    · exact hgave scs hj
    · exact h.gaveUp j scs hj

/-- `Close_Persistent` gives up what the request owned. -/
theorem Inv.close (h : Inv s) {stage : Stage} (hi : s.request i = some (stage, scs))
    (hr : r = none ∨ ∃ stage, r = some (stage, .closed)) :
    Inv ((s.closePersistent scs).put i r) := by
  have hnone : descriptor r = none ∧ ¬ Owns r := by
    rcases hr with rfl | ⟨stage, rfl⟩
    · exact ⟨rfl, not_owns_none⟩
    · exact ⟨rfl, by simp [Scs.closed]⟩
  refine h.put (h.toSeparate.close (by rw [hi]; rfl) hnone.1) rfl ?_ (fun ho => absurd ho hnone.2)
    (fun scs' he => ?_)
  · rw [hi, owns_some]
    simp only [Sys.closePersistent, hnone.2, false_or]
    split
    · next hp => simp [hp]
    · next hp => simp [hp]
  · rcases hr with rfl | ⟨stage, rfl⟩
    · cases he
    · cases he
      rfl

/-- A request goes on with what it had. -/
theorem Inv.goOn (h : Inv s) {stage stage' : Stage} (hi : s.request i = some (stage, scs))
    (hstage : stage' ≠ .reconnecting) : Inv (s.put i (some (stage', scs))) := by
  refine h.put (h.toSeparate.keep (Or.inl (by rw [hi]; rfl)) (fun _ => id) rfl rfl) rfl ?_ ?_ ?_
  · rw [hi, owns_some, owns_some, h.owned]
    by_cases hp : scs.persistent = true
    · simp only [hp, not_true_eq_false, and_false, or_false, iff_true]
      exact ⟨i, by rw [hi]; exact owns_some.mpr hp⟩
    · simp [hp]
  · rw [hi, owns_some, owns_some]
    tauto
  · intro scs' he
    cases he
    exact absurd rfl hstage

omit [DecidableEq ι] in
theorem clientConnect_frame {connect : Option Fd} (hc : s.clientConnect connect = some t) :
    t.request = s.request ∧ t.slot = s.slot := by
  cases connect with
  | none =>
    cases hc
    exact ⟨rfl, rfl⟩
  | some fd =>
    rw [Sys.clientConnect] at hc
    split at hc
    · cases hc
    · cases hc
      exact ⟨rfl, rfl⟩

/-- A request connects, and leaves the slot as `slot`. -/
theorem Inv.connect (h : Inv s) {connect : Option Fd} (slot : Port) {stage : Stage}
    (hc : s.clientConnect connect = some t) (hd : scs.fileDescriptor = connect)
    (hidle : ∀ fd, slot = .idle fd → s.slot = .idle fd)
    (hslot : slot = .inUse ↔ scs.persistent = true ∨ (s.slot = .inUse ∧ ¬ Owns (s.request i)))
    (hone : scs.persistent = true → ¬ (s.slot = .inUse ∧ ¬ Owns (s.request i)))
    (hstage : stage ≠ .reconnecting) :
    Inv ({ t with slot := slot }.put i (some (stage, scs))) := by
  refine h.put (h.toSeparate.connect hc hidle hd) (clientConnect_frame hc).1
    (by rwa [owns_some]) (by rwa [owns_some]) ?_
  intro scs' he
  cases he
  exact absurd rfl hstage

/-- A connection outside the slot. -/
theorem Inv.connect_own (h : Inv s) {connect : Option Fd} (hi : s.request i = none)
    (hc : s.clientConnect connect = some t) :
    Inv (t.put i (some (.probing, ⟨connect, false⟩))) := by
  have hslot := (clientConnect_frame hc).2
  have hinv : Inv ({ t with slot := t.slot }.put i (some (.probing, ⟨connect, false⟩))) := by
    refine h.connect t.slot hc rfl ?_ ?_ nofun nofun
    · rw [hslot]
      exact fun _ => id
    · rw [hslot, hi]
      simp
  exact hinv

omit [DecidableEq ι] in
/-- What the slot says of request `i` and of the others. -/
theorem Inv.slot_iff (h : Inv s) (i : ι) :
    s.slot = .inUse ↔ Owns (s.request i) ∨ (s.slot = .inUse ∧ ¬ Owns (s.request i)) := by
  constructor
  · intro hslot
    by_cases hi : Owns (s.request i)
    · exact Or.inl hi
    · exact Or.inr ⟨hslot, hi⟩
  · rintro (hi | ⟨hslot, _⟩)
    · exact h.owned.mpr ⟨i, hi⟩
    · exact hslot

/-- After a failed write a request opens another connection, or gives up. -/
theorem Inv.reopen (h : Inv s) {connect : Option Fd} (hi : s.request i = some (.reopening, scs))
    (hc : s.clientConnect connect = some t) :
    Inv (if connect.isSome then t.put i (some (.rewriting, { scs with fileDescriptor := connect }))
      else (t.closePersistent { scs with fileDescriptor := none }).put i
        (some (.returned, .closed))) := by
  have hslot := (clientConnect_frame hc).2
  have howns : Owns (s.request i) ↔ scs.persistent = true := by rw [hi, owns_some]
  cases connect with
  | none =>
    cases hc
    -- the old descriptor stays open, and is nobody's
    have hsep : Separate ((s.closePersistent { scs with fileDescriptor := none }).put i
        (some (.returned, .closed))) := by
      refine h.toSeparate.keep (Or.inr rfl) (fun fd hfd => ?_) rfl rfl
      simp only [Sys.closePersistent] at hfd
      split at hfd
      · cases hfd
      · exact hfd
    refine h.put hsep rfl ?_ (fun ho => by simp [Scs.closed] at ho) nofun
    rw [howns]
    simp only [Sys.closePersistent, owns_some, Scs.closed]
    split
    · next hp => simp [hp]
    · next hp => simp [hp]
  | some fd =>
    have hinv : Inv ({ t with slot := t.slot }.put i
        (some (.rewriting, { scs with fileDescriptor := some fd }))) := by
      refine h.connect t.slot hc rfl ?_ ?_ ?_ nofun
      · rw [hslot]
        exact fun _ => id
      · rw [hslot, howns, ← howns]
        exact h.slot_iff i
      · rw [← howns]
        exact fun ho hn => hn.2 ho
    exact hinv

/-- `Release_Persistent` puts the descriptor into the slot, or closes it. -/
theorem Inv.release (h : Inv s) {stage : Stage} (hi : s.request i = some (stage, scs))
    (granted : Bool) : Inv (s.releasePersistent i scs granted) := by
  unfold Sys.releasePersistent
  split
  · next fd hfile hp =>
    have hfd : descriptor (s.request i) = some fd := by rw [hi, descriptor_some, hfile]
    have hsep : Separate ({ s with slot := .idle fd }.put i none) := by
      refine h.toSeparate.put rfl (fun _ hopen _ => hopen) nofun (fun fd' hfd' => ?_)
      cases hfd'
      exact ⟨h.opened i fd hfd, nofun, fun j hji hj => hji (h.apart j i fd hj hfd)⟩
    refine h.put hsep rfl ?_ (fun ho => absurd ho not_owns_none) nofun
    rw [hi, owns_some, hp]
    simp
  · exact h.close hi (Or.inl rfl)

theorem Inv.toServer (h : Inv s) {noPersistence : Bool} {connect : Option Fd}
    (hi : s.request i = none) (hs : s.toServer i noPersistence connect = some s')
    (hok : noPersistence = true ∨ s.slot ≠ .bad ∨ connect ≠ none) : Inv s' := by
  unfold Sys.toServer at hs
  split at hs
  · obtain ⟨t, hc, rfl⟩ := Option.map_eq_some_iff.mp hs
    exact h.connect_own hi hc
  · next hwant =>
    split at hs
    · obtain ⟨t, hc, rfl⟩ := Option.map_eq_some_iff.mp hs
      exact h.connect_own hi hc
    · next hbad =>
      obtain ⟨t, hc, rfl⟩ := Option.map_eq_some_iff.mp hs
      have hsome : connect.isSome = true := by
        rcases hok with hok | hok | hok
        · exact absurd hok hwant
        · exact absurd hbad hok
        · exact Option.isSome_iff_ne_none.mpr hok
      rw [if_pos hsome]
      exact h.connect .inUse hc rfl nofun (by simp) (by simp [hbad]) nofun
    · next fd hidle =>
      cases hs
      obtain ⟨hopen, hnone⟩ := h.idle fd hidle
      have hsep : Separate ({ s with slot := .inUse }.put i
          (some (.probing, ⟨some fd, true⟩))) := by
        refine h.toSeparate.put rfl (fun fd' hfd' _ => hfd') (fun fd' hfd' => ?_) nofun
        cases hfd'
        exact ⟨hopen, fun j _ => hnone j⟩
      exact h.put hsep rfl (by simp) (by simp [hidle]) nofun

theorem Inv.step (h : Inv s) {e : ι × Event} (hs : step s e = some s') (hok : Harmless s e) :
    Inv s' := by
  obtain ⟨i, ev⟩ := e
  unfold Slot.step at hs
  simp only at hs
  split at hs
  · next hi => exact h.toServer hi hs hok
  · next scs healthy hi =>
    split at hs
    · cases hs
      exact h.goOn hi nofun
    · cases hs
      exact h.close hi (Or.inr ⟨_, rfl⟩)
  · next scs connect hi =>
    obtain ⟨t, hc, rfl⟩ := Option.map_eq_some_iff.mp hs
    obtain rfl := h.gaveUp i scs hi
    cases connect with
    | none =>
      cases hc
      exact h.close hi (Or.inr ⟨_, rfl⟩)
    | some fd =>
      have hslot : s.slot = .inUse := hok.resolve_left nofun
      exact h.connect .inUse hc rfl nofun (by rw [hi]; simp [hslot, Scs.closed]) nofun nofun
  · next scs sent hi =>
    split at hs
    · cases hs
      exact h.goOn hi nofun
    · split at hs
      · cases hs
        exact h.goOn hi nofun
      · cases hs
        exact h.close hi (Or.inr ⟨_, rfl⟩)
  · next scs connect hi =>
    obtain ⟨t, hc, rfl⟩ := Option.map_eq_some_iff.mp hs
    exact h.reopen hi hc
  · next scs sent hi =>
    split at hs
    · cases hs
      exact h.goOn hi nofun
    · cases hs
      exact h.close hi (Or.inr ⟨_, rfl⟩)
  · next scs hi =>
    cases hs
    exact h.close hi (Or.inr ⟨_, rfl⟩)
  · next scs granted hi =>
    cases hs
    exact h.release hi granted
  · cases hs

/-! ## What goes wrong -/

omit [DecidableEq ι] in
theorem Inv.toOwned (h : Inv s) : Owned s where
  inUse := by
    rw [h.owned]
    constructor
    · rintro ⟨i, hi⟩
      exact ⟨i, hi, fun j hj => h.one j i hj hi⟩
    · exact fun hi => hi.exists
  one := h.one
  rest := by
    intro hnone
    cases hslot : s.slot with
    | bad => exact Or.inl rfl
    | inUse =>
      obtain ⟨i, hi⟩ := h.owned.mp hslot
      rw [hnone i] at hi
      exact absurd hi not_owns_none
    | idle fd => exact Or.inr ⟨fd, (h.idle fd hslot).1, rfl⟩
  apart := h.apart

omit [DecidableEq ι] in
/-- A request that owns the connection while the slot is empty. -/
theorem not_owned_of_owns (hi : Owns (s.request i)) (hslot : s.slot = .bad) : ¬ Owned s := by
  intro h
  have huse : s.slot = .inUse := h.inUse.mpr ⟨i, hi, fun j hj => h.one j i hj hi⟩
  rw [hslot] at huse
  cases huse

omit [DecidableEq ι] in
/-- The slot is in use, and nobody owns the connection. -/
theorem not_owned_of_inUse (hslot : s.slot = .inUse) (hnone : ∀ i, ¬ Owns (s.request i)) :
    ¬ Owned s := by
  intro h
  obtain ⟨i, hi⟩ := (h.inUse.mp hslot).exists
  exact hnone i hi

/-- A step that does harm is seen at once. -/
theorem Inv.not_owned (h : Inv s) {e : ι × Event} (hs : Slot.step s e = some s')
    (hharm : ¬ Harmless s e) : ¬ Owned s' := by
  obtain ⟨i, ev⟩ := e
  cases ev with
  | toServer noPersistence connect =>
    simp only [Harmless, not_or, not_not] at hharm
    obtain ⟨hwant, hbad, rfl⟩ := hharm
    cases hi : s.request i with
    | none =>
      simp only [Slot.step, hi, Sys.toServer, hwant, hbad, Sys.clientConnect] at hs
      cases hs
      refine not_owned_of_owns (i := i) ?_ rfl
      simp [Sys.put]
    | some r => simp [Slot.step, hi] at hs
  | reconnect connect =>
    simp only [Harmless, not_or] at hharm
    obtain ⟨hgot, hslot⟩ := hharm
    rcases hi : s.request i with _ | ⟨stage, scs⟩
    · simp [Slot.step, hi] at hs
    · cases stage with
      | reconnecting =>
        obtain rfl := h.gaveUp i scs hi
        simp only [Slot.step, hi] at hs
        obtain ⟨t, hc, rfl⟩ := Option.map_eq_some_iff.mp hs
        rw [if_pos (Option.isSome_iff_ne_none.mpr hgot)]
        refine not_owned_of_inUse rfl fun j hj => ?_
        simp only [Sys.put, (clientConnect_frame hc).1, Function.update_apply] at hj
        split at hj
        · simp [Scs.closed] at hj
        · exact hslot (h.owned.mpr ⟨j, hj⟩)
      | _ => simp [Slot.step, hi] at hs
  | _ => exact absurd trivial hharm

end

/-! ## All runs -/

/-- For any number of threads, the slot is in order in every state of a run exactly when every
request that wants the empty slot gets a connection, and no request that lost its connection gets
a new one while nobody else uses the slot. -/
theorem slot_owned_iff (es : List (ι × Event)) :
    Throughout step Owned (Sys.start : Sys ι) es ↔ EachStep step Harmless (Sys.start : Sys ι) es :=
  throughout_iff Inv.toOwned (fun h hs hok => h.step hs hok)
    (fun h hs hharm => h.not_owned hs hharm)
    inv_start

/-- The server closes the idle connection, the next request reconnects and is answered, and then
the slot is in use for ever. -/
theorem slot_lost : ¬ ∀ es : List (Unit × Event), Throughout step Owned Sys.start es := by
  intro h
  have hrun := h [((), .toServer false (some 3)), ((), .probe true), ((), .write true),
    ((), .release true), ((), .toServer false none), ((), .probe false), ((), .reconnect (some 4)),
    ((), .write true), ((), .release true)]
  have hfirst := (((hrun.2 _ rfl).2 _ rfl).2 _ rfl).2 _ rfl
  have hlast : Owned _ := ((((hfirst.2 _ rfl).2 _ rfl).2 _ rfl).2 _ rfl).2 _ rfl
  rcases hlast.rest fun _ => rfl with hslot | ⟨fd, _, hslot⟩
  · cases hslot
  · cases hslot

end Owfs.Client.Slot
