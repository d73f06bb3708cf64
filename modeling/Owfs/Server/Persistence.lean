import Owfs.Server.Response
import Owfs.Infra.Threads

/-!
# Persistent connections

`Handler` (`handler.c`) serves the requests of one connection. A client may ask to keep the
connection for another request; the server grants that to a limited number of connections at a
time. The count is shared and guarded by `PERSISTENCELOCK`; a section under that lock is one step
here, and so is everything a `Handler` does between two such sections.

The response tells the client what was decided through `PERSISTENT_MASK` in its control flags,
which `DataHandler` copies from the request after `Handler` has set them, and `WriteHandler` sets
once more.
-/

namespace Owfs.Server

open Infra Owfs.Protocol Owfs.Client Owfs.Directory

/-! ## The header of a response -/

/-- The header is read back from the bytes of a message. -/
theorem Message.cm_eq_of_bytes_eq {m m' : Message} (h : m.bytes = m'.bytes) : m.cm = m'.cm := by
  have := congrArg ClientMsg.ntoh h
  rwa [Message.bytes, Message.bytes, ClientMsg.ntoh_hton, ClientMsg.ntoh_hton] at this

section

variable (lib : Library) (hd : HandlerData) (cm : ClientMsg)

theorem controlFlags_presenceHandler :
    (presenceHandler lib cm).1.controlFlags = cm.controlFlags := by
  unfold presenceHandler
  split <;> rfl

theorem controlFlags_readHandler : (readHandler lib hd cm).1.controlFlags = cm.controlFlags := by
  unfold readHandler
  split
  · rfl
  split
  · rfl
  split
  · rfl
  dsimp only
  split <;> rfl

theorem controlFlags_dirallReply (cb : Charblob) :
    (dirallReply lib hd cb cm).1.controlFlags = cm.controlFlags := by
  unfold dirallReply
  generalize (if pathFits hd then ret32 lib.fsDirRemote.ret else ret32 (-emsgsize)) = ret
  dsimp only
  split
  · rfl
  split
  · rfl
  split <;> rfl

/-- The control flags of a response are those of the request, and perhaps `PERSISTENT_MASK`. -/
def FlagsOf (persistent : Bool) (cm : ClientMsg) : Prop :=
  cm.controlFlags = hd.sm.controlFlags ∨
    persistent = true ∧ cm.controlFlags = hd.sm.controlFlags ||| persistentMask

variable {hd cm}

theorem flagsOf_writeHandler {persistent : Bool} (h : cm.controlFlags = hd.sm.controlFlags) :
    FlagsOf hd persistent (writeHandler lib hd persistent cm) := by
  unfold writeHandler
  split
  · exact .inl h
  split
  · exact .inl h
  · cases persistent with
    | true => exact .inr ⟨rfl, rfl⟩
    | false => exact .inl rfl

theorem flagsOf_innerSwitch {persistent : Bool} (type : BitVec 32)
    (h : cm.controlFlags = hd.sm.controlFlags) :
    FlagsOf hd persistent (innerSwitch lib hd persistent type cm).1 := by
  have hread : FlagsOf hd persistent (readHandler lib hd cm).1 :=
    .inl ((controlFlags_readHandler ..).trans h)
  have hdirall : ∀ cb, FlagsOf hd persistent (dirallReply lib hd cb cm).1 := fun cb =>
    .inl ((controlFlags_dirallReply ..).trans h)
  unfold innerSwitch
  split
  · exact .inl ((controlFlags_presenceHandler ..).trans h)
  split
  · exact hread
  split
  · exact flagsOf_writeHandler lib h
  split
  · exact .inl h
  split
  · exact hdirall _
  split
  · exact hdirall _
  split
  · split
    · exact hdirall _
    · exact hread
  split
  · exact hdirall _
  · exact hread

/-- Only `WriteHandler` touches the control flags. -/
theorem flagsOf_dataHandler (settings : Settings) (persistent : Bool) :
    FlagsOf hd persistent (dataHandler lib hd settings persistent).1 := by
  unfold dataHandler
  dsimp only
  split
  · split
    · exact .inl rfl
    split
    · exact .inl rfl
    · exact flagsOf_innerSwitch lib _ rfl
  split
  · exact .inl rfl
  · exact .inl rfl

end

/-! ## The code -/

/-- The globals that `Handler` reads. -/
structure PersistenceSettings where
  noPersistence : Bool := false
  clientsPersistentLow : Int := 10
  clientsPersistentHigh : Int := 20

/-- Where a `Handler` stands. -/
inductive HandlerPc where
  /-- no `Handler` runs -/
  | outside
  /-- in `FromClient` -/
  | reading
  /-- persistence was requested, before `PERSISTENCELOCK` -/
  | asking (hd : HandlerData)
  /-- in `SingleHandler`, with `loop_persistent` and `hd.persistent` -/
  | serving (hd : HandlerData) (loopPersistent persistent : Bool)
  /-- the final response was sent -/
  | answered (final : Message) (loopPersistent : Bool)
  /-- the shorter wait -/
  | waiting
  /-- "test if below threshold for longer wait" -/
  | testing
  | waitingLonger
  /-- out of the loop -/
  | leaving

/-- A `Handler` with its variable `persistent`. -/
structure HandlerRun where
  pc : HandlerPc := .outside
  persistent : Bool := false

/-- `persistent_connections`, and the handlers. -/
structure Handlers (ι : Type) where
  persistentConnections : Int
  run : ι → HandlerRun

/-- The control flags that go on to `DataHandler`: "now set the sg flag because it usually is copied
back to the client". -/
def setPersistence (loopPersistent : Bool) (hd : HandlerData) : HandlerData :=
  { hd with
    sm := { hd.sm with
      controlFlags :=
        if loopPersistent then hd.sm.controlFlags ||| persistentMask
        else hd.sm.controlFlags &&& ~~~persistentMask } }

/-- The request is passed on, with the same answer for the loop and for the response. -/
def serve (granted : Bool) (hd : HandlerData) : HandlerPc :=
  .serving (setPersistence granted hd) granted granted

/-- "Persistence logic", up to the lock. -/
def persistenceLogic (g : PersistenceSettings) (r : HandlerRun) (hd : HandlerData) : HandlerRun :=
  if hd.sm.controlFlags &&& persistentMask ≠ 0 ∧ g.noPersistence = false then
    if r.persistent then { r with pc := serve true hd } else { r with pc := .asking hd }
  else { r with pc := serve false hd }

variable {ι : Type} [DecidableEq ι]

/-- One handler moves. -/
def Handlers.set (s : Handlers ι) (i : ι) (r : HandlerRun) : Handlers ι :=
  { s with run := Function.update s.run i r }

/-- One `Handler` takes one step. -/
inductive HandlerStep (g : PersistenceSettings) : Handlers ι → Handlers ι → Prop
  | start (s : Handlers ι) (i : ι) :
      (s.run i).pc = .outside → HandlerStep g s (s.set i { pc := .reading, persistent := false })
  | request (s : Handlers ι) (i : ι) (hd : HandlerData) :
      (s.run i).pc = .reading → HandlerStep g s (s.set i (persistenceLogic g (s.run i) hd))
  | ended (s : Handlers ι) (i : ι) :
      (s.run i).pc = .reading → HandlerStep g s (s.set i { s.run i with pc := .leaving })
  | granted (s : Handlers ι) (i : ι) (hd : HandlerData) :
      (s.run i).pc = .asking hd → s.persistentConnections < g.clientsPersistentHigh →
      HandlerStep g s
        ({ s with persistentConnections := s.persistentConnections + 1 }.set i
          { pc := serve true hd, persistent := true })
  | denied (s : Handlers ι) (i : ι) (hd : HandlerData) :
      (s.run i).pc = .asking hd → ¬ s.persistentConnections < g.clientsPersistentHigh →
      HandlerStep g s (s.set i { s.run i with pc := serve false hd })
  | answered (s : Handlers ι) (i : ι) (hd : HandlerData) (loopPersistent persistent : Bool)
      (lib : Library)
      (beyond : Nat → Byte) (settings : Settings) (final : Message) :
      (s.run i).pc = .serving hd loopPersistent persistent →
      final.bytes = response lib hd beyond settings persistent →
      HandlerStep g s (s.set i { s.run i with pc := .answered final loopPersistent })
  | reloop (s : Handlers ι) (i : ι) (final : Message) (loopPersistent : Bool) :
      (s.run i).pc = .answered final loopPersistent →
      HandlerStep g s (s.set i { s.run i with pc := if loopPersistent then .waiting else .leaving })
  | arrived (s : Handlers ι) (i : ι) :
      (s.run i).pc = .waiting ∨ (s.run i).pc = .waitingLonger →
      HandlerStep g s (s.set i { s.run i with pc := .reading })
  | timedOut (s : Handlers ι) (i : ι) :
      (s.run i).pc = .waiting → HandlerStep g s (s.set i { s.run i with pc := .testing })
  | tested (s : Handlers ι) (i : ι) :
      (s.run i).pc = .testing →
      HandlerStep g s (s.set i { s.run i with
        pc := if s.persistentConnections < g.clientsPersistentLow then .waitingLonger
          else .leaving })
  | gaveUp (s : Handlers ι) (i : ι) :
      (s.run i).pc = .waitingLonger → HandlerStep g s (s.set i { s.run i with pc := .leaving })
  | left (s : Handlers ι) (i : ι) :
      (s.run i).pc = .leaving →
      HandlerStep g s
        ({ s with persistentConnections :=
          s.persistentConnections - (s.run i).persistent.toNat }.set i {})

/-- The states of a server after its start. -/
def ReachableHandlers (g : PersistenceSettings) (s : Handlers ι) : Prop :=
  Relation.ReflTransGen (HandlerStep g) ⟨0, fun _ => {}⟩ s

/-! ## The invariant -/

/-- `PERSISTENT_MASK` is set. -/
def masked (flags : BitVec 32) : Bool := flags &&& persistentMask != 0

/-- What the variables of one handler say about each other. -/
def HandlerRun.Sound (r : HandlerRun) : Prop :=
  match r.pc with
  | .outside | .asking _ => r.persistent = false
  | .serving hd loopPersistent persistent =>
    loopPersistent = persistent ∧ masked hd.sm.controlFlags = loopPersistent
  | .answered final loopPersistent => final.cm.granted = loopPersistent
  | _ => True

structure Accounted [Fintype ι] (g : PersistenceSettings) (s : Handlers ι) : Prop where
  count : s.persistentConnections = countAt HandlerRun.persistent s.run
  bound : s.persistentConnections ≤ max 0 g.clientsPersistentHigh
  sound : ∀ i, (s.run i).Sound

theorem masked_setPersistence (granted : Bool) (hd : HandlerData) :
    masked (setPersistence granted hd).sm.controlFlags = granted := by
  cases granted with
  | true =>
    have hand : (hd.sm.controlFlags ||| persistentMask) &&& persistentMask = persistentMask := by
      apply BitVec.eq_of_getLsbD_eq
      intro i hi
      simp only [BitVec.getLsbD_and, BitVec.getLsbD_or]
      cases persistentMask.getLsbD i <;> simp
    simp only [masked, setPersistence, if_true, hand]
    decide
  | false =>
    have hand : hd.sm.controlFlags &&& ~~~persistentMask &&& persistentMask = 0 := by
      apply BitVec.eq_of_getLsbD_eq
      intro i hi
      simp only [BitVec.getLsbD_and, BitVec.getLsbD_not, hi]
      cases persistentMask.getLsbD i <;> simp
    simp only [masked, setPersistence, Bool.false_eq_true, if_false, hand]
    decide

theorem sound_serve (granted : Bool) (hd : HandlerData) (persistent : Bool) :
    HandlerRun.Sound ⟨serve granted hd, persistent⟩ :=
  ⟨rfl, masked_setPersistence granted hd⟩

/-- The response carries the mask when the loop goes on. -/
theorem granted_of_response {hd : HandlerData} {lib : Library} {beyond : Nat → Byte}
    {settings : Settings} {persistent : Bool} {final : Message}
    (hmask : masked hd.sm.controlFlags = persistent)
    (hfinal : final.bytes = response lib hd beyond settings persistent) :
    final.cm.granted = persistent := by
  obtain ⟨m, hflags, hm⟩ := exists_response lib hd beyond settings persistent
  have hcm : final.cm = m.cm := Message.cm_eq_of_bytes_eq (hfinal.trans hm)
  rw [ClientMsg.granted, hcm, hflags]
  rcases flagsOf_dataHandler lib settings persistent with heq | ⟨rfl, heq⟩
  · rw [heq]
    exact hmask
  · rw [heq]
    exact masked_setPersistence true hd

section

variable [Fintype ι] {g : PersistenceSettings} {s s' : Handlers ι} {i : ι}

/-- A step that leaves `persistent` and the count alone. -/
theorem Accounted.set (h : Accounted g s) {r : HandlerRun}
    (hp : r.persistent = (s.run i).persistent) (hr : r.Sound) : Accounted g (s.set i r) where
  count := h.count.trans (by rw [Handlers.set, countAt_update_of_eq hp])
  bound := h.bound
  sound := by
    intro j
    show (Function.update s.run i r j).Sound
    by_cases hj : j = i
    · subst hj
      rw [Function.update_self]
      exact hr
    · rw [Function.update_of_ne hj]
      exact h.sound j

/-- The count moves with `persistent`. -/
theorem Accounted.setCount (h : Accounted g s) {r : HandlerRun} {n : Int}
    (hn : n + (s.run i).persistent.toNat = s.persistentConnections + r.persistent.toNat)
    (hbound : n ≤ max 0 g.clientsPersistentHigh) (hr : r.Sound) :
    Accounted g ({ s with persistentConnections := n }.set i r) where
  count := by
    have hcount := h.count
    have hupdate := countAt_update HandlerRun.persistent s.run i r
    show n = countAt HandlerRun.persistent (Function.update s.run i r)
    omega
  bound := hbound
  sound := by
    intro j
    show (Function.update s.run i r j).Sound
    by_cases hj : j = i
    · subst hj
      rw [Function.update_self]
      exact hr
    · rw [Function.update_of_ne hj]
      exact h.sound j

theorem Accounted.step (h : Accounted g s) (hs : HandlerStep g s s') : Accounted g s' := by
  cases hs with
  | start i hpc =>
    have hi := h.sound i
    rw [HandlerRun.Sound, hpc] at hi
    exact h.set hi.symm trivial
  | request i hd hpc =>
    unfold persistenceLogic
    split
    · split
      · exact h.set rfl (sound_serve true hd _)
      · rename_i hp
        exact h.set rfl (Bool.eq_false_iff.mpr hp)
    · exact h.set rfl (sound_serve false hd _)
  | ended i hpc => exact h.set rfl trivial
  | granted i hd hpc hlt =>
    have hi := h.sound i
    rw [HandlerRun.Sound, hpc] at hi
    refine h.setCount ?_ ?_ (sound_serve true hd true)
    · rw [show (s.run i).persistent = false from hi]
      simp
    · omega
  | denied i hd hpc hnot => exact h.set rfl (sound_serve false hd _)
  | answered i hd loopPersistent persistent lib beyond settings final hpc hfinal =>
    have hi := h.sound i
    rw [HandlerRun.Sound, hpc] at hi
    obtain ⟨hloop, hmask⟩ := hi
    exact h.set rfl (hloop ▸ granted_of_response (hmask.trans hloop) hfinal)
  | reloop i final loopPersistent hpc =>
    refine h.set rfl ?_
    cases loopPersistent with
    | true => trivial
    | false => trivial
  | arrived i hpc => exact h.set rfl trivial
  | timedOut i hpc => exact h.set rfl trivial
  | tested i hpc =>
    by_cases hlow : s.persistentConnections < g.clientsPersistentLow
    · rw [if_pos hlow]
      exact h.set rfl trivial
    · rw [if_neg hlow]
      exact h.set rfl trivial
  | gaveUp i hpc => exact h.set rfl trivial
  | left i hpc =>
    refine h.setCount ?_ ?_ rfl
    · show s.persistentConnections - _ + _ = s.persistentConnections + 0
      omega
    · have := h.bound
      omega

theorem ReachableHandlers.accounted (hr : ReachableHandlers g s) : Accounted g s := by
  refine invariant_of_steps Accounted.step hr ⟨?_, ?_, ?_⟩
  · rw [countAt_eq_zero_iff.mpr fun _ => rfl]
    rfl
  · exact Int.le_max_left 0 _
  · intro i
    exact rfl

omit [Fintype ι] in
/-- A handler that has answered comes to the wait through the test of `loop_persistent`. -/
theorem loopPersistent_of_waiting {final : Message} {loopPersistent : Bool}
    (hs : HandlerStep g s s') (hpc : (s.run i).pc = .answered final loopPersistent)
    (hwait : (s'.run i).pc = .waiting) :
    loopPersistent = true := by
  have hmoved : ∀ {t : Handlers ι} {j : ι} {r : HandlerRun}, t.run = s.run →
      ((t.set j r).run i).pc = .waiting → j = i := by
    intro t j r ht h
    by_contra hne
    rw [Handlers.set] at h
    dsimp only at h
    rw [Function.update_of_ne (Ne.symm hne), ht, hpc] at h
    cases h
  cases hs with
  | reloop j final' loop' hj =>
    obtain rfl := hmoved rfl hwait
    rw [hpc] at hj
    cases hj
    cases loopPersistent with
    | true => rfl
    | false =>
      rw [Handlers.set] at hwait
      dsimp only at hwait
      rw [Function.update_self] at hwait
      cases hwait
  | arrived j hj =>
    obtain rfl := hmoved rfl hwait
    rw [hpc] at hj
    rcases hj with hj | hj <;> cases hj
  | start j hj | ended j hj | timedOut j hj | tested j hj | gaveUp j hj | left j hj =>
    obtain rfl := hmoved rfl hwait
    rw [hpc] at hj
    cases hj
  | request j hd hj | granted j hd hj hlt | denied j hd hj hnot =>
    obtain rfl := hmoved rfl hwait
    rw [hpc] at hj
    cases hj
  | answered j hd loop' persistent lib beyond settings final' hj hfinal =>
    obtain rfl := hmoved rfl hwait
    rw [hpc] at hj
    cases hj

/-- **Persistence is accounted for.** In every reachable state the count is the number of handlers
that were granted persistence, it is not negative, and it is at most the limit (0 if the limit is
negative); and a final response carries `PERSISTENT_MASK` exactly when its handler goes on to wait
for another request. -/
theorem persistence_accounted (hr : ReachableHandlers g s) :
    (s.persistentConnections = countAt HandlerRun.persistent s.run ∧ 0 ≤ s.persistentConnections ∧
      s.persistentConnections ≤ max 0 g.clientsPersistentHigh) ∧
    ∀ i final loopPersistent, (s.run i).pc = .answered final loopPersistent →
      (final.cm.granted = true ↔ ∃ s', HandlerStep g s s' ∧ (s'.run i).pc = .waiting) := by
  have h := hr.accounted
  refine ⟨⟨h.count, by rw [h.count]; omega, h.bound⟩, fun i final loopPersistent hpc => ?_⟩
  have hi := h.sound i
  rw [HandlerRun.Sound, hpc] at hi
  replace hi : final.cm.granted = loopPersistent := hi
  rw [hi]
  constructor
  · rintro rfl
    refine ⟨_, .reloop s i final true hpc, ?_⟩
    show (Function.update s.run i _ i).pc = _
    rw [Function.update_self]
    rfl
  · rintro ⟨s', hs, hwait⟩
    exact loopPersistent_of_waiting hs hpc hwait

end

/-- A handler that has just been started. -/
def sampleHandlers : Handlers Unit := (⟨0, fun _ => {}⟩ : Handlers Unit).set () { pc := .reading }

theorem reachable_sampleHandlers (g : PersistenceSettings) : ReachableHandlers g sampleHandlers :=
  Relation.ReflTransGen.refl.tail (.start _ () rfl)

/-- The answer to a NOP. -/
def sampleFinal (granted : Bool) : Message where
  cm := ⟨0, 0, 0, if granted then persistentMask else 0, 0, 0⟩
  data := []
  complete := rfl

/-- Two handlers. -/
def sampleTwo (persistentConnections : Int) (first second : HandlerRun) : Handlers Bool :=
  ⟨persistentConnections, fun i => if i then first else second⟩

theorem sampleTwo_first {g : PersistenceSettings} {n n' : Int} {first second r : HandlerRun}
    (h : HandlerStep g (sampleTwo n first second) ((sampleTwo n' first second).set true r)) :
    HandlerStep g (sampleTwo n first second) (sampleTwo n' r second) := by
  have hset : (sampleTwo n' first second).set true r = sampleTwo n' r second := by
    simp only [Handlers.set, sampleTwo, Handlers.mk.injEq, true_and]
    funext i
    cases i <;> rfl
  exact hset ▸ h

theorem sampleTwo_second {g : PersistenceSettings} {n : Int} {first second r : HandlerRun}
    (h : HandlerStep g (sampleTwo n first second) ((sampleTwo n first second).set false r)) :
    HandlerStep g (sampleTwo n first second) (sampleTwo n first r) := by
  have hset : (sampleTwo n first second).set false r = sampleTwo n first r := by
    simp only [Handlers.set, sampleTwo, Handlers.mk.injEq, true_and]
    funext i
    cases i <;> rfl
  exact hset ▸ h

/-- Two clients ask to keep their connections, and one of them may. Both were answered. -/
def sampleAnswered : Handlers Bool :=
  sampleTwo 1 { pc := .answered (sampleFinal true) true, persistent := true }
    { pc := .answered (sampleFinal false) false }

theorem reachable_sampleAnswered :
    ReachableHandlers { clientsPersistentHigh := 1 } sampleAnswered := by
  let g : PersistenceSettings := { clientsPersistentHigh := 1 }
  let hd := sampleRequest persistentMask
  let asking : HandlerRun := { pc := .asking hd }
  have hlogic : persistenceLogic g { pc := .reading } hd = asking :=
    (if_pos ⟨by decide, rfl⟩).trans (if_neg nofun)
  have hnew : ReachableHandlers g (sampleTwo 0 {} {}) := by
    rw [sampleTwo]
    simp only [ite_self]
    exact .refl
  have hstart : ReachableHandlers g (sampleTwo 0 { pc := .reading } { pc := .reading }) :=
    (hnew.tail (sampleTwo_first (.start _ true rfl))).tail (sampleTwo_second (.start _ false rfl))
  have hasking : ReachableHandlers g (sampleTwo 0 asking asking) :=
    (hstart.tail (sampleTwo_first (hlogic ▸ .request _ true hd rfl))).tail
      (sampleTwo_second (hlogic ▸ .request _ false hd rfl))
  have hserving : ReachableHandlers g
      (sampleTwo 1 { pc := serve true hd, persistent := true } { pc := serve false hd }) :=
    (hasking.tail (sampleTwo_first (.granted _ true hd rfl (by decide)))).tail
      (sampleTwo_second (.denied _ false hd rfl (by decide)))
  exact (hserving.tail (sampleTwo_first (.answered _ true _ true true sampleLibrary (fun _ => 0) {}
    (sampleFinal true) rfl (by decide)))).tail (sampleTwo_second (.answered _ false _ false false
      sampleLibrary (fun _ => 0) {} (sampleFinal false) rfl (by decide)))

/-- The one that got the mask goes on to wait, the other one does not. -/
theorem persistence_accounted_sampleAnswered :
    (∃ s, HandlerStep { clientsPersistentHigh := 1 } sampleAnswered s ∧
      (s.run true).pc = .waiting) ∧
    (¬ ∃ s, HandlerStep { clientsPersistentHigh := 1 } sampleAnswered s ∧
      (s.run false).pc = .waiting) ∧
    sampleAnswered.persistentConnections = countAt HandlerRun.persistent sampleAnswered.run := by
  obtain ⟨⟨hcount, -, -⟩, hmask⟩ := persistence_accounted reachable_sampleAnswered
  refine ⟨(hmask true _ true rfl).mp (by decide), fun hwait => ?_, hcount⟩
  exact absurd ((hmask false _ false rfl).mpr hwait) (by decide)

/-- With a negative limit the count is above it from the start. -/
theorem negative_limit_exceeded :
    ReachableHandlers { clientsPersistentHigh := -1 } sampleHandlers ∧
      ¬ sampleHandlers.persistentConnections ≤
        ({ clientsPersistentHigh := -1 } : PersistenceSettings).clientsPersistentHigh :=
  ⟨reachable_sampleHandlers _, by decide⟩

end Owfs.Server
