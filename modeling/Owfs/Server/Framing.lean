import Mathlib.Data.Set.Finite.Basic
import Owfs.Server.PingLoop

/-!
# Responses are framed

What the client receives is always a beginning of complete messages, with one final response at
the end, and no thread can keep that response back: from every state that is reached, the
exchange can be brought to its end. A thread that has a mutex gives it up again, so first
`PingLoop` leaves the mutex, then the elements are finished one after another, then `DataHandler`
sends its response, and at last `PingLoop` finds that it is complete.
-/

namespace Owfs.Server

open Infra Owfs.Protocol Owfs.Client Owfs.Directory

variable {ι : Type} [DecidableEq ι] {x : Exchange} {s s' : Sys ι} {i : ι}

/-- Any number of steps. -/
abbrev Run (x : Exchange) : Sys ι → Sys ι → Prop := Relation.ReflTransGen (Step x)

/-- `DataHandler` has returned and `PingLoop` has left its loop. -/
def Sys.Ended (s : Sys ι) : Prop := s.data = .returned ∧ (s.ping = .left ∨ s.ping = .absent)

theorem Inv.run (h : Inv x s) (hrun : Run x s s') : Inv x s' := invariant_of_steps Inv.step hrun h

/-- What was sent stays sent. -/
theorem Step.out_prefix (hs : Step x s s') : s.out <+: s'.out := by
  cases hs with
  | pingByte b rest resync hp => exact List.prefix_append _ _
  | dataByte b rest hd => exact List.prefix_append _ _
  | elementByte i b rest hi => exact List.prefix_append _ _
  | pingOrSend v hp =>
    unfold Server.pingOrSend
    split <;> exact List.prefix_rfl
  | _ => exact List.prefix_rfl

theorem Run.out_prefix (hrun : Run x s s') : s.out <+: s'.out := by
  induction hrun with
  | refl => exact List.prefix_rfl
  | tail _ hs ih => exact ih.trans hs.out_prefix

/-! ## Messages are sent to their end -/

theorem run_pingBytes {bytes : Bytes} {resync : Bool} (hp : s.ping = .pinging bytes resync) :
    Run x s { s with out := s.out ++ bytes, ping := .pinging [] resync } := by
  induction bytes generalizing s with
  | nil =>
    rw [List.append_nil, ← hp]
  | cons b bytes ih =>
    have hsent := ih (s := { s with out := s.out ++ [b], ping := .pinging bytes resync }) rfl
    rw [List.append_assoc] at hsent
    exact .head (.pingByte s b bytes resync hp) hsent

theorem run_dataBytes {bytes rest : Bytes} (hd : s.data = .sending (bytes ++ rest)) :
    Run x s { s with out := s.out ++ bytes, data := .sending rest } := by
  induction bytes generalizing s with
  | nil =>
    rw [List.append_nil, ← List.nil_append rest, ← hd]
  | cons b bytes ih =>
    have hsent := ih (s := { s with out := s.out ++ [b], data := .sending (bytes ++ rest) }) rfl
    rw [List.append_assoc] at hsent
    exact .head (.dataByte s b (bytes ++ rest) hd) hsent

theorem run_elementBytes {bytes : Bytes} (hi : s.element i = .sending bytes) :
    Run x s { s with
      out := s.out ++ bytes
      element := Function.update s.element i (.sending []) } := by
  induction bytes generalizing s with
  | nil =>
    rw [List.append_nil, ← hi, Function.update_eq_self]
  | cons b bytes ih =>
    have hsent := ih (s := { s with
      out := s.out ++ [b]
      element := Function.update s.element i (.sending bytes) }) (Function.update_self ..)
    rw [List.append_assoc, Function.update_idem] at hsent
    exact .head (.elementByte s i b bytes hi) hsent

/-! ## The mutexes are given up -/

/-- `to_client` can be made free while `DataHandler` and the elements stand still. -/
def CanFree (x : Exchange) (s : Sys ι) : Prop :=
  ∃ s', Run x s s' ∧ s'.lock = none ∧ s'.data = s.data ∧ s'.element = s.element

theorem canFree_unlocking {next : ToclientState} (hp : s.ping = .unlocking next) : CanFree x s :=
  ⟨_, .single (.pingUnlock s next hp), rfl, rfl, rfl⟩

theorem canFree_pinging {rest : Bytes} {resync : Bool} (hp : s.ping = .pinging rest resync) :
    CanFree x s := by
  obtain ⟨s', hrun, hfree⟩ := canFree_unlocking (x := x)
    (s := { s with
      out := s.out ++ rest
      toclient := if resync then .postping else s.toclient
      ping := .unlocking .postping }) rfl
  exact ⟨s', ((run_pingBytes hp).tail (.pinged _ resync rfl)).trans hrun, hfree⟩

theorem canFree_locked {v : SelectValue} (hp : s.ping = .locked v) : CanFree x s := by
  have hstep : Step x s (pingOrSend x v s) := .pingOrSend s v hp
  have hnext : CanFree x (pingOrSend x v s) ∧ (pingOrSend x v s).data = s.data ∧
      (pingOrSend x v s).element = s.element := by
    unfold pingOrSend
    split
    · exact ⟨canFree_unlocking rfl, rfl, rfl⟩
    · exact ⟨canFree_unlocking rfl, rfl, rfl⟩
    · exact ⟨canFree_unlocking rfl, rfl, rfl⟩
    · exact ⟨canFree_pinging rfl, rfl, rfl⟩
    · exact ⟨canFree_unlocking rfl, rfl, rfl⟩
    · exact ⟨canFree_pinging rfl, rfl, rfl⟩
  obtain ⟨⟨s', hrun, hfree, hdata, helement⟩, hd, he⟩ := hnext
  exact ⟨s', .head hstep hrun, hfree, hdata.trans hd, helement.trans he⟩

/-- `PingLoop` does not keep the mutex. -/
theorem canFree_of_holds (hp : s.ping.holds = true) : CanFree x s := by
  cases hc : s.ping with
  | locked v => exact canFree_locked hc
  | pinging rest resync => exact canFree_pinging hc
  | unlocking next => exact canFree_unlocking hc
  | _ =>
    rw [hc] at hp
    cases hp

/-- The element `i` can be finished while `DataHandler` and the other elements stand still. -/
def CanFinish (x : Exchange) (i : ι) (s : Sys ι) : Prop :=
  ∃ s', Run x s s' ∧ s'.lock = none ∧ s'.dirLock = none ∧ s'.data = s.data ∧
    s'.element = Function.update s.element i .idle

theorem CanFinish.of_run {pc : ElementPc} (hrun : Run x s s') (hdata : s'.data = s.data)
    (helement : s'.element = Function.update s.element i pc) (h : CanFinish x i s') :
    CanFinish x i s := by
  obtain ⟨s'', hrun', hlock, hdir, hdata', helement'⟩ := h
  refine ⟨s'', hrun.trans hrun', hlock, hdir, hdata'.trans hdata, ?_⟩
  rw [helement', helement, Function.update_idem]

theorem canFinish_leaving (hi : s.element i = .leaving) (hfree : s.lock = none) : CanFinish x i s :=
  ⟨_, .single (.dirUnlock s i hi), hfree, rfl, rfl, rfl⟩

theorem canFinish_unlocking (hi : s.element i = .unlocking) : CanFinish x i s :=
  .of_run (.single (.elementUnlock s i hi)) rfl rfl
    (canFinish_leaving (Function.update_self ..) rfl)

theorem canFinish_marking (hi : s.element i = .marking) : CanFinish x i s :=
  .of_run (.single (.elementMark s i hi)) rfl rfl (canFinish_unlocking (Function.update_self ..))

theorem canFinish_sending {rest : Bytes} (hi : s.element i = .sending rest) : CanFinish x i s :=
  .of_run ((run_elementBytes hi).tail (.elementSent _ i (Function.update_self ..))) rfl
    (Function.update_idem ..) (canFinish_marking (Function.update_self ..))

theorem canFinish_locking {path : Bytes} (hi : s.element i = .locking path)
    (hfree : s.lock = none) :
    CanFinish x i s :=
  .of_run (.single (.elementLock s i path hi hfree)) rfl rfl
    (canFinish_sending (Function.update_self ..))

theorem canFinish_filling {path : Bytes} (hi : s.element i = .filling path)
    (hfree : s.lock = none) :
    CanFinish x i s :=
  .of_run (.single (.fill s i path hi)) rfl rfl (canFinish_locking (Function.update_self ..) hfree)

theorem canFinish_entering {path : Bytes} (hi : s.element i = .entering path)
    (hfree : s.lock = none) (hdir : s.dirLock = none) : CanFinish x i s :=
  .of_run (.single (.dirLock s i path hi hdir)) rfl rfl
    (canFinish_filling (Function.update_self ..) hfree)

/-- An element does not keep `dir_mutex`, nor `to_client`. -/
theorem Inv.canFinish (h : Inv x s) (hin : (s.element i).inDir = true)
    (hlock : ∀ p, s.lock = some p → p = .element i) : CanFinish x i s := by
  have hfree : (s.element i).holds = false → s.lock = none := by
    intro hout
    cases hl : s.lock with
    | none => rfl
    | some p =>
      have hheld : s.holds p = true := (h.holder p).mp hl
      rw [hlock p hl] at hheld
      exact absurd hheld (Bool.eq_false_iff.mp hout)
  cases hc : s.element i with
  | idle | entering path =>
    rw [hc] at hin
    cases hin
  | filling path => exact canFinish_filling hc (hfree (by rw [hc]; rfl))
  | locking path => exact canFinish_locking hc (hfree (by rw [hc]; rfl))
  | sending rest => exact canFinish_sending hc
  | marking => exact canFinish_marking hc
  | unlocking => exact canFinish_unlocking hc
  | leaving => exact canFinish_leaving hc (hfree (by rw [hc]; rfl))

omit [DecidableEq ι] in
theorem inDir_of_holds {pc : ElementPc} (hpc : pc.holds = true) : pc.inDir = true := by
  cases pc <;> first
    | rfl
    | cases hpc

/-- While `DataHandler` is outside the mutex, both mutexes can be made free. -/
theorem Inv.can_free (h : Inv x s) (hout : s.data.holds = false) :
    ∃ s', Run x s s' ∧ s'.lock = none ∧ s'.dirLock = none ∧ s'.data = s.data ∧
      ∀ j, s.element j = .idle → s'.element j = .idle := by
  -- `PingLoop` first
  obtain ⟨s₁, hrun, hping, hdata, helement⟩ : ∃ s₁, Run x s s₁ ∧ s₁.ping.holds = false ∧
      s₁.data = s.data ∧ s₁.element = s.element := by
    cases hp : s.ping.holds with
    | false => exact ⟨s, .refl, hp, rfl, rfl⟩
    | true =>
      obtain ⟨s₁, hrun, hfree, hdata, helement⟩ := canFree_of_holds (x := x) hp
      exact ⟨s₁, hrun, (hfree ▸ (h.run hrun).holder : Held none _).free .ping, hdata, helement⟩
  have h₁ := h.run hrun
  have helements : ∀ p, s₁.lock = some p → ∃ j, p = .element j ∧ s₁.dirLock = some j := by
    intro p hl
    have hheld : s₁.holds p = true := (h₁.holder p).mp hl
    cases p with
    | ping => exact absurd hheld (Bool.eq_false_iff.mp hping)
    | data =>
      rw [← hdata] at hout
      exact absurd hheld (Bool.eq_false_iff.mp hout)
    | element j => exact ⟨j, rfl, (h₁.dirHolder j).mpr (inDir_of_holds hheld)⟩
  cases hdir : s₁.dirLock with
  | none =>
    have hfree : s₁.lock = none := by
      by_contra hl
      obtain ⟨p, hp⟩ := Option.ne_none_iff_exists'.mp hl
      obtain ⟨j, -, hj⟩ := helements p hp
      rw [hdir] at hj
      cases hj
    exact ⟨s₁, hrun, hfree, hdir, hdata, fun j hj => by rw [helement, hj]⟩
  | some j =>
    have hlock : ∀ p, s₁.lock = some p → p = .element j := by
      intro p hp
      obtain ⟨k, rfl, hk⟩ := helements p hp
      rw [hdir] at hk
      rw [Option.some.inj hk]
    obtain ⟨s₂, hrun', hfree, hdir', hdata', helement'⟩ :=
      h₁.canFinish ((h₁.dirHolder j).mp hdir) hlock
    refine ⟨s₂, hrun.trans hrun', hfree, hdir', hdata'.trans hdata, fun k hk => ?_⟩
    rw [helement', helement]
    by_cases hkj : k = j
    · rw [hkj, Function.update_self]
    · rw [Function.update_of_ne hkj, hk]

/-- The element `i` can be brought to its end. -/
theorem Inv.can_finish (h : Inv x s) (hout : s.data.holds = false) (i : ι) :
    ∃ s', Run x s s' ∧ s'.data = s.data ∧ s'.element i = .idle ∧
      ∀ j, s.element j = .idle → s'.element j = .idle := by
  obtain ⟨s₁, hrun, hfree, hdir, hdata, hidle⟩ := h.can_free hout
  have houtside : (s₁.element i).inDir = false :=
    (hdir ▸ (h.run hrun).dirHolder : Held none _).free i
  cases hc : s₁.element i with
  | idle => exact ⟨s₁, hrun, hdata, hc, hidle⟩
  | entering path =>
    obtain ⟨s₂, hrun', -, -, hdata', helement⟩ := canFinish_entering (x := x) hc hfree hdir
    refine ⟨s₂, hrun.trans hrun', hdata'.trans hdata, ?_, fun j hj => ?_⟩
    · rw [helement, Function.update_self]
    · rw [helement]
      by_cases hji : j = i
      · rw [hji, Function.update_self]
      · rw [Function.update_of_ne hji, hidle j hj]
  | _ =>
    rw [hc] at houtside
    cases houtside

/-- All of them, of which there are finitely many: induction on a set that contains them. -/
theorem Inv.can_join (h : Inv x s) (hout : s.data.holds = false) (t : Finset ι)
    (ht : ∀ i, s.element i ≠ .idle → i ∈ t) :
    ∃ s', Run x s s' ∧ s'.data = s.data ∧ ∀ i, s'.element i = .idle := by
  induction t using Finset.induction_on generalizing s with
  | empty =>
    refine ⟨s, .refl, rfl, fun i => ?_⟩
    by_contra hi
    exact absurd (ht i hi) (Finset.notMem_empty i)
  | insert i t hnot ih =>
    obtain ⟨s₁, hrun, hdata, hi, hidle⟩ := h.can_finish hout i
    have hrest : ∀ j, s₁.element j ≠ .idle → j ∈ t := by
      intro j hj
      have hji : j ≠ i := fun he => hj (he ▸ hi)
      exact Finset.mem_of_mem_insert_of_ne (ht j fun hold => hj (hidle j hold)) hji
    obtain ⟨s₂, hrun', hdata', hjoined⟩ := ih (h.run hrun) (by rw [hdata]; exact hout) hrest
    exact ⟨s₂, hrun.trans hrun', hdata'.trans hdata, hjoined⟩

/-! ## The response is sent -/

/-- `DataHandler` can return. -/
def CanReturn (x : Exchange) (s : Sys ι) : Prop := ∃ s', Run x s s' ∧ s'.data = .returned

theorem CanReturn.of_run (hrun : Run x s s') (h : CanReturn x s') : CanReturn x s := by
  obtain ⟨s'', hrun', hd⟩ := h
  exact ⟨s'', hrun.trans hrun', hd⟩

theorem canReturn_unlocking (hd : s.data = .unlocking) : CanReturn x s :=
  ⟨_, .single (.dataUnlock s hd), rfl⟩

theorem canReturn_signalling (hd : s.data = .signalling) : CanReturn x s :=
  .of_run (.single (.dataSignal s true hd)) (canReturn_unlocking rfl)

theorem canReturn_marking (hd : s.data = .marking) : CanReturn x s :=
  .of_run (.single (.dataMark s hd)) (canReturn_signalling rfl)

theorem canReturn_sending {rest : Bytes} (hd : s.data = .sending rest) : CanReturn x s := by
  rw [← List.append_nil rest] at hd
  exact .of_run ((run_dataBytes hd).tail (.dataSent _ rfl)) (canReturn_marking rfl)

theorem Inv.canReturn_locking (h : Inv x s) (hd : s.data = .locking) : CanReturn x s := by
  obtain ⟨s₁, hrun, hfree, -, hdata, -⟩ := h.can_free (by rw [hd]; rfl)
  exact .of_run (hrun.tail (.dataLock s₁ (hdata.trans hd) hfree)) (canReturn_sending rfl)

theorem Inv.canReturn (h : Inv x s) (hfin : {i | s.element i ≠ .idle}.Finite) : CanReturn x s := by
  cases hd : s.data with
  | working =>
    obtain ⟨s₁, hrun, hdata, hidle⟩ :=
      h.can_join (by rw [hd]; rfl) hfin.toFinset fun i hi => by simpa using hi
    have hworked := hrun.tail (.worked s₁ (hdata.trans hd) hidle)
    exact .of_run hworked ((h.run hworked).canReturn_locking rfl)
  | locking => exact h.canReturn_locking hd
  | sending rest => exact canReturn_sending hd
  | marking => exact canReturn_marking hd
  | signalling => exact canReturn_signalling hd
  | unlocking => exact canReturn_unlocking hd
  | returned => exact ⟨s, .refl, hd⟩

/-! ## `PingLoop` leaves its loop -/

/-- After `DataHandler`, `PingLoop` can leave. -/
def CanEnd (x : Exchange) (s : Sys ι) : Prop := ∃ s', Run x s s' ∧ s'.Ended

theorem CanEnd.of_run (hrun : Run x s s') (h : CanEnd x s') : CanEnd x s := by
  obtain ⟨s'', hrun', hend⟩ := h
  exact ⟨s'', hrun.trans hrun', hend⟩

theorem canEnd_complete (hd : s.data = .returned) (hp : s.ping = .unlocking .complete) :
    CanEnd x s :=
  ⟨_, .single (.pingUnlock s .complete hp), hd, .inl rfl⟩

/-- "crossed paths, we're really done", whatever `select` said. -/
theorem canEnd_locked {v : SelectValue} (hd : s.data = .returned) (ht : s.toclient = .complete)
    (hp : s.ping = .locked v) : CanEnd x s := by
  have hstep : Step x s (pingOrSend x v s) := .pingOrSend s v hp
  have hnext : pingOrSend x v s = { s with ping := .unlocking .complete } := by
    unfold pingOrSend
    rw [ht]
    cases v <;> rfl
  rw [hnext] at hstep
  exact .of_run (.single hstep) (canEnd_complete hd rfl)

theorem canEnd_selected {v : SelectValue} (hd : s.data = .returned) (ht : s.toclient = .complete)
    (hfree : s.lock = none) (hp : s.ping = .selected v) : CanEnd x s :=
  .of_run (.single (.pingLock s v hp hfree)) (canEnd_locked hd ht rfl)

theorem canEnd_call {last : ToclientState} (hd : s.data = .returned) (ht : s.toclient = .complete)
    (hfree : s.lock = none) (hp : s.ping = .call last) : CanEnd x s := by
  by_cases hlast : last = .complete
  · subst hlast
    exact ⟨_, .single (.completed s hp), hd, .inl rfl⟩
  · exact .of_run (.single (.select s last .timeout hp hlast nofun))
      (canEnd_selected hd ht hfree rfl)

theorem canEnd_unlocking {next : ToclientState} (hd : s.data = .returned)
    (ht : s.toclient = .complete) (hp : s.ping = .unlocking next) : CanEnd x s := by
  by_cases hnext : next = .complete
  · subst hnext
    exact canEnd_complete hd hp
  · exact .of_run (.single (.pingUnlock s next hp)) (canEnd_call hd ht rfl (if_neg hnext))

theorem Inv.canEnd_of_returned (h : Inv x s) (hd : s.data = .returned) : CanEnd x s := by
  have ht : s.toclient = .complete := h.complete.mpr (by rw [hd]; rfl)
  have hfree : s.ping.holds = false → s.lock = none := by
    intro hout
    by_contra hl
    obtain ⟨p, hp⟩ := Option.ne_none_iff_exists'.mp hl
    have hheld : s.holds p = true := (h.holder p).mp hp
    cases p with
    | ping => exact absurd hheld (Bool.eq_false_iff.mp hout)
    | data =>
      rw [Sys.holds, hd] at hheld
      cases hheld
    | element i =>
      have hidle : s.element i = .idle := h.idle (by rw [hd]; rintro ⟨⟩) i
      rw [Sys.holds, hidle] at hheld
      cases hheld
  cases hp : s.ping with
  | absent => exact ⟨s, .refl, hd, .inr hp⟩
  | left => exact ⟨s, .refl, hd, .inl hp⟩
  | call last => exact canEnd_call hd ht (hfree (by rw [hp]; rfl)) hp
  | selected v => exact canEnd_selected hd ht (hfree (by rw [hp]; rfl)) hp
  | locked v => exact canEnd_locked hd ht hp
  | pinging rest resync =>
    have hbegun := h.pinging (by rw [hp]; rfl)
    rw [hd] at hbegun
    cases hbegun
  | unlocking next => exact canEnd_unlocking hd ht hp

/-! ## Whole runs -/

/-- An element that a step moves is one more at most. -/
theorem finite_update {element : ι → ElementPc} {pc : ElementPc}
    (h : {j | element j ≠ .idle}.Finite) :
    {j | Function.update element i pc j ≠ .idle}.Finite := by
  refine (h.insert i).subset fun j hj => ?_
  by_cases hji : j = i
  · exact .inl hji
  · refine .inr ?_
    rwa [Set.mem_ofPred_eq, Function.update_of_ne hji] at hj

/-- However many threads there are, finitely many of them are at work on an element. -/
theorem Step.finite (h : {i | s.element i ≠ .idle}.Finite) (hs : Step x s s') :
    {i | s'.element i ≠ .idle}.Finite := by
  cases hs with
  | pingOrSend v hp =>
    unfold Server.pingOrSend
    split <;> exact h
  | enter i path hl hd hi => exact finite_update h
  | dirLock i path hi hfree => exact finite_update h
  | fill i path hi => exact finite_update h
  | elementLock i path hi hfree => exact finite_update h
  | elementByte i b rest hi => exact finite_update h
  | elementSent i hi => exact finite_update h
  | elementMark i hi => exact finite_update h
  | elementUnlock i hi => exact finite_update h
  | dirUnlock i hi => exact finite_update h
  | _ => exact h

/-- Every exchange can be brought to its end. -/
theorem Exchange.Reachable.canEnd (hr : x.Reachable s) : CanEnd x s := by
  have hfin : {i | s.element i ≠ .idle}.Finite := by
    refine invariant_of_steps (I := fun s => {i | s.element i ≠ .idle}.Finite) Step.finite hr ?_
    exact Set.finite_empty.subset fun i hi => hi rfl
  obtain ⟨s₁, hrun, hd⟩ := hr.inv.canReturn hfin
  exact .of_run hrun ((hr.inv.run hrun).canEnd_of_returned hd)

/-- So a run ends only when `DataHandler` has returned. -/
theorem Exchange.Reachable.returned_of_stuck (hr : x.Reachable s) (hstuck : ∀ s', ¬ Step x s s') :
    s.data = .returned := by
  obtain ⟨s', hrun, hd, -⟩ := hr.canEnd
  rcases hrun.cases_head with rfl | ⟨s₁, hs, -⟩
  · exact hd
  · exact absurd hs (hstuck s₁)

omit [DecidableEq ι] in
/-- The bytes sent are a beginning of complete messages with the final response at the end. They
are all of it when the response is marked as complete. -/
theorem Inv.out_eq (h : Inv x s) :
    ∃ (ms : List Message) (final : Message), (∀ m ∈ ms, x.KeepAlive m) ∧
      final.bytes = x.responseBytes ∧
      s.out <+: wire ms ++ final.bytes ∧
      (s.data.marked = true → s.out = wire ms ++ final.bytes) := by
  obtain ⟨final, -, hfinal⟩ := exists_response x.lib x.hd x.beyond x.settings x.persistent
  have hfinal' : final.bytes = x.responseBytes := hfinal.symm
  obtain ⟨ms, hms, hout⟩ := h.framed
  refine ⟨ms, final, hms, hfinal', ?_, fun hmarked => ?_⟩
  · rw [hfinal']
    refine List.IsPrefix.trans (List.prefix_append s.out s.pending) ?_
    rw [hout]
    split
    · exact List.prefix_rfl
    · rw [List.append_nil]
      exact List.prefix_append _ _
  · have hbegun : s.data.begun = true := by
      revert hmarked
      cases s.data <;> simp [DataPc.marked, DataPc.begun]
    rw [h.pending_of_marked hmarked, List.append_nil, hbegun, if_pos rfl] at hout
    rw [hfinal']
    exact hout

/-- **Responses are framed.** In every reachable state the bytes sent are a beginning of complete
messages, pings and (for DIR) elements, with one final response at the end. They are all of it
when `PingLoop` has left its loop, when `DataHandler` has returned, and when no thread can go on.
And nothing keeps the response back: whatever the threads have done, they can go on from there
until `DataHandler` has returned and `PingLoop` has left its loop, and what was sent is then, with
what was sent before as its beginning, such messages and the whole response. -/
theorem response_framed (hr : x.Reachable s) :
    (∃ (ms : List Message) (final : Message), (∀ m ∈ ms, x.KeepAlive m) ∧
      final.bytes = x.responseBytes ∧
      s.out <+: wire ms ++ final.bytes ∧
      (s.ping = .left ∨ s.data = .returned ∨ (∀ s', ¬ Step x s s') →
      s.out = wire ms ++ final.bytes)) ∧
    ∃ s', Run x s s' ∧ s'.data = .returned ∧ (s'.ping = .left ∨ s'.ping = .absent) ∧
      s.out <+: s'.out ∧
      ∃ (ms : List Message) (final : Message), (∀ m ∈ ms, x.KeepAlive m) ∧
        final.bytes = x.responseBytes ∧ s'.out = wire ms ++ final.bytes := by
  refine ⟨?_, ?_⟩
  · obtain ⟨ms, final, hms, hfinal, hprefix, hwhole⟩ := hr.inv.out_eq
    refine ⟨ms, final, hms, hfinal, hprefix, fun hend => hwhole ?_⟩
    rcases hend with hp | hd | hstuck
    · exact hr.inv.informed (by rw [hp]; rfl)
    · rw [hd]
      rfl
    · rw [hr.returned_of_stuck hstuck]
      rfl
  · obtain ⟨s', hrun, hd, hp⟩ := hr.canEnd
    obtain ⟨ms, final, hms, hfinal, -, hwhole⟩ := (hr.inv.run hrun).out_eq
    exact ⟨s', hrun, hd, hp, hrun.out_prefix, ms, final, hms, hfinal, hwhole (by rw [hd]; rfl)⟩

/-- A DIR of the root. -/
def sampleExchange : Exchange where
  lib := sampleLibrary
  hd := ⟨⟨0, 2, MsgClassification.dir.code, 0, 0, 0⟩, {}, [0x2F, 0]⟩
  beyond := fun _ => 0
  settings := {}
  persistent := false
  pingcrazy := true
  threaded := true

/-- `/a` -/
def samplePath : Bytes := [0x2F, 0x61]

/-- What was sent before the response: a ping at the start, one after a second, an element. -/
def sampleSent : Bytes :=
  sampleExchange.pingBytes ++ sampleExchange.pingBytes ++
    sampleExchange.elementBytes samplePath (dirElement samplePath (startCm sampleExchange.hd))

/-- The response is about to be sent. -/
def sampleListed : Sys Unit :=
  { sampleExchange.start with
    out := sampleSent
    toclient := .postmessage
    cm := dirElement samplePath (startCm sampleExchange.hd)
    ping := .call .postping }

theorem reachable_sampleListed : sampleExchange.Reachable sampleListed := by
  have hping : sampleExchange.Reachable (ι := Unit)
      { sampleExchange.start with
        lock := some .ping
        ping := .pinging sampleExchange.pingBytes false } :=
    ((Relation.ReflTransGen.refl.tail (.select _ .postping .timeout rfl nofun nofun)).tail
      (.pingLock _ .timeout rfl rfl)).tail (.pingOrSend _ .timeout rfl)
  have hpinged : sampleExchange.Reachable (ι := Unit)
      { sampleExchange.start with
        out := sampleExchange.pingBytes ++ sampleExchange.pingBytes
        ping := .call .postping } :=
    ((hping.trans (run_pingBytes rfl)).tail (.pinged _ false rfl)).tail
      (.pingUnlock _ .postping rfl)
  have helement := (((hpinged.tail (.enter _ () samplePath (by decide) rfl rfl)).tail
    (.dirLock _ () samplePath rfl rfl)).tail (.fill _ () samplePath rfl)).tail
    (.elementLock _ () samplePath rfl rfl)
  exact ((((helement.trans (run_elementBytes (i := ()) rfl)).tail (.elementSent _ () rfl)).tail
    (.elementMark _ () rfl)).tail (.elementUnlock _ () rfl)).tail (.dirUnlock _ () rfl)

/-- Eight bytes of the response are sent when `select` times out. -/
def sampleCrossing : Sys Unit :=
  { sampleListed with
    out := sampleSent ++ sampleExchange.responseBytes.take 8
    lock := some .data
    ping := .selected .timeout
    data := .sending (sampleExchange.responseBytes.drop 8) }

theorem reachable_sampleCrossing : sampleExchange.Reachable sampleCrossing := by
  have hsending :=
    (reachable_sampleListed.tail (.worked _ rfl fun _ => rfl)).tail (.dataLock _ rfl rfl)
  have hsplit : sampleExchange.responseBytes =
      sampleExchange.responseBytes.take 8 ++ sampleExchange.responseBytes.drop 8 :=
    (List.take_append_drop 8 _).symm
  exact (hsending.trans (run_dataBytes (congrArg DataPc.sending hsplit))).tail
    (.select _ .postping .timeout rfl nofun nofun)

/-- From there the response is sent to its end, after the two pings and the element. -/
theorem response_framed_sampleCrossing :
    sampleExchange.Reachable sampleCrossing ∧
      (∃ (ms : List Message) (final : Message), (∀ m ∈ ms, sampleExchange.KeepAlive m) ∧
        final.bytes = sampleExchange.responseBytes ∧
        sampleCrossing.out <+: wire ms ++ final.bytes) ∧
      ∃ s', Run sampleExchange sampleCrossing s' ∧ s'.data = .returned ∧
        sampleCrossing.out <+: s'.out ∧
        ∃ (ms : List Message) (final : Message), (∀ m ∈ ms, sampleExchange.KeepAlive m) ∧
          final.bytes = sampleExchange.responseBytes ∧ s'.out = wire ms ++ final.bytes :=
  let ⟨⟨ms, final, hms, hfinal, hprefix, _⟩, s', hrun, hd, _, hgrown, hwhole⟩ :=
    response_framed reachable_sampleCrossing
  ⟨reachable_sampleCrossing, ⟨ms, final, hms, hfinal, hprefix⟩, s', hrun, hd, hgrown, hwhole⟩

end Owfs.Server
