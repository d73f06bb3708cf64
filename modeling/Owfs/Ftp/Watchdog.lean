import Mathlib.Order.Lattice
import Owfs.Infra.Linked

/-!
# The watchdog of the FTP server

`watchdog.c` of `owftpd` ends the sessions that have been quiet for too long. The sessions that it
watches are in a doubly linked list, the one that was heard from longest ago first. A session that
is heard from goes to the end again, and a thread wakes up every second and cancels sessions from
the front.

Each operation holds the mutex from its start to its end, so what has happened is a list of
operations, and the last one stands first. A session is added when its handler starts and removed
when it ends; it may be cancelled in between, and may still be deferred then. A cancellation takes
effect between two operations: that it may come asynchronously, inside of one, is not modelled.
-/

namespace Owfs.Ftp

open Infra

variable {ι : Type} [DecidableEq ι]

/-! ## The code -/

/-- `struct watchdog_s` and the memory of the sessions, `struct watched_s`. The ends of the list are
`oldest` and `newest`, the links `older` and `newer`. The last field is not in the source: it keeps
the threads that were cancelled. -/
structure Watchdog (ι : Type) where
  inactivityTimeout : Int
  list : Links ι
  alarmTime : ι → Int
  inList : ι → Bool
  cancelled : List ι

namespace Watchdog

/-- `watchdog_init`. What is in the memory of the sessions is not known. -/
def init (memory : Watchdog ι) (inactivityTimeout : Int) : Watchdog ι :=
  ⟨inactivityTimeout, ⟨none, none, memory.list.prev, memory.list.next⟩, memory.alarmTime,
    memory.inList, []⟩

/-- The alarm that `insert` sets: never before the one of the newest session. -/
def setAlarm (w : Watchdog ι) (x : ι) (now : Int) : ι → Int :=
  let alarmTime := Function.update w.alarmTime x (now + w.inactivityTimeout)
  match w.list.last with
  | some newest =>
    if alarmTime newest > alarmTime x then Function.update alarmTime x (alarmTime newest)
      else alarmTime
  | none => alarmTime

/-- `insert` -/
def insert (w : Watchdog ι) (x : ι) (now : Int) : Option (Watchdog ι) := do
  let list ← w.list.append x
  some { w with list, alarmTime := w.setAlarm x now, inList := Function.update w.inList x true }

/-- `delete` -/
def delete (w : Watchdog ι) (x : ι) : Option (Watchdog ι) :=
  if w.inList x then do
    let list ← w.list.unlink x
    some { w with list, inList := Function.update w.inList x false }
  else some w

/-- `watchdog_add_watched` -/
def addWatched (w : Watchdog ι) (x : ι) (now : Int) : Option (Watchdog ι) := w.insert x now

/-- `watchdog_defer_watched` -/
def deferWatched (w : Watchdog ι) (x : ι) (now : Int) : Option (Watchdog ι) := do
  let w ← w.delete x
  w.insert x now

/-- `watchdog_remove_watched` -/
def removeWatched (w : Watchdog ι) (x : ι) : Option (Watchdog ι) := w.delete x

/-- The inner loop of `watcher` -/
def watcher (w : Watchdog ι) (now : Int) : Nat → Option (Watchdog ι)
  | 0 => none
  | fuel + 1 =>
    match w.list.first with
    | none => some w
    | some oldest =>
      if now - w.alarmTime oldest > 0 then do
        let w ← w.delete oldest
        watcher { w with cancelled := w.cancelled ++ [oldest] } now fuel
      else some w

/-- The checks that `invariant` makes at each session -/
def inOrder (w : Watchdog ι) (x : ι) : Bool :=
  ((w.list.prev x).all fun older => !decide (w.alarmTime x < w.alarmTime older)) &&
    (w.list.next x).all fun newer => !decide (w.alarmTime x > w.alarmTime newer)

/-- The loops of `invariant`: the number of sessions, if they are in order -/
def count (w : Watchdog ι) (next : ι → Option ι) : Option ι → Nat → Nat → Option (Option Nat)
  | _, _, 0 => none
  | none, n, _ + 1 => some (some n)
  | some x, n, fuel + 1 => if w.inOrder x then w.count next (next x) (n + 1) fuel else some none

/-- `invariant` -/
def invariant (w : Watchdog ι) (fuel : Nat) : Option Bool :=
  if w.inactivityTimeout ≤ 0 then some false
  else match w.list.first, w.list.last with
    | some _, none => some false
    | none, last => some last.isNone
    | some oldest, some newest => do
      match ← w.count w.list.next (some oldest) 0 fuel with
      | none => some false
      | some oldToNew =>
        match ← w.count w.list.prev (some newest) 0 fuel with
        | none => some false
        | some newToOld => some (oldToNew == newToOld)

end Watchdog

/-- What happens to the list -/
inductive WatchEvent (ι : Type) where
  /-- a session is added, or heard from, at a time -/
  | add (x : ι) (now : Int)
  | defer (x : ι) (now : Int)
  | remove (x : ι)
  /-- the watching thread wakes up -/
  | wake (now : Int)

/-- The handler of the session runs: `connection_handler` has added it and its cleanup has not
removed it. -/
def handled : List (WatchEvent ι) → ι → Bool
  | [], _ => false
  | .add y _ :: past, x => x = y || handled past x
  | .remove y :: past, x => x ≠ y && handled past x
  | .defer _ _ :: past, x => handled past x
  | .wake _ :: past, x => handled past x

/-- A handler adds its session first and removes it last. -/
def Allowed : List (WatchEvent ι) → Prop
  | [] => True
  | .add x _ :: past => handled past x = false ∧ Allowed past
  | .defer x _ :: past => handled past x = true ∧ Allowed past
  | .remove x :: past => handled past x = true ∧ Allowed past
  | .wake _ :: past => Allowed past

/-- One event. The loop of `watcher` has no bound in the source. -/
def Watchdog.step (w : Watchdog ι) (fuel : Nat) : WatchEvent ι → Option (Watchdog ι)
  | .add x now => w.addWatched x now
  | .defer x now => w.deferWatched x now
  | .remove x => w.removeWatched x
  | .wake now => w.watcher now fuel

/-- The watchdog after what has happened. There are never more sessions in the list than events
behind it. -/
def Watchdog.run (memory : Watchdog ι) (timeout : Int) : List (WatchEvent ι) → Option (Watchdog ι)
  | [] => some (init memory timeout)
  | event :: past => do
    let w ← run memory timeout past
    w.step (past.length + 1) event

/-! ## The sessions that are watched

What the list is for: each session that is watched has an alarm, and those whose alarm is over are
cancelled, wherever they stand. -/

/-- The alarm of a session that is added to `q` -/
def alarmFor (timeout now : Int) (q : List (ι × Int)) : Int :=
  q.getLast?.elim (now + timeout) fun newest => max (now + timeout) newest.2

/-- The sessions that are watched, with their alarms -/
def watching (timeout : Int) : List (WatchEvent ι) → List (ι × Int)
  | [] => []
  | .add x now :: past =>
      watching timeout past ++ [(x, alarmFor timeout now (watching timeout past))]
  | .defer x now :: past =>
    let others := (watching timeout past).filter fun e => e.1 ≠ x
    others ++ [(x, alarmFor timeout now others)]
  | .remove x :: past => (watching timeout past).filter fun e => e.1 ≠ x
  | .wake now :: past => (watching timeout past).filter fun e => now ≤ e.2

/-- The sessions that were cancelled -/
def expired (timeout : Int) : List (WatchEvent ι) → List ι
  | [] => []
  | .wake now :: past =>
    expired timeout past ++ ((watching timeout past).filter fun e => e.2 < now).map Prod.fst
  | .add _ _ :: past => expired timeout past
  | .defer _ _ :: past => expired timeout past
  | .remove _ :: past => expired timeout past

/-- When the session was last heard from -/
def lastHeard : List (WatchEvent ι) → ι → Option Int
  | [], _ => none
  | .add y now :: past, x => if x = y then some now else lastHeard past x
  | .defer y now :: past, x => if x = y then some now else lastHeard past x
  | .remove _ :: past, x => lastHeard past x
  | .wake _ :: past, x => lastHeard past x

/-- What the clock showed when sessions were heard from -/
def readings : List (WatchEvent ι) → List Int
  | [] => []
  | .add _ now :: past => now :: readings past
  | .defer _ now :: past => now :: readings past
  | .remove _ :: past => readings past
  | .wake _ :: past => readings past

/-! ## The list shows the sessions -/

namespace Watchdog

/-- The watchdog watches the sessions `q`, and `active` says whose handlers run. -/
structure Shows (w : Watchdog ι) (timeout : Int) (q : List (ι × Int)) (active : ι → Bool) :
    Prop where
  timeout_eq : w.inactivityTimeout = timeout
  list : w.list.IsList (q.map Prod.fst)
  alarm : ∀ e ∈ q, w.alarmTime e.1 = e.2
  inList : ∀ x, active x = true → (w.inList x = true ↔ x ∈ q.map Prod.fst)
  isActive : ∀ x ∈ q.map Prod.fst, active x = true

variable {w : Watchdog ι} {timeout now : Int} {q : List (ι × Int)} {active active' : ι → Bool}
    {x : ι}

theorem Shows.setAlarm_eq (h : w.Shows timeout q active) (hx : x ∉ q.map Prod.fst) :
    w.setAlarm x now = Function.update w.alarmTime x (alarmFor timeout now q) := by
  unfold setAlarm alarmFor
  rw [h.list.last_eq, List.getLast?_map, h.timeout_eq]
  cases hlast : q.getLast? with
  | none => rfl
  | some e =>
    have hmem := List.mem_of_getLast? hlast
    have hne : e.1 ≠ x := fun heq => hx (List.mem_map.mpr ⟨e, hmem, heq⟩)
    simp only [Option.map_some, Function.update_of_ne hne, Function.update_self, h.alarm e hmem,
      Option.elim_some]
    split
    · rw [Function.update_idem, Int.max_eq_right (by omega)]
    · rw [Int.max_eq_left (by omega)]

theorem Shows.insert (h : w.Shows timeout q active) (hx : x ∉ q.map Prod.fst)
    (hactive : ∀ y, active' y = true ↔ y = x ∨ active y = true) :
    ∃ w', w.insert x now = some w' ∧ w'.cancelled = w.cancelled ∧
      w'.Shows timeout (q ++ [(x, alarmFor timeout now q)]) active' := by
  obtain ⟨list, happend, hlist⟩ := h.list.append hx
  have hinsert : w.insert x now = some { w with
      list, alarmTime := w.setAlarm x now, inList := Function.update w.inList x true } := by
    rw [Watchdog.insert, happend]
    rfl
  refine ⟨_, hinsert, rfl, h.timeout_eq, by simpa using hlist, ?_, ?_, ?_⟩
  · intro e he
    show w.setAlarm x now e.1 = e.2
    rw [h.setAlarm_eq hx]
    rcases List.mem_append.mp he with hold | hnew
    · have hne : e.1 ≠ x := fun heq => hx (List.mem_map.mpr ⟨e, hold, heq⟩)
      rw [Function.update_of_ne hne, h.alarm e hold]
    · rw [List.mem_singleton.mp hnew, Function.update_self]
  · intro y hy
    show Function.update w.inList x true y = true ↔ _
    rw [List.map_append, List.mem_append]
    by_cases hyx : y = x
    · subst hyx
      simp
    · rcases (hactive y).mp hy with heq | hold
      · exact absurd heq hyx
      · rw [Function.update_of_ne hyx, h.inList y hold]
        simp [hyx]
  · intro y hy
    rw [List.map_append, List.mem_append] at hy
    rcases hy with hold | hnew
    · exact (hactive y).mpr (Or.inr (h.isActive y hold))
    · exact (hactive y).mpr (Or.inl (by simpa using hnew))

/-- A session is one element of the list. -/
theorem filter_ne {q r : List (ι × Int)} {e : ι × Int} (h : ((q ++ e :: r).map Prod.fst).Nodup) :
    (q ++ e :: r).filter (fun e' => e'.1 ≠ e.1) = q ++ r := by
  rw [List.map_append, List.map_cons, List.nodup_append, List.nodup_cons] at h
  obtain ⟨-, ⟨her, -⟩, hdisj⟩ := h
  have hq : q.filter (fun e' => e'.1 ≠ e.1) = q := by
    refine List.filter_eq_self.mpr fun e' he' => decide_eq_true ?_
    exact hdisj e'.1 (List.mem_map_of_mem he') e.1 List.mem_cons_self
  have hr : r.filter (fun e' => e'.1 ≠ e.1) = r := by
    refine List.filter_eq_self.mpr fun e' he' => decide_eq_true fun heq => her ?_
    exact heq ▸ List.mem_map_of_mem he'
  rw [List.filter_append, List.filter_cons_of_neg (by simp), hq, hr]

theorem filter_ne_of_notMem (h : x ∉ q.map Prod.fst) : q.filter (fun e => e.1 ≠ x) = q :=
  List.filter_eq_self.mpr fun _ he => decide_eq_true fun heq => h (heq ▸ List.mem_map_of_mem he)

theorem notMem_filter_ne (q : List (ι × Int)) (x : ι) :
    x ∉ (q.filter fun e => e.1 ≠ x).map Prod.fst := by
  intro hmem
  obtain ⟨_, he, rfl⟩ := List.mem_map.mp hmem
  simpa using (List.mem_filter.mp he).2

/-- A session that is not in the list is left alone. -/
theorem Shows.delete (h : w.Shows timeout q active) (hx : active x = true) :
    ∃ w', w.delete x = some w' ∧ w'.cancelled = w.cancelled ∧
      w'.Shows timeout (q.filter fun e => e.1 ≠ x) active := by
  unfold Watchdog.delete
  by_cases hmem : x ∈ q.map Prod.fst
  · rw [if_pos ((h.inList x hx).mpr hmem)]
    obtain ⟨e, he, rfl⟩ := List.mem_map.mp hmem
    obtain ⟨q, r, rfl⟩ := List.append_of_mem he
    have hlist := h.list
    rw [List.map_append, List.map_cons] at hlist
    obtain ⟨list, hunlink, hlist'⟩ := hlist.unlink
    rw [filter_ne h.list.nodup, hunlink]
    have hsub : ∀ e' ∈ q ++ r, e' ∈ q ++ e :: r := by
      intro e' he'
      rcases List.mem_append.mp he' with hq | hr
      · exact List.mem_append_left _ hq
      · exact List.mem_append_right _ (List.mem_cons_of_mem _ hr)
    have hnot : e.1 ∉ (q ++ r).map Prod.fst := by
      rw [← filter_ne h.list.nodup]
      exact notMem_filter_ne _ _
    refine ⟨_, rfl, rfl, h.timeout_eq, by simpa using hlist', fun e' he' =>
      h.alarm e' (hsub e' he'), ?_, ?_⟩
    · intro y hy
      show Function.update w.inList e.1 false y = true ↔ _
      by_cases hye : y = e.1
      · subst hye
        simpa using hnot
      · rw [Function.update_of_ne hye, h.inList y hy]
        simp [hye]
    · intro y hy
      obtain ⟨e', he', rfl⟩ := List.mem_map.mp hy
      exact h.isActive _ (List.mem_map_of_mem (hsub e' he'))
  · have hout : w.inList x ≠ true := fun hin => hmem ((h.inList x hx).mp hin)
    rw [if_neg hout, filter_ne_of_notMem hmem]
    exact ⟨w, rfl, rfl, h⟩

/-- The alarms from the oldest session to the newest one -/
def Sorted (q : List (ι × Int)) : Prop := q.Pairwise fun e e' => e.2 ≤ e'.2

/-- The loop of `watcher` cancels all sessions whose alarm is over, since they stand in front. -/
theorem Shows.watcher {fuel : Nat} (h : w.Shows timeout q active) (hsorted : Sorted q)
    (hfuel : q.length < fuel) :
    ∃ w', w.watcher now fuel = some w' ∧
      w'.cancelled = w.cancelled ++ (q.filter fun e => e.2 < now).map Prod.fst ∧
      w'.Shows timeout (q.filter fun e => now ≤ e.2) active := by
  induction fuel generalizing w q with
  | zero => exact absurd hfuel (Nat.not_lt_zero _)
  | succ fuel ih =>
    have hfirst := h.list.first_eq
    cases q with
    | nil =>
      rw [Watchdog.watcher, hfirst]
      exact ⟨w, rfl, by simp, h⟩
    | cons e q =>
      obtain ⟨hle, hrest⟩ := List.pairwise_cons.mp hsorted
      rw [Watchdog.watcher, hfirst, List.map_cons, List.head?_cons]
      simp only [h.alarm e List.mem_cons_self]
      by_cases hover : e.2 < now
      · obtain ⟨w', hdelete, hcancelled, hshows⟩ := h.delete (h.isActive e.1 List.mem_cons_self)
        have hothers : (e :: q).filter (fun e' => e'.1 ≠ e.1) = q :=
          filter_ne (q := []) h.list.nodup
        rw [hothers] at hshows
        have hshows' : Shows { w' with cancelled := w'.cancelled ++ [e.1] } timeout q active :=
          ⟨hshows.timeout_eq, hshows.list, hshows.alarm, hshows.inList, hshows.isActive⟩
        obtain ⟨w'', hloop, hcancelled', hshows''⟩ := ih hshows' hrest (by simpa using hfuel)
        refine ⟨w'', ?_, ?_, ?_⟩
        · rw [if_pos (by omega), hdelete]
          exact hloop
        · rw [hcancelled', hcancelled, List.filter_cons_of_pos (by simpa using hover)]
          simp
        · rw [List.filter_cons_of_neg (by simpa using hover)]
          exact hshows''
      · have hnone : (e :: q).filter (fun e => e.2 < now) = [] := by
          refine List.filter_eq_nil_iff.mpr fun e' he' => ?_
          rcases List.mem_cons.mp he' with rfl | hmem
          · simpa using hover
          · have := hle e' hmem
            simp only [decide_eq_true_eq]
            omega
        have hall : (e :: q).filter (fun e => now ≤ e.2) = e :: q := by
          refine List.filter_eq_self.mpr fun e' he' => ?_
          have hnot := List.filter_eq_nil_iff.mp hnone e' he'
          simpa using hnot
        rw [if_neg (by omega), hnone, hall]
        exact ⟨w, rfl, by simp, h⟩

end Watchdog

/-! ## Its own check -/

namespace Watchdog

variable {w : Watchdog ι} {timeout : Int} {q : List (ι × Int)} {active : ι → Bool}

omit [DecidableEq ι]

theorem Shows.inOrder (h : w.Shows timeout q active) (hsorted : Sorted q) {x : ι}
    (hx : x ∈ q.map Prod.fst) :
    w.inOrder x = true := by
  obtain ⟨e, he, rfl⟩ := List.mem_map.mp hx
  obtain ⟨older, newer, rfl⟩ := List.append_of_mem he
  have hlist := h.list
  rw [List.map_append, List.map_cons] at hlist
  obtain ⟨-, hnewer, holder⟩ := List.pairwise_append.mp hsorted
  have hle := (List.pairwise_cons.mp hnewer).1
  have halarm := h.alarm e he
  unfold Watchdog.inOrder
  rw [hlist.prev_eq, hlist.next_eq, List.getLast?_map, List.head?_map, Bool.and_eq_true]
  constructor
  · cases hlast : older.getLast? with
    | none => rfl
    | some e' =>
      have hmem := List.mem_of_getLast? hlast
      have halarm' := h.alarm e' (List.mem_append_left _ hmem)
      have := holder e' hmem e List.mem_cons_self
      simp only [Option.map_some, Option.all_some, halarm, halarm', Bool.not_eq_true',
        decide_eq_false_iff_not]
      omega
  · cases hhead : newer.head? with
    | none => rfl
    | some e' =>
      have hmem := List.mem_of_head? hhead
      have halarm' := h.alarm e' (List.mem_append_right _ (List.mem_cons_of_mem _ hmem))
      have := hle e' hmem
      simp only [Option.map_some, Option.all_some, halarm, halarm', Bool.not_eq_true',
        decide_eq_false_iff_not]
      omega

/-- A loop that meets no session out of order comes to the end and has counted all. -/
theorem count_eq {next : ι → Option ι} {p : Option ι} {L : List ι} {n fuel : Nat}
    (h : Seg next p L none) (horder : ∀ x ∈ L, w.inOrder x = true) (hfuel : L.length < fuel) :
    w.count next p n fuel = some (some (n + L.length)) := by
  induction L generalizing p n fuel with
  | nil =>
    obtain ⟨fuel, rfl⟩ := Nat.exists_eq_succ_of_ne_zero (Nat.ne_of_gt hfuel)
    rw [show p = none from h, count]
    rfl
  | cons x L ih =>
    obtain ⟨fuel, rfl⟩ := Nat.exists_eq_succ_of_ne_zero (Nat.ne_of_gt (Nat.zero_lt_of_lt hfuel))
    obtain ⟨rfl, hrest⟩ := h
    rw [count, if_pos (horder x List.mem_cons_self),
      ih hrest (fun y hy => horder y (List.mem_cons_of_mem x hy)) (Nat.lt_of_succ_lt_succ hfuel),
      List.length_cons]
    congr 2
    omega

theorem Shows.invariant {fuel : Nat} (h : w.Shows timeout q active) (hsorted : Sorted q)
    (htimeout : 0 < timeout) (hfuel : q.length < fuel) : w.invariant fuel = some true := by
  have horder : ∀ x ∈ q.map Prod.fst, w.inOrder x = true := fun x hx => h.inOrder hsorted hx
  have hforward : w.count w.list.next w.list.first 0 fuel = some (some q.length) := by
    rw [count_eq h.list.forward horder (by simpa using hfuel)]
    simp
  have hbackward : w.count w.list.prev w.list.last 0 fuel = some (some q.length) := by
    rw [count_eq h.list.backward (fun x hx => horder x (List.mem_reverse.mp hx))
      (by simpa using hfuel)]
    simp
  unfold Watchdog.invariant
  rw [if_neg (by rw [h.timeout_eq]; omega)]
  cases hfirst : w.list.first with
  | none =>
    have hempty : q.map Prod.fst = [] := List.head?_eq_none_iff.mp (h.list.first_eq ▸ hfirst)
    rw [h.list.last_eq, hempty]
    rfl
  | some oldest =>
    cases hlast : w.list.last with
    | none =>
      have hempty : q.map Prod.fst = [] := List.getLast?_eq_none_iff.mp (h.list.last_eq ▸ hlast)
      rw [h.list.first_eq, hempty] at hfirst
      cases hfirst
    | some newest =>
      rw [hfirst] at hforward
      rw [hlast] at hbackward
      simp [hforward, hbackward]

theorem Sorted.append_alarmFor (h : Sorted q) (x : ι) (now : Int) :
    Sorted (q ++ [(x, alarmFor timeout now q)]) := by
  refine List.pairwise_append.mpr ⟨h, List.pairwise_singleton _ _, fun e he e' he' => ?_⟩
  rw [List.mem_singleton.mp he']
  rcases List.eq_nil_or_concat q with rfl | ⟨q, newest, rfl⟩
  · cases he
  · rw [List.concat_eq_append] at *
    have hle : e.2 ≤ newest.2 := by
      rcases List.mem_append.mp he with hmem | hmem
      · exact (List.pairwise_append.mp h).2.2 e hmem newest List.mem_cons_self
      · rw [List.mem_singleton.mp hmem]
    rw [alarmFor, List.getLast?_append]
    exact Int.le_trans hle (Int.le_max_right _ _)

end Watchdog

/-! ## Runs -/

variable {timeout : Int} {past : List (WatchEvent ι)}

theorem sorted_watching (past : List (WatchEvent ι)) : Watchdog.Sorted (watching timeout past) := by
  induction past with
  | nil => exact List.Pairwise.nil
  | cons event past ih =>
    cases event with
    | add x now => exact ih.append_alarmFor x now
    | defer x now => exact Watchdog.Sorted.append_alarmFor (ih.filter _) x now
    | remove x => exact ih.filter _
    | wake now => exact ih.filter _

theorem length_watching_le (past : List (WatchEvent ι)) :
    (watching timeout past).length ≤ past.length := by
  induction past with
  | nil => exact Nat.le_refl 0
  | cons event past ih =>
    cases event with
    | add x now => simpa [watching] using ih
    | defer x now => simpa [watching] using (List.length_filter_le _ _).trans ih
    | remove x => exact (List.length_filter_le _ _).trans (ih.trans (Nat.le_succ _))
    | wake now => exact (List.length_filter_le _ _).trans (ih.trans (Nat.le_succ _))

/-- No pointer leads nowhere, and the list shows the sessions after each event. -/
theorem run_shows (memory : Watchdog ι) (hpast : Allowed past) :
    ∃ w, Watchdog.run memory timeout past = some w ∧ w.cancelled = expired timeout past ∧
      w.Shows timeout (watching timeout past) (handled past) := by
  induction past with
  | nil =>
    refine ⟨_, rfl, rfl, rfl, ⟨List.nodup_nil, rfl, rfl⟩, ?_, ?_, ?_⟩
    · intro e he
      cases he
    · intro x hx
      cases hx
    · intro x hx
      cases hx
  | cons event past ih =>
    cases event with
    | add x now =>
      obtain ⟨hnew, hpast⟩ := hpast
      obtain ⟨w, hrun, hcancelled, hshows⟩ := ih hpast
      have hx : x ∉ (watching timeout past).map Prod.fst := by
        intro hmem
        rw [hshows.isActive x hmem] at hnew
        cases hnew
      obtain ⟨w', hinsert, hcancelled', hshows'⟩ :=
        @Watchdog.Shows.insert ι _ w timeout now _ _ (handled (.add x now :: past)) x hshows hx
          (by simp [handled])
      refine ⟨w', ?_, hcancelled'.trans hcancelled, hshows'⟩
      rw [Watchdog.run, hrun]
      exact hinsert
    | defer x now =>
      obtain ⟨hactive, hpast⟩ := hpast
      obtain ⟨w, hrun, hcancelled, hshows⟩ := ih hpast
      obtain ⟨w', hdelete, hcancelled', hshows'⟩ := hshows.delete hactive
      obtain ⟨w'', hinsert, hcancelled'', hshows''⟩ :=
        @Watchdog.Shows.insert ι _ w' timeout now _ _ (handled past) x hshows'
          (Watchdog.notMem_filter_ne _ _) (by
          intro y
          refine ⟨Or.inr, fun hy => ?_⟩
          rcases hy with rfl | hy
          · exact hactive
          · exact hy)
      refine ⟨w'', ?_, hcancelled''.trans (hcancelled'.trans hcancelled), hshows''⟩
      rw [Watchdog.run, hrun]
      simp only [Option.bind_eq_bind, Option.bind_some, Watchdog.step, Watchdog.deferWatched,
        hdelete]
      exact hinsert
    | remove x =>
      obtain ⟨hactive, hpast⟩ := hpast
      obtain ⟨w, hrun, hcancelled, hshows⟩ := ih hpast
      obtain ⟨w', hdelete, hcancelled', hshows'⟩ := hshows.delete hactive
      refine ⟨w', ?_, hcancelled'.trans hcancelled, hshows'.timeout_eq, hshows'.list, hshows'.alarm,
        ?_, ?_⟩
      · rw [Watchdog.run, hrun]
        exact hdelete
      · intro y hy
        rw [handled, Bool.and_eq_true] at hy
        exact hshows'.inList y hy.2
      · intro y hy
        have hne : y ≠ x :=
          fun heq => Watchdog.notMem_filter_ne (watching timeout past) x (heq ▸ hy)
        rw [handled, hshows'.isActive y hy]
        simpa using hne
    | wake now =>
      obtain ⟨w, hrun, hcancelled, hshows⟩ := ih hpast
      have hlength := @length_watching_le ι _ timeout past
      obtain ⟨w', hloop, hcancelled', hshows'⟩ :=
        @Watchdog.Shows.watcher ι _ w timeout now _ _ (past.length + 1) hshows
          (sorted_watching past) (by omega)
      refine ⟨w', ?_, ?_, hshows'⟩
      · rw [Watchdog.run, hrun]
        exact hloop
      · rw [hcancelled', hcancelled]
        rfl

/-! ## Alarms -/

/-- What the alarm of a session says: it is not before the session has been quiet for `timeout`, it
was set from what the clock showed, and it is not later than that if the clock was never set
back. -/
structure Timely (timeout : Int) (past : List (WatchEvent ι)) (e : ι × Int) : Prop where
  heard : ∃ heard, lastHeard past e.1 = some heard ∧ heard ∈ readings past ∧ heard + timeout ≤ e.2 ∧
    ((readings past).Pairwise (· ≥ ·) → e.2 = heard + timeout)
  clock : ∃ t ∈ readings past, e.2 = t + timeout

theorem Timely.newest {x : ι} {now : Int} {q : List (ι × Int)} {past' : List (WatchEvent ι)}
    (h : ∀ e ∈ q, Timely timeout past e) (hheard : lastHeard past' x = some now)
    (hreadings : readings past' = now :: readings past) :
    Timely timeout past' (x, alarmFor timeout now q) := by
  unfold alarmFor
  cases hlast : q.getLast? with
  | none =>
    refine ⟨⟨now, hheard, ?_, Int.le_refl _, fun _ => rfl⟩, now, ?_, rfl⟩
    · rw [hreadings]
      exact List.mem_cons_self
    · rw [hreadings]
      exact List.mem_cons_self
  | some e =>
    obtain ⟨⟨heard, -, hmem, -, hexact⟩, t, ht, heq⟩ := h e (List.mem_of_getLast? hlast)
    refine ⟨⟨now, hheard, ?_, Int.le_max_left _ _, fun hclock => ?_⟩, ?_⟩
    · rw [hreadings]
      exact List.mem_cons_self
    · -- a clock that was not set back shows no less than when the newest session was heard from
      rw [hreadings] at hclock
      obtain ⟨hle, hpast⟩ := List.pairwise_cons.mp hclock
      have := hexact hpast
      have := hle heard hmem
      exact Int.max_eq_left (by omega)
    · rw [hreadings]
      rcases Int.le_total e.2 (now + timeout) with hle | hle
      · exact ⟨now, List.mem_cons_self, Int.max_eq_left hle⟩
      · exact ⟨t, List.mem_cons_of_mem _ ht, (Int.max_eq_right hle).trans heq⟩

/-- The other sessions keep their alarms. -/
theorem Timely.older {e : ι × Int} {now : Int} {past' : List (WatchEvent ι)}
    (h : Timely timeout past e) (hheard : lastHeard past' e.1 = lastHeard past e.1)
    (hreadings : readings past' = now :: readings past) :
    Timely timeout past' e := by
  obtain ⟨⟨heard, hlast, hmem, hle, hexact⟩, t, ht, heq⟩ := h
  rw [← hheard] at hlast
  refine ⟨⟨heard, hlast, ?_, hle, fun hclock => ?_⟩, t, ?_, heq⟩
  · rw [hreadings]
    exact List.mem_cons_of_mem _ hmem
  · rw [hreadings] at hclock
    exact hexact (List.pairwise_cons.mp hclock).2
  · rw [hreadings]
    exact List.mem_cons_of_mem _ ht

theorem handled_of_watching (memory : Watchdog ι) (hpast : Allowed past) {e : ι × Int}
    (he : e ∈ watching timeout past) : handled past e.1 = true := by
  obtain ⟨w, -, -, hshows⟩ := @run_shows ι _ timeout past memory hpast
  exact hshows.isActive e.1 (List.mem_map_of_mem he)

theorem timely_watching (memory : Watchdog ι) (hpast : Allowed past) :
    ∀ e ∈ watching timeout past, Timely timeout past e := by
  induction past with
  | nil =>
    intro e he
    cases he
  | cons event past ih =>
    intro e he
    cases event with
    | add x now =>
      obtain ⟨hnew, hpast⟩ := hpast
      rcases List.mem_append.mp he with hold | hlast
      · have hne : e.1 ≠ x := by
          rintro rfl
          rw [handled_of_watching memory hpast hold] at hnew
          cases hnew
        exact (ih hpast e hold).older (if_neg hne) rfl
      · rw [List.mem_singleton.mp hlast]
        exact Timely.newest (ih hpast) (if_pos rfl) rfl
    | defer x now =>
      have htimely : ∀ e ∈ (watching timeout past).filter (fun e => e.1 ≠ x),
          Timely timeout past e :=
        fun e he => ih hpast.2 e (List.mem_of_mem_filter he)
      rcases List.mem_append.mp he with hold | hlast
      · have hne : e.1 ≠ x := by simpa using (List.mem_filter.mp hold).2
        exact (htimely e hold).older (if_neg hne) rfl
      · rw [List.mem_singleton.mp hlast]
        exact Timely.newest htimely (if_pos rfl) rfl
    | remove x =>
      obtain ⟨hheard, hclock⟩ := ih hpast.2 e (List.mem_of_mem_filter he)
      exact ⟨hheard, hclock⟩
    | wake now =>
      obtain ⟨hheard, hclock⟩ := ih hpast e (List.mem_of_mem_filter he)
      exact ⟨hheard, hclock⟩

/-- Whatever the sessions do and whenever the watchdog wakes up, no pointer leads nowhere and no
assertion fails; the list holds the sessions that are watched, those whose alarm is over were
cancelled and no others, and the check of the code itself succeeds. The alarm of a session is not
over before it was quiet for `timeout`, and no later if the clock was never set back. -/
theorem watchdog_spec (memory : Watchdog ι) (htimeout : 0 < timeout) (hpast : Allowed past) :
    (∃ w, Watchdog.run memory timeout past = some w ∧
      w.list.IsList ((watching timeout past).map Prod.fst) ∧
      (∀ e ∈ watching timeout past, w.alarmTime e.1 = e.2) ∧ w.cancelled = expired timeout past ∧
      ∀ fuel, past.length < fuel → w.invariant fuel = some true) ∧
    ∀ e ∈ watching timeout past,
      (∃ heard, lastHeard past e.1 = some heard ∧ heard + timeout ≤ e.2 ∧
        ((readings past).Pairwise (· ≥ ·) → e.2 = heard + timeout)) ∧
      ∃ t ∈ readings past, e.2 = t + timeout := by
  constructor
  · obtain ⟨w, hrun, hcancelled, hshows⟩ := run_shows memory hpast
    refine ⟨w, hrun, hshows.list, hshows.alarm, hcancelled, fun fuel hfuel => ?_⟩
    have hlength := @length_watching_le ι _ timeout past
    exact hshows.invariant (sorted_watching past) htimeout (by omega)
  · intro e he
    obtain ⟨⟨heard, hlast, -, hle, hexact⟩, hclock⟩ := timely_watching memory hpast e he
    exact ⟨⟨heard, hlast, hle, hexact⟩, hclock⟩

/-- Session 1 is heard from again in time, session 2 is not. -/
def quietPast : List (WatchEvent Nat) := [.wake 30, .defer 1 20, .add 2 10, .add 1 0]

def staleMemory : Watchdog Nat := ⟨0, ⟨none, none, some, some⟩, fun _ => 0, fun _ => true, []⟩

theorem watchdog_spec_quiet :
    ∃ w, Watchdog.run staleMemory 15 quietPast = some w ∧ w.cancelled = [2] ∧
    w.list.IsList [1] ∧ w.alarmTime 1 = 35 := by
  have hpast : Allowed quietPast := ⟨rfl, rfl, rfl, trivial⟩
  obtain ⟨⟨w, hrun, hlist, halarm, hcancelled, -⟩, -⟩ :=
    watchdog_spec staleMemory (by decide : (0 : Int) < 15) hpast
  have hwatching : watching 15 quietPast = [(1, 35)] := by decide
  rw [hwatching] at hlist halarm
  exact ⟨w, hrun, hcancelled, hlist, halarm (1, 35) List.mem_cons_self⟩

end Owfs.Ftp
