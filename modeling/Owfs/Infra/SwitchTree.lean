import Mathlib

/-!
# Trees of switches

A switch hangs at the root, or on one branch of another switch, and connects at most one of its own
branches. What lies behind a branch is reachable while the switch connects it and is itself
reachable.

A route is a list of switches, each with the branch it is to connect. If every switch that hangs at
the root or on a branch of the route is off, then connecting the route from its start leads to a
state in which the switches that are on and reachable are exactly those of the route.
-/

namespace Infra

/-- A tree of switches `ν` with branches `β`. -/
structure SwitchTree (ν β : Type) where
  isSwitch : ν → Bool
  parent : ν → Option (ν × β)
  level : ν → Nat
  level_lt : ∀ {c p b}, parent c = some (p, b) → level p < level c
  isSwitch_parent : ∀ {c p b}, isSwitch c = true → parent c = some (p, b) → isSwitch p = true

namespace SwitchTree

variable {ν β : Type} (t : SwitchTree ν β)

/-! ## Routes -/

/-- A switch that hangs at the root, or on a branch of the route. -/
def Near (q : List (ν × β)) (c : ν) : Prop := t.parent c = none ∨ ∃ h ∈ q, t.parent c = some h

/-- Every switch of the route connects its branch. -/
def OnRoute (q : List (ν × β)) (on : ν → Option β) : Prop := ∀ h ∈ q, on h.1 = some h.2

/-- Whatever could be reached beside the route is off. -/
def Clean (q : List (ν × β)) (on : ν → Option β) : Prop :=
  ∀ c, t.isSwitch c = true → t.Near q c → c ∉ q.map Prod.fst → on c = none

/-- The switches of the route are off as well. -/
def AllOff (q : List (ν × β)) (on : ν → Option β) : Prop :=
  ∀ c, t.isSwitch c = true → t.Near q c → on c = none

/-- Every switch of the route hangs at the root or on a branch before it. -/
def Linked (q : List (ν × β)) : Prop :=
  ∀ i h, q[i]? = some h → t.isSwitch h.1 = true ∧ t.Near (q.take i) h.1

/-- No switch is asked to connect two branches. -/
def Consistent (q : List (ν × β)) : Prop := ∀ h ∈ q, ∀ h' ∈ q, h.1 = h'.1 → h = h'

variable {t} {on : ν → Option β} {q : List (ν × β)} {c p : ν} {b : β}

theorem Near.mono {q' : List (ν × β)} (hq : q ⊆ q') (h : t.Near q c) : t.Near q' c :=
  h.imp_right fun ⟨e, he, hp⟩ => ⟨e, hq he, hp⟩

theorem AllOff.mono {q' : List (ν × β)} (hq : q ⊆ q') (h : t.AllOff q' on) : t.AllOff q on :=
  fun c hc hnear => h c hc (hnear.mono hq)

theorem Clean.mem_of_on (h : t.Clean q on) (hroute : OnRoute q on) (hc : t.isSwitch c = true)
    (hnear : t.Near q c) (hon : on c = some b) : (c, b) ∈ q := by
  have hmem : c ∈ q.map Prod.fst := by
    by_contra hnot
    rw [h c hc hnear hnot] at hon
    cases hon
  obtain ⟨e, he, rfl⟩ := List.mem_map.mp hmem
  have hb := (hroute e he).symm.trans hon
  cases hb
  exact he

theorem AllOff.clean (h : t.AllOff q on) : t.Clean q on := fun c hc hnear _ => h c hc hnear

theorem Consistent.take (h : Consistent q) (i : Nat) : Consistent (q.take i) :=
  fun a ha b hb => h a (List.mem_of_mem_take ha) b (List.mem_of_mem_take hb)

/-! ## Switching -/

section

variable [DecidableEq ν]

/-- One switch after the other is set to its branch. -/
def switchAll (on : ν → Option β) (q : List (ν × β)) : ν → Option β :=
  q.foldl (fun on h => Function.update on h.1 (some h.2)) on

theorem switchAll_of_not_mem (h : c ∉ q.map Prod.fst) : switchAll on q c = on c := by
  induction q generalizing on with
  | nil => rfl
  | cons e q ih =>
    rw [List.map_cons, List.mem_cons, not_or] at h
    show switchAll (Function.update on e.1 (some e.2)) q c = on c
    rw [ih h.2, Function.update_of_ne h.1]

theorem onRoute_switchAll (hq : Consistent q) : OnRoute q (switchAll on q) := by
  induction q generalizing on with
  | nil => exact fun h hh => absurd hh List.not_mem_nil
  | cons e q ih =>
    intro h hh
    show switchAll (Function.update on e.1 (some e.2)) q h.1 = some h.2
    by_cases hmem : h.1 ∈ q.map Prod.fst
    · obtain ⟨h', hh', heq⟩ := List.mem_map.mp hmem
      cases hq h' (List.mem_cons_of_mem _ hh') h hh heq
      exact ih (fun a ha b hb => hq a (List.mem_cons_of_mem _ ha) b (List.mem_cons_of_mem _ hb)) h
        hh'
    · rw [switchAll_of_not_mem hmem]
      rcases List.mem_cons.mp hh with rfl | hh
      · exact Function.update_self ..
      · exact absurd (List.mem_map_of_mem hh) hmem

theorem Clean.switchAll (h : t.Clean q on) : t.Clean q (switchAll on q) := by
  intro c hc hnear hnot
  rw [switchAll_of_not_mem hnot]
  exact h c hc hnear hnot

end

/-! ## Reachable switches -/

section

variable [DecidableEq β]

/-- The branches on the way up are connected. `fuel` bounds the number of levels. -/
def connected (t : SwitchTree ν β) (on : ν → Option β) : Nat → ν → Bool
  | 0, c => (t.parent c).isNone
  | fuel + 1, c => match t.parent c with
    | none => true
    | some (p, b) => decide (on p = some b) && connected t on fuel p

def reachable (t : SwitchTree ν β) (on : ν → Option β) (c : ν) : Bool :=
  t.isSwitch c && t.connected on (t.level c) c

/-- The switches that are on and reachable are those of the route, on the branches it names. -/
def Selected (t : SwitchTree ν β) (q : List (ν × β)) (on : ν → Option β) : Prop :=
  ∀ c b, (t.reachable on c = true ∧ on c = some b) ↔ (c, b) ∈ q

theorem connected_root (h : t.parent c = none) (fuel : Nat) : t.connected on fuel c = true := by
  cases fuel <;> simp [connected, h]

theorem connected_succ (h : t.parent c = some (p, b)) (fuel : Nat) :
    t.connected on (fuel + 1) c = (decide (on p = some b) && t.connected on fuel p) := by
  rw [connected, h]

/-- More fuel than levels changes nothing. -/
theorem connected_eq_of_le {fuel : Nat} (h : t.level c ≤ fuel) :
    t.connected on fuel c = t.connected on (t.level c) c := by
  induction fuel using Nat.strong_induction_on generalizing c with
  | _ fuel ih =>
    cases hp : t.parent c with
    | none => rw [connected_root hp, connected_root hp]
    | some e =>
      obtain ⟨p, b⟩ := e
      have hlt := t.level_lt hp
      obtain ⟨n, hn⟩ : ∃ n, t.level c = n + 1 := ⟨t.level c - 1, by omega⟩
      obtain ⟨m, rfl⟩ : ∃ m, fuel = m + 1 := ⟨fuel - 1, by omega⟩
      rw [hn, connected_succ hp, connected_succ hp, ih m (by omega) (by omega),
        ih n (by omega) (by omega)]

theorem reachable_iff : t.reachable on c = true ↔ t.isSwitch c = true ∧
    (t.parent c = none ∨ ∃ p b, t.parent c = some (p, b) ∧ on p = some b ∧
    t.reachable on p = true) := by
  unfold reachable
  rw [Bool.and_eq_true]
  refine and_congr_right fun hc => ?_
  cases hp : t.parent c with
  | none => simp [connected_root hp]
  | some e =>
    obtain ⟨p, b⟩ := e
    have hlt := t.level_lt hp
    obtain ⟨n, hn⟩ : ∃ n, t.level c = n + 1 := ⟨t.level c - 1, by omega⟩
    rw [hn, connected_succ hp, connected_eq_of_le (by omega)]
    simp [t.isSwitch_parent hc hp]

/-- **Only what hangs on the route is reachable.** -/
theorem Clean.near_of_reachable (h : t.Clean q on) (hroute : OnRoute q on)
    (hr : t.reachable on c = true) : t.Near q c := by
  induction hn : t.level c using Nat.strong_induction_on generalizing c with
  | _ n ih =>
    rcases reachable_iff.mp hr with ⟨hc, hroot | ⟨p, b, hp, hon, hrp⟩⟩
    · exact .inl hroot
    · have hnear := ih (t.level p) (hn ▸ t.level_lt hp) hrp rfl
      exact .inr ⟨(p, b), h.mem_of_on hroute (t.isSwitch_parent hc hp) hnear hon, hp⟩

/-- **The switches of a linked route are reachable once they are on.** -/
theorem Linked.reachable (h : t.Linked q) (hroute : OnRoute q on) {e : ν × β} (he : e ∈ q) :
    t.reachable on e.1 = true := by
  obtain ⟨i, hi⟩ := List.mem_iff_getElem?.mp he
  induction i using Nat.strong_induction_on generalizing e with
  | _ i ih =>
    obtain ⟨hswitch, hnear⟩ := h i e hi
    refine reachable_iff.mpr ⟨hswitch, hnear.imp_right ?_⟩
    rintro ⟨g, hg, hp⟩
    obtain ⟨j, hj⟩ := List.mem_iff_getElem?.mp hg
    have hji : j < i := by
      by_contra hle
      simp [hle] at hj
    rw [List.getElem?_take_of_lt hji] at hj
    exact ⟨g.1, g.2, hp, hroute g (List.mem_of_getElem? hj), ih j hji (List.mem_of_getElem? hj) hj⟩

theorem selected_of_clean (hclean : t.Clean q on) (hroute : OnRoute q on) (hlinked : t.Linked q) :
    t.Selected q on := by
  intro c b
  constructor
  · rintro ⟨hr, hon⟩
    exact hclean.mem_of_on hroute (reachable_iff.mp hr).1 (hclean.near_of_reachable hroute hr) hon
  · intro hmem
    exact ⟨hlinked.reachable hroute hmem, hroute _ hmem⟩

/-- Everything that is reachable is switched off. -/
def allLinesOff (t : SwitchTree ν β) (on : ν → Option β) : ν → Option β :=
  fun c => if t.reachable on c then none else on c

/-- **Along a linked route, switching off everything leaves nothing on that hangs on it.** -/
theorem allOff_allLinesOff (hlinked : t.Linked q) (hroute : OnRoute q on) :
    t.AllOff q (t.allLinesOff on) := by
  intro c hc hnear
  refine if_pos (reachable_iff.mpr ⟨hc, hnear.imp_right ?_⟩)
  rintro ⟨g, hg, hp⟩
  exact ⟨g.1, g.2, hp, hroute g hg, hlinked.reachable hroute hg⟩

/-! ## Following a route -/

/-- **If what hangs on the route is off, a route that could be followed is linked.** -/
theorem linked_of_reachable [DecidableEq ν] (hq : Consistent q)
    (hoff : ∀ i < q.length, t.AllOff (q.take i) on)
    (hr : ∀ i h, q[i]? = some h → t.reachable (switchAll on (q.take i)) h.1 = true) :
    t.Linked q := by
  intro i h hi
  have hreach := hr i h hi
  have hclean := (hoff i (List.getElem?_eq_some_iff.mp hi).1).clean.switchAll
  exact ⟨(reachable_iff.mp hreach).1,
    hclean.near_of_reachable (onRoute_switchAll (hq.take i)) hreach⟩

end

end SwitchTree

end Infra
