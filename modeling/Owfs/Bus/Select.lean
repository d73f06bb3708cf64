import Owfs.Infra.SwitchTree
import Owfs.Infra.Threads
import Owfs.Cache.Operations

/-!
# Selecting a branch

A DS2409 coupler connects one of two branches, `main` and `aux`, to the line it hangs on. Before a
device behind couplers is addressed, `BUS_select` of `ow_select.c` switches on the couplers on the
way to it (`pn->bp`), after switching off whatever else may be on. To save work it remembers the
last coupler of the path it selected (`in->branch`) and does not clear again for the same one.

A command may fail at any point, and may then have been carried out nonetheless. The bus answers
the commands of a call from a list of replies.
-/

namespace Owfs.Bus

open Infra Owfs.Cache Owfs.Device

/-! ## The bus -/

/-- `enum eBranch` -/
def eBranchBad : Byte := 0xFF
def eBranchCleared : Byte := 0xFE
def eBranchMain : Byte := 0x00
def eBranchAux : Byte := 0x01

/-- The couplers of a bus, by their serial numbers. -/
abbrev Couplers := SwitchTree SerialNumber Byte

/-- How a reset or a command ends. Of a command that failed, `done` tells which couplers have
carried it out. -/
structure Reply where
  ok : Bool
  done : SerialNumber → Bool := fun _ => false

/-- The couplers, what `in->branch` remembers, and the replies to come. `path` is the path for which
`in->branch` was stored; the code does not keep it. -/
structure Line where
  on : SerialNumber → Option Byte
  branch : Ds2409Hub
  replies : List Reply := []
  path : List Ds2409Hub := []

/-- The next reply. A bus that has none is dead. -/
def Line.reply (w : Line) : Reply × Line :=
  match w.replies with
  | [] => ({ ok := false }, w)
  | r :: replies => (r, { w with replies })

/-- A coupler and its branch. -/
def hubPair (h : Ds2409Hub) : SerialNumber × Byte := (h.sn, h.branch)

/-! ## Commands -/

section

variable (tree : Couplers)

/-- `BUS_reset` -/
def busReset (w : Line) : GoodOrBad × Line :=
  let (r, w) := w.reply
  (if r.ok then .good else .bad, w)

/-- `BUS_select_branch`: "Smart-ON". A coupler that is not reachable gives no echo. -/
def busSelectBranch (bp : Ds2409Hub) (w : Line) : GoodOrBad × Line :=
  if bp.branch ≠ eBranchMain ∧ bp.branch ≠ eBranchAux then (.bad, w)
  else
    let (r, w) := w.reply
    if tree.reachable w.on bp.sn then
      let switched := { w with on := Function.update w.on bp.sn (some bp.branch) }
      if r.ok then (.good, switched)
      else (.bad, if r.done bp.sn then switched else w)
    else (.bad, w)

/-- `Turnoff`: "All lines off" for whatever is reachable. -/
def turnoff (w : Line) : GoodOrBad × Line :=
  let (r, w) := w.reply
  if r.ok then (.good, { w with on := tree.allLinesOff w.on })
  else (.bad, { w with on := fun c => if tree.reachable w.on c && r.done c then none else w.on c })

/-- The loop over the couplers of a path, which ends at the first failure. -/
def selectBranches : List Ds2409Hub → Line → GoodOrBad × Line
  | [], w => (.good, w)
  | bp :: rest, w =>
    match busSelectBranch tree bp w with
    | (.bad, w) => (.bad, w)
    | (.good, w) => selectBranches rest w

/-- A reset and the couplers of a path: `BUS_select_branched_path`, and the start of every pass of
`BUS_clear_this_path`. -/
def busSelectBranchedPath (path : List Ds2409Hub) (w : Line) : GoodOrBad × Line :=
  match busReset w with
  | (.bad, w) => (.bad, w)
  | (.good, w) => selectBranches tree path w

/-- The passes of `BUS_clear_this_path`, for the given `turnoff_level`s. -/
def clearLevels (path : List Ds2409Hub) : List Nat → Line → GoodOrBad × Line
  | [], w => (.good, w)
  | level :: levels, w =>
    match busSelectBranchedPath tree (path.take level) w with
    | (.bad, w) => (.bad, w)
    | (.good, w) => match turnoff tree w with
      | (.bad, w) => (.bad, w)
      | (.good, w) => clearLevels path levels w

/-- `BUS_clear_this_path` -/
def busClearThisPath (path : List Ds2409Hub) (w : Line) : GoodOrBad × Line :=
  match clearLevels tree path (List.range (path.length + 1)) w with
  | (.bad, w) => (.bad, w)
  -- "flag as branches cleared"
  | (.good, w) => (.good, { w with branch := { w.branch with branch := eBranchCleared } })

/-! ## `BUS_select` -/

/-- What does not change about a bus: `BusIsServer`, `Globals.one_device`, `AdapterSupports2409`,
and whether the adapter has a select routine of its own. -/
structure Adapter where
  server : Bool := false
  oneDevice : Bool := false
  supports2409 : Bool := true
  selectRoutine : Bool := false

/-- What a call is given: `pn->bp`, whether a slave is selected as well, and the replies of the
bus. -/
structure SelectCall where
  path : List Ds2409Hub
  device : Bool
  replies : List Reply

/-- A command that changes no coupler: `BUS_select_device`, `BUS_Skip_Rom`, a select routine. -/
def otherCommand (w : Line) : GoodOrBad × Line :=
  let (r, w) := w.reply
  (if r.ok then .good else .bad, w)

/-- The end of `BUS_select`: the path, then the slave. -/
def selectPathAndDevice (c : SelectCall) (w : Line) : GoodOrBad × Line :=
  match busSelectBranchedPath tree c.path w with
  -- "Mark this branch as needing a reset"
  | (.bad, w) => (.bad, { w with branch := { w.branch with branch := eBranchBad } })
  | (.good, w) => if c.device then otherCommand w else (.good, w)

/-- "different path": the last coupler of the path is not the one that is remembered. -/
def differentPath (last : Ds2409Hub) (w : Line) : Bool :=
  w.branch.sn != last.sn || w.branch.branch != last.branch

/-- "Load the branch into the "last branch" space to ease addressing next time" -/
def loadBranch (last : Ds2409Hub) (path : List Ds2409Hub) (w : Line) : Line :=
  { w with branch := last, path }

/-- `BUS_select` -/
def busSelect (adapter : Adapter) (c : SelectCall) (w : Line) : GoodOrBad × Line :=
  if adapter.server then (.bad, w)
  else if adapter.oneDevice then otherCommand w
  else if c.path ≠ [] ∧ ¬ adapter.supports2409 then (.bad, w)
  else if adapter.selectRoutine then otherCommand w
  else match c.path.getLast? with
    | none =>
      if w.branch.branch ≠ eBranchCleared then
        match busClearThisPath tree [] w with
        | (.bad, w) => (.bad, w)
        | (.good, w) => selectPathAndDevice tree c w
      else selectPathAndDevice tree c w
    | some last =>
      if differentPath last w then
        -- the result of the clearing is not looked at
        selectPathAndDevice tree c (loadBranch last c.path (busClearThisPath tree c.path w).2)
      else selectPathAndDevice tree c w

end

/-! ## What the commands do -/

variable {tree : Couplers} {w w' : Line}

/-- Only couplers and replies change. -/
def Line.SameMemory (w' w : Line) : Prop := w'.branch = w.branch ∧ w'.path = w.path

theorem Line.SameMemory.trans {w'' : Line} (h : w''.SameMemory w') (h' : w'.SameMemory w) :
    w''.SameMemory w := ⟨h.1.trans h'.1, h.2.trans h'.2⟩

theorem reply_frame (w : Line) : w.reply.2.on = w.on ∧ w.reply.2.SameMemory w := by
  unfold Line.reply
  split <;> exact ⟨rfl, rfl, rfl⟩

theorem busReset_frame (w : Line) : (busReset w).2.on = w.on ∧ (busReset w).2.SameMemory w :=
  reply_frame w

theorem otherCommand_frame (w : Line) :
    (otherCommand w).2.on = w.on ∧ (otherCommand w).2.SameMemory w :=
  reply_frame w

/-- A coupler that answered was reachable, and is on. -/
theorem busSelectBranch_good {bp : Ds2409Hub} (h : busSelectBranch tree bp w = (.good, w')) :
    (bp.branch = eBranchMain ∨ bp.branch = eBranchAux) ∧ tree.reachable w.on bp.sn = true ∧
      w'.on = Function.update w.on bp.sn (some bp.branch) ∧ w'.SameMemory w := by
  have hframe := reply_frame w
  unfold busSelectBranch at h
  split at h
  · cases h
  rename_i hlegal
  dsimp only at h
  split at h
  · rename_i hr
    split at h
    · cases h
      refine ⟨by tauto, hframe.1 ▸ hr, ?_, hframe.2⟩
      show Function.update w.reply.2.on _ _ = _
      rw [hframe.1]
    · cases h
  · cases h

theorem selectBranches_good {path : List Ds2409Hub} (h : selectBranches tree path w = (.good, w')) :
    (∀ bp ∈ path, bp.branch = eBranchMain ∨ bp.branch = eBranchAux) ∧
      w'.on = SwitchTree.switchAll w.on (path.map hubPair) ∧ w'.SameMemory w ∧
      ∀ i e, (path.map hubPair)[i]? = some e →
        tree.reachable (SwitchTree.switchAll w.on ((path.map hubPair).take i)) e.1 = true := by
  induction path generalizing w with
  | nil =>
    cases h
    exact ⟨fun _ hb => absurd hb List.not_mem_nil, rfl, ⟨rfl, rfl⟩, fun _ _ he => by simp at he⟩
  | cons bp path ih =>
    rw [selectBranches] at h
    split at h
    · cases h
    rename_i w₁ hbranch
    obtain ⟨hlegal, hreach, hon, hmem⟩ := busSelectBranch_good hbranch
    obtain ⟨hlegal', hon', hmem', hreach'⟩ := ih h
    refine ⟨?_, ?_, hmem'.trans hmem, ?_⟩
    · rintro b hb
      rcases List.mem_cons.mp hb with rfl | hb
      · exact hlegal
      · exact hlegal' b hb
    · rw [hon', hon]
      rfl
    · intro i e he
      cases i with
      | zero =>
        cases he
        exact hreach
      | succ i =>
        have := hreach' i e he
        rw [hon] at this
        exact this

theorem busSelectBranchedPath_good {path : List Ds2409Hub}
    (h : busSelectBranchedPath tree path w = (.good, w')) :
    (∀ bp ∈ path, bp.branch = eBranchMain ∨ bp.branch = eBranchAux) ∧
      w'.on = SwitchTree.switchAll w.on (path.map hubPair) ∧ w'.SameMemory w ∧
      ∀ i e, (path.map hubPair)[i]? = some e →
        tree.reachable (SwitchTree.switchAll w.on ((path.map hubPair).take i)) e.1 = true := by
  have hframe := busReset_frame w
  rw [busSelectBranchedPath] at h
  split at h
  · cases h
  rename_i w₁ hreset
  rw [hreset] at hframe
  obtain ⟨hlegal, hon, hmem, hreach⟩ := selectBranches_good h
  dsimp only at hframe
  rw [hframe.1] at hon hreach
  exact ⟨hlegal, hon, hmem.trans hframe.2, hreach⟩

theorem turnoff_good (h : turnoff tree w = (.good, w')) :
    w'.on = tree.allLinesOff w.on ∧ w'.SameMemory w := by
  have hframe := reply_frame w
  unfold turnoff at h
  dsimp only at h
  split at h
  · cases h
    refine ⟨?_, hframe.2⟩
    show tree.allLinesOff w.reply.2.on = _
    rw [hframe.1]
  · cases h

/-- However it ends, it switches nothing on. -/
theorem turnoff_frame (w : Line) :
    (∀ c, (turnoff tree w).2.on c = w.on c ∨ (turnoff tree w).2.on c = none) ∧
      (turnoff tree w).2.SameMemory w := by
  have hframe := reply_frame w
  unfold turnoff
  dsimp only
  split
  · refine ⟨fun c => ?_, hframe.2⟩
    show tree.allLinesOff w.reply.2.on c = _ ∨ tree.allLinesOff w.reply.2.on c = none
    unfold SwitchTree.allLinesOff
    rw [hframe.1]
    split
    · exact .inr rfl
    · exact .inl rfl
  · refine ⟨fun c => ?_, hframe.2⟩
    dsimp only
    rw [hframe.1]
    split
    · exact .inr rfl
    · exact .inl rfl

/-! ## Clearing -/

/-- **Every pass clears one level more.** The passes from `level` on, after those before it. -/
theorem clearLevels_good {path : List Ds2409Hub} (hpath : SwitchTree.Consistent (path.map hubPair))
    {level n : Nat} (hn : level + n = path.length + 1)
    (hoff : level = 0 ∨ tree.AllOff ((path.map hubPair).take (level - 1)) w.on)
    (h : clearLevels tree path (List.range' level n) w = (.good, w')) :
    tree.AllOff (path.map hubPair) w'.on ∧ w'.SameMemory w := by
  induction n generalizing level w with
  | zero =>
    cases h
    rcases hoff with rfl | hoff
    · omega
    · rw [List.take_of_length_le (by simp; omega)] at hoff
      exact ⟨hoff, rfl, rfl⟩
  | succ n ih =>
    rw [List.range'_succ, clearLevels] at h
    split at h
    · cases h
    rename_i w₁ hsel
    split at h
    · cases h
    rename_i w₂ hturn
    obtain ⟨-, hon, hmem, hreach⟩ := busSelectBranchedPath_good hsel
    obtain ⟨hon₂, hmem₂⟩ := turnoff_good hturn
    rw [List.map_take] at hon hreach
    -- the couplers before this level could be reached only along the path
    have hlinked : tree.Linked ((path.map hubPair).take level) := by
      refine SwitchTree.linked_of_reachable (hpath.take level) ?_ hreach
      intro i hi
      rcases hoff with rfl | hoff
      · simp at hi
      · refine hoff.mono ?_
        rw [List.take_take]
        rw [List.length_take] at hi
        exact (List.take_prefix_take_left (by omega)).subset
    have hroute : SwitchTree.OnRoute ((path.map hubPair).take level) w₁.on :=
      hon ▸ SwitchTree.onRoute_switchAll (hpath.take level)
    have hnext : tree.AllOff ((path.map hubPair).take (level + 1 - 1)) w₂.on :=
      hon₂ ▸ SwitchTree.allOff_allLinesOff hlinked hroute
    obtain ⟨hall, hmem'⟩ := ih (by omega) (.inr hnext) h
    exact ⟨hall, hmem'.trans (hmem₂.trans hmem)⟩

/-- **After a clearing that succeeded nothing is on that hangs on the path.** -/
theorem busClearThisPath_good {path : List Ds2409Hub}
    (hpath : SwitchTree.Consistent (path.map hubPair))
    (h : busClearThisPath tree path w = (.good, w')) :
    tree.AllOff (path.map hubPair) w'.on ∧ w'.branch.branch = eBranchCleared ∧
      w'.path = w.path := by
  rw [busClearThisPath] at h
  split at h
  · cases h
  rename_i w₁ hclear
  cases h
  rw [List.range_eq_range'] at hclear
  obtain ⟨hall, hmem⟩ := clearLevels_good hpath (by omega) (.inl rfl) hclear
  exact ⟨hall, rfl, hmem.2⟩

/-- Clearing the root directory switches couplers off, and nothing else. -/
theorem busClearThisPath_root_bad (h : busClearThisPath tree [] w = (.bad, w')) :
    (∀ c, w'.on c = w.on c ∨ w'.on c = none) ∧ w'.SameMemory w := by
  have hframe := busReset_frame w
  rw [busClearThisPath] at h
  simp only [List.length_nil, Nat.zero_add, List.range_one, clearLevels, List.take_nil,
    busSelectBranchedPath, selectBranches] at h
  cases hreset : busReset w with
  | mk ret w₁ =>
    rw [hreset] at hframe h
    cases ret with
    | bad =>
      cases h
      exact ⟨fun c => .inl (congrFun hframe.1 c), hframe.2⟩
    | good =>
      have hturn : (∀ c, (turnoff tree w₁).2.on c = w₁.on c ∨ (turnoff tree w₁).2.on c = none) ∧
          (turnoff tree w₁).2.SameMemory w₁ := turnoff_frame w₁
      dsimp only at h hframe
      cases hoff : turnoff tree w₁ with
      | mk ret w₂ =>
        rw [hoff] at hturn h
        cases ret with
        | good => cases h
        | bad =>
          cases h
          rw [← hframe.1]
          exact ⟨hturn.1, hturn.2.trans hframe.2⟩

/-! ## What is remembered -/

/-- What `in->branch` stands for. -/
structure Remembers (tree : Couplers) (w : Line) : Prop where
  cleared : w.branch.branch = eBranchCleared → tree.Clean [] w.on
  stored : w.branch.branch = eBranchMain ∨ w.branch.branch = eBranchAux →
    tree.Clean (w.path.map hubPair) w.on ∧ tree.Linked (w.path.map hubPair) ∧
      SwitchTree.Consistent (w.path.map hubPair)

theorem Remembers.of_bad (h : w.branch.branch = eBranchBad) : Remembers tree w where
  cleared := fun h' => absurd (h.symm.trans h') (by decide)
  stored := fun h' => absurd h' (by rw [h]; decide)

/-- Couplers that go off do no harm. -/
theorem Remembers.of_off (h : Remembers tree w) (hoff : ∀ c, w'.on c = w.on c ∨ w'.on c = none)
    (hmem : w'.SameMemory w) : Remembers tree w' := by
  have hclean : ∀ {q}, tree.Clean q w.on → tree.Clean q w'.on := by
    intro q hq c hc hnear hnot
    rcases hoff c with heq | hnone
    · rw [heq]
      exact hq c hc hnear hnot
    · exact hnone
  refine ⟨fun hb => hclean (h.cleared (hmem.1 ▸ hb)), fun hb => ?_⟩
  rw [hmem.1] at hb
  rw [hmem.2]
  obtain ⟨hq, hrest⟩ := h.stored hb
  exact ⟨hclean hq, hrest⟩

/-- A path that leads to nothing else and is followed to its end. -/
theorem selectPathAndDevice_spec {c : SelectCall}
    (hpath : SwitchTree.Consistent (c.path.map hubPair))
    (hclean : tree.Clean (c.path.map hubPair) w.on)
    (hlinked : (∀ i e, (c.path.map hubPair)[i]? = some e →
      tree.reachable (SwitchTree.switchAll w.on ((c.path.map hubPair).take i)) e.1 = true) →
        tree.Linked (c.path.map hubPair))
    (hmem : w.path = c.path ∧ w.branch.branch ≠ eBranchCleared ∨
      c.path = [] ∧ w.branch.branch = eBranchCleared)
    {ret : GoodOrBad} (h : selectPathAndDevice tree c w = (ret, w')) :
    Remembers tree w' ∧ (ret = .good → tree.Selected (c.path.map hubPair) w'.on) := by
  rw [selectPathAndDevice] at h
  split at h
  · cases h
    exact ⟨.of_bad rfl, fun hret => GoodOrBad.noConfusion hret⟩
  rename_i w₁ hsel
  obtain ⟨hlegal, hon, hsame, hreach⟩ := busSelectBranchedPath_good hsel
  have hclean₁ : tree.Clean (c.path.map hubPair) w₁.on := hon ▸ hclean.switchAll
  have hroute₁ : SwitchTree.OnRoute (c.path.map hubPair) w₁.on :=
    hon ▸ SwitchTree.onRoute_switchAll hpath
  have hrem : Remembers tree w₁ := by
    rcases hmem with ⟨hpath', hbranch⟩ | ⟨hnil, hbranch⟩
    · refine ⟨fun hb => absurd (hsame.1 ▸ hb) hbranch, fun _ => ?_⟩
      rw [hsame.2, hpath']
      exact ⟨hclean₁, hlinked hreach, hpath⟩
    · refine ⟨fun _ => ?_, fun hb => ?_⟩
      · rw [hnil] at hclean₁
        exact hclean₁
      · rw [hsame.1, hbranch] at hb
        exact absurd hb (by decide)
  have hselected := SwitchTree.selected_of_clean hclean₁ hroute₁ (hlinked hreach)
  split at h
  · have hframe := otherCommand_frame w₁
    rw [h] at hframe
    exact ⟨hrem.of_off (fun c => .inl (congrFun hframe.1 c)) hframe.2, fun _ =>
      hframe.1 ▸ hselected⟩
  · cases h
    exact ⟨hrem, fun _ => hselected⟩

/-! ## Runs -/

/-- The state after a call, with its result and the path it was given. -/
structure Selection where
  line : Line
  last : Option (GoodOrBad × List Ds2409Hub) := none

/-- A call of `BUS_select` as a step of a run. -/
def selectStep (adapter : Adapter) (tree : Couplers) (s : Selection) (c : SelectCall) :
    Option Selection :=
  let (ret, line) := busSelect tree adapter c { s.line with replies := c.replies }
  some ⟨line, some (ret, c.path)⟩

/-- A new connection: "Flag first pass as need to clear all branches". The couplers are as they
are. -/
def Selection.start (on : SerialNumber → Option Byte) : Selection where
  line := { on, branch := ⟨.zero, eBranchBad⟩ }

/-- Whenever the last call was successful, the couplers on its path are on, and no other that can be
reached. -/
def Selection.Right (tree : Couplers) (s : Selection) : Prop :=
  ∀ path, s.last = some (.good, path) → tree.Selected (path.map hubPair) s.line.on

/-- What the code relies on. No coupler is to connect two branches. A call that does not clear,
because its last coupler is the one remembered, has the very path for which that was stored. A
clearing for a branch succeeds, or else the selection after it fails. -/
def Safe (adapter : Adapter) (tree : Couplers) (w : Line) (c : SelectCall) : Prop :=
  adapter.oneDevice = false ∧ adapter.selectRoutine = false ∧
    SwitchTree.Consistent (c.path.map hubPair) ∧
    ∀ last, c.path.getLast? = some last →
      if differentPath last w then
        (busClearThisPath tree c.path w).1 = .good ∨
          (busSelectBranchedPath tree c.path
            (loadBranch last c.path (busClearThisPath tree c.path w).2)).1 = .bad
      else c.path = w.path

theorem selectPathAndDevice_bad {c : SelectCall}
    (h : (busSelectBranchedPath tree c.path w).1 = .bad) :
    (selectPathAndDevice tree c w).1 = .bad ∧
      (selectPathAndDevice tree c w).2.branch.branch = eBranchBad := by
  rw [selectPathAndDevice]
  split
  · exact ⟨rfl, rfl⟩
  · rename_i hsel
    rw [hsel] at h
    cases h

theorem consistent_nil : SwitchTree.Consistent ([] : List (SerialNumber × Byte)) :=
  fun _ h => absurd h List.not_mem_nil

/-- A call for the root directory. -/
theorem busSelect_root {c : SelectCall} (hnil : c.path = []) (h : Remembers tree w)
    {ret : GoodOrBad} (hcleared : w.branch.branch = eBranchCleared)
    (hcall : selectPathAndDevice tree c w = (ret, w')) :
    Remembers tree w' ∧ (ret = .good → tree.Selected (c.path.map hubPair) w'.on) := by
  refine selectPathAndDevice_spec ?_ ?_ ?_ (.inr ⟨hnil, hcleared⟩) hcall
  · rw [hnil]
    exact consistent_nil
  · rw [hnil]
    exact h.cleared hcleared
  · rw [hnil]
    intro _ i e he
    simp at he

/-- "Calling illegal branch path" -/
theorem busSelect_illegal {c : SelectCall} {last : Ds2409Hub} (hgl : c.path.getLast? = some last)
    (hlegal : ¬ (last.branch = eBranchMain ∨ last.branch = eBranchAux)) {ret : GoodOrBad}
    (hcall : selectPathAndDevice tree c w = (ret, w')) :
    Remembers tree w' ∧ (ret = .good → tree.Selected (c.path.map hubPair) w'.on) := by
  have hbad : (busSelectBranchedPath tree c.path w).1 = .bad := by
    cases hsel : busSelectBranchedPath tree c.path w with
    | mk ret w₁ =>
      cases ret with
      | bad => rfl
      | good =>
        have hgood := (busSelectBranchedPath_good hsel).1 last (List.mem_of_getLast? hgl)
        exact absurd hgood hlegal
  obtain ⟨hret, hbranch⟩ := selectPathAndDevice_bad hbad
  rw [hcall] at hret hbranch
  exact ⟨.of_bad hbranch, fun hgood => by cases hret.symm.trans hgood⟩

/-- **One call keeps what is remembered true, and a successful one selects its path.** -/
theorem busSelect_spec {adapter : Adapter} {c : SelectCall} (h : Remembers tree w)
    (hsafe : Safe adapter tree w c) {ret : GoodOrBad}
    (hcall : busSelect tree adapter c w = (ret, w')) :
    Remembers tree w' ∧ (ret = .good → tree.Selected (c.path.map hubPair) w'.on) := by
  obtain ⟨hone, hroutine, hpath, hlast⟩ := hsafe
  unfold busSelect at hcall
  rw [hone, hroutine] at hcall
  split at hcall
  · cases hcall
    exact ⟨h, fun hret => GoodOrBad.noConfusion hret⟩
  rw [if_neg Bool.false_ne_true] at hcall
  split at hcall
  · cases hcall
    exact ⟨h, fun hret => GoodOrBad.noConfusion hret⟩
  rw [if_neg Bool.false_ne_true] at hcall
  cases hgl : c.path.getLast? with
  | none =>
    have hnil := List.getLast?_eq_none_iff.mp hgl
    rw [hgl] at hcall
    dsimp only at hcall
    split at hcall
    · split at hcall
      · rename_i w₁ hclear
        cases hcall
        obtain ⟨hoff, hmem⟩ := busClearThisPath_root_bad hclear
        exact ⟨h.of_off hoff hmem, fun hret => GoodOrBad.noConfusion hret⟩
      · rename_i w₁ hclear
        have hroot : SwitchTree.Consistent (([] : List Ds2409Hub).map hubPair) := consistent_nil
        obtain ⟨hoff, hbranch, -⟩ := busClearThisPath_good hroot hclear
        refine busSelect_root hnil ⟨fun _ => hoff.clean, fun hb => ?_⟩ hbranch hcall
        rw [hbranch] at hb
        exact absurd hb (by decide)
    · rename_i hcleared
      exact busSelect_root hnil h (not_not.mp hcleared) hcall
  | some last =>
    have hcond := hlast last hgl
    rw [hgl] at hcall
    dsimp only at hcall
    split at hcall
    · rename_i hdiff
      rw [if_pos hdiff] at hcond
      rcases hcond with hclear | hbad
      · obtain ⟨hoff, -, -⟩ := busClearThisPath_good hpath (Prod.ext hclear rfl)
        by_cases hlegal : last.branch = eBranchMain ∨ last.branch = eBranchAux
        · refine selectPathAndDevice_spec
            (w := loadBranch last c.path (busClearThisPath tree c.path w).2)
            hpath hoff.clean ?_ (.inl ⟨rfl, ?_⟩) hcall
          · exact SwitchTree.linked_of_reachable hpath fun i _ => hoff.mono (List.take_subset i _)
          · show last.branch ≠ eBranchCleared
            rcases hlegal with hb | hb <;> (rw [hb]; decide)
        · exact busSelect_illegal hgl hlegal hcall
      · obtain ⟨hret, hbranch⟩ := selectPathAndDevice_bad hbad
        rw [hcall] at hret hbranch
        exact ⟨.of_bad hbranch, fun hgood => by cases hret.symm.trans hgood⟩
    · rename_i hsame
      rw [if_neg hsame] at hcond
      by_cases hlegal : last.branch = eBranchMain ∨ last.branch = eBranchAux
      · have hbranch : w.branch.branch = last.branch := by
          simp only [differentPath, Bool.or_eq_true, bne_iff_ne, ne_eq, not_or, not_not] at hsame
          exact hsame.2
        obtain ⟨hclean, hlinked, -⟩ := h.stored (hbranch ▸ hlegal)
        rw [← hcond] at hclean hlinked
        refine selectPathAndDevice_spec hpath hclean (fun _ => hlinked) (.inl ⟨hcond.symm, ?_⟩)
          hcall
        rw [hbranch]
        rcases hlegal with hb | hb <;> (rw [hb]; decide)
      · exact busSelect_illegal hgl hlegal hcall

theorem Remembers.replies (h : Remembers tree w) (replies : List Reply) :
    Remembers tree { w with replies } := ⟨h.cleared, h.stored⟩

/-- **In every run whose calls are safe, a successful call has selected exactly its path.** -/
theorem right_throughout (adapter : Adapter) (tree : Couplers) (on : SerialNumber → Option Byte)
    (calls : List SelectCall)
    (h : EachStep (selectStep adapter tree)
      (fun s c => Safe adapter tree { s.line with replies := c.replies } c) (.start on) calls) :
    Throughout (selectStep adapter tree) (Selection.Right tree) (.start on) calls := by
  refine throughout_of_eachStep (I := fun s => Remembers tree s.line ∧ s.Right tree) ?_ ?_ ⟨?_, ?_⟩
    h
  · exact fun hinv => hinv.2
  · intro s c s' hinv hstep hsafe
    cases hcall : busSelect tree adapter c { s.line with replies := c.replies } with
    | mk ret line =>
      obtain ⟨hrem, hselected⟩ := busSelect_spec (hinv.1.replies c.replies) hsafe hcall
      simp only [selectStep, hcall, Option.some.injEq] at hstep
      cases hstep
      refine ⟨hrem, fun path hlast => ?_⟩
      cases hlast
      exact hselected rfl
  · exact .of_bad rfl
  · exact fun path hlast => by cases hlast

/-- Two couplers, both at the root. -/
def sampleA : SerialNumber := ⟨[0x1F, 0x0A, 0, 0, 0, 0, 0, 0], rfl⟩
def sampleB : SerialNumber := ⟨[0x1F, 0x0B, 0, 0, 0, 0, 0, 0], rfl⟩

def sampleTree : Couplers where
  isSwitch := fun c => c == sampleA || c == sampleB
  parent := fun _ => none
  level := fun _ => 0
  level_lt := fun h => by cases h
  isSwitch_parent := fun _ h => by cases h

/-- The branch `main` of one of them. -/
def sampleCall (sn : SerialNumber) (replies : List Bool) : SelectCall where
  path := [⟨sn, eBranchMain⟩]
  device := false
  replies := replies.map fun ok => { ok }

theorem right_throughout_sampleTree :
    Throughout (selectStep {} sampleTree) (Selection.Right sampleTree) (.start fun _ => none)
      [sampleCall sampleB (List.replicate 7 true), sampleCall sampleA (List.replicate 7 true)] := by
  refine right_throughout {} sampleTree _ _ ?_
  have hpath : ∀ sn replies, SwitchTree.Consistent ((sampleCall sn replies).path.map hubPair) := by
    intro sn replies e he e' he' _
    rw [List.mem_singleton.mp he, List.mem_singleton.mp he']
  intro s₁ h₁
  refine ⟨⟨rfl, rfl, hpath _ _, ?_⟩, ?_⟩
  · intro last hlast
    cases hlast
    decide
  intro s₂ h₂
  cases h₁
  refine ⟨⟨rfl, rfl, hpath _ _, ?_⟩, trivial⟩
  intro last hlast
  cases hlast
  decide

/-- The reset with which the clearing starts fails, and the coupler of the call before stays on. -/
theorem not_right_sampleTree :
    ¬ Throughout (selectStep {} sampleTree) (Selection.Right sampleTree) (.start fun _ => none)
      [sampleCall sampleB (List.replicate 7 true), sampleCall sampleA [false, true, true]] := by
  intro h
  have hright := (h.2 _ rfl).2 _ rfl
  have hselected := hright [⟨sampleA, eBranchMain⟩] rfl
  have hmem := (hselected sampleB eBranchMain).mp ⟨by decide, by decide⟩
  exact absurd hmem (by decide)

end Owfs.Bus
