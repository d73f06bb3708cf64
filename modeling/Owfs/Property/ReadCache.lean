import Owfs.Property.Local

/-!
# Reading a text through the cache

A text (`ft_ascii`, `ft_binary` and the like) is read piece by piece, with any size and offset. A
read at offset 0 looks in the cache first, and if it has to ask the device, it adds what it got:
the whole text, or as much of it as was asked for. Nothing tells a later read that the entry is
only the beginning.

If the text does not change, all reads are right as long as no read at offset 0 asks for more of
it than an earlier one did. Once one does, within the life of the entry, it is cut short.
-/

namespace Owfs.Property

open Infra Owfs.Cache Owfs.Device

/-! ## Reading -/

/-- A readable property that is one text. No such property is a simultaneous one. -/
structure TextProperty where
  sn : SerialNumber
  ft : Filetype
  directory : DirectoryName
  scalar : ft.ag = none
  text : storage ft.format = .text
  readable : ft.readable = true
  notSimultaneous : ¬ (ft.change = .simultaneousTemperature ∨ ft.change = .simultaneousVoltage)

/-- What a client asks for. -/
structure Request where
  size : Nat
  offset : Nat
deriving DecidableEq, Repr

def TextProperty.query (pr : TextProperty) (r : Request) : Query where
  sn := pr.sn
  ft := pr.ft
  extension := .elem 0
  size := r.size
  offset := r.offset
  directory := pr.directory

/-- `FS_r_given_bus`: `FS_r_local`, and then `OWQ_parse_output` for a text. -/
def fsRead (env : Env) (pr : TextProperty) (r : Request) (s : Host) : Option Bytes × Host :=
  let (parts, s) := fsRLocal env (pr.query r) s
  (parts.map fun parts =>
    if r.offset ≠ 0 ∧ r.offset ≥ fileLength pr.ft (.elem 0) then [] else parts.flatMap Part.data, s)

/-- Reads one after the other. -/
def fsReads (env : Env) (pr : TextProperty) : List Request → Host → List (Option Bytes) × Host
  | [], s => ([], s)
  | r :: rest, s =>
    let (answer, s) := fsRead env pr r s
    let (answers, s) := fsReads env pr rest s
    (answer :: answers, s)

/-- The settings and a device whose text does not change. -/
def Env.constant (g : Globals) (simultaneousTag : InternalProp) (clock : Nat → Int)
    (value : Bytes) : Env where
  g := g
  simultaneousTag := simultaneousTag
  clock := clock
  read := fun _ _ size offset => (value.drop offset).take size

/-- The text as a file: no file is longer than `suglen` says. -/
def TextProperty.content (pr : TextProperty) (value : Bytes) : Bytes := value.take pr.ft.suglen

/-- The bytes of a text that a request is about. -/
def Request.window (r : Request) (content : Bytes) : Bytes := (content.drop r.offset).take r.size

/-! ## One read -/

section

variable {g : Globals} {tag : InternalProp} {clock : Nat → Int} {value : Bytes}
  {pr : TextProperty} {s : Host} {r : Request}

theorem TextProperty.fileLength_eq (pr : TextProperty) :
    fileLength pr.ft (.elem 0) = pr.ft.suglen := by
  have htext := pr.text
  unfold fileLength
  cases hf : pr.ft.format <;> simp_all [storage]

/-- The name of the property in the cache. -/
def TextProperty.name (pr : TextProperty) : PropertyName := (pr.query ⟨0, 0⟩).name

theorem adjustFileSize_query (pr : TextProperty) (r : Request) :
    adjustFileSize (pr.query r) = pr.query ⟨min r.size (pr.ft.suglen - r.offset), r.offset⟩ := by
  have hfull : fullFileLength (pr.query r).ft (pr.query r).extension = pr.ft.suglen := by
    simp only [fullFileLength, TextProperty.query, ne_eq, reduceCtorEq, not_false_eq_true, if_true]
    exact pr.fileLength_eq
  simp only [adjustFileSize, hfull]
  by_cases hend : r.offset ≥ pr.ft.suglen
  · rw [if_pos (show (pr.query r).offset ≥ _ from hend), Nat.sub_eq_zero_of_le hend, Nat.min_zero]
    rfl
  · rw [if_neg (show ¬ (pr.query r).offset ≥ _ from hend)]
    by_cases hlong : r.size + r.offset > pr.ft.suglen
    · rw [if_pos (show (pr.query r).size + (pr.query r).offset > _ from hlong),
        Nat.min_eq_right (by omega)]
      rfl
    · rw [if_neg (show ¬ (pr.query r).size + (pr.query r).offset > _ from hlong),
        Nat.min_eq_left (by omega)]

/-- What the device puts into the buffer is what was asked for. -/
theorem take_drop_eq_window (value : Bytes) (r : Request) :
    (value.drop r.offset).take (min r.size (pr.ft.suglen - r.offset)) = r.window
    (pr.content value) := by
  rw [Request.window, TextProperty.content, List.drop_take, List.take_take]

theorem owqCacheGet_query (env : Env) (pr : TextProperty) (r : Request) (s : Host) :
    owqCacheGet env (pr.query r) s =
      if r.offset > 0 then none else cacheGet env.g (env.clock s.tick) r.size pr.name s.trees := by
  have htext : storage (pr.query r).ft.format = .text := pr.text
  have hchange : ¬ ((pr.query r).ft.change = .simultaneousTemperature ∨
      (pr.query r).ft.change = .simultaneousVoltage) := pr.notSimultaneous
  unfold owqCacheGet
  rw [if_neg (by simp [TextProperty.query]), if_neg hchange]
  simp only [htext]
  rfl

theorem owqCacheAdd_query (env : Env) (pr : TextProperty) (r : Request) (data : Bytes) (s : Host) :
    owqCacheAdd env (pr.query r) data s =
      if r.offset > 0 then s.wait 3
      else { s with trees := (cacheAdd env.g (env.clock s.tick) (env.clock (s.tick + 1))
        (env.clock (s.tick + 2)) data pr.name s.trees).2 }.wait 3 := by
  have htext : storage (pr.query r).ft.format = .text := pr.text
  unfold owqCacheAdd
  simp only [htext]
  rfl

/-- A read in terms of the cache. -/
theorem fsRead_constant (s : Host) :
    fsRead (.constant g tag clock value) pr r s =
      if min r.size (pr.ft.suglen - r.offset) = 0 then (some (r.window (pr.content value)), s)
      else if r.offset > 0 then (some (r.window (pr.content value)), s.wait 6)
      else match cacheGet g (clock s.tick) (min r.size pr.ft.suglen) pr.name s.trees with
        | some data => (some data, s.wait 2)
        | none => (some (r.window (pr.content value)),
          { s with trees := (cacheAdd g (clock (s.tick + 3)) (clock (s.tick + 4))
            (clock (s.tick + 5)) (r.window (pr.content value)) pr.name s.trees).2 }.wait 6) := by
  have hr : fsRLocal (.constant g tag clock value) (pr.query r) s =
      if min r.size (pr.ft.suglen - r.offset) = 0 then (some [], s)
      else single (fsReadOwq (.constant g tag clock value)
        (pr.query ⟨min r.size (pr.ft.suglen - r.offset), r.offset⟩) s) := by
    have hreadable : (pr.query r).ft.readable = true := pr.readable
    have hscalar : ∀ r, (pr.query r).ft.ag = none := fun _ => pr.scalar
    unfold fsRLocal
    rw [if_neg (by rw [hreadable]; simp)]
    simp only [adjustFileSize_query, hscalar]
    rfl
  unfold fsRead
  rw [hr]
  by_cases hzero : min r.size (pr.ft.suglen - r.offset) = 0
  · have hempty : r.window (pr.content value) = [] := by
      rw [← take_drop_eq_window, hzero, List.take_zero]
    simp [hzero, hempty]
  · have hin : ¬ (r.offset ≠ 0 ∧ r.offset ≥ fileLength pr.ft (.elem 0)) := by
      rw [pr.fileLength_eq]
      omega
    simp only [if_neg hzero, if_neg hin, single, Option.map_some, List.flatMap_cons,
      List.flatMap_nil, List.append_nil, fsReadOwq, owqCacheGet_query, owqCacheAdd_query,
      deviceRead]
    have hwindow : (Env.constant g tag clock value).read (s.wait 2).tick
        (pr.query ⟨min r.size (pr.ft.suglen - r.offset), r.offset⟩).extension
        (min r.size (pr.ft.suglen - r.offset)) r.offset = r.window (pr.content value) :=
      take_drop_eq_window value r
    by_cases hoff : r.offset > 0
    · simp only [if_pos hoff]
      exact Prod.ext (congrArg some hwindow) rfl
    · have hsize : pr.ft.suglen - r.offset = pr.ft.suglen := by omega
      simp only [if_neg hoff, hsize] at hwindow ⊢
      cases hget : cacheGet g (clock s.tick) (min r.size pr.ft.suglen) pr.name s.trees with
      | some data =>
        simp only [Env.constant, hget]
      | none =>
        simp only [Env.constant, hget]
        simp only [Env.constant] at hwindow
        rw [show (pr.query ⟨min r.size pr.ft.suglen, r.offset⟩).offset = r.offset from rfl,
          show (pr.query ⟨min r.size pr.ft.suglen, r.offset⟩).size =
            min r.size pr.ft.suglen from rfl,
          hwindow]
        rfl

/-! ## The entry of the text -/

/-- The entry of a property, in the tree where it is looked for. -/
def kept (pn : PropertyName) (trees : Trees) : Option TreeNode :=
  if pn.isThisPersistent then trees.persistentTree.lookup pn.key else trees.temporary.entry pn.key

theorem kept_of_cacheGet {pn : PropertyName} {trees : Trees} {now : Int} {dsize : Nat}
    {data : Bytes} (h : cacheGet g now dsize pn trees = some data) :
    ∃ tn, kept pn trees = some tn ∧ tn.data = data ∧ data.length ≤ dsize := by
  unfold cacheGet at h
  split at h
  · cases h
  · unfold kept
    split at h
    · next hp =>
      rw [if_pos hp]
      unfold Trees.getPersistent at h
      split at h
      · cases h
      · next tn hfind =>
        split at h
        · next hsize =>
          cases h
          exact ⟨tn, hfind, rfl, hsize⟩
        · cases h
    · next hp =>
      rw [if_neg hp]
      simp only at h
      split at h
      · cases h
      · unfold cacheGetCommon at h
        split at h
        · cases h
        · next tn hfind =>
          simp only at h
          split at h
          · split at h
            · next hsize =>
              cases h
              exact ⟨tn, entry_of_findForGet hfind, rfl, hsize⟩
            · cases h
          · cases h

theorem kept_of_cacheAdd {pn : PropertyName} {trees : Trees} {made now flipTime : Int}
    {data : Bytes} {tn : TreeNode}
    (h : kept pn (cacheAdd g made now flipTime data pn trees).2 = some tn) :
    kept pn trees = some tn ∨ tn.data = data := by
  unfold cacheAdd at h
  split at h
  · exact Or.inl h
  · unfold kept at h ⊢
    split at h
    · next hp =>
      rw [Trees.addPersistent, AList.lookup_insert] at h
      cases h
      exact Or.inr rfl
    · next hp =>
      simp only at h
      split at h
      · rw [if_neg hp]
        exact Or.inl h
      · rw [if_neg hp]
        rcases entry_of_cacheAddCommon h with h | ⟨-, rfl⟩
        · exact Or.inl h
        · exact Or.inr rfl

/-! ## Reads that are right -/

/-- How much of the text a read at offset 0 wants. -/
def wanted (content : Bytes) (r : Request) : Option Nat :=
  if r.offset = 0 ∧ r.size ≠ 0 then some (min r.size content.length) else none

/-- No read at offset 0 wants more than an earlier one did. -/
def NoLonger (content : Bytes) (rs : List Request) : Prop :=
  (rs.filterMap (wanted content)).Pairwise (· ≥ ·)

/-- All answers are what was asked for. -/
def Right (g : Globals) (tag : InternalProp) (clock : Nat → Int) (value : Bytes)
    (pr : TextProperty) (rs : List Request) (s : Host) : Prop :=
  (fsReads (.constant g tag clock value) pr rs s).1
    = rs.map fun r => some (r.window (pr.content value))

theorem right_cons {rest : List Request} : Right g tag clock value pr (r :: rest) s ↔
    (fsRead (.constant g tag clock value) pr r s).1 = some (r.window (pr.content value)) ∧
      Right g tag clock value pr rest (fsRead (.constant g tag clock value) pr r s).2 := by
  unfold Right
  simp only [fsReads, List.map_cons, List.cons.injEq]

theorem right_of_noLonger {rs : List Request} (hs : NoLonger (pr.content value) rs)
    (hkept : ∀ tn, kept pr.name s.trees = some tn → ∃ m, tn.data = (pr.content value).take m ∧
      ∀ w ∈ rs.filterMap (wanted (pr.content value)), w ≤ min m (pr.content value).length) :
    Right g tag clock value pr rs s := by
  induction rs generalizing s with
  | nil => rfl
  | cons r rest ih =>
    set c := pr.content value with hc
    have hrest : NoLonger c rest := by
      unfold NoLonger at hs ⊢
      rw [List.filterMap_cons] at hs
      split at hs
      · exact hs
      · exact (List.pairwise_cons.mp hs).2
    have hkept' : ∀ tn, kept pr.name s.trees = some tn → ∃ m, tn.data = c.take m ∧
        ∀ w ∈ rest.filterMap (wanted c), w ≤ min m c.length := by
      intro tn htn
      obtain ⟨m, hm, hle⟩ := hkept tn htn
      refine ⟨m, hm, fun w hw => hle w ?_⟩
      rw [List.filterMap_cons]
      split
      · exact hw
      · exact List.mem_cons_of_mem _ hw
    rw [right_cons, fsRead_constant, ← hc]
    split
    · exact ⟨rfl, ih hrest hkept'⟩
    · next hsize =>
      split
      · exact ⟨rfl, ih hrest hkept'⟩
      · next hoff =>
        have hwant : wanted c r = some (min r.size c.length) :=
          if_pos ⟨by omega, by omega⟩
        have hwindow : r.window c = c.take r.size := by
          rw [Request.window, show r.offset = 0 by omega, List.drop_zero]
        split
        · next data hget =>
          -- the entry is as long as what was wanted
          obtain ⟨tn, htn, rfl, hlen⟩ := kept_of_cacheGet hget
          obtain ⟨m, hm, hle⟩ := hkept tn htn
          have hmin := hle (min r.size c.length) (by
            rw [List.filterMap_cons_some hwant]
            exact List.mem_cons_self)
          refine ⟨?_, ih hrest hkept'⟩
          rw [hm, List.length_take] at hlen
          rw [hwindow, hm, Option.some.injEq, List.take_eq_take_iff]
          omega
        · refine ⟨rfl, ih hrest fun tn htn => ?_⟩
          rcases kept_of_cacheAdd htn with htn | htn
          · exact hkept' tn htn
          · refine ⟨r.size, htn.trans hwindow, ?_⟩
            unfold NoLonger at hs
            rw [List.filterMap_cons_some hwant] at hs
            exact (List.pairwise_cons.mp hs).1

/-! ## Reads that are cut short -/

/-- The entry of the text is its first `m` bytes, and does not expire before `deadline`. -/
def Answers (pr : TextProperty) (content : Bytes) (deadline : Int) (trees : Trees) (m : Nat) :
    Prop :=
  if pr.name.isThisPersistent then
    ∃ tn, trees.persistentTree.lookup pr.name.key = some tn ∧ tn.data = content.take m
  else ∃ tn, trees.temporary.temporaryTreeNew.lookup pr.name.key = some tn ∧
    tn.data = content.take m ∧ deadline ≤ tn.expires

theorem Answers.cacheGet {content : Bytes} {t now : Int} {trees : Trees} {m dsize : Nat}
    (h : Answers pr content t trees m) (hcached : 0 < timeOut g.timeouts pr.ft.change)
    (hlife : pr.name.isThisPersistent = true ∨ now < t) :
    cacheGet g now dsize pr.name trees
      = if min m content.length ≤ dsize then some (content.take m) else none := by
  have hdir : ¬ ((pr.name.uncachedDir || pr.name.alarmDir) = true) := by
    simp [TextProperty.name, Query.name, TextProperty.query]
  have hlen : (content.take m).length = min m content.length := List.length_take
  unfold Answers at h
  unfold Cache.cacheGet
  rw [if_neg hdir]
  by_cases hp : pr.name.isThisPersistent = true
  · rw [if_pos hp] at h ⊢
    obtain ⟨tn, hfind, hdata⟩ := h
    simp only [Trees.getPersistent, hfind, hdata, hlen, ge_iff_le]
    split <;> rfl
  · rw [if_neg hp] at h ⊢
    obtain ⟨tn, hfind, hdata, hexp⟩ := h
    have hnow := hlife.resolve_left hp
    have hget : findForGet now (timeOut g.timeouts pr.name.change) pr.name.key trees.temporary
        = some tn := by
      rw [findForGet, hfind]
    have hleft : tn.expires - now > 0 := by omega
    have hpos : ¬ timeOut g.timeouts pr.name.change ≤ 0 := not_le.mpr hcached
    simp only [hpos, if_false, cacheGetCommon, hget, hdata, hlen, hleft, if_true, ge_iff_le]
    split <;> rfl

theorem answers_cacheAdd {content : Bytes} {t made now flipTime : Int} {trees : Trees} {m : Nat}
    (hsize : g.cacheSize = 0) (hcached : 0 < timeOut g.timeouts pr.ft.change)
    (ht : t ≤ timeOut g.timeouts pr.ft.change + made) :
    Answers pr content t (cacheAdd g made now flipTime (content.take m) pr.name trees).2 m := by
  have hpos : ¬ timeOut g.timeouts pr.name.change ≤ 0 := not_le.mpr hcached
  unfold cacheAdd Answers
  rw [if_neg (show ¬ pr.name.alarmDir = true from Bool.false_ne_true)]
  by_cases hp : pr.name.isThisPersistent = true
  · simp only [hp, if_true, Trees.addPersistent, AList.lookup_insert]
    exact ⟨_, rfl, rfl⟩
  · simp only [hp, if_false, hpos, Trees.addCommon, cacheAddCommon, hsize, ne_eq, not_true_eq_false,
      false_and, Bool.false_eq_true, AList.lookup_insert]
    exact ⟨_, rfl, rfl, ht⟩

theorem tick_le_fsRead : s.tick ≤ (fsRead (.constant g tag clock value) pr r s).2.tick := by
  rw [fsRead_constant]
  split
  · exact le_rfl
  · split
    · exact Nat.le_add_right ..
    · split <;> exact Nat.le_add_right ..

theorem tick_le_fsReads {rs : List Request} :
    s.tick ≤ (fsReads (.constant g tag clock value) pr rs s).2.tick := by
  induction rs generalizing s with
  | nil => exact le_rfl
  | cons r rest ih => exact tick_le_fsRead.trans ih

/-- Nothing of the text is in the cache, or its first `m` bytes. -/
def Known (pr : TextProperty) (content : Bytes) (deadline : Int) (trees : Trees) : Option Nat → Prop
  | none => kept pr.name trees = none
  | some m => Answers pr content deadline trees m

/-- In front of a falling list goes what is not less than its first element. -/
theorem pairwise_ge_cons {a b : Nat} {l : List Nat} (hab : b ≤ a) (h : (b :: l).Pairwise (· ≥ ·)) :
    (a :: b :: l).Pairwise (· ≥ ·) := by
  refine List.pairwise_cons.mpr ⟨fun x hx => ?_, h⟩
  rcases List.mem_cons.mp hx with rfl | hx
  · exact hab
  · exact le_trans ((List.pairwise_cons.mp h).1 x hx) hab

theorem noLonger_of_right {rs : List Request} {t : Int} {known : Option Nat}
    (hsize : g.cacheSize = 0) (hcached : 0 < timeOut g.timeouts pr.ft.change)
    (hclock : Monotone clock) (ht : t ≤ timeOut g.timeouts pr.ft.change + clock s.tick)
    (hlife : pr.name.isThisPersistent = true ∨
      ∀ n ≤ (fsReads (.constant g tag clock value) pr rs s).2.tick, clock n < t)
    (hknown : Known pr (pr.content value) t s.trees known)
    (h : Right g tag clock value pr rs s) :
    ((known.map fun m => min m (pr.content value).length).toList
      ++ rs.filterMap (wanted (pr.content value))).Pairwise (· ≥ ·) := by
  induction rs generalizing s known with
  | nil =>
    cases known with
    | none => exact List.Pairwise.nil
    | some m => exact List.pairwise_singleton ..
  | cons r rest ih =>
    set c := pr.content value with hc
    obtain ⟨hr, hrest⟩ := right_cons.mp h
    have hnow : pr.name.isThisPersistent = true ∨ clock s.tick < t :=
      hlife.imp_right fun hl => hl _ tick_le_fsReads
    have hgo : ∀ known', Known pr c t (fsRead (.constant g tag clock value) pr r s).2.trees known' →
        ((known'.map fun m => min m c.length).toList ++ rest.filterMap (wanted c)).Pairwise
        (· ≥ ·) := by
      intro known' hknown'
      exact ih (ht.trans (Int.add_le_add_left (hclock tick_le_fsRead) _)) hlife hknown' hrest
    rw [fsRead_constant] at hr hgo
    by_cases hzero : min r.size (pr.ft.suglen - r.offset) = 0
    · rw [if_pos hzero] at hgo
      have hrest := hgo known hknown
      by_cases hw : r.offset = 0 ∧ r.size ≠ 0
      · -- the file is empty, and so is everything that is wanted
        have hempty : c.length = 0 := by
          rw [hc, TextProperty.content, List.length_take]
          omega
        have hall : ∀ x ∈ (known.map fun m => min m c.length).toList
            ++ (r :: rest).filterMap (wanted c), x = 0 := by
          intro x hx
          rcases List.mem_append.mp hx with hx | hx
          · obtain ⟨m, -, rfl⟩ := Option.map_eq_some_iff.mp (Option.mem_toList.mp hx)
            omega
          · obtain ⟨r', -, hr'⟩ := List.mem_filterMap.mp hx
            unfold wanted at hr'
            split at hr'
            · cases hr'
              omega
            · cases hr'
        refine List.pairwise_of_forall_mem_list fun a ha b hb => ?_
        rw [hall a ha, hall b hb]
      · have hnone : wanted c r = none := if_neg hw
        rwa [List.filterMap_cons_none hnone]
    · rw [if_neg hzero] at hr hgo
      by_cases hoff : r.offset > 0
      · rw [if_pos hoff] at hgo
        have hnone : wanted c r = none := if_neg fun hw => by omega
        rw [List.filterMap_cons_none hnone]
        exact hgo known hknown
      · rw [if_neg hoff] at hr hgo
        have hwant : wanted c r = some (min r.size c.length) := if_pos ⟨by omega, by omega⟩
        have hwindow : r.window c = c.take r.size := by
          rw [Request.window, show r.offset = 0 by omega, List.drop_zero]
        have hstored : Known pr c t (cacheAdd g (clock (s.tick + 3)) (clock (s.tick + 4))
            (clock (s.tick + 5)) (r.window c) pr.name s.trees).2 (some r.size) := by
          rw [hwindow]
          refine answers_cacheAdd hsize hcached (ht.trans (Int.add_le_add_left (hclock ?_) _))
          omega
        rw [List.filterMap_cons_some hwant]
        cases known with
        | none =>
          have hmiss : cacheGet g (clock s.tick) (min r.size pr.ft.suglen) pr.name s.trees =
              none := by
            cases hget : cacheGet g (clock s.tick) (min r.size pr.ft.suglen) pr.name s.trees with
            | none => rfl
            | some data =>
              obtain ⟨tn, htn, -⟩ := kept_of_cacheGet hget
              rw [show kept pr.name s.trees = none from hknown] at htn
              cases htn
          rw [hmiss] at hgo
          exact hgo (some r.size) hstored
        | some m =>
          rw [Answers.cacheGet hknown hcached hnow] at hr hgo
          by_cases hfits : min m c.length ≤ min r.size pr.ft.suglen
          · rw [if_pos hfits] at hr hgo
            -- the answer is the entry, so the entry is long enough
            have hlen : min m c.length = min r.size c.length := by
              rw [← List.length_take, ← List.length_take, Option.some.inj hr, hwindow]
            have hrest := hgo (some m) hknown
            simp only [Option.map_some, Option.toList_some, List.singleton_append, hlen] at hrest ⊢
            exact pairwise_ge_cons le_rfl hrest
          · rw [if_neg hfits] at hgo
            have hrest := hgo (some r.size) hstored
            have hle : c.length ≤ pr.ft.suglen := by
              rw [hc, TextProperty.content, List.length_take]
              omega
            simp only [Option.map_some, Option.toList_some, List.singleton_append] at hrest ⊢
            exact pairwise_ge_cons (by omega) hrest

/-- A text that is not cached. -/
theorem right_of_uncached {rs : List Request} (h : timeOut g.timeouts pr.ft.change ≤ 0) :
    Right g tag clock value pr rs s := by
  have hmiss : ∀ now dsize trees, cacheGet g now dsize pr.name trees = none := by
    intro now dsize trees
    have hp : ¬ pr.name.isThisPersistent = true := by
      intro hp
      have hor : (decide (pr.ft.change = .persistent) || false) = true := hp
      have hchange : pr.ft.change = .persistent := by simpa using hor
      rw [hchange] at h
      exact absurd h (by simp [timeOut])
    have hneg : timeOut g.timeouts pr.name.change ≤ 0 := h
    unfold cacheGet
    split
    · rfl
    · exact if_pos hneg
  induction rs generalizing s with
  | nil => rfl
  | cons r rest ih =>
    refine right_cons.mpr ⟨?_, ih⟩
    rw [fsRead_constant, hmiss]
    split
    · rfl
    · split <;> rfl

end

/-- The reads are made while the first entry lives, and the cache has no size limit. -/
def WithinLifetime (g : Globals) (tag : InternalProp) (clock : Nat → Int) (value : Bytes)
    (pr : TextProperty) (rs : List Request) (s : Host) : Prop :=
  g.cacheSize = 0 ∧ (pr.name.isThisPersistent = true ∨
    ∀ n ≤ (fsReads (.constant g tag clock value) pr rs s).2.tick,
      clock n < timeOut g.timeouts pr.ft.change + clock s.tick)

/-- **Reads through the cache.** All reads of a text that does not change are right, if the text is
not cached, or no read at offset 0 wants more of it than an earlier one did. Within the lifetime of
the cache, they are right only then. -/
theorem text_right_iff (g : Globals) (tag : InternalProp) (clock : Nat → Int) (value : Bytes)
    (pr : TextProperty) (rs : List Request) (s : Host) (hclock : Monotone clock)
    (hunread : kept pr.name s.trees = none) :
    (timeOut g.timeouts pr.ft.change ≤ 0 ∨ NoLonger (pr.content value) rs →
      Right g tag clock value pr rs s) ∧
    (WithinLifetime g tag clock value pr rs s → (Right g tag clock value pr rs s ↔
      timeOut g.timeouts pr.ft.change ≤ 0 ∨ NoLonger (pr.content value) rs)) := by
  have hgood : timeOut g.timeouts pr.ft.change ≤ 0 ∨ NoLonger (pr.content value) rs →
      Right g tag clock value pr rs s := by
    rintro (h | h)
    · exact right_of_uncached h
    · refine right_of_noLonger h fun tn htn => ?_
      rw [hunread] at htn
      cases htn
  refine ⟨hgood, fun ⟨hsize, hlife⟩ => ⟨fun h => ?_, hgood⟩⟩
  by_cases hcached : timeOut g.timeouts pr.ft.change ≤ 0
  · exact Or.inl hcached
  · exact Or.inr (noLonger_of_right hsize (by omega) hclock le_rfl hlife
      (show Known pr (pr.content value) _ s.trees none from hunread) h)

/-- The settings at the start. -/
def sampleGlobals : Globals := ⟨⟨15, 300, 60, 120⟩, 0⟩

/-- A page of ten bytes. -/
def sampleText : TextProperty where
  sn := .zero
  ft := { p := 0x2000, suglen := 10, ag := none, format := .ascii, change := .stable }
  directory := ⟨.zero, [], 0, false⟩
  scalar := rfl
  text := rfl
  readable := rfl
  notSimultaneous := by decide

def sampleHost : Host := { trees := { temporary := cacheOpen ⟨15, 300, 60, 120⟩ 0 } }

/-- The text, and its first four bytes. -/
theorem text_right_iff_sampleText :
    Right sampleGlobals ⟨0x3000, .volatile⟩ (fun _ => 7) [0, 1, 2, 3, 4, 5, 6, 7, 8, 9] sampleText
      [⟨10, 0⟩, ⟨4, 0⟩, ⟨5, 3⟩] sampleHost :=
  (text_right_iff sampleGlobals ⟨0x3000, .volatile⟩ (fun _ => 7) [0, 1, 2, 3, 4, 5, 6, 7, 8, 9]
    sampleText [⟨10, 0⟩, ⟨4, 0⟩, ⟨5, 3⟩] sampleHost monotone_const rfl).1 (Or.inr (by
      unfold NoLonger
      decide))

/-- The first four bytes, and then the text: it ends after four bytes. -/
theorem not_right_sampleText : ¬ ∀ (g : Globals) (tag : InternalProp) (clock : Nat → Int)
    (value : Bytes) (pr : TextProperty) (rs : List Request) (s : Host), Monotone clock →
    kept pr.name s.trees = none → WithinLifetime g tag clock value pr rs s →
    Right g tag clock value pr rs s := by
  intro h
  have hright := h sampleGlobals ⟨0x3000, .volatile⟩ (fun _ => 7) [0, 1, 2, 3, 4, 5, 6, 7, 8, 9]
    sampleText [⟨4, 0⟩, ⟨10, 0⟩] sampleHost monotone_const rfl
    ⟨rfl, Or.inr fun _ _ => show (7 : Int) < 300 + 7 by decide⟩
  revert hright
  unfold Right
  decide

end Owfs.Property
