import Owfs.Path.ToServer

/-!
# Which paths are forwarded as they should be

The server should get the path without its bus, and with the number of a device in place of each
alias that is known here. It does when the bus is the first segment of the path, with nothing after
its number, and when no other segment before an alias has the same name.

A path that was once rewritten in the wrong way stays wrong, whatever the segments after it are.
-/

namespace Owfs.Path

open Infra Owfs.Device Owfs.Alias

def Role.forward (segment : Bytes) : Role → List Bytes
  | .plain => [segment]
  | .bus => []
  | .known sn => [digits sn]

def forwarded (rs : List (Bytes × Role)) : List Bytes := rs.flatMap fun r => r.2.forward r.1

/-- Whether one segment is forwarded as it should be, by what is before and behind it. -/
def Passes (before : List (Bytes × Role)) (segment : Bytes) (role : Role)
    (after : List (Bytes × Role)) : Prop :=
  match role with
  | .plain => True
  -- nothing is before the bus, and there is only its number in the segment
  | .bus => before = [] ∧ (segment.drop 4).all isDigit = true
  -- nothing before the alias has its name, and the path does not get too long
  | .known _ => (∀ r ∈ before, r.2 = .plain → r.1 ≠ segment) ∧
    (separated (chr '/') (forwarded before ++ segment :: after.map Prod.fst)).length + 14 -
    segment.length ≤ pathMax

/-- The paths that are forwarded as they should be. -/
def Forwardable (rs : List (Bytes × Role)) : Prop :=
  ∀ before segment role after, rs = before ++ (segment, role) :: after →
    Passes before segment role after

/-- The same, segment by segment. -/
def ForwardableFrom : List (Bytes × Role) → List (Bytes × Role) → Prop
  | _, [] => True
  | before, r :: rs => Passes before r.1 r.2 rs ∧ ForwardableFrom (before ++ [r]) rs

theorem forwardableFrom_iff (rs before : List (Bytes × Role)) : ForwardableFrom before rs ↔
    ∀ rs₁ segment role after, rs = rs₁ ++ (segment, role) :: after →
    Passes (before ++ rs₁) segment role after := by
  induction rs generalizing before with
  | nil => exact ⟨fun _ rs₁ _ _ _ h => absurd h (by simp), fun _ => trivial⟩
  | cons r rs ih =>
    rw [ForwardableFrom, ih]
    constructor
    · rintro ⟨hr, hrs⟩ rs₁ segment role after h
      cases rs₁ with
      | nil =>
        cases h
        rwa [List.append_nil]
      | cons r' rs₁ =>
        rw [List.cons_append, List.cons.injEq] at h
        obtain ⟨rfl, h⟩ := h
        have hlater := hrs rs₁ segment role after h
        rwa [List.append_assoc] at hlater
    · intro h
      refine ⟨?_, ?_⟩
      · have hfirst := h [] r.1 r.2 rs rfl
        rwa [List.append_nil] at hfirst
      · intro rs₁ segment role after hrs
        have hlater := h (r :: rs₁) segment role after (by rw [hrs, List.cons_append])
        rwa [List.append_assoc]

theorem forwarded_append (rs rs' : List (Bytes × Role)) :
    forwarded (rs ++ rs') = forwarded rs ++ forwarded rs' :=
  List.flatMap_append

theorem forwarded_cons (r : Bytes × Role) (rs : List (Bytes × Role)) :
    forwarded (r :: rs) = r.2.forward r.1 ++ forwarded rs :=
  List.flatMap_cons

/-! ## Names and numbers -/

/-- Whether a segment is not the number of a device. -/
def isName (segment : Bytes) : Bool := parseSerialNumber segment == .notSn

theorem isName_digits (sn : SerialNumber) : isName (digits sn) = false := by
  have hlen : (sn.bytes.take 7).length = 7 := by rw [List.length_take, sn.length_bytes]; rfl
  rw [digits]
  generalize sn.bytes.take 7 = bytes at hlen
  obtain ⟨family, id, rfl⟩ := List.exists_cons_of_length_eq_add_one hlen
  rw [List.length_cons, Nat.succ.injEq] at hlen
  have htext : bytes2string (family :: id) = (nameText family id hlen false false none).text := by
    simp [SnText.text, nameText, dotText, bytes2string]
  rw [isName, htext, parseSerialNumber_text]
  split <;> rfl

theorem digits_ne_nil (sn : SerialNumber) : digits sn ≠ [] := by
  intro h
  have hname := isName_digits sn
  rw [h] at hname
  exact absurd hname (by decide)

theorem ne_digits {segment : Bytes} (h : isName segment = true) (sn : SerialNumber) :
    digits sn ≠ segment := by
  rintro rfl
  rw [isName_digits] at h
  cases h

/-- A name is forwarded only where it is no alias. -/
theorem mem_forwarded_iff {segment : Bytes} (h : isName segment = true) (rs : List (Bytes × Role)) :
    segment ∈ forwarded rs ↔ ∃ r ∈ rs, r.2 = .plain ∧ r.1 = segment := by
  rw [forwarded, List.mem_flatMap]
  refine exists_congr fun r => and_congr_right fun _ => ?_
  cases hr : r.2 with
  | plain => simp [Role.forward, eq_comm]
  | bus => simp [Role.forward]
  | known sn => simp [Role.forward, (ne_digits h sn).symm]

/-- At most one name is lost. -/
theorem countP_le_replace (xs : List Bytes) (segment new : Bytes) :
    xs.countP isName ≤ (xs.replace segment new).countP isName + 1 := by
  induction xs with
  | nil => exact Nat.zero_le _
  | cons x xs ih =>
    rw [List.replace_cons]
    split
    · rw [List.countP_cons, List.countP_cons]
      split <;> omega
    · rw [List.countP_cons, List.countP_cons]
      omega

/-! ## Paths that stay wrong -/

/-- A path that cannot become right any more, by the segments that it should have so far. -/
inductive Spoilt (served xs : List Bytes) (rs : List (Bytes × Role)) : Prop where
  /-- There is a segment too many. -/
  | longer (hlen : xs.length = served.length + rs.length + 1) (hhead : xs.head? ≠ some [])
  /-- There is a name too many. -/
  | name (hlen : xs.length = served.length + rs.length)
      (hname : (served ++ rs.map Prod.fst).countP isName < xs.countP isName)
  /-- There is a number in place of a name. -/
  | number {j : Nat} {x y : Bytes} (hserved : served[j]? = some x) (hxs : xs[j]? = some y)
      (hx : isName x = true)
      (hy : isName y = false)

section

variable {served xs : List Bytes} {segment : Bytes} {rs : List (Bytes × Role)}

theorem Spoilt.plain (h : Spoilt served xs ((segment, .plain) :: rs)) :
    Spoilt (served ++ [segment]) xs rs := by
  cases h with
  | longer hlen hhead =>
    refine .longer ?_ hhead
    rw [hlen, List.length_cons, List.length_append, List.length_singleton]
    omega
  | name hlen hname =>
    refine .name ?_ ?_
    · rw [hlen, List.length_cons, List.length_append, List.length_singleton]
      omega
    · rwa [List.append_assoc]
  | number hserved hxs hx hy =>
    exact .number (List.getElem?_append_left (List.getElem?_eq_some_iff.mp hserved).1 ▸ hserved) hxs
      hx hy

theorem Spoilt.known {sn : SerialNumber} (hsegment : isName segment = true)
    (h : Spoilt served xs ((segment, .known sn) :: rs)) :
    Spoilt (served ++ [digits sn]) xs rs ∧
      Spoilt (served ++ [digits sn]) (xs.replace segment (digits sn)) rs := by
  cases h with
  | longer hlen hhead =>
    have hlen' : xs.length = (served ++ [digits sn]).length + rs.length + 1 := by
      rw [hlen, List.length_cons, List.length_append, List.length_singleton]
      omega
    refine ⟨.longer hlen' hhead, .longer (List.length_replace.trans hlen') ?_⟩
    rw [List.head?_replace]
    cases hx : xs.head? with
    | none => nofun
    | some x =>
      dsimp only
      split
      · exact fun h => digits_ne_nil sn (Option.some.inj h)
      · rwa [hx] at hhead
  | name hlen hname =>
    have hlen' : xs.length = (served ++ [digits sn]).length + rs.length := by
      rw [hlen, List.length_cons, List.length_append, List.length_singleton]
      omega
    have hcount : (served ++ [digits sn] ++ rs.map Prod.fst).countP isName + 1 <
        xs.countP isName := by
      rw [List.map_cons, List.countP_append, List.countP_cons_of_pos hsegment] at hname
      rw [List.append_assoc, List.countP_append, List.singleton_append,
        List.countP_cons_of_neg (by simp [isName_digits])]
      omega
    have hreplace := countP_le_replace xs segment (digits sn)
    exact ⟨.name hlen' (by omega), .name (List.length_replace.trans hlen') (by omega)⟩
  | @number j x y hserved hxs hx hy =>
    have hserved' : (served ++ [digits sn])[j]? = some x :=
      List.getElem?_append_left (List.getElem?_eq_some_iff.mp hserved).1 ▸ hserved
    refine ⟨.number hserved' hxs hx hy, .number hserved' ?_ hx hy⟩
    rw [List.getElem?_replace_of_ne, hxs]
    rw [hxs]
    rintro ⟨⟩
    rw [hy] at hsegment
    cases hsegment

/-- At the end of the path. -/
theorem Spoilt.ne (h : Spoilt served xs []) (hserved : ∀ x ∈ served, chr '/' ∉ x)
    (hxs : ∀ x ∈ xs, chr '/' ∉ x) :
    separated (chr '/') xs ≠ separated (chr '/') served := by
  intro heq
  cases h with
  | longer hlen hhead =>
    cases served with
    | nil =>
      obtain ⟨x, rfl⟩ := List.length_eq_one_iff.mp hlen
      rw [separated_cons] at heq
      refine hhead (congrArg some ?_)
      simpa [separated, List.intercalate] using heq
    | cons y ys =>
      have hne : xs ≠ [] := List.ne_nil_of_length_eq_add_one hlen
      have hsame := separated_inj hne (List.cons_ne_nil y ys) hxs hserved heq
      rw [hsame] at hlen
      simp at hlen
  | name hlen hname =>
    have hne : xs ≠ [] := by
      rintro rfl
      exact absurd hname (Nat.not_lt_zero _)
    have hne' : served ≠ [] := by
      rintro rfl
      exact hne (List.length_eq_zero_iff.mp hlen)
    rw [separated_inj hne hne' hxs hserved heq] at hname
    simp at hname
  | @number j x y hserved' hxs' hx hy =>
    have hne : xs ≠ [] := by
      rintro rfl
      cases hxs'
    have hne' : served ≠ [] := by
      rintro rfl
      cases hserved'
    rw [separated_inj hne hne' hxs hserved heq, hserved'] at hxs'
    cases hxs'
    rw [hx] at hy
    cases hy

end

theorem WellRead.slash {rs : List (Bytes × Role)} :
    ∀ {busAllowed : Bool}, WellRead busAllowed rs → ∀ r ∈ rs, chr '/' ∉ r.1 := by
  induction rs with
  | nil => nofun
  | cons r rs ih =>
    rintro busAllowed ⟨hslash, -, hread⟩
    have hrest : ∃ b, WellRead b rs := by
      obtain ⟨segment, r⟩ := r
      cases r with
      | plain => exact ⟨_, hread.choose_spec.2⟩
      | bus => exact ⟨_, hread.2.2⟩
      | known sn => exact ⟨_, hread.2⟩
    obtain ⟨b, hrest⟩ := hrest
    exact List.forall_mem_cons.mpr ⟨hslash, ih hrest⟩

theorem isName_of_notSn {segment : Bytes} (h : parseSerialNumber segment = .notSn) :
    isName segment = true := by
  rw [isName, h]
  rfl

/-- Once a path is wrong, it stays wrong: there is no other bus, and an alias removes one name
only. -/
theorem rewritten_ne {rs : List (Bytes × Role)} :
    ∀ {served xs : List Bytes} {atStart : Bool}, WellRead false rs →
    (∀ x ∈ served, chr '/' ∉ x) → (∀ x ∈ xs, chr '/' ∉ x) → Spoilt served xs rs →
    separated (chr '/') (rewritten atStart xs rs) ≠
    separated (chr '/') (served ++ forwarded rs) := by
  induction rs with
  | nil =>
    intro served xs _ _ hserved hxs h
    rw [rewritten, forwarded, List.flatMap_nil, List.append_nil]
    exact h.ne hserved hxs
  | cons r rs ih =>
    obtain ⟨segment, r⟩ := r
    intro served xs atStart hread hserved hxs h
    obtain ⟨hslash, -, hread⟩ := hread
    have hxs' : ∀ x ∈ r.rewrite atStart xs segment, chr '/' ∉ x := Role.slash_rewrite hslash hxs r
    rw [rewritten, forwarded_cons, ← List.append_assoc]
    cases r with
    | plain =>
      obtain ⟨b, hb, hread⟩ := hread
      obtain rfl : b = false :=
        Bool.eq_false_of_not_eq_true fun h => absurd (hb h) Bool.false_ne_true
      refine ih hread ?_ hxs' h.plain
      intro x hx
      obtain hx | hx := List.mem_append.mp hx
      · exact hserved x hx
      · rwa [List.mem_singleton.mp hx]
    | bus => exact absurd hread.1 Bool.false_ne_true
    | known sn =>
      have hspoilt := h.known (isName_of_notSn hread.1)
      refine ih hread.2 ?_ hxs' ?_
      · intro x hx
        obtain hx | hx := List.mem_append.mp hx
        · exact hserved x hx
        · rw [List.mem_singleton.mp hx]
          exact not_slash_mem_digits sn
      · rw [Role.rewrite]
        split
        · exact hspoilt.2
        · exact hspoilt.1

/-! ## Paths that are right -/

section

variable {before rs : List (Bytes × Role)} {segment : Bytes} {sn : SerialNumber}

/-- Where an alias passes, its number stands in its place. -/
theorem rewrite_known_of_passes (hname : isName segment = true)
    (hpass : Passes before segment (.known sn) rs) (atStart : Bool) :
    (Role.known sn).rewrite atStart (forwarded before ++ segment :: rs.map Prod.fst) segment
      = forwarded before ++ digits sn :: rs.map Prod.fst := by
  obtain ⟨hbefore, hlen⟩ := hpass
  have hmem : segment ∉ forwarded before := by
    rw [mem_forwarded_iff hname]
    rintro ⟨r, hr, hplain, hsame⟩
    exact hbefore r hr hplain hsame
  rw [Role.rewrite, if_pos hlen, List.replace_append_right hmem, List.replace_cons_self]

/-- Where it does not pass, the path is wrong from then on. -/
theorem spoilt_known_of_not_passes (hname : isName segment = true)
    (hpass : ¬Passes before segment (.known sn) rs) (atStart : Bool) :
    Spoilt (forwarded before ++ [digits sn])
      ((Role.known sn).rewrite atStart (forwarded before ++ segment :: rs.map Prod.fst) segment)
        rs := by
  rw [Role.rewrite]
  split
  · rename_i hlen
    have hmem : segment ∈ forwarded before := by
      by_contra hmem
      refine hpass ⟨fun r hr hplain hsame => hmem ?_, hlen⟩
      exact (mem_forwarded_iff hname before).mpr ⟨r, hr, hplain, hsame⟩
    -- the first place of the name has the number now
    have hidx := List.idxOf_lt_length_of_mem hmem
    refine .number (j := (forwarded before).idxOf segment) (x := segment) (y := digits sn) ?_ ?_
      hname (isName_digits sn)
    · rw [List.getElem?_append_left hidx, List.getElem?_idxOf hmem]
    · rw [List.replace_append_left hmem, List.getElem?_append_left (by rwa [List.length_replace]),
        List.getElem?_replace, List.getElem?_idxOf hmem, if_pos (beq_self_eq_true _), if_neg]
      rw [List.mem_take_iff_idxOf_lt hmem]
      exact Nat.lt_irrefl _
  · refine .name ?_ ?_
    · simp only [List.length_append, List.length_cons, List.length_nil, List.length_map]
      omega
    · rw [List.append_assoc, List.singleton_append, List.countP_append, List.countP_append,
        List.countP_cons_of_pos hname, List.countP_cons_of_neg (by simp [isName_digits])]
      omega

theorem busTail_eq_nil_iff (segment : Bytes) :
    busTail segment = [] ↔ (segment.drop 4).all isDigit = true := by
  rw [busTail, List.dropWhile_eq_nil_iff, List.all_eq_true]

theorem spoilt_bus_of_not_passes (hbus : StartsBus segment)
    (hbefore : ∀ x ∈ forwarded before, x ≠ []) (hpass : ¬Passes before segment .bus rs) :
    Spoilt (forwarded before) (Role.bus.rewrite before.isEmpty
      (forwarded before ++ segment :: rs.map Prod.fst) segment) rs := by
  cases before with
  | nil =>
    have htail : busTail segment ≠ [] := by
      rw [Ne, busTail_eq_nil_iff]
      exact fun h => hpass ⟨rfl, h⟩
    rw [Role.rewrite, List.isEmpty_nil, if_pos rfl, if_neg htail]
    refine .longer ?_ ?_
    · simp [forwarded]
    · exact fun h => htail (Option.some.inj h)
  | cons r before =>
    rw [Role.rewrite, List.isEmpty_cons, if_neg Bool.false_ne_true]
    refine .longer ?_ ?_
    · simp only [List.length_append, List.length_cons, List.length_map]
      omega
    · cases hforward : forwarded (r :: before) with
      | nil =>
        rintro ⟨⟩
        exact absurd (four_le_length hbus.1) (by decide)
      | cons x xs =>
        rintro h
        exact hbefore x (hforward ▸ List.mem_cons_self) (Option.some.inj h)

end

/-- The path for the server is right at the end if and only if each segment passes. -/
theorem rewritten_eq_iff {rs : List (Bytes × Role)} :
    ∀ {before : List (Bytes × Role)} {busAllowed : Bool}, WellRead busAllowed rs →
      (∀ x ∈ forwarded before, chr '/' ∉ x) → (rs ≠ [] → ∀ x ∈ forwarded before, x ≠ []) →
    (separated (chr '/') (rewritten before.isEmpty (forwarded before ++ rs.map Prod.fst) rs)
        = separated (chr '/') (forwarded before ++ forwarded rs) ↔ ForwardableFrom before rs) := by
  induction rs with
  | nil =>
    intro before _ _ _ _
    exact iff_of_true rfl trivial
  | cons r rs ih =>
    obtain ⟨segment, r⟩ := r
    intro before busAllowed hread hslash hne
    obtain ⟨hsegment, hempty, hread⟩ := hread
    have hne' := hne (List.cons_ne_nil _ _)
    have hforwarded : forwarded (before ++ [(segment, r)]) = forwarded before ++
        r.forward segment := by
      rw [forwarded_append, forwarded, forwarded, List.flatMap_singleton]
    have hempty' : (before ++ [(segment, r)]).isEmpty = false := by simp
    have hforward : ∀ x ∈ r.forward segment, chr '/' ∉ x ∧ (rs ≠ [] → x ≠ []) := by
      intro x hx
      cases r with
      | plain =>
        rw [List.mem_singleton.mp hx]
        exact ⟨hsegment, mt hempty⟩
      | bus => cases hx
      | known sn =>
        rw [List.mem_singleton.mp hx]
        exact ⟨not_slash_mem_digits sn, fun _ => digits_ne_nil sn⟩
    have hslash' : ∀ x ∈ forwarded before ++ r.forward segment, chr '/' ∉ x := by
      intro x hx
      exact (List.mem_append.mp hx).elim (hslash x) fun hx => (hforward x hx).1
    have hne'' : rs ≠ [] → ∀ x ∈ forwarded before ++ r.forward segment, x ≠ [] := by
      intro hrs x hx
      exact (List.mem_append.mp hx).elim (hne' x) fun hx => (hforward x hx).2 hrs
    -- the path so far is right or spoilt, and so is the rest
    have hright {b : Bool} (hrest : WellRead b rs) (hpass : Passes before segment r rs)
        (hrewrite : r.rewrite before.isEmpty (forwarded before ++ segment :: rs.map Prod.fst)
          segment
          = forwarded before ++ r.forward segment ++ rs.map Prod.fst) :
        separated (chr '/') (rewritten before.isEmpty
          (forwarded before ++ segment :: rs.map Prod.fst) ((segment, r) :: rs))
          = separated (chr '/') (forwarded before ++ (r.forward segment ++ forwarded rs)) ↔
            ForwardableFrom before ((segment, r) :: rs) := by
      have hih := @ih (before ++ [(segment, r)]) b hrest
      rw [hforwarded, hempty'] at hih
      rw [rewritten, hrewrite, ← List.append_assoc, hih hslash' hne'', ForwardableFrom]
      exact ⟨fun h => ⟨hpass, h⟩, fun h => h.2⟩
    have hwrong (hrest : WellRead false rs) (hpass : ¬Passes before segment r rs)
        (hspoilt : Spoilt (forwarded before ++ r.forward segment)
          (r.rewrite before.isEmpty (forwarded before ++ segment :: rs.map Prod.fst) segment) rs) :
        separated (chr '/') (rewritten before.isEmpty
          (forwarded before ++ segment :: rs.map Prod.fst) ((segment, r) :: rs))
          = separated (chr '/') (forwarded before ++ (r.forward segment ++ forwarded rs)) ↔
            ForwardableFrom before ((segment, r) :: rs) := by
      have hxs : ∀ x ∈ forwarded before ++ segment :: rs.map Prod.fst, chr '/' ∉ x := by
        simp only [List.forall_mem_append, List.forall_mem_cons]
        exact ⟨hslash, hsegment, List.forall_mem_map.mpr hrest.slash⟩
      rw [rewritten, ← List.append_assoc]
      refine iff_of_false ?_ fun h => hpass h.1
      exact rewritten_ne hrest hslash' (Role.slash_rewrite hsegment hxs r) hspoilt
    rw [forwarded_cons, List.map_cons]
    cases r with
    | plain =>
      obtain ⟨b, -, hrest⟩ := hread
      exact hright hrest trivial (by simp [Role.rewrite, Role.forward])
    | bus =>
      obtain ⟨-, hbus, hrest⟩ := hread
      by_cases hpass : Passes before segment .bus rs
      · refine hright hrest hpass ?_
        obtain ⟨rfl, hall⟩ := hpass
        rw [Role.rewrite, List.isEmpty_nil, if_pos rfl,
          if_pos ((busTail_eq_nil_iff segment).mpr hall)]
        simp [Role.forward, forwarded]
      · refine hwrong hrest hpass ?_
        rw [Role.forward, List.append_nil]
        exact spoilt_bus_of_not_passes hbus hne' hpass
    | known sn =>
      obtain ⟨hname, hrest⟩ := hread
      have hname := isName_of_notSn hname
      by_cases hpass : Passes before segment (.known sn) rs
      · refine hright hrest hpass ?_
        rw [rewrite_known_of_passes hname hpass]
        simp [Role.forward]
      · exact hwrong hrest hpass (spoilt_known_of_not_passes hname hpass _)

/-! ## The path of a parsed name -/

theorem keeps_setup (env : Env) (path : Bytes) :
    Keeps true (splitSep (chr '/') (fsParsedNameSetup env path).path.tail) .first
      (fsParsedNameSetup env path) (splitSep (chr '/') (fsParsedNameSetup env path).path.tail) where
  server := (separated_splitSep _ _).symm
  slash := fun _ => not_mem_of_mem_splitSep
  ne_nil := id
  path := fun _ => (separated_splitSep _ _).symm
  start := fun _ _ => rfl
  later := nofun

/-- **The path for a server.** The segments of every path that is accepted are read one by one, and
the server gets them without the bus and with numbers for the aliases if and only if each of them is
forwarded as it should be. -/
theorem pathToServer_iff (env : Env) {path : Bytes} {t t' : Table} {pn : ParsedName}
    (h : fsParsedName env path t = some (.ok pn, t')) :
    (pathReadings env path t).map Prod.fst = splitSep (chr '/')
    (fsParsedNameSetup env path).path.tail ∧
      (pn.pathToServer = separated (chr '/') (forwarded (pathReadings env path t)) ↔
        Forwardable (pathReadings env path t)) := by
  rw [fsParsedName, fsParsedNameAnywhere] at h
  split at h
  · cases h
  · have hslash : ∀ s ∈ splitSep (chr '/') (fsParsedNameSetup env path).path.tail, chr '/' ∉ s :=
      fun _ => not_mem_of_mem_splitSep
    have hfst : (pathReadings env path t).map Prod.fst =
        splitSep (chr '/') (fsParsedNameSetup env path).path.tail :=
      map_fst_readings env h
    obtain ⟨hserver, hread⟩ := parseLoop_paths env hslash (keeps_setup env path) h
    refine ⟨hfst, ?_⟩
    have hiff :=
      @rewritten_eq_iff (pathReadings env path t) [] _ hread
        (fun _ hx => absurd hx List.not_mem_nil)
      (fun _ _ hx => absurd hx List.not_mem_nil)
    rw [hfst] at hiff
    have hforwardable : Forwardable (pathReadings env path t) ↔
        ForwardableFrom [] (pathReadings env path t) :=
      (forwardableFrom_iff (pathReadings env path t) []).symm
    rw [hserver, hforwardable]
    exact hiff

/-- The only connection is to a server. -/
def serverEnv : Env := { sampleEnv with connections := [⟨0, true⟩] }

theorem pathToServer_iff_bus :
    ∃ pn t', fsParsedName serverEnv (ascii "/bus.0/uncached") { trees := { temporary := {} } } =
      some (.ok pn, t') ∧
      (pathReadings serverEnv (ascii "/bus.0/uncached") { trees := { temporary := {} } }).map
      Prod.fst
        = splitSep (chr '/') (fsParsedNameSetup serverEnv (ascii "/bus.0/uncached")).path.tail ∧
      (pn.pathToServer = separated (chr '/')
          (forwarded (pathReadings serverEnv (ascii "/bus.0/uncached")
            { trees := { temporary := {} } })) ↔
        Forwardable (pathReadings serverEnv (ascii "/bus.0/uncached")
          { trees := { temporary := {} } })) :=
  ⟨_, _, rfl, pathToServer_iff serverEnv rfl⟩

/-- The bus is kept behind a mode, where the server takes it for one of its own. -/
theorem bus_kept : ∃ pn t',
    fsParsedName serverEnv (ascii "/uncached/bus.0") { trees := { temporary := {} } } =
    some (.ok pn, t') ∧
      pn.pathToServer = ascii "/uncached/bus.0" ∧
      pn.pathToServer ≠ separated (chr '/')
        (forwarded (pathReadings serverEnv (ascii "/uncached/bus.0")
          { trees := { temporary := {} } })) := by
  have hserved : separated (chr '/') (forwarded (pathReadings serverEnv (ascii "/uncached/bus.0")
      { trees := { temporary := {} } })) = ascii "/uncached" := rfl
  have hparse : ∃ pn t',
      fsParsedName serverEnv (ascii "/uncached/bus.0") { trees := { temporary := {} } } =
      some (.ok pn, t') ∧
      pn.pathToServer = ascii "/uncached/bus.0" := ⟨_, _, rfl, rfl⟩
  obtain ⟨pn, t', hparse, hserver⟩ := hparse
  refine ⟨pn, t', hparse, hserver, ?_⟩
  rw [hserver, hserved]
  decide

end Owfs.Path
