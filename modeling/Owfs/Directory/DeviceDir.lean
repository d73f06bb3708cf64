import Owfs.Path.PropertyName

/-!
# The properties of external devices

`AddProperty` (`ow_parse_external.c`) puts a property that the user has defined into a tree, and
with it the subdirectories in its name. When the program starts, `External_Process` (`ow_tree.c`)
makes an array of the properties of each family and sorts it. `FS_devdir` (`ow_dir.c`) lists the
array or, for a subdirectory, the part of it that starts behind its own entry.

The lines of the configuration are taken as they are read. Arrays of 2^31 elements and more are left
out. What the directory part of a path leads to is the same when the path of an entry is parsed.
-/

namespace Owfs.Directory

open Infra Owfs.Cache Owfs.Path

/-- The slash between the parts of a name. -/
def slash : Byte := chr '/'

/-! ## The tree -/

/-- What a line of the configuration defines. -/
structure Definition where
  family : Bytes
  property : Bytes
  format : FtFormat
  elements : Nat
  combined : AgCombined
  letters : Bool
  property_ne : property ≠ []
  format_ne : format ≠ .subdir ∧ format ≠ .bitfield
  elements_pos : 0 < elements
  elements_lt : elements < 2 ^ 31
  /-- The number of a sparse array is always 1. -/
  sparse_one : combined = .sparse → elements = 1
  letters_lt : letters = true → elements < 26

/-- An entry of `property_tree`. -/
structure PropertyNode where
  family : Bytes
  ft : Filetype

/-- `create_property_node` -/
def createPropertyNode (property family : Bytes) (format : FtFormat) (elements : Nat)
    (combined : AgCombined) (letters : Bool) : PropertyNode :=
  ⟨family,
    { name := property
      ag := if elements = 1 then none else some ⟨elements, combined⟩
      letters, format
      data := 0 }⟩

/-- `AddPropertyToTree`: what is in the tree stays. -/
def addPropertyToTree (n : PropertyNode) (tree : List PropertyNode) : List PropertyNode :=
  if tree.any (fun x => x.family == n.family && x.ft.name == n.ft.name) then tree else tree ++ [n]

/-- What is in front of the last slash. -/
def beforeLastSlash (name : Bytes) : Bytes := (name.rdropWhile (· ≠ slash)).dropLast

theorem length_beforeLastSlash {name : Bytes} (h : slash ∈ name) :
    (beforeLastSlash name).length < name.length := by
  have hle : (name.rdropWhile (· ≠ slash)).length ≤ name.length :=
    (List.rdropWhile_prefix _ (l := name)).length_le
  have hpos : 0 < name.length := List.length_pos_of_mem h
  rw [beforeLastSlash, List.length_dropLast]
  omega

/-- `create_subdirs` -/
def createSubdirs (property family : Bytes) (tree : List PropertyNode) : List PropertyNode :=
  if _h : slash ∈ property then
    createSubdirs (beforeLastSlash property) family
      (addPropertyToTree (createPropertyNode (beforeLastSlash property) family .subdir 1 .separate
        false) tree)
  else tree
termination_by property.length
decreasing_by exact length_beforeLastSlash _h

/-- `AddProperty`, with the line as it is read -/
def addProperty (tree : List PropertyNode) (d : Definition) : List PropertyNode :=
  createSubdirs d.property d.family
    (addPropertyToTree (createPropertyNode d.property d.family d.format d.elements d.combined
      d.letters) tree)

/-- The tree after all lines. -/
def propertyTree (ds : List Definition) : List PropertyNode := ds.foldl addProperty []

/-- The array of a family, as `External_family_action` copies it and `Device2Tree` sorts it. -/
def familyArray (tree : List PropertyNode) (family : Bytes) : List Filetype :=
  ((tree.filter fun n => n.family == family).map PropertyNode.ft).mergeSort fun a b =>
    strcmp a.name b.name != .gt

/-! ## The directory -/

/-- An entry that is shown: a property or an element of it, and the last segment of its path. -/
structure Entry where
  filetype : Filetype
  extension : Int
  segment : Bytes
deriving DecidableEq

/-- The entries of a property. The extension of a sparse array is not known. -/
def entriesOf (ft : Filetype) (namepart : Bytes) : List Entry :=
  match ft.ag with
  | none => [⟨ft, 0, namepart⟩]
  | some ag =>
    if ag.combined = .sparse then [⟨ft, -3,
      fsParsedNamePlusText namepart (ascii (if ft.letters then "xxx" else "000"))⟩]
    else
      ((if ft.format = .bitfield then [extensionByte, extensionAll] else [extensionAll])
          ++ (List.range ag.elements).map Int.ofNat).map fun e => ⟨ft, e,
            fsParsedNamePlusExt namepart e ft.letters⟩

/-- The path that `FS_ParsedNamePlus` builds. -/
def fullPath (path file : Bytes) : Bytes :=
  (if path.getLast? = some slash then path else path ++ [slash]) ++ file

section

variable (env : Env) (pn : ParsedName)

/-- The entry can be parsed. A path that ends with a slash is the one of the directory. -/
def shows (subdirName : Bytes) (x : Entry) : Bool :=
  decide ((fullPath pn.path x.segment).length ≤ pathMax)
    && (x.segment.isEmpty || decide ((parseProperty env (subdirName ++ x.segment) pn).1 ≠ .error))

/-- The loop of `FS_devdir` -/
def devdirLoop (subdirName : Bytes) : List Filetype → List Entry
  | [] => []
  | ft :: rest =>
    if subdirName.isPrefixOf ft.name then
      if slash ∈ ft.name.drop subdirName.length then devdirLoop subdirName rest
      else
        (entriesOf ft (ft.name.drop subdirName.length)).filter (shows env pn subdirName) ++
          devdirLoop subdirName rest
    else []

/-- `FS_devdir`. A name that is too long for its array is copied without its end. -/
def fsDevdir (array : List Filetype) : Option (List Entry) :=
  match pn.subdir with
  | none => some (devdirLoop env pn [] array)
  | some subdir =>
    if owFullnameMax ≤ subdir.name.length then none
    else
      some (devdirLoop env pn (subdir.name ++ [slash])
        ((array.dropWhile fun ft => ft.name != subdir.name).drop 1))

end

/-! ## What the tree holds -/

/-- What is known of an entry of the tree. -/
structure WellMade (ft : Filetype) : Prop where
  format_ne : ft.format ≠ .bitfield
  array : ∀ ag, ft.ag = some ag → ag.combined ≠ .sparse ∧ ag.elements < 2 ^ 31 ∧
    (ft.letters = true → ag.elements < 26)

/-- Two entries differ in their family or in their name. -/
def Differ (a b : PropertyNode) : Prop := ¬(a.family = b.family ∧ a.ft.name = b.ft.name)

/-- The entries are well made, and there is one for each name. -/
structure TreeOk (tree : List PropertyNode) : Prop where
  wellMade : ∀ n ∈ tree, WellMade n.ft
  differ : tree.Pairwise Differ

theorem TreeOk.add {tree : List PropertyNode} (h : TreeOk tree) {n : PropertyNode}
    (hn : WellMade n.ft) :
    TreeOk (addPropertyToTree n tree) := by
  unfold addPropertyToTree
  split
  · exact h
  · rename_i hany
    simp only [List.any_eq_true, not_exists, not_and, Bool.and_eq_true, beq_iff_eq] at hany
    refine ⟨?_, List.pairwise_append.mpr ⟨h.differ, List.pairwise_singleton _ _, ?_⟩⟩
    · intro x hx
      rcases List.mem_append.mp hx with hx | hx
      · exact h.wellMade x hx
      · rwa [List.mem_singleton.mp hx]
    · intro x hx y hy
      rw [List.mem_singleton.mp hy]
      exact fun heq => hany x hx heq.1 heq.2

theorem wellMade_subdir (property family : Bytes) :
    WellMade (createPropertyNode property family .subdir 1 .separate false).ft :=
  ⟨by simp [createPropertyNode], by simp [createPropertyNode]⟩

theorem wellMade_definition (d : Definition) :
    WellMade (createPropertyNode d.property d.family d.format d.elements d.combined
      d.letters).ft := by
  refine ⟨d.format_ne.2, fun ag hag => ?_⟩
  simp only [createPropertyNode] at hag
  split at hag
  · cases hag
  · rename_i hone
    cases hag
    exact ⟨fun hsparse => hone (d.sparse_one hsparse), d.elements_lt, d.letters_lt⟩

theorem TreeOk.createSubdirs {tree : List PropertyNode} (h : TreeOk tree)
    (property family : Bytes) :
    TreeOk (createSubdirs property family tree) := by
  fun_induction Directory.createSubdirs property family tree with
  | case1 property tree hslash ih => exact ih (h.add (wellMade_subdir _ _))
  | case2 property tree hslash => exact h

theorem treeOk_propertyTree (ds : List Definition) : TreeOk (propertyTree ds) := by
  have hfold : ∀ {tree : List PropertyNode}, TreeOk tree → TreeOk (ds.foldl addProperty tree) := by
    induction ds with
    | nil => exact fun h => h
    | cons d ds ih => exact fun h => ih ((h.add (wellMade_definition d)).createSubdirs _ _)
  exact hfold ⟨by simp, List.Pairwise.nil⟩

theorem mem_familyArray {tree : List PropertyNode} {family : Bytes} {ft : Filetype} :
    ft ∈ familyArray tree family ↔ ∃ n ∈ tree, n.family = family ∧ n.ft = ft := by
  rw [familyArray, List.mem_mergeSort, List.mem_map]
  simp [and_assoc]

theorem strcmp_ne_gt_trans (s t u : Bytes) (hst : strcmp s t ≠ .gt) (htu : strcmp t u ≠ .gt) :
    strcmp s u ≠ .gt := by
  cases hs : strcmp s t with
  | gt => exact absurd hs hst
  | eq => rwa [(strcmp_eq_iff s t).mp hs]
  | lt =>
    cases ht : strcmp t u with
    | gt => exact absurd ht htu
    | eq => rw [← (strcmp_eq_iff t u).mp ht, hs]; simp
    | lt => rw [strcmp_trans hs ht]; simp

/-- The array of a family is sorted, without two properties of one name. -/
theorem TreeOk.sorted {tree : List PropertyNode} (h : TreeOk tree) (family : Bytes) :
    (familyArray tree family).Pairwise fun a b => strcmp a.name b.name = .lt := by
  have hle := @List.pairwise_mergeSort Filetype (fun a b => strcmp a.name b.name != .gt)
    (fun a b c hab hbc => by
      simp only [bne_iff_ne] at hab hbc ⊢
      exact strcmp_ne_gt_trans _ _ _ hab hbc)
    (fun a b => by
      simp only [Bool.or_eq_true, bne_iff_ne]
      by_cases hgt : strcmp a.name b.name = .gt
      · right
        rw [(strcmp_gt_iff _ _).mp hgt]
        simp
      · exact .inl hgt)
    ((tree.filter fun n => n.family == family).map PropertyNode.ft)
  have hdiffer : ((tree.filter fun n => n.family == family).map PropertyNode.ft).Pairwise fun a b =>
      a.name ≠ b.name := by
    rw [List.pairwise_map]
    refine (h.differ.filter _).imp_of_mem fun {a b} ha hb hab heq => hab ⟨?_, heq⟩
    have ha' := (List.mem_filter.mp ha).2
    have hb' := (List.mem_filter.mp hb).2
    simp only [beq_iff_eq] at ha' hb'
    rw [ha', hb']
  have hne := (List.mergeSort_perm ((tree.filter fun n => n.family == family).map PropertyNode.ft)
    (fun a b => strcmp a.name b.name != .gt)).symm.pairwise hdiffer fun hab => Ne.symm hab
  refine (hle.and hne).imp fun {a b} hab => ?_
  obtain ⟨hab, hne⟩ := hab
  simp only [bne_iff_ne] at hab
  cases hcmp : strcmp a.name b.name with
  | lt => rfl
  | eq => exact absurd ((strcmp_eq_iff _ _).mp hcmp) hne
  | gt => exact absurd hcmp hab

/-- There is a property of this name. -/
def Has (tree : List PropertyNode) (family name : Bytes) : Prop :=
  ∃ n ∈ tree, n.family = family ∧ n.ft.name = name

theorem Has.add {tree : List PropertyNode} {family name : Bytes} (h : Has tree family name)
    (n : PropertyNode) :
    Has (addPropertyToTree n tree) family name := by
  obtain ⟨x, hx, hname⟩ := h
  unfold addPropertyToTree
  split
  · exact ⟨x, hx, hname⟩
  · exact ⟨x, List.mem_append_left _ hx, hname⟩

theorem has_add_self (n : PropertyNode) (tree : List PropertyNode) :
    Has (addPropertyToTree n tree) n.family n.ft.name := by
  unfold addPropertyToTree
  split
  · rename_i hany
    obtain ⟨x, hx, hsame⟩ := List.any_eq_true.mp hany
    simp only [Bool.and_eq_true, beq_iff_eq] at hsame
    exact ⟨x, hx, hsame⟩
  · exact ⟨n, by simp, rfl, rfl⟩

theorem Has.createSubdirs {tree : List PropertyNode} {family name : Bytes}
    (h : Has tree family name) (property family' : Bytes) :
    Has (Directory.createSubdirs property family' tree) family name := by
  fun_induction Directory.createSubdirs property family' tree with
  | case1 property tree hslash ih => exact ih (h.add _)
  | case2 property tree hslash => exact h

theorem beforeLastSlash_append (a : Bytes) {b : Bytes} (hb : slash ∉ b) :
    beforeLastSlash (a ++ slash :: b) = a := by
  have hdrop : (a ++ slash :: b).rdropWhile (· ≠ slash) = a ++ [slash] := by
    induction b using List.reverseRecOn with
    | nil => exact List.rdropWhile_concat_neg _ _ _ (by simp)
    | append_singleton b c ih =>
      rw [List.mem_append, not_or, List.mem_singleton] at hb
      rw [← List.cons_append, ← List.append_assoc,
        List.rdropWhile_concat_pos _ _ _ (by simp [Ne.symm hb.2]), ih hb.1]
  rw [beforeLastSlash, hdrop, List.dropLast_concat]

/-- All levels above a property become subdirectories. -/
theorem has_createSubdirs {property family : Bytes} (tree : List PropertyNode) {name rest : Bytes}
    (h : property = name ++ slash :: rest) :
    Has (Directory.createSubdirs property family tree) family name := by
  fun_induction Directory.createSubdirs property family tree generalizing rest with
  | case1 property tree hslash ih =>
    by_cases hrest : slash ∈ rest
    · -- the last slash is in the rest, and this level comes later
      obtain ⟨b, a, hba, hb⟩ := List.eq_append_cons_of_mem (List.mem_reverse.mpr hrest)
      have hsplit : rest = a.reverse ++ slash :: b.reverse := by
        have hreverse := congrArg List.reverse hba
        simpa using hreverse
      refine @ih a.reverse ?_
      rw [h, hsplit, ← List.cons_append, ← List.append_assoc,
        beforeLastSlash_append _ (by simpa using hb)]
    · rw [h, beforeLastSlash_append _ hrest]
      exact (has_add_self (createPropertyNode name family .subdir 1 .separate false)
        tree).createSubdirs _ _
  | case2 property tree hslash =>
    rw [h] at hslash
    simp at hslash

theorem Has.foldl {tree : List PropertyNode} {family name : Bytes} (h : Has tree family name)
    (ds : List Definition) :
    Has (ds.foldl addProperty tree) family name := by
  induction ds generalizing tree with
  | nil => exact h
  | cons d ds ih => exact ih ((h.add _).createSubdirs _ _)

theorem has_foldl {ds : List Definition} {d : Definition} (hd : d ∈ ds) {name : Bytes}
    (hname : name = d.property ∨ ∃ rest, d.property = name ++ slash :: rest)
    (tree : List PropertyNode) :
    Has (ds.foldl addProperty tree) d.family name := by
  induction ds generalizing tree with
  | nil => cases hd
  | cons d' ds ih =>
    rcases List.mem_cons.mp hd with rfl | hd
    · have hfirst : Has (addProperty tree d) d.family name := by
        rcases hname with rfl | ⟨rest, hrest⟩
        · exact (has_add_self (createPropertyNode d.property d.family d.format d.elements d.combined
            d.letters)
            tree).createSubdirs _ _
        · exact has_createSubdirs _ hrest
      exact hfirst.foldl ds
    · exact ih hd _

/-- What is defined, and all levels above it, are in the array. -/
theorem exists_mem_familyArray {ds : List Definition} {d : Definition} (hd : d ∈ ds) {name : Bytes}
    (hname : name = d.property ∨ ∃ rest, d.property = name ++ slash :: rest) :
    ∃ ft ∈ familyArray (propertyTree ds) d.family, ft.name = name := by
  obtain ⟨n, hn, hfamily, hn'⟩ := has_foldl hd hname []
  exact ⟨n.ft, mem_familyArray.mpr ⟨n, hn, hfamily, rfl⟩, hn'⟩

/-! ## The order of names -/

/-- Between a name and the names below it stand only names that go on with a smaller byte or with a
slash. -/
theorem eq_append_of_between {d x r : Bytes} (hlo : strcmp d x = .lt)
    (hhi : strcmp x (d ++ slash :: r) = .lt) :
    ∃ c t, x = d ++ c :: t ∧ (c < slash ∨ c = slash) := by
  induction d generalizing x with
  | nil =>
    cases x with
    | nil => simp [strcmp] at hlo
    | cons c t =>
      refine ⟨c, t, rfl, ?_⟩
      rw [List.nil_append, strcmp] at hhi
      by_cases hlt : c < slash
      · exact .inl hlt
      · rw [if_neg hlt] at hhi
        by_cases hgt : slash < c
        · simp [hgt] at hhi
        · exact .inr (BitVec.le_antisymm (BitVec.not_lt.mp hgt) (BitVec.not_lt.mp hlt))
  | cons a d ih =>
    cases x with
    | nil => simp [strcmp] at hlo
    | cons b x =>
      rw [strcmp] at hlo
      rw [List.cons_append, strcmp] at hhi
      by_cases hlt : a < b
      · rw [if_neg (BitVec.not_lt.mpr (BitVec.le_of_lt hlt)), if_pos hlt] at hhi
        cases hhi
      · rw [if_neg hlt] at hlo
        by_cases hgt : b < a
        · rw [if_pos hgt] at hlo
          cases hlo
        · rw [if_neg hgt] at hlo
          rw [if_neg hgt, if_neg hlt] at hhi
          obtain ⟨c, t, rfl, hc⟩ := ih hlo hhi
          exact ⟨c, t, by rw [BitVec.le_antisymm (BitVec.not_lt.mp hgt)
            (BitVec.not_lt.mp hlt)]; rfl, hc⟩

theorem strcmp_append_cons (d : Bytes) (c : Byte) (t : Bytes) : strcmp d (d ++ c :: t) = .lt := by
  induction d with
  | nil => rfl
  | cons a d ih => simp [strcmp, ih]

theorem strcmp_append_lt (d : Bytes) {c c' : Byte} (h : c < c') (t t' : Bytes) :
    strcmp (d ++ c :: t) (d ++ c' :: t') = .lt := by
  induction d with
  | nil => simp [strcmp, h]
  | cons a d ih => simp [strcmp, ih]

/-- What stands in front of something that passes also passes, so the loop that stops at the first
one that does not misses nothing. -/
theorem takeWhile_eq_filter {α : Type} {p : α → Bool} {l : List α}
    (h : l.Pairwise fun a b => p b = true → p a = true) :
    l.takeWhile p = l.filter p := by
  induction h with
  | nil => rfl
  | @cons a l ha hl ih =>
    by_cases hp : p a = true
    · rw [List.takeWhile_cons_of_pos hp, List.filter_cons_of_pos hp, ih]
    · rw [List.takeWhile_cons_of_neg hp, List.filter_cons_of_neg hp]
      exact (List.filter_eq_nil_iff.mpr fun b hb hpb => hp (ha b hb hpb)).symm

/-! ## The listing -/

/-- A device directory or a subdirectory in it, for a family that was built from definitions. -/
structure Dir (ds : List Definition) (family : Bytes) where
  env : Env
  pn : ParsedName
  device_eq : pn.selectedDevice = some (.external family)
  array_eq : env.filetypeArray (.external family) = familyArray (propertyTree ds) family
  subdir_mem : ∀ subdir, pn.subdir = some subdir → subdir ∈ familyArray (propertyTree ds) family

namespace Dir

variable {ds : List Definition} {family : Bytes} (dir : Dir ds family)

/-- The name of the directory with its slash. -/
def subdirName : Bytes :=
  match dir.pn.subdir with
  | none => []
  | some subdir => subdir.name ++ [slash]

/-- What is left of a name in the directory. -/
def namepart (ft : Filetype) : Bytes := ft.name.drop dir.subdirName.length

/-- The property lies in the directory, and in no subdirectory of it. -/
def Member (ft : Filetype) : Prop :=
  ft ∈ familyArray (propertyTree ds) family ∧ dir.subdirName <+: ft.name ∧ slash ∉ dir.namepart ft

/-- `Parse_Property` finds the property of an entry and takes it for the element. A path that ends
with a slash is the one of the directory. -/
def Found (x : Entry) : Prop :=
  x.segment ≠ [] ∧ ReadsAs dir.env (.external family) dir.pn (dir.subdirName ++ x.segment)
    x.filetype (x.extension, none)

/-- What a listing should be: all that is defined is in the array, the entries of the properties in
the directory are shown, each once, and no others, and each is found again. -/
structure Complete : Prop where
  defined : ∀ d ∈ ds, d.family = family → ∀ name,
    (name = d.property ∨ ∃ rest, d.property = name ++ slash :: rest) →
    ∃ ft ∈ familyArray (propertyTree ds) family, ft.name = name
  listed : ∃ entries, fsDevdir dir.env dir.pn (familyArray (propertyTree ds) family) =
    some entries ∧ entries.Nodup ∧
    (∀ x, x ∈ entries ↔ dir.Member x.filetype ∧
    x ∈ entriesOf x.filetype (dir.namepart x.filetype)) ∧
    ∀ x ∈ entries, dir.Found x

/-- No name has a dot, none ends with the slash of the directory, and nothing is cut off. In a
subdirectory that is not empty, no name goes on behind the one of the subdirectory with a byte
smaller than a slash. -/
structure Regular : Prop where
  dot_notMem : ∀ ft, dir.Member ft → dot ∉ ft.name
  namepart_ne : ∀ ft, dir.Member ft → ft.ag = none → dir.namepart ft ≠ []
  segment_lt : ∀ ft ag (e : Int), dir.Member ft → ft.ag = some ag → -1 ≤ e → e < ag.elements →
    (dir.namepart ft ++ dot :: extensionText e ft.letters).length < owFullnameMax
  path_le : ∀ ft, dir.Member ft → ∀ x ∈ entriesOf ft (dir.namepart ft),
    (fullPath dir.pn.path x.segment).length ≤ pathMax
  subdir_lt : ∀ subdir, dir.pn.subdir = some subdir → subdir.name.length < owFullnameMax
  order : ∀ subdir, dir.pn.subdir = some subdir → (∃ ft, dir.Member ft) →
    ∀ ft ∈ familyArray (propertyTree ds) family, ∀ c t, ft.name = subdir.name ++ c :: t →
    ¬ c < slash

end Dir

theorem devdirLoop_eq (env : Env) (pn : ParsedName) (subdirName : Bytes) (array : List Filetype) :
    devdirLoop env pn subdirName array =
      ((array.takeWhile fun ft => subdirName.isPrefixOf ft.name).filter fun ft =>
        decide (slash ∉ ft.name.drop subdirName.length)).flatMap fun ft =>
          (entriesOf ft (ft.name.drop subdirName.length)).filter (shows env pn subdirName) := by
  induction array with
  | nil => rfl
  | cons ft rest ih =>
    rw [devdirLoop]
    by_cases hbegins : subdirName.isPrefixOf ft.name = true
    · rw [if_pos hbegins, List.takeWhile_cons_of_pos (by simpa using hbegins)]
      by_cases hslash : slash ∈ ft.name.drop subdirName.length
      · rw [if_pos hslash, List.filter_cons_of_neg (by simpa using hslash), ih]
      · rw [if_neg hslash, List.filter_cons_of_pos (by simpa using hslash), List.flatMap_cons, ih]
    · rw [if_neg hbegins, List.takeWhile_cons_of_neg (by simpa using hbegins)]
      rfl

theorem filetype_of_mem_entriesOf {ft : Filetype} {namepart : Bytes} {x : Entry}
    (h : x ∈ entriesOf ft namepart) :
    x.filetype = ft := by
  unfold entriesOf at h
  split at h
  · rw [List.mem_singleton.mp h]
  · split at h
    · rw [List.mem_singleton.mp h]
    · obtain ⟨e, -, rfl⟩ := List.mem_map.mp h
      rfl

/-- The elements of an array that is not a bit field and not sparse. -/
theorem WellMade.mem_entriesOf_iff {ft : Filetype} (h : WellMade ft) {ag : Aggregate}
    (hag : ft.ag = some ag) (namepart : Bytes) (x : Entry) : x ∈ entriesOf ft namepart ↔
      ∃ e : Int, -1 ≤ e ∧ e < ag.elements ∧
      x = ⟨ft, e, fsParsedNamePlusExt namepart e ft.letters⟩ := by
  rw [entriesOf, hag]
  simp only [if_neg (h.array ag hag).1, if_neg h.format_ne, List.mem_map, List.mem_append,
    List.mem_singleton, List.mem_range]
  constructor
  · rintro ⟨e, he, rfl⟩
    rcases he with rfl | ⟨n, hn, rfl⟩
    · exact ⟨extensionAll, by decide, by unfold extensionAll; omega, rfl⟩
    · exact ⟨n, by omega, by exact_mod_cast hn, rfl⟩
  · rintro ⟨e, hlo, hhi, rfl⟩
    refine ⟨e, ?_, rfl⟩
    by_cases he : e = -1
    · exact .inl he
    · exact .inr ⟨e.toNat, by omega, by simp; omega⟩

theorem WellMade.nodup_entriesOf {ft : Filetype} (h : WellMade ft) (namepart : Bytes) :
    (entriesOf ft namepart).Nodup := by
  cases hag : ft.ag with
  | none => simp [entriesOf, hag]
  | some ag =>
    rw [entriesOf, hag]
    simp only [if_neg (h.array ag hag).1, if_neg h.format_ne]
    refine List.Nodup.map (fun a b hab => congrArg Entry.extension hab) ?_
    rw [List.singleton_append, List.nodup_cons]
    refine ⟨?_, List.Nodup.map (fun a b hab => by simpa using hab) List.nodup_range⟩
    simp [extensionAll]

/-- The extensions of such an array. -/
theorem WellMade.hasExtension {ft : Filetype} (h : WellMade ft) {ag : Aggregate}
    (hag : ft.ag = some ag) {e : Int} (hlo : -1 ≤ e) (hhi : e < ag.elements) :
    HasExtension ft ag e := by
  have hne := (h.array ag hag).1
  by_cases he : e = -1
  · rw [he]
    exact .all hne
  · obtain ⟨n, rfl⟩ := Int.eq_ofNat_of_zero_le (show 0 ≤ e by omega)
    exact .index n hne (by exact_mod_cast hhi)

namespace Dir

variable {ds : List Definition} {family : Bytes} (dir : Dir ds family)

theorem sorted : (familyArray (propertyTree ds) family).Pairwise fun a b =>
    strcmp a.name b.name = .lt :=
  (treeOk_propertyTree ds).sorted family

theorem wellMade {ft : Filetype} (h : ft ∈ familyArray (propertyTree ds) family) : WellMade ft := by
  obtain ⟨n, hn, -, rfl⟩ := mem_familyArray.mp h
  exact (treeOk_propertyTree ds).wellMade n hn

/-- The part of the array that the loop starts with. -/
def part : List Filetype :=
  match dir.pn.subdir with
  | none => familyArray (propertyTree ds) family
  | some subdir => ((familyArray (propertyTree ds) family).dropWhile fun ft =>
      ft.name != subdir.name).drop 1

/-- The properties that the loop shows. -/
def visited : List Filetype :=
  (dir.part.takeWhile fun ft => dir.subdirName.isPrefixOf ft.name).filter fun ft =>
    decide (slash ∉ dir.namepart ft)

/-- The entries of the listing, where there is one. -/
def entries : List Entry :=
  dir.visited.flatMap fun ft =>
    (entriesOf ft (dir.namepart ft)).filter (shows dir.env dir.pn dir.subdirName)

theorem fsDevdir_eq_some_iff (es : List Entry) :
    fsDevdir dir.env dir.pn (familyArray (propertyTree ds) family) = some es ↔
      (∀ subdir, dir.pn.subdir = some subdir → subdir.name.length < owFullnameMax) ∧
      dir.entries = es := by
  unfold fsDevdir entries visited part namepart subdirName
  cases hsubdir : dir.pn.subdir with
  | none => simp [devdirLoop_eq]
  | some subdir =>
    by_cases hlong : owFullnameMax ≤ subdir.name.length
    · simp [hlong]
    · simp [hlong, devdirLoop_eq]
      intro _
      omega

/-- Behind the entry of the subdirectory stand the greater names. -/
theorem mem_part_iff {ft : Filetype} : ft ∈ dir.part ↔ ft ∈ familyArray (propertyTree ds) family ∧
    ∀ subdir, dir.pn.subdir = some subdir → strcmp subdir.name ft.name = .lt := by
  unfold part
  cases hsubdir : dir.pn.subdir with
  | none => simp
  | some subdir =>
    obtain ⟨before, behind, harray⟩ := List.append_of_mem (dir.subdir_mem subdir hsubdir)
    have hsorted := @sorted ds family
    rw [harray, List.pairwise_append] at hsorted
    obtain ⟨-, hbehind, hbefore⟩ := hsorted
    rw [List.pairwise_cons] at hbehind
    have hpass : ∀ x ∈ before, (x.name != subdir.name) = true := by
      intro x hx
      have hlt := hbefore x hx subdir List.mem_cons_self
      rw [bne_iff_ne]
      intro heq
      rw [heq, (strcmp_eq_iff _ _).mpr rfl] at hlt
      cases hlt
    have hpart : ((familyArray (propertyTree ds) family).dropWhile fun ft =>
        ft.name != subdir.name).drop 1 = behind := by
      rw [harray, List.dropWhile_append_of_pos hpass, List.dropWhile_cons_of_neg (by simp)]
      rfl
    simp only [hpart, Option.some.injEq, forall_eq']
    constructor
    · intro hft
      exact ⟨by rw [harray]; exact List.mem_append_right _ (List.mem_cons_of_mem _ hft),
        hbehind.1 ft hft⟩
    · rintro ⟨hft, hlt⟩
      rw [harray, List.mem_append, List.mem_cons] at hft
      rcases hft with hft | rfl | hft
      · have hgt := strcmp_trans hlt (hbefore ft hft subdir List.mem_cons_self)
        rw [(strcmp_eq_iff _ _).mpr rfl] at hgt
        cases hgt
      · rw [(strcmp_eq_iff _ _).mpr rfl] at hlt
        cases hlt
      · exact hft

theorem mem_part {ft : Filetype} (h : dir.Member ft) : ft ∈ dir.part := by
  refine dir.mem_part_iff.mpr ⟨h.1, fun subdir hsubdir => ?_⟩
  obtain ⟨rest, hname⟩ := h.2.1
  rw [subdirName, hsubdir] at hname
  dsimp only at hname
  rw [← hname, List.append_assoc]
  exact strcmp_append_cons _ _ _

theorem part_sublist : dir.part.Sublist (familyArray (propertyTree ds) family) := by
  unfold part
  split
  · exact List.Sublist.refl _
  · exact (List.drop_sublist _ _).trans (List.dropWhile_sublist _)

theorem mem_visited {ft : Filetype} (h : ft ∈ dir.visited) : dir.Member ft := by
  obtain ⟨hmem, hslash⟩ := List.mem_filter.mp h
  have hbegins := List.mem_takeWhile_imp hmem
  refine ⟨dir.part_sublist.subset ((List.takeWhile_sublist _).subset hmem),
    List.isPrefixOf_iff_prefix.mp hbegins, ?_⟩
  simpa using hslash

/-- The loop shows all members, if and only if it is not stopped in front of them. -/
theorem visited_iff : (∀ ft, dir.Member ft → ft ∈ dir.visited) ↔
    ∀ subdir, dir.pn.subdir = some subdir → (∃ ft, dir.Member ft) →
      ∀ ft ∈ familyArray (propertyTree ds) family, ∀ c t, ft.name = subdir.name ++ c :: t →
      ¬ c < slash := by
  constructor
  · rintro hall subdir hsubdir ⟨member, hmember⟩ ft hft c t hname hlt
    -- the smaller byte puts the property between the subdirectory and its members
    have hvisited := (List.mem_filter.mp (hall member hmember)).1
    obtain ⟨rest, hrest⟩ := hmember.2.1
    have hsub : dir.subdirName = subdir.name ++ [slash] := by rw [subdirName, hsubdir]
    have hbefore : strcmp ft.name member.name = .lt := by
      rw [← hrest, hsub, hname, List.append_assoc]
      exact strcmp_append_lt _ hlt _ _
    have hpart : ft ∈ dir.part := by
      refine dir.mem_part_iff.mpr ⟨hft, fun subdir' hsubdir' => ?_⟩
      obtain rfl : subdir = subdir' := by simpa [hsubdir] using hsubdir'
      rw [hname]
      exact strcmp_append_cons _ _ _
    obtain ⟨a, b, hab⟩ := List.append_of_mem hvisited
    have hsplit : dir.part = a ++ member ::
        (b ++ dir.part.dropWhile fun ft => dir.subdirName.isPrefixOf ft.name) := by
      conv_lhs => rw [← List.takeWhile_append_dropWhile
        (p := fun ft => dir.subdirName.isPrefixOf ft.name) (l := dir.part), hab]
      simp
    have hsorted := (@sorted ds family).sublist dir.part_sublist
    rw [hsplit, List.pairwise_append] at hsorted
    rw [hsplit, List.mem_append, List.mem_cons] at hpart
    have hgreater : ∀ x : Filetype, strcmp ft.name x.name = .lt → strcmp x.name ft.name = .lt →
        False := by
      intro x h h'
      have hself := strcmp_trans h h'
      rw [(strcmp_eq_iff _ _).mpr rfl] at hself
      cases hself
    rcases hpart with hpart | rfl | hpart
    · have hpasses : dir.subdirName.isPrefixOf ft.name = true :=
        List.mem_takeWhile_imp (p := fun ft : Filetype => dir.subdirName.isPrefixOf ft.name) (by
          rw [hab]
          exact List.mem_append_left _ hpart)
      have hbegins := List.isPrefixOf_iff_prefix.mp hpasses
      rw [hsub, hname, List.prefix_append_right_inj, List.cons_prefix_cons] at hbegins
      rw [hbegins.1] at hlt
      exact absurd hlt (BitVec.lt_irrefl _)
    · exact hgreater _ hbefore hbefore
    · exact hgreater member hbefore ((List.pairwise_cons.mp hsorted.2.1).1 ft hpart)
  · intro horder ft hft
    have hfilter : dir.part.takeWhile (fun ft => dir.subdirName.isPrefixOf ft.name)
        = dir.part.filter fun ft => dir.subdirName.isPrefixOf ft.name := by
      refine takeWhile_eq_filter (((@sorted ds family).sublist dir.part_sublist).imp_of_mem ?_)
      intro a b ha hb hab hbegins
      cases hsubdir : dir.pn.subdir with
      | none => simp [subdirName, hsubdir]
      | some subdir =>
        have hsub : dir.subdirName = subdir.name ++ [slash] := by rw [subdirName, hsubdir]
        obtain ⟨ha, hlo⟩ := dir.mem_part_iff.mp ha
        rw [hsub] at hbegins ⊢
        obtain ⟨rest, hrest⟩ := List.isPrefixOf_iff_prefix.mp hbegins
        rw [← hrest, List.append_assoc] at hab
        obtain ⟨c, t, hname, hc⟩ := eq_append_of_between (hlo subdir hsubdir) hab
        rcases hc with hc | rfl
        · exact absurd hc (horder subdir hsubdir ⟨ft, hft⟩ a ha c t hname)
        · rw [hname, List.isPrefixOf_iff_prefix]
          exact ⟨t, by simp⟩
    refine List.mem_filter.mpr ⟨?_, by simpa using hft.2.2⟩
    rw [hfilter]
    exact List.mem_filter.mpr ⟨dir.mem_part hft, List.isPrefixOf_iff_prefix.mpr hft.2.1⟩

/-- The name of a member, put together again. -/
theorem subdirName_append {ft : Filetype} (h : dir.Member ft) :
    dir.subdirName ++ dir.namepart ft = ft.name := by
  obtain ⟨rest, hrest⟩ := h.2.1
  rw [namepart, ← hrest, List.drop_left]

theorem elements_lt : ∀ ft ∈ dir.env.filetypeArray (.external family), ∀ ag, ft.ag = some ag →
    ag.elements < 2 ^ 31 := by
  rw [dir.array_eq]
  exact fun ft hft ag hag => ((wellMade hft).array ag hag).2.1

theorem sorted_env : (dir.env.filetypeArray (.external family)).Pairwise fun a b =>
    strcmp a.name b.name = .lt := by
  rw [dir.array_eq]
  exact sorted

/-- A property that is no array is found by its name. -/
theorem found_scalar_iff {ft : Filetype} (h : dir.Member ft) (hag : ft.ag = none) :
    dir.Found ⟨ft, 0, dir.namepart ft⟩ ↔ dir.namepart ft ≠ [] ∧ dot ∉ ft.name := by
  rw [Found]
  refine and_congr_right fun _ => ?_
  dsimp only
  rw [dir.subdirName_append h, readsAs_iff dir.device_eq (by simp) dir.sorted_env]
  constructor
  · rintro ⟨-, hname, -⟩
    rw [← hname]
    exact not_dot_mem_nameOf _
  · intro hdot
    refine ⟨by rw [dir.array_eq]; exact h.1, nameOf_of_not_mem hdot, ?_⟩
    exact .plain _ hdot hag

/-- An element of an array is found by its name and extension. -/
theorem found_element_iff {ft : Filetype} (h : dir.Member ft) {ag : Aggregate}
    (hag : ft.ag = some ag) {e : Int} (hlo : -1 ≤ e) (hhi : e < ag.elements) :
    dir.Found ⟨ft, e, fsParsedNamePlusExt (dir.namepart ft) e ft.letters⟩ ↔
      dot ∉ ft.name ∧ (dir.namepart ft ++ dot :: extensionText e ft.letters).length <
      owFullnameMax := by
  have hmade := wellMade h.1
  have hletters : ft.letters = true → e < 26 := fun hl => by
    have hlt := (hmade.array ag hag).2.2 hl
    omega
  have hne : fsParsedNamePlusExt (dir.namepart ft) e ft.letters ≠ [] := by
    rw [fsParsedNamePlusExt, fsParsedNamePlusText]
    simp [owFullnameMax]
  have hsegment : dir.subdirName ++ fsParsedNamePlusExt (dir.namepart ft) e ft.letters
      = (ft.name ++ dot :: extensionText e ft.letters).take
        (dir.subdirName.length + (owFullnameMax - 1)) := by
    rw [← dir.subdirName_append h, List.append_assoc, List.take_length_add_append]
    rfl
  have hft : ft ∈ dir.env.filetypeArray (.external family) := by
    rw [dir.array_eq]
    exact h.1
  rw [Found]
  dsimp only
  rw [and_iff_right hne, hsegment,
    readsAs_take_iff dir.device_eq (by simp) dir.sorted_env dir.elements_lt hft hag
    (hmade.hasExtension hag hlo hhi), ← dir.subdirName_append h, List.append_assoc,
      List.length_append]
  unfold owFullnameMax
  exact and_congr_right fun _ => ⟨fun hlen => by omega, fun hlen => ⟨by omega, hletters⟩⟩

/-- What is found can be parsed, so it is shown if its path is not too long. -/
theorem shows_of_found {x : Entry} (h : dir.Found x)
    (hpath : (fullPath dir.pn.path x.segment).length ≤ pathMax) :
    shows dir.env dir.pn dir.subdirName x = true := by
  rw [shows, Bool.and_eq_true, Bool.or_eq_true, decide_eq_true_eq, decide_eq_true_eq]
  exact ⟨hpath, .inr h.2.2.1⟩

theorem mem_entries_iff {x : Entry} : x ∈ dir.entries ↔ x.filetype ∈ dir.visited ∧
    x ∈ entriesOf x.filetype (dir.namepart x.filetype) ∧
    shows dir.env dir.pn dir.subdirName x = true := by
  rw [entries, List.mem_flatMap]
  constructor
  · rintro ⟨ft, hft, hx⟩
    obtain ⟨hmem, hshows⟩ := List.mem_filter.mp hx
    obtain rfl := filetype_of_mem_entriesOf hmem
    exact ⟨hft, hmem, hshows⟩
  · rintro ⟨hft, hmem, hshows⟩
    exact ⟨_, hft, List.mem_filter.mpr ⟨hmem, hshows⟩⟩

theorem nodup_entries : dir.entries.Nodup := by
  have hvisited : dir.visited.Nodup := by
    have hnodup : (familyArray (propertyTree ds) family).Nodup := sorted.imp fun {a b} hab heq => by
      rw [heq, (strcmp_eq_iff _ _).mpr rfl] at hab
      cases hab
    exact ((hnodup.sublist dir.part_sublist).sublist (List.takeWhile_sublist _)).filter _
  rw [entries, List.nodup_flatMap]
  refine ⟨fun ft hft => ((wellMade (dir.mem_visited hft).1).nodup_entriesOf _).filter _,
    hvisited.imp fun {a b} hab => ?_⟩
  intro x ha hb
  have hxa := filetype_of_mem_entriesOf (List.mem_filter.mp ha).1
  have hxb := filetype_of_mem_entriesOf (List.mem_filter.mp hb).1
  exact hab (hxa.symm.trans hxb)

/-- Every property has an entry. -/
theorem exists_mem_entriesOf (ft : Filetype) (namepart : Bytes) :
    ∃ x, x ∈ entriesOf ft namepart ∧ x.filetype = ft := by
  unfold entriesOf
  split
  · exact ⟨_, List.mem_singleton_self _, rfl⟩
  · split
    · exact ⟨_, List.mem_singleton_self _, rfl⟩
    · exact ⟨⟨ft, extensionAll, fsParsedNamePlusExt namepart extensionAll ft.letters⟩,
        List.mem_map.mpr ⟨extensionAll, List.mem_append_left _ (by split <;> simp), rfl⟩, rfl⟩

theorem mem_visited_of_listed (hmem : ∀ x, x ∈ dir.entries ↔
    dir.Member x.filetype ∧ x ∈ entriesOf x.filetype (dir.namepart x.filetype)) {ft :
    Filetype} (hft : dir.Member ft) :
    ft ∈ dir.visited := by
  obtain ⟨x, hx, rfl⟩ := exists_mem_entriesOf ft (dir.namepart ft)
  exact (dir.mem_entries_iff.mp ((hmem x).mpr ⟨hft, hx⟩)).1

/-- **The listing of a device.** A directory of an external device is listed completely, and every
entry is found again, if and only if its names are regular. -/
theorem complete_iff : dir.Complete ↔ dir.Regular := by
  constructor
  · rintro ⟨-, es, hes, -, hmem, hfound⟩
    obtain ⟨hshort, rfl⟩ := (dir.fsDevdir_eq_some_iff es).mp hes
    have hscalar {ft : Filetype} (hft : dir.Member ft) (hag : ft.ag = none) :
        dir.namepart ft ≠ [] ∧ dot ∉ ft.name := by
      refine (dir.found_scalar_iff hft hag).mp (hfound _ ((hmem _).mpr ⟨hft, ?_⟩))
      rw [entriesOf, hag]
      exact List.mem_singleton_self _
    have helement {ft : Filetype} (hft : dir.Member ft) {ag : Aggregate} (hag : ft.ag = some ag)
        {e : Int} (hlo : -1 ≤ e)
        (hhi : e < ag.elements) :
        dot ∉ ft.name ∧ (dir.namepart ft ++ dot :: extensionText e ft.letters).length <
          owFullnameMax :=
      (dir.found_element_iff hft hag hlo hhi).mp (hfound _ ((hmem _).mpr
        ⟨hft, ((wellMade hft.1).mem_entriesOf_iff hag _ _).mpr ⟨e, hlo, hhi, rfl⟩⟩))
    refine ⟨fun ft hft => ?_, fun ft hft hag => (hscalar hft hag).1,
      fun ft ag e hft hag hlo hhi => (helement hft hag hlo hhi).2, fun ft hft x hx => ?_, hshort,
      ?_⟩
    · cases hag : ft.ag with
      | none => exact (hscalar hft hag).2
      | some ag => exact (helement hft hag (e := -1) (le_refl _) (by omega)).1
    · obtain rfl := filetype_of_mem_entriesOf hx
      have hshows := (dir.mem_entries_iff.mp ((hmem x).mpr ⟨hft, hx⟩)).2.2
      rw [shows, Bool.and_eq_true, decide_eq_true_eq] at hshows
      exact hshows.1
    · exact dir.visited_iff.mp fun ft => dir.mem_visited_of_listed hmem
  · intro h
    have hvisited := dir.visited_iff.mpr h.order
    have hfound {x : Entry} (hft : dir.Member x.filetype)
        (hx : x ∈ entriesOf x.filetype (dir.namepart x.filetype)) :
        dir.Found x := by
      cases hag : x.filetype.ag with
      | none =>
        have hx' := hx
        rw [entriesOf, hag] at hx'
        rw [List.mem_singleton.mp hx']
        exact (dir.found_scalar_iff hft hag).mpr ⟨h.namepart_ne _ hft hag, h.dot_notMem _ hft⟩
      | some ag =>
        obtain ⟨e, hlo, hhi, hx'⟩ := ((wellMade hft.1).mem_entriesOf_iff hag _ _).mp hx
        rw [hx']
        exact (dir.found_element_iff hft hag hlo hhi).mpr
          ⟨h.dot_notMem _ hft, h.segment_lt _ ag e hft hag hlo hhi⟩
    have hmem (x : Entry) : x ∈ dir.entries ↔
        dir.Member x.filetype ∧ x ∈ entriesOf x.filetype (dir.namepart x.filetype) := by
      rw [dir.mem_entries_iff]
      constructor
      · rintro ⟨hft, hx, -⟩
        exact ⟨dir.mem_visited hft, hx⟩
      · rintro ⟨hft, hx⟩
        exact ⟨hvisited _ hft, hx, dir.shows_of_found (hfound hft hx) (h.path_le _ hft x hx)⟩
    refine ⟨?_, dir.entries, (dir.fsDevdir_eq_some_iff _).mpr ⟨h.subdir_lt, rfl⟩, dir.nodup_entries,
      hmem, fun x hx => hfound ((hmem x).mp hx).1 ((hmem x).mp hx).2⟩
    rintro d hd rfl name hname
    exact exists_mem_familyArray hd hname

end Dir

/-! ## A subdirectory that is not listed -/

/-- A property in the subdirectory `d`, and one with a dash behind the name of the subdirectory. -/
def dashDefinitions : List Definition :=
  [⟨ascii "F0", ascii "d/x", .ascii, 1, .separate, false, by decide, by decide, by decide,
    by decide, by decide, by decide⟩, ⟨ascii "F0", ascii "d-1", .ascii, 1, .separate, false,
    by decide, by decide, by decide, by decide, by decide, by decide⟩]

/-- The entry of the subdirectory. -/
def dashSubdir : Filetype :=
  (createPropertyNode (ascii "d") (ascii "F0") .subdir 1 .separate false).ft

theorem propertyTree_dashDefinitions : propertyTree dashDefinitions =
    [createPropertyNode (ascii "d/x") (ascii "F0") .ascii 1 .separate false,
      ⟨ascii "F0", dashSubdir⟩,
      createPropertyNode (ascii "d-1") (ascii "F0") .ascii 1 .separate false] := by
  have hx : ∀ tree, createSubdirs (ascii "d/x") (ascii "F0") tree =
      addPropertyToTree ⟨ascii "F0", dashSubdir⟩ tree := by
    intro tree
    rw [createSubdirs, dif_pos (by decide), createSubdirs, dif_neg (by decide)]
    rfl
  have hdash : ∀ tree, createSubdirs (ascii "d-1") (ascii "F0") tree = tree := by
    intro tree
    rw [createSubdirs, dif_neg (by decide)]
  simp only [propertyTree, dashDefinitions, List.foldl_cons, List.foldl_nil, addProperty, hx, hdash]
  rfl

/-- The subdirectory -/
def dashDir : Dir dashDefinitions (ascii "F0") where
  env := { sampleEnv with
    filetypeArray := fun _ => familyArray (propertyTree dashDefinitions) (ascii "F0") }
  pn := {
    path := ascii "/F0.000000000000/d"
    pathToServer := []
    selectedDevice := some (.external (ascii "F0"))
    subdir := some dashSubdir
    controlFlags := 0 }
  device_eq := rfl
  array_eq := rfl
  subdir_mem := by
    rintro _ ⟨⟩
    rw [mem_familyArray, propertyTree_dashDefinitions]
    exact ⟨⟨ascii "F0", dashSubdir⟩, by simp, rfl, rfl⟩

/-- The dash sorts in front of the slash, so the loop stops in front of `d/x`. -/
theorem not_complete_dashDir : ¬dashDir.Complete := by
  rintro ⟨-, es, hes, -, hmem, -⟩
  obtain ⟨-, rfl⟩ := (dashDir.fsDevdir_eq_some_iff es).mp hes
  have hmember (n : PropertyNode) (hn : n ∈ propertyTree dashDefinitions)
      (hfamily : n.family = ascii "F0") :
      n.ft ∈ familyArray (propertyTree dashDefinitions) (ascii "F0") :=
        mem_familyArray.mpr ⟨n, hn, hfamily, rfl⟩
  rw [propertyTree_dashDefinitions] at hmember
  have hx :=
    hmember (createPropertyNode (ascii "d/x") (ascii "F0") .ascii 1 .separate false) (by simp) rfl
  have hdash :=
    hmember (createPropertyNode (ascii "d-1") (ascii "F0") .ascii 1 .separate false) (by simp) rfl
  rw [← propertyTree_dashDefinitions] at hx hdash
  exact dashDir.visited_iff.mp (fun ft => dashDir.mem_visited_of_listed hmem) dashSubdir rfl
    ⟨_, hx, by rw [← List.isPrefixOf_iff_prefix]; decide, by decide⟩ _ hdash (chr '-')
    (ascii "1") rfl (by decide)

end Owfs.Directory
