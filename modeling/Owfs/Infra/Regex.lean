import Owfs.Infra.Text

/-!
# Regular expressions

The part of the POSIX regular expressions in which only single characters are repeated. A pattern
gives every way to match a beginning of the text, the longest ones first, with the text of its
groups and the rest.
-/

namespace Infra

/-- A pattern without anchors. -/
inductive Rx where
  | empty
  /-- one character of a class -/
  | one (p : Byte → Bool)
  /-- `+` after a class -/
  | many (p : Byte → Bool)
  | cat (a b : Rx)
  /-- `?` or `{0,1}` -/
  | opt (a : Rx)
  /-- parentheses -/
  | group (a : Rx)

namespace Rx

/-- How many groups a pattern has. -/
def groups : Rx → Nat
  | .empty | .one _ | .many _ => 0
  | .cat a b => a.groups + b.groups
  | .opt a => a.groups
  | .group a => a.groups + 1

/-- A group that takes part in no match has no text. -/
abbrev Captures := List (Option Bytes)

/-- The matches at the beginning of a text, and what follows each. -/
def run : Rx → Bytes → List (Captures × Bytes)
  | .empty, s => [([], s)]
  | .one p, s => match s with
    | [] => []
    | b :: rest => if p b then [([], rest)] else []
  | .many p, s => (List.range (s.takeWhile p).length).reverse.map fun k => ([], s.drop (k + 1))
  | .cat a b, s => (a.run s).flatMap fun m => (b.run m.2).map fun m' => (m.1 ++ m'.1, m'.2)
  | .opt a, s => a.run s ++ [(List.replicate a.groups none, s)]
  | .group a, s => (a.run s).map fun m => (some (s.take (s.length - m.2.length)) :: m.1, m.2)

/-- `^` before the pattern, and `$` after it if `toEnd`. -/
def execAtStart (toEnd : Bool) (r : Rx) (s : Bytes) : Option (Captures × Bytes) :=
  (r.run s).find? fun m => !toEnd || m.2.isEmpty

/-- The text before a match, and what `execAtStart` says of it. -/
structure Match where
  pre : Bytes
  captures : Captures
  post : Bytes

/-- No `^` before the pattern: the leftmost match. -/
def exec (toEnd : Bool) (r : Rx) : Bytes → Option Match
  | [] => (r.execAtStart toEnd []).map fun m => ⟨[], m.1, m.2⟩
  | b :: rest =>
    match r.execAtStart toEnd (b :: rest) with
    | some m => some ⟨[], m.1, m.2⟩
    | none => (exec toEnd r rest).map fun m => { m with pre := b :: m.pre }

/-! ## Words -/

/-- A word in either case (`REG_ICASE`). -/
def word (w : Bytes) : Rx :=
  w.foldr (fun c r => .cat (.one fun b => toLower b == toLower c) r) .empty

/-- `{n}` after a class -/
def exactly (p : Byte → Bool) : Nat → Rx
  | 0 => .empty
  | n + 1 => .cat (.one p) (exactly p n)

theorem run_word (w s : Bytes) :
    (word w).run s = if w.map toLower <+: s.map toLower then [([], s.drop w.length)] else [] := by
  induction w generalizing s with
  | nil => simp [word, run]
  | cons c w ih =>
    have hrest : (word (c :: w)).run s
        = (Rx.cat (.one fun b => toLower b == toLower c) (word w)).run s := rfl
    rw [hrest]
    cases s with
    | nil => simp [run]
    | cons b s =>
      by_cases hb : toLower b = toLower c
      · simp [run, hb, ih, apply_ite (List.map _)]
      · simp [run, hb, Ne.symm hb]

/-- Something optional at the end does not decide whether there is a match. -/
theorem run_cat_opt_eq_nil_iff (a b : Rx) (s : Bytes) :
    (Rx.cat a (.opt b)).run s = [] ↔ a.run s = [] := by
  simp only [run, List.flatMap_eq_nil_iff, List.map_eq_nil_iff, List.append_eq_nil_iff]
  constructor
  · intro h
    by_contra hne
    obtain ⟨m, hm⟩ := List.exists_mem_of_ne_nil _ hne
    exact List.cons_ne_nil _ _ (h m hm).2
  · intro h m hm
    rw [h] at hm
    exact absurd hm List.not_mem_nil

theorem execAtStart_eq_none_iff (r : Rx) (s : Bytes) :
    r.execAtStart false s = none ↔ r.run s = [] := by
  simp [execAtStart, List.find?_eq_none, List.eq_nil_iff_forall_not_mem]

/-! ## Counted characters -/

section

variable {p : Byte → Bool}

theorem run_exactly (n : Nat) (s : Bytes) :
    (exactly p n).run s = if n ≤ s.length ∧ (s.take n).all p = true then [([], s.drop n)] else
    [] := by
  induction n generalizing s with
  | zero => simp [exactly, run]
  | succ n ih =>
    cases s with
    | nil => simp [exactly, run]
    | cons b s =>
      by_cases hb : p b = true
      · simp [exactly, run, hb, ih, apply_ite (List.map _)]
      · simp [exactly, run, hb]

/-- As many characters as there have to be, in parentheses. -/
theorem run_group_exactly {s : Bytes} (h : s.all p = true) (rest : Bytes) :
    (Rx.group (exactly p s.length)).run (s ++ rest) = [([some s], rest)] := by
  simp [run, run_exactly, h]

theorem mem_run_group_exactly {n : Nat} {s : Bytes} {m : Captures × Bytes}
    (h : m ∈ (Rx.group (exactly p n)).run s) :
    ∃ t, t.length = n ∧ t.all p = true ∧ s = t ++ m.2 ∧ m.1 = [some t] := by
  rw [run, run_exactly] at h
  split at h
  · rename_i hp
    rw [List.map_singleton, List.mem_singleton] at h
    subst h
    refine ⟨s.take n, List.length_take_of_le hp.1, hp.2, (List.take_append_drop n s).symm, ?_⟩
    rw [List.length_drop, Nat.sub_sub_self hp.1]
  · cases h

theorem run_cat (a b : Rx) (s : Bytes) :
    (Rx.cat a b).run s = (a.run s).flatMap fun m => (b.run m.2).map fun m' => (m.1 ++ m'.1, m'.2) :=
  rfl

theorem run_opt (a : Rx) (s : Bytes) :
    (Rx.opt a).run s = a.run s ++ [(List.replicate a.groups none, s)] := rfl

theorem mem_run_cat {a b : Rx} {s : Bytes} {m : Captures × Bytes} (h : m ∈ (Rx.cat a b).run s) :
    ∃ m₁ ∈ a.run s, ∃ m₂ ∈ b.run m₁.2, m = (m₁.1 ++ m₂.1, m₂.2) := by
  obtain ⟨m₁, hm₁, hm⟩ := List.mem_flatMap.mp h
  obtain ⟨m₂, hm₂, rfl⟩ := List.mem_map.mp hm
  exact ⟨m₁, hm₁, m₂, hm₂, rfl⟩

/-! ### The first match -/

theorem execAtStart_false (r : Rx) (s : Bytes) : r.execAtStart false s = (r.run s).head? := by
  cases h : r.run s with
  | nil => simp [execAtStart, h]
  | cons m ms => simp [execAtStart, h]

theorem run_many_eq_nil_iff (p : Byte → Bool) (s : Bytes) :
    (many p).run s = [] ↔ s.takeWhile p = [] := by
  simp [run]

/-- The longest match comes first. -/
theorem head?_run_many {s : Bytes} (h : s.takeWhile p ≠ []) :
    ((many p).run s).head? = some ([], s.dropWhile p) := by
  obtain ⟨n, hn⟩ := Nat.exists_eq_succ_of_ne_zero (fun h0 => h (List.length_eq_zero_iff.mp h0))
  have hdrop : s.drop (n + 1) = s.dropWhile p := by
    have hleft : (s.takeWhile p ++ s.dropWhile p).drop (s.takeWhile p).length = s.dropWhile p :=
      List.drop_left
    rwa [List.takeWhile_append_dropWhile, hn] at hleft
  rw [run, hn, Nat.succ_eq_add_one, List.range_succ, List.reverse_concat, List.map_cons,
    List.head?_cons, hdrop]

theorem head?_run_opt_one (q : Byte → Bool) (s : Bytes) :
    ((opt (one q)).run s).head? = some ([], if s.head?.any q = true then s.tail else s) := by
  cases s with
  | nil => rfl
  | cons b s =>
    by_cases hb : q b = true
    · simp [run, hb]
    · simp [run, hb, groups]

theorem head?_run_cat {a b : Rx} {s : Bytes} {m m' : Captures × Bytes}
    (ha : (a.run s).head? = some m) (hb : (b.run m.2).head? = some m') :
    ((cat a b).run s).head? = some (m.1 ++ m'.1, m'.2) := by
  obtain ⟨ms, hms⟩ := List.head?_eq_some_iff.mp ha
  obtain ⟨ms', hms'⟩ := List.head?_eq_some_iff.mp hb
  rw [run_cat, hms, List.flatMap_cons, hms']
  rfl

/-- The first character of a class. -/
theorem exec_one (s : Bytes) : (one p).exec false s =
    if s.any p = true then some ⟨s.takeWhile (!p ·), [], (s.dropWhile (!p ·)).tail⟩ else none := by
  induction s with
  | nil => rfl
  | cons b s ih =>
    by_cases hb : p b = true
    · simp [exec, execAtStart, run, hb]
    · by_cases hs : s.any p = true
      · simp [exec, execAtStart, run, hb, ih, hs]
      · simp [exec, execAtStart, run, hb, ih, hs]

/-! ### A pattern for what follows the last `c` -/

/-- If the pattern matches a whole text, then this starts with a `c` and has no other. -/
def OnlyFrom (c : Byte) (r : Rx) : Prop := ∀ s m, m ∈ r.run s → m.2 = [] → ∃ w, s = c :: w ∧ c ∉ w

variable {c : Byte} {r : Rx}

theorem execAtStart_eq_none_of_onlyFrom (h : OnlyFrom c r) {s : Bytes}
    (hs : ∀ w, s = c :: w → c ∈ w) :
    r.execAtStart true s = none := by
  rw [execAtStart, List.find?_eq_none]
  intro m hm hend
  obtain ⟨w, rfl, hw⟩ := h s m hm (by simpa using hend)
  exact hw (hs w rfl)

theorem exec_eq_none_of_onlyFrom (h : OnlyFrom c r) {s : Bytes} (hs : c ∉ s) :
    r.exec true s = none := by
  induction s with
  | nil => simp [exec, execAtStart_eq_none_of_onlyFrom h (s := []) nofun]
  | cons b s ih =>
    have hnone : r.execAtStart true (b :: s) = none := by
      refine execAtStart_eq_none_of_onlyFrom h fun w hw => ?_
      rw [hw] at hs
      exact absurd List.mem_cons_self hs
    rw [exec, hnone, ih (fun hmem => hs (List.mem_cons_of_mem _ hmem))]
    rfl

theorem exec_append_of_onlyFrom (h : OnlyFrom c r) (u : Bytes) {w : Bytes} (hw : c ∉ w) :
    r.exec true (u ++ c :: w) = (r.execAtStart true (c :: w)).map fun m => ⟨u, m.1, m.2⟩ := by
  induction u with
  | nil =>
    rw [List.nil_append, exec, exec_eq_none_of_onlyFrom h hw]
    cases r.execAtStart true (c :: w) <;> rfl
  | cons b u ih =>
    have hnone : r.execAtStart true (b :: (u ++ c :: w)) = none := by
      refine execAtStart_eq_none_of_onlyFrom h fun v hv => ?_
      obtain ⟨-, rfl⟩ := List.cons.inj hv
      simp
    rw [List.cons_append, exec, hnone, ih]
    cases r.execAtStart true (c :: w) <;> rfl

end

end Rx

end Infra
