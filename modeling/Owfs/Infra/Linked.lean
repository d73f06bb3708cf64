import Mathlib.Data.List.Nodup
import Mathlib.Logic.Function.Basic

/-!
# Doubly linked lists

A doubly linked list is kept in the links of its elements: each one has a link to the one before it
and a link to the one behind it, and the two ends are known. `Seg` follows links from one place to
another, and `Links.IsList` says that the links are those of a list, in both directions.

An element is added behind the last one, and an element is taken out from where it stands. A link
that leads nowhere cannot be followed, and there the operations fail; on the links of a list they do
not.
-/

namespace Infra

variable {ι : Type}

/-! ## Segments -/

/-- From `p` the links go through `L`, and stand at `q` then. -/
def Seg (next : ι → Option ι) : Option ι → List ι → Option ι → Prop
  | p, [], q => p = q
  | p, x :: L, q => p = some x ∧ Seg next (next x) L q

variable {next next' : ι → Option ι} {p q r : Option ι} {L R : List ι} {x y : ι}

theorem seg_append : Seg next p (L ++ R) q ↔ ∃ r, Seg next p L r ∧ Seg next r R q := by
  induction L generalizing p with
  | nil => simp [Seg]
  | cons x L ih =>
    rw [List.cons_append, Seg, ih]
    constructor
    · rintro ⟨hp, r, hL, hR⟩
      exact ⟨r, ⟨hp, hL⟩, hR⟩
    · rintro ⟨r, ⟨hp, hL⟩, hR⟩
      exact ⟨hp, r, hL, hR⟩

/-- Only the links of its elements count. -/
theorem Seg.congr (h : Seg next p L q) (heq : ∀ x ∈ L, next' x = next x) : Seg next' p L q := by
  induction L generalizing p with
  | nil => exact h
  | cons x L ih =>
    obtain ⟨hp, hL⟩ := h
    rw [Seg, heq x List.mem_cons_self]
    exact ⟨hp, ih hL fun y hy => heq y (List.mem_cons_of_mem x hy)⟩

theorem Seg.head (h : Seg next p L none) : p = L.head? := by
  cases L with
  | nil => exact h
  | cons x L => exact h.1

/-- The link of an element leads to the one behind it. -/
theorem Seg.next_eq (h : Seg next p (L ++ x :: R) none) : next x = R.head? := by
  obtain ⟨r, -, -, hR⟩ := seg_append.mp h
  exact hR.head

section

variable [DecidableEq ι]

/-- Sets the link of an element that a link leads to. -/
def setAt (f : ι → Option ι) (p v : Option ι) : ι → Option ι :=
  match p with
  | none => f
  | some x => Function.update f x v

theorem setAt_of_ne {f : ι → Option ι} {v : Option ι} (h : p ≠ some x) : setAt f p v x = f x := by
  cases p with
  | none => rfl
  | some y => exact Function.update_of_ne (fun heq => h (congrArg some heq.symm)) _ _

/-- The last link of a segment can be led elsewhere. -/
theorem Seg.redirect (h : Seg next p (L ++ [y]) q) (hy : y ∉ L) :
    Seg (Function.update next y r) p (L ++ [y]) r := by
  obtain ⟨_, hL, rfl, -⟩ := seg_append.mp h
  refine seg_append.mpr ⟨_, hL.congr fun z hz => ?_, rfl, Function.update_self ..⟩
  exact Function.update_of_ne (ne_of_mem_of_not_mem hz hy) _ _

/-- Links that go around an element. -/
theorem Seg.around (h : Seg next p (L ++ x :: R) none) (hnodup : (L ++ x :: R).Nodup) :
    Seg (Function.update (setAt next L.getLast? R.head?) x none) (L ++ R).head? (L ++ R) none := by
  obtain ⟨hL, hxR, hdisj⟩ := List.nodup_append.mp hnodup
  obtain ⟨hx, hR⟩ := List.nodup_cons.mp hxR
  have hxL : x ∉ L := fun hmem => hdisj x hmem x List.mem_cons_self rfl
  obtain ⟨s, hseg, rfl, hrest⟩ := seg_append.mp h
  rw [hrest.head] at hrest
  have hR' : Seg (Function.update (setAt next L.getLast? R.head?) x none) R.head? R none := by
    refine hrest.congr fun z hz => ?_
    rw [Function.update_of_ne (ne_of_mem_of_not_mem hz hx)]
    refine setAt_of_ne fun hlast => ?_
    exact hdisj z (List.mem_of_getLast? hlast) z (List.mem_cons_of_mem x hz) rfl
  rcases List.eq_nil_or_concat L with rfl | ⟨L', y, rfl⟩
  · exact hR'
  · rw [List.concat_eq_append] at *
    have hy : y ∉ L' := by
      rw [List.nodup_append] at hL
      exact fun hmem => hL.2.2 y hmem y List.mem_cons_self rfl
    have hp : (L' ++ [y] ++ R).head? = p := by
      rw [show p = (L' ++ [y] ++ x :: R).head? from h.head]
      cases L' <;> rfl
    rw [hp]
    refine seg_append.mpr ⟨R.head?, (hseg.redirect hy).congr fun z hz => ?_, hR'⟩
    rw [Function.update_of_ne (ne_of_mem_of_not_mem hz hxL), List.getLast?_append,
      List.getLast?_singleton]
    rfl

end

/-! ## Lists -/

/-- The two ends of a list, and the links of its elements. -/
structure Links (ι : Type) where
  first : Option ι
  last : Option ι
  prev : ι → Option ι
  next : ι → Option ι

namespace Links

/-- The links are those of the list `L`. -/
structure IsList (l : Links ι) (L : List ι) : Prop where
  nodup : L.Nodup
  forward : Seg l.next l.first L none
  backward : Seg l.prev l.last L.reverse none

variable {l : Links ι}

theorem IsList.first_eq (h : l.IsList L) : l.first = L.head? := h.forward.head

theorem IsList.last_eq (h : l.IsList L) : l.last = L.getLast? := by
  rw [h.backward.head, List.head?_reverse]

theorem IsList.next_eq (h : l.IsList (L ++ x :: R)) : l.next x = R.head? := h.forward.next_eq

theorem IsList.prev_eq (h : l.IsList (L ++ x :: R)) : l.prev x = L.getLast? := by
  have hback := h.backward
  rw [List.reverse_append, List.reverse_cons, List.append_assoc, List.singleton_append] at hback
  rw [hback.next_eq, List.head?_reverse]

theorem IsList.last_iff (h : l.IsList (L ++ x :: R)) : l.last = some x ↔ R = [] := by
  rw [h.last_eq]
  rcases List.eq_nil_or_concat R with rfl | ⟨R, z, rfl⟩
  · simp
  · rw [List.concat_eq_append, List.getLast?_append, List.getLast?_cons, List.getLast?_append]
    have hnodup := (List.nodup_append.mp h.nodup).2.1
    rw [List.concat_eq_append, List.nodup_cons] at hnodup
    simp only [List.getLast?_singleton, Option.some_or, Option.getD_some, Option.some.injEq,
      List.append_eq_nil_iff, List.cons_ne_self, and_false, iff_false]
    rintro rfl
    exact hnodup.1 (List.mem_append_right R List.mem_cons_self)

theorem IsList.first_iff (h : l.IsList (L ++ x :: R)) : l.first = some x ↔ L = [] := by
  rw [h.first_eq]
  rcases L with - | ⟨y, L⟩
  · simp
  · have hnodup := (List.nodup_cons.mp h.nodup).1
    simp only [List.cons_append, List.head?_cons, Option.some.injEq, reduceCtorEq, iff_false]
    rintro rfl
    exact hnodup (List.mem_append_right L List.mem_cons_self)

variable [DecidableEq ι]

/-- Adds an element behind the last one. -/
def append (l : Links ι) (x : ι) : Option (Links ι) :=
  let prev := Function.update l.prev x l.last
  let next := Function.update l.next x none
  match l.first with
  | none => some ⟨some x, some x, prev, next⟩
  | some _ => l.last.map fun y => ⟨l.first, some x, prev, Function.update next y (some x)⟩

/-- Links the one before an element to the one behind it, or to the end of the list. -/
def unlinkNext (l : Links ι) (x : ι) : Option (Links ι) :=
  match l.next x with
  | none =>
    if l.last = some x then some { l with last := l.prev x, next := setAt l.next (l.prev x) none }
      else none
  | some z =>
    if l.last = some x then none else some { l with prev := Function.update l.prev z (l.prev x) }

/-- And the one behind it to the one before it. -/
def unlinkPrev (l : Links ι) (x : ι) : Option (Links ι) :=
  match l.prev x with
  | none =>
    if l.first = some x then some { l with first := l.next x, prev := setAt l.prev (l.next x) none }
      else none
  | some y =>
    if l.first = some x then none else some { l with next := Function.update l.next y (l.next x) }

/-- Takes an element out. -/
def unlink (l : Links ι) (x : ι) : Option (Links ι) := do
  let l ← l.unlinkNext x
  let l ← l.unlinkPrev x
  some { l with prev := Function.update l.prev x none, next := Function.update l.next x none }

/-- On the links of a list both ends are there. -/
theorem IsList.append_eq (h : l.IsList L) (x : ι) :
    l.append x = some ⟨(L ++ [x]).head?, some x, Function.update l.prev x l.last,
      setAt (Function.update l.next x none) L.getLast? (some x)⟩ := by
  unfold append
  rw [h.first_eq, h.last_eq]
  rcases List.eq_nil_or_concat L with rfl | ⟨L, y, rfl⟩
  · rfl
  · rw [List.concat_eq_append, List.getLast?_append]
    cases L <;> rfl

theorem IsList.append (h : l.IsList L) (hx : x ∉ L) :
    ∃ l', l.append x = some l' ∧ l'.IsList (L ++ [x]) := by
  refine ⟨_, h.append_eq x, ?_, ?_, ?_⟩
  · rw [List.nodup_append]
    refine ⟨h.nodup, List.nodup_singleton x, fun y hy z hz heq => hx ?_⟩
    rw [← List.mem_singleton.mp hz, ← heq]
    exact hy
  · rcases List.eq_nil_or_concat L with rfl | ⟨L, y, rfl⟩
    · exact ⟨rfl, Function.update_self ..⟩
    · rw [List.concat_eq_append] at *
      have hne : x ≠ y := fun heq => hx (heq ▸ List.mem_append_right L List.mem_cons_self)
      have hnext : Seg (Function.update l.next x none) (L ++ [y] ++ [x]).head? (L ++ [y]) none := by
        rw [show (L ++ [y] ++ [x]).head? = l.first by rw [h.first_eq]; cases L <;> rfl]
        exact h.forward.congr fun z hz => Function.update_of_ne (ne_of_mem_of_not_mem hz hx) _ _
      have hy : y ∉ L := by
        have hnodup := h.nodup
        rw [List.nodup_append] at hnodup
        exact fun hmem => hnodup.2.2 y hmem y List.mem_cons_self rfl
      refine seg_append.mpr ⟨some x, ?_, rfl, ?_⟩
      · rw [List.getLast?_append]
        exact hnext.redirect hy
      · rw [List.getLast?_append]
        exact (Function.update_of_ne hne _ _).trans (Function.update_self ..)
  · rw [List.reverse_append, List.reverse_singleton, List.singleton_append]
    refine ⟨rfl, ?_⟩
    simp only [Function.update_self]
    exact h.backward.congr fun z hz =>
      Function.update_of_ne (ne_of_mem_of_not_mem (List.mem_reverse.mp hz) hx) _ _

/-- Behind the element only the end of the list or the one that follows is changed. -/
theorem IsList.unlinkNext_eq (h : l.IsList (L ++ x :: R)) :
    l.unlinkNext x = some ⟨l.first, (L ++ R).getLast?, setAt l.prev R.head? L.getLast?,
      if R = [] then setAt l.next L.getLast? none else l.next⟩ := by
  have hlast := h.last_iff
  unfold unlinkNext
  rw [h.next_eq, h.prev_eq]
  rcases R with - | ⟨z, R⟩
  · rw [List.head?_nil]
    simp only [if_pos (hlast.mpr rfl), List.append_nil]
    rfl
  · have hne : l.last ≠ some x := fun heq => List.cons_ne_nil z R (hlast.mp heq)
    have hend : l.last = (L ++ z :: R).getLast? := by
      rw [h.last_eq, List.getLast?_append, List.getLast?_append, List.getLast?_cons_cons]
    rw [List.head?_cons]
    simp only [if_neg hne, ← hend]
    rfl

theorem unlinkPrev_eq {first last : Option ι} {prev : ι → Option ι} (hprev : prev x = L.getLast?)
    (hnext : next x = R.head?) (hfirst : first = some x ↔ L = [])
    (hhead : first = (L ++ x :: R).head?) :
    (Links.mk first last prev next).unlinkPrev x = some ⟨(L ++ R).head?, last,
      if L = [] then setAt prev R.head? none else prev, setAt next L.getLast? R.head?⟩ := by
  unfold unlinkPrev
  simp only [hprev, hnext]
  rcases List.eq_nil_or_concat L with rfl | ⟨L, y, rfl⟩
  · rw [List.getLast?_nil]
    simp only [if_pos (hfirst.mpr rfl)]
    rfl
  · rw [List.concat_eq_append] at *
    have hne : first ≠ some x :=
      fun heq => List.append_ne_nil_of_right_ne_nil L (List.cons_ne_nil y []) (hfirst.mp heq)
    have hend : first = (L ++ [y] ++ R).head? := by
      rw [hhead]
      cases L <;> rfl
    rw [List.getLast?_append, List.getLast?_singleton, Option.some_or]
    simp only [if_neg hne, ← hend, List.append_eq_nil_iff, List.cons_ne_self, and_false, if_false]
    rfl

theorem setAt_setAt (f : ι → Option ι) (p q r : Option ι) :
    setAt (setAt f p q) p r = setAt f p r := by
  cases p with
  | none => rfl
  | some x => exact Function.update_idem ..

/-- An element of a list stands where its links say. -/
theorem IsList.unlink_eq (h : l.IsList (L ++ x :: R)) :
    l.unlink x = some ⟨(L ++ R).head?, (L ++ R).getLast?,
      Function.update (setAt l.prev R.head? L.getLast?) x none,
      Function.update (setAt l.next L.getLast? R.head?) x none⟩ := by
  obtain ⟨-, hxR, hdisj⟩ := List.nodup_append.mp h.nodup
  have hxR := (List.nodup_cons.mp hxR).1
  have hne : L.getLast? ≠ some x :=
    fun heq => hdisj x (List.mem_of_getLast? heq) x List.mem_cons_self rfl
  have hne' : R.head? ≠ some x := fun heq => hxR (List.mem_of_head? heq)
  have hprev : setAt l.prev R.head? L.getLast? x = L.getLast? := by rw [setAt_of_ne hne', h.prev_eq]
  have hnext : (if R = [] then setAt l.next L.getLast? none else l.next) x = R.head? := by
    split
    · rw [setAt_of_ne hne, h.next_eq]
    · exact h.next_eq
  unfold unlink
  rw [h.unlinkNext_eq, Option.bind_eq_bind, Option.bind_some,
    unlinkPrev_eq hprev hnext h.first_iff h.first_eq, Option.bind_some]
  congr 2
  · rcases L with - | ⟨y, L⟩
    · rw [if_pos rfl, setAt_setAt]
      rfl
    · rw [if_neg (List.cons_ne_nil y L)]
  · rcases R with - | ⟨z, R⟩
    · exact congrArg (Function.update · x none) (setAt_setAt ..)
    · rw [if_neg (List.cons_ne_nil z R)]

theorem IsList.unlink (h : l.IsList (L ++ x :: R)) :
    ∃ l', l.unlink x = some l' ∧ l'.IsList (L ++ R) := by
  have hback := h.backward
  have hnodup := h.nodup
  have hreverse : (L ++ x :: R).reverse = R.reverse ++ x :: L.reverse := by simp
  refine ⟨_, h.unlink_eq, hnodup.sublist ?_, h.forward.around hnodup, ?_⟩
  · exact (List.sublist_cons_self x R).append_left L
  · rw [hreverse] at hback
    have haround := hback.around (hreverse ▸ List.nodup_reverse.mpr hnodup)
    rwa [List.getLast?_reverse, List.head?_reverse, ← List.reverse_append,
      List.head?_reverse] at haround

end Links

end Infra
