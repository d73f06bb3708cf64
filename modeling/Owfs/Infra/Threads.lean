import Mathlib.Algebra.BigOperators.Group.Finset.Piecewise
import Mathlib.Data.Fintype.Basic
import Mathlib.Logic.Relation
import Mathlib.Tactic.Ring

/-!
# Runs and threads

Runs of a step relation, and of a step function that fails where a step cannot be made. A
property may hold in every state of a run exactly when every step meets a condition; for that it
is enough to look at one step (`throughout_iff`).

In a system of threads that share a state, a thread is known by its place in the code, and a step
moves one thread. The invariants of such systems count the threads at certain places; a step
changes a count by what it does to the one thread that moves (`countAt_update`).
-/

namespace Infra

section

variable {σ : Type} {step : σ → σ → Prop} {I : σ → Prop} {s s' : σ}

/-- What every step preserves, every run preserves. -/
theorem invariant_of_steps (hstep : ∀ {a b}, I a → step a b → I b)
    (hrun : Relation.ReflTransGen step s s') (h : I s) : I s' := by
  induction hrun with
  | refl => exact h
  | tail _ hab ih => exact hstep ih hab

end

section

variable {σ ε : Type} (step : σ → ε → Option σ)

/-- `P` holds in every state of the run `es`, up to a step that cannot be made. -/
def Throughout (P : σ → Prop) : σ → List ε → Prop
  | s, [] => P s
  | s, e :: es => P s ∧ ∀ s', step s e = some s' → Throughout P s' es

/-- Every step that is made meets `C` in the state before it. -/
def EachStep (C : σ → ε → Prop) : σ → List ε → Prop
  | _, [] => True
  | s, e :: es => ∀ s', step s e = some s' → C s e ∧ EachStep C s' es

variable {step} {P I : σ → Prop} {C : σ → ε → Prop}

/-- What every step that meets `C` preserves holds throughout. -/
theorem throughout_of_eachStep (hgood : ∀ {s}, I s → P s)
    (hstep : ∀ {s e s'}, I s → step s e = some s' → C s e → I s') {s : σ} {es : List ε}
    (h : I s) (hes : EachStep step C s es) : Throughout step P s es := by
  induction es generalizing s with
  | nil => exact hgood h
  | cons e es ih =>
    refine ⟨hgood h, fun s' hs => ?_⟩
    obtain ⟨hc, hrest⟩ := hes s' hs
    exact ih (hstep h hs hc) hrest

/-- If a step that does not meet `C` breaks `P` at once, then `C` is exactly what is needed. -/
theorem throughout_iff (hgood : ∀ {s}, I s → P s)
    (hstep : ∀ {s e s'}, I s → step s e = some s' → C s e → I s')
    (hbad : ∀ {s e s'}, I s → step s e = some s' → ¬ C s e → ¬ P s') {s : σ} {es : List ε}
    (h : I s) : Throughout step P s es ↔ EachStep step C s es := by
  refine ⟨fun hall => ?_, throughout_of_eachStep hgood hstep h⟩
  induction es generalizing s with
  | nil => trivial
  | cons e es ih =>
    intro s' hs
    have hrest := hall.2 s' hs
    have hc : C s e := by
      by_contra hc
      refine hbad h hs hc ?_
      cases es with
      | nil => exact hrest
      | cons => exact hrest.1
    exact ⟨hc, ih (hstep h hs hc) hrest⟩

/-- What follows from `P` and an invariant that its steps preserve holds throughout, where `P`
does. -/
theorem Throughout.invariant {Q : σ → Prop} (hgood : ∀ {s}, I s → P s → Q s)
    (hstep : ∀ {s e s'}, I s → P s → step s e = some s' → I s') {s : σ} {es : List ε} (h : I s)
    (hall : Throughout step P s es) : Throughout step Q s es := by
  induction es generalizing s with
  | nil => exact hgood h hall
  | cons e es ih => exact ⟨hgood h hall.1, fun s' hs => ih (hstep h hall.1 hs) (hall.2 s' hs)⟩

instance decidableThroughout [DecidablePred P] :
    ∀ (es : List ε) (s : σ), Decidable (Throughout step P s es)
  | [], s => inferInstanceAs (Decidable (P s))
  | e :: es, s =>
    haveI := decidableThroughout es
    inferInstanceAs (Decidable (P s ∧ ∀ s' ∈ step s e, Throughout step P s' es))

end

/-! ## Mutexes -/

section

variable {P : Type} {lock : Option P} {inside inside' : P → Bool} {p q : P}

/-- The mutex is with the one thread that is inside it, or free and nobody is. -/
def Held (lock : Option P) (inside : P → Bool) : Prop := ∀ p, lock = some p ↔ inside p = true

theorem Held.free (h : Held none inside) (p : P) : inside p = false := by
  cases hp : inside p with
  | false => rfl
  | true => cases (h p).mpr hp

/-- Nobody else is inside. -/
theorem Held.other (h : Held lock inside) (hp : inside p = true) (hne : q ≠ p) :
    inside q = false := by
  cases hq : inside q with
  | false => rfl
  | true =>
    have := ((h p).mpr hp).symm.trans ((h q).mpr hq)
    exact absurd (Option.some.inj this).symm hne

theorem Held.congr (h : Held lock inside) (heq : ∀ q, inside' q = inside q) :
    Held lock inside' := by
  intro q
  rw [heq]
  exact h q

theorem Held.acquire (h : Held none inside) (hp : inside' p = true)
    (heq : ∀ q ≠ p, inside' q = inside q) :
    Held (some p) inside' := by
  intro q
  by_cases hq : q = p
  · subst hq
    exact ⟨fun _ => hp, fun _ => rfl⟩
  · rw [heq q hq, h.free q]
    exact ⟨fun he => absurd (Option.some.inj he).symm hq, nofun⟩

theorem Held.release (h : Held lock inside) (hp : inside p = true) (hp' : inside' p = false)
    (heq : ∀ q ≠ p, inside' q = inside q) : Held none inside' := by
  intro q
  refine ⟨nofun, fun hq => ?_⟩
  by_cases hqp : q = p
  · subst hqp
    rw [hp'] at hq
    cases hq
  · rw [heq q hqp, h.other hp hqp] at hq
    cases hq

end

/-! ## Counting -/

section

variable {ι P : Type} [Fintype ι]

/-- The number of threads at the places `here`. -/
def countAt (here : P → Bool) (pc : ι → P) : Nat :=
  (Finset.univ.filter fun i => here (pc i) = true).card

variable {here there : P → Bool} {pc : ι → P} {i j : ι} {p : P}

theorem countAt_eq_sum (here : P → Bool) (pc : ι → P) :
    countAt here pc = ∑ i, (here (pc i)).toNat := by
  rw [countAt, Finset.card_filter]
  refine Finset.sum_congr rfl fun i _ => ?_
  cases here (pc i) <;> rfl

theorem countAt_pos (h : here (pc i) = true) : 0 < countAt here pc :=
  Finset.card_pos.mpr ⟨i, Finset.mem_filter.mpr ⟨Finset.mem_univ i, h⟩⟩

theorem countAt_eq_zero_iff : countAt here pc = 0 ↔ ∀ i, here (pc i) = false := by
  rw [countAt, Finset.card_eq_zero, Finset.filter_eq_empty_iff]
  exact ⟨fun h i => Bool.eq_false_iff.mpr (h (Finset.mem_univ i)),
    fun h i _ => Bool.eq_false_iff.mp (h i)⟩

theorem countAt_eq_zero_of_mem {places : List P} (hpc : ∀ i, pc i ∈ places)
    (h : ∀ p ∈ places, here p = false) : countAt here pc = 0 :=
  countAt_eq_zero_iff.mpr fun i => h _ (hpc i)

/-- Two threads make two. -/
theorem two_le_countAt (hi : here (pc i) = true) (hj : here (pc j) = true) (hij : i ≠ j) :
    2 ≤ countAt here pc :=
  Finset.one_lt_card.mpr ⟨i, Finset.mem_filter.mpr ⟨Finset.mem_univ i, hi⟩,
    j, Finset.mem_filter.mpr ⟨Finset.mem_univ j, hj⟩, hij⟩

theorem countAt_le_countAt (h : ∀ p, here p = true → there p = true) :
    countAt here pc ≤ countAt there pc :=
  Finset.card_le_card fun i hi => Finset.mem_filter.mpr
    ⟨Finset.mem_univ i, h _ (Finset.mem_filter.mp hi).2⟩

/-- A step changes a count by the thread that moves. -/
theorem countAt_update [DecidableEq ι] (here : P → Bool) (pc : ι → P) (i : ι) (p : P) :
    countAt here (Function.update pc i p) + (here (pc i)).toNat = countAt here pc +
      (here p).toNat := by
  have hrest : ∑ j ∈ Finset.univ.erase i, (here (Function.update pc i p j)).toNat
      = ∑ j ∈ Finset.univ.erase i, (here (pc j)).toNat := by
    refine Finset.sum_congr rfl fun j hj => ?_
    rw [Function.update_of_ne (Finset.ne_of_mem_erase hj)]
  rw [countAt_eq_sum, countAt_eq_sum, ← Finset.add_sum_erase _ _ (Finset.mem_univ i), hrest,
    Function.update_self, ← Finset.add_sum_erase _ _ (Finset.mem_univ i)]
  ring

/-- A count that does not see the step. -/
theorem countAt_update_of_eq [DecidableEq ι] (h : here p = here (pc i)) :
    countAt here (Function.update pc i p) = countAt here pc := by
  have := countAt_update here pc i p
  rw [h] at this
  omega

end

end Infra
