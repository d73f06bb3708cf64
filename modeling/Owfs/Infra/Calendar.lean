import Mathlib

/-!
# The calendar

Days are numbered from 1 January 1970 on. They are put into years of 365 or 366 days, and the days
of a year into months, by going through the parts one after the other (`locate`). This is what
`gmtime` does; `timegm` adds the lengths up again.
-/

namespace Infra

/-! ## Parts of a line -/

/-- Where the parts before part `k` end. -/
def total (len : Nat → Nat) (k : Nat) : Nat := ((List.range k).map len).sum

/-- The part that a place is in, and the place in this part. The first argument bounds the number of
parts. -/
def locate (len : Nat → Nat) : Nat → Nat → Nat × Nat
  | 0, n => (0, n)
  | fuel + 1, n =>
    if n < len 0 then (0, n)
    else ((locate (fun i => len (i + 1)) fuel (n - len 0)).1 + 1,
      (locate (fun i => len (i + 1)) fuel (n - len 0)).2)

theorem total_succ (len : Nat → Nat) (k : Nat) : total len (k + 1) = total len k + len k := by
  simp [total, List.range_succ]

theorem total_succ' (len : Nat → Nat) (k : Nat) :
    total len (k + 1) = len 0 + total (fun i => len (i + 1)) k := by
  simp [total, List.range_succ_eq_map, Function.comp_def]

theorem total_mono (len : Nat → Nat) {j k : Nat} (h : j ≤ k) : total len j ≤ total len k := by
  induction h with
  | refl => exact Nat.le_refl _
  | step _ ih =>
    rw [total_succ]
    omega

/-- The place is in the part that was found, if there are enough of them. -/
theorem locate_spec {len : Nat → Nat} {fuel n : Nat} (h : n < total len fuel) :
    (locate len fuel n).1 < fuel ∧ total len (locate len fuel n).1 + (locate len fuel n).2 = n ∧
      (locate len fuel n).2 < len (locate len fuel n).1 := by
  induction fuel generalizing len n with
  | zero => exact absurd h (Nat.not_lt_zero n)
  | succ fuel ih =>
    rw [locate]
    by_cases hn : n < len 0
    · rw [if_pos hn]
      exact ⟨Nat.succ_pos fuel, Nat.zero_add n, hn⟩
    · rw [total_succ'] at h
      obtain ⟨hpart, hsum, hplace⟩ := @ih (fun i => len (i + 1)) (n - len 0) (by omega)
      rw [if_neg hn]
      refine ⟨Nat.succ_lt_succ hpart, ?_, hplace⟩
      dsimp only
      rw [total_succ']
      omega

/-- Parts that are not too short are enough. -/
theorem lt_total {len : Nat → Nat} {c : Nat} (hc : 0 < c) (hlen : ∀ i, c ≤ len i) (n : Nat) :
    n < total len (n / c + 1) := by
  have hmul (k : Nat) : c * k ≤ total len k := by
    induction k with
    | zero => exact Nat.zero_le _
    | succ k ih =>
      have := hlen k
      rw [total_succ, Nat.mul_succ]
      omega
  calc n < c * (n / c + 1) := Nat.lt_mul_div_succ n hc
    _ ≤ total len (n / c + 1) := hmul _

/-! ## Years and months -/

/-- Whether a year, counted from 1970, is a leap year. -/
def isLeap (year : Nat) : Bool :=
  (1970 + year) % 4 == 0 && ((1970 + year) % 100 != 0 || (1970 + year) % 400 == 0)

def yearDays (year : Nat) : Nat := if isLeap year then 366 else 365

/-- The days of a month, counted from 0. -/
def monthDays (year month : Nat) : Nat :=
  [31, if isLeap year then 29 else 28, 31, 30, 31, 30, 31, 31, 30, 31, 30, 31].getD month 0

theorem total_monthDays (year : Nat) : total (monthDays year) 12 = yearDays year := by
  cases h : isLeap year <;> simp [total, monthDays, yearDays, h, List.range_succ]

theorem yearDays_ge (year : Nat) : 365 ≤ yearDays year := by
  unfold yearDays
  split <;> decide

theorem monthDays_le (year month : Nat) : monthDays year month ≤ 31 := by
  have hall : ∀ x ∈ [31, if isLeap year then 29 else 28, 31, 30, 31, 30, 31, 31, 30, 31, 30, 31],
      x ≤ 31 := by
    cases isLeap year <;> decide
  rw [monthDays]
  by_cases hmonth : month < 12
  · rw [List.getD_eq_getElem _ _ hmonth]
    exact hall _ (List.getElem_mem hmonth)
  · rw [List.getD_eq_default _ _ (Nat.not_lt.mp hmonth)]
    exact Nat.zero_le 31

/-- The part of `struct tm` that the clock registers of a device have: years are counted from 1900
and months from 0. -/
structure Tm where
  sec : Nat
  min : Nat
  hour : Nat
  mday : Nat
  mon : Nat
  year : Nat
  wday : Nat
deriving DecidableEq, Repr

/-- `gmtime_r`, for times from 1970 on -/
def gmtime (d : Nat) : Tm :=
  let days := d / 86400
  let year := locate yearDays (days / 365 + 1) days
  let month := locate (monthDays year.1) 12 year.2
  { sec := d % 60
    min := d / 60 % 60
    hour := d / 3600 % 24
    mday := month.2 + 1
    mon := month.1
    year := year.1 + 70
    wday := (days + 4) % 7 }

/-- `timegm`, for years from 1970 on. Fields that are too large are carried over. -/
def timegm (t : Tm) : Int :=
  let year := t.year - 70 + t.mon / 12
  86400 * ((total yearDays year + total (monthDays year) (t.mon % 12) : Nat) + (t.mday : Int) - 1) +
    3600 * t.hour + 60 * t.min
    + t.sec

/-- What the fields of a time are, and where its year begins. -/
theorem gmtime_spec (d : Nat) :
    (gmtime d).sec < 60 ∧ (gmtime d).min < 60 ∧ (gmtime d).hour < 24 ∧ (gmtime d).mday ≤ 31 ∧ 1 ≤
    (gmtime d).mday ∧
      (gmtime d).mon < 12 ∧ 70 ≤ (gmtime d).year ∧ (gmtime d).wday < 7 ∧
      d / 86400 < total yearDays ((gmtime d).year - 70 + 1) ∧ timegm (gmtime d) = d := by
  have hyear := locate_spec (lt_total (by decide) yearDays_ge (d / 86400))
  generalize hy : locate yearDays (d / 86400 / 365 + 1) (d / 86400) = year at hyear
  obtain ⟨-, hsum, hplace⟩ := hyear
  have hmonth := locate_spec (hplace.trans_eq (total_monthDays year.1).symm)
  generalize hm : locate (monthDays year.1) 12 year.2 = month at hmonth
  obtain ⟨hmon, hsum', hplace'⟩ := hmonth
  have hle := monthDays_le year.1 month.1
  have htm : gmtime d =
      ⟨d % 60, d / 60 % 60, d / 3600 % 24, month.2 + 1, month.1, year.1 + 70,
      (d / 86400 + 4) % 7⟩ := by
    rw [gmtime, hy, hm]
  rw [htm]
  refine ⟨Nat.mod_lt _ (by decide), Nat.mod_lt _ (by decide), Nat.mod_lt _ (by decide), ?_, ?_,
    hmon, ?_, Nat.mod_lt _ (by decide), ?_, ?_⟩
  · exact Nat.succ_le_of_lt (Nat.lt_of_lt_of_le hplace' hle)
  · exact Nat.succ_pos _
  · exact Nat.le_add_left _ _
  · rw [Nat.add_sub_cancel, total_succ]
    omega
  · rw [timegm, Nat.add_sub_cancel, Nat.div_eq_of_lt hmon, Nat.mod_eq_of_lt hmon, Nat.add_zero]
    dsimp only
    omega

end Infra
