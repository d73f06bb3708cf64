import Owfs.Infra.Bytes
import Owfs.Infra.Calendar

/-!
# The clock of a DS1921

Seven registers have the time, two decimal digits in each, with the century in the top bit of the
month. `OW_date` writes them and `OW_2date` reads them (`ow_1921.c`). Both count the months from 0.
-/

namespace Owfs.Ds1921

open Infra

/-- A number below 100 as two decimal digits. -/
def toBcd (n : Nat) : Byte := BitVec.ofNat 8 (n + 6 * (n / 10))

/-- `OW_date` -/
def owDate (d : Nat) : Bytes :=
  let tm := gmtime d
  let month := toBcd tm.mon
  [toBcd tm.sec, toBcd tm.min, toBcd tm.hour, BitVec.ofNat 8 tm.wday, toBcd tm.mday,
    if 99 < tm.year ∧ tm.year < 200 then month ||| 0x80 else month, toBcd (tm.year % 100)]

/-- The number of two decimal digits. -/
def fromBcd (b : Byte) : Nat := (b &&& 0x0F).toNat + 10 * (b >>> 4).toNat

/-- `ampm`: what the upper half of the hours stands for. With bit 6 they go to 12 and bit 5 is for
the afternoon. -/
def ampm : List Nat := [0, 10, 20, 30, 0, 10, 12, 22]

/-- `OW_2date`. The fields that the registers do not have are those of the present time `now`. There
are only eight entries in `ampm`, but four bits select one: to read behind them is a fault, here
`none`. A time that is refused is `some none`. -/
def ow2date (now : Nat) (data : Bytes) : Option (Option Int) :=
  let register (i : Nat) : Byte := data.getD i 0
  (ampm[((register 2) >>> 4).toNat]?).map fun hours =>
    let t : Tm := { gmtime now with
      sec := fromBcd (register 0)
      min := fromBcd (register 1)
      hour := ((register 2) &&& 0x0F).toNat + hours
      mday := fromBcd (register 4)
      mon := ((register 5) &&& 0x0F).toNat + 10 * (((register 5) &&& 0x10) >>> 4).toNat
      year := fromBcd (register 6) + 100 * (2 - ((register 5) >>> 7).toNat) }
    if timegm t = -1 then none else some (timegm t)

/-! ## Digits -/

/-- Both halves of a byte are decimal digits. -/
def IsBcd (b : Byte) : Prop := (b &&& 0x0F).toNat ≤ 9 ∧ (b >>> 4).toNat ≤ 9

instance (b : Byte) : Decidable (IsBcd b) := inferInstanceAs (Decidable (_ ∧ _))

theorem isBcd_toBcd : ∀ n < 100, IsBcd (toBcd n) := by decide +kernel

theorem fromBcd_toBcd : ∀ n < 100, fromBcd (toBcd n) = n := by decide +kernel

/-- The hours of a day are in the first three entries of `ampm`. -/
theorem ampm_toBcd : ∀ n < 24, ampm[(toBcd n >>> 4).toNat]? = some (10 * (n / 10)) ∧
    (toBcd n &&& 0x0F).toNat = n % 10 := by
  decide +kernel

/-- The month with or without the century, and the century. -/
theorem month_toBcd : ∀ n < 12, ∀ century : Bool,
    let b := if century then toBcd n ||| 0x80 else toBcd n
    IsBcd (b &&& 0x7F) ∧ (b &&& 0x0F).toNat + 10 * ((b &&& 0x10) >>> 4).toNat = n ∧
      (b >>> 7).toNat = century.toNat := by
  decide +kernel

theorem isBcd_wday : ∀ n < 7, IsBcd (BitVec.ofNat 8 n) := by decide

/-! ## Writing and reading -/

/-- All registers have decimal digits, apart from the bit for the century. -/
theorem isBcd_owDate (d : Nat) :
    ∀ i < 7, IsBcd (if i = 5 then (owDate d).getD i 0 &&& 0x7F else (owDate d).getD i 0) := by
  obtain ⟨hsec, hmin, hhour, hmday, -, hmon, -, hwday, -, -⟩ := gmtime_spec d
  have hmonth :=
    (month_toBcd (gmtime d).mon hmon (decide (99 < (gmtime d).year ∧ (gmtime d).year < 200))).1
  simp only [decide_eq_true_eq] at hmonth
  intro i hi
  match i with
  | 0 => exact isBcd_toBcd _ (by omega)
  | 1 => exact isBcd_toBcd _ (by omega)
  | 2 => exact isBcd_toBcd _ (by omega)
  | 3 => exact isBcd_wday _ hwday
  | 4 => exact isBcd_toBcd _ (by omega)
  | 5 => exact hmonth
  | 6 => exact isBcd_toBcd _ (Nat.mod_lt _ (by decide))

/-- What is read: the time that was written, but in a year of the century that the bit stands
for. -/
theorem ow2date_owDate (now d : Nat) :
    ∃ t : Tm, t.sec = (gmtime d).sec ∧ t.min = (gmtime d).min ∧ t.hour = (gmtime d).hour ∧
    t.mday = (gmtime d).mday ∧ t.mon = (gmtime d).mon ∧
    t.year = (gmtime d).year % 100 +
    (if 99 < (gmtime d).year ∧ (gmtime d).year < 200 then 100 else 200) ∧
    ow2date now (owDate d) = some (if timegm t = -1 then none else some (timegm t)) := by
  obtain ⟨hsec, hmin, hhour, hmday, -, hmon, -, -, -, -⟩ := gmtime_spec d
  obtain ⟨-, hmonth, hcentury⟩ :=
    month_toBcd (gmtime d).mon hmon (decide (99 < (gmtime d).year ∧ (gmtime d).year < 200))
  obtain ⟨hampm, hunits⟩ := ampm_toBcd (gmtime d).hour hhour
  simp only [decide_eq_true_eq] at hmonth hcentury
  refine ⟨⟨(gmtime d).sec, (gmtime d).min, (gmtime d).hour, (gmtime d).mday, (gmtime d).mon, _,
    (gmtime now).wday⟩, rfl, rfl, rfl, rfl, rfl, rfl, ?_⟩
  have hyear : 100 * (2 - (decide (99 < (gmtime d).year ∧ (gmtime d).year < 200)).toNat)
      = if 99 < (gmtime d).year ∧ (gmtime d).year < 200 then 100 else 200 := by
    by_cases h : 99 < (gmtime d).year ∧ (gmtime d).year < 200
    · simp [h]
    · simp [h]
  have hhour' : (gmtime d).hour % 10 + 10 * ((gmtime d).hour / 10) = (gmtime d).hour :=
    Nat.mod_add_div _ _
  simp only [ow2date, owDate, List.getD_cons_zero, List.getD_cons_succ, hampm, Option.map_some,
    hunits, hhour', hmonth, hcentury, hyear, fromBcd_toBcd (gmtime d).sec (by omega),
    fromBcd_toBcd (gmtime d).min (by omega), fromBcd_toBcd (gmtime d).mday (by omega),
    fromBcd_toBcd ((gmtime d).year % 100) (Nat.mod_lt _ (by decide))]

theorem timegm_congr {t u : Tm} (hsec : t.sec = u.sec) (hmin : t.min = u.min)
    (hhour : t.hour = u.hour) (hmday : t.mday = u.mday) (hmon : t.mon = u.mon)
    (hyear : t.year = u.year) : timegm t = timegm u := by
  rw [timegm, timegm, hsec, hmin, hhour, hmday, hmon, hyear]

/-- A time of a later year is later. -/
theorem lt_timegm {d : Nat} {t : Tm} (hyear : (gmtime d).year < t.year) (hmday : 1 ≤ t.mday) :
    (d : Int) < timegm t := by
  obtain ⟨-, -, -, -, -, -, hyear', -, hend, -⟩ := gmtime_spec d
  have hbegin : total yearDays ((gmtime d).year - 70 + 1) ≤
      total yearDays (t.year - 70 + t.mon / 12) :=
    total_mono yearDays (by omega)
  rw [timegm]
  omega

/-- **The clock.** The registers that are written have decimal digits, and a time of the years 1970
to 2199 is read as it was written if and only if it is of the year 2000 or later: the last century
has no bit of its own, and is taken for the next one. -/
theorem clock_iff (now d : Nat) (h : (gmtime d).year ≤ 299) :
    (∀ i < 7, IsBcd (if i = 5 then (owDate d).getD i 0 &&& 0x7F else (owDate d).getD i 0)) ∧
      (ow2date now (owDate d) = some (some (d : Int)) ↔ 100 ≤ (gmtime d).year) := by
  refine ⟨isBcd_owDate d, ?_⟩
  obtain ⟨-, -, -, -, hmday', -, hyear', -, -, htime⟩ := gmtime_spec d
  obtain ⟨t, hsec, hmin, hhour, hmday, hmon, hyear, hread⟩ := ow2date_owDate now d
  rw [hread]
  by_cases hcentury : 100 ≤ (gmtime d).year
  · refine iff_of_true ?_ hcentury
    have hsame : t.year = (gmtime d).year := by
      rw [hyear]
      split <;> omega
    rw [timegm_congr hsec hmin hhour hmday hmon hsame, htime, if_neg (by omega)]
  · refine iff_of_false ?_ hcentury
    have hlater : (d : Int) < timegm t := by
      refine lt_timegm ?_ (by omega)
      rw [hyear, if_neg (by omega)]
      omega
    rw [if_neg (by omega)]
    intro heq
    have := Option.some.inj (Option.some.inj heq)
    omega

/-- 1 July 2026 -/
theorem clock_iff_july :
    (∀ i < 7, IsBcd (if i = 5 then (owDate 1782864000).getD i 0 &&& 0x7F
      else (owDate 1782864000).getD i 0)) ∧
      (ow2date 0 (owDate 1782864000) = some (some (1782864000 : Int)) ↔
      100 ≤ (gmtime 1782864000).year) :=
  clock_iff 0 1782864000 (by decide +kernel)

/-- The first second of 1999 becomes the first second of 2199. -/
theorem clock_1999 : (gmtime 915148800).year = 99 ∧
    ow2date 0 (owDate 915148800) = some (some 7226582400) ∧
    ow2date 0 (owDate 915148800) ≠ some (some 915148800) := by
  decide +kernel

end Owfs.Ds1921
