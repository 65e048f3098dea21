import Marginalia.Calendar
import Mathlib.Tactic.ByContra

/-! Dates are days. The day of a date is computed back from its year, month and day of the month,
over all years, so no two days have one date. -/
namespace Marginalia.Date

/-- The first day of a year within its cycle of 400 years that start in March. -/
def yearStart (year : Nat) : Nat := 365 * year + year / 4 - year / 100

/-- The year within its cycle that a day of the cycle lies in. -/
def yearOf (day : Nat) : Nat := (day - day / 1460 + day / 36524 - day / 146096) / 365

/-- The day, counted from 1 January 1970, that has a given date. -/
def toDays (d : Date) : Int :=
  let year := d.year - if d.month ≤ 2 then 1 else 0
  let fromMarch := if d.month ≤ 2 then d.month + 9 else d.month - 3
  year / 400 * 146097 + yearStart (year % 400).toNat +
    ((153 * fromMarch + 2) / 5 + d.day - 1 : Nat) - 719468

variable {a b day : Nat}

theorem yearOf_mono (hab : a ≤ b) (hb : b < 146097) : yearOf a ≤ yearOf b := by
  have hfours : a - a / 1460 ≤ b - b / 1460 := by omega
  have hcenturies : a / 36524 ≤ b / 36524 := Nat.div_le_div_right hab
  rw [yearOf, yearOf]
  -- Only the last day of a cycle is counted down once more.
  by_cases hlast : b = 146096
  · omega
  · have hb' : b / 146096 = 0 := Nat.div_eq_of_lt (by omega)
    apply Nat.div_le_div_right
    omega

theorem yearOf_lt (h : day < 146097) : yearOf day < 400 := by
  rw [yearOf]
  omega

/-- Each year starts a day after the year before it has ended. -/
theorem yearOf_before_start : ∀ year < 401, 0 < year → yearOf (yearStart year - 1) < year := by
  decide +kernel

theorem lt_yearOf_after_end : ∀ year < 400, yearStart year + 366 < 146097 →
    year < yearOf (yearStart year + 366) := by
  decide +kernel

theorem yearStart_yearOf_le (h : day < 146097) : yearStart (yearOf day) ≤ day := by
  by_contra hday
  have hpos : 0 < yearOf day := by
    by_contra hzero
    rw [Nat.eq_zero_of_not_pos hzero] at hday
    exact hday (Nat.zero_le _)
  have hyear := yearOf_lt h
  have hbefore := yearOf_before_start (yearOf day) (by omega) hpos
  have hstart : yearStart (yearOf day) - 1 < 146097 := by
    rw [yearStart]
    omega
  have hmono := yearOf_mono (a := day) (by omega) hstart
  omega

theorem lt_yearStart_yearOf_add (h : day < 146097) : day < yearStart (yearOf day) + 366 := by
  by_contra hday
  have hafter := lt_yearOf_after_end (yearOf day) (yearOf_lt h) (by omega)
  have hmono := yearOf_mono (a := yearStart (yearOf day) + 366) (by omega) h
  omega

/-- The date of a day of a year, both counted from March, in a cycle. -/
def ofYearDay (cycle : Int) (year inYear : Nat) : Date :=
  let fromMarch := (5 * inYear + 2) / 153
  let month := if fromMarch < 10 then fromMarch + 3 else fromMarch - 9
  ⟨year + cycle * 400 + (if month ≤ 2 then 1 else 0), month,
    inYear - (153 * fromMarch + 2) / 5 + 1⟩

theorem ofDays_eq_ofYearDay (days : Int) :
    let day := ((days + 719468) % 146097).toNat
    ofDays days =
      ofYearDay ((days + 719468) / 146097) (yearOf day) (day - yearStart (yearOf day)) := rfl

theorem toDays_ofYearDay {year inYear : Nat} (cycle : Int) (hyear : year < 400)
    (hday : inYear < 366) :
    (ofYearDay cycle year inYear).toDays = cycle * 146097 + yearStart year + inYear - 719468 := by
  generalize hmarch : (5 * inYear + 2) / 153 = fromMarch
  -- The months before March belong to the next year, and are the last of twelve.
  have hmonth : fromMarch ≤ 11 := by omega
  have hcycle : ((year : Int) + cycle * 400) / 400 = cycle := by omega
  have hrest : (((year : Int) + cycle * 400) % 400).toNat = year := by omega
  simp only [ofYearDay, toDays, hmarch]
  by_cases hearly : fromMarch < 10
  · have hlate : ¬ fromMarch + 3 ≤ 2 := by omega
    simp only [hearly, hlate, if_true, if_false, Int.add_zero, Int.sub_zero, hcycle, hrest,
      Nat.add_sub_cancel]
    omega
  · have hlate : fromMarch - 9 ≤ 2 := by omega
    have hback : fromMarch - 9 + 9 = fromMarch := by omega
    simp only [hearly, hlate, if_true, if_false, Int.add_sub_cancel, hcycle, hrest, hback]
    omega

/-- The day of a date is the day that the date was computed from. -/
theorem toDays_ofDays (days : Int) : (ofDays days).toDays = days := by
  have hday : ((days + 719468) % 146097).toNat < 146097 := by omega
  have hcast : (((days + 719468) % 146097).toNat : Int) = (days + 719468) % 146097 := by omega
  have hsplit := ofDays_eq_ofYearDay days
  generalize ((days + 719468) % 146097).toNat = day at hday hcast hsplit
  have hstart := yearStart_yearOf_le hday
  have hend := lt_yearStart_yearOf_add hday
  rw [hsplit, toDays_ofYearDay _ (yearOf_lt hday) (by omega)]
  omega

end Marginalia.Date
