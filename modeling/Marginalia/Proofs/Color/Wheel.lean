import Marginalia.Color.Hsl
import Mathlib.Algebra.Order.Group.MinMax
import Mathlib.Algebra.Order.Round
import Mathlib.Data.Rat.Floor
import Mathlib.Tactic.IntervalCases
import Mathlib.Tactic.Linarith

/-! The color wheel in exact arithmetic. Its circle has six sixths; red, green and blue stand at
places 0, 2 and 4, and how bright each of them is depends on its distance along the circle. -/
namespace Marginalia

namespace Hsl

variable {s t : ℚ}

/-- How bright a channel is `t` sixths from its place on the circle: full up to one sixth away,
dark from two sixths on, and on a straight line between the two. -/
def glow (t : ℚ) : ℚ := max 0 (min 1 (2 - 6 * |t / 6 - round (t / 6)|))

theorem glow_nonneg (t : ℚ) : 0 ≤ glow t := le_max_left _ _

theorem glow_le_one (t : ℚ) : glow t ≤ 1 := max_le zero_le_one (min_le_left _ _)

theorem abs_glow_le_one (t : ℚ) : |glow t| ≤ 1 := by
  rw [abs_of_nonneg (glow_nonneg t)]
  exact glow_le_one t

/-- Whole turns lead back to the same place. -/
theorem glow_add_turns (t : ℚ) (k : ℤ) : glow (t + 6 * k) = glow t := by
  have hturn : (t + 6 * k) / 6 = t / 6 + k := by ring
  rw [glow, glow, hturn, round_add_intCast, Int.cast_add, add_sub_add_right_eq_sub]

/-- A distance to the nearest whole number changes as slowly as the number itself. -/
theorem abs_sub_round_le (s t : ℚ) : |s - round s| ≤ |t - round t| + |s - t| :=
  calc |s - round s|
      ≤ |s - round t| := round_le s (round t)
    _ = |(t - round t) + (s - t)| := by congr 1; ring
    _ ≤ |t - round t| + |s - t| := abs_add_le _ _

theorem abs_glow_sub_le (s t : ℚ) : |glow s - glow t| ≤ |s - t| := by
  have hscale : |s / 6 - t / 6| = |s - t| / 6 := by
    rw [← sub_div, abs_div, abs_of_pos (by norm_num : (0 : ℚ) < 6)]
  have hst := abs_sub_round_le (s / 6) (t / 6)
  have hts := abs_sub_round_le (t / 6) (s / 6)
  rw [abs_sub_comm (t / 6) (s / 6), hscale] at hts
  rw [hscale] at hst
  have hdistance : |(2 - 6 * |s / 6 - round (s / 6)|) - (2 - 6 * |t / 6 - round (t / 6)|)| ≤
      |s - t| := by
    rw [abs_le]
    constructor <;> linarith
  have hmin (a b : ℚ) : |min 1 a - min 1 b| ≤ |a - b| := by
    have h := abs_min_sub_min_le_max 1 a 1 b
    rwa [sub_self, abs_zero, max_eq_right (abs_nonneg _)] at h
  have hmax (a b : ℚ) : |max 0 a - max 0 b| ≤ |a - b| := by
    rw [max_comm 0 a, max_comm 0 b]
    exact abs_max_sub_max_le_abs a b 0
  exact (hmax _ _).trans ((hmin _ _).trans hdistance)

/-- Up to half a turn the way along the circle is the straight one. -/
theorem glow_of_abs_le (h : |t| ≤ 3) : glow t = max 0 (min 1 (2 - |t|)) := by
  have hdistance : 6 * |t / 6 - round (t / 6)| = |t| := by
    have hscale : |t / 6| = |t| / 6 := by
      rw [abs_div, abs_of_pos (by norm_num : (0 : ℚ) < 6)]
    have hle := round_le (t / 6) 0
    rw [Int.cast_zero, sub_zero, hscale] at hle
    have hge : |t| / 6 ≤ |t / 6 - round (t / 6)| := by
      by_cases hzero : round (t / 6) = 0
      · rw [hzero, Int.cast_zero, sub_zero, hscale]
      · -- Any other whole number is one unit from zero at least, and this place half of one.
        have hunit : (1 : ℚ) ≤ |(round (t / 6) : ℚ)| := by
          exact_mod_cast Int.one_le_abs hzero
        have htriangle := abs_sub_abs_le_abs_sub (round (t / 6) : ℚ) (t / 6)
        rw [abs_sub_comm, hscale] at htriangle
        linarith
    linarith
  rw [glow, hdistance]

section Spoke

/-! Around its own place a channel is full; the next one brightens ahead of it, the one before it
behind it. -/

theorem glow_of_abs_le_one (h : |t| ≤ 1) : glow t = 1 := by
  rw [glow_of_abs_le (by linarith), min_eq_left (by linarith), max_eq_right zero_le_one]

theorem glow_sub_two (h : |t| ≤ 1) : glow (t - 2) = max 0 t := by
  obtain ⟨hlow, hhigh⟩ := abs_le.mp h
  have habs : |t - 2| = 2 - t := by
    rw [abs_of_nonpos (by linarith), neg_sub]
  rw [glow_of_abs_le (by rw [habs]; linarith), habs, sub_sub_cancel, min_eq_right hhigh]

theorem glow_add_two (h : |t| ≤ 1) : glow (t + 2) = max 0 (-t) := by
  obtain ⟨hlow, hhigh⟩ := abs_le.mp h
  have habs : |t + 2| = 2 + t := by
    rw [abs_of_nonneg (by linarith), add_comm]
  rw [glow_of_abs_le (by rw [habs]; linarith), habs, sub_add_cancel_left,
    min_eq_right (by linarith)]

/-- What red, green and blue have at a place of the circle. -/
def wheel (t : ℚ) : ℚ × ℚ × ℚ := (glow t, glow (t - 2), glow (t - 4))

theorem wheel_add_turns (t : ℚ) (k : ℤ) : wheel (t + 6 * k) = wheel t := by
  rw [wheel, wheel, glow_add_turns, add_sub_right_comm, glow_add_turns, add_sub_right_comm,
    glow_add_turns]

/-- Four sixths ahead is two sixths behind. -/
theorem glow_add_four (t : ℚ) : glow (t + 4) = glow (t - 2) := by
  have h := glow_add_turns (t - 2) 1
  rw [← h]
  congr 1
  push_cast
  ring

theorem glow_sub_four (t : ℚ) : glow (t - 4) = glow (t + 2) := by
  rw [← glow_add_turns (t - 4) 1]
  congr 1
  push_cast
  ring

theorem wheel_near_red (h : |t| ≤ 1) : wheel t = (1, max 0 t, max 0 (-t)) := by
  rw [wheel, glow_sub_four, glow_of_abs_le_one h, glow_sub_two h, glow_add_two h]

theorem wheel_near_green (h : |t| ≤ 1) : wheel (t + 2) = (max 0 (-t), 1, max 0 t) := by
  have hblue : t + 2 - 4 = t - 2 := by ring
  rw [wheel, hblue, add_sub_cancel_right, glow_of_abs_le_one h, glow_sub_two h, glow_add_two h]

theorem wheel_near_blue (h : |t| ≤ 1) : wheel (t + 4) = (max 0 t, max 0 (-t), 1) := by
  have hgreen : t + 4 - 2 = t + 2 := by ring
  rw [wheel, hgreen, add_sub_cancel_right, glow_add_four, glow_of_abs_le_one h, glow_sub_two h,
    glow_add_two h]

end Spoke

section Sixths

/-- The three channels in a sixth of the circle, from what a full one, a changing one and a dark
one have. The sixth one also takes the end of the circle. -/
def sixth {α : Type} (n : ℕ) (full part dark : α) : α × α × α :=
  match n with
  | 0 => (full, part, dark)
  | 1 => (part, full, dark)
  | 2 => (dark, full, part)
  | 3 => (dark, part, full)
  | 4 => (part, dark, full)
  | _ => (full, dark, part)

/-- What the changing channel has at a place of the circle: it rises through one sixth and falls
through the next. -/
def ramp (t : ℚ) : ℚ := 1 - |t - 2 * ⌊t / 2⌋ - 1|

theorem ramp_rising {p : ℚ} (n : ℤ) (hp : 2 * n = p) (hlow : p ≤ t) (hhigh : t ≤ p + 1) :
    ramp t = t - p := by
  have hfloor : ⌊t / 2⌋ = n := by
    rw [Int.floor_eq_iff]
    constructor <;> linarith
  rw [ramp, hfloor, hp, abs_of_nonpos (by linarith)]
  ring

theorem ramp_falling {p : ℚ} (n : ℤ) (hp : 2 * n = p) (hlow : p - 1 ≤ t) (hhigh : t ≤ p) :
    ramp t = -(t - p) := by
  rcases hhigh.lt_or_eq with hlt | heq
  · have hfloor : ⌊t / 2⌋ = n - 1 := by
      rw [Int.floor_eq_iff]
      push_cast
      constructor <;> linarith
    rw [ramp, hfloor, Int.cast_sub, Int.cast_one, abs_of_nonneg (by linarith)]
    linarith
  · -- At its end the falling sixth meets the start of the rising one behind it.
    rw [ramp_rising n hp heq.ge (by linarith), heq, sub_self, neg_zero]

/-- Each sixth lies on one side of the place of one channel. -/
theorem sixth_eq_wheel {n : ℕ} (hn : n ≤ 5) (hlow : n ≤ t) (hhigh : t ≤ n + 1) :
    sixth n 1 (ramp t) 0 = wheel t := by
  have hred := wheel_near_red (t := t)
  have hgreen := wheel_near_green (t := t - 2)
  have hblue := wheel_near_blue (t := t - 4)
  have hend := wheel_near_red (t := t - 6)
  have hturn := wheel_add_turns (t - 6) 1
  rw [sub_add_cancel] at hgreen hblue
  rw [Int.cast_one, mul_one, sub_add_cancel] at hturn
  interval_cases n <;> push_cast at hlow hhigh
  · -- from red towards green
    rw [hred (abs_le.mpr ⟨by linarith, by linarith⟩), max_eq_right hlow,
      max_eq_left (by linarith), ramp_rising (p := 0) 0 (by norm_num) hlow hhigh, sub_zero]
    rfl
  · rw [hgreen (abs_le.mpr ⟨by linarith, by linarith⟩), max_eq_right (by linarith),
      max_eq_left (by linarith), ramp_falling (p := 2) 1 (by norm_num) (by linarith) (by linarith)]
    rfl
  · -- from green towards blue
    rw [hgreen (abs_le.mpr ⟨by linarith, by linarith⟩), max_eq_left (by linarith),
      max_eq_right (by linarith), ramp_rising (p := 2) 1 (by norm_num) hlow hhigh]
    rfl
  · rw [hblue (abs_le.mpr ⟨by linarith, by linarith⟩), max_eq_left (by linarith),
      max_eq_right (by linarith), ramp_falling (p := 4) 2 (by norm_num) (by linarith) (by linarith)]
    rfl
  · -- from blue towards red
    rw [hblue (abs_le.mpr ⟨by linarith, by linarith⟩), max_eq_right (by linarith),
      max_eq_left (by linarith), ramp_rising (p := 4) 2 (by norm_num) hlow hhigh]
    rfl
  · rw [hturn, hend (abs_le.mpr ⟨by linarith, by linarith⟩), max_eq_left (by linarith),
      max_eq_right (by linarith), ramp_falling (p := 6) 3 (by norm_num) (by linarith) (by linarith)]
    rfl

/-- A sixth is found from the whole part of the place; the end of the circle is in the last. -/
theorem sixth_floor_eq_wheel {n : ℕ} (hn : (n : ℤ) = ⌊t⌋) (ht : t ≤ 6) :
    sixth n 1 (ramp t) 0 = wheel t := by
  have hlow : (n : ℚ) ≤ t := by
    have h := Int.floor_le t
    rwa [← hn] at h
  have hhigh : t < n + 1 := by
    have h := Int.lt_floor_add_one t
    rwa [← hn] at h
  have hle : n ≤ 6 := by exact_mod_cast hlow.trans ht
  rcases hle.lt_or_eq with hlt | rfl
  · exact sixth_eq_wheel (by omega) hlow hhigh.le
  · push_cast at hlow
    exact sixth_eq_wheel (n := 5) le_rfl (by push_cast; linarith) (by push_cast; linarith)

end Sixths

end Hsl

end Marginalia
