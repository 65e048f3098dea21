import Marginalia.Proofs.Color.Shares

/-! From channels to the hue: which of them is the highest gives the place on the wheel, and the
other two how far the hue is from it. -/
namespace Marginalia

namespace Hsl

open Binary32

variable {a b m n : ℕ} {v : ℚ} {h : Binary32}

section Pull

/-- How far a hue is from the place of the highest channel `n`, in sixths: the channel ahead of it
pulls one way and the one behind it the other, and `m` is the lowest. -/
def pull (a b n m : ℕ) : Binary32 := spread a b / spread n m

/-- A quotient changes little with its parts while the divisor is not small and the quotient is no
more than one. -/
theorem abs_div_sub_div_le {x y v w ε : ℚ} (hx : |x - v| ≤ ε) (hy : |y - w| ≤ ε)
    (hw : 0 < w) (hvw : |v| ≤ w) (hlow : 1 / 256 ≤ y) : |x / y - v / w| ≤ 512 * ε := by
  have hpos : 0 < y := lt_of_lt_of_le (by norm_num) hlow
  have hquotient : |v / w| ≤ 1 := by
    rw [abs_div, abs_of_pos hw, div_le_one hw]
    exact hvw
  have hparts : x / y - v / w = (x - v - v / w * (y - w)) / y := by
    field_simp
    ring
  have hrest : |x - v - v / w * (y - w)| ≤ 2 * ε :=
    calc |x - v - v / w * (y - w)|
        ≤ |x - v| + |v / w * (y - w)| := abs_sub _ _
      _ ≤ ε + 1 * ε := by
          rw [abs_mul]
          exact add_le_add hx (mul_le_mul hquotient hy (abs_nonneg _) zero_le_one)
      _ = 2 * ε := by ring
  rw [hparts, abs_div, abs_of_pos hpos, div_le_iff₀ hpos]
  have hε : 0 ≤ ε := (abs_nonneg _).trans hx
  nlinarith

variable (hma : m ≤ a) (hmb : m ≤ b) (han : a ≤ n) (hbn : b ≤ n)

include hma hmb han hbn

/-- The pull of the channels in exact arithmetic. -/
theorem abs_exactPull_le_one (hmn : m < n) : |((a : ℚ) - b) / (n - m)| ≤ 1 := by
  have hma' : (m : ℚ) ≤ a := by exact_mod_cast hma
  have hmb' : (m : ℚ) ≤ b := by exact_mod_cast hmb
  have han' : (a : ℚ) ≤ n := by exact_mod_cast han
  have hbn' : (b : ℚ) ≤ n := by exact_mod_cast hbn
  have hpos : (0 : ℚ) < n - m := sub_pos.mpr (by exact_mod_cast hmn)
  rw [abs_div, abs_of_pos hpos, div_le_one hpos, abs_le]
  constructor <;> linarith

variable (hn : n ≤ 255)

include hn

/-- Channels between the highest and the lowest one are no farther apart than these are. -/
theorem abs_spread_le : |(spread a b).value| ≤ (spread n m).value := by
  have ha := han.trans hn
  have hb := hbn.trans hn
  have hma' := share_le hma ha
  have hmb' := share_le hmb hb
  have han' := share_le han hn
  have hbn' := share_le hbn hn
  rw [(rounds_spread ha hb).value, (rounds_spread hn (hma.trans ha)).value, ← nearest_abs]
  exact nearest_mono (abs_le.mpr ⟨by linarith, by linarith⟩)

theorem rounds_pull (hmn : m < n) :
    (pull a b n m).Rounds ((spread a b).value / (spread n m).value) ∧
      |(spread a b).value / (spread n m).value| ≤ 1 := by
  have hpos : 0 < (spread n m).value := lt_of_lt_of_le (by norm_num) (le_spread hmn hn)
  have hle : |(spread a b).value / (spread n m).value| ≤ 1 := by
    rw [abs_div, abs_of_pos hpos, div_le_one hpos]
    exact abs_spread_le hma hmb han hbn hn
  have hpulled := near_value (rounds_spread (han.trans hn) (hbn.trans hn)).finite
  have hwidth := near_value (rounds_spread hn (hmn.le.trans hn)).finite
  exact ⟨hpulled.rounds_div hwidth hpos.ne' (hle.trans (by norm_num)), hle⟩

theorem abs_pull_le_one (hmn : m < n) : |(pull a b n m).value| ≤ 1 := by
  obtain ⟨hrounds, hle⟩ := rounds_pull hma hmb han hbn hn hmn
  exact_mod_cast hrounds.abs_le_natCast (n := 1) (by decide) (by exact_mod_cast hle)

theorem near_pull (hmn : m < n) : (pull a b n m).Near ((a - b) / (n - m)) 1537 := by
  obtain ⟨hrounds, hle⟩ := rounds_pull hma hmb han hbn hn hmn
  have hexact := abs_exactPull_le_one hma hmb han hbn hmn
  have hmn' : (m : ℚ) < n := by exact_mod_cast hmn
  have hscale : ((a : ℚ) - b) / (n - m) = ((a - b) / 255) / ((n - m) / 255) := by
    rw [div_div_div_cancel_right₀ (by norm_num)]
  have hwidth : 0 < ((n : ℚ) - m) / 255 := by
    apply div_pos <;> linarith
  have hside : |((a : ℚ) - b) / 255| ≤ (n - m) / 255 := by
    have h := hexact
    rw [hscale, abs_div, abs_of_pos hwidth, div_le_one hwidth] at h
    exact h
  have herror := abs_div_sub_div_le (near_spread (han.trans hn) (hbn.trans hn)).error
    (near_spread hn (hmn.le.trans hn)).error hwidth hside (le_spread hmn hn)
  rw [← hscale] at herror
  refine hrounds.near (n := 1536) (k := 0) (herror.trans_eq ?_) (by decide)
    (hexact.trans (by norm_num))
  push_cast
  ring

end Pull

section Turn

/-- A hue below the start of the turn is moved up by one turn. -/
def raised (h : Binary32) : Binary32 := if h.less 0 then h + 360 else h

/-- A hue past the end of the turn is moved down by one. -/
def lowered (h : Binary32) : Binary32 := if (360 : Binary32).atMost h then h - 360 else h

variable (hh : h.Near v n) (hn : n ≤ 2 ^ 19)

include hh hn

theorem raised_spec (hlow : -60 ≤ h.value) (hhigh : h.value ≤ 300) :
    0 ≤ (raised h).value ∧ (raised h).value ≤ 360 ∧
      ∃ k : ℤ, (raised h).Near (v + 360 * k) (n + 128) := by
  have hone := mul_unit_le_one (hn.trans (by decide))
  have herror := abs_le.mp hh.error
  rw [raised]
  split_ifs with hless
  · rw [less_iff hh.finite near_zero.finite, near_zero.value_eq] at hless
    have hrounds := (near_value hh.finite).rounds_add near_turn
      (abs_le.mpr ⟨by linarith, by linarith⟩)
    have hnear : (h + 360).Near (v + 360) (n + 0 + 2 ^ 7) :=
      hh.add near_turn 7 ⟨by decide, hn.trans (by decide)⟩
        (abs_le.mpr ⟨by linarith, by linarith⟩)
    -- A hue just below the start may round up to the end of the turn itself.
    refine ⟨hrounds.nonneg (by linarith), ?_, 1, ?_⟩
    · exact_mod_cast hrounds.le_natCast (n := 360) (by decide) (by push_cast; linarith)
    · rw [Int.cast_one, mul_one]
      exact hnear
  · rw [less_iff hh.finite near_zero.finite, near_zero.value_eq, not_lt] at hless
    refine ⟨hless, by linarith, 0, ?_⟩
    rw [Int.cast_zero, mul_zero, add_zero]
    exact hh.mono (Nat.le_add_right n 128)

/-- Only the end of the turn itself is moved, and that to the start. -/
theorem lowered_spec (hlow : 0 ≤ h.value) (hhigh : h.value ≤ 360) :
    0 ≤ (lowered h).value ∧ (lowered h).value < 360 ∧
      ∃ k : ℤ, (lowered h).Near (v + 360 * k) (n + 128) := by
  have hone := mul_unit_le_one (hn.trans (by decide))
  have herror := abs_le.mp hh.error
  rw [lowered]
  split_ifs with hpast
  · rw [atMost_iff near_turn.finite hh.finite, near_turn.value_eq] at hpast
    have hend : h.value = 360 := le_antisymm hhigh hpast
    have hrounds := (near_value hh.finite).rounds_sub near_turn
      (abs_le.mpr ⟨by linarith, by linarith⟩)
    rw [hend, sub_self] at hrounds
    have hvalue := hrounds.value.trans nearest_zero
    have hnear : (h - 360).Near (v - 360) (n + 0 + 2 ^ 7) :=
      hh.sub near_turn 7 ⟨by decide, hn.trans (by decide)⟩
        (abs_le.mpr ⟨by linarith, by linarith⟩)
    refine ⟨hvalue.ge, hvalue.trans_lt (by norm_num), -1, ?_⟩
    rw [Int.cast_neg, Int.cast_one, mul_neg, mul_one, ← sub_eq_add_neg]
    exact hnear
  · rw [atMost_iff near_turn.finite hh.finite, near_turn.value_eq, not_le] at hpast
    refine ⟨hlow, hpast, 0, ?_⟩
    rw [Int.cast_zero, mul_zero, add_zero]
    exact hh.mono (Nat.le_add_right n 128)

end Turn

section Spoke

/-- Sixths as degrees. -/
theorem rounds_degrees {x : Binary32} (hx : x.isFinite = true) (hle : |x.value| ≤ 5) :
    (60 * x).Rounds (60 * x.value) := by
  apply near_degrees.rounds_mul (near_value hx)
  rw [abs_mul, abs_of_pos (by norm_num)]
  linarith

variable (hma : m ≤ a) (hmb : m ≤ b) (han : a ≤ n) (hbn : b ≤ n) (hn : n ≤ 255) (hmn : m < n)

include hma hmb han hbn hn hmn

/-- The hue around red, where the remainder does nothing. -/
theorem red_spoke_spec :
    (60 * (pull a b n m % 6)).Near (60 * ((a - b) / (n - m))) 92344 ∧
      -60 ≤ (60 * (pull a b n m % 6)).value ∧ (60 * (pull a b n m % 6)).value ≤ 300 := by
  have hsix : (6 : Binary32).Near 6 0 := near_ofNat (by decide)
  have hpull := near_pull hma hmb han hbn hn hmn
  have hone := abs_pull_le_one hma hmb han hbn hn hmn
  have hexact := abs_exactPull_le_one hma hmb han hbn hmn
  obtain ⟨hfinite, hvalue⟩ := rem_spec hpull.finite hsix.finite
    (by rw [hsix.value_eq]; linarith) (hone.trans_lt (by norm_num))
  have hrem : (pull a b n m % 6).Near ((a - b) / (n - m)) 1537 :=
    ⟨hfinite, by rw [hvalue]; exact hpull.error⟩
  rw [← hvalue] at hone
  have hle : |60 * (pull a b n m % 6).value| ≤ (60 : ℕ) := by
    rw [abs_mul, abs_of_pos (by norm_num)]
    push_cast
    linarith
  have hrounds := rounds_degrees hfinite (hone.trans (by norm_num))
  obtain ⟨hlow, hhigh⟩ := abs_le.mp (hrounds.abs_le_natCast (by decide) hle)
  push_cast at hlow hhigh
  have hnear := near_degrees.mul hrem 6 (a := 60) (b := 1) (by norm_num)
    (hexact.trans_eq Nat.cast_one.symm) (by decide)
  exact ⟨hnear.mono (by decide), hlow, by linarith⟩

/-- The hue around green and blue. -/
theorem spoke_spec {p : ℕ} (hp : 1 ≤ p) (hp' : p ≤ 4) :
    (60 * (pull a b n m + .ofNat p)).Near (60 * ((a - b) / (n - m) + p)) 92344 ∧
      0 ≤ (60 * (pull a b n m + .ofNat p)).value ∧
      (60 * (pull a b n m + .ofNat p)).value ≤ 300 := by
  have hplace : (ofNat p).Near p 0 := near_ofNat (by omega)
  have hpull := near_pull hma hmb han hbn hn hmn
  obtain ⟨hlow, hhigh⟩ := abs_le.mp (abs_pull_le_one hma hmb han hbn hn hmn)
  obtain ⟨hexact_low, hexact_high⟩ := abs_le.mp (abs_exactPull_le_one hma hmb han hbn hmn)
  have hp_ge : (1 : ℚ) ≤ p := by exact_mod_cast hp
  have hp_le : (p : ℚ) ≤ 4 := by exact_mod_cast hp'
  have hsum : (pull a b n m + .ofNat p).Near ((a - b) / (n - m) + p) 1538 :=
    hpull.add hplace 0 (by decide) (abs_le.mpr ⟨by linarith, by linarith⟩)
  have hrounds := (near_value hpull.finite).rounds_add hplace
    (abs_le.mpr ⟨by linarith, by linarith⟩)
  have hnonneg := hrounds.nonneg (by linarith)
  have hle := hrounds.le_natCast (n := 5) (by decide) (by push_cast; linarith)
  push_cast at hle
  have hscaled := rounds_degrees hrounds.finite ((abs_of_nonneg hnonneg).trans_le hle)
  refine ⟨?_, hscaled.nonneg (by linarith), ?_⟩
  · exact near_degrees.mul hsum 6 (a := 60) (b := 5) (by norm_num)
      (by rw [abs_le]; constructor <;> push_cast <;> linarith) (by decide)
  · exact_mod_cast hscaled.le_natCast (n := 300) (by decide) (by push_cast; linarith)

end Spoke

section Wheel

variable {r g b : ℕ}

/-- A channel pulls as far as it is above the lowest one, if that is itself or the other. -/
theorem max_exactPull (hmin : m = min a b) (hmn : m < n) :
    max 0 (((a : ℚ) - b) / (n - m)) = (a - m) / (n - m) := by
  have hpos : (0 : ℚ) < n - m := sub_pos.mpr (by exact_mod_cast hmn)
  rcases le_total a b with hle | hle
  · have hle' : (a : ℚ) - b ≤ 0 := sub_nonpos.mpr (by exact_mod_cast hle)
    have hma : m = a := hmin.trans (min_eq_left hle)
    rw [max_eq_left (div_nonpos_of_nonpos_of_nonneg hle' hpos.le), hma, sub_self, zero_div]
  · have hle' : 0 ≤ (a : ℚ) - b := sub_nonneg.mpr (by exact_mod_cast hle)
    have hmb : m = b := hmin.trans (min_eq_right hle)
    rw [max_eq_right (div_nonneg hle' hpos.le), hmb]

theorem max_neg_exactPull (hmin : m = min a b) (hmn : m < n) :
    max 0 (-(((a : ℚ) - b) / (n - m))) = (b - m) / (n - m) := by
  rw [← neg_div, neg_sub]
  exact max_exactPull (hmin.trans (min_comm a b)) hmn

/-- The highest channel has the whole spread. -/
theorem sub_div_self (hmn : m < n) : ((n : ℚ) - m) / (n - m) = 1 :=
  div_self (sub_pos.mpr (by exact_mod_cast hmn)).ne'

/-- A hue within one turn, close to a place on the wheel where the channels have these parts. -/
structure Places (h : Binary32) (parts : ℚ × ℚ × ℚ) : Prop where
  nonneg : 0 ≤ h.value
  lt : h.value < 360
  exists_near : ∃ t : ℚ, wheel t = parts ∧ h.Near (60 * t) 92600

/-- Whole turns do not move a hue to another place. -/
theorem places_of_near {parts : ℚ × ℚ × ℚ} {t : ℚ} (hwheel : wheel t = parts)
    (hnear : h.Near (60 * t) 92344) (hlow : -60 ≤ h.value) (hhigh : h.value ≤ 300) :
    Places (lowered (raised h)) parts := by
  obtain ⟨hraised, hraised_le, j, hj⟩ := raised_spec hnear (by decide) hlow hhigh
  obtain ⟨hlowered, hlowered_lt, k, hk⟩ := lowered_spec hj (by decide) hraised hraised_le
  refine ⟨hlowered, hlowered_lt, t + 6 * (j + k : ℤ), ?_, ?_⟩
  · rw [wheel_add_turns, hwheel]
  · have hplace : 60 * (t + 6 * (j + k : ℤ)) = 60 * t + 360 * j + 360 * k := by
      push_cast
      ring
    rw [hplace]
    exact hk

/-- The parts of the spread that three channels have above the lowest. -/
def parts (r g b n m : ℕ) : ℚ × ℚ × ℚ :=
  ((r - m) / (n - m), (g - m) / (n - m), (b - m) / (n - m))

theorem hueOf_eq (hr : r ≤ 255) (hg : g ≤ 255) (hn : n ≤ 255) :
    hueOf (share r) (share g) (share b) (share n) (spread n m) = lowered (raised (
      if n = r then 60 * (pull g b n m % 6)
      else if n = g then 60 * (pull b r n m + .ofNat 2)
      else 60 * (pull r g n m + .ofNat 4))) := by
  have hred := same_share_iff hn hr
  have hgreen := same_share_iff hn hg
  simp only [← hred, ← hgreen]
  rfl

/-- Each of the three hue formulas finds the place of the channels. -/
theorem places_hueOf (hn : n = max (max r g) b) (hm : m = min (min r g) b) (hmn : m < n)
    (hn255 : n ≤ 255) :
    Places (hueOf (share r) (share g) (share b) (share n) (spread n m)) (parts r g b n m) := by
  rw [hueOf_eq (by omega) (by omega) hn255]
  split_ifs with hred hgreen
  · -- red is the highest: green is ahead of it and blue behind it
    have hmin : m = min g b := by omega
    obtain ⟨hnear, hlow, hhigh⟩ := red_spoke_spec (a := g) (b := b) (by omega) (by omega)
      (by omega) (by omega) hn255 hmn
    refine places_of_near ?_ hnear hlow hhigh
    rw [wheel_near_red (abs_exactPull_le_one (by omega) (by omega) (by omega) (by omega) hmn),
      max_exactPull hmin hmn, max_neg_exactPull hmin hmn, parts, ← hred, sub_div_self hmn]
  · -- green is the highest: blue is ahead of it and red behind it
    have hmin : m = min b r := by omega
    obtain ⟨hnear, hlow, hhigh⟩ := spoke_spec (a := b) (b := r) (p := 2) (by omega) (by omega)
      (by omega) (by omega) hn255 hmn (by decide) (by decide)
    refine places_of_near ?_ hnear (by linarith) hhigh
    rw [Nat.cast_ofNat,
      wheel_near_green (abs_exactPull_le_one (by omega) (by omega) (by omega) (by omega) hmn),
      max_exactPull hmin hmn, max_neg_exactPull hmin hmn, parts, ← hgreen, sub_div_self hmn]
  · -- blue is the highest: red is ahead of it and green behind it
    have hblue : n = b := by omega
    have hmin : m = min r g := by omega
    obtain ⟨hnear, hlow, hhigh⟩ := spoke_spec (a := r) (b := g) (p := 4) (by omega) (by omega)
      (by omega) (by omega) hn255 hmn (by decide) (by decide)
    refine places_of_near ?_ hnear (by linarith) hhigh
    rw [Nat.cast_ofNat,
      wheel_near_blue (abs_exactPull_le_one (by omega) (by omega) (by omega) (by omega) hmn),
      max_exactPull hmin hmn, max_neg_exactPull hmin hmn, parts, ← hblue, sub_div_self hmn]

end Wheel

end Hsl

end Marginalia
