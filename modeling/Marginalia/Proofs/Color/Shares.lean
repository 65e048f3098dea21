import Marginalia.Proofs.Color.Return

/-! From channels to saturation and lightness. -/
namespace Marginalia

namespace Hsl

open Binary32

variable {m n a b : ℕ}

/-- The share of the full range that a channel has. -/
def share (n : ℕ) : Binary32 := .ofNat n / 255

section Share

theorem abs_div_full_le_one (hn : n ≤ 255) : |(n : ℚ) / 255| ≤ 1 := by
  rw [abs_of_nonneg (by positivity), div_le_one (by norm_num)]
  exact_mod_cast hn

theorem rounds_share (hn : n ≤ 255) : (share n).Rounds (n / 255) := by
  have hwhole : (255 : Binary32).Near 255 0 := near_ofNat (by decide)
  have hle := abs_div_full_le_one hn
  exact (near_ofNat (by omega)).rounds_div hwhole (by norm_num) (hle.trans (by norm_num))

theorem near_share (hn : n ≤ 255) : (share n).Near (n / 255) 1 :=
  (rounds_share hn).near_self ((abs_div_full_le_one hn).trans (by norm_num))

theorem share_mem (hn : n ≤ 255) : 0 ≤ (share n).value ∧ (share n).value ≤ 1 := by
  have hle := (le_abs_self _).trans (abs_div_full_le_one hn)
  exact ⟨(rounds_share hn).nonneg (by positivity),
    by exact_mod_cast (rounds_share hn).le_natCast (n := 1) (by decide) (by exact_mod_cast hle)⟩

/-- A share as it is, the error of its own put aside. -/
theorem near_share_self (hn : n ≤ 255) : (share n).Near (share n).value 0 :=
  near_value (rounds_share hn).finite

/-- The shares of different channels are far enough apart to stay different. -/
theorem share_lt (hmn : m < n) (hn : n ≤ 255) : (share m).value < (share n).value := by
  have hm := abs_le.mp (near_share (hmn.le.trans hn)).error
  have hn' := abs_le.mp (near_share hn).error
  have hunit := unit_le
  have hgap : (m : ℚ) + 1 ≤ n := by exact_mod_cast hmn
  push_cast at hm hn'
  linarith

theorem share_le (hmn : m ≤ n) (hn : n ≤ 255) : (share m).value ≤ (share n).value := by
  rcases hmn.lt_or_eq with hlt | rfl
  · exact (share_lt hlt hn).le
  · exact le_rfl

theorem share_lt_iff (hm : m ≤ 255) (hn : n ≤ 255) :
    (share m).value < (share n).value ↔ m < n :=
  ⟨fun h => not_le.mp fun hle => h.not_ge (share_le hle hm), fun h => share_lt h hn⟩

theorem less_share_iff (hm : m ≤ 255) (hn : n ≤ 255) :
    (share m).less (share n) = true ↔ m < n := by
  rw [less_iff (rounds_share hm).finite (rounds_share hn).finite, share_lt_iff hm hn]

theorem same_share_iff (hm : m ≤ 255) (hn : n ≤ 255) :
    (share m).same (share n) = true ↔ m = n := by
  rw [same_iff (rounds_share hm).finite (rounds_share hn).finite]
  refine ⟨fun h => ?_, fun h => h ▸ rfl⟩
  rcases lt_trichotomy m n with hlt | heq | hlt
  · exact absurd h (share_lt hlt hn).ne
  · exact heq
  · exact absurd h (share_lt hlt hm).ne'

theorem larger_share (hm : m ≤ 255) (hn : n ≤ 255) :
    (share m).larger (share n) = share (max m n) := by
  simp only [larger, isNaN_of_isFinite (rounds_share hm).finite, Bool.false_or]
  split_ifs with h
  · rw [less_share_iff hm hn] at h
    rw [max_eq_right h.le]
  · rw [less_share_iff hm hn, not_lt] at h
    rw [max_eq_left h]

theorem smaller_share (hm : m ≤ 255) (hn : n ≤ 255) :
    (share m).smaller (share n) = share (min m n) := by
  simp only [smaller, isNaN_of_isFinite (rounds_share hm).finite, Bool.false_or]
  split_ifs with h
  · rw [less_share_iff hn hm] at h
    rw [min_eq_right h.le]
  · rw [less_share_iff hn hm, not_lt] at h
    rw [min_eq_left h]

end Share

section Spread

/-- How far apart two channels are; of the highest and the lowest it is the spread. -/
def spread (a b : ℕ) : Binary32 := share a - share b

theorem rounds_spread (ha : a ≤ 255) (hb : b ≤ 255) :
    (spread a b).Rounds ((share a).value - (share b).value) := by
  obtain ⟨hlow, hhigh⟩ := share_mem ha
  obtain ⟨hlow', hhigh'⟩ := share_mem hb
  exact (near_share_self ha).rounds_sub (near_share_self hb)
    (abs_le.mpr ⟨by linarith, by linarith⟩)

theorem near_spread (ha : a ≤ 255) (hb : b ≤ 255) : (spread a b).Near ((a - b) / 255) 3 := by
  have hle := (abs_sub _ _).trans (add_le_add (abs_div_full_le_one ha) (abs_div_full_le_one hb))
  rw [sub_div]
  exact (near_share ha).sub (near_share hb) 0 (by decide) (hle.trans (by norm_num))

theorem spread_self (ha : a ≤ 255) : (spread a a).value = 0 := by
  rw [(rounds_spread ha ha).value, sub_self, nearest_zero]

/-- The spread of different channels does not get lost. -/
theorem le_spread (hba : b < a) (ha : a ≤ 255) : 1 / 256 ≤ (spread a b).value := by
  have herror := abs_le.mp (near_spread ha (hba.le.trans ha)).error
  have hunit := unit_le
  have hgap : (b : ℚ) + 1 ≤ a := by exact_mod_cast hba
  push_cast at herror
  linarith

theorem spread_same_zero_iff (hba : b ≤ a) (ha : a ≤ 255) :
    (spread a b).same 0 = true ↔ a = b := by
  rw [same_iff (rounds_spread ha (hba.trans ha)).finite near_zero.finite, near_zero.value_eq]
  refine ⟨fun h => ?_, fun h => h ▸ spread_self ha⟩
  by_contra hne
  have hpos := le_spread (lt_of_le_of_ne hba (Ne.symm hne)) ha
  rw [h] at hpos
  norm_num at hpos

end Spread

section Lightness

/-- The lightness of a color with these highest and lowest channels. -/
def lightnessOf (a b : ℕ) : Binary32 := (share a + share b) / 2

theorem rounds_sum (ha : a ≤ 255) (hb : b ≤ 255) :
    (share a + share b).Rounds ((share a).value + (share b).value) ∧
      0 ≤ (share a).value + (share b).value ∧ (share a).value + (share b).value ≤ 2 := by
  obtain ⟨hlow, hhigh⟩ := share_mem ha
  obtain ⟨hlow', hhigh'⟩ := share_mem hb
  have hrounds := (near_share_self ha).rounds_add (near_share_self hb)
    (abs_le.mpr ⟨by linarith, by linarith⟩)
  exact ⟨hrounds, by linarith, by linarith⟩

theorem near_sum (ha : a ≤ 255) (hb : b ≤ 255) :
    (share a + share b).Near ((share a).value + (share b).value) 1 := by
  obtain ⟨hrounds, hlow, hhigh⟩ := rounds_sum ha hb
  exact hrounds.near_self (abs_le.mpr ⟨by linarith, by linarith⟩)

theorem sum_mem (ha : a ≤ 255) (hb : b ≤ 255) :
    0 ≤ (share a + share b).value ∧ (share a + share b).value ≤ 2 := by
  obtain ⟨hrounds, hlow, hhigh⟩ := rounds_sum ha hb
  exact ⟨hrounds.nonneg hlow, by exact_mod_cast hrounds.le_natCast (by decide) hhigh⟩

theorem rounds_lightnessOf (ha : a ≤ 255) (hb : b ≤ 255) :
    (lightnessOf a b).Rounds ((share a + share b).value / 2) := by
  obtain ⟨hlow, hhigh⟩ := sum_mem ha hb
  exact (near_value (rounds_sum ha hb).1.finite).rounds_div near_two (by norm_num)
    (abs_le.mpr ⟨by linarith, by linarith⟩)

theorem lightnessOf_mem (ha : a ≤ 255) (hb : b ≤ 255) :
    0 ≤ (lightnessOf a b).value ∧ (lightnessOf a b).value ≤ 1 := by
  obtain ⟨hlow, hhigh⟩ := sum_mem ha hb
  have hrounds := rounds_lightnessOf ha hb
  have hle : (share a + share b).value / 2 ≤ (1 : ℕ) := by
    push_cast
    linarith
  exact ⟨hrounds.nonneg (by linarith), by exact_mod_cast hrounds.le_natCast (by decide) hle⟩

/-- Half of a sum that is known up to some units is known up to one more. -/
theorem near_lightnessOf_of_near {v : ℚ} (h : (share a + share b).Near v n) (hv : |v| ≤ 2)
    (hn : n ≤ 2 ^ 20) : (lightnessOf a b).Near (v / 2) (n + 1) := by
  refine h.div 0 near_two (by norm_num) ⟨by decide, hn⟩ ?_
  rw [abs_div]
  norm_num
  linarith

theorem near_lightnessOf (ha : a ≤ 255) (hb : b ≤ 255) :
    (lightnessOf a b).Near ((a + b) / 510) 4 := by
  have hle := (abs_add_le _ _).trans
    (add_le_add (abs_div_full_le_one ha) (abs_div_full_le_one hb))
  have hsum : (share a + share b).Near (a / 255 + b / 255) 3 :=
    (near_share ha).add (near_share hb) 0 (by decide) (hle.trans (by norm_num))
  have hhalf : ((a : ℚ) + b) / 510 = (a / 255 + b / 255) / 2 := by ring
  rw [hhalf]
  exact near_lightnessOf_of_near hsum (hle.trans (by norm_num)) (by decide)

end Lightness

section Saturation

/-- What the spread is divided by to get the saturation. -/
def divisor (a b : ℕ) : Binary32 :=
  if (lightnessOf a b).atMost (1 / 2) then share a + share b else 2 - share a - share b

def saturationOf (a b : ℕ) : Binary32 := spread a b / divisor a b

theorem saturationOf_eq (a b : ℕ) : saturationOf a b =
    if (lightnessOf a b).atMost (1 / 2) then spread a b / (share a + share b)
    else spread a b / (2 - share a - share b) := by
  rw [saturationOf, divisor]
  split_ifs <;> rfl

/-- Below half the reach is twice the lightness, and above half what that leaves of two. A
lightness that is rounded across the middle gives both up to the same error. -/
theorem abs_reach_sub_le {l s : ℚ} (hs : |l - s / 2| ≤ (2 : ℕ) * unit) :
    (l ≤ 1 / 2 + unit → |s - reach l| ≤ (8 : ℕ) * unit) ∧
      (1 / 2 - unit ≤ l → |2 - s - reach l| ≤ (8 : ℕ) * unit) := by
  have hunit := unit_pos
  rw [abs_le] at hs
  push_cast at hs ⊢
  rw [reach, abs_le, abs_le]
  rcases abs_cases (2 * l - 1) with ⟨heq, hside⟩ | ⟨heq, hside⟩ <;> rw [heq]
  · exact ⟨fun h => ⟨by linarith, by linarith⟩, fun h => ⟨by linarith, by linarith⟩⟩
  · exact ⟨fun h => ⟨by linarith, by linarith⟩, fun h => ⟨by linarith, by linarith⟩⟩

theorem spread_le_sum (ha : a ≤ 255) (hb : b ≤ 255) :
    (spread a b).value ≤ (share a + share b).value := by
  obtain ⟨hnonneg, -⟩ := share_mem hb
  rw [(rounds_spread ha hb).value, (rounds_sum ha hb).1.value]
  exact nearest_mono (by linarith)

theorem near_rest (ha : a ≤ 255) (hb : b ≤ 255) :
    (2 - share a - share b).Near (2 - ((share a).value + (share b).value)) 2 := by
  obtain ⟨hlow, hhigh⟩ := share_mem ha
  obtain ⟨hlow', hhigh'⟩ := share_mem hb
  have hfirst : (2 - share a).Near (2 - (share a).value) 1 :=
    near_two.sub (near_share_self ha) 0 (by decide) (abs_le.mpr ⟨by linarith, by linarith⟩)
  rw [← sub_sub]
  exact hfirst.sub (near_share_self hb) 0 (by decide) (abs_le.mpr ⟨by linarith, by linarith⟩)

/-- The first subtraction leaves one at least, so no less than the highest channel is left before
the second one. -/
theorem spread_le_rest (ha : a ≤ 255) (hb : b ≤ 255) :
    (spread a b).value ≤ (2 - share a - share b).value := by
  obtain ⟨hlow, hhigh⟩ := share_mem ha
  obtain ⟨hlow', hhigh'⟩ := share_mem hb
  have hfirst : (2 - share a).Rounds (2 - (share a).value) :=
    near_two.rounds_sub (near_share_self ha) (abs_le.mpr ⟨by linarith, by linarith⟩)
  have hge : 1 ≤ (2 - share a).value := by
    exact_mod_cast hfirst.natCast_le (n := 1) (by decide) (by push_cast; linarith)
  have hle : (2 - share a).value ≤ 2 := by
    exact_mod_cast hfirst.le_natCast (n := 2) (by decide) (by push_cast; linarith)
  have hsecond := (near_value hfirst.finite).rounds_sub (near_share_self hb)
    (abs_le.mpr ⟨by linarith, by linarith⟩)
  rw [(rounds_spread ha hb).value, hsecond.value]
  exact nearest_mono (by linarith)

/-- The spread is no more than the divisor, whichever of the two it is, and the divisor is close
to the reach of the lightness. -/
theorem divisor_spec (ha : a ≤ 255) (hb : b ≤ 255) :
    (divisor a b).Near (reach (lightnessOf a b).value) 10 ∧
      (spread a b).value ≤ (divisor a b).value := by
  have hsum := near_sum ha hb
  obtain ⟨-, hlow, hhigh⟩ := rounds_sum ha hb
  have hlight := near_lightnessOf_of_near hsum (abs_le.mpr ⟨by linarith, hhigh⟩) (by decide)
  have hhalf : (1 / 2 : Binary32).Near (1 / 2) 1 :=
    near_one.div 0 near_two (by norm_num) (by decide) (by norm_num)
  have hhalf_error := abs_le.mp hhalf.error
  push_cast at hhalf_error
  obtain ⟨hbelow, habove⟩ := abs_reach_sub_le hlight.error
  rw [divisor]
  -- Near the middle rounding decides which divisor is taken, and the reach is close to both.
  split_ifs with hdark
  · rw [atMost_iff hlight.finite hhalf.finite] at hdark
    exact ⟨(hsum.trans (hbelow (by linarith))).mono (by decide), spread_le_sum ha hb⟩
  · rw [atMost_iff hlight.finite hhalf.finite, not_le] at hdark
    exact ⟨(near_rest ha hb).trans (habove (by linarith)), spread_le_rest ha hb⟩

theorem rounds_saturationOf (hba : b < a) (ha : a ≤ 255) :
    (saturationOf a b).Rounds ((spread a b).value / (divisor a b).value) ∧
      |(spread a b).value / (divisor a b).value| ≤ 1 := by
  have hb : b ≤ 255 := hba.le.trans ha
  obtain ⟨hdivisor, hle⟩ := divisor_spec ha hb
  have hpos : 0 < (spread a b).value := lt_of_lt_of_le (by norm_num) (le_spread hba ha)
  have hpos' := hpos.trans_le hle
  have hone : |(spread a b).value / (divisor a b).value| ≤ 1 := by
    rw [abs_of_pos (div_pos hpos hpos'), div_le_one hpos']
    exact hle
  exact ⟨(near_value (rounds_spread ha hb).finite).rounds_div (near_value hdivisor.finite)
    hpos'.ne' (hone.trans (by norm_num)), hone⟩

/-- A saturation lies between zero and one, and with the reach of the lightness it gives the
spread back. -/
theorem saturationOf_spec (hba : b < a) (ha : a ≤ 255) :
    0 < (saturationOf a b).value ∧ (saturationOf a b).value ≤ 1 ∧
      |reach (lightnessOf a b).value * (saturationOf a b).value - (a - b) / 255| ≤
        (15 : ℕ) * unit := by
  have hb : b ≤ 255 := hba.le.trans ha
  obtain ⟨hdivisor, hle⟩ := divisor_spec ha hb
  obtain ⟨hrounds, hone⟩ := rounds_saturationOf hba ha
  obtain ⟨hlow, hhigh⟩ := lightnessOf_mem ha hb
  obtain ⟨-, hreach⟩ := reach_mem hlow hhigh
  have hunit := unit_le
  have hspread := le_spread hba ha
  have hpos : 0 < (divisor a b).value := lt_of_lt_of_le (by norm_num) (hspread.trans hle)
  have htwo : (divisor a b).value ≤ 2 := by
    have herror := abs_le.mp hdivisor.error
    push_cast at herror
    linarith
  have hnear := hrounds.near_self (hone.trans (by norm_num))
  have hquotient : 1 / 512 ≤ (spread a b).value / (divisor a b).value := by
    rw [le_div_iff₀ hpos]
    linarith
  have hsaturation_pos : 0 < (saturationOf a b).value := by
    have herror := abs_le.mp hnear.error
    push_cast at herror
    linarith
  have hsaturation_le : (saturationOf a b).value ≤ 1 := by
    have h := hrounds.le_natCast (n := 1) (by decide) (by
      rw [Nat.cast_one]
      exact (le_abs_self _).trans hone)
    exact_mod_cast h
  refine ⟨hsaturation_pos, hsaturation_le, ?_⟩
  -- Multiplied by the exact divisor the exact quotient would be the spread itself.
  have hproduct := abs_mul_sub_mul_le (v := (divisor a b).value)
    ((abs_sub_comm _ _).trans_le hdivisor.error)
    ((abs_of_pos hsaturation_pos).trans_le hsaturation_le)
    ((abs_of_pos hpos).trans_le htwo) hnear.error
  rw [mul_div_cancel₀ _ hpos.ne'] at hproduct
  have herror := (near_spread ha hb).error
  calc _ ≤ _ := abs_sub_le _ (spread a b).value _
    _ ≤ _ := add_le_add hproduct herror
    _ = (15 : ℕ) * unit := by
        push_cast
        ring

end Saturation

end Hsl

end Marginalia
