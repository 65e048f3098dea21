import Marginalia.Proofs.Color.Hue

/-! Channels survive the way to hue, saturation and lightness and back. -/
namespace Marginalia

namespace Rgba

/-- The greatest channel of a color. -/
def highest (c : Rgba) : ℕ := max (max c.red.toNat c.green.toNat) c.blue.toNat

/-- The least channel of a color. -/
def lowest (c : Rgba) : ℕ := min (min c.red.toNat c.green.toNat) c.blue.toNat

theorem highest_le (c : Rgba) : c.highest ≤ 255 := by
  have hr := Hsl.toNat_le c.red
  have hg := Hsl.toNat_le c.green
  have hb := Hsl.toNat_le c.blue
  rw [highest]
  omega

theorem lowest_le_highest (c : Rgba) : c.lowest ≤ c.highest := by
  rw [lowest, highest]
  omega

/-- A color is gray when no channel is above another. -/
theorem highest_eq_lowest_iff (c : Rgba) :
    c.highest = c.lowest ↔ c.red = c.green ∧ c.green = c.blue := by
  rw [highest, lowest, ← UInt8.toNat_inj, ← UInt8.toNat_inj]
  omega

end Rgba

namespace Hsl

open Binary32

variable {c : Rgba} {m n x : ℕ} {h : Hsl} {t : ℚ}

theorem ofRgba_eq (c : Rgba) : ofRgba c =
    if c.highest = c.lowest then ⟨0, 0, lightnessOf c.highest c.lowest⟩
    else ⟨hueOf (share c.red.toNat) (share c.green.toNat) (share c.blue.toNat) (share c.highest)
      (spread c.highest c.lowest), saturationOf c.highest c.lowest,
      lightnessOf c.highest c.lowest⟩ := by
  have hr := toNat_le c.red
  have hg := toNat_le c.green
  have hb := toNat_le c.blue
  have hhighest : ((share c.red.toNat).larger (share c.green.toNat)).larger (share c.blue.toNat) =
      share c.highest := by
    rw [larger_share hr hg, larger_share (max_le hr hg) hb, Rgba.highest]
  have hlowest : ((share c.red.toNat).smaller (share c.green.toNat)).smaller
      (share c.blue.toNat) = share c.lowest := by
    rw [smaller_share hr hg, smaller_share ((min_le_left _ _).trans hr) hb, Rgba.lowest]
  -- The parts of the color have the names that the lemmas on them use.
  have hshare (n : ℕ) : .ofNat n / 255 = share n := rfl
  have hspread : share c.highest - share c.lowest = spread c.highest c.lowest := rfl
  have hlightness : (share c.highest + share c.lowest) / 2 = lightnessOf c.highest c.lowest := rfl
  simp only [ofRgba, hshare, hhighest, hlowest, hspread, hlightness, ← saturationOf_eq,
    spread_same_zero_iff c.lowest_le_highest c.highest_le]

/-- The share of a channel in exact arithmetic, from the rounded hue, saturation and lightness. -/
theorem abs_exactShare_sub_le (hmn : m < n) (hn : n ≤ 255)
    (hlightness : h.lightness = lightnessOf n m) (hsaturation : h.saturation = saturationOf n m)
    (hhue : h.hue.Near (60 * t) 92600) {p : ℚ}
    (hglow : glow (t - p) = ((x : ℚ) - m) / (n - m)) :
    |h.exactShare p - x / 255| ≤ 1 / 1000 := by
  have hunit := unit_le
  have hpos : (0 : ℚ) < n - m := sub_pos.mpr (by exact_mod_cast hmn)
  have hm : (0 : ℚ) ≤ m := Nat.cast_nonneg m
  have hn' : (n : ℚ) ≤ 255 := by exact_mod_cast hn
  have hchroma : |h.exactChroma - (n - m) / 255| ≤ (15 : ℕ) * unit := by
    rw [exactChroma, hlightness, hsaturation]
    exact (saturationOf_spec hmn hn).2.2
  have hplace : |glow (h.hue.value / 60 - p) - glow (t - p)| ≤ (1544 : ℕ) * unit := by
    have herror := abs_le.mp hhue.error
    apply (abs_glow_sub_le _ _).trans
    rw [sub_sub_sub_cancel_right, abs_le]
    push_cast at herror ⊢
    constructor <;> linarith [unit_pos]
  have hwidth : |((n : ℚ) - m) / 255| ≤ 1 := by
    rw [abs_of_pos (by positivity), div_le_one (by norm_num)]
    linarith
  -- What the channel has above the lowest is its part of the spread, up to both errors.
  have hlevel := abs_mul_sub_mul_le hchroma (abs_glow_le_one _) hwidth hplace
  have hpart : ((n : ℚ) - m) / 255 * glow (t - p) = (x - m) / 255 := by
    rw [hglow]
    field_simp
  rw [hpart] at hlevel
  have hlight := (near_lightnessOf hn (hmn.le.trans hn)).error
  rw [← hlightness] at hlight
  rw [abs_le] at hchroma hlevel hlight ⊢
  rw [exactShare, exactFloor]
  push_cast at hchroma hlevel hlight
  constructor <;> linarith

theorem abs_exactShare_sub_le_of_gray (hn : n ≤ 255) (p : ℚ) :
    |(⟨0, 0, lightnessOf n n⟩ : Hsl).exactShare p - n / 255| ≤ 1 / 1000 := by
  have hunit := unit_le
  have hlight := abs_le.mp (near_lightnessOf hn hn).error
  rw [exactShare, exactFloor, exactChroma, near_zero.value_eq, mul_zero, zero_mul, zero_div,
    sub_zero, zero_add]
  push_cast at hlight
  rw [abs_le]
  constructor <;> linarith

/-- Channels that are all equal have no hue and no saturation. -/
theorem ofRgba_of_gray (hgray : c.highest = c.lowest) :
    ofRgba c = ⟨0, 0, lightnessOf c.highest c.highest⟩ := by
  rw [ofRgba_eq, if_pos hgray, hgray]

/-- The place of the hue of channels that differ, whichever of them is the highest. -/
theorem places_ofRgba (hgray : c.lowest < c.highest) : Places (ofRgba c).hue
    (parts c.red.toNat c.green.toNat c.blue.toNat c.highest c.lowest) := by
  rw [ofRgba_eq, if_neg hgray.ne']
  exact places_hueOf rfl rfl hgray c.highest_le

theorem inRange_ofRgba (c : Rgba) : (ofRgba c).InRange := by
  have hhighest := c.highest_le
  have hlowest := c.lowest_le_highest.trans hhighest
  obtain ⟨hlow, hhigh⟩ := lightnessOf_mem hhighest hlowest
  have hfinite := (rounds_lightnessOf hhighest hlowest).finite
  rcases c.lowest_le_highest.eq_or_lt with hgray | hgray
  · rw [ofRgba_eq, if_pos hgray.symm]
    have hnonneg := near_zero.value_eq.ge
    have hone := near_zero.value_eq.trans_le zero_le_one
    exact ⟨near_zero.finite, hnonneg, hone.trans_lt (by norm_num), near_zero.finite, hnonneg, hone,
      hfinite, hlow, hhigh⟩
  · obtain ⟨hhue, hhue_lt, t, -, hnear⟩ := places_ofRgba hgray
    obtain ⟨hpos, hle, -⟩ := saturationOf_spec hgray hhighest
    have hsaturation := (rounds_saturationOf hgray hhighest).1.finite
    rw [ofRgba_eq, if_neg hgray.ne'] at hhue hhue_lt hnear ⊢
    exact ⟨hnear.finite, hhue, hhue_lt, hsaturation, hpos.le, hle, hfinite, hlow, hhigh⟩

/-- Neither saturation nor hue is left of a gray, and some saturation of every other color. -/
theorem ofRgba_eq_zero_iff (c : Rgba) :
    (ofRgba c).hue.value = 0 ∧ (ofRgba c).saturation.value = 0 ↔
      c.red = c.green ∧ c.green = c.blue := by
  rw [← c.highest_eq_lowest_iff]
  rcases c.lowest_le_highest.eq_or_lt with hgray | hgray
  · rw [ofRgba_eq, if_pos hgray.symm]
    exact ⟨fun _ => hgray.symm, fun _ => ⟨near_zero.value_eq, near_zero.value_eq⟩⟩
  · rw [ofRgba_eq, if_neg hgray.ne']
    have hpos := (saturationOf_spec hgray c.highest_le).1
    exact ⟨fun h => absurd h.2 hpos.ne', fun h => absurd h hgray.ne'⟩

/-- Every color is found again from its hue, saturation and lightness, less its alpha. -/
theorem toRgba_ofRgba (c : Rgba) : (ofRgba c).toRgba = c.withAlpha 255 := by
  have hhighest := c.highest_le
  have hrange := inRange_ofRgba c
  rcases c.lowest_le_highest.eq_or_lt with hgray | hgray
  · -- A gray has no chroma, so all its channels are the lightness.
    obtain ⟨hred, hgreen⟩ := c.highest_eq_lowest_iff.mp hgray.symm
    have hshare (p : ℚ) := abs_exactShare_sub_le_of_gray hhighest p
    have heq : c.highest = c.blue.toNat := by
      rw [Rgba.highest, hred, hgreen, max_self, max_self]
    rw [← ofRgba_of_gray hgray.symm, heq] at hshare
    refine toRgba_of_shares hrange _ _ _ ?_ ?_ ?_
    · rw [hred, hgreen]
      exact hshare 0
    · rw [hgreen]
      exact hshare 2
    · exact hshare 4
  · -- Otherwise each channel is as bright as the place of the hue says.
    obtain ⟨-, -, t, hwheel, hnear⟩ := places_ofRgba hgray
    rw [wheel, parts, Prod.mk.injEq, Prod.mk.injEq] at hwheel
    obtain ⟨hred, hgreen, hblue⟩ := hwheel
    rw [← sub_zero t] at hred
    have hlightness : (ofRgba c).lightness = lightnessOf c.highest c.lowest := by
      rw [ofRgba_eq, if_neg hgray.ne']
    have hsaturation : (ofRgba c).saturation = saturationOf c.highest c.lowest := by
      rw [ofRgba_eq, if_neg hgray.ne']
    exact toRgba_of_shares hrange _ _ _
      (abs_exactShare_sub_le hgray hhighest hlightness hsaturation hnear hred)
      (abs_exactShare_sub_le hgray hhighest hlightness hsaturation hnear hgreen)
      (abs_exactShare_sub_le hgray hhighest hlightness hsaturation hnear hblue)

/-- Hue, saturation and lightness of a color are in range whatever its alpha, hue and saturation
vanish exactly for grays, and the color that they give back has the same channels. -/
theorem ofRgba_loses_alpha_only (c : Rgba) :
    (ofRgba c).InRange ∧ (∀ alpha, ofRgba (c.withAlpha alpha) = ofRgba c) ∧
      ((ofRgba c).hue.value = 0 ∧ (ofRgba c).saturation.value = 0 ↔
        c.red = c.green ∧ c.green = c.blue) ∧
      (ofRgba c).toRgba = c.withAlpha 255 :=
  ⟨inRange_ofRgba c, fun _ => rfl, ofRgba_eq_zero_iff c, toRgba_ofRgba c⟩

end Hsl

end Marginalia
