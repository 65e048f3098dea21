import Marginalia.Proofs.Binary32.Near
import Marginalia.Proofs.Color.Wheel

/-! From hue, saturation and lightness to channels: the rounded steps stay close to the exact ones,
and a channel is found again from what is close to its share. -/
namespace Marginalia

namespace Hsl

open Binary32

variable {c : Hsl} {z : Binary32} {v : ℚ} {n : ℕ}

/-- All three parts are numbers, and each is in its range. -/
structure InRange (c : Hsl) : Prop where
  hue_finite : c.hue.isFinite = true
  hue_nonneg : 0 ≤ c.hue.value
  hue_lt : c.hue.value < 360
  saturation_finite : c.saturation.isFinite = true
  saturation_nonneg : 0 ≤ c.saturation.value
  saturation_le : c.saturation.value ≤ 1
  lightness_finite : c.lightness.isFinite = true
  lightness_nonneg : 0 ≤ c.lightness.value
  lightness_le : c.lightness.value ≤ 1

section Exact

/-- The greatest chroma at a lightness: none at black and white, and full halfway. -/
def reach (l : ℚ) : ℚ := 1 - |2 * l - 1|

theorem reach_mem {l : ℚ} (hlow : 0 ≤ l) (hhigh : l ≤ 1) : 0 ≤ reach l ∧ reach l ≤ 1 :=
  ⟨sub_nonneg.mpr (abs_le.mpr ⟨by linarith, by linarith⟩), sub_le_self 1 (abs_nonneg _)⟩

/-- The chroma in exact arithmetic. -/
def exactChroma (c : Hsl) : ℚ := reach c.lightness.value * c.saturation.value

/-- The share that all channels have at least, in exact arithmetic. -/
def exactFloor (c : Hsl) : ℚ := c.lightness.value - c.exactChroma / 2

theorem exactChroma_mem (h : c.InRange) : 0 ≤ c.exactChroma ∧ c.exactChroma ≤ 1 := by
  obtain ⟨hnonneg, hone⟩ := reach_mem h.lightness_nonneg h.lightness_le
  exact ⟨mul_nonneg hnonneg h.saturation_nonneg,
    mul_le_one₀ hone h.saturation_nonneg h.saturation_le⟩

end Exact

section Steps

/-! The steps of the way to channels, by name. -/

def chroma (c : Hsl) : Binary32 := (1 - (2 * c.lightness - 1).abs) * c.saturation

def sixths (c : Hsl) : Binary32 := c.hue.wrap 360 / 60

def second (c : Hsl) : Binary32 := c.chroma * (1 - (c.sixths % 2 - 1).abs)

def floor (c : Hsl) : Binary32 := c.lightness - c.chroma / 2

def levels (c : Hsl) : Binary32 × Binary32 × Binary32 :=
  sixth (sector c.sixths) c.chroma c.second 0

theorem toRgba_eq (c : Hsl) :
    c.toRgba = .solid (channel (c.levels.1 + c.floor)) (channel (c.levels.2.1 + c.floor))
      (channel (c.levels.2.2 + c.floor)) := by
  simp only [toRgba, levels, floor, second, sixths, chroma]
  generalize sector _ = n
  -- The sixth case of the table takes every sector from the fifth on.
  rcases n with _ | _ | _ | _ | _ | n <;> rfl

theorem near_turn : (360 : Binary32).Near 360 0 := near_ofNat (by decide)

theorem near_degrees : (60 : Binary32).Near 60 0 := near_ofNat (by decide)

/-- The greatest chroma at a lightness, rounded. -/
theorem near_reach (hfinite : z.isFinite = true) (hlow : 0 ≤ z.value) (hhigh : z.value ≤ 1) :
    (1 - (2 * z - 1).abs).Near (reach z.value) 3 := by
  have hdouble : (2 * z).Near (2 * z.value) 1 :=
    near_two.mul (near_value hfinite) 0 (a := 2) (b := 1) (by norm_num)
      (by rw [Nat.cast_one, abs_le]; constructor <;> linarith) (by decide)
  have hshift : (2 * z - 1).Near (2 * z.value - 1) 2 :=
    hdouble.sub near_one 0 (by decide) (abs_le.mpr ⟨by linarith, by linarith⟩)
  obtain ⟨hnonneg, hone⟩ := reach_mem hlow hhigh
  have hreach : |reach z.value| ≤ 1 := abs_le.mpr ⟨by linarith, hone⟩
  exact near_one.sub hshift.abs 0 (by decide) (hreach.trans (by norm_num))

theorem near_chroma (h : c.InRange) : c.chroma.Near c.exactChroma 7 := by
  have hrest := near_reach h.lightness_finite h.lightness_nonneg h.lightness_le
  obtain ⟨hnonneg, hone⟩ := reach_mem h.lightness_nonneg h.lightness_le
  have hreach : |reach c.lightness.value| ≤ 1 := abs_le.mpr ⟨by linarith, hone⟩
  have hsaturation : |c.saturation.value| ≤ 1 := by
    rw [abs_of_nonneg h.saturation_nonneg]
    exact h.saturation_le
  exact hrest.mul (near_value h.saturation_finite) 0 (a := 1) (b := 1)
    (by rwa [Nat.cast_one]) (by rwa [Nat.cast_one]) (by decide)

theorem rounds_sixths (h : c.InRange) : c.sixths.Rounds (c.hue.value / 60) := by
  have hlow := h.hue_nonneg
  have hhigh := h.hue_lt
  obtain ⟨hfinite, hvalue⟩ := wrap_spec h.hue_finite near_turn.finite hlow
    (hhigh.trans_eq near_turn.value_eq.symm) (hhigh.trans (by norm_num))
  rw [← hvalue]
  refine (near_value hfinite).rounds_div near_degrees (by norm_num) ?_
  rw [hvalue, abs_of_nonneg (by linarith)]
  linarith

theorem sixths_mem (h : c.InRange) : 0 ≤ c.sixths.value ∧ c.sixths.value ≤ 6 := by
  have hlow := h.hue_nonneg
  have hhigh := h.hue_lt
  have hrounds := rounds_sixths h
  exact ⟨hrounds.nonneg (by linarith),
    hrounds.le_natCast (n := 6) (by decide) (by push_cast; linarith)⟩

theorem near_sixths (h : c.InRange) : c.sixths.Near (c.hue.value / 60) 1 := by
  have hlow := h.hue_nonneg
  have hhigh := h.hue_lt
  exact (rounds_sixths h).near_self (abs_le.mpr ⟨by linarith, by linarith⟩)

theorem near_second (h : c.InRange) :
    c.second.Near (c.chroma.value * ramp c.sixths.value) 7 := by
  obtain ⟨hlow, hhigh⟩ := sixths_mem h
  have hfinite := (rounds_sixths h).finite
  have hfloor := Int.floor_le (c.sixths.value / 2)
  have hnext := Int.lt_floor_add_one (c.sixths.value / 2)
  have hmod : (c.sixths % 2).Near (c.sixths.value - 2 * ⌊c.sixths.value / 2⌋) 1 := by
    have hrem := rounds_rem hfinite near_two.finite (by rw [near_two.value_eq]; norm_num)
    rw [near_two.value_eq, integerPart_of_nonneg (by linarith)] at hrem
    have hle : |c.sixths.value - 2 * ⌊c.sixths.value / 2⌋| ≤ 2 :=
      abs_le.mpr ⟨by linarith, by linarith⟩
    exact (hrem (hle.trans_lt (by norm_num))).near_self (hle.trans (by norm_num))
  have hshift : (c.sixths % 2 - 1).Near (c.sixths.value - 2 * ⌊c.sixths.value / 2⌋ - 1) 2 :=
    hmod.sub near_one 0 (by decide) (abs_le.mpr ⟨by linarith, by linarith⟩)
  have hmiddle : |c.sixths.value - 2 * ⌊c.sixths.value / 2⌋ - 1| ≤ 1 :=
    abs_le.mpr ⟨by linarith, by linarith⟩
  have hramp : |ramp c.sixths.value| ≤ 1 := by
    have hnonneg := abs_nonneg (c.sixths.value - 2 * ⌊c.sixths.value / 2⌋ - 1)
    rw [ramp, abs_le]
    constructor <;> linarith
  have hrest : (1 - (c.sixths % 2 - 1).abs).Near (ramp c.sixths.value) 3 :=
    near_one.sub hshift.abs 0 (by decide) (hramp.trans (by norm_num))
  -- Here the chroma counts as exact: its own error is part of the level it is multiplied into.
  have hchroma := near_chroma h
  obtain ⟨hnonneg, hone⟩ := exactChroma_mem h
  have hbound := hchroma.abs_value_le (b := 1) (by decide)
    (by rw [abs_of_nonneg hnonneg, Nat.cast_one]; exact hone)
  exact (near_value hchroma.finite).mul hrest 0 (a := 2) (b := 1)
    (hbound.trans (by norm_num)) (by rwa [Nat.cast_one]) (by decide)

theorem near_floor (h : c.InRange) : c.floor.Near c.exactFloor 9 := by
  have hlow := h.lightness_nonneg
  have hhigh := h.lightness_le
  obtain ⟨hnonneg, hone⟩ := exactChroma_mem h
  have hhalf : (c.chroma / 2).Near (c.exactChroma / 2) 8 :=
    (near_chroma h).div 0 near_two (by norm_num) (by decide)
      (by rw [abs_of_nonneg (by linarith)]; linarith)
  exact (near_value h.lightness_finite).sub hhalf 0 (by decide)
    (abs_le.mpr ⟨by linarith, by linarith⟩)

theorem sector_eq (hz : z.isFinite = true) (hlow : 0 ≤ z.value) (hhigh : z.value ≤ 6) :
    (sector z : ℤ) = ⌊z.value⌋ := by
  have hnonneg : 0 ≤ ⌊z.value⌋ := Int.floor_nonneg.mpr hlow
  have hle : ⌊z.value⌋ ≤ 6 := by
    have h := Int.floor_le_floor hhigh
    rwa [Int.floor_ofNat] at h
  rw [sector, clamp_of_isFinite _ _ _ hz, integerPart_of_nonneg hlow]
  omega

/-- In each sixth the three channels are the full one, the changing one and a dark one. -/
theorem near_sixth {full part : Binary32} {s t : ℚ} (n m : ℕ) (hfull : full.Near s m)
    (hpart : part.Near (s * t) m) (hdark : (0 : Binary32).Near 0 m) :
    (sixth n full part 0).1.Near (s * (sixth n 1 t 0).1) m ∧
      (sixth n full part 0).2.1.Near (s * (sixth n 1 t 0).2.1) m ∧
      (sixth n full part 0).2.2.Near (s * (sixth n 1 t 0).2.2) m := by
  rw [← mul_one s] at hfull
  rw [← mul_zero s] at hdark
  rcases n with _ | _ | _ | _ | _ | n
  · exact ⟨hfull, hpart, hdark⟩
  · exact ⟨hpart, hfull, hdark⟩
  · exact ⟨hdark, hfull, hpart⟩
  · exact ⟨hdark, hpart, hfull⟩
  · exact ⟨hpart, hdark, hfull⟩
  · exact ⟨hfull, hdark, hpart⟩

theorem near_levels (h : c.InRange) :
    c.levels.1.Near (c.chroma.value * (wheel c.sixths.value).1) 7 ∧
      c.levels.2.1.Near (c.chroma.value * (wheel c.sixths.value).2.1) 7 ∧
      c.levels.2.2.Near (c.chroma.value * (wheel c.sixths.value).2.2) 7 := by
  obtain ⟨hlow, hhigh⟩ := sixths_mem h
  have hsector := sector_eq (rounds_sixths h).finite hlow hhigh
  have hfull := (near_value (near_chroma h).finite).mono (Nat.zero_le 7)
  have hdark := near_zero.mono (Nat.zero_le 7)
  rw [← sixth_floor_eq_wheel hsector hhigh]
  exact near_sixth (sector c.sixths) 7 hfull (near_second h) hdark

end Steps

section Channels

/-- The share of the channel with a place on the wheel, in exact arithmetic. -/
def exactShare (c : Hsl) (p : ℚ) : ℚ := c.exactChroma * glow (c.hue.value / 60 - p) + c.exactFloor

theorem near_exactShare (h : c.InRange) (p : ℚ) {level : Binary32}
    (hlevel : level.Near (c.chroma.value * glow (c.sixths.value - p)) 7) :
    (level + c.floor).Near (c.exactShare p) 25 := by
  obtain ⟨hnonneg, hone⟩ := exactChroma_mem h
  have hchroma := (near_chroma h).error
  have hglow : |glow (c.sixths.value - p) - glow (c.hue.value / 60 - p)| ≤ (1 : ℕ) * unit := by
    apply (abs_glow_sub_le _ _).trans
    rw [sub_sub_sub_cancel_right]
    exact (near_sixths h).error
  -- Chroma and place are both off by some units, and a bright channel passes both errors on.
  have hlevel_error := abs_mul_sub_mul_le hchroma (abs_glow_le_one _)
    ((abs_of_nonneg hnonneg).trans_le hone) hglow
  have hunits : (7 : ℕ) * unit * 1 + 1 * ((1 : ℕ) * unit) = (8 : ℕ) * unit := by
    push_cast
    ring
  rw [hunits] at hlevel_error
  have hlow := glow_nonneg (c.hue.value / 60 - p)
  have hhigh := glow_le_one (c.hue.value / 60 - p)
  have hproduct := mul_nonneg hnonneg hlow
  have hproduct_le := mul_le_one₀ hone hlow hhigh
  have hlightness := h.lightness_nonneg
  have hlightness_le := h.lightness_le
  refine (hlevel.trans hlevel_error).add (near_floor h) 0 (by decide) ?_
  rw [exactFloor, abs_le]
  constructor <;> linarith

theorem toNat_le (u : UInt8) : u.toNat ≤ 255 := Nat.le_of_lt_succ u.toNat_lt

/-- A channel is found again from what is close to its share. -/
theorem channel_eq (hn : n ≤ 255) (hz : z.Near v 25) (hv : |v - n / 255| ≤ 1 / 1000) :
    channel z = UInt8.ofNat n := by
  have hwhole : (255 : Binary32).Near 255 0 := near_ofNat (by decide)
  have hn' : (n : ℚ) ≤ 255 := by exact_mod_cast hn
  have hunit := unit_le
  have hnonneg : (0 : ℚ) ≤ n := Nat.cast_nonneg n
  rw [abs_le] at hv
  have hscaled : (z * 255).Near (v * 255) 6528 :=
    hz.mul hwhole 7 (a := 2) (b := 255) (by push_cast; rw [abs_le]; constructor <;> linarith)
      (by norm_num) (by decide)
  have hclose : |(z * 255).value - (n : ℤ)| < 1 / 2 := by
    have herror := abs_le.mp hscaled.error
    push_cast at herror
    rw [abs_lt]
    constructor <;> push_cast <;> linarith
  -- The bounds of the channel do not move a number between them.
  rw [channel, clamp_of_isFinite _ _ _ hscaled.finite, nearestAway_eq hclose]
  congr 1
  omega

/-- A color whose channels are close to whole ones in exact arithmetic is turned into these. -/
theorem toRgba_of_shares (h : c.InRange) (r g b : UInt8)
    (hred : |c.exactShare 0 - r.toNat / 255| ≤ 1 / 1000)
    (hgreen : |c.exactShare 2 - g.toNat / 255| ≤ 1 / 1000)
    (hblue : |c.exactShare 4 - b.toNat / 255| ≤ 1 / 1000) : c.toRgba = .solid r g b := by
  obtain ⟨hr, hg, hb⟩ := near_levels h
  rw [wheel, ← sub_zero c.sixths.value] at hr
  rw [toRgba_eq, channel_eq (toNat_le r) (near_exactShare h 0 hr) hred,
    channel_eq (toNat_le g) (near_exactShare h 2 hg) hgreen,
    channel_eq (toNat_le b) (near_exactShare h 4 hb) hblue]
  simp only [UInt8.ofNat_toNat]

end Channels

end Hsl

end Marginalia
