import Marginalia.Proofs.Color.Turn

/-! Colors without chroma. There is none without saturation, at black and at white; then the hue
does not count, and every channel is the lightness. -/
namespace Marginalia

namespace Hsl

open Binary32

variable {c : Hsl} {h s l x : Binary32}

section Chroma

theorem shade_finite (hx : x.isFinite = true) : (shade x).isFinite = true := by
  obtain ⟨hfinite, hvalue⟩ := rem_exact hx near_two.finite (by rw [near_two.value_eq]; norm_num)
    (by rw [near_two.value_eq]; norm_num)
  have hlt : |(x % 2).value| < 2 := by
    have hleftover := abs_leftover_lt (v := x.value) (two_ne_zero (α := ℚ))
    rwa [abs_two, ← near_two.value_eq, ← hvalue, near_two.value_eq] at hleftover
  rw [abs_lt] at hlt
  have hle : |(x % 2).value - 1| ≤ (3 : ℕ) := by
    rw [abs_le]
    push_cast
    constructor <;> linarith
  have hshift := (near_value hfinite).rounds_sub near_one (hle.trans (by norm_num))
  have hsize := hshift.abs_le_natCast (by decide) hle
  have hnonneg := abs_nonneg (x % 2 - 1).value
  push_cast at hsize
  refine (near_one.rounds_sub (near_value hshift.finite).abs ?_).finite
  rw [abs_le]
  constructor <;> linarith

theorem sixths_finite (hh : c.hue.isFinite = true) : c.sixths.isFinite = true := by
  obtain ⟨hlow, hhigh⟩ := turn_mem hh
  refine ((near_value (rounds_turn hh).finite).rounds_div near_degrees (by norm_num) ?_).finite
  rw [abs_of_nonneg (by linarith)]
  linarith

/-- What holds of all three parts of a sixth holds of each channel. -/
theorem forall_sixth {P : Binary32 → Prop} (n : ℕ) {full part dark : Binary32} (hfull : P full)
    (hpart : P part) (hdark : P dark) :
    P (sixth n full part dark).1 ∧ P (sixth n full part dark).2.1 ∧
      P (sixth n full part dark).2.2 := by
  rcases n with _ | _ | _ | _ | _ | n
  · exact ⟨hfull, hpart, hdark⟩
  · exact ⟨hpart, hfull, hdark⟩
  · exact ⟨hdark, hfull, hpart⟩
  · exact ⟨hdark, hpart, hfull⟩
  · exact ⟨hpart, hdark, hfull⟩
  · exact ⟨hfull, hdark, hpart⟩

/-- Without chroma every channel is the lightness, whatever the hue. -/
theorem toRgba_of_chroma (hh : c.hue.isFinite = true) (hl : c.lightness.InUnit)
    (hchroma : c.chroma.rank = 0) : c.toRgba =
      .solid (channel c.lightness) (channel c.lightness) (channel c.lightness) := by
  have hsecond : c.second.rank = 0 := by
    rw [second, Binary32.mul_comm]
    exact rank_mul_eq_zero (shade_finite (sixths_finite hh)) hchroma
  have hplus {x : Binary32} (hx : x.rank = 0) : (x + c.lightness).rank = c.lightness.rank := by
    apply rank_add_eq hx hl.finite
    rw [abs_of_nonneg hl.nonneg]
    exact hl.le_one.trans_lt (by norm_num)
  have hfloor : c.floor.rank = c.lightness.rank := by
    have hhalf : (-(c.chroma / 2)).rank = 0 := by
      rw [rank_neg, rank_div_congr 2 (hchroma.trans (rank_zero false).symm)]
      decide +kernel
    change (c.lightness + -(c.chroma / 2)).rank = _
    rw [Binary32.add_comm, hplus hhalf]
  have hchannel {x : Binary32} (hx : x.rank = 0) : channel (x + c.floor) = channel c.lightness :=
    channel_congr ((rank_add_congr rfl hfloor).trans (hplus hx))
  have hdark : (0 : Binary32).rank = 0 := rank_zero false
  obtain ⟨hred, hgreen, hblue⟩ :=
    forall_sixth (P := fun x => x.rank = 0) (sector c.sixths) hchroma hsecond hdark
  rw [toRgba_eq, levels, hchannel hred, hchannel hgreen, hchannel hblue]

theorem reach_finite (hl : l.InUnit) : (1 - (2 * l - 1).abs).isFinite = true :=
  (near_reach hl.finite hl.nonneg hl.le_one).finite

/-- At a lightness where the greatest chroma is zero the saturation does not count either. -/
theorem toRgba_of_reach (hh : h.isFinite = true) (hs : s.isFinite = true) (hl : l.InUnit)
    (hreach : (1 - (2 * l - 1).abs).rank = 0) :
    toRgba ⟨h, s, l⟩ = .solid (channel l) (channel l) (channel l) := by
  apply toRgba_of_chroma hh hl
  rw [chroma, Binary32.mul_comm]
  exact rank_mul_eq_zero hs hreach

end Chroma

section Lightness

/-- A lightness is a channel by rounding alone: the bounds of a channel do not move it. -/
theorem toNat_channel (hl : l.InUnit) :
    ((channel l).toNat : ℤ) = nearestAway (255 * l).value := by
  have hfull : (255 : Binary32).Near 255 0 := near_ofNat (by decide)
  have hlow := hl.nonneg
  have hhigh := hl.le_one
  have hrounds : (255 * l).Rounds (255 * l.value) := by
    apply hfull.rounds_mul (near_value hl.finite)
    rw [abs_of_nonneg (by linarith)]
    linarith
  have hnonneg := hrounds.nonneg (by linarith)
  have hle := hrounds.le_natCast (n := 255) (by decide) (by push_cast; linarith)
  have hsum : (255 * l).value + 1 / 2 < (256 : ℤ) := by
    push_cast at hle ⊢
    linarith
  have hbounds : 0 ≤ nearestAway (255 * l).value ∧ nearestAway (255 * l).value < 256 := by
    rw [nearestAway_of_nonneg hnonneg]
    exact ⟨Int.floor_nonneg.mpr (by linarith), Int.floor_lt.mpr hsum⟩
  obtain ⟨n, hn⟩ := Int.eq_ofNat_of_zero_le hbounds.1
  rw [hn] at hbounds
  have hn' : (max 0 (min 255 (n : ℤ))).toNat = n := by omega
  have hsize : n < UInt8.size := Int.ofNat_lt.mp hbounds.2
  rw [channel, Binary32.mul_comm, clamp_of_isFinite _ _ _ hrounds.finite, hn, hn',
    UInt8.toNat_ofNat_of_lt' hsize]

end Lightness

/-- Colors without chroma ignore the hue. Without saturation all channels are the rounded share of
the lightness; lightness zero is black and lightness one is white at every saturation. -/
theorem toRgba_achromatic (hh : h.isFinite = true) :
    (∀ (negative : Bool) (l : Binary32), l.InUnit → ∃ v : UInt8,
      (v.toNat : ℤ) = nearestAway (255 * l).value ∧
        toRgba ⟨h, zero negative, l⟩ = .solid v v v) ∧
    ∀ s : Binary32, s.isFinite = true →
      (∀ negative : Bool, toRgba ⟨h, s, zero negative⟩ = .solid 0 0 0) ∧
        toRgba ⟨h, s, 1⟩ = .solid 255 255 255 := by
  constructor
  · intro negative l hl
    have hchroma : (⟨h, zero negative, l⟩ : Hsl).chroma.rank = 0 :=
      rank_mul_eq_zero (reach_finite hl) (rank_zero negative)
    exact ⟨channel l, toNat_channel hl, toRgba_of_chroma hh hl hchroma⟩
  · intro s hs
    constructor
    · intro negative
      have hl : (zero negative).InUnit := by
        constructor <;> cases negative <;> decide +kernel
      have hreach : (1 - (2 * zero negative - 1).abs).rank = 0 := by
        cases negative <;> decide +kernel
      have hblack : channel (zero negative) = 0 := by
        cases negative <;> decide +kernel
      rw [toRgba_of_reach hh hs hl hreach, hblack]
    · have hl : (1 : Binary32).InUnit := by constructor <;> decide +kernel
      have hreach : (1 - (2 * (1 : Binary32) - 1).abs).rank = 0 := by decide +kernel
      have hwhite : channel 1 = 255 := by decide +kernel
      rw [toRgba_of_reach hh hs hl hreach, hwhite]

/-- The largest hue there is, going down, at a quarter of the lightness: 63.75 is rounded to 64. -/
theorem toRgba_achromatic_distantHue :
    (⟨true, 0x7F7FFFFF⟩ : Binary32).isFinite = true ∧ (1 / 4 : Binary32).InUnit ∧
      toRgba ⟨⟨true, 0x7F7FFFFF⟩, 0, 1 / 4⟩ = .solid 64 64 64 ∧
      toRgba ⟨⟨true, 0x7F7FFFFF⟩, 7, 1⟩ = .solid 255 255 255 := by
  have hh : (⟨true, 0x7F7FFFFF⟩ : Binary32).isFinite = true := by decide
  have hl : (1 / 4 : Binary32).InUnit := by constructor <;> decide +kernel
  have hs : (7 : Binary32).isFinite = true := by decide +kernel
  obtain ⟨hgray, hends⟩ := toRgba_achromatic hh
  obtain ⟨v, hv, hcolor⟩ := hgray false (1 / 4) hl
  have hround : nearestAway (255 * (1 / 4 : Binary32)).value = (64 : UInt8).toNat := by
    decide +kernel
  rw [hround, Int.ofNat_inj, UInt8.toNat_inj] at hv
  rw [hv] at hcolor
  exact ⟨hh, hl, hcolor, (hends 7 hs).2⟩

end Hsl

end Marginalia
