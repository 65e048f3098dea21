import Marginalia.Proofs.Binary32.Remainder
import Marginalia.Proofs.Binary32.Zeros
import Marginalia.Proofs.Color.Return

/-! Whole turns of the hue. Of a hue only its place within one turn counts, and a full turn, which a
hue just below zero is rounded up to, has the color of no turn at all. -/
namespace Marginalia

/-- A number from zero to one. -/
structure Binary32.InUnit (x : Binary32) : Prop where
  finite : x.isFinite = true
  nonneg : 0 ≤ x.value
  le_one : x.value ≤ 1

namespace Hsl

open Binary32

variable {c d : Hsl} {h h' s l x y : Binary32} {n : ℤ}

section Places

/-! Numbers of one place on the line lead to the same color. -/

/-- How much of the chroma the changing channel has. -/
def shade (x : Binary32) : Binary32 := 1 - (x % 2 - 1).abs

theorem rank_shade_congr (hx : x.rank = y.rank) : (shade x).rank = (shade y).rank := by
  have hshift := rank_sub_congr (rank_rem_congr 2 hx) (rfl : (1 : Binary32).rank = rank 1)
  exact rank_sub_congr rfl (congrArg rank (abs_congr hshift))

theorem channel_congr (hx : x.rank = y.rank) : channel x = channel y := by
  rw [channel, channel, clamp_congr _ _ _ (rank_mul_congr hx rfl)]

theorem sector_congr (hx : x.rank = y.rank) : sector x = sector y := by
  rw [sector, sector, clamp_congr _ _ _ hx]

/-- The three channels in a sixth have the places of what they are made of. -/
theorem rank_sixth_congr (n : ℕ) (dark : Binary32) {full full' part part' : Binary32}
    (hfull : full.rank = full'.rank) (hpart : part.rank = part'.rank) :
    (sixth n full part dark).1.rank = (sixth n full' part' dark).1.rank ∧
      (sixth n full part dark).2.1.rank = (sixth n full' part' dark).2.1.rank ∧
      (sixth n full part dark).2.2.rank = (sixth n full' part' dark).2.2.rank := by
  rcases n with _ | _ | _ | _ | _ | n
  · exact ⟨hfull, hpart, rfl⟩
  · exact ⟨hpart, hfull, rfl⟩
  · exact ⟨rfl, hfull, hpart⟩
  · exact ⟨rfl, hpart, hfull⟩
  · exact ⟨hpart, rfl, hfull⟩
  · exact ⟨hfull, rfl, hpart⟩

theorem toRgba_of_levels (hfloor : c.floor = d.floor)
    (hred : c.levels.1.rank = d.levels.1.rank) (hgreen : c.levels.2.1.rank = d.levels.2.1.rank)
    (hblue : c.levels.2.2.rank = d.levels.2.2.rank) : c.toRgba = d.toRgba := by
  rw [toRgba_eq, toRgba_eq, hfloor, channel_congr (rank_add_congr hred rfl),
    channel_congr (rank_add_congr hgreen rfl), channel_congr (rank_add_congr hblue rfl)]

/-- Of the hue only its place on the wheel counts. -/
theorem toRgba_congr (hchroma : c.chroma = d.chroma) (hfloor : c.floor = d.floor)
    (hsixths : c.sixths.rank = d.sixths.rank) : c.toRgba = d.toRgba := by
  have hsecond : c.second.rank = d.second.rank :=
    rank_mul_congr (congrArg rank hchroma) (rank_shade_congr hsixths)
  have hlevels : c.levels = sixth (sector d.sixths) c.chroma c.second 0 := by
    rw [levels, sector_congr hsixths]
  obtain ⟨hred, hgreen, hblue⟩ :=
    rank_sixth_congr (sector d.sixths) 0 (congrArg rank hchroma) hsecond
  rw [← hlevels] at hred hgreen hblue
  exact toRgba_of_levels hfloor hred hgreen hblue

end Places

section Turns

/-- The wrapped hue is nearest to what is left above whole turns. -/
theorem rounds_turn (hh : h.isFinite = true) :
    (h.wrap 360).Rounds (Int.fract (h.value / 360) * 360) := by
  have hrounds := rounds_wrap hh near_turn.finite (by rw [near_turn.value_eq]; norm_num)
    (by rw [near_turn.value_eq]; norm_num)
  rwa [near_turn.value_eq] at hrounds

theorem turn_mem (hh : h.isFinite = true) : 0 ≤ (h.wrap 360).value ∧ (h.wrap 360).value ≤ 360 := by
  have hrounds := rounds_turn hh
  obtain ⟨hlow, hhigh⟩ := Int.fract_div_mul_self_mem_Ico 360 h.value (by norm_num)
  exact ⟨hrounds.nonneg hlow,
    hrounds.le_natCast (n := 360) (by decide) (by push_cast; exact hhigh.le)⟩

/-- Hues that wrap to the same value have the same color. -/
theorem toRgba_of_turn (hturn : (h.wrap 360).value = (h'.wrap 360).value) :
    toRgba ⟨h, s, l⟩ = toRgba ⟨h', s, l⟩ :=
  toRgba_congr rfl rfl (rank_div_congr 60 (rank_eq_of_value hturn))

/-- The last sixth ends with the color that the first one begins with: in both places the changing
channel has nothing of the chroma. -/
theorem toRgba_of_full_turn (hchroma : c.chroma = d.chroma) (hfloor : c.floor = d.floor)
    (hfinite : d.chroma.isFinite = true) (hc : c.sixths.rank = (6 : Binary32).rank)
    (hd : d.sixths.rank = (0 : Binary32).rank) : c.toRgba = d.toRgba := by
  have hsix : shade 6 = 0 := by decide +kernel
  have hzero : shade 0 = 0 := by decide +kernel
  have hsectors : sector 6 = 6 ∧ sector 0 = 0 := by decide +kernel
  have hlast : c.second.rank = 0 :=
    rank_mul_eq_zero (hchroma ▸ hfinite) ((rank_shade_congr hc).trans (congrArg rank hsix))
  have hfirst : d.second.rank = 0 :=
    rank_mul_eq_zero hfinite ((rank_shade_congr hd).trans (congrArg rank hzero))
  have hclevels : c.levels = (c.chroma, 0, c.second) := by
    rw [levels, sector_congr hc, hsectors.1]
    rfl
  have hdlevels : d.levels = (d.chroma, d.second, 0) := by
    rw [levels, sector_congr hd, hsectors.2]
    rfl
  apply toRgba_of_levels hfloor
  · rw [hclevels, hdlevels, hchroma]
  · rw [hclevels, hdlevels]
    exact hfirst.symm
  · rw [hclevels, hdlevels]
    exact hlast

theorem chroma_finite (hs : s.InUnit) (hl : l.InUnit) (h : Binary32) :
    (⟨h, s, l⟩ : Hsl).chroma.isFinite = true := by
  have hnonneg := near_zero.value_eq.ge
  have hlt : (0 : Binary32).value < 360 := by
    rw [near_zero.value_eq]
    norm_num
  exact (near_chroma (c := ⟨0, s, l⟩) ⟨near_zero.finite, hnonneg, hlt, hs.finite, hs.nonneg,
    hs.le_one, hl.finite, hl.nonneg, hl.le_one⟩).finite

theorem toRgba_wrap (hs : s.InUnit) (hl : l.InUnit) (hh : h.isFinite = true) :
    toRgba ⟨h, s, l⟩ = toRgba ⟨h.wrap 360, s, l⟩ := by
  have hfinite := (rounds_turn hh).finite
  obtain ⟨hlow, hhigh⟩ := turn_mem hh
  rcases hhigh.lt_or_eq with hlt | hfull
  · -- Within one turn wrapping changes nothing.
    apply toRgba_of_turn
    exact (wrap_spec hfinite near_turn.finite hlow (hlt.trans_eq near_turn.value_eq.symm)
      (hlt.trans (by norm_num))).2.symm
  · -- A hue that is rounded up to the full turn wraps to zero from there.
    have hturn : (h.wrap 360).rank = (360 : Binary32).rank :=
      rank_eq_of_value (hfull.trans near_turn.value_eq.symm)
    have hagain : ((h.wrap 360).wrap 360).rank = (0 : Binary32).rank := by
      apply rank_eq_of_value
      rw [(rounds_turn hfinite).value, hfull, near_zero.value_eq]
      norm_num [nearest_zero]
    have hlast : (360 : Binary32) / 60 = 6 := by decide +kernel
    have hfirst : (0 : Binary32) / 60 = 0 := by decide +kernel
    refine toRgba_of_full_turn rfl rfl (chroma_finite hs hl _) ?_ ?_
    · exact (rank_div_congr 60 hturn).trans (congrArg rank hlast)
    · exact (rank_div_congr 60 hagain).trans (congrArg rank hfirst)

end Turns

section Degrees

theorem value_ofRat_intCast (hn : |n| ≤ 2 ^ 24) :
    (ofRat false n).isFinite = true ∧ (ofRat false n).value = n := by
  have hlt : |(n : ℚ)| < (2 : ℚ) ^ (127 : ℤ) := by
    have hcast : |(n : ℚ)| ≤ 2 ^ 24 := by exact_mod_cast hn
    exact hcast.trans_lt (by norm_num)
  have hrounds := rounds_ofRat false hlt
  exact ⟨hrounds.finite, hrounds.value.trans (nearest_intCast hn)⟩

/-- Whole degrees wrap to their remainder. -/
theorem value_turn_of_degrees (hh : h.isFinite = true) (hvalue : h.value = n) :
    (h.wrap 360).value = (n % 360 : ℤ) := by
  have hfract : Int.fract ((n : ℚ) / 360) * 360 = (n % 360 : ℤ) := by
    have h := Int.fract_div_intCast_eq_div_intCast_mod (k := ℚ) (m := n) (n := 360)
    push_cast at h
    rw [h, div_mul_cancel₀ _ (by norm_num)]
  rw [(rounds_turn hh).value, hvalue, hfract]
  apply nearest_intCast
  rw [abs_le]
  omega

end Degrees

/-- The hue wraps around at 360 degrees: every hue has the color of the wrapped hue, which is the
number nearest to what is left above whole turns and may be the full turn itself, and a hue of whole
degrees has the color of the remainder of its degrees. -/
theorem toRgba_turns (hs : s.InUnit) (hl : l.InUnit) :
    (∀ h : Binary32, h.isFinite = true →
      (h.wrap 360).Rounds (Int.fract (h.value / 360) * 360) ∧
      toRgba ⟨h, s, l⟩ = toRgba ⟨h.wrap 360, s, l⟩) ∧
    ∀ n : ℤ, |n| ≤ 2 ^ 24 → (ofRat false n).value = n ∧
      toRgba ⟨ofRat false n, s, l⟩ = toRgba ⟨ofRat false (n % 360 : ℤ), s, l⟩ := by
  refine ⟨fun h hh => ⟨rounds_turn hh, toRgba_wrap hs hl hh⟩, ?_⟩
  intro n hn
  have hmod : |n % 360| ≤ 2 ^ 24 := by
    rw [abs_le]
    omega
  obtain ⟨hfinite, hvalue⟩ := value_ofRat_intCast hn
  obtain ⟨hfinite', hvalue'⟩ := value_ofRat_intCast hmod
  refine ⟨hvalue, toRgba_of_turn ?_⟩
  rw [value_turn_of_degrees hfinite hvalue, value_turn_of_degrees hfinite' hvalue', Int.emod_emod]

/-- The greatest negative hue is rounded up to the full turn, which is as red as no turn is. -/
theorem toRgba_turns_belowZero :
    (1 : Binary32).InUnit ∧ (1 / 2 : Binary32).InUnit ∧ (⟨true, 1⟩ : Binary32).wrap 360 = 360 ∧
      toRgba ⟨⟨true, 1⟩, 1, 1 / 2⟩ = toRgba ⟨360, 1, 1 / 2⟩ := by
  have hs : (1 : Binary32).InUnit := by constructor <;> decide +kernel
  have hl : (1 / 2 : Binary32).InUnit := by constructor <;> decide +kernel
  have hwrap : (⟨true, 1⟩ : Binary32).wrap 360 = 360 := by decide +kernel
  have hcolor := ((toRgba_turns hs hl).1 ⟨true, 1⟩ rfl).2
  rw [hwrap] at hcolor
  exact ⟨hs, hl, hwrap, hcolor⟩

end Hsl

end Marginalia
