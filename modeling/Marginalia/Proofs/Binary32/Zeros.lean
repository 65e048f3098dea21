import Marginalia.Proofs.Binary32.Arithmetic

/-! The two zeros. They have one place on the line, so numbers of the same place are equal unless
they are zeros of different signs. Sums, products and remainders of such numbers have the same place
again, and so has a quotient by one number. -/
namespace Marginalia

namespace Binary32

variable {x x' y y' z : Binary32} {v : ℚ}

/-- What does not tell the zeros apart gives the same for all numbers of one place. -/
theorem congr_of_zeros {α : Type} (f : Binary32 → α) (hf : f (zero true) = f (zero false))
    (h : x.rank = y.rank) : f x = f y := by
  obtain ⟨s, m, hm⟩ := x
  obtain ⟨t, n, hn⟩ := y
  -- Numbers of different signs have one place only at zero.
  rcases s with _ | _ <;> rcases t with _ | _
  · have hmn : m = n := Int.ofNat_inj.mp h
    subst hmn
    rfl
  · change (m : ℤ) = -n at h
    obtain ⟨rfl, rfl⟩ : m = 0 ∧ n = 0 := by omega
    exact hf.symm
  · change -(m : ℤ) = n at h
    obtain ⟨rfl, rfl⟩ : m = 0 ∧ n = 0 := by omega
    exact hf
  · change -(m : ℤ) = -n at h
    have hmn : m = n := by omega
    subst hmn
    rfl

theorem rank_zero (negative : Bool) : (zero negative).rank = 0 := by
  cases negative <;> rfl

theorem value_zero (negative : Bool) : (zero negative).value = 0 := by
  rw [← isZero_iff]
  rfl

theorem rank_eq_of_value (h : x.value = y.value) : x.rank = y.rank := by
  rwa [← atRank_rank, ← atRank_rank, atRank_inj] at h

theorem rank_ofRat (s t : Bool) (v : ℚ) : (ofRat s v).rank = (ofRat t v).rank := by
  by_cases hv : v = 0
  · rw [ofRat, ofRat, if_pos hv, if_pos hv, rank_zero, rank_zero]
  · rw [ofRat, ofRat, if_neg hv, if_neg hv]

section Operations

theorem rank_neg (x : Binary32) : (-x).rank = -x.rank := by
  obtain ⟨_ | _, m⟩ := x
  · rfl
  · exact (neg_neg (m.val : ℤ)).symm

theorem abs_congr (h : x.rank = y.rank) : x.abs = y.abs := congr_of_zeros abs rfl h

theorem eq_of_isInfinite (hx : x.isInfinite = true) (hy : y.isInfinite = true)
    (hsign : x.negative = y.negative) : x = y := by
  obtain ⟨s, m⟩ := x
  obtain ⟨t, n⟩ := y
  rw [isInfinite, decide_eq_true_iff] at hx hy
  exact congrArg₂ _ hsign (Fin.ext (hx.trans hy.symm))

protected theorem add_comm (x y : Binary32) : x + y = y + x := by
  change add x y = add y x
  simp only [add, Bool.or_comm y.isNaN, Bool.and_comm y.negative, bne_comm (a := y.negative),
    add_comm y.value]
  by_cases hx : x.isInfinite = true <;> by_cases hy : y.isInfinite = true <;>
    simp only [hx, hy, if_true, if_false, Bool.true_and, Bool.false_and, Bool.false_eq_true]
  split_ifs with hnan hsign
  · rfl
  · rfl
  · exact eq_of_isInfinite hx hy (by simpa using hsign)

protected theorem mul_comm (x y : Binary32) : x * y = y * x := by
  change mul x y = mul y x
  simp only [mul, Bool.or_comm y.isNaN, Bool.or_comm y.isInfinite, Bool.or_comm y.isZero,
    bne_comm (a := y.negative), mul_comm y.value]

theorem rank_zero_add (s t : Bool) (z : Binary32) : (zero s + z).rank = (zero t + z).rank := by
  have hadd (s : Bool) : zero s + z =
      if z.isNaN then nan else if z.isInfinite then z else ofRat (s && z.negative) z.value := by
    change add (zero s) z = _
    simp only [add, value_zero, zero_add]
    rfl
  rw [hadd, hadd]
  split_ifs
  · rfl
  · rfl
  · exact rank_ofRat _ _ _

theorem rank_add_congr (hx : x.rank = x'.rank) (hy : y.rank = y'.rank) :
    (x + y).rank = (x' + y').rank :=
  calc (x + y).rank
      = (x' + y).rank := congr_of_zeros (fun x => (x + y).rank) (rank_zero_add _ _ y) hx
    _ = (y + x').rank := by rw [Binary32.add_comm]
    _ = (y' + x').rank := congr_of_zeros (fun y => (y + x').rank) (rank_zero_add _ _ x') hy
    _ = (x' + y').rank := by rw [Binary32.add_comm]

theorem rank_sub_congr (hx : x.rank = x'.rank) (hy : y.rank = y'.rank) :
    (x - y).rank = (x' - y').rank := by
  have hneg : (-y).rank = (-y').rank := by rw [rank_neg, rank_neg, hy]
  exact rank_add_congr hx hneg

theorem rank_zero_mul (s t : Bool) (z : Binary32) : (zero s * z).rank = (zero t * z).rank := by
  have hmul (s : Bool) : zero s * z =
      if z.isNaN then nan else if z.isInfinite then nan else ofRat (s != z.negative) 0 := by
    change mul (zero s) z = _
    simp only [mul, value_zero, zero_mul]
    rfl
  rw [hmul, hmul]
  split_ifs
  · rfl
  · rfl
  · exact rank_ofRat _ _ _

theorem rank_mul_congr (hx : x.rank = x'.rank) (hy : y.rank = y'.rank) :
    (x * y).rank = (x' * y').rank :=
  calc (x * y).rank
      = (x' * y).rank := congr_of_zeros (fun x => (x * y).rank) (rank_zero_mul _ _ y) hx
    _ = (y * x').rank := by rw [Binary32.mul_comm]
    _ = (y' * x').rank := congr_of_zeros (fun y => (y * x').rank) (rank_zero_mul _ _ x') hy
    _ = (x' * y').rank := by rw [Binary32.mul_comm]

theorem rank_div_congr (y : Binary32) (hx : x.rank = x'.rank) :
    (x / y).rank = (x' / y).rank := by
  apply congr_of_zeros (fun x => (x / y).rank) _ hx
  have hdiv (s : Bool) : zero s / y =
      if y.isNaN then nan else if y.isInfinite then zero (s != y.negative)
      else if y.isZero then nan else ofRat (s != y.negative) 0 := by
    change div (zero s) y = _
    simp only [div, value_zero, zero_div]
    rfl
  rw [hdiv, hdiv]
  split_ifs
  · rfl
  · rw [rank_zero, rank_zero]
  · rfl
  · exact rank_ofRat _ _ _

theorem rank_rem_congr (y : Binary32) (hx : x.rank = x'.rank) :
    (x % y).rank = (x' % y).rank := by
  apply congr_of_zeros (fun x => (x % y).rank) _ hx
  have hrem (s : Bool) : zero s % y =
      if y.isNaN || y.isZero then nan else if y.isInfinite then zero s
      else ofRat s (0 - y.value * integerPart (0 / y.value)) := by
    have hinfinite : (zero s).isInfinite = false := rfl
    change rem (zero s) y = _
    simp only [rem, value_zero, hinfinite, Bool.or_false]
    rfl
  rw [hrem, hrem]
  split_ifs
  · rfl
  · rw [rank_zero, rank_zero]
  · exact rank_ofRat _ _ _

theorem clamp_congr (convert : ℚ → ℤ) (least greatest : ℤ) (h : x.rank = y.rank) :
    x.clamp convert least greatest = y.clamp convert least greatest :=
  congr_of_zeros (clamp convert least greatest) (by
    simp only [clamp, value_zero]
    rfl) h

/-- A finite number times zero is zero. -/
theorem rank_mul_eq_zero (hx : x.isFinite = true) (hy : y.rank = 0) : (x * y).rank = 0 := by
  have hvalue : x.value * (zero false).value = 0 := by rw [value_zero, mul_zero]
  have hrounds : (x * zero false).Rounds (x.value * (zero false).value) := by
    apply rounds_mul hx rfl
    rw [hvalue, abs_zero]
    exact zpow_pos two_pos _
  rw [hvalue] at hrounds
  calc (x * y).rank
      = (x * zero false).rank := rank_mul_congr rfl (hy.trans (rank_zero false).symm)
    _ = (zero false).rank := rank_eq_of_value (by rw [hrounds.value, nearest_zero, value_zero])
    _ = 0 := rank_zero false

/-- A zero adds nothing to a number. -/
theorem rank_add_eq (hx : x.rank = 0) (hy : y.isFinite = true)
    (hlt : |y.value| < (2 : ℚ) ^ (127 : ℤ)) : (x + y).rank = y.rank := by
  have hvalue : (zero false).value + y.value = y.value := by rw [value_zero, zero_add]
  have hrounds : (zero false + y).Rounds ((zero false).value + y.value) :=
    rounds_add rfl hy (by rwa [hvalue])
  rw [hvalue] at hrounds
  calc (x + y).rank
      = (zero false + y).rank := rank_add_congr (hx.trans (rank_zero false).symm) rfl
    _ = y.rank := rank_eq_of_value (hrounds.value.trans (nearest_value y))

end Operations

end Binary32

end Marginalia
