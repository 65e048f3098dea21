import Marginalia.Color.Hex
import Mathlib.Data.Nat.Basic

/-! Digits of a color text. A digit has a value below sixteen, the value is written with the digit
in upper case, and two digits are read as a channel exactly as a channel is written with two. -/
namespace Marginalia.Hex

variable {a b c : Char} {v w : UInt8} {n : Nat}

/-- The characters that a digit can be. -/
def alphabet : List Char := "0123456789abcdefABCDEF".toList

/-- What holds of all the characters that a digit can be is looked up. -/
theorem of_all_alphabet (P : Char → Prop) [DecidablePred P]
    (hall : alphabet.all (fun d => decide (P d)) = true) (h : c ∈ alphabet) : P c :=
  of_decide_eq_true (List.all_eq_true.mp hall c h)

theorem isDigit_iff_mem : isDigit c = true ↔ c ∈ alphabet := by
  constructor
  · intro h
    have hlt : c.toNat < 103 := by
      simp only [isDigit, Bool.or_eq_true, Bool.and_eq_true, decide_eq_true_iff] at h
      omega
    -- A digit is an ASCII character, so there are few to look at.
    have hall : ∀ n < 103, isDigit (Char.ofNat n) = true → Char.ofNat n ∈ alphabet := by decide
    have hc := hall c.toNat hlt
    rw [Char.ofNat_toNat] at hc
    exact hc h
  · intro h
    exact of_all_alphabet (fun d => isDigit d = true) (by decide) h

theorem utf8Size_of_mem_alphabet (h : c ∈ alphabet) : c.utf8Size = 1 :=
  of_all_alphabet (fun d => d.utf8Size = 1) (by decide) h

theorem ne_hash_of_mem_alphabet (h : c ∈ alphabet) : c ≠ '#' := by
  rintro rfl
  exact absurd h (by decide)

theorem digitValue_lt (h : c ∈ alphabet) : (digitValue c).toNat < 16 :=
  of_all_alphabet (fun d => (digitValue d).toNat < 16) (by decide) h

/-- The digit of a digit's value is the digit in upper case. -/
theorem digit_digitValue (h : c ∈ alphabet) : digit (digitValue c).toNat = c.toUpper :=
  of_all_alphabet (fun d => digit (digitValue d).toNat = d.toUpper) (by decide) h

theorem digit_mem_alphabet (h : n < 16) : digit n ∈ alphabet := by
  have hall : ∀ m < 16, digit m ∈ alphabet := by decide
  exact hall n h

theorem toNat_digitValue_digit (h : n < 16) : (digitValue (digit n)).toNat = n := by
  have hall : ∀ m < 16, (digitValue (digit m)).toNat = m := by decide
  exact hall n h

/-- Shifting in four more bits loses none of the four that are there. -/
theorem toNat_shiftLeft_or (hv : v.toNat < 16) (hw : w.toNat < 16) :
    ((v <<< 4) ||| w).toNat = 16 * v.toNat + w.toNat := by
  have hshift : (v <<< 4).toNat = v.toNat <<< 4 := by
    rw [UInt8.toNat_shiftLeft]
    apply Nat.mod_eq_of_lt
    change v.toNat <<< 4 < 2 ^ 8
    rw [Nat.shiftLeft_eq]
    omega
  calc ((v <<< 4) ||| w).toNat
      = v.toNat <<< 4 ||| w.toNat := by rw [UInt8.toNat_or, hshift]
    _ = v.toNat <<< 4 + w.toNat := (Nat.shiftLeft_add_eq_or_of_lt hw v.toNat).symm
    _ = 16 * v.toNat + w.toNat := by rw [Nat.shiftLeft_eq]; omega

/-- The channel that digits spell. -/
def spelled (ds : List Char) : UInt8 := ds.foldl (fun v d => (v <<< 4) ||| digitValue d) 0

theorem toNat_spelled_pair (ha : a ∈ alphabet) (hb : b ∈ alphabet) :
    (spelled [a, b]).toNat = 16 * (digitValue a).toNat + (digitValue b).toNat := by
  have hzero : ((0 : UInt8) <<< 4) ||| digitValue a = digitValue a := by
    rw [← UInt8.toNat_inj, toNat_shiftLeft_or (by decide) (digitValue_lt ha)]
    exact Nat.zero_add _
  rw [spelled, List.foldl_cons, List.foldl_cons, List.foldl_nil, hzero]
  exact toNat_shiftLeft_or (digitValue_lt ha) (digitValue_lt hb)

/-- A channel of two digits is written with them, in upper case. -/
theorem channelText_spelled (ha : a ∈ alphabet) (hb : b ∈ alphabet) :
    channelText (spelled [a, b]) = [a.toUpper, b.toUpper] := by
  have hpair := toNat_spelled_pair ha hb
  have hb' := digitValue_lt hb
  have hhigh : (spelled [a, b]).toNat / 16 = (digitValue a).toNat := by omega
  have hlow : (spelled [a, b]).toNat % 16 = (digitValue b).toNat := by omega
  rw [channelText, hhigh, hlow, digit_digitValue ha, digit_digitValue hb]

/-- What is written for a channel spells it. -/
theorem spelled_channelText (v : UInt8) : spelled (channelText v) = v := by
  have hv := v.toNat_lt
  have hhigh : v.toNat / 16 < 16 := by omega
  have hlow : v.toNat % 16 < 16 := by omega
  rw [← UInt8.toNat_inj, channelText,
    toNat_spelled_pair (digit_mem_alphabet hhigh) (digit_mem_alphabet hlow),
    toNat_digitValue_digit hhigh, toNat_digitValue_digit hlow]
  omega

theorem mem_alphabet_of_mem_channelText (h : c ∈ channelText v) : c ∈ alphabet := by
  have hv := v.toNat_lt
  rw [channelText, List.mem_cons, List.mem_singleton] at h
  rcases h with rfl | rfl
  · apply digit_mem_alphabet
    omega
  · apply digit_mem_alphabet
    omega

end Marginalia.Hex
