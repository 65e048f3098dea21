import Marginalia.Color.Chain
import Marginalia.Proofs.Color.Strict
import Mathlib.Data.List.TakeWhile
import Mathlib.Data.Nat.Digits.Defs

/-! The lenient reader of color texts. All that it takes from a text is the row of digits at its
front, six of them at most: their pairs are the channels, and their number tells how many channels
were read. -/
namespace Marginalia.Hex

variable {s : String} {t ds : List Char} {a b c : Char} {count i : Nat}

/-- The place of a digit among the sixteen digits in order. -/
def place (c : Char) : Nat := "0123456789ABCDEF".toList.idxOf c.toUpper

/-- The number that digits spell to the base sixteen. -/
def number (ds : List Char) : Nat := Nat.ofDigits 16 (ds.map place).reverse

/-- The row of digits that a text begins with. -/
def digitRun (t : List Char) : List Char := t.takeWhile alphabet.contains

/-- The digits behind an optional `#`, up to the first other character, and at most six. -/
def leadingDigits (s : String) : List Char := (digitRun (stripHash s.toList)).take 6

/-- Two digits, or what there is of them, after a number of pairs. -/
def pair (ds : List Char) (i : Nat) : List Char := (ds.drop (2 * i)).take 2

theorem contains_alphabet (c : Char) : alphabet.contains c = isDigit c := by
  rw [Bool.eq_iff_iff, List.contains_iff_mem, isDigit_iff_mem]

theorem digitRun_eq (t : List Char) : digitRun t = t.takeWhile isDigit := by
  rw [digitRun]
  congr
  funext c
  exact contains_alphabet c

theorem mem_alphabet_of_mem_digitRun (h : c ∈ digitRun t) : c ∈ alphabet :=
  List.contains_iff_mem.mp (List.mem_takeWhile_imp h)

theorem toNat_digitValue (h : c ∈ alphabet) : (digitValue c).toNat = place c :=
  of_all_alphabet (fun d => (digitValue d).toNat = place d) (by decide) h

theorem number_singleton (a : Char) : number [a] = place a := by
  simp [number]

theorem number_pair (a b : Char) : number [a, b] = 16 * place a + place b := by
  simp [number, Nat.ofDigits_cons]
  omega

/-- A channel is the number that its digits spell: the byte has room for two of them. -/
theorem toNat_spelled (hlength : ds.length ≤ 2) (hd : ∀ d ∈ ds, d ∈ alphabet) :
    (spelled ds).toNat = number ds := by
  match ds with
  | [] => rfl
  | [a] =>
    have ha := hd a (by simp)
    have hzero : spelled [a] = digitValue a := by
      rw [← UInt8.toNat_inj, spelled, List.foldl_cons, List.foldl_nil,
        toNat_shiftLeft_or (by decide) (digitValue_lt ha)]
      exact Nat.zero_add _
    rw [hzero, toNat_digitValue ha, number_singleton]
  | [a, b] =>
    have ha := hd a (by simp)
    have hb := hd b (by simp)
    rw [toNat_spelled_pair ha hb, toNat_digitValue ha, toNat_digitValue hb, number_pair]

/-- A round of the reader takes the first pair of the row, and leaves the row behind it. -/
theorem channels_succ (count : Nat) (t : List Char) :
    channels (count + 1) t =
      if (digitRun t).isEmpty then []
      else spelled (pair (digitRun t) 0) ::
        channels count (t.drop (pair (digitRun t) 0).length) := by
  have hpair : (t.take 2).takeWhile isDigit = pair (digitRun t) 0 := by
    rw [digitRun_eq, pair, Nat.mul_zero, List.drop_zero, List.take_takeWhile]
  have hempty : (pair (digitRun t) 0).isEmpty = (digitRun t).isEmpty := by
    rw [pair, Nat.mul_zero, List.drop_zero]
    cases digitRun t <;> rfl
  rw [channels, hpair, hempty]
  rfl

/-- Behind some digits of the row at the front stands what is left of the row. -/
theorem digitRun_drop {n : Nat} (hn : n ≤ (digitRun t).length) :
    digitRun (t.drop n) = (digitRun t).drop n := by
  induction n generalizing t with
  | zero => rfl
  | succ n ih =>
    cases t with
    | nil => rfl
    | cons c t =>
      by_cases hc : c ∈ alphabet
      · have hcons : digitRun (c :: t) = c :: digitRun t :=
          List.takeWhile_cons_of_pos (by simpa using hc)
        rw [hcons, List.length_cons, Nat.succ_le_succ_iff] at hn
        rw [hcons, List.drop_succ_cons, List.drop_succ_cons, ih hn]
      · have hnil : digitRun (c :: t) = [] := List.takeWhile_cons_of_neg (by simpa using hc)
        rw [hnil] at hn
        exact absurd hn (by simp)

theorem digitRun_drop_pair (t : List Char) :
    digitRun (t.drop (pair (digitRun t) 0).length) = (digitRun t).drop 2 := by
  have hlength : (pair (digitRun t) 0).length = min 2 (digitRun t).length := by
    rw [pair, Nat.mul_zero, List.drop_zero, List.length_take]
  rw [hlength, digitRun_drop (Nat.min_le_right _ _)]
  rcases Nat.le_total 2 (digitRun t).length with h | h
  · rw [Nat.min_eq_left h]
  · rw [Nat.min_eq_right h, List.drop_length, List.drop_eq_nil_of_le h]

theorem length_channels (count : Nat) (t : List Char) :
    (channels count t).length = min count (((digitRun t).length + 1) / 2) := by
  induction count generalizing t with
  | zero => simp [channels]
  | succ count ih =>
    rw [channels_succ]
    by_cases hrun : digitRun t = []
    · simp [hrun]
    · have hpos := List.length_pos_iff.mpr hrun
      rw [if_neg (by simpa using hrun), List.length_cons, ih, digitRun_drop_pair, List.length_drop]
      omega

/-- The channels are the pairs of the row, and zero where it has ended. -/
theorem getD_channels (t : List Char) (hi : i < count) :
    (channels count t).getD i 0 = spelled (pair (digitRun t) i) := by
  induction count generalizing t i with
  | zero => exact absurd hi (Nat.not_lt_zero i)
  | succ count ih =>
    rw [channels_succ]
    by_cases hrun : digitRun t = []
    · rw [hrun]
      simp [pair, spelled]
    · rw [if_neg (by simpa using hrun)]
      cases i with
      | zero => rfl
      | succ i =>
        have hnext : pair ((digitRun t).drop 2) i = pair (digitRun t) (i + 1) := by
          rw [pair, pair, List.drop_drop, Nat.mul_succ, Nat.add_comm]
        rw [List.getD_cons_succ, ih _ (Nat.lt_of_succ_lt_succ hi), digitRun_drop_pair, hnext]

/-- The first three pairs lie within the first six digits. -/
theorem pair_take (ds : List Char) (hi : i < 3) : pair (ds.take 6) i = pair ds i := by
  rw [pair, pair, List.drop_take, List.take_take, Nat.min_eq_left (by omega)]

theorem toNat_getD_channels (s : String) (hi : i < 3) :
    ((channels 3 (stripHash s.toList)).getD i 0).toNat = number (pair (leadingDigits s) i) := by
  rw [getD_channels _ hi, leadingDigits, pair_take _ hi]
  apply toNat_spelled
  · rw [pair]
    exact List.length_take_le _ _
  · intro d hd
    exact mem_alphabet_of_mem_digitRun (List.mem_of_mem_drop (List.mem_of_mem_take hd))

/-- What the lenient reader makes of a text: each channel is the number that its pair of the digits
at the front spells, also when the last of them stands alone; there is one early stop, after as many
channels as have a digit, if there are four digits or fewer, and none otherwise. Nothing behind
these digits has an effect. -/
theorem read_eq_leadingDigits (s : String) :
    (read s).color.red.toNat = number (pair (leadingDigits s) 0) ∧
    (read s).color.green.toNat = number (pair (leadingDigits s) 1) ∧
    (read s).color.blue.toNat = number (pair (leadingDigits s) 2) ∧
    (read s).color.alpha = 255 ∧
    earlyStop? s =
      (if (leadingDigits s).length ≤ 4 then some ⟨s, ((leadingDigits s).length + 1) / 2⟩
        else none) ∧
    ∀ other, leadingDigits other = leadingDigits s → read other = read s := by
  have hlength (s : String) : (channels 3 (stripHash s.toList)).length =
      ((leadingDigits s).length + 1) / 2 := by
    rw [length_channels, leadingDigits, List.length_take]
    omega
  refine ⟨toNat_getD_channels s (by decide), toNat_getD_channels s (by decide),
    toNat_getD_channels s (by decide), rfl, ?_, ?_⟩
  · have hmax : (leadingDigits s).length ≤ 6 := List.length_take_le _ _
    simp only [earlyStop?, read, hlength]
    by_cases hfew : (leadingDigits s).length ≤ 4
    · rw [if_pos hfew, if_pos (by omega)]
    · rw [if_neg hfew, if_neg (by omega)]
  · intro other hother
    have hchannel : ∀ i < 3, (channels 3 (stripHash other.toList)).getD i 0 =
        (channels 3 (stripHash s.toList)).getD i 0 := by
      intro i hi
      rw [← UInt8.toNat_inj, toNat_getD_channels other hi, toNat_getD_channels s hi, hother]
    simp only [read, hlength, hother, hchannel 0 (by decide), hchannel 1 (by decide),
      hchannel 2 (by decide)]

/-- A lone digit is a channel of its own, and the digits behind the `z` do not count. -/
theorem read_eq_leadingDigits_loneDigit :
    leadingDigits "#1z2233" = leadingDigits "1" ∧ read "#1z2233" = read "1" := by
  have hdigits : leadingDigits "#1z2233" = leadingDigits "1" := by decide
  exact ⟨hdigits, (read_eq_leadingDigits "1").2.2.2.2.2 "#1z2233" hdigits⟩

end Marginalia.Hex
