import Marginalia.Text.Blank

/-! Letters and blanks of a text. Folding takes a letter to upper case as the pattern of a tag
compares it, so that the long s is a form of `S`, too. -/
namespace Marginalia.Text

/-- A letter in upper case, the long s being a form of `S`. -/
def foldLetter (c : Char) : Char := if c = Char.ofNat 0x17F then 'S' else c.toUpper

theorem toNat_toUpper (c : Char) :
    c.toUpper.toNat = if 97 ≤ c.toNat ∧ c.toNat ≤ 122 then c.toNat - 32 else c.toNat := by
  have hval : c.val.toNat = c.toNat := rfl
  unfold Char.toUpper
  simp only [UInt32.le_iff_toNat_le, hval]
  split
  · next h =>
    change (c.val + ('A'.val - 'a'.val)).toNat = _
    have hdiff : ('A'.val - 'a'.val).toNat = 4294967264 := rfl
    change 97 ≤ c.toNat ∧ c.toNat ≤ 122 at h
    rw [if_pos h, UInt32.toNat_add, hdiff, hval]
    omega
  · next h =>
    change ¬ (97 ≤ c.toNat ∧ c.toNat ≤ 122) at h
    rw [if_neg h]

theorem toNat_toLower (c : Char) :
    c.toLower.toNat = if 65 ≤ c.toNat ∧ c.toNat ≤ 90 then c.toNat + 32 else c.toNat := by
  have hval : c.val.toNat = c.toNat := rfl
  unfold Char.toLower
  simp only [ge_iff_le, UInt32.le_iff_toNat_le, hval]
  split
  · next h =>
    change (c.val + ('a'.val - 'A'.val)).toNat = _
    have hdiff : ('a'.val - 'A'.val).toNat = 32 := rfl
    change 65 ≤ c.toNat ∧ c.toNat ≤ 90 at h
    rw [if_pos h, UInt32.toNat_add, hdiff, hval]
    omega
  · next h =>
    change ¬ (65 ≤ c.toNat ∧ c.toNat ≤ 90) at h
    rw [if_neg h]

theorem isUpper_iff (c : Char) : c.isUpper = true ↔ 65 ≤ c.toNat ∧ c.toNat ≤ 90 := by
  have h : c.isUpper = decide (c.val ≥ 65 ∧ c.val ≤ 90) := rfl
  rw [h, decide_eq_true_iff, ge_iff_le, UInt32.le_iff_toNat_le, UInt32.le_iff_toNat_le]
  rfl

/-- The forms of an upper-case letter are itself, the lower-case letter and, for `S`, the long
s. -/
theorem foldLetter_eq_iff {u : Char} (hu : u.isUpper = true) (c : Char) :
    foldLetter c = u ↔ c = u ∨ c = u.toLower ∨ (u = 'S' ∧ c = Char.ofNat 0x17F) := by
  have hlong : (Char.ofNat 0x17F).toNat = 383 := rfl
  have hS : 'S'.toNat = 83 := rfl
  have hrange := (isUpper_iff u).mp hu
  unfold foldLetter
  simp only [← Char.toNat_inj, hlong, hS, toNat_toLower, if_pos hrange]
  split
  · rw [hS]
    omega
  · rw [toNat_toUpper]
    split <;> omega

/-- A blank folds to no letter. -/
theorem isUpper_foldLetter_of_isBlank {c : Char} (h : isBlank c = true) :
    (foldLetter c).isUpper = false := by
  have hlong : (Char.ofNat 0x17F).toNat = 383 := rfl
  rw [Bool.eq_false_iff, ne_eq, isUpper_iff]
  simp only [isBlank, Bool.or_eq_true, Bool.and_eq_true, decide_eq_true_eq, beq_iff_eq] at h
  unfold foldLetter
  split
  · next heq =>
    rw [← Char.toNat_inj, hlong] at heq
    omega
  · rw [toNat_toUpper]
    split <;> omega

variable {p : Char → Bool} {s t : List Char}

/-- A run ends where the first character stands that does not belong to it. -/
theorem takeWhile_append_of_head (hs : ∀ c ∈ s, p c = true) (ht : ∀ c ∈ t.head?, p c = false) :
    (s ++ t).takeWhile p = s := by
  rw [List.takeWhile_append_of_pos hs]
  cases t with
  | nil => simp
  | cons c t =>
    have hc := ht c rfl
    simp [hc]

theorem dropWhile_append_of_head (hs : ∀ c ∈ s, p c = true) (ht : ∀ c ∈ t.head?, p c = false) :
    (s ++ t).dropWhile p = t := by
  rw [List.dropWhile_append_of_pos hs]
  cases t with
  | nil => rfl
  | cons c t =>
    have hc := ht c rfl
    simp [hc]

theorem head?_dropWhile_eq_false {c : Char} (h : c ∈ (s.dropWhile p).head?) : p c = false := by
  have hd := List.head?_dropWhile_not p s
  rw [h] at hd
  simpa using hd

/-- A text is cut in one way only at the first place of a character. -/
theorem append_cons_cancel {c : Char} {a b s t : List Char} (ha : c ∉ a) (hs : c ∉ s)
    (h : a ++ c :: b = s ++ c :: t) : a = s ∧ b = t := by
  have hfront (x y : List Char) (hx : c ∉ x) : (x ++ c :: y).takeWhile (· != c) = x := by
    apply takeWhile_append_of_head
    · intro d hd
      exact bne_iff_ne.mpr fun heq => hx (heq ▸ hd)
    · intro d hd
      rw [List.head?_cons, Option.mem_some_iff] at hd
      simp [hd]
  have has : a = s := by rw [← hfront a b ha, h, hfront s t hs]
  rw [has, List.append_cancel_left_eq, List.cons.injEq] at h
  exact ⟨has, h.2⟩

end Marginalia.Text
