import Marginalia.Proofs.Calendar.Days
import Marginalia.Proofs.Text.Letter

/-! Dates and times of day as texts. A date is known by its text and a time of day by its, so two
moments at which a clock shows the same date and the same time are the same second on that clock,
unless one of them lies within a leap second. -/
namespace Marginalia

section Padded

variable {width width' m n : Nat} {c : Char} {s t : List Char}

theorem toList_padded (width n : Nat) : (padded width n).toList =
    List.replicate (width - (Nat.toDigits 10 n).length) '0' ++ Nat.toDigits 10 n := by
  rw [padded, String.toList_ofList]

theorem ofDigitChars_padded (width n : Nat) :
    Nat.ofDigitChars 10 (padded width n).toList 0 = n := by
  rw [toList_padded, Nat.ofDigitChars_append, Nat.ofDigitChars_replicate_zero, Nat.mul_zero,
    Nat.ofDigitChars_ten_toDigits]

/-- A number is known by its digits, however many zeros stand before them. -/
theorem padded_inj (h : (padded width m).toList = (padded width' n).toList) : m = n := by
  rw [← ofDigitChars_padded width m, h, ofDigitChars_padded]

theorem isDigit_of_mem_padded (h : c ∈ (padded width n).toList) : c.isDigit = true := by
  rw [toList_padded, List.mem_append] at h
  rcases h with h | h
  · rw [List.eq_of_mem_replicate h]
    rfl
  · exact Nat.isDigit_of_mem_toDigits (by decide) (by decide) h

theorem notMem_padded (hc : c.isDigit = false) : c ∉ (padded width n).toList := by
  intro h
  rw [isDigit_of_mem_padded h] at hc
  exact absurd hc (by decide)

/-- A number before a separator is known, and so is what follows. -/
theorem padded_append_cons_inj (hc : c.isDigit = false)
    (h : (padded width m).toList ++ c :: s = (padded width' n).toList ++ c :: t) :
    m = n ∧ s = t := by
  obtain ⟨hdigits, hrest⟩ := Text.append_cons_cancel (notMem_padded hc) (notMem_padded hc) h
  exact ⟨padded_inj hdigits, hrest⟩

/-- Every number has a digit. -/
theorem exists_padded_eq_cons (width n : Nat) :
    ∃ d ds, (padded width n).toList = d :: ds ∧ d.isDigit = true := by
  obtain ⟨d, ds, hcons⟩ : ∃ d ds, (padded width n).toList = d :: ds := by
    apply List.exists_cons_of_ne_nil
    rw [toList_padded]
    exact List.append_ne_nil_of_right_ne_nil _ Nat.toDigits_ne_nil
  have hmem : d ∈ (padded width n).toList := by
    rw [hcons]
    exact List.mem_cons_self
  exact ⟨d, ds, hcons, isDigit_of_mem_padded hmem⟩

end Padded

namespace TimeOfDay

theorem toList_text (t : TimeOfDay) : t.text.toList = (padded 2 t.hour).toList ++
    ':' :: ((padded 2 t.minute).toList ++ ':' :: (padded 2 t.second).toList) := by
  simp [text]

/-- What stands in a time of day; it begins with a digit. -/
theorem mem_text {t : TimeOfDay} {c : Char} (h : c ∈ t.text.toList) :
    c.isDigit = true ∨ c = ':' := by
  rw [toList_text, List.mem_append, List.mem_cons, List.mem_append, List.mem_cons] at h
  rcases h with h | h | h | h | h
  · exact .inl (isDigit_of_mem_padded h)
  · exact .inr h
  · exact .inl (isDigit_of_mem_padded h)
  · exact .inr h
  · exact .inl (isDigit_of_mem_padded h)

theorem exists_text_eq_cons (t : TimeOfDay) :
    ∃ d ds, t.text.toList = d :: ds ∧ d.isDigit = true := by
  obtain ⟨d, ds, hcons, hd⟩ := exists_padded_eq_cons 2 t.hour
  exact ⟨d, _, by rw [toList_text, hcons, List.cons_append], hd⟩

theorem text_inj {t u : TimeOfDay} (h : t.text = u.text) : t = u := by
  rw [← String.toList_inj, toList_text, toList_text] at h
  obtain ⟨hhour, h⟩ := padded_append_cons_inj (by decide) h
  obtain ⟨hminute, h⟩ := padded_append_cons_inj (by decide) h
  have hsecond := padded_inj h
  cases t
  cases u
  simp_all

end TimeOfDay

namespace Date

theorem toList_yearText (year : Int) : (yearText year).toList =
    if 0 ≤ year ∧ year ≤ 9999 then (padded 4 year.toNat).toList
    else (if year < 0 then '-' else '+') :: (padded 4 year.natAbs).toList := by
  rw [yearText]
  split
  · rfl
  · split <;> simp

theorem yearText_inj {y z : Int} (h : yearText y = yearText z) : y = z := by
  -- A sign at the front is no digit, so it is there in both texts or in neither.
  have hsign (n : Nat) (x : Int) (s : List Char) :
      (padded 4 n).toList ≠ (if x < 0 then '-' else '+') :: s := by
    obtain ⟨d, ds, hcons, hd⟩ := exists_padded_eq_cons 4 n
    rw [hcons]
    intro heq
    rw [(List.cons.inj heq).1] at hd
    split at hd <;> exact absurd hd (by decide)
  rw [← String.toList_inj, toList_yearText, toList_yearText] at h
  by_cases hy : 0 ≤ y ∧ y ≤ 9999 <;> by_cases hz : 0 ≤ z ∧ z ≤ 9999
  · rw [if_pos hy, if_pos hz] at h
    have hnumber := padded_inj h
    omega
  · rw [if_pos hy, if_neg hz] at h
    exact absurd h (hsign _ _ _)
  · rw [if_neg hy, if_pos hz] at h
    exact absurd h.symm (hsign _ _ _)
  · rw [if_neg hy, if_neg hz, List.cons.injEq] at h
    obtain ⟨hsame, hdigits⟩ := h
    have hnumber := padded_inj hdigits
    have hsides : y < 0 ↔ z < 0 := by
      by_cases hy' : y < 0 <;> by_cases hz' : z < 0
      · exact iff_of_true hy' hz'
      · rw [if_pos hy', if_neg hz'] at hsame
        exact absurd hsame (by decide)
      · rw [if_neg hy', if_pos hz'] at hsame
        exact absurd hsame (by decide)
      · exact iff_of_false hy' hz'
    omega

theorem toList_text (d : Date) : d.text.toList = (padded 2 d.day).toList ++
    '/' :: ((padded 2 d.month).toList ++ '/' :: (yearText d.year).toList) := by
  simp [text]

/-- What stands in a date; it begins with a digit. -/
theorem mem_text {d : Date} {c : Char} (h : c ∈ d.text.toList) :
    c.isDigit = true ∨ c = '/' ∨ c = '-' ∨ c = '+' := by
  rw [toList_text, toList_yearText, List.mem_append, List.mem_cons, List.mem_append,
    List.mem_cons] at h
  rcases h with h | h | h | h | h
  · exact .inl (isDigit_of_mem_padded h)
  · exact .inr (.inl h)
  · exact .inl (isDigit_of_mem_padded h)
  · exact .inr (.inl h)
  · split at h
    · exact .inl (isDigit_of_mem_padded h)
    · rcases List.mem_cons.mp h with rfl | h
      · split <;> simp
      · exact .inl (isDigit_of_mem_padded h)

theorem exists_text_eq_cons (d : Date) :
    ∃ c cs, d.text.toList = c :: cs ∧ c.isDigit = true := by
  obtain ⟨c, cs, hcons, hc⟩ := exists_padded_eq_cons 2 d.day
  exact ⟨c, _, by rw [toList_text, hcons, List.cons_append], hc⟩

theorem text_inj {d e : Date} (h : d.text = e.text) : d = e := by
  rw [← String.toList_inj, toList_text, toList_text] at h
  obtain ⟨hday, h⟩ := padded_append_cons_inj (by decide) h
  obtain ⟨hmonth, h⟩ := padded_append_cons_inj (by decide) h
  have hyear := yearText_inj (String.toList_inj.mp h)
  cases d
  cases e
  simp_all

end Date

namespace Moment

variable {m n : Moment}

theorem clockSeconds_inj (hm : m.nanoseconds < 1000000000) (hn : n.nanoseconds < 1000000000)
    (hdate : m.date.text = n.date.text) (htime : m.time.text = n.time.text) :
    m.clockSeconds = n.clockSeconds := by
  have hdays : m.clockSeconds / 86400 = n.clockSeconds / 86400 := by
    rw [← Date.toDays_ofDays (m.clockSeconds / 86400),
      ← Date.toDays_ofDays (n.clockSeconds / 86400)]
    exact congrArg Date.toDays (Date.text_inj hdate)
  have htime := TimeOfDay.text_inj htime
  rw [time, time, if_neg (by omega), if_neg (by omega)] at htime
  simp only [TimeOfDay.mk.injEq] at htime
  omega

end Moment

end Marginalia
