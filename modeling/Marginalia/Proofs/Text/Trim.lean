import Marginalia.Proofs.Text.Letter
import Mathlib.Data.List.Basic

/-! Trimming. A text is trimmed when it neither begins nor ends with a blank; trimming takes the
blanks away on both sides and nothing else. -/
namespace Marginalia.Text

variable {blanks s : List Char} {c : Char}

/-- A text that neither begins nor ends with a blank. -/
def Trimmed (s : List Char) : Prop :=
  (∀ c ∈ s.head?, isBlank c = false) ∧ ∀ c ∈ s.getLast?, isBlank c = false

theorem trimEnd_append_blanks (h : ∀ c ∈ blanks, isBlank c = true) (s : List Char) :
    trimEnd (s ++ blanks) = trimEnd s := by
  rw [trimEnd, List.reverse_append, List.dropWhile_append_of_pos, trimEnd]
  intro c hc
  exact h c (List.mem_reverse.mp hc)

theorem trim_append_blanks (h : ∀ c ∈ blanks, isBlank c = true) (s : List Char) :
    trim (s ++ blanks) = trim s := by
  rw [trim, trim, trimStart, List.dropWhile_append, trimStart]
  split
  · next hempty =>
    rw [List.isEmpty_iff.mp hempty, ← List.append_nil blanks, List.dropWhile_append_of_pos h]
    rfl
  · exact trimEnd_append_blanks h _

/-- What is trimmed begins with the first character that is not blank. -/
theorem head?_trim (h : isBlank c = false) (s : List Char) : (trim (c :: s)).head? = some c := by
  have hstart : trimStart (c :: s) = c :: s := by
    rw [trimStart, List.dropWhile_cons_of_neg]
    simp [h]
  have hlast : (s.reverse ++ [c]).dropWhile isBlank =
      (s.reverse.dropWhile isBlank) ++ [c] := by
    rw [List.dropWhile_append]
    split
    · next hempty =>
      rw [List.isEmpty_iff.mp hempty, List.dropWhile_cons_of_neg (by simp [h])]
      rfl
    · rfl
  rw [trim, hstart, trimEnd, List.reverse_cons, hlast, List.reverse_append]
  rfl

theorem Trimmed.trim_eq (h : Trimmed s) : trim s = s := by
  have hstart : trimStart s = s := dropWhile_append_of_head (s := []) (by simp) h.1
  have hhead : ∀ c ∈ s.reverse.head?, isBlank c = false := by
    rw [List.head?_reverse]
    exact h.2
  have hlast : s.reverse.dropWhile isBlank = s.reverse :=
    dropWhile_append_of_head (s := []) (by simp) hhead
  rw [trim, hstart, trimEnd, hlast, List.reverse_reverse]

theorem trimmed_trim (s : List Char) : Trimmed (trim s) := by
  constructor
  · intro c hc
    cases hstart : trimStart s with
    | nil =>
      rw [trim, hstart] at hc
      exact absurd hc (by simp [trimEnd])
    | cons d rest =>
      -- Trimming the end leaves the first character that is not blank where it stands.
      have hd : isBlank d = false := head?_dropWhile_eq_false (s := s) (by
        rw [trimStart] at hstart
        rw [hstart]
        rfl)
      have htrim : trim s = trim (d :: rest) := by
        rw [trim, trim, hstart, trimStart, List.dropWhile_cons_of_neg (by simp [hd])]
      rw [htrim, head?_trim hd] at hc
      exact Option.some.inj hc ▸ hd
  · intro c hc
    rw [trim, trimEnd, List.getLast?_reverse] at hc
    exact head?_dropWhile_eq_false hc

theorem trimmed_iff : Trimmed s ↔ trim s = s :=
  ⟨Trimmed.trim_eq, fun h => h ▸ trimmed_trim s⟩

instance : DecidablePred Trimmed := fun _ => decidable_of_iff _ trimmed_iff.symm

theorem mem_of_mem_trim (h : c ∈ trim s) : c ∈ s := by
  rw [trim, trimEnd, List.mem_reverse] at h
  have hstart := List.mem_reverse.mp ((List.dropWhile_sublist _).subset h)
  exact (List.dropWhile_sublist _).subset hstart

end Marginalia.Text
