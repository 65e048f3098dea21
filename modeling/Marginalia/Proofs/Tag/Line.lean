import Marginalia.Proofs.Tag.LineEnd
import Marginalia.Proofs.Tag.Reread

/-! The findings of a single line. Main statement: their parts are trimmed and stay within the line,
and a message runs to the end of it, so that only the last finding can have one. -/
namespace Marginalia

variable {s rest : List Char} {path : Path} {f : Finding}

namespace Tag

variable {t : Tag}

/-- In a line a message takes all that is left. -/
theorem Ending.eq_nil_of_line {message : List Char} (h : Ending s message rest) (hs : '\n' ∉ s) :
    message = [] ∨ rest = [] := by
  cases h with
  | @message gap skipped message rest _ _ _ _ hend =>
    cases rest with
    | nil => exact .inr rfl
    | cons c rest =>
      -- What a message stops at is a line feed.
      apply absurd _ hs
      rw [← hend c (by simp)]
      simp
  | bare => exact .inl rfl

theorem Heads.eq_nil_of_line (h : t.Heads s rest) (hs : '\n' ∉ s) : t.message = [] ∨ rest = [] := by
  obtain @⟨gap, after, _, _, _, _, hending⟩ := h
  apply hending.eq_nil_of_line
  intro hmem
  apply hs
  simp [hmem]

theorem Heads.lineFeed_notMem_label (h : t.Heads s rest) (hs : '\n' ∉ s) : '\n' ∉ t.label := by
  obtain ⟨_, _, _, _⟩ := h
  intro hmem
  apply hs
  simp [hmem]

end Tag

namespace Finding

theorem lineFeed_notMem_label (h : f ∈ ofText path s) (hs : '\n' ∉ s) : '\n' ∉ f.label.toList := by
  obtain ⟨t, start, rest, ht, hfound⟩ := exists_heads_of_mem_ofText h
  have hline : '\n' ∉ t.label :=
    ht.lineFeed_notMem_label fun hmem => hs (List.mem_of_mem_drop hmem)
  rw [Tag.finding?] at hfound
  split at hfound
  · exact absurd hfound (by simp)
  · rw [← Option.some.inj hfound, String.toList_ofList]
    exact fun hmem => hline (Text.mem_of_mem_trim hmem)

theorem message_of_finding? {t : Tag} (h : t.finding? path = some f) (ht : t.message = []) :
    f.message = "" := by
  rw [Tag.finding?] at h
  split at h
  · exact absurd h (by simp)
  · rw [← Option.some.inj h, ht]
    rfl

/-- Of the findings of a line only the last one can have a message. -/
theorem message_of_mem_dropLast (hs : '\n' ∉ s) (h : f ∈ (ofText path s).dropLast) :
    f.message = "" := by
  induction s using marks.induct with
  | case1 s m rest hread ih =>
    obtain ⟨t, ht, -⟩ := Mark.read?_eq_some_iff.mp hread
    rw [ofText_of_heads ht] at h
    rcases ht.eq_nil_of_line hs with hmessage | hrest
    · -- The tag has no message, so there may be findings behind it, and they are those of a line.
      have hfront : f ∈ (t.finding? path).toList → f.message = "" := by
        intro hmem
        exact message_of_finding? (Option.mem_toList.mp hmem) hmessage
      rw [List.dropLast_append] at h
      split at h
      · exact hfront (List.dropLast_subset _ h)
      · rcases List.mem_append.mp h with hmem | hmem
        · exact hfront hmem
        · exact ih (fun hline => hs (ht.suffix.1.subset hline)) hmem
    · rw [hrest, ofText_nil, List.append_nil] at h
      cases hfound : t.finding? path <;> simp [hfound] at h
  | case2 => exact absurd h (by simp)
  | case3 c rest hread ih =>
    rw [ofText_cons hread] at h
    exact ih (fun hline => hs (List.mem_cons_of_mem c hline)) h

/-- The item of a finding whose path and parts are single lines is one, too. -/
theorem lineFeed_notMem_item (hpath : '\n' ∉ f.path.text.toList) (hlabel : '\n' ∉ f.label.toList)
    (hmessage : '\n' ∉ f.message.toList) : '\n' ∉ f.item.toList := by
  have hopen : ∀ text ∈ ["- [ ] ", "", "(", ") - ", ": "], '\n' ∉ text.toList := by decide
  simp only [List.forall_mem_cons] at hopen
  obtain ⟨hitem, hempty, hleft, hright, hcolon, -⟩ := hopen
  simp only [item, String.toList_append, List.mem_append, not_or]
  refine ⟨⟨⟨hitem, ?_⟩, hlabel⟩, ?_⟩
  · split
    · exact hempty
    · simp only [String.toList_append, List.mem_append, not_or]
      exact ⟨⟨hleft, hpath⟩, hright⟩
  · split
    · exact hempty
    · rw [String.toList_append, List.mem_append, not_or]
      exact ⟨hcolon, hmessage⟩

end Finding

/-- The findings of a single line. Label and message are trimmed parts of the line, the label
without a closing parenthesis, and only the last finding can have a message. So each item is a
single line when the path of the file is one. -/
theorem ofText_of_line (path : Path) (s : List Char) (hs : '\n' ∉ s) :
    (∀ f ∈ Finding.ofText path s, f.path = path ∧
      (')' ∉ f.label.toList ∧ '\n' ∉ f.label.toList ∧ Text.Trimmed f.label.toList) ∧
      '\n' ∉ f.message.toList ∧ Text.Trimmed f.message.toList) ∧
    (∀ f ∈ (Finding.ofText path s).dropLast, f.message = "") ∧
    ('\n' ∉ path.text.toList → ∀ f ∈ Finding.ofText path s,
      '\n' ∉ f.item.toList ∧ Text.lines f.item.toList = [f.item.toList]) := by
  refine ⟨?_, ?_, ?_⟩
  · intro f hf
    obtain ⟨hpath, hwritable⟩ := Finding.writable_of_mem_ofText hf
    have hlabel := Finding.lineFeed_notMem_label hf hs
    exact ⟨hpath, ⟨hwritable.closed, hlabel, hwritable.label⟩, hwritable.line, hwritable.message⟩
  · intro f hf
    exact Finding.message_of_mem_dropLast hs hf
  · intro hpath f hf
    obtain ⟨rfl, hwritable⟩ := Finding.writable_of_mem_ofText hf
    have hitem := Finding.lineFeed_notMem_item hpath (Finding.lineFeed_notMem_label hf hs)
      hwritable.line
    have hne : f.item.toList ≠ [] := by simp [Finding.item]
    refine ⟨hitem, ?_⟩
    rw [Text.lines, Text.pieces_last hne hitem, List.map_singleton, Text.chomp_last hitem]

/-- A line with two findings, the second of which has the message. -/
def crowdedLine : List Char := "// TODO( a ) Danger(b) : see BUG(c)  ".toList

theorem ofText_crowdedLine : Finding.ofText ⟨"a.rs"⟩ crowdedLine =
    [⟨⟨"a.rs"⟩, .todo, "a", ""⟩, ⟨⟨"a.rs"⟩, .danger, "b", "see BUG(c)"⟩] := by decide +kernel

/-- What looks like a third tag is part of the message. -/
theorem ofText_of_line_crowded : '\n' ∉ crowdedLine ∧ '\n' ∉ (Path.mk "a.rs").text.toList ∧
    (∀ f ∈ [(⟨⟨"a.rs"⟩, .todo, "a", ""⟩ : Finding)], f.message = "") ∧
    '\n' ∉ (Finding.mk ⟨"a.rs"⟩ .danger "b" "see BUG(c)").item.toList := by
  have hline : '\n' ∉ crowdedLine := by decide
  have hpath : '\n' ∉ (Path.mk "a.rs").text.toList := by decide
  obtain ⟨-, hlast, hitem⟩ := ofText_of_line ⟨"a.rs"⟩ crowdedLine hline
  rw [ofText_crowdedLine] at hlast hitem
  exact ⟨hline, hpath, hlast, (hitem hpath _ (by simp)).1⟩

end Marginalia
