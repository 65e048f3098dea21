import Marginalia.Proofs.Checklist.Sections
import Marginalia.Proofs.Text.Lines

/-! A checklist line by line. Main statement: the lines are the five sections with a rule between
any two of them, and the lines that begin as items do are the items of the findings, each once. -/
namespace Marginalia.Checklist

section Intercalate

variable {α β : Type} {gap : List α} {parts : List (List α)}

theorem flatMap_intercalate (g : α → List β) (gap : List α) (parts : List (List α)) :
    (gap.intercalate parts).flatMap g =
      (gap.flatMap g).intercalate (parts.map (List.flatMap g)) := by
  induction parts with
  | nil => rfl
  | cons first rest ih =>
    cases rest with
    | nil => simp
    | cons second rest =>
      rw [List.intercalate_cons_cons, List.flatMap_append, List.flatMap_append, ih]
      simp

theorem filter_intercalate {p : α → Bool} (hgap : gap.filter p = []) (parts : List (List α)) :
    (gap.intercalate parts).filter p = parts.flatMap (List.filter p) := by
  induction parts with
  | nil => rfl
  | cons first rest ih =>
    cases rest with
    | nil => simp
    | cons second rest =>
      rw [List.intercalate_cons_cons, List.filter_append, List.filter_append, hgap, ih]
      simp

theorem forall_mem_intercalate {P : α → Prop} (hgap : ∀ a ∈ gap, P a)
    (hparts : ∀ part ∈ parts, ∀ a ∈ part, P a) : ∀ a ∈ gap.intercalate parts, P a := by
  induction parts with
  | nil => simp
  | cons first rest ih =>
    rw [List.forall_mem_cons] at hparts
    cases rest with
    | nil => simpa using hparts.1
    | cons second rest =>
      rw [List.intercalate_cons_cons, List.forall_mem_append, List.forall_mem_append]
      exact ⟨⟨hparts.1, hgap⟩, ih hparts.2⟩

end Intercalate

/-- The line above the items of a kind. -/
def headerLine (kind : Kind) : String := "# " ++ kind.header

/-- The lines of a section. -/
def Section.lines (s : Section) : List String :=
  headerLine s.kind :: ((if s.bare then [""] else []) ++ s.items)

/-- The lines between two sections. -/
def rule : List String := ["", "---", ""]

/-- The lines of a checklist that lists these items for each kind. -/
def outline (findings : List Finding) (texts : Kind → List String) : List String :=
  rule.intercalate (Kind.all.map fun k => Section.lines ⟨k, (itemsOf k findings).isEmpty, texts k⟩)

/-- Some lines as a text, each with its line feed. -/
def terminated (lines : List String) : List Char := lines.flatMap fun line => line.toList ++ ['\n']

/-- Whether a line begins with a text. -/
def begins (front line : String) : Bool := front.toList.isPrefixOf line.toList

variable {findings : List Finding} {texts : Kind → List String} {lines : List String}

theorem Section.toList_text (s : Section) : s.text.toList = terminated s.lines := by
  rw [Section.text, Section.lines, terminated, headerLine]
  cases s.bare <;> simp [List.flatMap_map]

theorem toList_render (hne : findings ≠ []) :
    (render findings).toList = terminated (outline findings (listed findings)) := by
  have htext : String.toList ∘ Section.text = terminated ∘ Section.lines :=
    funext Section.toList_text
  have hrule : separator.toList = terminated rule := rfl
  rw [render, if_neg (by simpa using hne), String.toList_intercalate, List.map_map, htext, hrule,
    sections_eq, outline, terminated, terminated, flatMap_intercalate, List.map_map, List.map_map]
  rfl

theorem pieces_terminated (h : ∀ line ∈ lines, '\n' ∉ line.toList) :
    Text.pieces (terminated lines) = lines.map fun line => line.toList ++ ['\n'] := by
  induction lines with
  | nil => rfl
  | cons line lines ih =>
    rw [List.forall_mem_cons] at h
    have hterminated : terminated (line :: lines) = line.toList ++ '\n' :: terminated lines := by
      simp [terminated]
    rw [hterminated, Text.pieces_line h.1, ih h.2, List.map_cons]

/-- What holds of the lines of the rule, of the headers and of the items holds of all lines. -/
theorem forall_mem_outline (h : ∀ k, Lists findings k (texts k)) {P : String → Prop}
    (hrule : ∀ line ∈ rule, P line) (hheader : ∀ k, P (headerLine k))
    (hitem : ∀ f ∈ findings, P f.item) : ∀ line ∈ outline findings texts, P line := by
  apply forall_mem_intercalate hrule
  rw [List.forall_mem_map]
  intro k _
  rw [Section.lines, List.forall_mem_cons, List.forall_mem_append]
  refine ⟨hheader k, ?_, ?_⟩
  · intro line hline
    split at hline
    · rw [List.mem_singleton.mp hline]
      exact hrule "" List.mem_cons_self
    · exact absurd hline List.not_mem_nil
  · intro item hmem
    obtain ⟨f, hf, -, rfl⟩ := ((h k).mem_iff item |>.mp hmem).1
    exact hitem f hf

theorem begins_item (f : Finding) : begins "- [ ] " f.item = true := by
  simp [begins, Finding.item]

theorem begins_headerLine (k : Kind) : begins "# " (headerLine k) = true := by
  simp [begins, headerLine]

theorem not_begins_item (f : Finding) : begins "# " f.item = false := by
  simp [begins, Finding.item, List.isPrefixOf]

/-- The lines of an outline that are picked are those picked among the headers and the items. -/
theorem filter_outline {p : String → Bool} (hrule : rule.filter p = [])
    (findings : List Finding) (texts : Kind → List String) :
    (outline findings texts).filter p =
      Kind.all.flatMap fun k => [headerLine k].filter p ++ (texts k).filter p := by
  have hempty : [""].filter p = [] := by
    rw [List.filter_eq_nil_iff] at hrule ⊢
    intro line hline
    exact hrule line (List.mem_cons.mpr (.inl (List.mem_singleton.mp hline)))
  rw [outline, filter_intercalate hrule, List.flatMap_map]
  congr 1
  funext k
  rw [Section.lines, ← List.singleton_append, List.filter_append, List.filter_append]
  split
  · rw [hempty, List.nil_append]
  · rw [List.filter_nil, List.nil_append]

theorem filter_items (h : ∀ k, Lists findings k (texts k)) :
    (outline findings texts).filter (begins "- [ ] ") = Kind.all.flatMap texts := by
  rw [filter_outline rfl]
  congr 1
  funext k
  have hheader : [headerLine k].filter (begins "- [ ] ") = [] := by cases k <;> decide
  rw [hheader, List.nil_append, List.filter_eq_self]
  intro item hitem
  obtain ⟨f, -, -, rfl⟩ := ((h k).mem_iff item |>.mp hitem).1
  exact begins_item f

theorem filter_headers (h : ∀ k, Lists findings k (texts k)) :
    (outline findings texts).filter (begins "# ") = Kind.all.map headerLine := by
  rw [filter_outline rfl, List.map_eq_flatMap]
  congr 1
  funext k
  have hitems : (texts k).filter (begins "# ") = [] := by
    rw [List.filter_eq_nil_iff]
    intro item hitem
    obtain ⟨f, -, -, rfl⟩ := ((h k).mem_iff item |>.mp hitem).1
    rw [not_begins_item]
    exact Bool.false_ne_true
  rw [hitems, List.append_nil, List.filter_cons_of_pos (begins_headerLine k), List.filter_nil]

theorem pieces_render (hne : findings ≠ []) (hline : ∀ f ∈ findings, '\n' ∉ f.item.toList) :
    Text.pieces (render findings).toList =
      (outline findings (listed findings)).map fun line => line.toList ++ ['\n'] := by
  have hheader (k : Kind) : '\n' ∉ (headerLine k).toList := by cases k <;> decide
  rw [toList_render hne]
  apply pieces_terminated
  exact forall_mem_outline (lists_listed findings) (by decide) hheader hline

/-- A line that does not end with a carriage return is read as it was written. -/
theorem lines_render (hne : findings ≠ []) (hline : ∀ f ∈ findings, '\n' ∉ f.item.toList)
    (hreturn : ∀ f ∈ findings, f.item.toList.getLast? ≠ some '\r') :
    Text.lines (render findings).toList =
      (outline findings (listed findings)).map String.toList := by
  have hheader (k : Kind) : (headerLine k).toList.getLast? ≠ some '\r' := by cases k <;> decide
  have hrule : ∀ line ∈ rule, line.toList.getLast? ≠ some '\r' := by decide
  rw [Text.lines, pieces_render hne hline, List.map_map]
  apply List.map_congr_left
  intro line hmem
  apply Text.chomp_line
  exact forall_mem_outline (lists_listed findings) hrule hheader hreturn line hmem

/-- The lines of the checklist of some findings whose items are single lines. There are the five
headers in order, and every item of a finding exactly once, below the header of the first kind that
has it and at its first place among the items of that kind. -/
theorem render_lines (hne : findings ≠ []) (hline : ∀ f ∈ findings, '\n' ∉ f.item.toList) :
    ∃ texts : Kind → List String, ∃ lines : List String,
      (∀ k, Lists findings k (texts k)) ∧
      lines = outline findings texts ∧
      Text.pieces (render findings).toList = lines.map (fun line => line.toList ++ ['\n']) ∧
      ((∀ f ∈ findings, f.item.toList.getLast? ≠ some '\r') →
        Text.lines (render findings).toList = lines.map String.toList) ∧
      lines.filter (begins "# ") = Kind.all.map headerLine ∧
      (lines.filter (begins "# ")).Nodup ∧
      lines.filter (begins "- [ ] ") = Kind.all.flatMap texts ∧
      (lines.filter (begins "- [ ] ")).Nodup ∧
      ∀ item, item ∈ lines.filter (begins "- [ ] ") ↔ ∃ f ∈ findings, f.item = item := by
  have hlists := lists_listed findings
  refine ⟨listed findings, _, hlists, rfl, pieces_render hne hline, lines_render hne hline,
    filter_headers hlists, ?_,
    filter_items hlists, ?_, ?_⟩
  · rw [filter_headers hlists]
    decide
  · rw [filter_items hlists]
    exact nodup_of_lists hlists
  · intro item
    rw [filter_items hlists, List.mem_flatMap, ← exists_mem_of_lists hlists]
    simp [Kind.mem_all]

/-- Two findings of different kinds that have the same item. -/
def colliding : List Finding := [⟨⟨"a.rs"⟩, .bug, "x", ""⟩, ⟨⟨"a.rs"⟩, .todo, "x", ""⟩]

/-- The item is listed once, and not below the kind that comes first among the findings. -/
theorem render_lines_colliding : colliding ≠ [] ∧ (∀ f ∈ colliding, '\n' ∉ f.item.toList) ∧
    ∃ texts : Kind → List String, ∃ lines : List String, lines = outline colliding texts ∧
      Text.lines (render colliding).toList = lines.map String.toList ∧
      lines.filter (begins "- [ ] ") = ["- [ ] (a.rs) - x"] ∧ texts .bug = [] := by
  have hne : colliding ≠ [] := by decide
  have hline : ∀ f ∈ colliding, '\n' ∉ f.item.toList := by decide
  refine ⟨hne, hline, ?_⟩
  obtain ⟨texts, lines, hlists, houtline, -, hlines, -, -, -, hnodup, hmem⟩ :=
    render_lines hne hline
  have hitem : ∀ f ∈ colliding, f.item = "- [ ] (a.rs) - x" := by decide
  refine ⟨texts, lines, houtline, hlines (by decide), ?_, ?_⟩
  · apply List.perm_singleton.mp
    rw [List.perm_ext_iff_of_nodup hnodup (List.nodup_singleton _)]
    intro item
    rw [hmem item, List.mem_singleton]
    constructor
    · rintro ⟨f, hf, rfl⟩
      exact hitem f hf
    · intro heq
      exact ⟨_, List.mem_cons_self, heq ▸ hitem _ List.mem_cons_self⟩
  · rw [List.eq_nil_iff_forall_not_mem]
    intro item hbug
    obtain ⟨⟨f, hf, -, heq⟩, hfirst⟩ := ((hlists .bug).mem_iff item).mp hbug
    have hle := hfirst ⟨⟨"a.rs"⟩, .todo, "x", ""⟩ (by decide) (heq ▸ (hitem f hf).symm)
    exact absurd hle (by decide)

end Marginalia.Checklist
