import Marginalia.Proofs.Tag.Leftmost
import Marginalia.Proofs.Text.Lines

/-! Findings and the ends of lines. A blank at the end of a text changes no finding, so that it does
not matter how a line ends, and the findings of a text are those of its lines. -/
namespace Marginalia

variable {c : Char} {s rest message : List Char} {path : Path}

/-- A character at the end of a text that is cut in front of another one stands in the second
part. -/
theorem exists_eq_append_singleton {d : Char} {front back : List Char} (hne : d ≠ c)
    (h : s ++ [c] = front ++ d :: back) : ∃ kept, back = kept ++ [c] ∧ s = front ++ d :: kept := by
  rcases List.eq_nil_or_concat back with rfl | ⟨kept, last, rfl⟩
  · exact absurd (List.append_singleton_inj.mp h).2.symm hne
  · rw [List.concat_eq_append, ← List.cons_append, ← List.append_assoc,
      List.append_singleton_inj] at h
    obtain ⟨rfl, rfl⟩ := h
    exact ⟨kept, List.concat_eq_append, rfl⟩

namespace Tag

variable {t : Tag}

/-- A blank at the end of a text goes to what is left behind a tag, or else to the end of its
message. -/
theorem Ending.append_blank (hc : Text.isBlank c = true) (hline : c ≠ '\n')
    (h : Ending s message rest) :
    ∃ message' rest', Ending (s ++ [c]) message' rest' ∧ Text.trim message' = Text.trim message ∧
      (rest' = rest ++ [c] ∨ rest = [] ∧ rest' = []) := by
  have hblank : ∀ d ∈ [c], Text.isBlank d = true := by simpa using hc
  cases h with
  | @message gap skipped message rest hgap hskipped hmaximal hmessage hend =>
    cases rest with
    | cons d rest =>
      refine ⟨message, d :: rest ++ [c], ?_, rfl, .inl rfl⟩
      have hparts : gap ++ ':' :: (skipped ++ (message ++ d :: rest)) ++ [c] =
          gap ++ ':' :: (skipped ++ (message ++ (d :: rest ++ [c]))) := by simp
      rw [hparts]
      refine .message hgap hskipped ?_ hmessage hend
      cases message with
      | nil => exact hmaximal
      | cons => exact hmaximal
    | nil =>
      cases message with
      | nil =>
        refine ⟨[], [], ?_, rfl, .inr ⟨rfl, rfl⟩⟩
        have hparts : gap ++ ':' :: (skipped ++ ([] ++ [])) ++ [c] =
            gap ++ ':' :: ((skipped ++ [c]) ++ ([] ++ [])) := by simp
        rw [hparts]
        refine .message hgap ?_ hmaximal hmessage hend
        exact List.forall_mem_append.mpr ⟨hskipped, hblank⟩
      | cons d message =>
        refine ⟨d :: message ++ [c], [], ?_, Text.trim_append_blanks hblank _, .inr ⟨rfl, rfl⟩⟩
        have hparts : gap ++ ':' :: (skipped ++ (d :: message ++ [])) ++ [c] =
            gap ++ ':' :: (skipped ++ ((d :: message ++ [c]) ++ [])) := by simp
        rw [hparts]
        refine .message hgap hskipped hmaximal ?_ hend
        rw [List.mem_append, List.mem_singleton]
        exact not_or.mpr ⟨hmessage, hline.symm⟩
  | bare hcolon =>
    refine ⟨[], s ++ [c], .bare ?_, rfl, .inl rfl⟩
    intro gap rest hgap heq
    have hne : ':' ≠ c := by
      rintro rfl
      exact absurd hc (by decide)
    obtain ⟨kept, -, hs⟩ := exists_eq_append_singleton hne heq
    exact hcolon gap kept hgap hs

theorem Heads.append_blank (hc : Text.isBlank c = true) (hline : c ≠ '\n') (h : t.Heads s rest)
    (path : Path) : ∃ t' rest', Heads t' (s ++ [c]) rest' ∧ t'.finding? path = t.finding? path ∧
      (rest' = rest ++ [c] ∨ rest = [] ∧ rest' = []) := by
  obtain @⟨gap, after, _, hword, hgap, hlabel, hending⟩ := h
  obtain ⟨message', rest', hending', htrim, hrest⟩ := hending.append_blank hc hline
  refine ⟨{ t with message := message' }, rest', ?_, ?_, hrest⟩
  · have hparts : t.spelling ++ (gap ++ '(' :: (t.label ++ ')' :: after)) ++ [c] =
        t.spelling ++ (gap ++ '(' :: (t.label ++ ')' :: (after ++ [c]))) := by simp
    rw [hparts]
    exact .intro hword hgap hlabel hending'
  · simp only [finding?, htrim]

/-- No tag begins by a blank at the end of the text. -/
theorem Heads.of_append_blank (hc : Text.isBlank c = true) (h : t.Heads (s ++ [c]) rest) :
    ∃ t' rest', Heads t' s rest' := by
  generalize hs : s ++ [c] = whole at h
  obtain @⟨gap, after, _, hword, hgap, hlabel, _⟩ := h
  have hne : ')' ≠ c := by
    rintro rfl
    exact absurd hc (by decide)
  have hparts : t.spelling ++ (gap ++ '(' :: (t.label ++ ')' :: after)) =
      (t.spelling ++ (gap ++ '(' :: t.label)) ++ ')' :: after := by simp
  obtain ⟨kept, -, hkept⟩ := exists_eq_append_singleton hne (hs.trans hparts)
  have hparts' : s = t.spelling ++ (gap ++ '(' :: (t.label ++ ')' :: kept)) := by simp [hkept]
  refine ⟨{ t with message := (Mark.afterLabel kept).1 }, (Mark.afterLabel kept).2, ?_⟩
  rw [hparts']
  exact .intro hword hgap hlabel (Mark.afterLabel_eq_iff.mp rfl)

end Tag

namespace Finding

theorem ofText_of_heads {t : Tag} (h : t.Heads s rest) (path : Path) :
    ofText path s = (t.finding? path).toList ++ ofText path rest := by
  have hread := Mark.read?_eq_some_iff.mpr ⟨t, h, rfl⟩
  rw [ofText, marks_of_read? hread, List.filterMap_cons, h.ofMark? path, ofText]
  cases t.finding? path <;> rfl

theorem ofText_cons {d : Char} (h : Mark.read? (d :: s) = none) (path : Path) :
    ofText path (d :: s) = ofText path s := by
  rw [ofText, marks_cons_of_read?_eq_none h, ofText]

@[simp]
theorem ofText_nil (path : Path) : ofText path [] = [] := by
  rw [ofText, marks_nil, List.filterMap_nil]

/-- A blank at the end of a text changes no finding, unless it is a line feed. -/
theorem ofText_append_blank (hc : Text.isBlank c = true) (hline : c ≠ '\n') (path : Path)
    (s : List Char) : ofText path (s ++ [c]) = ofText path s := by
  have hnone {s : List Char} (h : Mark.read? s = none) : Mark.read? (s ++ [c]) = none := by
    rw [Mark.read?_eq_none_iff] at h ⊢
    intro t rest ht
    obtain ⟨t', rest', ht'⟩ := ht.of_append_blank hc
    exact h t' rest' ht'
  induction s using marks.induct with
  | case1 s m rest hread ih =>
    obtain ⟨t, ht, -⟩ := Mark.read?_eq_some_iff.mp hread
    obtain ⟨t', rest', ht', hfinding, hrest⟩ := ht.append_blank hc hline path
    rw [ofText_of_heads ht', ofText_of_heads ht, hfinding]
    rcases hrest with rfl | ⟨rfl, rfl⟩
    · rw [ih]
    · rfl
  | case2 hread => exact ofText_cons (hnone hread) path
  | case3 d rest hread ih =>
    have hread' : Mark.read? (d :: (rest ++ [c])) = none := hnone hread
    rw [List.cons_append, ofText_cons hread', ih, ofText_cons hread]

/-- How a line ends is not seen in its findings. -/
theorem ofText_chomp (path : Path) (body : List Char) :
    ofText path (Text.chomp (body ++ ['\n'])) = ofText path body := by
  by_cases hreturn : body.getLast? = some '\r'
  · obtain ⟨front, rfl⟩ := List.getLast?_eq_some_iff.mp hreturn
    rw [Text.chomp_return, ofText_append_blank (by decide) (by decide)]
  · rw [Text.chomp_line hreturn]

theorem ofLines_line (path : Path) {body : List Char} (hbody : '\n' ∉ body) (rest : List Char) :
    ofLines path (body ++ '\n' :: rest) = ofText path body ++ ofLines path rest := by
  rw [ofLines, Text.lines, Text.pieces_line hbody, List.map_cons, List.flatMap_cons,
    ofText_chomp]
  rfl

/-- A text of one line. -/
theorem ofLines_last (path : Path) {body : List Char} (hbody : '\n' ∉ body) :
    ofLines path body = ofText path body := by
  by_cases hne : body = []
  · rw [hne, ofText_nil]
    rfl
  · rw [ofLines, Text.lines, Text.pieces_last hne hbody, List.map_singleton,
      Text.chomp_last hbody, List.flatMap_singleton]

/-- The findings on both sides of a line feed are those of two texts. -/
theorem ofLines_append (path : Path) (s t : List Char) :
    ofLines path (s ++ '\n' :: t) = ofLines path s ++ ofLines path t := by
  induction s using Text.induction_on_lines with
  | nil => rw [ofLines_line path (by simp), ofText_nil]; rfl
  | last body _ hbody => rw [ofLines_line path hbody, ofLines_last path hbody]
  | line body rest hbody ih =>
    rw [List.append_assoc, List.cons_append, ofLines_line path hbody, ih, ofLines_line path hbody,
      List.append_assoc]

end Finding

end Marginalia
