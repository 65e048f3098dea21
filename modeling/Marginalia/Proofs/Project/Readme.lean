import Marginalia.Proofs.Text.Lines
import Marginalia.Readme
import Mathlib.Logic.Basic

/-! Linking a readme twice. The block between the markers is written anew from the markers alone,
so the second name wins, and a linked readme stays as it is when it is linked again. -/
namespace Marginalia.Readme

variable {name : String} {inBlock : Bool} {body rest s line : List Char} {kind : LineKind}

theorem lineKind_eq_start_iff : lineKind line = .start ↔ Text.trim line = startMarker.toList := by
  simp only [lineKind]
  split
  · next h => simp [h]
  · next h => split <;> simp [h]

theorem lineKind_eq_finish_iff : lineKind line = .finish ↔ Text.trim line = endMarker.toList := by
  have hne : startMarker.toList ≠ endMarker.toList := by decide
  simp only [lineKind]
  split
  · next h => simp [h, hne]
  · split
    · next h => simp [h]
    · next h => simp [h]

theorem lineKind_of_trim_eq {line line' : List Char} (h : Text.trim line = Text.trim line') :
    lineKind line = lineKind line' := by
  rw [lineKind, h, lineKind]

theorem lineKind_append_lineFeed (body : List Char) : lineKind (body ++ ['\n']) = lineKind body :=
  lineKind_of_trim_eq (Text.trim_append_blanks Text.isBlank_of_mem_lineFeed body)

theorem lineKind_startMarker : lineKind startMarker.toList = .start :=
  lineKind_eq_start_iff.mpr (by decide +kernel)

theorem lineKind_endMarker : lineKind endMarker.toList = .finish :=
  lineKind_eq_finish_iff.mpr (by decide +kernel)

/-- What stands before the name in the line of the link. -/
def linkWords : List Char := "This project also has a [\"todo list \"](".toList

theorem toList_linkLine (name : String) :
    (linkLine name).toList = linkWords ++ (name.toList ++ ").".toList) := by
  unfold linkLine linkWords
  rw [String.toList_append, String.toList_append, List.append_assoc]

theorem linkWords_eq_cons : linkWords = 'T' :: linkWords.tail := by decide +kernel

theorem lineKind_linkLine (name : String) : lineKind (linkLine name).toList = .other := by
  have hhead : (Text.trim (linkLine name).toList).head? = some 'T' := by
    rw [toList_linkLine, linkWords_eq_cons, List.cons_append]
    exact Text.head?_trim (by decide) _
  simp only [lineKind]
  rw [if_neg, if_neg]
  · intro heq
    rw [heq] at hhead
    exact absurd hhead (by decide)
  · intro heq
    rw [heq] at hhead
    exact absurd hhead (by decide)

/-- A readme has a line of a kind when one of its pieces is of that kind. -/
theorem hasLine_eq (kind : LineKind) (s : List Char) :
    hasLine kind s = (Text.pieces s).any fun piece => decide (lineKind piece = kind) := by
  rw [hasLine, Text.lines, List.any_map]
  congr 1
  funext piece
  rw [Function.comp_apply, lineKind_of_trim_eq (Text.trim_chomp piece)]

theorem hasLine_line (h : '\n' ∉ body) (kind : LineKind) (rest : List Char) :
    hasLine kind (body ++ '\n' :: rest) = (decide (lineKind body = kind) || hasLine kind rest) := by
  rw [hasLine_eq, Text.pieces_line h, List.any_cons, lineKind_append_lineFeed, hasLine_eq]

theorem hasLine_last (hne : body ≠ []) (h : '\n' ∉ body) (kind : LineKind) :
    hasLine kind body = decide (lineKind body = kind) := by
  rw [hasLine_eq, Text.pieces_last hne h, List.any_cons, List.any_nil, Bool.or_false]

theorem hasLine_iff : hasLine kind s = true ↔ ∃ line ∈ Text.lines s, lineKind line = kind := by
  rw [hasLine, List.any_eq_true]
  simp only [decide_eq_true_iff]

/-- What is written in the place of a start marker. -/
def opening (name : String) : List Char := (startMarker ++ "\n" ++ linkLine name ++ "\n").toList

/-- What is written in the place of an end marker. -/
def closing : List Char := (endMarker ++ "\n").toList

/-- What is written for a readme, from inside or outside the block. -/
def relink (name : String) (inBlock : Bool) (s : List Char) : List Char :=
  linked name inBlock (Text.pieces s)

theorem relink_line (h : '\n' ∉ body) (name : String) (inBlock : Bool) (rest : List Char) :
    relink name inBlock (body ++ '\n' :: rest) =
      match lineKind body with
      | .start => opening name ++ relink name true rest
      | .finish => closing ++ relink name false rest
      | .other => (if inBlock then [] else body ++ ['\n']) ++ relink name inBlock rest := by
  rw [relink, Text.pieces_line h, linked, lineKind_append_lineFeed]
  rfl

theorem relink_last (hne : body ≠ []) (h : '\n' ∉ body) (name : String) (inBlock : Bool) :
    relink name inBlock body =
      match lineKind body with
      | .start => opening name
      | .finish => closing
      | .other => if inBlock then [] else body := by
  rw [relink, Text.pieces_last hne h, linked]
  cases lineKind body <;> simp [linked, opening, closing]

theorem opening_append (name : String) (rest : List Char) :
    opening name ++ rest =
      startMarker.toList ++ '\n' :: ((linkLine name).toList ++ '\n' :: rest) := by
  simp [opening]

theorem closing_append (rest : List Char) : closing ++ rest = endMarker.toList ++ '\n' :: rest := by
  simp [closing]

theorem lineFeed_notMem_linkLine (h : '\n' ∉ name.toList) : '\n' ∉ (linkLine name).toList := by
  have hwords : '\n' ∉ linkWords := by decide +kernel
  rw [toList_linkLine, List.mem_append, List.mem_append]
  rintro (hmem | hmem | hmem)
  · exact hwords hmem
  · exact h hmem
  · exact absurd hmem (by decide)

theorem relink_opening (h : '\n' ∉ name.toList) (other : String) (inBlock : Bool)
    (rest : List Char) :
    relink other inBlock (opening name ++ rest) = opening other ++ relink other true rest := by
  rw [opening_append, relink_line (by decide), lineKind_startMarker]
  simp only
  rw [relink_line (lineFeed_notMem_linkLine h), lineKind_linkLine]
  rfl

theorem relink_closing (name : String) (inBlock : Bool) (rest : List Char) :
    relink name inBlock (closing ++ rest) = closing ++ relink name false rest := by
  rw [closing_append, relink_line (by decide), lineKind_endMarker]

@[simp]
theorem relink_nil (name : String) (inBlock : Bool) : relink name inBlock [] = [] := rfl

/-- What is linked is linked anew as if it had not been. -/
theorem relink_relink (h : '\n' ∉ name.toList) (other : String) (inBlock : Bool)
    (s : List Char) : relink other inBlock (relink name inBlock s) = relink other inBlock s := by
  -- The line of the link is dropped the second time and comes back with its marker.
  induction s using Text.induction_on_lines generalizing inBlock with
  | nil => rfl
  | last body hne hbody =>
    rw [relink_last hne hbody, relink_last hne hbody]
    cases hkind : lineKind body with
    | start => simpa using relink_opening h other inBlock []
    | finish => simpa using relink_closing other inBlock []
    | other =>
      cases inBlock with
      | true => rfl
      | false =>
        simp only [Bool.false_eq_true, if_false]
        rw [relink_last hne hbody, hkind]
        rfl
  | line body rest hbody ih =>
    rw [relink_line hbody, relink_line hbody]
    cases hkind : lineKind body with
    | start =>
      simp only
      rw [relink_opening h, ih]
    | finish =>
      simp only
      rw [relink_closing, ih]
    | other =>
      cases inBlock with
      | true => exact ih true
      | false =>
        simp only [Bool.false_eq_true, if_false, List.append_assoc, List.singleton_append]
        rw [relink_line hbody, hkind]
        simp only [Bool.false_eq_true, if_false, List.append_assoc, List.singleton_append, ih]

theorem hasLine_opening (h : '\n' ∉ name.toList) (kind : LineKind) (rest : List Char) :
    hasLine kind (opening name ++ rest) =
      (decide (LineKind.start = kind) ||
        (decide (LineKind.other = kind) || hasLine kind rest)) := by
  rw [opening_append, hasLine_line (by decide), lineKind_startMarker,
    hasLine_line (lineFeed_notMem_linkLine h), lineKind_linkLine]

theorem hasLine_closing (kind : LineKind) (rest : List Char) :
    hasLine kind (closing ++ rest) = (decide (LineKind.finish = kind) || hasLine kind rest) := by
  rw [closing_append, hasLine_line (by decide), lineKind_endMarker]

/-- Linking keeps the markers. -/
theorem hasLine_relink (h : '\n' ∉ name.toList) (hkind : kind ≠ .other) (inBlock : Bool)
    (s : List Char) : hasLine kind (relink name inBlock s) = hasLine kind s := by
  have hother : decide (LineKind.other = kind) = false := by simpa using hkind.symm
  induction s using Text.induction_on_lines generalizing inBlock with
  | nil => rfl
  | last body hne hbody =>
    rw [relink_last hne hbody, hasLine_last hne hbody]
    cases hbody' : lineKind body with
    | start =>
      have hopening := hasLine_opening h kind []
      rw [List.append_nil, hother, Bool.false_or] at hopening
      simpa [hasLine, Text.lines, Text.pieces] using hopening
    | finish =>
      have hclosing := hasLine_closing kind []
      rw [List.append_nil] at hclosing
      simpa [hasLine, Text.lines, Text.pieces] using hclosing
    | other =>
      cases inBlock with
      | true => exact hother.symm
      | false =>
        simp only [Bool.false_eq_true, if_false]
        rw [hasLine_last hne hbody, hbody']
  | line body rest hbody ih =>
    rw [relink_line hbody, hasLine_line hbody]
    cases hbody' : lineKind body with
    | start =>
      simp only
      rw [hasLine_opening h, hother, Bool.false_or, ih]
    | finish =>
      simp only
      rw [hasLine_closing, ih]
    | other =>
      cases inBlock with
      | true =>
        rw [hother, Bool.false_or]
        exact ih true
      | false =>
        simp only [Bool.false_eq_true, if_false, List.append_assoc, List.singleton_append]
        rw [hasLine_line hbody, hbody', ih]

variable {readme linked : String}

theorem link?_eq_some_iff : link? readme name = some linked ↔
    hasLine .start readme.toList = true ∧ hasLine .finish readme.toList = true ∧
      linked = String.ofList (relink name false readme.toList) := by
  simp only [link?]
  split
  · next h =>
    rw [Bool.and_eq_true] at h
    rw [Option.some.injEq, eq_comm]
    exact ⟨fun heq => ⟨h.1, h.2, heq⟩, fun hlinked => hlinked.2.2⟩
  · next h =>
    rw [Bool.and_eq_true] at h
    exact ⟨fun hnone => absurd hnone (by simp), fun hlinked => absurd ⟨hlinked.1, hlinked.2.1⟩ h⟩

/-- A readme cannot be linked exactly when one of the markers is on no line of its own. -/
theorem link?_eq_none_iff (name : String) : link? readme name = none ↔
    (∀ line ∈ Text.lines readme.toList, Text.trim line ≠ startMarker.toList) ∨
      ∀ line ∈ Text.lines readme.toList, Text.trim line ≠ endMarker.toList := by
  have hstart : hasLine .start readme.toList = true ↔
      ∃ line ∈ Text.lines readme.toList, Text.trim line = startMarker.toList := by
    simp only [hasLine_iff, lineKind_eq_start_iff]
  have hfinish : hasLine .finish readme.toList = true ↔
      ∃ line ∈ Text.lines readme.toList, Text.trim line = endMarker.toList := by
    simp only [hasLine_iff, lineKind_eq_finish_iff]
  simp only [link?]
  split
  · next h =>
    rw [Bool.and_eq_true, hstart, hfinish] at h
    obtain ⟨⟨line, hline, htrim⟩, line', hline', htrim'⟩ := h
    refine ⟨fun hnone => absurd hnone (by simp), ?_⟩
    rintro (hno | hno)
    · exact absurd htrim (hno line hline)
    · exact absurd htrim' (hno line' hline')
  · next h =>
    rw [Bool.and_eq_true, hstart, hfinish, not_and_or] at h
    refine ⟨fun _ => h.imp ?_ ?_, fun _ => rfl⟩
    · intro hno line hline htrim
      exact hno ⟨line, hline, htrim⟩
    · intro hno line hline htrim
      exact hno ⟨line, hline, htrim⟩

/-- A linked readme is linked under another name as it was before. -/
theorem link?_relinked (hname : '\n' ∉ name.toList) (h : link? readme name = some linked)
    (other : String) : link? linked other = link? readme other := by
  obtain ⟨hstart, hfinish, rfl⟩ := link?_eq_some_iff.mp h
  have hother : link? readme other = some (String.ofList (relink other false readme.toList)) :=
    link?_eq_some_iff.mpr ⟨hstart, hfinish, rfl⟩
  rw [hother, link?_eq_some_iff, String.toList_ofList, hasLine_relink hname (by simp),
    hasLine_relink hname (by simp), relink_relink hname]
  exact ⟨hstart, hfinish, rfl⟩

/-- A linked readme is linked already. -/
theorem link?_linked (hname : '\n' ∉ name.toList) (h : link? readme name = some linked) :
    link? linked name = some linked :=
  (link?_relinked hname h name).trans h

/-- The last name wins. Whether a readme can be linked does not depend on the name, and after
linking it under a name of one line every other name gives what it would have given before; under
the same name nothing changes any more. -/
theorem link?_last_wins (readme first second : String) (hfirst : '\n' ∉ first.toList) :
    (link? readme first = none ↔ link? readme second = none) ∧
      ∀ linked, link? readme first = some linked →
        link? linked second = link? readme second ∧ link? linked first = some linked := by
  constructor
  · rw [link?_eq_none_iff, link?_eq_none_iff]
  · intro linked h
    exact ⟨link?_relinked hfirst h second, link?_linked hfirst h⟩

/-- Here the first marker is indented, and the second block stays open. -/
theorem link?_last_wins_openBlock :
    '\n' ∉ "A.md".toList ∧ ∃ linked,
      link? " <!-- TODOS_START -->\nold\n<!-- TODOS_END -->\r\n<!-- TODOS_START -->" "A.md" =
        some linked ∧
      link? linked "B.md" =
        link? " <!-- TODOS_START -->\nold\n<!-- TODOS_END -->\r\n<!-- TODOS_START -->" "B.md" := by
  have hname : '\n' ∉ "A.md".toList := by decide
  refine ⟨hname, _, rfl, ?_⟩
  exact ((link?_last_wins _ "A.md" "B.md" hname).2 _ rfl).1

end Marginalia.Readme
