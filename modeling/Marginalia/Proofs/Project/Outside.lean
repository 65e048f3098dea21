import Marginalia.Proofs.Project.Readme

/-! Lines that linking keeps. A line that is no marker is kept unless the nearest marker above it is
a start marker. So what follows a start marker that is never closed is lost, though no end marker
stands below it; where the last marker is an end marker, nothing outside a pair of markers is. -/
namespace Marginalia

namespace Readme

/-- A line of a readme, with its line feed, between the lines above it and those below it. -/
structure Spot where
  above : List (List Char)
  line : List Char
  below : List (List Char)

/-- The lines of a readme in their places, behind lines that stand above all of them. -/
def spots : List (List Char) → List (List Char) → List Spot
  | _, [] => []
  | above, line :: below => ⟨above, line, below⟩ :: spots (above ++ [line]) below

/-- The kind of the last marker among lines. -/
def lastMarker? (lines : List (List Char)) : Option LineKind :=
  ((lines.map lineKind).filter (· ≠ .other)).getLast?

namespace Spot

/-- Whether a start marker stands above and an end marker below. -/
def between (t : Spot) : Bool :=
  t.above.any (lineKind · = .start) && t.below.any (lineKind · = .finish)

/-- No marker, and not between a start marker and an end marker. -/
def outside (t : Spot) : Bool := lineKind t.line = .other && !t.between

/-- No marker, and the nearest marker above is no start marker. -/
def kept (t : Spot) : Bool := lineKind t.line = .other && lastMarker? t.above ≠ some .start

end Spot

variable {name readme linked : String} {above lines : List (List Char)} {line s : List Char}

/-- A marker below hides those above. -/
theorem lastMarker?_append (above below : List (List Char)) :
    lastMarker? (above ++ below) = (lastMarker? below).or (lastMarker? above) := by
  rw [lastMarker?, List.map_append, List.filter_append, List.getLast?_append]
  rfl

theorem lastMarker?_singleton (line : List Char) :
    lastMarker? [line] = if lineKind line = .other then none else some (lineKind line) := by
  by_cases hline : lineKind line = .other
  · simp [lastMarker?, hline]
  · simp [lastMarker?, hline]

theorem lastMarker?_append_singleton (above : List (List Char)) (line : List Char) :
    lastMarker? (above ++ [line]) =
      if lineKind line = .other then lastMarker? above else some (lineKind line) := by
  rw [lastMarker?_append, lastMarker?_singleton]
  split
  · rfl
  · rfl

theorem pieces_opening_append (name : String) (t : List Char) :
    Text.pieces (opening name ++ t) = Text.pieces (opening name) ++ Text.pieces t := by
  have hend (t : List Char) : opening name ++ t =
      (startMarker.toList ++ '\n' :: (linkLine name).toList) ++ '\n' :: t := by
    rw [opening_append, List.append_assoc, List.cons_append]
  have hopening := hend []
  rw [List.append_nil] at hopening
  rw [hend, hopening]
  exact Text.pieces_append_lineFeed _ t

theorem pieces_closing_append (t : List Char) :
    Text.pieces (closing ++ t) = Text.pieces closing ++ Text.pieces t := by
  have hclosing := closing_append []
  rw [List.append_nil] at hclosing
  rw [closing_append, hclosing]
  exact Text.pieces_append_lineFeed _ t

/-- The kept lines of the rest of a readme are lines of what is written for it. -/
theorem kept_sublist (name : String) (above : List (List Char)) (s : List Char) :
    (((spots above (Text.pieces s)).filter Spot.kept).map Spot.line).Sublist
      (Text.pieces (relink name (lastMarker? above = some .start) s)) := by
  -- The block is open exactly when the last marker above is a start marker.
  induction s using Text.induction_on_lines generalizing above with
  | nil => exact List.nil_sublist _
  | last body hne hbody =>
    rw [Text.pieces_last hne hbody, relink_last hne hbody, spots, spots, List.filter_singleton]
    cases hkind : lineKind body with
    | start | finish =>
      simp only [Spot.kept, hkind]
      exact List.nil_sublist _
    | other =>
      by_cases hopen : lastMarker? above = some .start
      · simp only [Spot.kept, hkind, hopen]
        exact List.nil_sublist _
      · simp [Spot.kept, hkind, hopen, Text.pieces_last hne hbody]
  | line body rest hbody ih =>
    have hrest := ih (above ++ [body ++ ['\n']])
    have hline := lineKind_append_lineFeed body
    rw [lastMarker?_append_singleton, hline] at hrest
    rw [Text.pieces_line hbody, relink_line hbody, spots, List.filter_cons]
    cases hkind : lineKind body with
    | start =>
      simp only [Spot.kept, hline, hkind] at hrest ⊢
      rw [pieces_opening_append]
      exact hrest.trans (List.sublist_append_right _ _)
    | finish =>
      simp only [Spot.kept, hline, hkind] at hrest ⊢
      rw [pieces_closing_append]
      exact hrest.trans (List.sublist_append_right _ _)
    | other =>
      by_cases hopen : lastMarker? above = some .start
      · simp only [Spot.kept, hline, hkind, hopen] at hrest ⊢
        exact hrest
      · have hkept : Spot.kept ⟨above, body ++ ['\n'], Text.pieces rest⟩ = true := by
          simp [Spot.kept, hline, hkind, hopen]
        rw [hkind, if_pos rfl] at hrest
        rw [if_pos hkept, List.map_cons]
        simp only [hopen, decide_false, Bool.false_eq_true, if_false, List.append_assoc,
          List.singleton_append] at hrest ⊢
        rw [Text.pieces_line hbody]
        exact hrest.cons_cons _

theorem append_eq_of_mem_spots {t : Spot} (h : t ∈ spots above lines) :
    above ++ lines = t.above ++ t.line :: t.below := by
  induction lines generalizing above with
  | nil => exact absurd h (by simp [spots])
  | cons line below ih =>
    rw [spots, List.mem_cons] at h
    rcases h with rfl | h
    · rfl
    · rw [← ih h, List.append_assoc, List.singleton_append]

theorem exists_mem_of_lastMarker? {kind : LineKind} (h : lastMarker? lines = some kind) :
    ∃ line ∈ lines, lineKind line = kind := by
  have hmem := List.mem_filter.mp (List.mem_of_getLast? h)
  exact List.mem_map.mp hmem.1

/-- Where the last marker of all is an end marker, an open block is closed further below. -/
theorem Spot.kept_of_outside {t : Spot} (houtside : t.outside = true)
    (hlast : lastMarker? (t.above ++ t.line :: t.below) = some .finish) : t.kept = true := by
  simp only [outside, Bool.and_eq_true, decide_eq_true_iff, Bool.not_eq_true'] at houtside
  obtain ⟨hother, hbetween⟩ := houtside
  simp only [kept, Bool.and_eq_true, decide_eq_true_iff]
  refine ⟨hother, fun hopen => ?_⟩
  -- The last marker of all closes the block, and it stands below since the nearest above opens it.
  have hbelow : lastMarker? t.below = some .finish := by
    rw [List.append_cons, lastMarker?_append, lastMarker?_append_singleton, if_pos hother,
      hopen] at hlast
    cases hkind : lastMarker? t.below with
    | none =>
      rw [hkind] at hlast
      exact absurd hlast (by decide)
    | some kind => rwa [hkind] at hlast
  obtain ⟨start, hstart, hstart_kind⟩ := exists_mem_of_lastMarker? hopen
  obtain ⟨finish, hfinish, hfinish_kind⟩ := exists_mem_of_lastMarker? hbelow
  rw [between, Bool.and_eq_false_iff, List.any_eq_false, List.any_eq_false] at hbetween
  rcases hbetween with hno | hno
  · exact hno start hstart (decide_eq_true hstart_kind)
  · exact hno finish hfinish (decide_eq_true hfinish_kind)

/-- Linking keeps every line whose nearest marker above is no start marker, in order. These are all
the lines outside a pair of markers, unless the last block is never closed. -/
theorem link?_keeps_outside (h : link? readme name = some linked) :
    (((spots [] (Text.pieces readme.toList)).filter Spot.kept).map Spot.line).Sublist
        (Text.pieces linked.toList) ∧
      (lastMarker? (Text.pieces readme.toList) = some .finish →
        (((spots [] (Text.pieces readme.toList)).filter Spot.outside).map Spot.line).Sublist
          (Text.pieces linked.toList)) := by
  obtain ⟨-, -, rfl⟩ := link?_eq_some_iff.mp h
  rw [String.toList_ofList]
  have hkept := kept_sublist name [] readme.toList
  refine ⟨hkept, fun hlast => ?_⟩
  -- Every line outside is a kept line, so the lines outside are found among the kept ones.
  have houtside : (spots [] (Text.pieces readme.toList)).filter Spot.outside =
      ((spots [] (Text.pieces readme.toList)).filter Spot.kept).filter Spot.outside := by
    rw [List.filter_filter]
    apply List.filter_congr
    intro t ht
    by_cases hout : t.outside = true
    · have hpieces : t.above ++ t.line :: t.below = Text.pieces readme.toList :=
        (append_eq_of_mem_spots ht).symm
      rw [hout, Spot.kept_of_outside hout (hpieces ▸ hlast), Bool.and_self]
    · simp [hout]
  rw [houtside]
  exact (List.filter_sublist.map Spot.line).trans hkept

/-- An end marker alone, then a block. -/
def endFirst : String :=
  "a\n<!-- TODOS_END -->\nb\r\n<!-- TODOS_START -->\nold\n <!-- TODOS_END -->\nc"

theorem link?_keeps_outside_endFirst : ∃ linked, link? endFirst "TODO.md" = some linked ∧
    ["a\n".toList, "b\r\n".toList, "c".toList].Sublist (Text.pieces linked.toList) := by
  obtain ⟨linked, h⟩ : ∃ linked, link? endFirst "TODO.md" = some linked := ⟨_, rfl⟩
  refine ⟨linked, h, ?_⟩
  exact (link?_keeps_outside h).2 (by decide +kernel)

/-- What follows a start marker that no end marker follows is lost. -/
theorem link?_loses_unclosed : ¬∀ readme name linked : String,
    link? readme name = some linked →
      (((spots [] (Text.pieces readme.toList)).filter Spot.outside).map Spot.line).Sublist
        (Text.pieces linked.toList) := by
  intro hkeeps
  have htail := hkeeps "<!-- TODOS_END -->\n<!-- TODOS_START -->\ntail\n" "TODO.md" _ rfl
  exact absurd htail (by decide +kernel)

end Readme

end Marginalia
