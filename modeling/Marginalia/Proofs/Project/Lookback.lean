import Marginalia.Proofs.Project.Outside

/-! A linked readme, described line by line without going through it in order. What is written for
a line follows from the line and from the nearest marker above it, and the markers are the same
with line ends and without them. -/
namespace Marginalia.Readme

variable {name readme : String} {above lines : List (List Char)}

/-- What is written for a line in its place: the start marker with the link, the end marker, or the
line itself unless the nearest marker above it is a start marker. -/
def Spot.written (name : String) (t : Spot) : List Char :=
  match lineKind t.line with
  | .start => opening name
  | .finish => closing
  | .other => if lastMarker? t.above = some .start then [] else t.line

theorem map_line_spots (above lines : List (List Char)) :
    (spots above lines).map Spot.line = lines := by
  induction lines generalizing above with
  | nil => rfl
  | cons line below ih => rw [spots, List.map_cons, ih]

/-- The block is open exactly where the nearest marker above is a start marker. -/
theorem linked_eq_flatMap_spots (name : String) (above lines : List (List Char)) :
    linked name (lastMarker? above = some .start) lines =
      (spots above lines).flatMap (Spot.written name) := by
  induction lines generalizing above with
  | nil => rfl
  | cons line below ih =>
    have hbelow := ih (above ++ [line])
    rw [lastMarker?_append_singleton] at hbelow
    rw [spots, List.flatMap_cons, ← hbelow, linked]
    cases hkind : lineKind line with
    | start => simp [Spot.written, hkind, opening]
    | finish => simp [Spot.written, hkind, closing]
    | other => simp [Spot.written, hkind]

/-- A line is the same marker with its line end and without it. -/
theorem map_lineKind_lines (s : List Char) :
    (Text.lines s).map lineKind = (Text.pieces s).map lineKind := by
  rw [Text.lines, List.map_map]
  apply List.map_congr_left
  intro piece _
  exact lineKind_of_trim_eq (Text.trim_chomp piece)

/-- The link of a readme line by line. Nothing is linked when no line is a start marker or no line
is an end marker apart from the blanks around it. Else each line is written by itself, looking back
to the nearest marker above it; the lines with those above them and below them are all lines of the
readme in order. Whether line ends are kept makes no difference for what the markers are. -/
theorem link?_eq_lookback (readme name : String) :
    (link? readme name =
      if (∀ line ∈ Text.lines readme.toList, Text.trim line ≠ startMarker.toList) ∨
          (∀ line ∈ Text.lines readme.toList, Text.trim line ≠ endMarker.toList) then none
      else some (String.ofList
        ((spots [] (Text.pieces readme.toList)).flatMap (Spot.written name)))) ∧
    (spots [] (Text.pieces readme.toList)).map Spot.line = Text.pieces readme.toList ∧
    (∀ t ∈ spots [] (Text.pieces readme.toList),
      t.above ++ t.line :: t.below = Text.pieces readme.toList) ∧
    (Text.pieces readme.toList).flatten = readme.toList ∧
    (Text.lines readme.toList).map lineKind = (Text.pieces readme.toList).map lineKind := by
  refine ⟨?_, map_line_spots _ _, ?_, Text.flatten_pieces _, map_lineKind_lines _⟩
  swap
  · intro t ht
    exact (append_eq_of_mem_spots ht).symm
  cases hlink : link? readme name with
  | none => rw [if_pos ((link?_eq_none_iff name).mp hlink)]
  | some linked =>
    have hsome : link? readme name ≠ none := by simp [hlink]
    obtain ⟨-, -, hlinked⟩ := link?_eq_some_iff.mp hlink
    rw [if_neg (mt (link?_eq_none_iff name).mpr hsome), hlinked, relink]
    exact congrArg (fun s => some (String.ofList s))
      (linked_eq_flatMap_spots name [] (Text.pieces readme.toList))

end Marginalia.Readme
