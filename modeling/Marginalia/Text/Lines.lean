/-! Cutting a text into lines. A piece keeps its line feed, a line does not. -/
namespace Marginalia.Text

/-- The text cut after each line feed. Only the last piece may lack one, and no piece is empty. -/
def pieces : List Char → List (List Char)
  | [] => []
  | c :: rest =>
    if c = '\n' then [c] :: pieces rest
    else match pieces rest with
      | [] => [[c]]
      | first :: others => (c :: first) :: others

/-- A piece without its line feed and a carriage return right before it. A piece without line
feed is kept, carriage return included. -/
def chomp (piece : List Char) : List Char :=
  match piece.reverse with
  | '\n' :: '\r' :: rest => rest.reverse
  | '\n' :: rest => rest.reverse
  | _ => piece

/-- The lines of a text. -/
def lines (s : List Char) : List (List Char) := (pieces s).map chomp

/-- No character is lost by cutting. -/
theorem flatten_pieces (s : List Char) : (pieces s).flatten = s := by
  induction s with
  | nil => rfl
  | cons c rest ih =>
    rw [pieces]
    split
    · simp [ih]
    · split <;> simp_all

end Marginalia.Text
