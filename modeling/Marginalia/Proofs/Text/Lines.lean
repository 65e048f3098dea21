import Marginalia.Proofs.Text.Trim
import Marginalia.Text.Lines

/-! A text line by line: it is empty, or a last line without a line feed, or a line with its line
feed and a text. What blanks follow a line does not matter once it is trimmed. -/
namespace Marginalia.Text

variable {body : List Char}

theorem pieces_line (h : '\n' ∉ body) (rest : List Char) :
    pieces (body ++ '\n' :: rest) = (body ++ ['\n']) :: pieces rest := by
  induction body with
  | nil => rw [List.nil_append, pieces, if_pos rfl, List.nil_append]
  | cons c body ih =>
    rw [List.mem_cons, not_or] at h
    rw [List.cons_append, pieces, if_neg (Ne.symm h.1), ih h.2]
    rfl

theorem pieces_last (hne : body ≠ []) (h : '\n' ∉ body) : pieces body = [body] := by
  induction body with
  | nil => exact absurd rfl hne
  | cons c body ih =>
    rw [List.mem_cons, not_or] at h
    rw [pieces, if_neg (Ne.symm h.1)]
    cases body with
    | nil => rfl
    | cons d body => rw [ih (by simp) h.2]

/-- Induction on the parts of a list between occurrences of an element. -/
theorem induction_on_cuts {α : Type} {P : List α → Prop} (cut : α)
    (last : ∀ body, cut ∉ body → P body)
    (line : ∀ body rest, cut ∉ body → P rest → P (body ++ cut :: rest)) (s : List α) : P s := by
  induction hlength : s.length using Nat.strongRecOn generalizing s with
  | ind n ih =>
    by_cases hs : cut ∈ s
    · obtain ⟨body, rest, rfl, hbody⟩ := List.eq_append_cons_of_mem hs
      rw [List.length_append, List.length_cons] at hlength
      exact line body rest hbody (ih rest.length (by omega) rest rfl)
    · exact last s hs

/-- The parts between occurrences of an element have elements of the list, and not this one. -/
theorem mem_of_mem_splitOn {α : Type} [BEq α] [LawfulBEq α] {cut a : α} {s part : List α}
    (h : part ∈ s.splitOn cut) (ha : a ∈ part) : a ∈ s ∧ a ≠ cut := by
  induction s using induction_on_cuts cut with
  | last body hbody =>
    rw [List.splitOn_eq_singleton hbody, List.mem_singleton] at h
    rw [h] at ha
    exact ⟨ha, fun heq => hbody (heq ▸ ha)⟩
  | line body rest hbody ih =>
    rw [List.splitOn_append_cons_self_of_not_mem hbody, List.mem_cons] at h
    rcases h with rfl | h
    · exact ⟨List.mem_append_left _ ha, fun heq => hbody (heq ▸ ha)⟩
    · exact ⟨List.mem_append_right _ (List.mem_cons_of_mem cut (ih h).1), (ih h).2⟩

theorem intercalate_cons_cons {α : Type} (cut : α) (part next : List α) (below : List (List α)) :
    [cut].intercalate (part :: next :: below) =
      part ++ cut :: [cut].intercalate (next :: below) := by
  rw [List.intercalate_cons_cons, List.append_assoc, List.singleton_append]

theorem intercalate_cons {α : Type} (cut : α) (part : List α) (below : List (List α)) :
    [cut].intercalate (part :: below) = part ++ below.flatMap (cut :: ·) := by
  induction below generalizing part with
  | nil => simp
  | cons next below ih =>
    rw [intercalate_cons_cons, ih next, List.flatMap_cons, List.cons_append]

theorem cons_intercalate {α : Type} {cut : α} {parts : List (List α)} (h : parts ≠ []) :
    cut :: [cut].intercalate parts = parts.flatMap (cut :: ·) := by
  obtain ⟨part, below, rfl⟩ := List.exists_cons_of_ne_nil h
  rw [intercalate_cons, List.flatMap_cons, List.cons_append]

/-- What is done on both sides of a cut apart is done to each of the parts that are joined. -/
theorem map_intercalate {α β : Type} {f : List α → List β} {cut : α} {cut' : β} (nil : f [] = [])
    (append : ∀ x y, f (x ++ cut :: y) = f x ++ cut' :: f y) (parts : List (List α)) :
    f ([cut].intercalate parts) = [cut'].intercalate (parts.map f) := by
  induction parts with
  | nil => exact nil
  | cons part parts ih =>
    cases parts with
    | nil => rw [List.map_singleton, List.intercalate_singleton, List.intercalate_singleton]
    | cons next parts =>
      rw [intercalate_cons_cons, append, ih, List.map_cons, List.map_cons, List.map_cons,
        intercalate_cons_cons]

/-- The parts of a list are mapped one by one when no other part gets the cut. -/
theorem splitOn_map {α β : Type} [BEq α] [LawfulBEq α] [BEq β] [LawfulBEq β]
    {f : List α → List β} {cut : α} {cut' : β} (nil : f [] = [])
    (append : ∀ x y, f (x ++ cut :: y) = f x ++ cut' :: f y)
    (notMem : ∀ x, cut ∉ x → cut' ∉ f x) (s : List α) :
    (f s).splitOn cut' = (s.splitOn cut).map f := by
  have hjoin : f s = [cut'].intercalate ((s.splitOn cut).map f) := by
    rw [← map_intercalate nil append, List.intercalate_splitOn]
  rw [hjoin]
  refine List.splitOn_intercalate _ ?_ (by simp)
  rw [List.forall_mem_map]
  exact fun part hpart => notMem part fun hmem => (mem_of_mem_splitOn hpart hmem).2 rfl

/-- Parts that are joined, seen from one of them. -/
theorem intercalate_append_cons {α : Type} (cut : α) (above : List (List α)) (part : List α)
    (below : List (List α)) :
    [cut].intercalate (above ++ part :: below) =
      above.flatMap (· ++ [cut]) ++ (part ++ below.flatMap (cut :: ·)) := by
  induction above with
  | nil => exact intercalate_cons cut part below
  | cons first above ih =>
    obtain ⟨next, rest, hrest⟩ : ∃ next rest, above ++ part :: below = next :: rest :=
      List.exists_cons_of_ne_nil (by simp)
    rw [List.cons_append, hrest, List.intercalate_cons_cons, ← hrest, ih]
    simp

/-- Induction on the lines of a text. -/
theorem induction_on_lines {P : List Char → Prop} (nil : P [])
    (last : ∀ body, body ≠ [] → '\n' ∉ body → P body)
    (line : ∀ body rest, '\n' ∉ body → P rest → P (body ++ '\n' :: rest)) (s : List Char) :
    P s := by
  induction s using induction_on_cuts '\n' with
  | last body hbody =>
    by_cases hne : body = []
    · rw [hne]
      exact nil
    · exact last body hne hbody
  | line body rest hbody ih => exact line body rest hbody ih

/-- A text can be cut in two parts behind any line feed. -/
theorem pieces_append_lineFeed (s t : List Char) :
    pieces (s ++ '\n' :: t) = pieces (s ++ ['\n']) ++ pieces t := by
  induction s using induction_on_lines with
  | nil => rfl
  | last body _ hbody =>
    rw [pieces_line hbody, pieces_line hbody []]
    rfl
  | line body rest hbody ih =>
    rw [List.append_assoc, List.cons_append, pieces_line hbody, ih, List.append_assoc,
      List.cons_append, pieces_line hbody]
    rfl

theorem exists_pieces_eq_cons {s : List Char} (h : s ≠ []) :
    ∃ first others, pieces s = first :: others := by
  apply List.exists_cons_of_ne_nil
  intro hnil
  rw [← flatten_pieces s, hnil] at h
  exact h rfl

/-- What has no line feed belongs to the first piece of the text behind it. -/
theorem pieces_append {first : List Char} {others : List (List Char)} (h : '\n' ∉ body)
    {s : List Char} (hs : pieces s = first :: others) :
    pieces (body ++ s) = (body ++ first) :: others := by
  induction body with
  | nil => exact hs
  | cons c body ih =>
    rw [List.mem_cons, not_or] at h
    rw [List.cons_append, pieces, if_neg (Ne.symm h.1), ih h.2]
    rfl

theorem isBlank_of_mem_lineFeed : ∀ c ∈ ['\n'], isBlank c = true := by
  rw [List.forall_mem_singleton]
  rfl

theorem isBlank_of_mem_lineEnd : ∀ c ∈ ['\r'] ++ ['\n'], isBlank c = true := by
  rw [List.forall_mem_append, List.forall_mem_singleton]
  exact ⟨rfl, isBlank_of_mem_lineFeed⟩

theorem chomp_line (h : body.getLast? ≠ some '\r') : chomp (body ++ ['\n']) = body := by
  rw [chomp, List.reverse_append]
  rw [List.getLast?_eq_head?_reverse] at h
  split
  · next rest heq =>
    have hreverse : body.reverse = '\r' :: rest := List.tail_eq_of_cons_eq heq
    rw [hreverse] at h
    exact absurd rfl h
  · next rest _ heq =>
    have hreverse : body.reverse = rest := List.tail_eq_of_cons_eq heq
    rw [← hreverse, List.reverse_reverse]
  · next _ h => exact absurd rfl (h body.reverse)

theorem chomp_return (body : List Char) : chomp (body ++ ['\r'] ++ ['\n']) = body := by
  rw [chomp, List.reverse_append, List.reverse_append, List.reverse_singleton,
    List.reverse_singleton, List.singleton_append, List.singleton_append]
  exact List.reverse_reverse body

/-- A line feed is needed to take anything away. -/
theorem chomp_last (h : '\n' ∉ body) : chomp body = body := by
  rw [← List.mem_reverse] at h
  rw [chomp]
  split
  · next heq => exact absurd (heq ▸ List.mem_cons_self) h
  · next heq => exact absurd (heq ▸ List.mem_cons_self) h
  · rfl

/-- A line and its piece are the same once they are trimmed. -/
theorem trim_chomp (piece : List Char) : trim (chomp piece) = trim piece := by
  have hreverse {s : List Char} (h : piece.reverse = s) : piece = s.reverse := by
    rw [← h, List.reverse_reverse]
  rw [chomp]
  split
  · next rest h =>
    rw [hreverse h, List.reverse_cons, List.reverse_cons, List.append_assoc,
      trim_append_blanks isBlank_of_mem_lineEnd]
  · next rest _ h =>
    rw [hreverse h, List.reverse_cons, trim_append_blanks isBlank_of_mem_lineFeed]
  · rfl

end Marginalia.Text
