import Marginalia.Tag.Kind
import Marginalia.Text.Blank

/-! Marks are the places in a text where a tagged comment stands: a kind word in any letter case,
blanks, a label in parentheses and, when a colon follows after blanks, a message that runs to the
next line feed. A text is read from left to right, and a mark is never part of another one. -/
namespace Marginalia

/-- A tagged comment as it is spelled: the letters of its word, its label and its message, which
is empty when there is no colon. -/
structure Mark where
  spelling : List Char
  label : List Char
  message : List Char
deriving DecidableEq

namespace Mark

/-- Whether a character is this upper-case letter in some case. The letters fold as in Unicode,
which has a third form of `S`, the long s. -/
def isLetter (upper c : Char) : Bool :=
  c == upper || c == upper.toLower || (upper == 'S' && c == Char.ofNat 0x17F)

/-- What follows a word at the front of a text. -/
def afterWord? : List Char → List Char → Option (List Char)
  | [], s => some s
  | _ :: _, [] => none
  | u :: word, c :: s => if isLetter u c then afterWord? word s else none

/-- The message that follows a label, and the rest of the text. Blanks before the colon and after it
are skipped, line feeds among them. -/
def afterLabel (s : List Char) : List Char × List Char :=
  match s.dropWhile Text.isBlank with
  | ':' :: rest =>
    let body := rest.dropWhile Text.isBlank
    (body.takeWhile (· != '\n'), body.dropWhile (· != '\n'))
  | _ => ([], s)

/-- The label and the message that follow a word, and the rest of the text. A label ends at the
first closing parenthesis, on whatever line it stands. -/
def afterKind? (s : List Char) : Option ((List Char × List Char) × List Char) :=
  match s.dropWhile Text.isBlank with
  | '(' :: body =>
    match body.dropWhile (· != ')') with
    | _ :: after =>
      let (message, rest) := afterLabel after
      some ((body.takeWhile (· != ')'), message), rest)
    | [] => none
  | _ => none

/-- The mark of one kind at the front of a text, and the rest of the text. -/
def readAs? (k : Kind) (s : List Char) : Option (Mark × List Char) :=
  (afterWord? k.word s).bind fun after =>
    (afterKind? after).map fun found =>
      (⟨s.take k.word.length, found.1.1, found.1.2⟩, found.2)

/-- The mark at the front of a text, and the rest of the text. -/
def read? (s : List Char) : Option (Mark × List Char) :=
  Kind.all.findSome? fun k => readAs? k s

/-- The kind of a mark. A word with a long s in it counts as a mark but names no kind. -/
def kind? (m : Mark) : Option Kind := Kind.ofWord? m.spelling

theorem length_dropWhile_le (p : Char → Bool) (s : List Char) :
    (s.dropWhile p).length ≤ s.length :=
  (List.dropWhile_sublist p).length_le

theorem length_afterWord? {word s rest : List Char} (h : afterWord? word s = some rest) :
    rest.length + word.length = s.length := by
  fun_induction afterWord? word s with
  | case1 => simp_all
  | case2 => simp at h
  | case3 _ _ _ _ _ ih =>
    have := ih h
    simp only [List.length_cons]
    omega
  | case4 => simp at h

theorem length_afterLabel_le (s : List Char) : (afterLabel s).2.length ≤ s.length := by
  unfold afterLabel
  split
  · next rest heq =>
    have h₁ := length_dropWhile_le Text.isBlank s
    have h₂ := length_dropWhile_le Text.isBlank rest
    have h₃ := length_dropWhile_le (· != '\n') (rest.dropWhile Text.isBlank)
    simp only [heq, List.length_cons] at h₁
    dsimp only
    omega
  · exact Nat.le_refl _

theorem length_afterKind?_lt {s rest : List Char} {found : List Char × List Char}
    (h : afterKind? s = some (found, rest)) : rest.length < s.length := by
  unfold afterKind? at h
  split at h
  · next body heq =>
    split at h
    · next after hafter =>
      have h₁ := length_dropWhile_le Text.isBlank s
      have h₂ := length_dropWhile_le (· != ')') body
      have h₃ := length_afterLabel_le after
      rw [heq, List.length_cons] at h₁
      rw [hafter, List.length_cons] at h₂
      simp only [Option.some.injEq, Prod.mk.injEq] at h
      rw [← h.2]
      omega
    · simp at h
  · simp at h

/-- Reading a mark leaves a shorter text. -/
theorem length_rest_lt {s rest : List Char} {m : Mark} (h : read? s = some (m, rest)) :
    rest.length < s.length := by
  obtain ⟨k, _, hk⟩ := List.exists_of_findSome?_eq_some h
  simp only [readAs?, Option.bind_eq_some_iff, Option.map_eq_some_iff] at hk
  obtain ⟨after, hafter, found, hfound, heq⟩ := hk
  have h₁ := length_afterWord? hafter
  have h₂ := length_afterKind?_lt hfound
  simp only [Prod.mk.injEq] at heq
  rw [← heq.2]
  omega

end Mark

/-- The marks of a text from left to right: each is the first one that begins where the one
before it has ended or later. -/
def marks (s : List Char) : List Mark :=
  match _found : Mark.read? s with
  | some (m, rest) => m :: marks rest
  | none =>
    match s with
    | [] => []
    | _ :: rest => marks rest
termination_by s.length
decreasing_by
  · exact Mark.length_rest_lt _found
  · simp

end Marginalia
