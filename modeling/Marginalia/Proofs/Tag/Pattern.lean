import Marginalia.Proofs.Tag.Grammar

/-! The pattern by which tags are found, matched by backtracking. Main statement: the first way
through the pattern at the front of a text is the mark that is read there. -/
namespace Marginalia

/-- Patterns of texts. The parts of a text that a group covers are kept under its number. -/
inductive Pattern where
  | empty
  | one (p : Char → Bool)
  | many (p : Char → Bool)
  | seq (a b : Pattern)
  | either (a b : Pattern)
  | group (number : Nat) (a : Pattern)

/-- A way through a pattern: what its groups have kept, and the text behind the match. -/
structure Way where
  kept : List (Nat × List Char)
  rest : List Char

namespace Way

/-- The text that a group has kept, empty when the way does not go through the group. -/
def text (w : Way) (number : Nat) : List Char := (w.kept.lookup number).getD []

/-- The mark whose parts the first three groups have kept. -/
def mark (w : Way) : Mark := ⟨w.text 1, w.text 2, w.text 3⟩

end Way

namespace Pattern

/-- The texts behind the characters of a class at the front of a text, fewest left first. -/
def behindMany (p : Char → Bool) : List Char → List (List Char)
  | [] => [[]]
  | c :: s => if p c then behindMany p s ++ [c :: s] else [c :: s]

/-- The ways through a pattern from the front of a text, the preferred ones first: a repetition
takes as much as it can, and of two alternatives the left one is tried before the right one. -/
def ways : Pattern → List Char → List Way
  | empty, s => [⟨[], s⟩]
  | one _, [] => []
  | one p, c :: s => if p c then [⟨[], s⟩] else []
  | many p, s => (behindMany p s).map fun rest => ⟨[], rest⟩
  | seq a b, s => (a.ways s).flatMap fun w =>
      (b.ways w.rest).map fun w' => ⟨w.kept ++ w'.kept, w'.rest⟩
  | either a b, s => a.ways s ++ b.ways s
  | group number a, s => (a.ways s).map fun w =>
      ⟨w.kept ++ [(number, s.take (s.length - w.rest.length))], w.rest⟩

/-- The way that is preferred to all others. -/
def first? (a : Pattern) (s : List Char) : Option Way := (a.ways s).head?

def word (letters : List Char) : Pattern :=
  letters.foldr (fun u a => seq (one (Mark.isLetter u)) a) empty

/-- The words of all kinds, in the order of the kinds. -/
def kinds : List Kind → Pattern
  | [] => one fun _ => false
  | k :: ks => either (word k.word) (kinds ks)

def blanks : Pattern := many Text.isBlank

def sign (c : Char) : Pattern := one (· == c)

/-- Blanks, a colon, blanks, and the third group up to the end of the line, or nothing. -/
def ending : Pattern :=
  either (seq blanks (seq (sign ':') (seq blanks (group 3 (many (· != '\n')))))) empty

/-- Blanks, the second group in parentheses, and the ending. -/
def behindWord : Pattern :=
  seq blanks (seq (sign '(') (seq (group 2 (many (· != ')'))) (seq (sign ')') ending)))

/-- The pattern of a tag, with the word as its first group. -/
def tag : Pattern := seq (group 1 (kinds Kind.all)) behindWord

variable {a b : Pattern} {p : Char → Bool} {c : Char} {s : List Char}

theorem behindMany_cons (p : Char → Bool) (c : Char) (s : List Char) :
    behindMany p (c :: s) = if p c then behindMany p s ++ [c :: s] else [c :: s] := rfl

theorem ways_one_cons (p : Char → Bool) (c : Char) (s : List Char) :
    (one p).ways (c :: s) = if p c then [⟨[], s⟩] else [] := rfl

theorem ways_many (p : Char → Bool) (s : List Char) :
    (many p).ways s = (behindMany p s).map fun rest => ⟨[], rest⟩ := rfl

theorem ways_seq (a b : Pattern) (s : List Char) :
    (seq a b).ways s = (a.ways s).flatMap fun w =>
      (b.ways w.rest).map fun w' => ⟨w.kept ++ w'.kept, w'.rest⟩ := rfl

theorem ways_either (a b : Pattern) (s : List Char) :
    (either a b).ways s = a.ways s ++ b.ways s := rfl

theorem ways_group (number : Nat) (a : Pattern) (s : List Char) :
    (group number a).ways s = (a.ways s).map fun w =>
      ⟨w.kept ++ [(number, s.take (s.length - w.rest.length))], w.rest⟩ := rfl

theorem first?_seq : (seq a b).first? s = (a.ways s).findSome? fun w =>
    (b.first? w.rest).map fun w' => ⟨w.kept ++ w'.kept, w'.rest⟩ := by
  simp only [first?, ways_seq, List.head?_flatMap, List.head?_map]

theorem first?_either : (either a b).first? s = (a.first? s).or (b.first? s) := by
  simp only [first?, ways_either, List.head?_append]

theorem first?_seq_of_some {w w' : Way} (ha : a.first? s = some w)
    (hb : b.first? w.rest = some w') :
    (seq a b).first? s = some ⟨w.kept ++ w'.kept, w'.rest⟩ := by
  obtain ⟨tail, htail⟩ := List.head?_eq_some_iff.mp ha
  rw [first?_seq, htail]
  simp only [List.findSome?_cons, hb, Option.map_some]

theorem first?_sign_seq_cons (c : Char) (a : Pattern) (s : List Char) :
    (seq (sign c) a).first? (c :: s) = a.first? s := by
  rw [first?_seq, sign, ways_one_cons, if_pos (beq_self_eq_true c), List.findSome?_singleton]
  cases a.first? s <;> rfl

theorem first?_sign_seq_of_head? (h : s.head? ≠ some c) : (seq (sign c) a).first? s = none := by
  rw [first?_seq]
  cases s with
  | nil => rfl
  | cons d s =>
    have hd : (d == c) = false := by simpa using h
    rw [sign, ways_one_cons, hd]
    rfl

/-- Where a repetition could take one more character, no sign follows that it cannot take. -/
theorem first?_sign_seq_of_class {d : Char} (hc : p c = false) (hd : p d = true) (a : Pattern)
    (s : List Char) : (seq (sign c) a).first? (d :: s) = none := by
  apply first?_sign_seq_of_head?
  rintro heq
  rw [Option.some.inj heq, hc] at hd
  exact absurd hd (by simp)

/-- What fails wherever one more character could have been taken is tried behind all of them. -/
theorem findSome?_behindMany {β : Type} {f : List Char → Option β}
    (hf : ∀ c s, p c = true → f (c :: s) = none) (s : List Char) :
    (behindMany p s).findSome? f = f (s.dropWhile p) := by
  induction s with
  | nil => simp [behindMany]
  | cons c s ih =>
    rw [behindMany_cons]
    split
    · next hc =>
      rw [List.findSome?_append, ih, List.dropWhile_cons_of_pos hc]
      simp only [List.findSome?_cons, hf c s hc, List.findSome?_nil, Option.or_none]
    · next hc =>
      rw [List.dropWhile_cons_of_neg hc]
      cases hfound : f (c :: s) <;> simp [hfound]

theorem head?_behindMany (p : Char → Bool) (s : List Char) :
    (behindMany p s).head? = some (s.dropWhile p) := by
  induction s with
  | nil => rfl
  | cons c s ih =>
    rw [behindMany_cons]
    split
    · next hc => rw [List.head?_append, ih, Option.some_or, List.dropWhile_cons_of_pos hc]
    · next hc => rw [List.head?_cons, List.dropWhile_cons_of_neg hc]

/-- A sign behind a repetition that cannot take it comes behind the whole repetition. -/
theorem first?_many_seq_sign (hc : p c = false) (a : Pattern) (s : List Char) :
    (seq (many p) (seq (sign c) a)).first? s = (seq (sign c) a).first? (s.dropWhile p) := by
  rw [first?_seq, ways_many, List.findSome?_map]
  refine (findSome?_behindMany (fun d s hd => ?_) s).trans ?_
  · simp only [Function.comp_apply, first?_sign_seq_of_class hc hd, Option.map_none]
  · simp only [Function.comp_apply, List.nil_append]
    cases (seq (sign c) a).first? (s.dropWhile p) <;> rfl

theorem take_length_sub_dropWhile (p : Char → Bool) (s : List Char) :
    s.take (s.length - (s.dropWhile p).length) = s.takeWhile p := by
  have hlength : (s.takeWhile p).length + (s.dropWhile p).length = s.length := by
    rw [← List.length_append, List.takeWhile_append_dropWhile]
  have hlong : s.length - (s.dropWhile p).length = (s.takeWhile p).length := by omega
  rw [hlong]
  exact (List.prefix_iff_eq_take.mp (List.takeWhile_prefix p)).symm

/-- So a group around such a repetition keeps all characters of the class. -/
theorem first?_group_many_seq_sign (number : Nat) (hc : p c = false) (a : Pattern)
    (s : List Char) :
    (seq (group number (many p)) (seq (sign c) a)).first? s =
      ((seq (sign c) a).first? (s.dropWhile p)).map fun w =>
        ⟨(number, s.takeWhile p) :: w.kept, w.rest⟩ := by
  rw [first?_seq, ways_group, ways_many, List.map_map, List.findSome?_map]
  refine (findSome?_behindMany (fun d s hd => ?_) s).trans ?_
  · simp only [Function.comp_apply, first?_sign_seq_of_class hc hd, Option.map_none]
  · simp only [Function.comp_apply, take_length_sub_dropWhile]
    rfl

theorem first?_group_many (number : Nat) (p : Char → Bool) (s : List Char) :
    (group number (many p)).first? s = some ⟨[(number, s.takeWhile p)], s.dropWhile p⟩ := by
  rw [first?, ways_group, ways_many, List.head?_map, List.head?_map, head?_behindMany]
  simp only [Option.map_some, take_length_sub_dropWhile, List.nil_append]

/-- The ending always matches. It is empty only where no colon follows the blanks. -/
theorem first?_ending (s : List Char) :
    ∃ w, ending.first? s = some w ∧ (w.text 3, w.rest) = Mark.afterLabel s := by
  rw [ending, first?_either, blanks, first?_many_seq_sign (by decide), Mark.afterLabel]
  split
  · next rest hrest =>
    rw [hrest, first?_sign_seq_cons]
    -- Behind the colon everything matches, so the greedy ways are the first ones.
    have hblanks : (many Text.isBlank).first? rest = some ⟨[], rest.dropWhile Text.isBlank⟩ := by
      rw [first?, ways_many, List.head?_map, head?_behindMany, Option.map_some]
    rw [first?_seq_of_some hblanks (first?_group_many 3 _ _)]
    exact ⟨_, rfl, rfl⟩
  · next hcolon =>
    have hhead : (s.dropWhile Text.isBlank).head? ≠ some ':' := by
      intro hhead
      obtain ⟨rest, hrest⟩ := List.head?_eq_some_iff.mp hhead
      exact hcolon rest hrest
    rw [first?_sign_seq_of_head? hhead]
    exact ⟨_, rfl, rfl⟩

theorem first?_behindWord (s : List Char) :
    (behindWord.first? s).map (fun w => ((w.text 2, w.text 3), w.rest)) = Mark.afterKind? s := by
  rw [behindWord, blanks, first?_many_seq_sign (by decide), Mark.afterKind?]
  split
  · next body hbody =>
    rw [hbody, first?_sign_seq_cons, first?_group_many_seq_sign 2 (by decide)]
    split
    · next close after hafter =>
      have hclose : close = ')' := by
        simpa using Text.head?_dropWhile_eq_false (p := (· != ')')) (s := body) (c := close)
          (by rw [hafter]; rfl)
      obtain ⟨w, hw, hending⟩ := first?_ending after
      rw [hafter, hclose, first?_sign_seq_cons, hw, ← hending]
      rfl
    · next hnil =>
      rw [hnil]
      rfl
  · next hparen =>
    have hhead : (s.dropWhile Text.isBlank).head? ≠ some '(' := by
      intro hhead
      obtain ⟨rest, hrest⟩ := List.head?_eq_some_iff.mp hhead
      exact hparen rest hrest
    rw [first?_sign_seq_of_head? hhead]
    rfl

/-- There is at most one way through a word. -/
theorem ways_word (letters s : List Char) :
    (word letters).ways s = (Mark.afterWord? letters s).toList.map fun rest => ⟨[], rest⟩ := by
  induction letters generalizing s with
  | nil => rfl
  | cons u letters ih =>
    cases s with
    | nil => rfl
    | cons c s =>
      have hword : word (u :: letters) = seq (one (Mark.isLetter u)) (word letters) := rfl
      rw [hword, ways_seq, ways_one_cons, Mark.afterWord?]
      split
      · simp [ih]
      · rfl

theorem ways_group_kinds (ks : List Kind) (s : List Char) :
    (group 1 (kinds ks)).ways s = ks.flatMap fun k =>
      (Mark.afterWord? k.word s).toList.map fun rest => ⟨[(1, s.take k.word.length)], rest⟩ := by
  induction ks with
  | nil => cases s <;> rfl
  | cons k ks ih =>
    rw [List.flatMap_cons, ← ih, ways_group, ways_group, kinds, ways_either, List.map_append,
      ways_word]
    congr 1
    cases hafter : Mark.afterWord? k.word s with
    | none => rfl
    | some rest =>
      have hlength := Mark.length_afterWord? hafter
      have htake : s.length - rest.length = k.word.length := by omega
      simp [htake]

/-- The preferred way through the pattern of a tag keeps the parts of the mark that is read. -/
theorem first?_tag (s : List Char) :
    (tag.first? s).map (fun w => (w.mark, w.rest)) = Mark.read? s := by
  rw [tag, first?, ways_seq, ways_group_kinds, List.flatMap_assoc, List.head?_flatMap,
    List.map_findSome?, Mark.read?]
  congr 1
  funext k
  rw [Function.comp_apply, Mark.readAs?]
  cases Mark.afterWord? k.word s with
  | none => rfl
  | some after =>
    simp only [Option.toList_some, List.map_cons, List.map_nil, List.flatMap_cons, List.flatMap_nil,
      List.append_nil, List.head?_map, Option.bind_some, ← first?_behindWord, first?,
      Option.map_map]
    rfl

end Pattern

/-- The tags at the front of a text are what the pattern matches there. -/
theorem Tag.heads_iff_first?_tag {s rest : List Char} {m : Mark} :
    (∃ t : Tag, t.Heads s rest ∧ t.mark = m) ↔
      ∃ w, Pattern.tag.first? s = some w ∧ w.mark = m ∧ w.rest = rest := by
  rw [← Mark.read?_eq_some_iff, ← Pattern.first?_tag, Option.map_eq_some_iff]
  simp only [Prod.mk.injEq]

end Marginalia
