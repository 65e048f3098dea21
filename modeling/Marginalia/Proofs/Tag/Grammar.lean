import Marginalia.Proofs.Text.Letter
import Marginalia.Tag.Finding
import Mathlib.Data.List.Basic
import Mathlib.Data.List.TakeWhile

/-! The grammar of tags, and that marks are read by it: at the front of a text a mark is read
exactly when a tag stands there, with its parts and with the rest of the text behind it. -/
namespace Marginalia

/-- A tag as it is written: its kind, the letters of its word, its label and its message. -/
structure Tag where
  kind : Kind
  spelling : List Char
  label : List Char
  message : List Char
deriving DecidableEq

namespace Tag

def Blanks (s : List Char) : Prop := ∀ c ∈ s, Text.isBlank c = true

/-- How a tag ends behind its closing parenthesis: the text there, the message, and the text
behind the tag. Whenever blanks and a colon follow they belong to the tag, as do all blanks behind
the colon and then all characters up to the next line feed. -/
inductive Ending : List Char → List Char → List Char → Prop
  | message {gap skipped message rest : List Char} (hgap : Blanks gap) (hskipped : Blanks skipped)
      (hmaximal : ∀ c ∈ (message ++ rest).head?, Text.isBlank c = false)
      (hline : '\n' ∉ message) (hend : ∀ c ∈ rest.head?, c = '\n') :
      Ending (gap ++ ':' :: (skipped ++ (message ++ rest))) message rest
  | bare {s : List Char} (hcolon : ∀ gap rest, Blanks gap → s ≠ gap ++ ':' :: rest) : Ending s [] s

/-- A tag stands at the front of a text, and the second text is what is left behind it. -/
inductive Heads (t : Tag) : List Char → List Char → Prop
  | intro {gap after rest : List Char} (hword : t.spelling.map Text.foldLetter = t.kind.word)
      (hgap : Blanks gap) (hlabel : ')' ∉ t.label) (hending : Ending after t.message rest) :
      Heads t (t.spelling ++ (gap ++ '(' :: (t.label ++ ')' :: after))) rest

def mark (t : Tag) : Mark := ⟨t.spelling, t.label, t.message⟩

theorem blanks_takeWhile (s : List Char) : Blanks (s.takeWhile Text.isBlank) :=
  fun _ hc => (List.mem_takeWhile_imp hc)

end Tag

namespace Mark

theorem isUpper_of_mem_word {k : Kind} {u : Char} (h : u ∈ k.word) : u.isUpper = true := by
  cases k <;> simp only [Kind.word, List.mem_cons, List.not_mem_nil, or_false] at h <;>
    rcases h with rfl | rfl | rfl | rfl | rfl | rfl <;> rfl

theorem isLetter_iff {u : Char} (hu : u.isUpper = true) (c : Char) :
    isLetter u c = true ↔ Text.foldLetter c = u := by
  rw [Text.foldLetter_eq_iff hu]
  simp only [isLetter, Bool.or_eq_true, Bool.and_eq_true, beq_iff_eq, or_assoc]

theorem afterWord?_eq_some_iff {word s rest : List Char} (hword : ∀ u ∈ word, u.isUpper = true) :
    afterWord? word s = some rest ↔
      ∃ spelling, s = spelling ++ rest ∧ spelling.map Text.foldLetter = word := by
  induction word generalizing s with
  | nil =>
    simp only [afterWord?, Option.some.injEq, List.map_eq_nil_iff]
    exact ⟨fun h => ⟨[], h, rfl⟩, fun ⟨_, hs, hnil⟩ => by rw [hs, hnil]; rfl⟩
  | cons u word ih =>
    have hu := hword u List.mem_cons_self
    have htail : ∀ v ∈ word, v.isUpper = true := fun v hv => hword v (List.mem_cons_of_mem u hv)
    cases s with
    | nil =>
      simp only [afterWord?, reduceCtorEq, false_iff, not_exists, not_and]
      intro spelling hs hmap
      have hnil : spelling = [] := (List.append_eq_nil_iff.mp hs.symm).1
      rw [hnil] at hmap
      exact List.cons_ne_nil _ _ hmap.symm
    | cons c s =>
      rw [afterWord?]
      constructor
      · intro h
        split at h
        · next hc =>
          obtain ⟨spelling, hs, hmap⟩ := (ih htail).mp h
          exact ⟨c :: spelling, by rw [hs, List.cons_append],
            by rw [List.map_cons, hmap, (isLetter_iff hu c).mp hc]⟩
        · exact absurd h (by simp)
      · rintro ⟨spelling, hs, hmap⟩
        cases spelling with
        | nil => exact absurd hmap (by simp)
        | cons d spelling =>
          simp only [List.cons_append, List.cons.injEq] at hs
          simp only [List.map_cons, List.cons.injEq] at hmap
          rw [if_pos ((isLetter_iff hu c).mpr (hs.1 ▸ hmap.1))]
          exact (ih htail).mpr ⟨spelling, hs.2, hmap.2⟩

theorem afterLabel_eq_iff {s message rest : List Char} :
    afterLabel s = (message, rest) ↔ Tag.Ending s message rest := by
  constructor
  · intro h
    have hs := List.takeWhile_append_dropWhile (p := Text.isBlank) (l := s)
    unfold afterLabel at h
    split at h
    · next body hbody =>
      -- The blanks behind the colon are all taken, so the message begins with none.
      let text := body.dropWhile Text.isBlank
      simp only [Prod.mk.injEq] at h
      have htext : message ++ rest = text := by
        rw [← h.1, ← h.2, List.takeWhile_append_dropWhile]
      have hfull : body = body.takeWhile Text.isBlank ++ (message ++ rest) := by
        rw [htext, List.takeWhile_append_dropWhile]
      rw [hbody, hfull] at hs
      rw [← hs]
      refine .message (Tag.blanks_takeWhile s) (Tag.blanks_takeWhile body) ?_ ?_ ?_
      · rw [htext]
        exact fun c hc => Text.head?_dropWhile_eq_false hc
      · rw [← h.1]
        intro hmem
        exact absurd (List.mem_takeWhile_imp hmem) (by decide)
      · rw [← h.2]
        intro c hc
        simpa using Text.head?_dropWhile_eq_false hc
    · next hcolon =>
      simp only [Prod.mk.injEq] at h
      rw [← h.1, ← h.2]
      refine .bare fun gap after hgap heq => hcolon after ?_
      rw [heq, Text.dropWhile_append_of_head hgap (by simp [Text.isBlank])]
  · rintro (⟨hgap, hskipped, hmaximal, hline, hend⟩ | hcolon)
    · have hmessage : ∀ c ∈ message, (c != '\n') = true := fun c hc => by
        simpa using fun h : c = '\n' => hline (h ▸ hc)
      have hrest : ∀ c ∈ rest.head?, (c != '\n') = false := fun c hc => by simpa using hend c hc
      unfold afterLabel
      rw [Text.dropWhile_append_of_head hgap (by simp [Text.isBlank])]
      simp only [Text.dropWhile_append_of_head hskipped hmaximal,
        Text.takeWhile_append_of_head hmessage hrest, Text.dropWhile_append_of_head hmessage hrest]
    · unfold afterLabel
      split
      · next body hbody =>
        have hs := List.takeWhile_append_dropWhile (p := Text.isBlank) (l := s)
        rw [hbody] at hs
        exact absurd hs.symm (hcolon _ _ (Tag.blanks_takeWhile s))
      · rfl

theorem afterKind?_eq_some_iff {s label message rest : List Char} :
    afterKind? s = some ((label, message), rest) ↔
      ∃ gap after, s = gap ++ '(' :: (label ++ ')' :: after) ∧ Tag.Blanks gap ∧ ')' ∉ label ∧
        Tag.Ending after message rest := by
  constructor
  · intro h
    unfold afterKind? at h
    split at h
    · next body hbody =>
      split at h
      · next close after hafter =>
        have hclose : close = ')' := by
          simpa using Text.head?_dropWhile_eq_false (p := (· != ')')) (s := body) (c := close)
            (by rw [hafter]; rfl)
        have hs := List.takeWhile_append_dropWhile (p := Text.isBlank) (l := s)
        have hb := List.takeWhile_append_dropWhile (p := (· != ')')) (l := body)
        simp only [Option.some.injEq, Prod.mk.injEq] at h
        obtain ⟨⟨hlabel, hmessage⟩, hrest⟩ := h
        rw [hafter, hclose, hlabel] at hb
        rw [hbody, ← hb] at hs
        refine ⟨_, after, hs.symm, Tag.blanks_takeWhile s, ?_, ?_⟩
        · rw [← hlabel]
          intro hmem
          exact absurd (List.mem_takeWhile_imp hmem) (by decide)
        · exact afterLabel_eq_iff.mp (Prod.ext hmessage hrest)
      · exact absurd h (by simp)
    · exact absurd h (by simp)
  · rintro ⟨gap, after, rfl, hgap, hlabel, hending⟩
    have hopen : ∀ c ∈ label, (c != ')') = true := fun c hc => by
      simpa using fun h : c = ')' => hlabel (h ▸ hc)
    unfold afterKind?
    rw [Text.dropWhile_append_of_head hgap (by simp [Text.isBlank])]
    simp only [Text.dropWhile_append_of_head (p := (· != ')')) (t := ')' :: after) hopen (by simp),
      Text.takeWhile_append_of_head (p := (· != ')')) (t := ')' :: after) hopen (by simp),
      afterLabel_eq_iff.mpr hending]

/-- A mark is read as one kind exactly when a tag of that kind stands there. -/
theorem readAs?_eq_some_iff {k : Kind} {s rest : List Char} {m : Mark} :
    readAs? k s = some (m, rest) ↔ Tag.Heads ⟨k, m.spelling, m.label, m.message⟩ s rest := by
  constructor
  · intro h
    simp only [readAs?, Option.bind_eq_some_iff, Option.map_eq_some_iff, Prod.mk.injEq] at h
    obtain ⟨after, hafter, ⟨⟨label, message⟩, rest'⟩, hfound, rfl, rfl⟩ := h
    obtain ⟨spelling, hs, hmap⟩ := (afterWord?_eq_some_iff fun _ => isUpper_of_mem_word).mp hafter
    obtain ⟨gap, behind, hgap, hblanks, hlabel, hending⟩ := afterKind?_eq_some_iff.mp hfound
    have hlength : spelling.length = k.word.length := by rw [← hmap, List.length_map]
    have htake : s.take k.word.length = spelling := by rw [hs, ← hlength, List.take_left]
    simp only [htake]
    rw [hs, hgap]
    exact .intro hmap hblanks hlabel hending
  · rintro @⟨gap, behind, _, hword, hgap, hlabel, hending⟩
    simp only at hword hlabel hending
    have hafter : afterWord? k.word (m.spelling ++ (gap ++ '(' :: (m.label ++ ')' :: behind))) =
        some (gap ++ '(' :: (m.label ++ ')' :: behind)) :=
      (afterWord?_eq_some_iff fun _ => isUpper_of_mem_word).mpr ⟨m.spelling, rfl, hword⟩
    have hlength : k.word.length = m.spelling.length := by rw [← hword, List.length_map]
    rw [readAs?, hafter, Option.bind_some,
      afterKind?_eq_some_iff.mpr ⟨_, _, rfl, hgap, hlabel, hending⟩, hlength, List.take_left]
    rfl

end Mark

namespace Kind

theorem word_injective {k l : Kind} (h : k.word = l.word) : k = l := by
  cases k <;> cases l <;> first | rfl | exact absurd h (by decide)

theorem mem_all (k : Kind) : k ∈ all := by
  cases k <;> simp [all]

end Kind

namespace Tag

variable {t t' : Tag} {s rest rest' : List Char}

/-- The word of a tag is all the letters at the front of the text, since a blank or a parenthesis
follows it. -/
theorem Heads.word_eq (h : t.Heads s rest) :
    t.kind.word = (s.takeWhile fun c => (Text.foldLetter c).isUpper).map Text.foldLetter := by
  obtain @⟨gap, after, _, hword, hgap, _, _⟩ := h
  rw [Text.takeWhile_append_of_head, hword]
  · intro c hc
    exact Mark.isUpper_of_mem_word (hword ▸ List.mem_map_of_mem hc)
  · intro c hc
    cases gap with
    | nil =>
      simp only [List.nil_append, List.head?_cons, Option.mem_def, Option.some.injEq] at hc
      rw [← hc]
      rfl
    | cons d gap =>
      simp only [List.cons_append, List.head?_cons, Option.mem_def, Option.some.injEq] at hc
      exact Text.isUpper_foldLetter_of_isBlank (hgap c (by simp [hc]))

/-- At most one tag stands at the front of a text, although one kind word begins another one. -/
theorem Heads.unique (h : t.Heads s rest) (h' : t'.Heads s rest') : t = t' ∧ rest = rest' := by
  -- Both words are all the letters at the front, so the kinds are the same, and a kind is read in
  -- one way.
  have hkind : t.kind = t'.kind := Kind.word_injective (h.word_eq.trans h'.word_eq.symm)
  have hread := Mark.readAs?_eq_some_iff (m := t.mark).mpr h
  have hread' := Mark.readAs?_eq_some_iff (m := t'.mark).mpr h'
  rw [hkind, hread', Option.some.injEq, Prod.mk.injEq] at hread
  obtain ⟨hmark, hrest⟩ := hread
  simp only [mark, Mark.mk.injEq] at hmark
  refine ⟨?_, hrest.symm⟩
  cases t
  cases t'
  simp_all

end Tag

/-- At the front of a text a mark is read exactly when a tag stands there. -/
theorem Mark.read?_eq_some_iff {s rest : List Char} {m : Mark} :
    Mark.read? s = some (m, rest) ↔ ∃ t : Tag, t.Heads s rest ∧ t.mark = m := by
  constructor
  · intro h
    obtain ⟨k, _, hk⟩ := List.exists_of_findSome?_eq_some h
    exact ⟨_, readAs?_eq_some_iff.mp hk, rfl⟩
  · rintro ⟨t, ht, rfl⟩
    have hread := readAs?_eq_some_iff (m := t.mark).mpr ht
    cases hfound : Mark.read? s with
    | none =>
      have hnone := List.findSome?_eq_none_iff.mp hfound t.kind (Kind.mem_all _)
      rw [hread] at hnone
      exact absurd hnone (by simp)
    | some found =>
      obtain ⟨k, _, hk⟩ := List.exists_of_findSome?_eq_some hfound
      obtain ⟨htag, hrest⟩ := (readAs?_eq_some_iff.mp hk).unique ht
      rw [← hrest, ← htag]
      rfl

theorem Mark.read?_eq_none_iff {s : List Char} :
    Mark.read? s = none ↔ ∀ t rest, ¬ Tag.Heads t s rest := by
  constructor
  · intro h t rest ht
    have hread := Mark.read?_eq_some_iff.mpr ⟨t, ht, rfl⟩
    exact absurd (h.symm.trans hread) (by simp)
  · intro h
    rw [Option.eq_none_iff_forall_ne_some]
    rintro ⟨m, rest⟩ hread
    obtain ⟨t, ht, -⟩ := Mark.read?_eq_some_iff.mp hread
    exact h t rest ht

end Marginalia
