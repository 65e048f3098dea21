import Marginalia.Proofs.Tag.Pattern

/-! The tags that a text is read as. Main statement: the findings of a text are those of the one
sequence in which each tag is the leftmost that begins where the one before it has ended or
later. -/
namespace Marginalia

/-- A tag with the positions where it begins and where it has ended. -/
structure PlacedTag where
  start : Nat
  tag : Tag
  stop : Nat

/-- A tag stands in a text at its positions. -/
def TagAt (s : List Char) (p : PlacedTag) : Prop :=
  p.stop ≤ s.length ∧ p.tag.Heads (s.drop p.start) (s.drop p.stop)

/-- The tags of a text from a position on: each is the leftmost that begins where the one before it
has ended or later, and none begins behind the last one. -/
inductive LeftmostTags (s : List Char) : Nat → List PlacedTag → Prop
  | done {start : Nat} (hnone : ∀ p, TagAt s p → p.start < start) : LeftmostTags s start []
  | next {start : Nat} {p : PlacedTag} {tags : List PlacedTag} (hstart : start ≤ p.start)
      (hp : TagAt s p) (hfirst : ∀ q, TagAt s q → start ≤ q.start → p.start ≤ q.start)
      (htags : LeftmostTags s p.stop tags) : LeftmostTags s start (p :: tags)

/-- The finding that a tag stands for: none when its word has a long s. -/
def Tag.finding? (path : Path) (t : Tag) : Option Finding :=
  if Char.ofNat 0x17F ∈ t.spelling then none
  else some ⟨path, t.kind, String.ofList (Text.trim t.label), String.ofList (Text.trim t.message)⟩

namespace Tag

variable {t : Tag} {s rest : List Char}

theorem Ending.suffix {message : List Char} (h : Ending s message rest) : rest <:+ s := by
  obtain @⟨gap, skipped, message, rest, _, _, _, _, _⟩ | _ := h
  · exact ⟨gap ++ ':' :: (skipped ++ message), by simp⟩
  · exact List.suffix_refl _

/-- A tag is not empty, and the text behind it is the end of the whole text. -/
theorem Heads.suffix (h : t.Heads s rest) : rest <:+ s ∧ rest.length < s.length := by
  obtain @⟨gap, after, _, _, _, _, hending⟩ := h
  have hlength := hending.suffix.length_le
  refine ⟨hending.suffix.trans ⟨t.spelling ++ (gap ++ '(' :: (t.label ++ [')'])), by simp⟩, ?_⟩
  simp only [List.length_append, List.length_cons]
  omega

/-- A word without long s is one that names its kind, and a word with one names none. -/
theorem Heads.ofMark? (h : t.Heads s rest) (path : Path) :
    Finding.ofMark? path t.mark = t.finding? path := by
  obtain ⟨hword, _, _, _⟩ := h
  unfold Finding.ofMark? Mark.kind? Kind.ofWord? finding?
  split
  · next hlong =>
    have hnone :
        Kind.all.find? (fun k => decide (t.spelling.map Char.toUpper = k.word)) = none := by
      rw [List.find?_eq_none]
      intro k _ hk
      have hmem : Char.ofNat 0x17F ∈ t.spelling.map Char.toUpper :=
        List.mem_map.mpr ⟨_, hlong, rfl⟩
      rw [of_decide_eq_true hk] at hmem
      exact absurd (Mark.isUpper_of_mem_word hmem) (by decide)
    rw [mark, hnone]
    rfl
  · next hshort =>
    have hupper : t.spelling.map Char.toUpper = t.kind.word := by
      rw [← hword]
      refine List.map_congr_left fun c hc => ?_
      rw [Text.foldLetter, if_neg]
      exact fun hlong => hshort (hlong ▸ hc)
    have hfind : Kind.all.find? (fun k => decide (t.spelling.map Char.toUpper = k.word)) =
        some t.kind := by
      rw [hupper]
      cases t.kind <;> decide
    rw [mark, hfind]
    rfl

end Tag

theorem marks_of_read? {s rest : List Char} {m : Mark} (h : Mark.read? s = some (m, rest)) :
    marks s = m :: marks rest := by
  rw [marks]
  split
  · next m' rest' h' =>
    rw [h, Option.some.injEq, Prod.mk.injEq] at h'
    rw [h'.1, h'.2]
  · next h' =>
    rw [h] at h'
    exact absurd h' (by simp)

theorem marks_cons_of_read?_eq_none {c : Char} {s : List Char} (h : Mark.read? (c :: s) = none) :
    marks (c :: s) = marks s := by
  rw [marks]
  split
  · next h' =>
    rw [h] at h'
    exact absurd h' (by simp)
  · rfl

theorem marks_nil : marks [] = [] := by
  rw [marks]
  split
  · next m rest h =>
    exact absurd (Mark.length_rest_lt h) (by simp)
  · rfl

namespace LeftmostTags

variable {s : List Char} {start : Nat} {tags tags' : List PlacedTag}

/-- Where no tag begins at a position the tags from there on are those from the next one on. -/
theorem of_succ (hnone : ∀ p, TagAt s p → p.start ≠ start) (h : LeftmostTags s (start + 1) tags) :
    LeftmostTags s start tags := by
  cases h with
  | done hdone =>
    refine .done fun p hp => ?_
    have := hdone p hp
    have := hnone p hp
    omega
  | next hstart hp hfirst htags =>
    refine .next (by omega) hp (fun q hq hle => hfirst q hq ?_) htags
    have := hnone q hq
    omega

/-- The sequence is determined by the text. -/
theorem unique (h : LeftmostTags s start tags) (h' : LeftmostTags s start tags') :
    tags = tags' := by
  induction h generalizing tags' with
  | done hnone =>
    cases h' with
    | done => rfl
    | @next _ p _ hstart hp => exact absurd (hnone p hp) (by omega)
  | @next start p tags hstart hp hfirst _ ih =>
    cases h' with
    | done hnone => exact absurd (hnone p hp) (by omega)
    | @next _ q tags' hstart' hq hfirst' htags' =>
      have hbegin : p.start = q.start :=
        Nat.le_antisymm (hfirst q hq hstart') (hfirst' p hp hstart)
      obtain ⟨htag, hdrop⟩ := hp.2.unique (hbegin ▸ hq.2)
      have hend : p.stop = q.stop := by
        have hlength := congrArg List.length hdrop
        have := hp.1
        have := hq.1
        simp only [List.length_drop] at hlength
        omega
      have hpq : p = q := by
        cases p
        cases q
        simp_all
      rw [hpq, ih (hend ▸ htags')]

theorem tagAt (h : LeftmostTags s start tags) : ∀ p ∈ tags, TagAt s p := by
  induction h with
  | done => simp
  | next _ hp _ _ ih =>
    intro q hq
    rcases List.mem_cons.mp hq with rfl | hq
    · exact hp
    · exact ih q hq

theorem start_le (h : LeftmostTags s start tags) : ∀ p ∈ tags, start ≤ p.start := by
  induction h with
  | done => simp
  | @next start p tags hstart hp _ _ ih =>
    intro q hq
    have hlt := hp.2.suffix.2
    have := hp.1
    simp only [List.length_drop] at hlt
    rcases List.mem_cons.mp hq with rfl | hq
    · exact hstart
    · have := ih q hq
      omega

/-- No two tags of the sequence overlap, and they stand in the order of the text. -/
theorem pairwise (h : LeftmostTags s start tags) : tags.Pairwise fun p q => p.stop ≤ q.start := by
  induction h with
  | done => exact .nil
  | next _ _ _ htags ih => exact .cons htags.start_le ih

/-- Reading marks from left to right finds the sequence. -/
theorem exists_marks (s : List Char) : ∀ start, ∃ tags, LeftmostTags s start tags ∧
    tags.map (·.tag.mark) = marks (s.drop start) := by
  -- The induction is on the length of what is still to be read.
  suffices h : ∀ n start, s.length - start ≤ n → ∃ tags, LeftmostTags s start tags ∧
      tags.map (·.tag.mark) = marks (s.drop start) from
    fun start => h (s.length - start) start le_rfl
  intro n
  induction n with
  | zero =>
    intro start hn
    have hdrop : s.drop start = [] := List.drop_eq_nil_of_le (by omega)
    refine ⟨[], .done fun p hp => ?_, by rw [hdrop, marks_nil]; rfl⟩
    have hlt := hp.2.suffix.2
    simp only [List.length_drop] at hlt
    omega
  | succ n ih =>
    intro start hn
    cases hread : Mark.read? (s.drop start) with
    | some found =>
      obtain ⟨m, rest⟩ := found
      obtain ⟨t, ht, hmark⟩ := Mark.read?_eq_some_iff.mp hread
      have hlt := ht.suffix.2
      have hrest : rest = s.drop (s.length - rest.length) :=
        List.suffix_iff_eq_drop.mp (ht.suffix.1.trans (List.drop_suffix start s))
      simp only [List.length_drop] at hlt
      let p : PlacedTag := ⟨start, t, s.length - rest.length⟩
      have hp : TagAt s p := ⟨Nat.sub_le _ _, by simpa only [p, ← hrest] using ht⟩
      obtain ⟨tags, htags, hmarks⟩ := ih p.stop (by simp only [p]; omega)
      refine ⟨p :: tags, .next le_rfl hp (fun q _ hq => hq) htags, ?_⟩
      rw [List.map_cons, hmarks, marks_of_read? hread, ← hmark, ← hrest]
    | none =>
      have hnone : ∀ p, TagAt s p → p.start ≠ start := by
        rintro p hp rfl
        exact Mark.read?_eq_none_iff.mp hread p.tag _ hp.2
      obtain ⟨tags, htags, hmarks⟩ := ih (start + 1) (by omega)
      refine ⟨tags, htags.of_succ hnone, ?_⟩
      rw [hmarks]
      by_cases hlen : start < s.length
      · rw [List.drop_eq_getElem_cons hlen] at hread ⊢
        exact (marks_cons_of_read?_eq_none hread).symm
      · rw [List.drop_eq_nil_of_le (by omega), List.drop_eq_nil_of_le (by omega)]

end LeftmostTags

/-- The findings of a text are those of its leftmost tags, which are determined by the text and do
not overlap. A tag stands at a position exactly when the pattern matches there, with the same parts
and the same text behind it. -/
theorem ofText_eq_leftmost_tags (path : Path) (s : List Char) :
    (∀ start rest m, (∃ t : Tag, t.Heads (s.drop start) rest ∧ t.mark = m) ↔
      ∃ w, Pattern.tag.first? (s.drop start) = some w ∧ w.mark = m ∧ w.rest = rest) ∧
    ∃ tags, LeftmostTags s 0 tags ∧ (∀ tags', LeftmostTags s 0 tags' → tags' = tags) ∧
      tags.Pairwise (fun p q => p.stop ≤ q.start) ∧
      Finding.ofText path s = tags.filterMap fun p => p.tag.finding? path := by
  refine ⟨fun start rest m => Tag.heads_iff_first?_tag, ?_⟩
  obtain ⟨tags, htags, hmarks⟩ := LeftmostTags.exists_marks s 0
  refine ⟨tags, htags, fun tags' h => h.unique htags, htags.pairwise, ?_⟩
  rw [List.drop_zero] at hmarks
  rw [Finding.ofText, ← hmarks, List.filterMap_map]
  exact List.filterMap_congr fun p hp => (htags.tagAt p hp).2.ofMark? path

end Marginalia
