import Marginalia.Proofs.Tag.Leftmost
import Marginalia.Proofs.Text.Trim

/-! Tags that are written out and read back. Main statement: a finding that is written as a tag,
behind a text in which no tag begins, is the only finding there. -/
namespace Marginalia

/-- A text in which no kind word is followed by blanks and an opening parenthesis. -/
def Quiet (p : List Char) : Prop :=
  ∀ (k : Kind) (spelling gap : List Char), spelling.map Text.foldLetter = k.word →
    Tag.Blanks gap → ¬ spelling ++ (gap ++ ['(']) <:+: p

/-- A finding whose parts a tag can hold: both are trimmed, the label ends where it is closed, and
the message is one line. -/
structure Finding.Writable (f : Finding) : Prop where
  label : Text.Trimmed f.label.toList
  closed : ')' ∉ f.label.toList
  message : Text.Trimmed f.message.toList
  line : '\n' ∉ f.message.toList

theorem Quiet.of_notMem {p : List Char} (h : '(' ∉ p) : Quiet p := by
  intro k spelling gap _ _ hinfix
  apply h
  apply hinfix.subset
  simp

namespace Kind

variable {k l : Kind}

theorem foldLetter_of_mem_word {u : Char} (hu : u ∈ k.word) : Text.foldLetter u = u :=
  (Text.foldLetter_eq_iff (Mark.isUpper_of_mem_word hu) u).mpr (.inl rfl)

theorem map_foldLetter_word (k : Kind) : k.word.map Text.foldLetter = k.word :=
  (List.map_congr_left fun _ => foldLetter_of_mem_word).trans (List.map_id _)

/-- No kind word ends another one. -/
theorem eq_of_word_suffix (h : k.word <:+ l.word) : k = l := by
  cases k <;> cases l <;> first | rfl | exact absurd h (by decide)

/-- A kind word begins neither with a blank nor with a parenthesis. -/
theorem exists_word_eq_cons (k : Kind) :
    ∃ u rest, k.word = u :: rest ∧ Text.isBlank u = false ∧ u ≠ '(' := by
  cases k <;> exact ⟨_, _, rfl, rfl, by decide⟩

end Kind

/-- The letters that kind words are made of, in any case. -/
def isWordLetter (c : Char) : Bool := (Text.foldLetter c).isUpper

variable {p s rest : List Char} {t : Tag} {f : Finding} {path : Path}

/-- A word that went on from the text before into a kind word would end with that word. -/
theorem not_heads_of_letters {b : List Char} (hb : ∀ c ∈ b, isWordLetter c = true) (hne : b ≠ [])
    (k : Kind) (more : List Char) : ¬ t.Heads (b ++ (k.word ++ '(' :: more)) rest := by
  intro h
  have hletters : ∀ c ∈ b ++ k.word, isWordLetter c = true := by
    rw [List.forall_mem_append]
    refine ⟨hb, ?_⟩
    intro c hc
    rw [isWordLetter, Kind.foldLetter_of_mem_word hc]
    exact Mark.isUpper_of_mem_word hc
  -- The word of a tag is the longest row of letters, which ends at the parenthesis.
  have htake : (b ++ (k.word ++ '(' :: more)).takeWhile isWordLetter = b ++ k.word := by
    rw [← List.append_assoc]
    exact Text.takeWhile_append_of_head hletters (by simp [isWordLetter, Text.foldLetter])
  have hword : t.kind.word = b.map Text.foldLetter ++ k.word := by
    have hmap := congrArg (List.map Text.foldLetter) htake
    rw [List.map_append, k.map_foldLetter_word] at hmap
    exact h.word_eq.trans hmap
  have hkind : k = t.kind := Kind.eq_of_word_suffix ⟨_, hword.symm⟩
  have hlength := congrArg List.length hword
  rw [← hkind, List.length_append, List.length_map] at hlength
  have hpos := List.length_pos_of_ne_nil hne
  omega

/-- Blanks and a parenthesis that begin before a kind word end before it. -/
theorem opening_prefix {r gap after more : List Char} {k : Kind} (hgap : Tag.Blanks gap)
    (h : r ++ (k.word ++ more) = gap ++ '(' :: after) : gap ++ ['('] <+: r := by
  obtain ⟨u, others, hu, hblank, hopen⟩ := k.exists_word_eq_cons
  rw [hu] at h
  obtain ⟨d, hlong, hd⟩ | ⟨d, hinside, hd⟩ := List.append_eq_append_iff.mp h
  · -- The first letter would be a blank of the gap, or the parenthesis.
    cases d with
    | nil => exact absurd (List.cons.inj hd).1 hopen
    | cons x d =>
      have hx : Text.isBlank x = true := hgap x (by simp [hlong])
      rw [← (List.cons.inj hd).1, hblank] at hx
      exact absurd hx (by simp)
  · cases d with
    | nil => exact absurd (List.cons.inj hd).1.symm hopen
    | cons x d =>
      obtain ⟨rfl, -⟩ := List.cons.inj hd
      exact ⟨d, by rw [hinside]; simp⟩

/-- No tag begins in a quiet text that a kind word and a parenthesis follow. -/
theorem Quiet.not_heads {b : List Char} (hp : Quiet p) (hb : b <:+ p) (hne : b ≠ []) (k : Kind)
    (more : List Char) : ¬ t.Heads (b ++ (k.word ++ '(' :: more)) rest := by
  by_cases hall : ∀ c ∈ b, isWordLetter c = true
  · exact not_heads_of_letters hall hne k more
  intro h
  -- The word of the tag ends within `b`, where something else than a letter stands.
  have hsplit := List.takeWhile_append_dropWhile (p := isWordLetter) (l := b)
  obtain ⟨c, r, hdrop⟩ := List.exists_cons_of_ne_nil (mt List.dropWhile_eq_nil_iff.mp hall)
  have hc : isWordLetter c = false :=
    Text.head?_dropWhile_eq_false (s := b) (by rw [hdrop]; rfl)
  have hletters : ∀ c ∈ b.takeWhile isWordLetter, isWordLetter c = true :=
    fun _ => List.mem_takeWhile_imp
  generalize b.takeWhile isWordLetter = w at hsplit hletters
  rw [hdrop] at hsplit
  subst hsplit
  rw [List.append_assoc] at h
  have htake : (w ++ (c :: r ++ (k.word ++ '(' :: more))).takeWhile isWordLetter = w :=
    Text.takeWhile_append_of_head hletters (by simp [hc])
  have hword : t.kind.word = w.map Text.foldLetter :=
    h.word_eq.trans (congrArg (List.map Text.foldLetter) htake)
  generalize htext : w ++ (c :: r ++ (k.word ++ '(' :: more)) = text at h
  obtain @⟨gap, after, _, hspelling, hgap, _, _⟩ := h
  have hlength : w.length = t.spelling.length := by
    have := congrArg List.length (hspelling.trans hword)
    simpa using this.symm
  obtain ⟨rfl, hbehind⟩ := List.append_inj htext hlength
  obtain ⟨d, hinside⟩ := opening_prefix hgap hbehind
  refine hp t.kind t.spelling gap hspelling hgap (List.IsInfix.trans ?_ hb.isInfix)
  exact ⟨[], d, by rw [← hinside]; simp⟩

/-- Marks are read behind a text in which none begins as if it were not there. -/
theorem marks_append_of_not_heads
    (h : ∀ b, b <:+ p → b ≠ [] → ∀ t rest, ¬ Tag.Heads t (b ++ s) rest) :
    marks (p ++ s) = marks s := by
  induction p with
  | nil => rfl
  | cons c p ih =>
    have hnone : Mark.read? (c :: (p ++ s)) = none :=
      Mark.read?_eq_none_iff.mpr (h (c :: p) (List.suffix_refl _) (by simp))
    rw [List.cons_append, marks_cons_of_read?_eq_none hnone]
    apply ih
    intro b hb
    exact h b (hb.trans (List.suffix_cons c p))

namespace Finding

/-- A finding as a tag whose word is spelled in upper case. -/
def tag (f : Finding) : Tag := ⟨f.kind, f.kind.word, f.label.toList, f.message.toList⟩

theorem toList_tagText (f : Finding) :
    f.tagText.toList = f.kind.word ++ '(' :: (f.label.toList ++
      ')' :: (if f.message.isEmpty then [] else ':' :: ' ' :: f.message.toList)) := by
  rw [tagText]
  split <;> simp [Kind.name]

namespace Writable

/-- The text of a finding is a tag with its parts, and nothing is left behind it. -/
theorem heads_tagText (h : f.Writable) : f.tag.Heads f.tagText.toList [] := by
  have hending : Tag.Ending (if f.message.isEmpty then [] else ':' :: ' ' :: f.message.toList)
      f.message.toList [] := by
    split
    · next hempty =>
      have hnil : f.message.toList = [] := by simpa using hempty
      rw [hnil]
      exact .bare (by simp)
    · have hparts : ' ' :: f.message.toList = [' '] ++ (f.message.toList ++ []) := by simp
      rw [hparts]
      refine @Tag.Ending.message [] [' '] _ [] (by simp [Tag.Blanks]) ?_ ?_ h.line (by simp)
      · intro c hc
        rw [List.mem_singleton.mp hc]
        rfl
      · rw [List.append_nil]
        exact h.message.1
  rw [f.toList_tagText]
  exact @Tag.Heads.intro f.tag [] _ [] f.kind.map_foldLetter_word (by simp [Tag.Blanks]) h.closed
    hending

theorem finding?_tag (h : f.Writable) : f.tag.finding? f.path = some f := by
  have hshort : Char.ofNat 0x17F ∉ f.tag.spelling := by
    intro hlong
    exact absurd (Mark.isUpper_of_mem_word hlong) (by decide)
  rw [Tag.finding?, if_neg hshort]
  simp only [tag, h.label.trim_eq, h.message.trim_eq, String.ofList_toList]

/-- A finding that is written behind a quiet text is the only one there. -/
theorem ofText_append (h : f.Writable) (hp : Quiet p) :
    ofText f.path (p ++ f.tagText.toList) = [f] := by
  have hbefore : marks (p ++ f.tagText.toList) = marks f.tagText.toList := by
    apply marks_append_of_not_heads
    intro b hb hne t rest
    rw [f.toList_tagText]
    exact hp.not_heads hb hne f.kind _
  have hread := Mark.read?_eq_some_iff.mpr ⟨f.tag, h.heads_tagText, rfl⟩
  rw [ofText, hbefore, marks_of_read? hread, marks_nil]
  rw [List.filterMap_cons_some ((h.heads_tagText.ofMark? f.path).trans h.finding?_tag)]
  rfl

end Writable

/-- Each finding of a text is that of a tag in it. -/
theorem exists_heads_of_mem_ofText (h : f ∈ ofText path s) :
    ∃ t start rest, Tag.Heads t (s.drop start) rest ∧ t.finding? path = some f := by
  obtain ⟨tags, htags, hmarks⟩ := LeftmostTags.exists_marks s 0
  rw [List.drop_zero] at hmarks
  rw [ofText, ← hmarks, List.filterMap_map] at h
  obtain ⟨p, hp, hfound⟩ := List.mem_filterMap.mp h
  have ht := (htags.tagAt p hp).2
  exact ⟨p.tag, p.start, _, ht, (ht.ofMark? path).symm.trans hfound⟩

end Finding

theorem Tag.Ending.lineFeed_notMem {message : List Char} (h : Tag.Ending s message rest) :
    '\n' ∉ message := by
  cases h with
  | message _ _ _ hline => exact hline
  | bare => simp

theorem Tag.Heads.notMem (h : t.Heads s rest) : ')' ∉ t.label ∧ '\n' ∉ t.message := by
  obtain ⟨_, _, hlabel, hending⟩ := h
  exact ⟨hlabel, hending.lineFeed_notMem⟩

/-- What is found can be written. -/
theorem Finding.writable_of_mem_ofText (h : f ∈ Finding.ofText path s) :
    f.path = path ∧ f.Writable := by
  obtain ⟨t, start, rest, ht, hfound⟩ := exists_heads_of_mem_ofText h
  obtain ⟨hclosed, hline⟩ := ht.notMem
  rw [Tag.finding?] at hfound
  split at hfound
  · exact absurd hfound (by simp)
  · obtain rfl := Option.some.inj hfound
    refine ⟨rfl, ?_⟩
    constructor
    case label =>
      rw [String.toList_ofList]
      exact Text.trimmed_trim _
    case closed =>
      rw [String.toList_ofList]
      exact fun hmem => hclosed (Text.mem_of_mem_trim hmem)
    case message =>
      rw [String.toList_ofList]
      exact Text.trimmed_trim _
    case line =>
      rw [String.toList_ofList]
      exact fun hmem => hline (Text.mem_of_mem_trim hmem)

/-- A finding that can be written is read back, and alone, behind any text in which no tag begins;
and what was found in any text is read back from its own tag. -/
theorem ofText_tagText :
    (∀ (f : Finding) (p : List Char), f.Writable → Quiet p →
      Finding.ofText f.path (p ++ f.tagText.toList) = [f]) ∧
    ∀ (path : Path) (s : List Char), ∀ f ∈ Finding.ofText path s,
      Finding.ofText path f.tagText.toList = [f] := by
  refine ⟨fun f p hf hp => hf.ofText_append hp, ?_⟩
  intro path s f hf
  obtain ⟨rfl, hwritable⟩ := Finding.writable_of_mem_ofText hf
  exact hwritable.ofText_append (Quiet.of_notMem (p := []) (by simp))

/-- A finding whose label and message have parts that look like tags. -/
def nested : Finding := ⟨⟨"a.rs"⟩, .todocs, "api: BUG(", "see TODO(x): y"⟩

theorem writable_nested : nested.Writable := by
  constructor <;> decide

/-- Behind a word that only looks like a kind, `nested` is read back as one finding. -/
theorem ofText_tagText_nested : nested.Writable ∧ Quiet "a TODO, FIXME ".toList ∧
    Finding.ofText ⟨"a.rs"⟩ "a TODO, FIXME TODOCS(api: BUG(): see TODO(x): y".toList = [nested] := by
  have hquiet : Quiet "a TODO, FIXME ".toList := Quiet.of_notMem (by decide)
  exact ⟨writable_nested, hquiet, ofText_tagText.1 nested _ writable_nested hquiet⟩

end Marginalia
