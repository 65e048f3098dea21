import Marginalia.Proofs.Tag.LineEnd

/-! Reading tags in another case. A map that changes at most the case of ASCII letters changes
neither what is a blank nor what forms a letter has, so both texts are read in step: where a mark
is read in one of them, the mapped mark is read in the other one. Main statement: the findings of
a text in upper case are those of the text with their labels and messages in upper case, and the
same in lower case. -/
namespace Marginalia

namespace Text

/-- A map of characters that changes at most the case of ASCII letters. -/
def Recases (g : Char → Char) : Prop := ∀ c, (g c).toUpper = c.toUpper

theorem recases_toUpper : Recases Char.toUpper := by
  intro c
  rw [← Char.toNat_inj]
  simp only [toNat_toUpper]
  split_ifs <;> omega

theorem recases_toLower : Recases Char.toLower := by
  intro c
  rw [← Char.toNat_inj]
  simp only [toNat_toUpper, toNat_toLower]
  split_ifs <;> omega

theorem isBlank_toUpper (c : Char) : isBlank c.toUpper = isBlank c := by
  rw [Bool.eq_iff_iff]
  simp only [isBlank, Bool.or_eq_true, Bool.and_eq_true, decide_eq_true_eq, beq_iff_eq,
    toNat_toUpper]
  split <;> omega

/-- The long s is no ASCII letter, so it stays one of the forms of its letter. -/
theorem foldLetter_toUpper (c : Char) : foldLetter c.toUpper = foldLetter c := by
  have hlong : (Char.ofNat 0x17F).toNat = 383 := rfl
  by_cases hc : c = Char.ofNat 0x17F
  · rw [hc]
    rfl
  · have hupper : c.toUpper ≠ Char.ofNat 0x17F := by
      rw [← Char.toNat_inj, hlong] at hc
      rw [ne_eq, ← Char.toNat_inj, hlong, toNat_toUpper]
      split <;> omega
    rw [foldLetter, if_neg hupper, foldLetter, if_neg hc]
    exact recases_toUpper c

/-- Nothing but letters is taken to upper case. -/
theorem toUpper_eq_iff {d : Char} (hd : d.toNat < 65) (c : Char) : c.toUpper = d ↔ c = d := by
  rw [← Char.toNat_inj, ← Char.toNat_inj, toNat_toUpper]
  split <;> omega

namespace Recases

variable {g : Char → Char}

theorem isBlank (hg : Recases g) (c : Char) : isBlank (g c) = isBlank c := calc
  Text.isBlank (g c) = Text.isBlank (g c).toUpper := (isBlank_toUpper _).symm
  _ = Text.isBlank c.toUpper := by rw [hg c]
  _ = Text.isBlank c := isBlank_toUpper c

theorem foldLetter (hg : Recases g) (c : Char) : foldLetter (g c) = foldLetter c := calc
  Text.foldLetter (g c) = Text.foldLetter (g c).toUpper := (foldLetter_toUpper _).symm
  _ = Text.foldLetter c.toUpper := by rw [hg c]
  _ = Text.foldLetter c := foldLetter_toUpper c

theorem eq_iff (hg : Recases g) {d : Char} (hd : d.toNat < 65) (c : Char) : g c = d ↔ c = d := by
  rw [← toUpper_eq_iff hd, hg c, toUpper_eq_iff hd]

theorem map_toUpper (hg : Recases g) (s : List Char) :
    (s.map g).map Char.toUpper = s.map Char.toUpper := by
  rw [List.map_map]
  exact List.map_congr_left fun c _ => hg c

theorem isBlank_comp (hg : Recases g) : Text.isBlank ∘ g = Text.isBlank := funext hg.isBlank

theorem ne_comp (hg : Recases g) {d : Char} (hd : d.toNat < 65) :
    (fun c => c != d) ∘ g = fun c => c != d := by
  funext c
  rw [Function.comp_apply, Bool.eq_iff_iff, bne_iff_ne, bne_iff_ne, ne_eq, hg.eq_iff hd]

/-- Blanks are skipped in both texts at the same places. -/
theorem dropBlanks (hg : Recases g) (s : List Char) :
    (s.map g).dropWhile Text.isBlank = (s.dropWhile Text.isBlank).map g := by
  rw [List.dropWhile_map, hg.isBlank_comp]

theorem takeUntil (hg : Recases g) {d : Char} (hd : d.toNat < 65) (s : List Char) :
    (s.map g).takeWhile (· != d) = (s.takeWhile (· != d)).map g := by
  rw [List.takeWhile_map, hg.ne_comp hd]

theorem dropUntil (hg : Recases g) {d : Char} (hd : d.toNat < 65) (s : List Char) :
    (s.map g).dropWhile (· != d) = (s.dropWhile (· != d)).map g := by
  rw [List.dropWhile_map, hg.ne_comp hd]

theorem trim (hg : Recases g) (s : List Char) : trim (s.map g) = (trim s).map g := by
  have hstart : trimStart (s.map g) = (trimStart s).map g := hg.dropBlanks s
  rw [Text.trim, Text.trim, hstart, trimEnd, trimEnd, ← List.map_reverse, hg.dropBlanks,
    List.map_reverse]

end Recases

end Text

namespace Mark

/-- A mark with all its parts mapped. -/
def map (g : Char → Char) (m : Mark) : Mark :=
  ⟨m.spelling.map g, m.label.map g, m.message.map g⟩

variable {g : Char → Char} {s rest : List Char}

theorem afterWord?_map (hg : Text.Recases g) {word : List Char}
    (hword : ∀ u ∈ word, u.isUpper = true) (s : List Char) :
    afterWord? word (s.map g) = (afterWord? word s).map (List.map g) := by
  induction word generalizing s with
  | nil => rfl
  | cons u word ih =>
    rw [List.forall_mem_cons] at hword
    cases s with
    | nil => rfl
    | cons c s =>
      have hletter : isLetter u (g c) = isLetter u c := by
        rw [Bool.eq_iff_iff, isLetter_iff hword.1, isLetter_iff hword.1, hg.foldLetter]
      rw [List.map_cons, afterWord?, afterWord?, hletter]
      split
      · exact ih hword.2 s
      · rfl

theorem afterLabel_map (hg : Text.Recases g) (s : List Char) :
    afterLabel (s.map g) = ((afterLabel s).1.map g, (afterLabel s).2.map g) := by
  have hcolon (c : Char) : g c = ':' ↔ c = ':' := hg.eq_iff (by decide) c
  rw [afterLabel, afterLabel, hg.dropBlanks]
  cases s.dropWhile Text.isBlank with
  | nil => rfl
  | cons c body =>
    by_cases hc : c = ':'
    · rw [hc, List.map_cons, (hcolon ':').mpr rfl]
      simp only [hg.dropBlanks, hg.takeUntil (d := '\n') (by decide),
        hg.dropUntil (d := '\n') (by decide)]
    · have hmapped : g c ≠ ':' := mt (hcolon c).mp hc
      simp [hc, hmapped]

theorem afterKind?_map (hg : Text.Recases g) (s : List Char) :
    afterKind? (s.map g) = (afterKind? s).map fun found =>
      ((found.1.1.map g, found.1.2.map g), found.2.map g) := by
  have hparen (c : Char) : g c = '(' ↔ c = '(' := hg.eq_iff (by decide) c
  rw [afterKind?, afterKind?, hg.dropBlanks]
  cases s.dropWhile Text.isBlank with
  | nil => rfl
  | cons c body =>
    by_cases hc : c = '('
    · rw [hc, List.map_cons, (hparen '(').mpr rfl]
      simp only [hg.takeUntil (d := ')') (by decide), hg.dropUntil (d := ')') (by decide)]
      cases body.dropWhile (· != ')') with
      | nil => rfl
      | cons d after => simp only [List.map_cons, afterLabel_map hg, Option.map_some]
    · have hmapped : g c ≠ '(' := mt (hparen c).mp hc
      simp [hc, hmapped]

/-- A mark is read in the mapped text where one is read in the text, and it is the mapped mark. -/
theorem read?_map (hg : Text.Recases g) (s : List Char) :
    read? (s.map g) = (read? s).map fun found => (found.1.map g, found.2.map g) := by
  rw [read?, read?, List.map_findSome?]
  congr 1
  funext k
  rw [Function.comp_apply, readAs?, readAs?,
    afterWord?_map hg (fun _ => isUpper_of_mem_word), Option.bind_map, Option.map_bind]
  congr 1
  funext after
  simp only [Function.comp_apply, afterKind?_map hg, Option.map_map]
  congr 1
  funext found
  simp only [Function.comp_apply, map, List.map_take]

/-- The kind of a mark is told by its word whatever the case, a long s being kept. -/
theorem kind?_map (hg : Text.Recases g) (m : Mark) : (m.map g).kind? = m.kind? := by
  simp only [kind?, Kind.ofWord?, map, hg.map_toUpper]

end Mark

variable {g : Char → Char}

theorem marks_map (hg : Text.Recases g) (s : List Char) :
    marks (s.map g) = (marks s).map (Mark.map g) := by
  -- Both texts are read in step, so the induction is on the reading of one of them.
  induction s using marks.induct with
  | case1 s m rest hread ih =>
    have hmapped : Mark.read? (s.map g) = some (m.map g, rest.map g) := by
      rw [Mark.read?_map hg, hread]
      rfl
    rw [marks_of_read? hmapped, marks_of_read? hread, ih, List.map_cons]
  | case2 => rw [List.map_nil, marks_nil, List.map_nil]
  | case3 c rest hread ih =>
    have hmapped : Mark.read? (g c :: rest.map g) = none := by
      rw [← List.map_cons, Mark.read?_map hg, hread]
      rfl
    rw [List.map_cons, marks_cons_of_read?_eq_none hmapped, marks_cons_of_read?_eq_none hread, ih]

namespace Finding

/-- A finding with its label and its message mapped. -/
def mapParts (g : Char → Char) (f : Finding) : Finding :=
  { f with label := f.label.map g, message := f.message.map g }

theorem ofMark?_map (hg : Text.Recases g) (path : Path) (m : Mark) :
    ofMark? path (m.map g) = (ofMark? path m).map (mapParts g) := by
  have hpart (s : List Char) :
      String.ofList (Text.trim (s.map g)) = (String.ofList (Text.trim s)).map g := by
    rw [hg.trim, ← String.toList_inj, String.toList_map, String.toList_ofList,
      String.toList_ofList]
  rw [ofMark?, ofMark?, Mark.kind?_map hg, Option.map_map]
  congr 1
  funext kind
  simp only [Function.comp_apply, mapParts, Mark.map, hpart]

/-- What is found in a mapped text is what is found in the text, mapped. -/
theorem ofText_map (hg : Text.Recases g) (path : Path) (s : List Char) :
    ofText path (s.map g) = (ofText path s).map (mapParts g) := by
  rw [ofText, marks_map hg, List.filterMap_map, ofText, List.map_filterMap]
  exact List.filterMap_congr fun m _ => ofMark?_map hg path m

end Finding

/-- Tags are read whatever their case: in upper case the same findings are found as before, of the
same kinds and in the same order, with their labels and messages in upper case, and so it is in
lower case. Only ASCII letters have cases here. A word with a long s names no kind before and
after. -/
theorem ofText_of_case (path : Path) (line : String) :
    (Finding.ofText path line.toUpper.toList =
      (Finding.ofText path line.toList).map fun f =>
        { f with label := f.label.toUpper, message := f.message.toUpper }) ∧
    Finding.ofText path line.toLower.toList =
      (Finding.ofText path line.toList).map fun f =>
        { f with label := f.label.toLower, message := f.message.toLower } := by
  constructor
  · have hline : line.toUpper.toList = line.toList.map Char.toUpper := String.toList_map
    rw [hline]
    exact Finding.ofText_map Text.recases_toUpper path line.toList
  · have hline : line.toLower.toList = line.toList.map Char.toLower := String.toList_map
    rw [hline]
    exact Finding.ofText_map Text.recases_toLower path line.toList

/-- Neither the blanks of a tag nor its long s depend on the case. -/
example : Finding.ofText ⟨"a.rs"⟩ "todoC\u017f(a) Fixme ( B\u00e9 ): c".toUpper.toList =
    [⟨⟨"a.rs"⟩, .fixme, "B\u00e9", "C"⟩] := by decide +kernel

end Marginalia
