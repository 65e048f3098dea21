import Marginalia.Proofs.Color.Digit
import Marginalia.Proofs.Text.Utf8
import Mathlib.Data.List.Basic
import Mathlib.Logic.Basic

/-! The strict reader of color texts. It takes six digits behind an optional `#` and nothing else,
and what it takes is what the lenient reader makes of the same text, written out again. -/
namespace Marginalia.Hex

variable {s : String} {ds : List Char} {a b : Char} {h : Hex} {e : HexError}

/-- A text that is six digits, perhaps behind a `#`. -/
structure Spells (s : String) (ds : List Char) : Prop where
  length : ds.length = 6
  digit : ∀ d ∈ ds, d ∈ alphabet
  text : s.toList = ds ∨ s.toList = '#' :: ds

theorem eq_or_eq_hash_cons (t : List Char) : t = stripHash t ∨ t = '#' :: stripHash t := by
  rw [stripHash.eq_def]
  split
  · exact Or.inr rfl
  · exact Or.inl rfl

theorem stripHash_of_notMem {t : List Char} (ht : '#' ∉ t) : stripHash t = t := by
  rcases eq_or_eq_hash_cons t with heq | heq
  · exact heq.symm
  · rw [heq] at ht
    exact absurd List.mem_cons_self ht

theorem hash_notMem (hd : ∀ d ∈ ds, d ∈ alphabet) : '#' ∉ ds := by
  intro hmem
  exact ne_hash_of_mem_alphabet (hd '#' hmem) rfl

theorem Spells.stripHash_eq (hs : Spells s ds) : stripHash s.toList = ds := by
  rcases hs.text with htext | htext
  · rw [htext]
    exact stripHash_of_notMem (hash_notMem hs.digit)
  · rw [htext]
    rfl

theorem spells_iff : Spells s ds ↔
    stripHash s.toList = ds ∧ ds.length = 6 ∧ ∀ d ∈ ds, d ∈ alphabet := by
  constructor
  · intro hs
    exact ⟨hs.stripHash_eq, hs.length, hs.digit⟩
  · rintro ⟨rfl, hlength, hdigit⟩
    exact ⟨hlength, hdigit, eq_or_eq_hash_cons s.toList⟩

theorem byteLength_of_digits (hd : ∀ d ∈ ds, d ∈ alphabet) : Text.byteLength ds = ds.length := by
  induction ds with
  | nil => rfl
  | cons d ds ih =>
    have hsize := utf8Size_of_mem_alphabet (hd d List.mem_cons_self)
    have hrest := ih fun c hc => hd c (List.mem_cons_of_mem d hc)
    rw [Text.byteLength, List.foldr_cons, hsize, List.length_cons, ← hrest]
    exact Nat.add_comm 1 _

theorem channels_pair (ha : a ∈ alphabet) (hb : b ∈ alphabet) (count : Nat) (t : List Char) :
    channels (count + 1) (a :: b :: t) = spelled [a, b] :: channels count t := by
  have htake : ((a :: b :: t).take 2).takeWhile isDigit = [a, b] := by
    simp [isDigit_iff_mem.mpr ha, isDigit_iff_mem.mpr hb]
  rw [channels, htake]
  rfl

/-- Digits in pairs are read as channels that are written with the same digits. -/
theorem channels_of_digits (count : Nat) (hd : ∀ d ∈ ds, d ∈ alphabet)
    (hlength : ds.length = 2 * count) :
    (channels count ds).length = count ∧
      (channels count ds).flatMap channelText = ds.map Char.toUpper := by
  induction count generalizing ds with
  | zero =>
    rw [List.length_eq_zero_iff.mp hlength]
    exact ⟨rfl, rfl⟩
  | succ count ih =>
    -- Each round takes two digits.
    obtain ⟨a, b, t, rfl⟩ : ∃ a b t, ds = a :: b :: t := by
      rcases ds with _ | ⟨a, _ | ⟨b, t⟩⟩
      · exact absurd hlength (by simp)
      · exact absurd hlength (by rw [List.length_singleton]; omega)
      · exact ⟨a, b, t, rfl⟩
    have ha := hd a (by simp)
    have hb := hd b (by simp)
    have ht : t.length = 2 * count := by
      rw [List.length_cons, List.length_cons] at hlength
      omega
    obtain ⟨hcount, htext⟩ := ih (fun d hdt => hd d (by simp [hdt])) ht
    rw [channels_pair ha hb]
    constructor
    · rw [List.length_cons, hcount]
    · rw [List.flatMap_cons, channelText_spelled ha hb, htext]
      rfl

/-- Channels that are written are read again. -/
theorem channels_flatMap_channelText (cs : List UInt8) :
    channels cs.length (cs.flatMap channelText) = cs := by
  induction cs with
  | nil => rfl
  | cons v cs ih =>
    have hmem : ∀ d ∈ channelText v, d ∈ alphabet := fun d hd => mem_alphabet_of_mem_channelText hd
    have hpair := channels_pair (hmem (digit (v.toNat / 16)) (by simp [channelText]))
      (hmem (digit (v.toNat % 16)) (by simp [channelText])) cs.length (cs.flatMap channelText)
    change channels (cs.length + 1) (channelText v ++ cs.flatMap channelText) =
      spelled (channelText v) :: channels cs.length (cs.flatMap channelText) at hpair
    rw [List.length_cons, List.flatMap_cons, hpair, spelled_channelText, ih]

/-- What stands behind the `#` in the text of a color. -/
def colorDigits (c : Rgba) : List Char := [c.red, c.green, c.blue].flatMap channelText

theorem eq_of_text {g h : Hex} (htext : g.text = h.text) : g = h := by
  cases g
  cases h
  cases htext
  rfl

theorem text_ofRgba (c : Rgba) : (ofRgba c).text = String.ofList ('#' :: colorDigits c) := by
  rw [ofRgba, colorDigits]
  simp

theorem spells_ofRgba (c : Rgba) : Spells (ofRgba c).text (colorDigits c) where
  length := by simp [colorDigits, channelText]
  digit d hd := by
    obtain ⟨v, _, hv⟩ := List.mem_flatMap.mp hd
    exact mem_alphabet_of_mem_channelText hv
  text := by
    rw [text_ofRgba, String.toList_ofList]
    exact Or.inr rfl

/-- All three channels are read again from what is written for a color. -/
theorem read_ofRgba (c : Rgba) : read (ofRgba c).text = ⟨{ c with alpha := 255 }, 3⟩ := by
  have hchannels : channels 3 (colorDigits c) = [c.red, c.green, c.blue] :=
    channels_flatMap_channelText [c.red, c.green, c.blue]
  rw [read, (spells_ofRgba c).stripHash_eq, hchannels]
  rfl

theorem toRgba_ofRgba (c : Rgba) : (ofRgba c).toRgba = { c with alpha := 255 } := by
  rw [toRgba, read_ofRgba]

theorem colorDigits_read (hs : Spells s ds) : colorDigits (read s).color = ds.map Char.toUpper := by
  obtain ⟨hcount, htext⟩ := channels_of_digits 3 hs.digit hs.length
  obtain ⟨r, g, b, hfound⟩ := List.length_eq_three.mp hcount
  rw [hfound] at htext
  rw [read, hs.stripHash_eq, hfound]
  exact htext

theorem text_ofRgba_read (hs : Spells s ds) :
    (ofRgba (read s).color).text = String.ofList ('#' :: ds.map Char.toUpper) := by
  rw [text_ofRgba, colorDigits_read hs]

/-- A reading is written as a text with the same reading. -/
theorem toRgba_ofRgba_read (s : String) : (ofRgba (read s).color).toRgba = (read s).color := by
  rw [toRgba_ofRgba]
  rfl

theorem parse_of_spells (hs : Spells s ds) : parse s = .ok (ofRgba (read s).color) := by
  have hbytes : Text.byteLength (stripHash s.toList) = 6 := by
    rw [hs.stripHash_eq, byteLength_of_digits hs.digit, hs.length]
  have hall : (stripHash s.toList).all isDigit = true := by
    rw [hs.stripHash_eq, List.all_eq_true]
    intro d hd
    exact isDigit_iff_mem.mpr (hs.digit d hd)
  have htext : (canonical (stripHash s.toList) (hbytes ▸ length_le_byteLength _)).text =
      (ofRgba (read s).color).text := by
    rw [text_ofRgba_read hs, ← hs.stripHash_eq]
    rfl
  simp only [parse]
  rw [dif_pos hbytes, if_pos hall]
  exact congrArg Except.ok (eq_of_text htext)

/-- What is refused has the wrong length, or a character that is no digit. -/
theorem parse_of_not_spells (hs : ∀ ds, ¬ Spells s ds) :
    parse s = .error
      ⟨s, if (String.ofList (stripHash s.toList)).utf8ByteSize = 6 then .digit else .length⟩ := by
  rw [Text.utf8ByteSize_ofList]
  by_cases hbytes : Text.byteLength (stripHash s.toList) = 6
  · have hall : ¬ (stripHash s.toList).all isDigit = true := by
      rw [List.all_eq_true]
      intro hall
      have hdigit : ∀ d ∈ stripHash s.toList, d ∈ alphabet := by
        intro d hd
        exact isDigit_iff_mem.mp (hall d hd)
      apply hs (stripHash s.toList)
      rw [spells_iff, ← byteLength_of_digits hdigit]
      exact ⟨rfl, hbytes, hdigit⟩
    simp only [parse]
    rw [dif_pos hbytes, if_neg hall, if_pos hbytes]
  · simp only [parse]
    rw [dif_neg hbytes, if_neg hbytes]

theorem parse_eq_ok_iff : parse s = .ok h ↔ (∃ ds, Spells s ds) ∧ ofRgba (read s).color = h := by
  by_cases hs : ∃ ds, Spells s ds
  · obtain ⟨ds, hds⟩ := hs
    rw [parse_of_spells hds, Except.ok.injEq]
    exact ⟨fun heq => ⟨⟨ds, hds⟩, heq⟩, fun heq => heq.2⟩
  · rw [parse_of_not_spells fun ds hds => hs ⟨ds, hds⟩]
    exact ⟨fun heq => absurd heq (by simp), fun heq => absurd heq.1 hs⟩

theorem rgba_parse_eq_ok_iff {c : Rgba} :
    Rgba.parse s = .ok c ↔ (∃ ds, Spells s ds) ∧ (read s).color = c := by
  rw [Rgba.parse]
  cases hparse : parse s with
  | ok h =>
    obtain ⟨hs, hh⟩ := parse_eq_ok_iff.mp hparse
    rw [Except.map, Except.ok.injEq, ← hh, toRgba_ofRgba_read]
    exact ⟨fun heq => ⟨hs, heq⟩, fun heq => heq.2⟩
  | error e =>
    refine ⟨fun heq => absurd heq (by simp [Except.map]), ?_⟩
    rintro ⟨⟨ds, hds⟩, _⟩
    exact absurd (hparse.symm.trans (parse_of_spells hds)) (by simp)

theorem parse_eq_error_iff : parse s = .error e ↔ (∀ ds, ¬ Spells s ds) ∧
    e = ⟨s, if (String.ofList (stripHash s.toList)).utf8ByteSize = 6 then .digit else .length⟩ := by
  by_cases hs : ∃ ds, Spells s ds
  · obtain ⟨ds, hds⟩ := hs
    rw [parse_of_spells hds]
    exact ⟨fun heq => absurd heq (by simp), fun heq => absurd hds (heq.1 ds)⟩
  · have hnone : ∀ ds, ¬ Spells s ds := fun ds hds => hs ⟨ds, hds⟩
    rw [parse_of_not_spells hnone, Except.error.injEq, eq_comm]
    exact ⟨fun heq => ⟨hnone, heq⟩, fun heq => heq.2⟩

/-- The strict reader takes what is spelled by six digits, gives it back in upper case, and agrees
with the lenient reader and with what is written for a color. What it refuses it names, and the
number of bytes behind an optional `#` decides on the reason. What is written for a color is read
as it stands, and is the color without its alpha. -/
theorem parse_iff_spells (s : String) (c : Rgba) :
    ((∃ h, parse s = .ok h) ↔ ∃ ds, Spells s ds) ∧
    ((∃ d, Rgba.parse s = .ok d) ↔ ∃ ds, Spells s ds) ∧
    (∀ h, parse s = .ok h →
      (∃ ds, Spells s ds ∧ h.text = String.ofList ('#' :: ds.map Char.toUpper)) ∧
      Rgba.parse s = .ok (read s).color ∧ h.toRgba = (read s).color ∧
      ofRgba (read s).color = h) ∧
    (∀ e, parse s = .error e → Rgba.parse s = .error e ∧ e.input = s ∧
      (e.fault.text = "expected 6 hexadecimal digits" ↔
        (String.ofList (stripHash s.toList)).utf8ByteSize ≠ 6) ∧
      (e.fault.text = "contains a non-hexadecimal digit" ↔
        (String.ofList (stripHash s.toList)).utf8ByteSize = 6)) ∧
    parse (ofRgba c).text = .ok (ofRgba c) ∧ (ofRgba c).toRgba = { c with alpha := 255 } := by
  refine ⟨?_, ?_, ?_, ?_, ?_, toRgba_ofRgba c⟩
  · simp only [parse_eq_ok_iff]
    exact ⟨fun ⟨_, hs, _⟩ => hs, fun hs => ⟨_, hs, rfl⟩⟩
  · simp only [rgba_parse_eq_ok_iff]
    exact ⟨fun ⟨_, hs, _⟩ => hs, fun hs => ⟨_, hs, rfl⟩⟩
  · intro h hok
    obtain ⟨⟨ds, hds⟩, rfl⟩ := parse_eq_ok_iff.mp hok
    exact ⟨⟨ds, hds, text_ofRgba_read hds⟩, rgba_parse_eq_ok_iff.mpr ⟨⟨ds, hds⟩, rfl⟩,
      toRgba_ofRgba_read s, rfl⟩
  · intro e herror
    obtain ⟨-, rfl⟩ := parse_eq_error_iff.mp herror
    refine ⟨by rw [Rgba.parse, herror]; rfl, rfl, ?_⟩
    by_cases hbytes : (String.ofList (stripHash s.toList)).utf8ByteSize = 6
    · simp [HexFault.text, hbytes]
    · simp [HexFault.text, hbytes]
  · have hread : (read (ofRgba c).text).color = { c with alpha := 255 } := toRgba_ofRgba c
    rw [parse_eq_ok_iff, hread]
    exact ⟨⟨_, spells_ofRgba c⟩, rfl⟩

/-- Digits of both cases are read here, and written in upper case. -/
theorem parse_iff_spells_mixedCase : (∃ ds, Spells "3ae6F5" ds) ∧
    ∃ h, parse "3ae6F5" = .ok h := by
  have hall : "3ae6F5".toList.all isDigit = true := by decide
  have hspells : Spells "3ae6F5" "3ae6F5".toList :=
    ⟨by decide, fun d hd => isDigit_iff_mem.mp (List.all_eq_true.mp hall d hd), Or.inl rfl⟩
  exact ⟨⟨_, hspells⟩, (parse_iff_spells "3ae6F5" Rgba.black).1.mpr ⟨_, hspells⟩⟩

end Marginalia.Hex
