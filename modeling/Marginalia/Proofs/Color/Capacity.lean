import Marginalia.Color.Serial
import Marginalia.Proofs.Color.Lenient

/-! Room in a color text. What is made from a text is cut after seven characters, and what is
written for a color has exactly seven of them, so no way to a color text leads past that. The cut
takes nothing that the lenient reader looks at. -/
namespace Marginalia

/-- The colors that can come about: a color text is made from a text, from nothing, by the strict
reader or from JSON, channels and hues are free, and conversions lead on from there. -/
inductive Color.Obtained : Color → Prop
  | ofText (s : String) : Obtained (.hex (.ofText s))
  | empty : Obtained (.hex .empty)
  | parse {s : String} {h : Hex} : Hex.parse s = .ok h → Obtained (.hex h)
  | ofJson {j : Json} {h : Hex} : Hex.ofJson? j = some h → Obtained (.hex h)
  | rgba (c : Rgba) : Obtained (.rgba c)
  | hsl (c : Hsl) : Obtained (.hsl c)
  | convert {c d : Color} {step : Conversion} :
      Obtained c → c.convert step = .ok d → Obtained d

theorem map_mapError_eq_ok_iff {ε ε' α β : Type} {x : Except ε α} {f : ε → ε'} {g : α → β} {b : β} :
    (x.mapError f).map g = .ok b ↔ ∃ a, x = .ok a ∧ g a = b := by
  cases x <;> simp [Except.mapError, Except.map]

namespace Hex

variable {s : String} {h : Hex}

section Length

theorem toList_ofText (s : String) : (ofText s).text.toList = s.toList.take 7 :=
  String.toList_ofList

theorem length_ofText (s : String) : (ofText s).text.length = min 7 s.length := by
  rw [← String.length_toList, toList_ofText, List.length_take, String.length_toList]

theorem length_ofRgba (c : Rgba) : (ofRgba c).text.length = 7 := by
  rw [text_ofRgba, String.length_ofList, List.length_cons, (spells_ofRgba c).length]

theorem text_ofText (hs : s.length ≤ 7) : (ofText s).text = s := by
  rw [← String.length_toList] at hs
  rw [← String.toList_inj, toList_ofText, List.take_of_length_le hs]

/-- A color text is made again from its own text. -/
theorem ofText_text (h : Hex) : ofText h.text = h := eq_of_text (text_ofText h.length_le)

/-- A conversion to a color text writes a color or takes a color text over, and the strict reader
gives what is written for the color that it reads. -/
theorem made_of_convert {c : Color} {step : Conversion} (hstep : c.convert step = .ok (.hex h)) :
    (∃ s, h = ofText s) ∨ ∃ c, h = ofRgba c := by
  cases c with
  | hex g =>
    cases step
    case parseHex =>
      obtain ⟨g', hparse, heq⟩ := map_mapError_eq_ok_iff.mp hstep
      obtain rfl := Color.hex.inj heq
      exact .inr ⟨_, (parse_eq_ok_iff.mp hparse).2.symm⟩
    case reread =>
      obtain rfl : ofText g.text = h := by simpa [Color.convert] using hstep
      exact .inl ⟨g.text, rfl⟩
    case parseRgba =>
      obtain ⟨d, -, heq⟩ := map_mapError_eq_ok_iff.mp hstep
      exact absurd heq (by simp)
    case toRgba way | toHsl way | toHex way => cases way <;> simp [Color.convert] at hstep
    case withAlpha => simp [Color.convert] at hstep
  | rgba c =>
    cases step
    case toHex way =>
      -- All ways write the same text.
      cases way
      case reference => simp [Color.convert] at hstep
      all_goals exact .inr ⟨c, (Color.hex.inj (Except.ok.inj hstep)).symm⟩
    case toRgba way | toHsl way => cases way <;> simp [Color.convert] at hstep
    all_goals simp [Color.convert] at hstep
  | hsl c =>
    cases step
    case toHex way =>
      cases way
      case reference => simp [Color.convert] at hstep
      all_goals exact .inr ⟨c.toRgba, (Color.hex.inj (Except.ok.inj hstep)).symm⟩
    case toRgba way | toHsl way => cases way <;> simp [Color.convert] at hstep
    all_goals simp [Color.convert] at hstep

/-- A color text is cut from a text or written for a color, whatever way it comes about. -/
theorem made_of_obtained (hobtained : Color.Obtained (.hex h)) :
    (∃ s, h = ofText s) ∨ ∃ c, h = ofRgba c := by
  cases hobtained with
  | ofText s => exact .inl ⟨s, rfl⟩
  | empty => exact .inl ⟨"", by decide⟩
  | parse hparse => exact .inr ⟨_, (parse_eq_ok_iff.mp hparse).2.symm⟩
  | @ofJson j _ hjson =>
    cases j with
    | text s => exact .inl ⟨s, (Option.some.inj hjson).symm⟩
    | _ => exact absurd hjson (by simp [ofJson?])
  | convert _ hstep => exact made_of_convert hstep

/-- No way leads to a color text of more than seven characters. -/
theorem length_le_of_obtained (hobtained : Color.Obtained (.hex h)) : h.text.length ≤ 7 := by
  rcases made_of_obtained hobtained with ⟨s, rfl⟩ | ⟨c, rfl⟩
  · rw [length_ofText]
    exact Nat.min_le_left 7 _
  · rw [length_ofRgba]

end Length

section Reading

/-- Behind the `#` of a text that is cut, if there is one, at least six characters are left of
those that stood there. -/
theorem stripHash_take (t : List Char) :
    ∃ n, 6 ≤ n ∧ stripHash (t.take 7) = (stripHash t).take n := by
  rcases t with _ | ⟨c, t⟩
  · exact ⟨6, le_rfl, rfl⟩
  · by_cases hc : c = '#'
    · subst hc
      exact ⟨6, le_rfl, rfl⟩
    · have hkeep (r : List Char) : stripHash (c :: r) = c :: r := by simp [stripHash, hc]
      refine ⟨7, by decide, ?_⟩
      rw [List.take_succ_cons, hkeep, hkeep, List.take_succ_cons]

/-- All the digits that count are left when a text is cut. -/
theorem leadingDigits_ofText (s : String) : leadingDigits (ofText s).text = leadingDigits s := by
  obtain ⟨n, hn, hstrip⟩ := stripHash_take s.toList
  rw [leadingDigits, leadingDigits, toList_ofText, hstrip, digitRun, digitRun,
    ← List.take_takeWhile, List.take_take, Nat.min_eq_left hn]

/-- The color that is read hangs on the digits at the front alone. -/
theorem color_congr {a b : String} (hdigits : leadingDigits a = leadingDigits b) :
    (read a).color = (read b).color := by
  have hchannel : ∀ i < 3, (channels 3 (stripHash a.toList)).getD i 0 =
      (channels 3 (stripHash b.toList)).getD i 0 := by
    intro i hi
    rw [← UInt8.toNat_inj, toNat_getD_channels a hi, toNat_getD_channels b hi, hdigits]
  simp only [read, hchannel 0 (by decide), hchannel 1 (by decide), hchannel 2 (by decide)]

end Reading

/-- The texts of obtained color texts are the ones of at most seven characters, each is made again
from its text, and cutting a text does not change the color that is read from it. -/
theorem texts_of_obtained (s : String) :
    ((∃ h, Color.Obtained (.hex h) ∧ h.text = s) ↔ s.length ≤ 7) ∧
      (∀ h : Hex, ofText h.text = h) ∧ (ofText s).toRgba = (read s).color := by
  refine ⟨⟨?_, ?_⟩, ofText_text, color_congr (leadingDigits_ofText s)⟩
  · rintro ⟨h, hobtained, rfl⟩
    exact length_le_of_obtained hobtained
  · intro hs
    exact ⟨ofText s, .ofText s, text_ofText hs⟩

end Hex

end Marginalia
