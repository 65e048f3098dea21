import Marginalia.Color.Chain
import Marginalia.Proofs.Color.Capacity

/-! Chains of conversions between color texts and channels. All color texts on such a chain are the
one that is written for the color at its start, so no step fails, nothing is read short, and the
only thing that changes along the way is the alpha. -/
namespace Marginalia

/-- The forms that hold channels as they are. -/
inductive ExactForm where
  | hex
  | rgba

namespace Conversion

/-- The steps between the exact forms, with the form where they can be taken and the form to which
they lead. Channels are handed on by value only. -/
inductive Leads : ExactForm → Conversion → ExactForm → Prop
  | toHex {way : Calling} (hway : way ≠ .reference) : Leads .rgba (.toHex way) .hex
  | withAlpha (alpha : UInt8) : Leads .rgba (.withAlpha alpha) .rgba
  | toRgba (way : Calling) : Leads .hex (.toRgba way) .rgba
  | parseRgba : Leads .hex .parseRgba .rgba
  | parseHex : Leads .hex .parseHex .hex
  | reread : Leads .hex .reread .hex

/-- Steps that can be taken one after the other. -/
inductive Fits : ExactForm → List Conversion → Prop
  | nil (f : ExactForm) : Fits f []
  | cons {f g : ExactForm} {step : Conversion} {rest : List Conversion} :
      Leads f step g → Fits g rest → Fits f (step :: rest)

/-- The alpha that a step decides on. What comes from a color text is solid. -/
def alpha? : Conversion → Option UInt8
  | .withAlpha alpha => some alpha
  | .toRgba _ => some 255
  | .parseRgba => some 255
  | _ => none

/-- The alpha after some steps: the latest one that was decided on, or else the one before. -/
def alphaAfter (alpha : UInt8) (steps : List Conversion) : UInt8 :=
  (steps.filterMap alpha?).getLastD alpha

/-- A step leads to one form. -/
theorem Leads.unique {f f' g g' : ExactForm} {step : Conversion} (h : Leads f step g)
    (h' : Leads f' step g') : g = g' := by
  cases h <;> cases h' <;> rfl

theorem alphaAfter_nil (alpha : UInt8) : alphaAfter alpha [] = alpha := rfl

theorem alphaAfter_cons (alpha : UInt8) (step : Conversion) (rest : List Conversion) :
    alphaAfter alpha (step :: rest) = alphaAfter (step.alpha?.getD alpha) rest := by
  rw [alphaAfter, alphaAfter, List.filterMap_cons]
  cases step.alpha? with
  | none => rfl
  | some decided => exact List.getLastD_cons ..

end Conversion

namespace Hex

theorem earlyStop?_ofRgba (c : Rgba) : earlyStop? (ofRgba c).text = none := by
  rw [earlyStop?, read_ofRgba]
  rfl

theorem parse_ofRgba (c : Rgba) : parse (ofRgba c).text = .ok (ofRgba c) := by
  rw [parse_of_spells (spells_ofRgba c), read_ofRgba]
  rfl

theorem rgba_parse_ofRgba (c : Rgba) : Rgba.parse (ofRgba c).text = .ok (c.withAlpha 255) := by
  rw [rgba_parse_eq_ok_iff, read_ofRgba]
  exact ⟨⟨_, spells_ofRgba c⟩, rfl⟩

end Hex

namespace Color

open Conversion

variable {c : Rgba} {f g : ExactForm} {step : Conversion} {steps : List Conversion}

/-- A color in an exact form, with its alpha as far as the form holds one. -/
def shown (c : Rgba) (alpha : UInt8) : ExactForm → Color
  | .hex => .hex (.ofRgba c)
  | .rgba => .rgba (c.withAlpha alpha)

/-- One step between exact forms shows the same color, with the alpha that the step decides on,
whatever way it is called. -/
theorem convert_shown (alpha : UInt8) (hleads : Leads f step g) :
    (shown c alpha f).convert step = .ok (shown c (step.alpha?.getD alpha) g) := by
  cases hleads with
  | @toHex way hway =>
    cases way with
    | reference => exact absurd rfl hway
    | method | value | function => rfl
  | withAlpha => rfl
  | toRgba way =>
    have hread : hexToRgba (Hex.ofRgba c).text = c.withAlpha 255 := by
      rw [hexToRgba, Hex.read_ofRgba]
      rfl
    cases way with
    | method => rw [shown, convert, Hex.toRgba, Hex.read_ofRgba]; rfl
    | value => rw [shown, convert, Rgba.ofHex, hread]; rfl
    | reference => rw [shown, convert, Rgba.ofHexRef, hread]; rfl
    | function => rw [shown, convert, hread]; rfl
  | parseRgba =>
    rw [shown, convert, Hex.rgba_parse_ofRgba]
    rfl
  | parseHex =>
    rw [shown, convert, Hex.parse_ofRgba]
    rfl
  | reread =>
    rw [shown, convert, Hex.ofText_text]
    rfl

/-- A step that reads a color text does not end early. -/
theorem stop?_shown (alpha : UInt8) (hleads : Leads f step g) :
    (shown c alpha f).stop? step = none := by
  cases hleads with
  | toRgba => rw [shown, stop?, Hex.earlyStop?_ofRgba]
  | parseRgba =>
    rw [shown, stop?, Hex.parse_ofRgba, Except.toOption, Option.bind_some,
      Hex.earlyStop?_ofRgba]
  | toHex | withAlpha | parseHex | reread => rfl

theorem chain_cons {d e : Color} (hstep : d.convert step = .ok e) :
    chain d (step :: steps) = (e :: (chain e steps).1, (chain e steps).2) := by
  rw [chain, hstep]

theorem error_chain_shown (alpha : UInt8) (hfits : Fits f steps) :
    (chain (shown c alpha f) steps).2 = none := by
  induction hfits generalizing alpha with
  | nil => rfl
  | cons hleads _ ih =>
    rw [chain_cons (convert_shown alpha hleads)]
    exact ih _

theorem length_chain_shown (alpha : UInt8) (hfits : Fits f steps) :
    (chain (shown c alpha f) steps).1.length = steps.length := by
  induction hfits generalizing alpha with
  | nil => rfl
  | cons hleads _ ih =>
    rw [chain_cons (convert_shown alpha hleads), List.length_cons, List.length_cons, ih]

theorem stops_shown (alpha : UInt8) (hfits : Fits f steps) :
    stops (shown c alpha f) steps = [] := by
  induction hfits generalizing alpha with
  | nil => rfl
  | cons hleads _ ih =>
    rw [stops, stop?_shown alpha hleads, convert_shown alpha hleads]
    exact ih _

/-- Along a chain the color at its start is shown in the form to which each step leads, with the
latest alpha. -/
theorem exists_shown_of_getElem? {alpha : UInt8} {i : Nat} {form : Color} (hfits : Fits f steps)
    (hstep : steps[i]? = some step) (hform : (chain (shown c alpha f) steps).1[i]? = some form) :
    ∃ f' g, Leads f' step g ∧ form = shown c (alphaAfter alpha (steps.take (i + 1))) g := by
  induction hfits generalizing alpha i with
  | nil => exact absurd hstep (by simp)
  | @cons f g first rest hleads _ ih =>
    rw [chain_cons (convert_shown alpha hleads)] at hform
    rw [List.take_succ_cons, alphaAfter_cons]
    -- The first form comes from the first step, and each other one from the rest of the chain, which
    -- starts with the alpha that this step leaves.
    cases i with
    | zero =>
      rw [List.getElem?_cons_zero, Option.some.injEq] at hform hstep
      rw [List.take_zero, alphaAfter_nil]
      exact ⟨f, g, hstep ▸ hleads, hform.symm⟩
    | succ i =>
      rw [List.getElem?_cons_succ] at hform hstep
      exact ih hstep hform

/-- A chain between exact forms runs to its end and reads nothing short. A step that leads to a color
text gives the one of the color at the start, which the strict reader takes as it stands and reads no
shorter, and a step that leads to channels gives those of that color, with the alpha that was decided
on last. -/
theorem chain_keeps_channels (c : Rgba) (steps : List Conversion) (hfits : Fits .rgba steps) :
    (chain (.rgba c) steps).2 = none ∧ (chain (.rgba c) steps).1.length = steps.length ∧
      stops (.rgba c) steps = [] ∧
      ∀ (i : Nat) (step : Conversion) (form : Color), steps[i]? = some step →
        (chain (.rgba c) steps).1[i]? = some form →
          (∀ f, Leads f step .hex →
            ∃ h, form = .hex h ∧ h.text = String.ofList ('#' :: Hex.colorDigits c) ∧
              Hex.parse h.text = .ok h ∧ Hex.earlyStop? h.text = none) ∧
          ∀ f, Leads f step .rgba →
            form = .rgba ⟨c.red, c.green, c.blue, alphaAfter c.alpha (steps.take (i + 1))⟩ := by
  have hstart : shown c c.alpha .rgba = .rgba c := rfl
  rw [← hstart]
  refine ⟨error_chain_shown _ hfits, length_chain_shown _ hfits, stops_shown _ hfits, ?_⟩
  intro i step form hstep hform
  obtain ⟨f', g, hleads, rfl⟩ := exists_shown_of_getElem? hfits hstep hform
  constructor
  · intro f hhex
    obtain rfl := hleads.unique hhex
    exact ⟨Hex.ofRgba c, rfl, Hex.text_ofRgba c, Hex.parse_ofRgba c, Hex.earlyStop?_ofRgba c⟩
  · intro f hrgba
    obtain rfl := hleads.unique hrgba
    rfl

/-- A chain with each of the steps, each called in every way. -/
def everyStep : List Conversion :=
  [.withAlpha 7, .toHex .method, .parseHex, .reread, .toRgba .method, .withAlpha 8, .toHex .value,
    .toRgba .value, .toHex .function, .toRgba .reference, .toHex .method, .toRgba .function,
    .toHex .method, .parseRgba]

theorem chain_keeps_channels_everyStep :
    let text : Color := .hex (.ofText "#01FFA0")
    let solid : Color := .rgba ⟨1, 255, 160, 255⟩
    Fits .rgba everyStep ∧ stops (.rgba ⟨1, 255, 160, 4⟩) everyStep = [] ∧
      chain (.rgba ⟨1, 255, 160, 4⟩) everyStep =
        ([.rgba ⟨1, 255, 160, 7⟩, text, text, text, solid, .rgba ⟨1, 255, 160, 8⟩, text, solid,
          text, solid, text, solid, text, solid], none) ∧
      everyStep[3]? = some .reread ∧
      ∃ h, text = .hex h ∧ Hex.parse h.text = .ok h ∧ Hex.earlyStop? h.text = none := by
  intro text solid
  have hfits : Fits .rgba everyStep :=
    .cons (.withAlpha 7) <| .cons (.toHex (by decide)) <| .cons .parseHex <| .cons .reread <|
      .cons (.toRgba _) <| .cons (.withAlpha 8) <| .cons (.toHex (by decide)) <|
      .cons (.toRgba _) <| .cons (.toHex (by decide)) <| .cons (.toRgba _) <|
      .cons (.toHex (by decide)) <| .cons (.toRgba _) <| .cons (.toHex (by decide)) <|
      .cons .parseRgba <| .nil .rgba
  obtain ⟨-, -, hstops, hforms⟩ := chain_keeps_channels ⟨1, 255, 160, 4⟩ everyStep hfits
  have hchain : chain (.rgba ⟨1, 255, 160, 4⟩) everyStep =
      ([.rgba ⟨1, 255, 160, 7⟩, text, text, text, solid, .rgba ⟨1, 255, 160, 8⟩, text, solid,
        text, solid, text, solid, text, solid], none) := by
    decide +kernel
  obtain ⟨h, htext, -, hparse, hstop⟩ :=
    (hforms 3 .reread text rfl (by rw [hchain]; rfl)).1 .hex .reread
  exact ⟨hfits, hstops, hchain, rfl, h, htext, hparse, hstop⟩

end Color

end Marginalia
