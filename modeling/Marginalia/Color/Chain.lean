import Marginalia.Color.Hsl

/-! Chains of conversions between the forms of a color. A conversion can be called in several ways:
by a method, by making one form from a value of another or from a reference to it, and by a function
of its own. -/
namespace Marginalia

section Ways

/-- The color of a text of any form and length. -/
def hexToRgba (s : String) : Rgba := (Hex.read s).color

def rgbaToHex (c : Rgba) : Hex := .ofRgba c

def rgbaToHsl (c : Rgba) : Hsl := .ofRgba c

def hslToRgba (c : Hsl) : Rgba := c.toRgba

def hexToHsl (s : String) : Hsl := rgbaToHsl (hexToRgba s)

def hslToHex (c : Hsl) : Hex := rgbaToHex (hslToRgba c)

def Rgba.toHex (c : Rgba) : Hex := rgbaToHex c

def Rgba.toHsl (c : Rgba) : Hsl := rgbaToHsl c

def Hex.toHsl (h : Hex) : Hsl := hexToHsl h.text

/-- The color made from a color text that is used up by it. -/
def Rgba.ofHex (h : Hex) : Rgba := hexToRgba h.text

/-- The color made from a color text that is only borrowed. -/
def Rgba.ofHexRef (h : Hex) : Rgba := hexToRgba h.text

def Rgba.ofHsl (c : Hsl) : Rgba := hslToRgba c

def Hex.ofHsl (c : Hsl) : Hex := hslToHex c

end Ways

/-- A color in one of its forms. -/
inductive Color where
  | hex (h : Hex)
  | rgba (c : Rgba)
  | hsl (c : Hsl)
deriving DecidableEq

/-- The lenient reader came to an end before it had three channels. -/
structure EarlyStop where
  input : String
  channels : Nat
deriving DecidableEq

def EarlyStop.text (e : EarlyStop) : String :=
  "hex color " ++ Text.quoted e.input ++ " stopped parsing after " ++ toString e.channels ++
    " channel(s)"

/-- Whether reading a text leniently ends early. -/
def Hex.earlyStop? (s : String) : Option EarlyStop :=
  let n := (Hex.read s).channels
  if n < 3 then some ⟨s, n⟩ else none

/-- How a conversion is called. -/
inductive Calling where
  | method
  | value
  | reference
  | function
deriving DecidableEq

/-- A step from one form to the next. -/
inductive Conversion where
  | toHex (way : Calling)
  | toRgba (way : Calling)
  | toHsl (way : Calling)
  | parseHex
  | parseRgba
  | reread
  | withAlpha (alpha : UInt8)
deriving DecidableEq

/-- Why a step cannot be taken. -/
inductive ConversionError where
  | unavailable
  | invalid (e : HexError)
deriving DecidableEq

namespace Color

def text : Color → String
  | .hex h => h.text
  | .rgba c => c.text
  | .hsl c => c.text

/-- Takes a step. Color texts are read leniently, or strictly where the step says so. Some ways of
calling are missing: only a color text is taken by reference, and no hue is made from its value. -/
def convert : Color → Conversion → Except ConversionError Color
  | .hex h, .toRgba .method => .ok (.rgba h.toRgba)
  | .hex h, .toRgba .value => .ok (.rgba (.ofHex h))
  | .hex h, .toRgba .reference => .ok (.rgba (.ofHexRef h))
  | .hex h, .toRgba .function => .ok (.rgba (hexToRgba h.text))
  | .hex h, .toHsl .method => .ok (.hsl h.toHsl)
  | .hex h, .toHsl .reference => .ok (.hsl (.ofHex h))
  | .hex h, .toHsl .function => .ok (.hsl (hexToHsl h.text))
  | .hex h, .parseHex => (Hex.parse h.text).mapError .invalid |>.map .hex
  | .hex h, .parseRgba => (Rgba.parse h.text).mapError .invalid |>.map .rgba
  | .hex h, .reread => .ok (.hex (.ofText h.text))
  | .rgba c, .toHex .method => .ok (.hex c.toHex)
  | .rgba c, .toHex .value => .ok (.hex (.ofRgba c))
  | .rgba c, .toHex .function => .ok (.hex (rgbaToHex c))
  | .rgba c, .toHsl .method => .ok (.hsl c.toHsl)
  | .rgba c, .toHsl .value => .ok (.hsl (.ofRgba c))
  | .rgba c, .toHsl .function => .ok (.hsl (rgbaToHsl c))
  | .rgba c, .withAlpha alpha => .ok (.rgba (c.withAlpha alpha))
  | .hsl c, .toHex .method => .ok (.hex c.toHex)
  | .hsl c, .toHex .value => .ok (.hex (.ofHsl c))
  | .hsl c, .toHex .function => .ok (.hex (hslToHex c))
  | .hsl c, .toRgba .method => .ok (.rgba c.toRgba)
  | .hsl c, .toRgba .value => .ok (.rgba (.ofHsl c))
  | .hsl c, .toRgba .function => .ok (.rgba (hslToRgba c))
  | _, _ => .error .unavailable

/-- The early stop of a step that reads a color text. The strict reader reads what it has accepted
once more, leniently. -/
def stop? : Color → Conversion → Option EarlyStop
  | .hex h, .toRgba _ => Hex.earlyStop? h.text
  | .hex h, .toHsl way => if way = .value then none else Hex.earlyStop? h.text
  | .hex h, .parseRgba => (Hex.parse h.text).toOption.bind fun g => Hex.earlyStop? g.text
  | _, _ => none

/-- The forms that a chain passes through after its start, up to the first step that cannot be
taken, and that step's error. -/
def chain : Color → List Conversion → List Color × Option ConversionError
  | _, [] => ([], none)
  | c, step :: rest =>
    match c.convert step with
    | .error e => ([], some e)
    | .ok next =>
      let (forms, e) := chain next rest
      (next :: forms, e)

/-- The early stops along a chain. -/
def stops : Color → List Conversion → List EarlyStop
  | _, [] => []
  | c, step :: rest =>
    (c.stop? step).toList ++
      match c.convert step with
      | .error _ => []
      | .ok next => stops next rest

end Color

end Marginalia
