import Marginalia.Color.Hsl
import Marginalia.Json

/-! Colors read from JSON and written to it. -/
namespace Marginalia

/-- A color text is read from a string, which is cut after seven characters. -/
def Hex.ofJson? : Json → Option Hex
  | .text s => some (.ofText s)
  | _ => none

def Hex.toJson (h : Hex) : Json := .text h.text

/-- A color is read from its four channels, by name or in order. -/
def Rgba.ofJson? (j : Json) : Option Rgba :=
  match j.fields? ["r", "g", "b", "a"] with
  | some [r, g, b, a] => do
    return ⟨← r.byte?, ← g.byte?, ← b.byte?, ← a.byte?⟩
  | _ => none

def Rgba.toJson (c : Rgba) : Json :=
  let channel (v : UInt8) : Json := .number (.integer v.toNat)
  .object [("r", channel c.red), ("g", channel c.green), ("b", channel c.blue),
    ("a", channel c.alpha)]

/-- A color is read from its three parts, by name or in order. -/
def Hsl.ofJson? (j : Json) : Option Hsl :=
  match j.fields? ["h", "s", "l"] with
  | some [h, s, l] => do
    return ⟨← h.binary32?, ← s.binary32?, ← l.binary32?⟩
  | _ => none

end Marginalia
