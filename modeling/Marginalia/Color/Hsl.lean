import Marginalia.Binary32.Arithmetic
import Marginalia.Color.Hex

/-! Colors as hue, saturation and lightness, and the way to them from channels and back. -/
namespace Marginalia

/-- A hue in degrees, of any size, and saturation and lightness that range from zero to one. -/
structure Hsl where
  hue : Binary32
  saturation : Binary32
  lightness : Binary32
deriving DecidableEq

namespace Hsl

def black : Hsl := ⟨0, 0, 0⟩

/-- The text `hsl(h, s%, l%)`, each part rounded to a whole number. -/
def text (c : Hsl) : String :=
  "hsl(" ++ c.hue.wholeText ++ ", " ++ (c.saturation * 100).wholeText ++ "%, " ++
    (c.lightness * 100).wholeText ++ "%)"

/-- Whether all three parts are equal as numbers. -/
def same (a b : Hsl) : Bool :=
  a.hue.same b.hue && a.saturation.same b.saturation && a.lightness.same b.lightness

/-- Whether all three parts differ by at most `tolerance`. -/
def approxEq (a b : Hsl) (tolerance : Binary32) : Bool :=
  a.hue.approxEq b.hue tolerance && a.saturation.approxEq b.saturation tolerance &&
    a.lightness.approxEq b.lightness tolerance

/-- Order by hue, then saturation, then lightness: the first part that is not equal decides, also
when it cannot be compared. -/
def compare? (a b : Hsl) : Option Ordering :=
  match a.hue.compare? b.hue with
  | some .eq =>
    match a.saturation.compare? b.saturation with
    | some .eq => a.lightness.compare? b.lightness
    | o => o
  | o => o

/-- The hue of channels that are not all equal, in degrees from 0 to 360. `highest` is the
greatest of them and `spread` its distance from the least. -/
def hueOf (red green blue highest spread : Binary32) : Binary32 :=
  let h :=
    if highest.same red then 60 * (((green - blue) / spread) % 6)
    else if highest.same green then 60 * ((blue - red) / spread + 2)
    else 60 * ((red - green) / spread + 4)
  let h := if h.less 0 then h + 360 else h
  if (360 : Binary32).atMost h then h - 360 else h

/-- The hue, saturation and lightness of a color, whatever its alpha. -/
def ofRgba (c : Rgba) : Hsl :=
  let red := Binary32.ofNat c.red.toNat / 255
  let green := Binary32.ofNat c.green.toNat / 255
  let blue := Binary32.ofNat c.blue.toNat / 255
  let highest := (red.larger green).larger blue
  let lowest := (red.smaller green).smaller blue
  let spread := highest - lowest
  let lightness := (highest + lowest) / 2
  if spread.same 0 then ⟨0, 0, lightness⟩
  else
    let saturation :=
      if lightness.atMost (1 / 2) then spread / (highest + lowest)
      else spread / (2 - highest - lowest)
    ⟨hueOf red green blue highest spread, saturation, lightness⟩

/-- A channel from its share of the full range; what lies outside the range is moved to its ends
and what is no number is zero. -/
def channel (share : Binary32) : UInt8 :=
  UInt8.ofNat (Binary32.clamp nearestAway 0 255 (share * 255)).toNat

/-- The sixth of the color wheel that a hue in sixths lies in. -/
def sector (sixths : Binary32) : Nat :=
  (Binary32.clamp integerPart 0 4294967295 sixths).toNat

/-- The solid color of a hue, saturation and lightness. The hue wraps around at 360 degrees; the
last case also takes a hue that wraps to 360 itself. -/
def toRgba (c : Hsl) : Rgba :=
  let chroma := (1 - (2 * c.lightness - 1).abs) * c.saturation
  let sixths := c.hue.wrap 360 / 60
  let second := chroma * (1 - (sixths % 2 - 1).abs)
  let floor := c.lightness - chroma / 2
  let (red, green, blue) : Binary32 × Binary32 × Binary32 :=
    match sector sixths with
    | 0 => (chroma, second, 0)
    | 1 => (second, chroma, 0)
    | 2 => (0, chroma, second)
    | 3 => (0, second, chroma)
    | 4 => (second, 0, chroma)
    | _ => (chroma, 0, second)
  .solid (channel (red + floor)) (channel (green + floor)) (channel (blue + floor))

/-- The hue, saturation and lightness of a color text, read leniently. -/
def ofHex (h : Hex) : Hsl := ofRgba h.toRgba

/-- The canonical text of a hue, saturation and lightness. -/
def toHex (c : Hsl) : Hex := .ofRgba c.toRgba

end Hsl

end Marginalia
