/-! Colors as red, green, blue and alpha channels of eight bits. -/
namespace Marginalia

/-- A color by its channels; alpha 255 is solid. -/
structure Rgba where
  red : UInt8
  green : UInt8
  blue : UInt8
  alpha : UInt8
deriving DecidableEq

namespace Rgba

/-- A color that lets nothing through. -/
def solid (red green blue : UInt8) : Rgba := ⟨red, green, blue, 255⟩

def black : Rgba := solid 0 0 0

/-- The same color with another alpha channel. -/
def withAlpha (c : Rgba) (alpha : UInt8) : Rgba := { c with alpha }

/-- The text `rgba(r, g, b, a)` with decimal channels. -/
def text (c : Rgba) : String :=
  "rgba(" ++ toString c.red.toNat ++ ", " ++ toString c.green.toNat ++ ", " ++
    toString c.blue.toNat ++ ", " ++ toString c.alpha.toNat ++ ")"

end Rgba

end Marginalia
