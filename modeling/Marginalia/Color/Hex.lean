import Marginalia.Color.Rgba
import Marginalia.Text.Quoted
import Marginalia.Text.Utf8

/-! Colors written as `#RRGGBB`. There are two readers: the strict one takes six digits and
nothing else, the lenient one takes the digits it finds and leaves the other channels at zero. -/
namespace Marginalia

/-- A color text of at most seven characters, which need not be well formed. -/
structure Hex where
  text : String
  length_le : text.length ≤ 7
deriving DecidableEq

/-- Why a text is no color. -/
inductive HexFault where
  | length
  | digit
deriving DecidableEq

/-- A text refused by the strict reader. -/
structure HexError where
  input : String
  fault : HexFault
deriving DecidableEq

def HexFault.text : HexFault → String
  | .length => "expected 6 hexadecimal digits"
  | .digit => "contains a non-hexadecimal digit"

def HexError.message (e : HexError) : String :=
  "invalid hex color " ++ Text.quoted e.input ++ ": " ++ e.fault.text

namespace Hex

/-- Keeps the first seven characters. -/
def ofText (s : String) : Hex :=
  ⟨String.ofList (s.toList.take 7), by
    rw [String.length_ofList, List.length_take]
    exact Nat.min_le_left _ _⟩

/-- The empty text. -/
def empty : Hex := ⟨"", by decide⟩

/-- Whether a character is one of the digits 0 to 9, a to f, A to F. -/
def isDigit (c : Char) : Bool :=
  let n := c.toNat
  (decide (0x30 ≤ n) && decide (n ≤ 0x39)) || (decide (0x61 ≤ n) && decide (n ≤ 0x66)) ||
    (decide (0x41 ≤ n) && decide (n ≤ 0x46))

/-- The value of a digit; zero for any other character. -/
def digitValue (c : Char) : UInt8 :=
  let n := c.toNat
  if 0x30 ≤ n && n ≤ 0x39 then UInt8.ofNat (n - 0x30)
  else if 0x61 ≤ n && n ≤ 0x66 then UInt8.ofNat (n - 0x61 + 10)
  else if 0x41 ≤ n && n ≤ 0x46 then UInt8.ofNat (n - 0x41 + 10)
  else 0

/-- The upper-case digit of a value below sixteen. -/
def digit (n : Nat) : Char := Char.ofNat (if n < 10 then 0x30 + n else 0x37 + n)

/-- The two digits of a channel. -/
def channelText (v : UInt8) : List Char := [digit (v.toNat / 16), digit (v.toNat % 16)]

/-- A text without one leading `#`. -/
def stripHash : List Char → List Char
  | '#' :: rest => rest
  | s => s

/-- The canonical text of six digits. -/
def canonical (digits : List Char) (h : digits.length ≤ 6) : Hex :=
  ⟨String.ofList ('#' :: digits.map Char.toUpper), by
    rw [String.length_ofList, List.length_cons, List.length_map]; omega⟩

theorem length_le_byteLength (s : List Char) : s.length ≤ Text.byteLength s := by
  induction s with
  | nil => simp [Text.byteLength]
  | cons c rest ih =>
    have := c.utf8Size_pos
    simp only [Text.byteLength, List.foldr_cons, List.length_cons] at ih ⊢
    omega

/-- The strict reader: six digits after an optional `#`, given back in upper case. The length is
that of the bytes, so a longer character counts more than once. -/
def parse (s : String) : Except HexError Hex :=
  let digits := stripHash s.toList
  if h : Text.byteLength digits = 6 then
    if digits.all isDigit then .ok (canonical digits (h ▸ length_le_byteLength digits))
    else .error ⟨s, .digit⟩
  else .error ⟨s, .length⟩

/-- The canonical text of a color. Alpha is not written. -/
def ofRgba (c : Rgba) : Hex :=
  ⟨String.ofList ('#' :: (channelText c.red ++ channelText c.green ++ channelText c.blue)), by
    rw [String.length_ofList]; simp [channelText]⟩

/-- Reads up to `count` channels of one or two digits each and stops where no digit stands. -/
def channels : Nat → List Char → List UInt8
  | 0, _ => []
  | count + 1, s =>
    let digits := (s.take 2).takeWhile isDigit
    if digits.isEmpty then []
    else digits.foldl (fun v d => (v <<< 4) ||| digitValue d) 0 ::
      channels count (s.drop digits.length)

/-- What the lenient reader makes of a text: the solid color, and how many channels it read. -/
structure Reading where
  color : Rgba
  channels : Nat
deriving DecidableEq

/-- The lenient reader: the channels that are there, zero for the others. -/
def read (s : String) : Reading :=
  let found := channels 3 (stripHash s.toList)
  ⟨.solid (found.getD 0 0) (found.getD 1 0) (found.getD 2 0), found.length⟩

/-- The color of a text of any form. -/
def toRgba (h : Hex) : Rgba := (read h.text).color

end Hex

/-- The color of six digits after an optional `#`. -/
def Rgba.parse (s : String) : Except HexError Rgba :=
  (Hex.parse s).map Hex.toRgba

end Marginalia
