import Marginalia.Text.Escaped

/-! Texts between double quotes, as messages show the texts and paths they are about. -/
namespace Marginalia.Text

/-- A character as it stands between quotes: quote, backslash and the common controls behind a
backslash, what cannot be shown by its number in hexadecimal, any other as itself. -/
def quotedChar (c : Char) : List Char :=
  if c = Char.ofNat 0 then ['\\', '0']
  else if c = '\t' then ['\\', 't']
  else if c = '\r' then ['\\', 'r']
  else if c = '\n' then ['\\', 'n']
  else if c = '"' then ['\\', '"']
  else if c = '\\' then ['\\', '\\']
  else if c.toNat < 0x20 || isEscaped c then
    ['\\', 'u', '\x7b'] ++ Nat.toDigits 16 c.toNat ++ ['\x7d']
  else [c]

/-- A text between double quotes. -/
def quoted (s : String) : String :=
  String.ofList ('"' :: s.toList.flatMap quotedChar ++ ['"'])

end Marginalia.Text
