/-! Reading bytes as UTF-8. Bytes that begin no character are gathered into malformed parts, each
as long as some character could still begin with it. -/
namespace Marginalia.Text

/-- How many bytes a character has that begins with this byte; zero when none does. -/
def sequenceLength (lead : UInt8) : Nat :=
  let n := lead.toNat
  if n < 0x80 then 1
  else if 0xC2 ≤ n && n ≤ 0xDF then 2
  else if 0xE0 ≤ n && n ≤ 0xEF then 3
  else if 0xF0 ≤ n && n ≤ 0xF4 then 4
  else 0

/-- Whether a byte may stand inside a character. -/
def isContinuation (b : UInt8) : Bool := decide (0x80 ≤ b.toNat) && decide (b.toNat ≤ 0xBF)

/-- Whether a byte may follow the first byte of a longer character. Overlong forms, surrogates
and numbers past the last code point are ruled out here. -/
def mayFollow (lead b : UInt8) : Bool :=
  if lead = 0xE0 then isContinuation b && decide (0xA0 ≤ b.toNat)
  else if lead = 0xED then isContinuation b && decide (b.toNat ≤ 0x9F)
  else if lead = 0xF0 then isContinuation b && decide (0x90 ≤ b.toNat)
  else if lead = 0xF4 then isContinuation b && decide (b.toNat ≤ 0x8F)
  else isContinuation b

/-- The code point spelled by a first byte with `payload` and continuation bytes. -/
def codePoint (payload : Nat) (tail : List UInt8) : Char :=
  Char.ofNat (tail.foldl (fun n b => n * 64 + b.toNat % 64) payload)

/-- The characters that bytes spell, with nothing in the place of each malformed part. -/
def characters : List UInt8 → List (Option Char)
  | [] => []
  | a :: rest =>
    match sequenceLength a with
    | 1 => some (codePoint a.toNat []) :: characters rest
    | 2 =>
      match rest with
      | [] => [none]
      | b :: rest₁ =>
        if mayFollow a b then some (codePoint (a.toNat % 32) [b]) :: characters rest₁
        else none :: characters (b :: rest₁)
    | 3 =>
      match rest with
      | [] => [none]
      | b :: rest₁ =>
        if mayFollow a b then
          match rest₁ with
          | [] => [none]
          | c :: rest₂ =>
            if isContinuation c then
              some (codePoint (a.toNat % 16) [b, c]) :: characters rest₂
            else none :: characters (c :: rest₂)
        else none :: characters (b :: rest₁)
    | 4 =>
      match rest with
      | [] => [none]
      | b :: rest₁ =>
        if mayFollow a b then
          match rest₁ with
          | [] => [none]
          | c :: rest₂ =>
            if isContinuation c then
              match rest₂ with
              | [] => [none]
              | d :: rest₃ =>
                if isContinuation d then
                  some (codePoint (a.toNat % 8) [b, c, d]) :: characters rest₃
                else none :: characters (d :: rest₃)
            else none :: characters (c :: rest₂)
        else none :: characters (b :: rest₁)
    | _ => none :: characters rest

/-- The replacement character, which stands for what could not be read. -/
def replacement : Char := Char.ofNat 0xFFFD

/-- Reads any bytes, a replacement character standing for each malformed part. -/
def decodeLossy (bytes : List UInt8) : List Char :=
  (characters bytes).map fun c => c.getD replacement

/-- Reads well-formed bytes only. -/
def decode? (bytes : List UInt8) : Option (List Char) :=
  if (characters bytes).all Option.isSome then some ((characters bytes).filterMap id) else none

/-- The bytes of a text. -/
def encode (s : List Char) : List UInt8 := s.flatMap String.utf8EncodeChar

/-- How many bytes a text has. -/
def byteLength (s : List Char) : Nat := s.foldr (fun c n => c.utf8Size + n) 0

end Marginalia.Text
