import Marginalia.Binary32.Basic

/-! JSON values, as far as they can be colors. -/
namespace Marginalia

/-- A number as it is written: without fraction and exponent, or with one of them. -/
inductive JsonNumber where
  | integer (n : Int)
  | decimal (negative : Bool) (magnitude : Rat)
deriving DecidableEq

inductive Json where
  | null
  | bool (b : Bool)
  | number (n : JsonNumber)
  | text (s : String)
  | array (items : List Json)
  | object (fields : List (String × Json))
deriving Inhabited

namespace JsonNumber

/-- A number written with fraction or exponent, or too long for 64 bits, is rounded to 64 bits
first and then to 32 bits; other integers are rounded once. -/
def toBinary32 : JsonNumber → Binary32
  | .integer n =>
    if -0x8000000000000000 ≤ n ∧ n < 0x10000000000000000 then .ofRat false n
    else twice (decide (n < 0)) n.natAbs
  | .decimal negative magnitude => twice negative magnitude
where
  /-- Rounds a magnitude to 64 bits and then to 32 bits. -/
  twice (negative : Bool) (magnitude : Rat) : Binary32 :=
    let x := BinaryFormat.double.round magnitude
    .ofRat negative (if negative then -x else x)

/-- The integers from 0 to 255 are bytes. -/
def toByte? : JsonNumber → Option UInt8
  | .integer n => if 0 ≤ n ∧ n ≤ 255 then some (UInt8.ofNat n.toNat) else none
  | .decimal _ _ => none

end JsonNumber

namespace Json

def byte? : Json → Option UInt8
  | .number n => n.toByte?
  | _ => none

def binary32? : Json → Option Binary32
  | .number n => some n.toBinary32
  | _ => none

/-- The value of a name that stands in an object, which must not repeat it. -/
def field? (fields : List (String × Json)) (name : String) : Option Json :=
  match fields.filter fun f => f.1 = name with
  | [f] => some f.2
  | _ => none

/-- The values of some fields, in their order: an object has to have them all and may have others,
an array has to have as many items as there are fields. -/
def fields? (names : List String) : Json → Option (List Json)
  | .object fields => names.mapM (field? fields)
  | .array items => if items.length = names.length then some items else none
  | _ => none

end Json

end Marginalia
