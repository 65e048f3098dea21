import Marginalia.Console.Record

/-! What a command leaves to be done by the process that runs it. -/
namespace Marginalia.Command

/-- Text for standard output, console records after it, text for standard error, and the exit
status. -/
structure Outcome where
  config : Console.Config
  plain : String
  entries : List Console.Entry
  errors : String
  status : Nat
deriving DecidableEq

/-- Standard output, the clock showing `clock i` for the record of number `i`. -/
def Outcome.output (o : Outcome) (clock : Nat → Moment) : String :=
  o.plain ++ String.join (o.entries.mapIdx fun i e => e.record o.config (clock i))

end Marginalia.Command
