import Marginalia.Text.Blank
import Marginalia.Text.Utf8

/-! Which time stamps stand before console records, and how the environment chooses them. -/
namespace Marginalia.Console

/-- Which time stamps a record starts with, and whether the time precedes the date. -/
structure Config where
  showTime : Bool := false
  showDate : Bool := false
  timeFirst : Bool := false
deriving DecidableEq

/-- The bytes of each environment variable that is set. -/
abbrev Environment := String → Option (List UInt8)

namespace Config

/-- Records without time stamps. -/
def plain : Config := {}

def withTime (c : Config) (on : Bool) : Config := { c with showTime := on }

def withDate (c : Config) (on : Bool) : Config := { c with showDate := on }

def withTimeFirst (c : Config) (on : Bool) : Config := { c with timeFirst := on }

/-- Values that turn a flag off, whatever their ASCII case and the blanks around them. -/
def offValues : List (List Char) :=
  [['0'], ['f', 'a', 'l', 's', 'e'], ['o', 'f', 'f'], ['n', 'o']]

/-- Whether a flag with this value is on: any value turns it on that is not an off value. -/
def isOn (value : List Char) : Bool :=
  !offValues.contains ((Text.trim value).map Char.toLower)

/-- A flag is on when its variable is set to well-formed text that turns it on. -/
def flag (value : Option (List UInt8)) : Bool :=
  match value.bind Text.decode? with
  | some s => isOn s
  | none => false

/-- The variables that hold the three flags. -/
def variableNames : List String := ["MLOG_SHOW_TIME", "MLOG_SHOW_DATE", "MLOG_TIME_FIRST"]

/-- The configuration that the environment asks for. -/
def ofEnvironment (env : Environment) : Config where
  showTime := flag (env "MLOG_SHOW_TIME")
  showDate := flag (env "MLOG_SHOW_DATE")
  timeFirst := flag (env "MLOG_TIME_FIRST")

end Config

end Marginalia.Console
