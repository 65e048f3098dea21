import Marginalia.Calendar
import Marginalia.Color.Hex
import Marginalia.Console.Config

/-! Console records: a tag with a tinted symbol, a label and a message, after the time stamps. -/
namespace Marginalia.Console

/-- How grave a record is. -/
inductive Level where
  | error
  | warning
  | info
  | success
deriving DecidableEq

namespace Level

/-- The symbol inside the tag. -/
def symbol : Level → Char
  | .error => '!'
  | .warning => '?'
  | .info => '*'
  | .success => '+'

/-- The color of the symbol. -/
def color : Level → String
  | .error => "#E31D39"
  | .warning => "#F5CB3A"
  | .info => "#3AE6F5"
  | .success => "#3AF547"

/-- The label before the message. -/
def label : Level → String
  | .error => "Error: "
  | .warning => "Warning: "
  | .info => "Note: "
  | .success => "Success: "

/-- The name of the level in diagnostics. -/
def name : Level → String
  | .error => "Error"
  | .warning => "Warning"
  | .info => "Info"
  | .success => "Success"

end Level

/-- The escape sequence that makes the terminal write in a color. -/
def foreground (c : Rgba) : String :=
  "\x1b[38;2;" ++ toString c.red.toNat ++ ";" ++ toString c.green.toNat ++ ";" ++
    toString c.blue.toNat ++ "m"

/-- The escape sequence that takes all attributes back. -/
def reset : String := "\x1b[0m"

/-- The time stamps that a configuration asks for, each in brackets and followed by a space. -/
def stamps (config : Config) (now : Moment) : String :=
  let time := "[" ++ now.time.text ++ "] "
  let date := "[" ++ now.date.text ++ "] "
  match config.showTime, config.showDate with
  | true, true => if config.timeFirst then time ++ date else date ++ time
  | true, false => time
  | false, true => date
  | false, false => ""

/-- The tag of a level: its symbol in its color, between brackets. -/
def tag (level : Level) : String :=
  "[" ++ foreground (Hex.read level.color).color ++ String.singleton level.symbol ++ reset ++ "] "

/-- A record as it is written, up to and including its line feed. -/
def record (config : Config) (level : Level) (now : Moment) (message : String) : String :=
  stamps config now ++ tag level ++ level.label ++ message ++ reset ++ "\n"

/-- A message for the console that waits for its time stamp. -/
structure Entry where
  level : Level
  message : String
deriving DecidableEq

/-- The record of an entry written at a given time. -/
def Entry.record (config : Config) (now : Moment) (e : Entry) : String :=
  Console.record config e.level now e.message

end Marginalia.Console
