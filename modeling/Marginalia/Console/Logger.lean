import Marginalia.Console.Record
import Marginalia.Console.Sink

/-! A logger writes records to a destination, one after the other. -/
namespace Marginalia.Console

/-- A destination behind a lock. The lock is poisoned once a holder of it has crashed. -/
structure Lock where
  sink : Sink
  poisoned : Bool
deriving DecidableEq

/-- A new lock is not poisoned. -/
instance : Coe Sink Lock := ⟨fun s => ⟨s, false⟩⟩

namespace Lock

/-- Takes the lock. A poisoned one is refused, with the destination inside the refusal. -/
def take (l : Lock) : Except Sink Sink := if l.poisoned then .error l.sink else .ok l.sink

/-- The destination behind the lock, poisoned or not: a crash leaves nothing to be mended in it. -/
def enter (l : Lock) : Sink :=
  match l.take with
  | .ok s => s
  | .error s => s

/-- The lock after its holder has sent a text. -/
def leave (l : Lock) (d : Delivery) : Lock :=
  ⟨d.sink, l.poisoned || decide (d.ending = .crashed)⟩

end Lock

/-- A configuration and the destination of the records. -/
structure Logger where
  config : Config
  lock : Lock
deriving DecidableEq

/-- What the text of a failed record's error says. -/
def SendError.logMessage (e : SendError) : String := "failed to write log record: " ++ e.message

/-- What a call gives back to its caller, if the process goes on. -/
inductive Answer where
  | done
  | failed (e : SendError)
  | crashed
  | exited (status : Nat)
deriving DecidableEq

/-- What the caller of a delivery is told. -/
def Ending.answer : Ending → Answer
  | .sent => .done
  | .failed e => .failed e
  | .crashed => .crashed

/-- A record that was given up, and why. -/
structure Dropped where
  level : Level
  cause : SendError
deriving DecidableEq

def Dropped.text (d : Dropped) : String :=
  "dropped " ++ d.level.name ++ " record: " ++ d.cause.logMessage

/-- All that a call did: the calls on the destination, the bytes it accepted, the answer to the
caller and the record that was dropped, if one was. -/
structure Step where
  calls : List SinkCall
  accepted : List UInt8
  answer : Answer
  dropped : Option Dropped
deriving DecidableEq

/-- The step with a diagnostic in the place of a failure. A crash still reaches the caller. -/
def Step.mute (level : Level) (step : Step) : Step :=
  match step.answer with
  | .failed e => { step with answer := .done, dropped := some ⟨level, e⟩ }
  | _ => step

/-- The step with the end of the process behind it, unless it crashes before. -/
def Step.quit (step : Step) : Step :=
  if step.answer = .crashed then step else { step with answer := .exited 1 }

/-- A call on the logger, made at a given time. One takes its level and tells its caller of a
failure, the others have a level of their own and tell nobody. None of them ends the process. -/
inductive Call where
  | log (level : Level) (message : String) (now : Moment)
  | error (message : String) (now : Moment)
  | warning (message : String) (now : Moment)
  | info (message : String) (now : Moment)
  | success (message : String) (now : Moment)
deriving DecidableEq

namespace Call

/-- The call that has a level of its own. -/
def ofLevel : Level → String → Moment → Call
  | .error => .error
  | .warning => .warning
  | .info => .info
  | .success => .success

def level : Call → Level
  | .log level _ _ => level
  | .error _ _ => .error
  | .warning _ _ => .warning
  | .info _ _ => .info
  | .success _ _ => .success

def message : Call → String
  | .log _ message _ | .error message _ | .warning message _ | .info message _
  | .success message _ => message

def now : Call → Moment
  | .log _ _ now | .error _ now | .warning _ now | .info _ now | .success _ now => now

end Call

namespace Logger

/-- A logger that has not been used. -/
def new (config : Config) (sink : Sink) : Logger := ⟨config, sink⟩

/-- The destination, taken back from a logger. -/
def sink (l : Logger) : Sink := l.lock.enter

/-- Sends the record of a message and tells the caller what became of it. A crash poisons the
lock. -/
def log (l : Logger) (level : Level) (message : String) (now : Moment) : Step × Logger :=
  let d := l.sink.send (Text.encode (record l.config level now message).toList)
  (⟨d.calls, d.accepted, d.ending.answer, none⟩, { l with lock := l.lock.leave d })

/-- Logs a message without a word of failure to the caller. -/
def emit (l : Logger) (level : Level) (message : String) (now : Moment) : Step × Logger :=
  let (step, l) := l.log level message now
  (step.mute level, l)

/-- Logs an error, and with `quit` ends the process behind it. -/
def error (l : Logger) (quit : Bool) (message : String) (now : Moment) : Step × Logger :=
  let (step, l) := l.emit .error message now
  (if quit then step.quit else step, l)

def warning (l : Logger) (message : String) (now : Moment) : Step × Logger :=
  l.emit .warning message now

def info (l : Logger) (message : String) (now : Moment) : Step × Logger :=
  l.emit .info message now

def success (l : Logger) (message : String) (now : Moment) : Step × Logger :=
  l.emit .success message now

/-- Makes one call. -/
def call (l : Logger) : Call → Step × Logger
  | .log level message now => l.log level message now
  | .error message now => l.error false message now
  | .warning message now => l.warning message now
  | .info message now => l.info message now
  | .success message now => l.success message now

/-- Makes calls one after the other. -/
def run : Logger → List Call → List Step × Logger
  | l, [] => ([], l)
  | l, c :: rest =>
    let (step, l) := l.call c
    let (steps, l) := run l rest
    (step :: steps, l)

end Logger

end Marginalia.Console
