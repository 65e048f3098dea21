import Marginalia.Console.Record

/-! The logger of a process, whose configuration is decided once: by the first step that installs
one, or from the environment by the first step that uses it before. -/
namespace Marginalia.Console

/-- What a process may ask of its logger. An error can end the process. -/
inductive Request where
  | install (config : Config)
  | readConfig
  | error (quit : Bool) (message : String)
  | warning (message : String)
  | info (message : String)
  | success (message : String)
deriving DecidableEq

/-- What the process is told. A request that ends the process is not answered. -/
inductive Reply where
  | done
  | alreadyInstalled
  | config (c : Config)
deriving DecidableEq

/-- The text of the error when a logger is installed too late. -/
def alreadyInstalledMessage : String := "global logger has already been initialized"

/-- A session so far: the configuration once it is decided, the replies, the entries written, and
whether the process has quit. -/
structure Session where
  config : Option Config
  replies : List Reply
  entries : List Entry
  quit : Bool
deriving DecidableEq

namespace Session

def start : Session := ⟨none, [], [], false⟩

/-- The configuration that a step which uses the logger works with. -/
def decided (s : Session) (env : Environment) : Config :=
  s.config.getD (.ofEnvironment env)

/-- The session after it has written an entry. -/
def write (env : Environment) (s : Session) (e : Entry) : Session :=
  { s with
    config := some (s.decided env)
    replies := s.replies ++ [.done]
    entries := s.entries ++ [e] }

/-- Serves one request. After the process has quit nothing happens any more. -/
def step (env : Environment) (s : Session) (r : Request) : Session :=
  if s.quit then s
  else
    match r with
    | .install c =>
      match s.config with
      | none => { s with config := some c, replies := s.replies ++ [.done] }
      | some _ => { s with replies := s.replies ++ [.alreadyInstalled] }
    | .readConfig =>
      let c := s.decided env
      { s with config := some c, replies := s.replies ++ [.config c] }
    | .error false message => s.write env ⟨.error, message⟩
    | .error true message => { s.write env ⟨.error, message⟩ with replies := s.replies, quit := true }
    | .warning message => s.write env ⟨.warning, message⟩
    | .info message => s.write env ⟨.info, message⟩
    | .success message => s.write env ⟨.success, message⟩

/-- Serves requests in order. -/
def run (env : Environment) (requests : List Request) : Session :=
  requests.foldl (step env) start

/-- The exit status of the process. -/
def status (s : Session) : Nat := if s.quit then 1 else 0

/-- What the process has written to standard output, the clock showing `clock i` when it wrote
its entry of number `i`. -/
def output (s : Session) (env : Environment) (clock : Nat → Moment) : String :=
  String.join (s.entries.mapIdx fun i e => e.record (s.decided env) (clock i))

end Session

end Marginalia.Console
