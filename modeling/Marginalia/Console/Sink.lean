import Marginalia.Text.Utf8

/-! A destination for bytes that may accept less than it is offered, fail, or crash. Its behaviour
is a script: one action for each time it is asked to write, and one for each flush. -/
namespace Marginalia.Console

/-- A failure reported by the destination. An interruption asks for the same write again. -/
structure SinkError where
  interruption : Bool
  message : String
deriving DecidableEq

/-- What the destination does when it is offered bytes. -/
inductive WriteAction where
  | acceptAll
  | accept (limit : Nat)
  | fail (e : SinkError)
  | crash
deriving DecidableEq

/-- What the destination does when it is flushed. -/
inductive FlushAction where
  | succeed
  | fail (e : SinkError)
  | crash
deriving DecidableEq

/-- A destination by the actions still to come; after them it accepts everything. -/
structure Sink where
  writes : List WriteAction
  flushes : List FlushAction
deriving DecidableEq

/-- Something asked of the destination. -/
inductive SinkCall where
  | write (offered : List UInt8)
  | flush
deriving DecidableEq

/-- Why a text did not get through. -/
inductive SendError where
  | sink (e : SinkError)
  | nothingAccepted
deriving DecidableEq

def SendError.message : SendError → String
  | .sink e => e.message
  | .nothingAccepted => "failed to write whole buffer"

/-- How sending a text ended. -/
inductive Ending where
  | sent
  | failed (e : SendError)
  | crashed
deriving DecidableEq

/-- What happened while a text was sent: the calls made, the bytes accepted, the ending, and the
destination afterwards. -/
structure Delivery where
  calls : List SinkCall
  accepted : List UInt8
  ending : Ending
  sink : Sink
deriving DecidableEq

namespace Sink

/-- Offers bytes, then what is left of them, until all are accepted. An interrupted write is made
again; a write that accepts nothing is a failure. -/
def offer : List WriteAction → List FlushAction → List UInt8 → Delivery
  | writes, flushes, [] => ⟨[], [], .sent, ⟨writes, flushes⟩⟩
  | [], flushes, bytes => ⟨[.write bytes], bytes, .sent, ⟨[], flushes⟩⟩
  | .acceptAll :: writes, flushes, bytes => ⟨[.write bytes], bytes, .sent, ⟨writes, flushes⟩⟩
  | .accept limit :: writes, flushes, bytes =>
    if limit = 0 then ⟨[.write bytes], [], .failed .nothingAccepted, ⟨writes, flushes⟩⟩
    else
      let d := offer writes flushes (bytes.drop limit)
      { d with calls := .write bytes :: d.calls, accepted := bytes.take limit ++ d.accepted }
  | .fail e :: writes, flushes, bytes =>
    if e.interruption then
      let d := offer writes flushes bytes
      { d with calls := .write bytes :: d.calls }
    else ⟨[.write bytes], [], .failed (.sink e), ⟨writes, flushes⟩⟩
  | .crash :: writes, flushes, bytes => ⟨[.write bytes], [], .crashed, ⟨writes, flushes⟩⟩

/-- The answer of the destination to a flush, and the destination afterwards. -/
def flush (s : Sink) : Ending × Sink :=
  match s.flushes with
  | [] => (.sent, s)
  | .succeed :: rest => (.sent, { s with flushes := rest })
  | .fail e :: rest => (.failed (.sink e), { s with flushes := rest })
  | .crash :: rest => (.crashed, { s with flushes := rest })

/-- Sends bytes: a flush follows once they are all accepted, and is not made twice. -/
def send (s : Sink) (bytes : List UInt8) : Delivery :=
  let d := offer s.writes s.flushes bytes
  match d.ending with
  | .sent =>
    let (ending, sink) := d.sink.flush
    { d with calls := d.calls ++ [.flush], ending, sink }
  | _ => d

end Sink

end Marginalia.Console
