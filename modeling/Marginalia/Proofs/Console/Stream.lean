import Marginalia.Console.Logger
import Marginalia.Proofs.Console.Delivery

/-! The stream of bytes that a logger writes. Main statement: of each record one piece from its
front goes into the stream, whatever became of the records before it, and a call tells its caller
what became of its own record. -/
namespace Marginalia.Console

theorem Ending.answer_eq_done_iff {e : Ending} : e.answer = .done ↔ e = .sent := by
  cases e <;> simp [answer]

theorem Ending.answer_eq_failed_iff {e : Ending} {cause : SendError} :
    e.answer = .failed cause ↔ e = .failed cause := by
  cases e <;> simp [answer]

theorem Ending.answer_eq_crashed_iff {e : Ending} : e.answer = .crashed ↔ e = .crashed := by
  cases e <;> simp [answer]

namespace Step

variable {step : Step} {level : Level}

theorem calls_mute : (step.mute level).calls = step.calls := by
  unfold mute
  split <;> rfl

theorem accepted_mute : (step.mute level).accepted = step.accepted := by
  unfold mute
  split <;> rfl

theorem answer_mute_eq_crashed_iff :
    (step.mute level).answer = .crashed ↔ step.answer = .crashed := by
  unfold mute
  split <;> simp_all

/-- The caller of a muted delivery sees it end, unless it crashes. -/
theorem answer_mute_eq_done_iff {e : Ending} (h : step.answer = e.answer) :
    (step.mute level).answer = .done ↔ step.answer ≠ .crashed := by
  unfold mute
  cases e <;> simp [h, Ending.answer]

end Step

namespace Call

/-- The bytes of the record of a call. -/
def bytes (config : Config) (c : Call) : List UInt8 :=
  Text.encode (record config c.level c.now c.message).toList

theorem level_ofLevel (level : Level) (message : String) (now : Moment) :
    (ofLevel level message now).level = level := by
  cases level <;> rfl

theorem message_ofLevel (level : Level) (message : String) (now : Moment) :
    (ofLevel level message now).message = message := by
  cases level <;> rfl

theorem now_ofLevel (level : Level) (message : String) (now : Moment) :
    (ofLevel level message now).now = now := by
  cases level <;> rfl

/-- A call tells its caller of failures or has a level of its own. -/
theorem eq_log_or_eq_ofLevel (c : Call) :
    c = .log c.level c.message c.now ∨ c = .ofLevel c.level c.message c.now := by
  cases c with
  | log => exact .inl rfl
  | error | warning | info | success => exact .inr rfl

end Call

/-- What a step does to the destination it starts with, `text` being the record of its call. -/
structure Step.Streams (step : Step) (s : Sink) (text : List UInt8) : Prop where
  /-- The bytes are those that the destination has taken, and the record begins with them. -/
  accepted : step.accepted = s.received step.calls
  begins : step.accepted <+: text
  /-- Each write offers all that has not been accepted yet. -/
  offers : ∀ earlier offered later, step.calls = earlier ++ .write offered :: later →
    offered ≠ [] ∧ s.received earlier ++ offered = text
  /-- An interrupted write is made again. -/
  retries : ∀ earlier offered later e, step.calls = earlier ++ .write offered :: later →
    (s.after earlier).nextWrite = .fail e → e.interruption = true →
      ∃ rest, later = .write offered :: rest
  /-- There is one flush, behind the writes, if the whole record was accepted, else none. -/
  flushes : step.calls.count .flush = if step.accepted = text then 1 else 0
  last : ∀ earlier later, step.calls = earlier ++ .flush :: later → later = []
  /-- The record is accepted and flushed, unless a call on the destination stops the step. -/
  ends : (step.accepted = text ∧ s.nextFlush = .succeed) ∨ ∃ e, s.StopsWith step.calls e
  crashed : step.answer = .crashed ↔ s.StopsWith step.calls .crashed

namespace Logger

variable {l l' : Logger} {c : Call} {level : Level} {message : String} {now : Moment}

/-- All calls on the destination during these steps. -/
def made (steps : List Step) : List SinkCall := steps.flatMap Step.calls

theorem sink_eq (l : Logger) : l.sink = l.lock.sink := by
  obtain ⟨config, sink, poisoned⟩ := l
  cases poisoned <;> rfl

theorem config_new (config : Config) (s : Sink) : (new config s).config = config := rfl

theorem sink_new (config : Config) (s : Sink) : (new config s).sink = s := rfl

/-- The delivery of the record of a call. -/
def delivery (l : Logger) (c : Call) : Delivery := l.sink.send (c.bytes l.config)

theorem carries_delivery (l : Logger) (c : Call) :
    (l.delivery c).Carries l.sink (c.bytes l.config) :=
  l.sink.carries_send _

theorem call_log (l : Logger) (level : Level) (message : String) (now : Moment) :
    l.call (.log level message now) = l.log level message now := rfl

/-- Each level has its method, and all of them emit. -/
theorem call_ofLevel (l : Logger) (level : Level) (message : String) (now : Moment) :
    l.call (.ofLevel level message now) = l.emit level message now := by
  cases level <;> rfl

/-- To emit is to log and to keep the failure from the caller. -/
theorem call_ofLevel_eq (l : Logger) (level : Level) (message : String) (now : Moment) :
    l.call (.ofLevel level message now) =
      ((l.call (.log level message now)).1.mute level, (l.call (.log level message now)).2) := by
  rw [call_ofLevel, emit, call_log]

theorem step_log (l : Logger) (level : Level) (message : String) (now : Moment) :
    (l.call (.log level message now)).1 =
      let d := l.delivery (.log level message now)
      ⟨d.calls, d.accepted, d.ending.answer, none⟩ := rfl

theorem delivery_ofLevel (l : Logger) (level : Level) (message : String) (now : Moment) :
    l.delivery (.ofLevel level message now) = l.delivery (.log level message now) := by
  rw [delivery, Call.bytes, Call.level_ofLevel, Call.message_ofLevel, Call.now_ofLevel]
  rfl

theorem calls_call (l : Logger) (c : Call) : (l.call c).1.calls = (l.delivery c).calls := by
  rcases c.eq_log_or_eq_ofLevel with hc | hc
  · rw [hc, step_log]
  · rw [hc, call_ofLevel_eq, Step.calls_mute, step_log, delivery_ofLevel]

theorem accepted_call (l : Logger) (c : Call) :
    (l.call c).1.accepted = (l.delivery c).accepted := by
  rcases c.eq_log_or_eq_ofLevel with hc | hc
  · rw [hc, step_log]
  · rw [hc, call_ofLevel_eq, Step.accepted_mute, step_log, delivery_ofLevel]

/-- What a call leaves behind does not depend on whom it tells of a failure. -/
theorem call_snd (l : Logger) (c : Call) :
    (l.call c).2 = { l with lock := l.lock.leave (l.delivery c) } := by
  rcases c.eq_log_or_eq_ofLevel with hc | hc
  · rw [hc]
    rfl
  · rw [hc, call_ofLevel_eq, delivery_ofLevel]
    rfl

theorem config_call (l : Logger) (c : Call) : (l.call c).2.config = l.config := by
  rw [call_snd]

/-- A call leaves the destination as its own calls do, also when it crashes. -/
theorem sink_call (l : Logger) (c : Call) :
    (l.call c).2.sink = l.sink.after (l.call c).1.calls := by
  rw [sink_eq, calls_call, ← (l.carries_delivery c).sink, call_snd, Lock.leave]

/-- A call does not depend on what became of the lock before. -/
theorem call_congr (hconfig : l.config = l'.config) (hsink : l.sink = l'.sink) (c : Call) :
    (l.call c).1 = (l'.call c).1 := by
  have hlog (level : Level) (message : String) (now : Moment) :
      (l.call (.log level message now)).1 = (l'.call (.log level message now)).1 := by
    simp only [step_log, delivery, hconfig, hsink]
  rcases c.eq_log_or_eq_ofLevel with hc | hc
  · rw [hc, hlog]
  · rw [hc, call_ofLevel_eq, call_ofLevel_eq, hlog]

theorem answer_eq_crashed_iff :
    (l.call c).1.answer = .crashed ↔ (l.delivery c).ending = .crashed := by
  rcases c.eq_log_or_eq_ofLevel with hc | hc
  · rw [hc, step_log, Ending.answer_eq_crashed_iff]
  · rw [hc, call_ofLevel_eq, Step.answer_mute_eq_crashed_iff, step_log, delivery_ofLevel,
      Ending.answer_eq_crashed_iff]

theorem answer_ofLevel_eq_done_iff : (l.call (.ofLevel level message now)).1.answer = .done ↔
    (l.delivery (.ofLevel level message now)).ending ≠ .crashed := by
  have htold := congrArg Step.answer (l.step_log level message now)
  rw [call_ofLevel_eq, Step.answer_mute_eq_done_iff htold, ne_eq, answer_eq_crashed_iff,
    delivery_ofLevel]

/-- A failure becomes a diagnostic, and there is no other. -/
theorem dropped_ofLevel_eq_some_iff {d : Dropped} :
    (l.call (.ofLevel level message now)).1.dropped = some d ↔ d.level = level ∧
      (l.delivery (.ofLevel level message now)).ending = .failed d.cause := by
  obtain ⟨level', cause⟩ := d
  rw [call_ofLevel_eq, step_log, delivery_ofLevel]
  obtain ⟨_, _, ending, _⟩ := l.delivery (.log level message now)
  cases ending <;> simp [Step.mute, Ending.answer, eq_comm]

theorem run_cons (l : Logger) (c : Call) (calls : List Call) :
    l.run (c :: calls) = ((l.call c).1 :: ((l.call c).2.run calls).1, ((l.call c).2.run calls).2) := by
  rw [run]

theorem made_cons (step : Step) (steps : List Step) :
    made (step :: steps) = step.calls ++ made steps := by
  rw [made, List.flatMap_cons, made]

theorem run_append (l : Logger) (before after : List Call) :
    (l.run (before ++ after)).1 = (l.run before).1 ++ ((l.run before).2.run after).1 := by
  induction before generalizing l with
  | nil => rw [List.nil_append, run, List.nil_append]
  | cons c before ih => rw [List.cons_append, run_cons, run_cons, ih, List.cons_append]

theorem config_run (l : Logger) (calls : List Call) : (l.run calls).2.config = l.config := by
  induction calls generalizing l with
  | nil => rw [run]
  | cons c calls ih => rw [run_cons, ih, config_call]

theorem sink_run (l : Logger) (calls : List Call) :
    (l.run calls).2.sink = l.sink.after (made (l.run calls).1) := by
  induction calls generalizing l with
  | nil => rfl
  | cons c calls ih => rw [run_cons, ih, sink_call, made_cons, Sink.after_append]

theorem run_congr (hconfig : l.config = l'.config) (hsink : l.sink = l'.sink)
    (calls : List Call) : (l.run calls).1 = (l'.run calls).1 := by
  induction calls generalizing l l' with
  | nil => rw [run, run]
  | cons c calls ih =>
    -- The locks may differ, so both loggers are general in the induction.
    have hcall := call_congr hconfig hsink c
    have hrest : ((l.call c).2.run calls).1 = ((l'.call c).2.run calls).1 := by
      apply ih
      · rw [config_call, config_call, hconfig]
      · rw [sink_call, sink_call, hsink, hcall]
    rw [run_cons, run_cons, hcall, hrest]

/-- The stream consists of what each call got accepted. -/
theorem received_run (l : Logger) (calls : List Call) :
    l.sink.received (made (l.run calls).1) = ((l.run calls).1.map Step.accepted).flatten := by
  induction calls generalizing l with
  | nil => rfl
  | cons c calls ih =>
    have haccepted : l.sink.received (l.call c).1.calls = (l.call c).1.accepted := by
      rw [calls_call, accepted_call, (l.carries_delivery c).accepted]
    rw [run_cons, made_cons, Sink.received_append, ← sink_call, ih, haccepted, List.map_cons,
      List.flatten_cons]

theorem accepted_run (l : Logger) (calls : List Call) :
    List.Forall₂ (fun c part => part <+: c.bytes l.config) calls
      ((l.run calls).1.map Step.accepted) := by
  induction calls generalizing l with
  | nil => exact .nil
  | cons c calls ih =>
    have hrest := ih (l.call c).2
    rw [config_call] at hrest
    rw [run_cons, List.map_cons]
    -- The front of this record, whatever the calls before have left in the script.
    refine .cons ?_ hrest
    rw [accepted_call]
    exact (l.carries_delivery c).begins

/-- All records go through to a destination that accepts everything. -/
theorem accepted_run_accepting (config : Config) (calls : List Call) :
    ((new config .accepting).run calls).1.map Step.accepted = calls.map (Call.bytes config) := by
  induction calls with
  | nil => rfl
  | cons c calls ih =>
    have haccepted : ((new config .accepting).call c).1.accepted = c.bytes config := by
      rw [accepted_call]
      exact Sink.accepted_send_accepting _
    have hrest : (((new config .accepting).call c).2.run calls).1 =
        ((new config .accepting).run calls).1 := by
      apply run_congr
      · rw [config_call]
      · rw [sink_call, sink_new, Sink.after_accepting]
    rw [run_cons, List.map_cons, haccepted, hrest, ih, List.map_cons]

theorem streams_call (l : Logger) (c : Call) :
    (l.call c).1.Streams l.sink (c.bytes l.config) := by
  have h := l.carries_delivery c
  have hcalls := l.calls_call c
  have haccepted := l.accepted_call c
  have hcrashed : (l.call c).1.answer = .crashed ↔ _ :=
    answer_eq_crashed_iff.trans (h.ending_eq_iff (by simp))
  generalize (l.call c).1 = step at hcalls haccepted hcrashed
  obtain ⟨calls, accepted, answer, dropped⟩ := step
  obtain rfl : calls = _ := hcalls
  obtain rfl : accepted = _ := haccepted
  exact {
    accepted := h.accepted
    begins := h.begins
    offers := h.offers
    retries := fun _ _ _ _ => h.retried
    flushes := h.flushes
    last := h.last
    ends := h.sent_or_stopsWith
    crashed := hcrashed }

/-- A call that tells its caller does so of success and of failure. -/
theorem answer_log (l : Logger) (level : Level) (message : String) (now : Moment) :
    let c := Call.log level message now
    let step := (l.call c).1
    step.dropped = none ∧
      (step.answer = .done ↔ step.accepted = c.bytes l.config ∧ l.sink.nextFlush = .succeed) ∧
      ∀ cause, step.answer = .failed cause ↔ l.sink.StopsWith step.calls (.failed cause) := by
  intro c step
  have h := l.carries_delivery c
  have hstep : step = ⟨(l.delivery c).calls, (l.delivery c).accepted,
      (l.delivery c).ending.answer, none⟩ := l.step_log level message now
  rw [hstep]
  refine ⟨rfl, ?_, fun cause => ?_⟩
  · rw [Ending.answer_eq_done_iff, h.sent]
  · rw [Ending.answer_eq_failed_iff, h.ending_eq_iff (by simp)]

/-- A call with a level of its own returns unless it crashes, and a failure is dropped. -/
theorem answer_ofLevel (l : Logger) (level : Level) (message : String) (now : Moment) :
    let step := (l.call (.ofLevel level message now)).1
    (step.answer = .done ↔ ¬l.sink.StopsWith step.calls .crashed) ∧
      ∀ d, step.dropped = some d ↔
        d.level = level ∧ l.sink.StopsWith step.calls (.failed d.cause) := by
  intro step
  have h := l.carries_delivery (.ofLevel level message now)
  have hcalls : step.calls = _ := l.calls_call (.ofLevel level message now)
  rw [hcalls]
  constructor
  · rw [← h.ending_eq_iff (by simp)]
    exact answer_ofLevel_eq_done_iff
  · intro d
    rw [← h.ending_eq_iff (by simp)]
    exact dropped_ofLevel_eq_some_iff

/-- The steps of a logger are those of a new one with what is left of the script. -/
theorem run_append_cons (l : Logger) (before : List Call) (c : Call) (after : List Call) :
    let s := l.sink.after (made (l.run before).1)
    let step := ((new l.config s).call c).1
    (l.run (before ++ c :: after)).1 =
      (l.run before).1 ++ step :: ((new l.config (s.after step.calls)).run after).1 := by
  dsimp only
  generalize hs : l.sink.after (made (l.run before).1) = s
  have hconfig := l.config_run before
  have hsink := (l.sink_run before).trans hs
  rw [run_append, run_cons]
  -- Of the calls before only the rest of the script is left, and the lock does not matter.
  generalize (l.run before).2 = left at hconfig hsink
  have hcall : (left.call c).1 = ((new l.config s).call c).1 := by
    apply call_congr
    · rw [hconfig, config_new]
    · rw [hsink, sink_new]
  have hrest : ((left.call c).2.run after).1 =
      ((new l.config (s.after ((new l.config s).call c).1.calls)).run after).1 := by
    apply run_congr
    · rw [config_call, hconfig, config_new]
    · rw [sink_call, hcall, hsink, sink_new]
  rw [hcall, hrest]

/-- Whatever the destination does, the bytes that it accepts in a run are one piece of each record
from its front, in the order of the calls. Each step of a run is that of a new logger whose
destination goes on with its script. In a step, whichever call it is for, each write offers what is
left of the record, again after an interruption; there is one flush, behind the writes, if the
record was accepted as a whole, and none otherwise; and the record gets through unless a call on the
destination stops the step. A caller that is to be told hears of success exactly when this flush
succeeded, and else of the first call that stopped the step; for the others, this failure is
dropped. -/
theorem run_stream (l : Logger) (calls : List Call) :
    (l.run calls).2.sink = l.sink.after (made (l.run calls).1) ∧
    (∃ parts, List.Forall₂ (fun c part => part <+: c.bytes l.config) calls parts ∧
      l.sink.received (made (l.run calls).1) = parts.flatten) ∧
    ∀ before c after, calls = before ++ c :: after →
      let s := l.sink.after (made (l.run before).1)
      let step := ((new l.config s).call c).1
      (l.run calls).1 =
        (l.run before).1 ++ step :: ((new l.config (s.after step.calls)).run after).1 ∧
      step.Streams s (c.bytes l.config) ∧
      (∀ level message now, c = .log level message now →
        step.dropped = none ∧
          (step.answer = .done ↔ step.accepted = c.bytes l.config ∧ s.nextFlush = .succeed) ∧
          ∀ cause, step.answer = .failed cause ↔ s.StopsWith step.calls (.failed cause)) ∧
      ∀ level message now, c = .ofLevel level message now →
        (step.answer = .done ↔ ¬s.StopsWith step.calls .crashed) ∧
          ∀ d, step.dropped = some d ↔
            d.level = level ∧ s.StopsWith step.calls (.failed d.cause) := by
  refine ⟨l.sink_run calls, ⟨_, l.accepted_run calls, l.received_run calls⟩, ?_⟩
  intro before c after hcalls s step
  have hstep := (new l.config s).streams_call c
  rw [config_new, sink_new] at hstep
  refine ⟨?_, hstep, ?_, ?_⟩
  · rw [hcalls]
    exact l.run_append_cons before c after
  · rintro level message now rfl
    exact (new l.config s).answer_log level message now
  · rintro level message now rfl
    exact (new l.config s).answer_ofLevel level message now

/-- A destination that accepts a little, asks for the rest again, breaks down, and crashes when it
is flushed. -/
def faltering : Sink := ⟨[.accept 2, .fail ⟨true, "again"⟩, .fail ⟨false, "gone"⟩], [.crash]⟩

def lowNote : Call := .warning "space is low" ⟨0, 0, 0⟩

def lateNote : Call := .log .info "still here" ⟨0, 0, 0⟩

/-- Of the warning two bytes remain, and its failure is dropped after three writes. The next record
crashes when it is flushed, and the last one gets through. -/
theorem run_stream_faltering :
    [lowNote, lateNote, lateNote] = [] ++ lowNote :: [lateNote, lateNote] ∧
      [lowNote, lateNote, lateNote] = [lowNote, lateNote] ++ lateNote :: [] ∧
      ∃ first second third,
        ((new .plain faltering).run [lowNote, lateNote, lateNote]).1 = [first, second, third] ∧
        (first.accepted.length = 2 ∧ first.calls.length = 3 ∧ first.answer = .done ∧
          first.dropped = some ⟨.warning, .sink ⟨false, "gone"⟩⟩ ∧
          faltering.StopsWith first.calls (.failed (.sink ⟨false, "gone"⟩))) ∧
        second.answer = .crashed ∧
        third.answer = .done ∧ third.accepted = lateNote.bytes .plain := by
  have hstream := (run_stream (new .plain faltering) [lowNote, lateNote, lateNote]).2.2
  have hfirst : [lowNote, lateNote, lateNote] = [] ++ lowNote :: [lateNote, lateNote] := rfl
  have hlast : [lowNote, lateNote, lateNote] = [lowNote, lateNote] ++ lateNote :: [] := rfl
  obtain ⟨-, -, -, hlow⟩ := hstream _ _ _ hfirst
  obtain ⟨hrun, -, hlate, -⟩ := hstream _ _ _ hlast
  obtain ⟨-, hdropped⟩ := hlow .warning "space is low" ⟨0, 0, 0⟩ rfl
  obtain ⟨-, hdone, -⟩ := hlate .info "still here" ⟨0, 0, 0⟩ rfl
  have hfailed : ((new .plain faltering).call lowNote).1.dropped =
      some ⟨.warning, .sink ⟨false, "gone"⟩⟩ := by
    decide +kernel
  have hsent : ((new .plain (faltering.after (made
      ((new .plain faltering).run [lowNote, lateNote]).1))).call lateNote).1.answer = .done := by
    decide +kernel
  refine ⟨hfirst, hlast, _, _, _, hrun, ⟨?_, ?_, ?_, hfailed, ((hdropped _).mp hfailed).2⟩, ?_,
    hsent, (hdone.mp hsent).1⟩
  all_goals decide +kernel

end Logger

end Marginalia.Console
