import Marginalia.Console.Sink
import Mathlib.Data.List.Basic

/-! A delivery as its destination sees it: a row of calls, each answered by the next action of the
script. What a delivery does is said in these terms, without the loop that makes the calls. -/
namespace Marginalia.Console

/-- The bytes that an action takes of an offer. -/
def WriteAction.taken : WriteAction → List UInt8 → List UInt8
  | .acceptAll, offered => offered
  | .accept limit, offered => offered.take limit
  | .fail _, _ => []
  | .crash, _ => []

/-- How a write ends a delivery, if it does: by a failure other than an interruption, by nothing
being accepted, or by a crash. -/
def WriteAction.stop? : WriteAction → Option Ending
  | .acceptAll => none
  | .accept limit => if limit = 0 then some (.failed .nothingAccepted) else none
  | .fail e => if e.interruption then none else some (.failed (.sink e))
  | .crash => some .crashed

/-- How a flush spoils a delivery, if it does. Here an interruption is a failure like others. -/
def FlushAction.stop? : FlushAction → Option Ending
  | .succeed => none
  | .fail e => some (.failed (.sink e))
  | .crash => some .crashed

namespace Sink

def nextWrite (s : Sink) : WriteAction := s.writes.headD .acceptAll

def nextFlush (s : Sink) : FlushAction := s.flushes.headD .succeed

/-- How a call stops a delivery, if it does. -/
def stop? (s : Sink) : SinkCall → Option Ending
  | .write _ => s.nextWrite.stop?
  | .flush => s.nextFlush.stop?

/-- The bytes that are accepted at a call. -/
def taken (s : Sink) : SinkCall → List UInt8
  | .write offered => s.nextWrite.taken offered
  | .flush => []

/-- The destination after a call: an action of the script is used up. -/
def afterCall (s : Sink) : SinkCall → Sink
  | .write _ => { s with writes := s.writes.tail }
  | .flush => { s with flushes := s.flushes.tail }

/-- The destination after a row of calls. -/
def after (s : Sink) (calls : List SinkCall) : Sink := calls.foldl afterCall s

/-- The bytes that are accepted during a row of calls. -/
def received : Sink → List SinkCall → List UInt8
  | _, [] => []
  | s, c :: rest => s.taken c ++ received (s.afterCall c) rest

variable {s : Sink} {text rest : List UInt8} {d : Delivery} {e : Ending}

theorem after_cons (s : Sink) (c : SinkCall) (rest : List SinkCall) :
    s.after (c :: rest) = (s.afterCall c).after rest := rfl

theorem after_append (s : Sink) (before rest : List SinkCall) :
    s.after (before ++ rest) = (s.after before).after rest := by
  unfold after
  exact List.foldl_append

theorem received_append (s : Sink) (before rest : List SinkCall) :
    s.received (before ++ rest) = s.received before ++ (s.after before).received rest := by
  induction before generalizing s with
  | nil => rfl
  | cons c before ih =>
    rw [List.cons_append, received, received, ih, List.append_assoc]
    rfl

theorem drop_length_take (limit : Nat) (offered : List UInt8) :
    offered.drop (offered.take limit).length = offered.drop limit := by
  rw [List.length_take]
  rcases Nat.le_total limit offered.length with h | h
  · rw [Nat.min_eq_left h]
  · rw [Nat.min_eq_right h, List.drop_length, List.drop_eq_nil_of_le h]

/-- What an action takes is the front of the offer. -/
theorem taken_append_drop (a : WriteAction) (offered : List UInt8) :
    a.taken offered ++ offered.drop (a.taken offered).length = offered := by
  cases a with
  | acceptAll => simp [WriteAction.taken]
  | accept limit => rw [WriteAction.taken, drop_length_take, List.take_append_drop]
  | fail | crash => rfl

theorem offer_nil (s : Sink) : offer s.writes s.flushes [] = ⟨[], [], .sent, s⟩ := by
  rw [offer.eq_def]

/-- An offer is one write, which stops the delivery or is followed by the offer of what it has
left. -/
theorem offer_of_ne_nil (s : Sink) (hne : text ≠ []) :
    offer s.writes s.flushes text =
      match s.nextWrite.stop? with
      | some e => ⟨[.write text], [], e, s.afterCall (.write text)⟩
      | none =>
        let d := offer s.writes.tail s.flushes (text.drop (s.nextWrite.taken text).length)
        { d with
          calls := .write text :: d.calls
          accepted := s.nextWrite.taken text ++ d.accepted } := by
  obtain ⟨writes, flushes⟩ := s
  obtain ⟨b, text, rfl⟩ := List.exists_cons_of_ne_nil hne
  -- A write that takes everything leaves nothing to be offered.
  have hall : offer writes.tail flushes ((b :: text).drop (b :: text).length) =
      ⟨[], [], .sent, ⟨writes.tail, flushes⟩⟩ := by
    rw [List.drop_length]
    exact offer_nil ⟨writes.tail, flushes⟩
  cases writes with
  | nil => simp_all [offer.eq_def, nextWrite, WriteAction.stop?, WriteAction.taken]
  | cons a writes =>
    cases a with
    | acceptAll => simp_all [offer.eq_def, nextWrite, WriteAction.stop?, WriteAction.taken]
    | accept limit =>
      simp only [nextWrite, List.headD_cons, WriteAction.stop?, WriteAction.taken,
        drop_length_take, List.tail_cons]
      split_ifs with hlimit
      · simp [offer, hlimit, afterCall]
      · simp [offer, hlimit]
    | fail failure =>
      simp only [nextWrite, List.headD_cons, WriteAction.stop?, WriteAction.taken, List.tail_cons]
      split_ifs with hinterruption
      · simp [offer, hinterruption]
      · simp [offer, hinterruption, afterCall]
    | crash => rfl

theorem stop?_ne_sent (s : Sink) (c : SinkCall) : s.stop? c ≠ some .sent := by
  cases c with
  | write offered =>
    rw [stop?]
    cases s.nextWrite <;> simp [WriteAction.stop?]
  | flush =>
    rw [stop?]
    cases s.nextFlush <;> simp [FlushAction.stop?]

/-- Nothing is accepted at a call that stops the delivery. -/
theorem taken_of_stop {c : SinkCall} (hstop : s.stop? c = some e) : s.taken c = [] := by
  cases c with
  | flush => rfl
  | write offered =>
    rw [stop?] at hstop
    rw [taken]
    cases ha : s.nextWrite with
    | acceptAll =>
      rw [ha, WriteAction.stop?] at hstop
      exact absurd hstop (by simp)
    | accept limit =>
      rw [ha, WriteAction.stop?] at hstop
      split at hstop
      · next hlimit => rw [hlimit, WriteAction.taken, List.take_zero]
      · exact absurd hstop (by simp)
    | fail | crash => rfl

theorem send_nil (s : Sink) :
    s.send [] = ⟨[.flush], [], (s.stop? .flush).getD .sent, s.afterCall .flush⟩ := by
  simp only [send, offer_nil]
  obtain ⟨writes, flushes⟩ := s
  cases flushes with
  | nil => rfl
  | cons a flushes => cases a <;> rfl

/-- A write that stops the delivery is its only call. -/
theorem send_of_stop (hne : text ≠ []) (hstop : s.stop? (.write text) = some e) :
    s.send text = ⟨[.write text], [], e, s.afterCall (.write text)⟩ := by
  have he : e ≠ .sent := by
    rintro rfl
    exact s.stop?_ne_sent _ hstop
  rw [stop?] at hstop
  simp only [send, offer_of_ne_nil s hne, hstop]

/-- Any other write is followed by the delivery of what it has left. -/
theorem send_of_not_stop (hne : text ≠ []) (hstop : s.stop? (.write text) = none) :
    s.send text =
      let d := (s.afterCall (.write text)).send (text.drop (s.nextWrite.taken text).length)
      { d with
        calls := .write text :: d.calls
        accepted := s.nextWrite.taken text ++ d.accepted } := by
  rw [stop?] at hstop
  simp only [send, offer_of_ne_nil s hne, hstop, afterCall]
  split <;> rfl

end Sink

/-- The last of these calls is the first one that stops, and stops in this way. -/
def Sink.StopsWith (s : Sink) (calls : List SinkCall) (e : Ending) : Prop :=
  ∃ before c, calls = before ++ [c] ∧ (s.after before).stop? c = some e ∧
    ∀ earlier b later, before = earlier ++ b :: later → (s.after earlier).stop? b = none

/-- What a delivery of a text is for its destination. -/
structure Delivery.Carries (d : Delivery) (s : Sink) (text : List UInt8) : Prop where
  /-- The bytes are those that the destination has taken, and the text begins with them. -/
  accepted : d.accepted = s.received d.calls
  begins : d.accepted <+: text
  /-- Each write offers all that has not been accepted yet, and there is something to offer. -/
  offers : ∀ before offered after, d.calls = before ++ .write offered :: after →
    offered ≠ [] ∧ s.received before ++ offered = text
  /-- There is one flush, behind everything else, if the whole text was accepted, else none. -/
  flushes : d.calls.count .flush = if d.accepted = text then 1 else 0
  last : ∀ before after, d.calls = before ++ .flush :: after → after = []
  /-- A call that stops the delivery is the last one and says how it ends. -/
  stops : ∀ before c after e, d.calls = before ++ c :: after →
    (s.after before).stop? c = some e → after = [] ∧ d.ending = e
  /-- The delivery succeeds if all is accepted and flushed, and else there is a call that stops. -/
  sent : d.ending = .sent ↔ d.accepted = text ∧ s.nextFlush = .succeed
  stopped : d.ending ≠ .sent →
    ∃ before c, d.calls = before ++ [c] ∧ (s.after before).stop? c = some d.ending
  sink : d.sink = s.after d.calls

namespace Delivery.Carries

variable {s : Sink} {text : List UInt8} {d : Delivery}

theorem singleton_eq_append_cons {x y : SinkCall} {before after : List SinkCall}
    (h : [x] = before ++ y :: after) : before = [] ∧ y = x ∧ after = [] := by
  obtain ⟨rfl, hy⟩ | ⟨rest, rfl, hnil⟩ := List.cons_eq_append_iff.mp h
  · obtain ⟨rfl, rfl⟩ := List.cons.inj hy
    exact ⟨rfl, rfl, rfl⟩
  · exact absurd hnil (by simp)

-- Nothing to offer: a flush is the only call.
theorem of_nil (s : Sink) : (s.send []).Carries s [] := by
  rw [Sink.send_nil]
  have hsent : (s.stop? .flush).getD .sent = .sent ↔ s.nextFlush = .succeed := by
    rw [Sink.stop?]
    cases s.nextFlush <;> simp [FlushAction.stop?]
  constructor
  case accepted => rfl
  case begins => exact List.nil_prefix
  case offers =>
    intro before offered after h
    exact absurd (singleton_eq_append_cons h).2.1 (by simp)
  case flushes => simp
  case last =>
    intro before after h
    exact (singleton_eq_append_cons h).2.2
  case stops =>
    intro before c after e h he
    obtain ⟨rfl, rfl, rfl⟩ := singleton_eq_append_cons h
    have he' : s.stop? .flush = some e := he
    exact ⟨rfl, by rw [he']; rfl⟩
  case sent => rw [hsent, and_iff_right rfl]
  case stopped =>
    intro hne
    refine ⟨[], .flush, rfl, ?_⟩
    change s.stop? .flush = some ((s.stop? .flush).getD .sent)
    cases hstop : s.stop? .flush with
    | none => exact absurd (by rw [hstop]; rfl) hne
    | some e => rfl
  case sink => rfl

theorem of_stop {e : Ending} (hne : text ≠ []) (hstop : s.stop? (.write text) = some e) :
    Carries ⟨[.write text], [], e, s.afterCall (.write text)⟩ s text := by
  have he : e ≠ .sent := by
    rintro rfl
    exact s.stop?_ne_sent _ hstop
  have htaken := Sink.taken_of_stop hstop
  constructor
  case accepted => rw [Sink.received, Sink.received, htaken]; rfl
  case begins => exact List.nil_prefix
  case offers =>
    intro before offered after h
    obtain ⟨rfl, hoffered, rfl⟩ := singleton_eq_append_cons h
    rw [SinkCall.write.injEq] at hoffered
    subst hoffered
    exact ⟨hne, rfl⟩
  case flushes =>
    rw [if_neg (Ne.symm hne)]
    rfl
  case last =>
    intro before after h
    exact (singleton_eq_append_cons h).2.2
  case stops =>
    intro before c after e' h he'
    obtain ⟨rfl, rfl, rfl⟩ := singleton_eq_append_cons h
    exact ⟨rfl, Option.some.inj (hstop.symm.trans he')⟩
  case sent =>
    exact ⟨fun h => absurd h he, fun h => absurd h.1.symm hne⟩
  case stopped =>
    intro _
    exact ⟨[], .write text, rfl, hstop⟩
  case sink => rfl

/-- A write that does not stop a delivery and a delivery of what it has left are a delivery. -/
theorem cons (hne : text ≠ []) (hstop : s.stop? (.write text) = none)
    (h : d.Carries (s.afterCall (.write text)) (text.drop (s.nextWrite.taken text).length)) :
    Carries { d with
      calls := .write text :: d.calls
      accepted := s.nextWrite.taken text ++ d.accepted } s text := by
  have htext := Sink.taken_append_drop s.nextWrite text
  generalize text.drop (s.nextWrite.taken text).length = rest at h htext
  -- The whole text is accepted exactly when all of the rest is.
  have hfull : s.nextWrite.taken text ++ d.accepted = text ↔ d.accepted = rest := by
    constructor
    · intro heq
      exact List.append_cancel_left (heq.trans htext.symm)
    · rintro rfl
      exact htext
  constructor
  case accepted =>
    change _ = s.taken (.write text) ++ _
    rw [h.accepted]
    rfl
  case begins =>
    have hbegins := (List.prefix_append_right_inj (s.nextWrite.taken text)).mpr h.begins
    rwa [htext] at hbegins
  case offers =>
    intro before offered after heq
    obtain ⟨rfl, hhead⟩ | ⟨before, rfl, htail⟩ := List.cons_eq_append_iff.mp heq
    · obtain ⟨hoffered, -⟩ := List.cons.inj hhead
      obtain rfl := SinkCall.write.inj hoffered
      exact ⟨hne, rfl⟩
    · obtain ⟨hsome, hrest⟩ := h.offers before offered after htail
      refine ⟨hsome, ?_⟩
      rw [Sink.received, List.append_assoc, hrest]
      exact htext
  case flushes =>
    rw [List.count_cons_of_ne (by simp), h.flushes]
    simp only [hfull]
  case last =>
    intro before after heq
    obtain ⟨rfl, hhead⟩ | ⟨before, rfl, htail⟩ := List.cons_eq_append_iff.mp heq
    · exact absurd (List.cons.inj hhead).1 (by simp)
    · exact h.last before after htail
  case stops =>
    intro before c after e heq he
    obtain ⟨rfl, hhead⟩ | ⟨before, rfl, htail⟩ := List.cons_eq_append_iff.mp heq
    · obtain ⟨rfl, -⟩ := List.cons.inj hhead
      exact absurd (hstop.symm.trans he) (by simp)
    · exact h.stops before c after e htail he
  case sent =>
    rw [hfull]
    exact h.sent
  case stopped =>
    intro he
    obtain ⟨before, c, hcalls, hc⟩ := h.stopped he
    exact ⟨.write text :: before, c, by rw [hcalls, List.cons_append], hc⟩
  case sink => exact h.sink

/-- A delivery fails or crashes in the way of the first call that stops. -/
theorem ending_eq_iff {e : Ending} (h : d.Carries s text) (he : e ≠ .sent) :
    d.ending = e ↔ s.StopsWith d.calls e := by
  constructor
  · rintro rfl
    obtain ⟨before, c, hcalls, hc⟩ := h.stopped he
    refine ⟨before, c, hcalls, hc, ?_⟩
    intro earlier b later hbefore
    cases hstop : (s.after earlier).stop? b with
    | none => rfl
    | some e =>
      -- A call that stops would be the last one, but `c` comes behind it.
      rw [hbefore, List.append_assoc, List.cons_append] at hcalls
      exact absurd (h.stops earlier b (later ++ [c]) e hcalls hstop).1 (by simp)
  · rintro ⟨before, c, hcalls, hc, -⟩
    exact (h.stops before c [] e hcalls hc).2

/-- All is accepted and flushed, or some call stops the delivery. -/
theorem sent_or_stopsWith (h : d.Carries s text) :
    (d.accepted = text ∧ s.nextFlush = .succeed) ∨ ∃ e, s.StopsWith d.calls e := by
  by_cases hsent : d.ending = .sent
  · exact .inl (h.sent.mp hsent)
  · exact .inr ⟨d.ending, (h.ending_eq_iff hsent).mp rfl⟩

/-- An interrupted write is made again. -/
theorem retried {before after : List SinkCall} {offered : List UInt8} {e : SinkError}
    (h : d.Carries s text) (hcalls : d.calls = before ++ .write offered :: after)
    (he : (s.after before).nextWrite = .fail e) (hinterruption : e.interruption = true) :
    ∃ rest, after = .write offered :: rest := by
  obtain ⟨hne, htext⟩ := h.offers before offered after hcalls
  -- Nothing is taken at the write, so that all of the offer is left behind it.
  have hnothing (calls : List SinkCall) : s.received (before ++ .write offered :: calls) =
      s.received before ++ ((s.after before).afterCall (.write offered)).received calls := by
    rw [Sink.received_append, Sink.received, Sink.taken, he, WriteAction.taken, List.nil_append]
  have hleft : s.received before ≠ text := by
    intro heq
    rw [heq] at htext
    exact hne (List.append_right_eq_self.mp htext)
  cases after with
  | nil =>
    have haccepted : d.accepted ≠ text := by
      rw [h.accepted, hcalls, hnothing, Sink.received, List.append_nil]
      exact hleft
    obtain ⟨before', c, hcalls', hstop⟩ := h.stopped fun hsent => haccepted (h.sent.mp hsent).1
    obtain ⟨rfl, hc⟩ := List.append_inj' (hcalls.symm.trans hcalls') rfl
    rw [← List.singleton_inj.mp hc, Sink.stop?, he, WriteAction.stop?, if_pos hinterruption]
      at hstop
    exact absurd hstop (by simp)
  | cons c rest =>
    have hsplit : d.calls = (before ++ [.write offered]) ++ c :: rest := by
      rw [hcalls, List.append_assoc, List.singleton_append]
    cases c with
    | flush =>
      -- A flush would be the last call, and follow a text that is accepted.
      obtain rfl := h.last _ rest hsplit
      have haccepted : d.accepted = text := by
        by_contra hpart
        have hcount := h.flushes
        rw [if_neg hpart, List.count_eq_zero] at hcount
        exact hcount (by simp [hcalls])
      rw [h.accepted, hcalls, hnothing, Sink.received, Sink.received, Sink.taken, List.append_nil,
        List.append_nil] at haccepted
      exact absurd haccepted hleft
    | write offered' =>
      have hagain := (h.offers _ offered' rest hsplit).2
      rw [hnothing, Sink.received, List.append_nil, ← htext] at hagain
      exact ⟨rest, by rw [List.append_cancel_left hagain]⟩

end Delivery.Carries

/-- Whatever the destination does, a text is sent as a delivery should be. -/
theorem Sink.carries_send (s : Sink) (text : List UInt8) : (s.send text).Carries s text := by
  obtain ⟨writes, flushes⟩ := s
  -- The script gets shorter with each write, and behind its end one write takes everything.
  induction writes generalizing text with
  | nil =>
    by_cases hne : text = []
    · rw [hne]
      exact .of_nil _
    · have hrest : text.drop ((Sink.mk [] flushes).nextWrite.taken text).length = [] :=
        List.drop_length
      rw [send_of_not_stop hne rfl]
      refine .cons hne rfl ?_
      rw [hrest]
      exact .of_nil _
  | cons a writes ih =>
    by_cases hne : text = []
    · rw [hne]
      exact .of_nil _
    · cases hstop : (Sink.mk (a :: writes) flushes).stop? (.write text) with
      | some e =>
        rw [send_of_stop hne hstop]
        exact .of_stop hne hstop
      | none =>
        rw [send_of_not_stop hne hstop]
        exact .cons hne hstop (ih _)

namespace Sink

/-- A destination that accepts everything. -/
def accepting : Sink := ⟨[], []⟩

theorem after_accepting (calls : List SinkCall) : accepting.after calls = accepting := by
  induction calls with
  | nil => rfl
  | cons c calls ih =>
    have hcall : accepting.afterCall c = accepting := by
      cases c <;> rfl
    rw [after_cons, hcall, ih]

theorem accepted_send_accepting (text : List UInt8) : (accepting.send text).accepted = text := by
  have h := accepting.carries_send text
  by_cases hsent : (accepting.send text).ending = .sent
  · exact (h.sent.mp hsent).1
  · obtain ⟨before, c, -, hstop⟩ := h.stopped hsent
    rw [after_accepting] at hstop
    cases c <;> exact absurd hstop (by simp [stop?, nextWrite, nextFlush, accepting,
      WriteAction.stop?, FlushAction.stop?])

end Sink

end Marginalia.Console
