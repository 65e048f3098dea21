import Marginalia.Console.Session
import Marginalia.Proofs.Console.Stream

/-! A session as a whole. Its first request decides the configuration, whatever follows, and the
first request to quit is the last one that is served. -/
namespace Marginalia.Console

namespace Request

/-- The configuration that a request decides on when it is the first one. -/
def decides (env : Environment) : Request → Config
  | .install c => c
  | _ => .ofEnvironment env

/-- Whether a request ends the process. -/
def quits : Request → Bool
  | .error quit _ => quit
  | _ => false

/-- What a request adds to the console. -/
def entry? : Request → Option Entry
  | .install _ | .readConfig => none
  | .error _ message => some ⟨.error, message⟩
  | .warning message => some ⟨.warning, message⟩
  | .info message => some ⟨.info, message⟩
  | .success message => some ⟨.success, message⟩

/-- What is answered when a configuration is decided, by this request if it is the first one. -/
def reply? (decided : Config) (first : Bool) : Request → Option Reply
  | .install _ => some (if first then .done else .alreadyInstalled)
  | .readConfig => some (.config decided)
  | .error quit _ => if quit then none else some .done
  | .warning _ | .info _ | .success _ => some .done

/-- The requests that are served: those up to the first one that ends the process. -/
def served : List Request → List Request
  | [] => []
  | r :: rest => if r.quits then [r] else r :: served rest

theorem quits_eq_true_iff {r : Request} :
    r.quits = true ↔ ∃ message, r = .error true message := by
  cases r <;> simp [quits]

theorem served_append (before after : List Request) :
    served (before ++ after) =
      if before.any quits then served before else served before ++ served after := by
  induction before with
  | nil => rfl
  | cons r before ih =>
    cases hr : r.quits with
    | true => simp [served, hr]
    | false =>
      rw [List.cons_append, served, served, hr, List.any_cons, hr, Bool.false_or, ih]
      cases before.any quits <;> rfl

/-- Everything is served, or what comes before the first request to quit and this request. -/
theorem served_cases (requests : List Request) :
    ((∀ r ∈ requests, r.quits = false) ∧ served requests = requests) ∨
      ∃ before message after, requests = before ++ .error true message :: after ∧
        (∀ r ∈ before, r.quits = false) ∧ served requests = before ++ [.error true message] := by
  induction requests with
  | nil => exact .inl ⟨by simp, rfl⟩
  | cons r rest ih =>
    cases hr : r.quits with
    | true =>
      obtain ⟨message, rfl⟩ := quits_eq_true_iff.mp hr
      exact .inr ⟨[], message, rest, rfl, by simp, rfl⟩
    | false =>
      have hserved : served (r :: rest) = r :: served rest := by
        rw [served, hr]
        rfl
      rcases ih with ⟨hnone, hall⟩ | ⟨before, message, after, rfl, hnone, hbefore⟩
      · refine .inl ⟨List.forall_mem_cons.mpr ⟨hr, hnone⟩, ?_⟩
        rw [hserved, hall]
      · refine .inr ⟨r :: before, message, after, rfl, List.forall_mem_cons.mpr ⟨hr, hnone⟩, ?_⟩
        rw [hserved, hbefore, List.cons_append]

end Request

namespace Session

variable {env : Environment} {s : Session} {config : Config}

theorem foldl_step_of_quit (hquit : s.quit = true) (rest : List Request) :
    rest.foldl (step env) s = s := by
  induction rest with
  | nil => rfl
  | cons r rest ih => rw [List.foldl_cons, step.eq_def, if_pos hquit, ih]

theorem step_of_decided (hconfig : s.config = some config) (hquit : s.quit = false) (r : Request) :
    step env s r = ⟨some config, s.replies ++ (r.reply? config false).toList,
      s.entries ++ r.entry?.toList, r.quits⟩ := by
  obtain ⟨_, replies, entries, _⟩ := s
  obtain rfl : _ = some config := hconfig
  obtain rfl : _ = false := hquit
  cases r with
  | error quit =>
    cases quit <;> simp [step, write, decided, Request.reply?, Request.entry?, Request.quits]
  | install | readConfig | warning | info | success =>
    simp [step, write, decided, Request.reply?, Request.entry?, Request.quits]

theorem foldl_step_of_decided (hconfig : s.config = some config) (hquit : s.quit = false)
    (rest : List Request) :
    rest.foldl (step env) s = ⟨some config,
      s.replies ++ (Request.served rest).filterMap (·.reply? config false),
      s.entries ++ (Request.served rest).filterMap Request.entry?, rest.any Request.quits⟩ := by
  -- Replies and entries only grow at their ends, so the session before is general.
  induction rest generalizing s with
  | nil =>
    obtain ⟨_, replies, entries, _⟩ := s
    obtain rfl : _ = some config := hconfig
    obtain rfl : _ = false := hquit
    simp [Request.served]
  | cons r rest ih =>
    rw [List.foldl_cons, step_of_decided hconfig hquit, Request.served, List.any_cons]
    cases hr : r.quits with
    | true =>
      rw [foldl_step_of_quit rfl]
      simp [List.filterMap_eq_flatMap_toList]
    | false =>
      rw [ih rfl rfl]
      simp [List.filterMap_eq_flatMap_toList]

theorem step_start (r : Request) :
    step env start r = ⟨some (r.decides env), (r.reply? (r.decides env) true).toList,
      r.entry?.toList, r.quits⟩ := by
  cases r with
  | error quit =>
    cases quit <;> simp [step, write, start, decided, Request.decides, Request.reply?,
      Request.entry?, Request.quits]
  | install | readConfig | warning | info | success =>
    simp [step, write, start, decided, Request.decides, Request.reply?, Request.entry?,
      Request.quits]

theorem run_cons (env : Environment) (r : Request) (rest : List Request) :
    run env (r :: rest) = ⟨some (r.decides env),
      (r.reply? (r.decides env) true).toList ++
        (Request.served (r :: rest)).tail.filterMap (·.reply? (r.decides env) false),
      (Request.served (r :: rest)).filterMap Request.entry?, (r :: rest).any Request.quits⟩ := by
  rw [run, List.foldl_cons, step_start, Request.served, List.any_cons]
  cases hr : r.quits with
  | true =>
    rw [foldl_step_of_quit rfl]
    simp [List.filterMap_eq_flatMap_toList]
  | false =>
    rw [foldl_step_of_decided rfl rfl]
    simp [List.filterMap_eq_flatMap_toList]

theorem config_run (env : Environment) (requests : List Request) :
    (run env requests).config = requests.head?.map (Request.decides env) := by
  cases requests with
  | nil => rfl
  | cons r rest => rw [run_cons, List.head?_cons, Option.map_some]

theorem entries_run (env : Environment) (requests : List Request) :
    (run env requests).entries = (Request.served requests).filterMap Request.entry? := by
  cases requests with
  | nil => rfl
  | cons r rest => rw [run_cons]

theorem quit_run (env : Environment) (requests : List Request) :
    (run env requests).quit = requests.any Request.quits := by
  cases requests with
  | nil => rfl
  | cons r rest => rw [run_cons]

/-- A request to install a configuration that comes too late makes no difference for others. -/
theorem run_late_install (env : Environment) {before : List Request} (hne : before ≠ [])
    (c : Config) (after : List Request) :
    (run env (before ++ .install c :: after)).config = (run env (before ++ after)).config ∧
      (run env (before ++ .install c :: after)).entries = (run env (before ++ after)).entries ∧
      (run env (before ++ .install c :: after)).quit = (run env (before ++ after)).quit := by
  obtain ⟨r, before, rfl⟩ := List.exists_cons_of_ne_nil hne
  refine ⟨?_, ?_, ?_⟩
  · rw [config_run, config_run]
    rfl
  · rw [entries_run, entries_run, Request.served_append, Request.served_append]
    split
    · rfl
    · -- The request is served, and adds no entry.
      have hinstall : Request.served (.install c :: after) = .install c :: Request.served after :=
        rfl
      rw [hinstall, List.filterMap_append, List.filterMap_append, List.filterMap_cons_none rfl]
  · rw [quit_run, quit_run]
    simp [Request.quits]

theorem replies_run (env : Environment) (requests : List Request) :
    (run env requests).replies = ((Request.served requests).mapIdx fun i r =>
      r.reply? ((run env requests).decided env) (i == 0)).filterMap id := by
  cases requests with
  | nil => rfl
  | cons r rest =>
    have hdecided : (run env (r :: rest)).decided env = r.decides env := by
      rw [decided, config_run, List.head?_cons, Option.map_some, Option.getD_some]
    obtain ⟨others, hserved⟩ : ∃ others, Request.served (r :: rest) = r :: others := by
      rw [Request.served]
      split
      · exact ⟨[], rfl⟩
      · exact ⟨_, rfl⟩
    -- Only the first request served has the place 0.
    have hlater : others.mapIdx (fun i r' => r'.reply? (r.decides env) (i + 1 == 0)) =
        others.map (·.reply? (r.decides env) false) := by
      apply List.ext_getElem
      · simp
      · intro i h h'
        simp
    rw [hdecided, run_cons, hserved, List.mapIdx_cons, hlater]
    simp [List.filterMap_eq_flatMap_toList, List.flatMap_map]

/-- What has been written stays as it is. -/
theorem output_run_append (env : Environment) (clock : Nat → Moment)
    (before after : List Request) :
    ∃ more, (run env (before ++ after)).output env clock =
      (run env before).output env clock ++ more := by
  by_cases hne : before = []
  · subst hne
    exact ⟨_, String.empty_append.symm⟩
  · obtain ⟨r, before, rfl⟩ := List.exists_cons_of_ne_nil hne
    -- The first request is among those before, so the same configuration is decided.
    have hdecided : (run env (r :: before ++ after)).decided env =
        (run env (r :: before)).decided env := by
      rw [decided, decided, config_run, config_run]
      rfl
    obtain ⟨entries, hentries⟩ : ∃ entries, (run env (r :: before ++ after)).entries =
        (run env (r :: before)).entries ++ entries := by
      rw [entries_run, entries_run, Request.served_append]
      split
      · exact ⟨[], (List.append_nil _).symm⟩
      · exact ⟨_, List.filterMap_append⟩
    rw [output, output, hdecided, hentries, List.mapIdx_append, String.join_append]
    exact ⟨_, rfl⟩

/-- The calls on the logger that write these entries, one after the other. -/
def calls (clock : Nat → Moment) (entries : List Entry) : List Call :=
  entries.mapIdx fun i e => .ofLevel e.level e.message (clock i)

/-- Standard output is the stream of a single logger. -/
theorem encode_output (s : Session) (env : Environment) (clock : Nat → Moment) :
    Text.encode (s.output env clock).toList =
      Sink.accepting.received (Logger.made ((Logger.new (s.decided env) .accepting).run
        (calls clock s.entries)).1) := by
  have hstream := (Logger.new (s.decided env) .accepting).received_run (calls clock s.entries)
  rw [Logger.sink_new, Logger.accepted_run_accepting] at hstream
  rw [hstream, output, String.toList_join, Text.encode, List.flatMap_assoc, List.flatMap_def]
  apply congrArg List.flatten
  apply List.ext_getElem
  · simp [calls]
  · intro i h h'
    simp [calls, Call.bytes, Call.level_ofLevel, Call.message_ofLevel, Call.now_ofLevel,
      Text.encode, Entry.record]

/-- A session of which everything is decided by its first request. Up to the first request to quit
each request is served, and the status says whether there is one. The replies are those of the one
configuration, and standard output holds the records of the entries in order, written by one logger
with this configuration; nothing that follows changes them, and a request to install a configuration
that comes too late changes nothing but for its own reply. -/
theorem run_decided_once (env : Environment) (requests : List Request) (clock : Nat → Moment) :
    let s := run env requests
    let config := (requests.head?.map (Request.decides env)).getD (.ofEnvironment env)
    ∃ done : List Request,
      ((s.status = 0 ∧ (∀ message, .error true message ∉ requests) ∧ done = requests) ∨
        s.status = 1 ∧ ∃ before message after, requests = before ++ .error true message :: after ∧
          (∀ message', .error true message' ∉ before) ∧ done = before ++ [.error true message]) ∧
      s.config = requests.head?.map (Request.decides env) ∧
      s.replies = (done.mapIdx fun i r => r.reply? config (i == 0)).filterMap id ∧
      s.output env clock = String.join ((done.filterMap Request.entry?).mapIdx fun i e =>
        e.record config (clock i)) ∧
      Text.encode (s.output env clock).toList =
        Sink.accepting.received (Logger.made ((Logger.new config .accepting).run
          (calls clock (done.filterMap Request.entry?))).1) ∧
      (∀ before after, requests = before ++ after →
        ∃ more, s.output env clock = (run env before).output env clock ++ more) ∧
      ∀ before c after, requests = before ++ .install c :: after → before ≠ [] →
        s.config = (run env (before ++ after)).config ∧
          s.entries = (run env (before ++ after)).entries ∧
          s.quit = (run env (before ++ after)).quit := by
  intro s config
  have hdecided : s.decided env = config := by
    rw [decided, config_run]
  have hentries : s.entries = (Request.served requests).filterMap Request.entry? :=
    entries_run env requests
  refine ⟨Request.served requests, ?_, config_run env requests, ?_, ?_, ?_, ?_, ?_⟩
  · rw [status, quit_run]
    rcases Request.served_cases requests with ⟨hnone, hall⟩ |
      ⟨before, message, after, hrequests, hnone, hserved⟩
    · refine .inl ⟨?_, ?_, hall⟩
      · have hany : requests.any Request.quits = false := by simpa using hnone
        rw [hany]
        rfl
      · intro message hmem
        exact absurd (hnone _ hmem) (by simp [Request.quits])
    · refine .inr ⟨?_, before, message, after, hrequests, ?_, hserved⟩
      · have hany : requests.any Request.quits = true := by simp [hrequests, Request.quits]
        rw [hany]
        rfl
      · intro message' hmem
        exact absurd (hnone _ hmem) (by simp [Request.quits])
  · rw [← hdecided]
    exact replies_run env requests
  · rw [output, hdecided, hentries]
  · rw [encode_output, hdecided, hentries]
  · rintro before after rfl
    exact output_run_append env clock before after
  · rintro before c after rfl hne
    exact run_late_install env hne c after

/-- A session that writes before it installs a configuration, and asks for it after it has quit. -/
def lateRequests : List Request :=
  [.info "early", .install ⟨true, true, true⟩, .error true "enough", .readConfig]

/-- The configuration is that of the environment here, and the last request is not served. -/
theorem run_decided_once_lateRequests :
    let t := run (fun _ => none) ([.info "early"] ++ [.error true "enough", .readConfig])
    lateRequests =
        [.info "early"] ++ .install ⟨true, true, true⟩ :: [.error true "enough", .readConfig] ∧
      [Request.info "early"] ≠ [] ∧
      (run (fun _ => none) lateRequests).config = some .plain ∧
      (run (fun _ => none) lateRequests).entries = t.entries ∧
      (run (fun _ => none) lateRequests).replies = [.done, .alreadyInstalled] := by
  intro t
  have hlate : lateRequests =
      [.info "early"] ++ .install ⟨true, true, true⟩ :: [.error true "enough", .readConfig] := rfl
  obtain ⟨done, _, hconfig, _, _, _, _, hinstall⟩ :=
    run_decided_once (fun _ => none) lateRequests fun _ => ⟨0, 0, 0⟩
  refine ⟨hlate, by simp, hconfig, ?_, rfl⟩
  exact (hinstall _ _ _ hlate (by simp)).2.1

end Session

end Marginalia.Console
