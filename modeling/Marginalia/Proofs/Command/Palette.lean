import Marginalia.Command.Palette
import Marginalia.Proofs.Console.Timeless

/-! Arguments of the command that converts colors. The first argument that stops the command
decides alone what it does, and nothing is logged then. Without such an argument only the colors
in their order and the set of flags matter. -/
namespace Marginalia.Command.Palette

open Console (Environment timeless)

/-- The flags, which may stand anywhere and more than once. -/
def flags : List String := ["--time", "--date", "--time-first", "--quit"]

/-- An argument stops the command when it asks for help or begins like a flag and is none. -/
def Stops (arg : String) : Prop :=
  arg = "-h" ∨ arg = "--help" ∨ ['-', '-'] <+: arg.toList ∧ arg ∉ flags

instance : DecidablePred Stops := fun arg => inferInstanceAs
  (Decidable (arg = "-h" ∨ arg = "--help" ∨ ['-', '-'] <+: arg.toList ∧ arg ∉ flags))

/-- The arguments that are no flags, in order. -/
def colorsIn (args : List String) : List String := args.filter fun arg => !flags.contains arg

variable {env : Environment} {s : Settings} {arg : String} {args args' before rest : List String}

section Reading

theorem ofText_of_color (hstop : ¬ Stops arg) (hflag : arg ∉ flags) :
    Argument.ofText arg = .color arg := by
  simp only [Stops, not_or, not_and_not_right] at hstop
  obtain ⟨hshort, hlong, hdashes⟩ := hstop
  have hhelp : ¬ (arg = "-h" ∨ arg = "--help") := not_or.mpr ⟨hshort, hlong⟩
  have htake : arg.toList.take 2 ≠ ['-', '-'] := fun h =>
    hflag (hdashes (List.prefix_iff_eq_take.mpr h.symm))
  simp only [flags, List.mem_cons, List.not_mem_nil, or_false, not_or] at hflag
  obtain ⟨htime, hdate, hfirst, hquit⟩ := hflag
  rw [Argument.ofText, if_neg htime, if_neg hdate, if_neg hfirst, if_neg hquit, if_neg hhelp,
    if_neg htake]

theorem ofText_of_help (h : arg = "-h" ∨ arg = "--help") : Argument.ofText arg = .stop .help := by
  rcases h with rfl | rfl <;> decide

/-- What begins like a flag and is none is named in the error. -/
theorem ofText_of_unknown (h : Stops arg) (hhelp : ¬ (arg = "-h" ∨ arg = "--help")) :
    Argument.ofText arg = .stop (.unknownFlag arg) := by
  obtain ⟨hdashes, hflag⟩ : ['-', '-'] <+: arg.toList ∧ arg ∉ flags := by
    rw [Stops, ← or_assoc] at h
    exact h.resolve_left hhelp
  have htake : arg.toList.take 2 = ['-', '-'] := (List.prefix_iff_eq_take.mp hdashes).symm
  simp only [flags, List.mem_cons, List.not_mem_nil, or_false, not_or] at hflag
  obtain ⟨htime, hdate, hfirst, hquit⟩ := hflag
  rw [Argument.ofText, if_neg htime, if_neg hdate, if_neg hfirst, if_neg hquit, if_neg hhelp,
    if_pos htake]

/-- The settings behind some arguments that do not stop the command. -/
def Settings.after (s : Settings) (args : List String) : Settings where
  config := {
    showTime := s.config.showTime || args.contains "--time"
    showDate := s.config.showDate || args.contains "--date"
    timeFirst := s.config.timeFirst || args.contains "--time-first" }
  quit := s.quit || args.contains "--quit"
  colors := s.colors ++ colorsIn args

theorem Settings.after_nil (s : Settings) : s.after [] = s := by
  simp [after, colorsIn]

theorem Settings.after_append (s : Settings) (args args' : List String) :
    s.after (args ++ args') = (s.after args).after args' := by
  simp [after, colorsIn, Bool.or_assoc]

/-- A flag is set and a color is added, and reading goes on. -/
theorem Settings.read_cons (s : Settings) (h : ¬ Stops arg) (rest : List String) :
    s.read (arg :: rest) = (s.after [arg]).read rest := by
  by_cases hflag : arg ∈ flags
  · have hnone : colorsIn [arg] = [] := by simp [colorsIn, hflag]
    simp only [flags, List.mem_cons, List.not_mem_nil, or_false] at hflag
    rw [after, hnone, List.append_nil]
    rcases hflag with rfl | rfl | rfl | rfl
    all_goals
      rw [read]
      simp [Argument.ofText, Console.Config.withTime, Console.Config.withDate,
        Console.Config.withTimeFirst]
  · have hcolor : colorsIn [arg] = [arg] := by simp [colorsIn, hflag]
    rw [read, ofText_of_color h hflag, after, hcolor]
    simp only [flags, List.mem_cons, List.not_mem_nil, or_false, not_or] at hflag
    simp [eq_comm, hflag]

theorem Settings.read_append (s : Settings) (h : ∀ arg ∈ before, ¬ Stops arg)
    (rest : List String) : s.read (before ++ rest) = (s.after before).read rest := by
  induction before generalizing s with
  | nil => rw [after_nil, List.nil_append]
  | cons arg before ih =>
    rw [List.cons_append, read_cons s (h arg List.mem_cons_self),
      ih _ fun a ha => h a (List.mem_cons_of_mem arg ha), ← after_append, List.singleton_append]

/-- Only the colors in their order and the set of flags matter. -/
theorem Settings.after_congr (s : Settings) (hcolors : colorsIn args = colorsIn args')
    (hflags : ∀ flag ∈ flags, flag ∈ args ↔ flag ∈ args') : s.after args = s.after args' := by
  have hcontains (flag : String) (hflag : flag ∈ flags) :
      args.contains flag = args'.contains flag := by
    rw [Bool.eq_iff_iff, List.contains_iff_mem, List.contains_iff_mem]
    exact hflags flag hflag
  rw [after, after, hcolors, hcontains "--time" (by decide), hcontains "--date" (by decide),
    hcontains "--time-first" (by decide), hcontains "--quit" (by decide)]

end Reading

section Runs

/-- The settings before any argument is read. -/
def initial (env : Environment) : Settings := ⟨.ofEnvironment env, false, []⟩

theorem run_of_stop (env : Environment) (hbefore : ∀ a ∈ before, ¬ Stops a) (hstop : Stops arg)
    (rest : List String) : run env (before ++ arg :: rest) =
      if arg = "-h" ∨ arg = "--help" then ⟨.plain, usage ++ "\n", [], "", 0⟩
      else ⟨.plain, "", [],
        "Error: unknown flag " ++ Text.quoted arg ++ "\n" ++ usage ++ "\n", 1⟩ := by
  have hread {stop : Stop} (h : Argument.ofText arg = .stop stop) :
      (initial env).read (before ++ arg :: rest) = .error stop := by
    rw [Settings.read_append _ hbefore, Settings.read, h]
  rw [run, ← initial]
  by_cases hhelp : arg = "-h" ∨ arg = "--help"
  · rw [hread (ofText_of_help hhelp), if_pos hhelp]
  · rw [hread (ofText_of_unknown hstop hhelp), if_neg hhelp]

theorem run_of_no_stop (env : Environment) (h : ∀ a ∈ args, ¬ Stops a) :
    run env args = ⟨((initial env).after args).config, "", ((initial env).after args).entries, "",
      if ((initial env).after args).quit then 1 else 0⟩ := by
  have hread := (initial env).read_append h []
  rw [List.append_nil, Settings.read] at hread
  rw [run, ← initial, hread]

/-- Nothing but the time stamps tells when a run without a stop was made. -/
theorem timeless_output (env : Environment) (h : ∀ a ∈ args, ¬ Stops a) (clock : Nat → Moment) :
    timeless ((run env args).output clock).toList = (run env args).entries.flatMap
      (Console.Entry.timeless (run env args).config) := by
  have hplain : (run env args).plain = "" := by rw [run_of_no_stop env h]
  rw [Outcome.output, hplain, String.empty_append, Console.timeless_join]

theorem run_congr (env : Environment) (h : ∀ a ∈ args, ¬ Stops a) (h' : ∀ a ∈ args', ¬ Stops a)
    (hcolors : colorsIn args = colorsIn args')
    (hflags : ∀ flag ∈ flags, flag ∈ args ↔ flag ∈ args') : run env args = run env args' := by
  rw [run_of_no_stop env h, run_of_no_stop env h', (initial env).after_congr hcolors hflags]

end Runs

/-- The first argument that stops the command decides everything: no record is written, a request
for help shows the usage, and any other such argument is an error. Arguments without a stop that
have the same colors in the same order and the same flags make the same run: its status, what it
writes to standard error and, but for the numbers in time stamps, to standard output are the
same. -/
theorem run_by_arguments (env : Environment) :
    (∀ before arg rest, (∀ a ∈ before, ¬ Stops a) → Stops arg →
      (∀ env', run env (before ++ arg :: rest) = run env' [arg]) ∧
        (run env (before ++ arg :: rest)).entries = [] ∧
        (arg = "-h" ∨ arg = "--help" →
          (∀ clock, (run env (before ++ arg :: rest)).output clock = usage ++ "\n") ∧
            (run env (before ++ arg :: rest)).errors = "" ∧
            (run env (before ++ arg :: rest)).status = 0) ∧
        (¬ (arg = "-h" ∨ arg = "--help") →
          (∀ clock, (run env (before ++ arg :: rest)).output clock = "") ∧
            (run env (before ++ arg :: rest)).errors =
              "Error: unknown flag " ++ Text.quoted arg ++ "\n" ++ usage ++ "\n" ∧
            (run env (before ++ arg :: rest)).status = 1)) ∧
    ∀ args args', (∀ a ∈ args, ¬ Stops a) → (∀ a ∈ args', ¬ Stops a) →
      colorsIn args = colorsIn args' → (∀ flag ∈ flags, flag ∈ args ↔ flag ∈ args') →
      (run env args).status = (run env args').status ∧
        (run env args).errors = (run env args').errors ∧
        (∀ clock, (run env args).output clock = (run env args').output clock) ∧
        ∀ clock clock', timeless ((run env args).output clock).toList =
          timeless ((run env args').output clock').toList := by
  constructor
  · intro before arg rest hbefore hstop
    have hrun := run_of_stop env hbefore hstop rest
    -- The argument alone is the same case with nothing around it.
    have hnone : ∀ a ∈ ([] : List String), ¬ Stops a := by simp
    have halone (env' : Environment) := run_of_stop env' hnone hstop []
    refine ⟨fun env' => hrun.trans (halone env').symm, ?_, ?_, ?_⟩
    · rw [hrun]
      split <;> rfl
    · intro hhelp
      rw [hrun, if_pos hhelp]
      exact ⟨fun _ => rfl, rfl, rfl⟩
    · intro hhelp
      rw [hrun, if_neg hhelp]
      exact ⟨fun _ => rfl, rfl, rfl⟩
  · intro args args' h h' hcolors hflags
    have hrun := run_congr env h h' hcolors hflags
    refine ⟨by rw [hrun], by rw [hrun], fun clock => by rw [hrun], fun clock clock' => ?_⟩
    rw [timeless_output env h, timeless_output env h', hrun]

/-- A misspelled flag behind a flag and a color, in front of a request for help. -/
def misspelled : List String := ["--quit", "#3AF547"] ++ "--tmie" :: ["--help"]

/-- The misspelled flag decides here, and a flag that is repeated behind a color changes nothing, at
whatever time it is. -/
theorem run_by_arguments_misspelled :
    (∀ a ∈ ["--quit", "#3AF547"], ¬ Stops a) ∧ Stops "--tmie" ∧
      (run (fun _ => none) misspelled).entries = [] ∧
      (run (fun _ => none) misspelled).status = 1 ∧
      (∀ a ∈ ["--time", "bogus", "--quit"], ¬ Stops a) ∧
      (∀ a ∈ ["--quit", "bogus", "--time", "--quit"], ¬ Stops a) ∧
      ∀ clock clock',
        timeless ((run (fun _ => none) ["--time", "bogus", "--quit"]).output clock).toList =
          timeless ((run (fun _ => none) ["--quit", "bogus", "--time", "--quit"]).output
            clock').toList := by
  have hbefore : ∀ a ∈ ["--quit", "#3AF547"], ¬ Stops a := by decide
  have hstop : Stops "--tmie" := by decide
  have hargs : ∀ a ∈ ["--time", "bogus", "--quit"], ¬ Stops a := by decide
  have hargs' : ∀ a ∈ ["--quit", "bogus", "--time", "--quit"], ¬ Stops a := by decide
  obtain ⟨hstopped, hsame⟩ := run_by_arguments fun _ => none
  obtain ⟨-, hentries, -, hunknown⟩ :=
    hstopped ["--quit", "#3AF547"] "--tmie" ["--help"] hbefore hstop
  obtain ⟨-, -, -, htimeless⟩ := hsame ["--time", "bogus", "--quit"]
    ["--quit", "bogus", "--time", "--quit"] hargs hargs' (by decide) (by decide)
  exact ⟨hbefore, hstop, hentries, (hunknown (by decide)).2.2, hargs, hargs', htimeless⟩

end Marginalia.Command.Palette
