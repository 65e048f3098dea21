import Marginalia.Console.Record
import Marginalia.Proofs.Calendar.Text

/-! Console records are read back: from the text of a record one can tell which time stamps it
begins with and what they say, its level, and its message, whatever the message is. -/
namespace Marginalia.Console

/-- What a time stamp shows. -/
inductive Stamp where
  | time
  | date
deriving DecidableEq

/-- What stands in a time stamp between its brackets. -/
def Stamp.text (now : Moment) : Stamp → String
  | .time => now.time.text
  | .date => now.date.text

/-- The time stamps that are shown, in order. -/
def Config.shown (config : Config) : List Stamp :=
  let time := if config.showTime then [Stamp.time] else []
  let date := if config.showDate then [Stamp.date] else []
  if config.timeFirst then time ++ date else date ++ time

/-- The escape character, which begins the color of a level. -/
def escape : Char := Char.ofNat 0x1b

/-- Texts in brackets, each followed by a space. -/
def bracketed (texts : List (List Char)) : List Char :=
  texts.flatMap fun t => '[' :: (t ++ [']', ' '])

variable {config config₁ config₂ : Config} {level level₁ level₂ : Level}
  {now now₁ now₂ : Moment} {message message₁ message₂ : String} {k : Stamp} {c : Char}

theorem toList_stamps (config : Config) (now : Moment) :
    (stamps config now).toList = bracketed (config.shown.map fun k => (k.text now).toList) := by
  obtain ⟨_ | _, _ | _, _ | _⟩ := config <;>
    simp [stamps, Config.shown, bracketed, Stamp.text]

theorem Stamp.mem_text (h : c ∈ (k.text now).toList) :
    c.isDigit = true ∨ c ∈ [':', '/', '-', '+'] := by
  cases k with
  | time =>
    rcases TimeOfDay.mem_text h with h | rfl
    · exact .inl h
    · exact .inr (by decide)
  | date =>
    rcases Date.mem_text h with h | rfl | rfl | rfl
    · exact .inl h
    all_goals exact .inr (by decide)

theorem Stamp.notMem_text (hdigit : c.isDigit = false) (hc : c ∉ [':', '/', '-', '+']) :
    c ∉ (k.text now).toList := by
  intro h
  rcases Stamp.mem_text h with h | h
  · rw [h] at hdigit
    exact absurd hdigit (by decide)
  · exact hc h

/-- No time stamp begins like the color of a level. -/
theorem Stamp.text_ne_escape (k : Stamp) (now : Moment) (s t : List Char) :
    (k.text now).toList ++ s ≠ escape :: t := by
  obtain ⟨d, ds, hcons, hd⟩ : ∃ d ds, (k.text now).toList = d :: ds ∧ d.isDigit = true := by
    cases k with
    | time => exact TimeOfDay.exists_text_eq_cons _
    | date => exact Date.exists_text_eq_cons _
  rw [hcons, List.cons_append]
  intro heq
  rw [(List.cons.inj heq).1] at hd
  exact absurd hd (by decide)

/-- Only a time of day has colons. -/
theorem Stamp.text_inj {l : Stamp} (h : (k.text now₁).toList = (l.text now₂).toList) : k = l := by
  have htime (m n : Moment) : m.time.text.toList ≠ n.date.text.toList := by
    intro heq
    have hcolon : ':' ∈ n.date.text.toList := by
      rw [← heq, TimeOfDay.toList_text]
      simp
    rcases Date.mem_text hcolon with h | h | h | h
    all_goals exact absurd h (by decide)
  cases k <;> cases l
  · rfl
  · exact absurd h (htime now₁ now₂)
  · exact absurd h.symm (htime now₂ now₁)
  · rfl

/-- Time stamps before the color of a level are known, and so is what follows. -/
theorem shown_inj {ks ls : List Stamp} {s t : List Char}
    (h : bracketed (ks.map fun k => (k.text now₁).toList) ++ '[' :: escape :: s =
      bracketed (ls.map fun l => (l.text now₂).toList) ++ '[' :: escape :: t) :
    ks = ls ∧ (∀ k ∈ ks, k.text now₁ = k.text now₂) ∧ s = t := by
  have hend (k : Stamp) (now : Moment) : ']' ∉ (k.text now).toList :=
    Stamp.notMem_text (by decide) (by decide)
  induction ks generalizing ls with
  | nil =>
    cases ls with
    | nil => simp_all [bracketed]
    | cons l ls =>
      simp only [bracketed, List.map_nil, List.map_cons, List.flatMap_nil, List.flatMap_cons,
        List.nil_append, List.cons_append, List.append_assoc, List.cons.injEq] at h
      exact absurd h.2.symm (Stamp.text_ne_escape _ _ _ _)
  | cons k ks ih =>
    cases ls with
    | nil =>
      simp only [bracketed, List.map_nil, List.map_cons, List.flatMap_nil, List.flatMap_cons,
        List.nil_append, List.cons_append, List.append_assoc, List.cons.injEq] at h
      exact absurd h.2 (Stamp.text_ne_escape _ _ _ _)
    | cons l ls =>
      -- The first stamps end at the first closing brackets.
      simp only [bracketed, List.map_cons, List.flatMap_cons, List.cons_append,
        List.append_assoc, List.nil_append, List.cons.injEq, true_and] at h
      obtain ⟨htext, hrest⟩ := Text.append_cons_cancel (hend k now₁) (hend l now₂) h
      obtain rfl := Stamp.text_inj htext
      obtain ⟨rfl, htexts, rfl⟩ := ih (List.cons.inj hrest).2
      refine ⟨rfl, ?_, rfl⟩
      rintro m (_ | ⟨_, hm⟩)
      · exact String.toList_inj.mp htext
      · exact htexts m hm

/-- The tag and the label of a level behind the escape character. -/
def opening (level : Level) : List Char := ((tag level).toList ++ level.label.toList).drop 2

theorem toList_tag_label (level : Level) :
    (tag level).toList ++ level.label.toList = '[' :: escape :: opening level := by
  cases level <;> decide +kernel

/-- No level begins like another one. -/
theorem opening_inj (h : opening level₁ <+: opening level₂) : level₁ = level₂ := by
  revert h
  cases level₁ <;> cases level₂ <;> decide +kernel

theorem level_inj {s t : List Char} (h : opening level₁ ++ s = opening level₂ ++ t) :
    level₁ = level₂ ∧ s = t := by
  have hlevel : level₁ = level₂ := by
    have hfirst : opening level₁ <+: opening level₂ ++ t := ⟨s, h⟩
    rcases List.prefix_or_prefix_of_prefix hfirst (List.prefix_append _ t) with h | h
    · exact opening_inj h
    · exact (opening_inj h).symm
  subst hlevel
  exact ⟨rfl, List.append_cancel_left h⟩

theorem toList_record (config : Config) (level : Level) (now : Moment) (message : String) :
    (record config level now message).toList =
      bracketed (config.shown.map fun k => (k.text now).toList) ++
        '[' :: escape :: (opening level ++ (message.toList ++ (reset ++ "\n").toList)) := by
  rw [← toList_stamps, ← List.cons_append, ← List.cons_append, ← toList_tag_label]
  simp [record]

theorem count_stamps (config : Config) (now : Moment) :
    (bracketed (config.shown.map fun k => (k.text now).toList)).count '\n' = 0 := by
  rw [List.count_eq_zero]
  intro h
  simp only [bracketed, List.mem_flatMap, List.mem_map] at h
  obtain ⟨_, ⟨k, _, rfl⟩, h⟩ := h
  have htext : '\n' ∉ (k.text now).toList := Stamp.notMem_text (by decide) (by decide)
  simp_all

/-- A record has one line feed of its own, at its end. -/
theorem count_record (config : Config) (level : Level) (now : Moment) (message : String) :
    (record config level now message).toList.count '\n' = message.toList.count '\n' + 1 := by
  have hopening : ('[' :: escape :: opening level).count '\n' = 0 := by
    cases level <;> decide +kernel
  have hend : (reset ++ "\n").toList.count '\n' = 1 := by decide +kernel
  rw [toList_record, ← List.cons_append, ← List.cons_append, List.count_append, List.count_append,
    List.count_append, count_stamps, hopening, hend]
  omega

/-- Two records with one text have the same level, the same message, and the same time stamps with
the same texts in the same order. If these are the date and the time, the local clock showed the
same second, unless there was a leap second. A record ends by taking its attributes back and with a
line feed, which is its only one outside the message. -/
theorem record_decodes (config₁ config₂ : Config) (level₁ level₂ : Level) (now₁ now₂ : Moment)
    (message₁ message₂ : String) :
    (record config₁ level₁ now₁ message₁ = record config₂ level₂ now₂ message₂ →
      level₁ = level₂ ∧ message₁ = message₂ ∧ stamps config₁ now₁ = stamps config₂ now₂ ∧
      config₁.shown = config₂.shown ∧ (∀ k ∈ config₁.shown, k.text now₁ = k.text now₂) ∧
      (config₁.showTime → config₁.showDate → now₁.nanoseconds < 1000000000 →
        now₂.nanoseconds < 1000000000 → now₁.seconds + now₁.offset = now₂.seconds + now₂.offset)) ∧
    ∀ config level now message,
      "\x1b[0m\n".toList <:+ (record config level now message).toList ∧
      (record config level now message).toList.count '\n' = message.toList.count '\n' + 1 := by
  constructor
  · intro h
    rw [← String.toList_inj, toList_record, toList_record] at h
    obtain ⟨hshown, htexts, h⟩ := shown_inj h
    obtain ⟨hlevel, h⟩ := level_inj h
    have hmessage := String.toList_inj.mp (List.append_cancel_right h)
    have hstamps : stamps config₁ now₁ = stamps config₂ now₂ := by
      rw [← String.toList_inj, toList_stamps, toList_stamps, ← hshown]
      exact congrArg bracketed (List.map_congr_left fun k hk => congrArg _ (htexts k hk))
    refine ⟨hlevel, hmessage, hstamps, hshown, htexts, ?_⟩
    intro htime hdate hleap₁ hleap₂
    have hmem : .time ∈ config₁.shown ∧ .date ∈ config₁.shown := by
      simp only [Config.shown, htime, hdate]
      split <;> simp
    exact Moment.clockSeconds_inj hleap₁ hleap₂ (htexts _ hmem.2) (htexts _ hmem.1)
  · intro config level now message
    have hend : "\x1b[0m\n".toList = (reset ++ "\n").toList := by decide +kernel
    refine ⟨?_, count_record config level now message⟩
    rw [hend, toList_record, ← List.append_assoc (opening level), ← List.cons_append,
      ← List.cons_append, ← List.append_assoc]
    exact List.suffix_append _ _

/-- Half a second past noon of a leap day, by universal time and by a clock an hour ahead. -/
def leapDay : Moment := ⟨951825600, 500000000, 0⟩

def leapDayAhead : Moment := ⟨951822000, 0, 3600⟩

/-- Two clocks that show the same second, with a message that looks like a time stamp. -/
theorem record_decodes_leapDay :
    record ⟨true, true, false⟩ .info leapDay "[12:00:00] " =
      record ⟨true, true, false⟩ .info leapDayAhead "[12:00:00] " ∧
    (∀ k ∈ Config.shown ⟨true, true, false⟩, k.text leapDay = k.text leapDayAhead) ∧
    leapDay.seconds + leapDay.offset = leapDayAhead.seconds + leapDayAhead.offset := by
  have hrecord : record ⟨true, true, false⟩ .info leapDay "[12:00:00] " =
      record ⟨true, true, false⟩ .info leapDayAhead "[12:00:00] " := by decide +kernel
  obtain ⟨-, -, -, -, htexts, hclock⟩ := (record_decodes ⟨true, true, false⟩ ⟨true, true, false⟩
    .info .info leapDay leapDayAhead "[12:00:00] " "[12:00:00] ").1 hrecord
  exact ⟨hrecord, htexts, hclock rfl rfl (by decide) (by decide)⟩

end Marginalia.Console
