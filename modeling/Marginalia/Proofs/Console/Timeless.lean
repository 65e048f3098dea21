import Marginalia.Proofs.Console.Record
import Marginalia.Proofs.Text.Lines

/-! Console output without the times at which it was written. The numbers are taken out of the time
stamps at the front of each line, whoever wrote the line. What is left of records is the same for
every clock. -/
namespace Marginalia.Console

/-- The characters of a time stamp between its brackets. -/
def isStampChar (c : Char) : Bool := c.isDigit || [':', '/', '-', '+'].contains c

/-- What stands between the numbers of a time stamp, the sign of a year being part of its number. -/
def separatorsIn (s : List Char) : List Char := s.filter fun c => [':', '/'].contains c

/-- A line without the numbers of the time stamps that it begins with, at most `count` of them. -/
def withoutNumbers : Nat → List Char → List Char
  | count + 1, '[' :: rest =>
    let separators := separatorsIn (rest.takeWhile isStampChar)
    match rest.dropWhile isStampChar with
    | ']' :: ' ' :: after =>
      if separators = [':', ':'] ∨ separators = ['/', '/'] then
        '[' :: (separators ++ ']' :: ' ' :: withoutNumbers count after)
      else '[' :: rest
    | _ => '[' :: rest
  | _, line => line

/-- A text without the numbers of the time stamps at the front of its lines. No line shows more
than a time and a date. -/
def timeless (s : List Char) : List Char := (Text.pieces s).flatMap (withoutNumbers 2)

/-- What is left of a time stamp between its brackets. -/
def Stamp.separators : Stamp → List Char
  | .time => [':', ':']
  | .date => ['/', '/']

variable {now : Moment} {s : List Char}

section Stamps

theorem separatorsIn_padded (width n : Nat) : separatorsIn (padded width n).toList = [] := by
  rw [separatorsIn, List.filter_eq_nil_iff]
  intro c hc hsep
  have hdigit := isDigit_of_mem_padded hc
  rw [List.contains_iff_mem, List.mem_pair] at hsep
  rcases hsep with rfl | rfl <;> exact absurd hdigit (by decide)

theorem separatorsIn_append (s t : List Char) :
    separatorsIn (s ++ t) = separatorsIn s ++ separatorsIn t :=
  List.filter_append s t

theorem separatorsIn_yearText (year : Int) : separatorsIn (Date.yearText year).toList = [] := by
  have hsign (sign : Char) (hsign : separatorsIn [sign] = []) (n : Nat) :
      separatorsIn (sign :: (padded 4 n).toList) = [] := by
    rw [← List.singleton_append, separatorsIn_append, hsign, separatorsIn_padded]
    rfl
  rw [Date.toList_yearText]
  split
  · exact separatorsIn_padded 4 _
  · split
    · exact hsign '-' rfl _
    · exact hsign '+' rfl _

/-- A time stamp of either kind is known by its separators. -/
theorem separatorsIn_text (k : Stamp) (now : Moment) :
    separatorsIn (k.text now).toList = k.separators := by
  have hcons {c : Char} (hc : separatorsIn [c] = [c]) (s : List Char) :
      separatorsIn (c :: s) = c :: separatorsIn s := by
    rw [← List.singleton_append, separatorsIn_append, hc, List.singleton_append]
  cases k with
  | time =>
    rw [Stamp.text, TimeOfDay.toList_text, separatorsIn_append, hcons rfl, separatorsIn_append,
      hcons rfl, separatorsIn_padded, separatorsIn_padded, separatorsIn_padded]
    rfl
  | date =>
    rw [Stamp.text, Date.toList_text, separatorsIn_append, hcons rfl, separatorsIn_append,
      hcons rfl, separatorsIn_padded, separatorsIn_padded, separatorsIn_yearText]
    rfl

theorem isStampChar_of_mem_text {k : Stamp} {c : Char} (h : c ∈ (k.text now).toList) :
    isStampChar c = true := by
  rw [isStampChar, Bool.or_eq_true, List.contains_iff_mem]
  exact Stamp.mem_text h

/-- Of a time stamp at the front of a line only the separators are left. -/
theorem withoutNumbers_stamp (count : Nat) (k : Stamp) (now : Moment) (after : List Char) :
    withoutNumbers (count + 1) ('[' :: ((k.text now).toList ++ ']' :: ' ' :: after)) =
      '[' :: (k.separators ++ ']' :: ' ' :: withoutNumbers count after) := by
  have hshown : ∀ c ∈ (k.text now).toList, isStampChar c = true :=
    fun _ hc => isStampChar_of_mem_text hc
  have hend : ∀ c ∈ (']' :: ' ' :: after).head?, isStampChar c = false := by
    intro c hc
    obtain rfl := Option.mem_some_iff.mp hc
    decide
  have hkind : k.separators = [':', ':'] ∨ k.separators = ['/', '/'] := by
    cases k
    · exact .inl rfl
    · exact .inr rfl
  simp only [withoutNumbers, Text.takeWhile_append_of_head hshown hend,
    Text.dropWhile_append_of_head hshown hend, separatorsIn_text, if_pos hkind]

/-- The tag of a level is no time stamp. -/
theorem withoutNumbers_escape (count : Nat) (s : List Char) :
    withoutNumbers count ('[' :: escape :: s) = '[' :: escape :: s := by
  have hescape : isStampChar escape = false := by decide
  cases count with
  | zero => rfl
  | succ count =>
    rw [withoutNumbers, List.dropWhile_cons_of_neg (by simp [hescape])]
    rfl

theorem withoutNumbers_bracketed {count : Nat} {ks : List Stamp} (h : ks.length ≤ count)
    (now : Moment) (s : List Char) :
    withoutNumbers count (bracketed (ks.map fun k => (k.text now).toList) ++ '[' :: escape :: s) =
      bracketed (ks.map Stamp.separators) ++ '[' :: escape :: s := by
  induction ks generalizing count with
  | nil => exact withoutNumbers_escape count s
  | cons k ks ih =>
    cases count with
    | zero => exact absurd h (by simp)
    | succ count =>
      have hrest := ih (Nat.le_of_succ_le_succ h)
      simp only [bracketed, List.map_cons, List.flatMap_cons, List.cons_append, List.append_assoc,
        List.nil_append] at hrest ⊢
      rw [withoutNumbers_stamp, hrest]

theorem Config.length_shown_le (config : Config) : config.shown.length ≤ 2 := by
  obtain ⟨_ | _, _ | _, _ | _⟩ := config <;> decide

end Stamps

section Records

theorem timeless_append_lineFeed (s t : List Char) :
    timeless (s ++ '\n' :: t) = timeless (s ++ ['\n']) ++ timeless t := by
  rw [timeless, Text.pieces_append_lineFeed, List.flatMap_append]
  rfl

/-- The time stamps of a record lose their numbers, and what follows them is kept as it is. -/
theorem timeless_stamps (config : Config) (now : Moment) (hs : s ≠ []) :
    timeless (bracketed (config.shown.map fun k => (k.text now).toList) ++ '[' :: escape :: s) =
      bracketed (config.shown.map Stamp.separators) ++ timeless ('[' :: escape :: s) := by
  -- No line feed stands before `s`, so the stamps are all in front of its first line.
  obtain ⟨first, others, hpieces⟩ := Text.exists_pieces_eq_cons hs
  have hopen : '\n' ∉ ['[', escape] := by decide
  have htag : Text.pieces ('[' :: escape :: s) = ('[' :: escape :: first) :: others :=
    Text.pieces_append hopen hpieces
  have hstamps : '\n' ∉ bracketed (config.shown.map fun k => (k.text now).toList) :=
    List.count_eq_zero.mp (count_stamps config now)
  rw [timeless, timeless, Text.pieces_append hstamps htag, htag, List.flatMap_cons,
    List.flatMap_cons, withoutNumbers_bracketed config.length_shown_le, withoutNumbers_escape,
    List.append_assoc]

/-- A record without the numbers of its time stamps. -/
def Entry.timeless (config : Config) (e : Entry) : List Char :=
  bracketed (config.shown.map Stamp.separators) ++ Console.timeless
    ('[' :: escape :: (opening e.level ++ (e.message.toList ++ reset.toList)) ++ ['\n'])

theorem timeless_record_append (config : Config) (now : Moment) (e : Entry) (t : List Char) :
    timeless ((e.record config now).toList ++ t) = e.timeless config ++ timeless t := by
  have hrecord : (e.record config now).toList ++ t =
      bracketed (config.shown.map fun k => (k.text now).toList) ++ '[' :: escape ::
        (opening e.level ++ (e.message.toList ++ reset.toList) ++ '\n' :: t) := by
    rw [Entry.record, toList_record, String.toList_append]
    simp
  rw [hrecord, timeless_stamps config now (by simp), ← List.cons_append, ← List.cons_append,
    timeless_append_lineFeed, Entry.timeless, List.append_assoc]

/-- Records that were written one after the other lose the times at which they were written. -/
theorem timeless_join (config : Config) (entries : List Entry) (clock : Nat → Moment) :
    timeless (String.join (entries.mapIdx fun i e => e.record config (clock i))).toList =
      entries.flatMap (Entry.timeless config) := by
  -- The clock of the records behind the first one starts one tick later.
  induction entries generalizing clock with
  | nil => rfl
  | cons e entries ih =>
    rw [List.mapIdx_cons, String.join_cons, String.toList_append, timeless_record_append,
      List.flatMap_cons, ih fun i => clock (i + 1)]

end Records

end Marginalia.Console
