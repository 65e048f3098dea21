import Marginalia.Proofs.Files.Change
import Mathlib.Data.List.Induction

/-! Trees without links. There a path can lead to one location only, which is read off its steps,
and the last name of a path is the name of what it leads to. -/
namespace Marginalia

/-- A tree without links. -/
def Node.LinkFree (top : Node) : Prop := ∀ l target, top.formAt l ≠ some (.link target)

theorem Route.eq_location {top : Node} {purpose : Purpose} {links : Nat} {slash : Bool}
    {l m : Location} {steps : List PathStep} {place : Place}
    (h : Route top purpose links slash l steps place) (hplace : place = .taken m)
    (htop : top.LinkFree) : m = steps.foldl PathStep.after l := by
  induction h with
  | done => exact (Place.taken.inj hplace).symm
  | stay _ _ ih | up _ _ ih | enter _ _ _ _ _ ih => exact ih hplace
  | free => exact absurd hplace (by simp)
  | keep _ hf | link _ hf => exact absurd hf (htop _ _)

namespace Node

variable {top top' node : Node} {p : Path} {l : Location} {content : List UInt8}

theorem LinkFree.file (content : List UInt8) : (file content).LinkFree := by
  intro l target h
  rw [formAt_eq_link_iff] at h
  cases l with
  | nil => exact absurd h (by simp)
  | cons => exact absurd h (by simp)

theorem LinkFree.directory {entries : Entries} (h : ∀ e ∈ entries, e.2.LinkFree) :
    (directory entries).LinkFree := by
  intro l target hl
  rw [formAt_eq_link_iff] at hl
  cases l with
  | nil => exact absurd hl (by simp)
  | cons name l =>
    rw [at?_directory_cons, Option.bind_eq_some_iff] at hl
    obtain ⟨node, hnode, hl⟩ := hl
    exact h _ (Entries.mem_of_lookup hnode) l target (formAt_eq_link_iff.mpr hl)

/-- Without links a path leads nowhere but to its location. -/
theorem LinkFree.find_eq_location (htop : top.LinkFree) (h : top.find p = .ok (l, node)) :
    l = p.location :=
  (locate_eq_ok_iff.mp (find_eq_ok_iff.mp h).1).2.eq_location rfl htop

theorem LinkFree.of_written (htop : top.LinkFree) (h : Written p l content top top') :
    top'.LinkFree := by
  intro m target hm
  by_cases hml : m = l
  · rw [hml, formAt_of_find h.found] at hm
    exact absurd hm (by simp [form])
  · rcases h.others m hml with heq | ⟨_, q, _, entries, hfind⟩
    · exact htop m target (heq ▸ hm)
    · rw [formAt_of_find hfind] at hm
      exact absurd hm (by simp [form])

theorem LinkFree.of_stored (htop : top.LinkFree) (h : Stored l content top top') :
    top'.LinkFree := by
  intro m target hm
  by_cases hml : m = l
  · rw [hml, h.after] at hm
    exact absurd hm (by simp)
  · exact htop m target (h.frame m hml ▸ hm)

end Node

namespace Path

variable {p q : Path} {name : String}

theorem splitSlash_append_slash (s t : List Char) :
    splitSlash (s ++ '/' :: t) = splitSlash s ++ splitSlash t := by
  induction s with
  | nil => simp [splitSlash]
  | cons c s ih =>
    rw [List.cons_append, splitSlash, splitSlash, ih]
    split
    · rfl
    · cases hs : splitSlash s with
      | nil =>
        rw [splitSlash_eq_splitOn] at hs
        exact absurd hs (List.splitOn_ne_nil _ _)
      | cons => rfl

/-- The steps of a text between slashes. -/
def stepsOfText (s : List Char) : List PathStep := stepsOf ((splitSlash s).map String.ofList)

theorem stepsOfText_append_slash (s t : List Char) :
    stepsOfText (s ++ '/' :: t) = stepsOfText s ++ stepsOfText t := by
  rw [stepsOfText, splitSlash_append_slash, List.map_append, stepsOf_append]
  rfl

/-- A leading slash adds no step. -/
theorem steps_eq_stepsOfText (p : Path) : p.steps = stepsOfText p.text.toList := by
  rw [steps_eq_stepsOf, segments_eq, ← splitSlash_eq_splitOn]
  by_cases h : p.isAbsolute = true
  · obtain ⟨rest, hrest⟩ := isAbsolute_iff.mp h
    rw [h, hrest]
    have hsplit := stepsOfText_append_slash [] rest
    rw [List.nil_append] at hsplit
    rw [hsplit]
    rfl
  · rw [Bool.not_eq_true] at h
    rw [h]
    rfl

/-- A path that is joined to another one ends with its own steps. -/
theorem exists_steps_join (p q : Path) : ∃ before, (p.join q).steps = before ++ q.steps := by
  rw [join]
  split
  · exact ⟨[], rfl⟩
  simp only [steps_eq_stepsOfText]
  split
  · next h =>
    -- No slash is put in between, since nothing precedes it or there is one already.
    rw [Bool.or_eq_true] at h
    rcases h with hempty | hslash
    · rw [isEmpty, List.isEmpty_iff] at hempty
      refine ⟨[], ?_⟩
      rw [String.toList_append, hempty]
      rfl
    · rw [endsWithSlash, beq_iff_eq, List.getLast?_eq_some_iff] at hslash
      obtain ⟨init, hinit⟩ := hslash
      refine ⟨stepsOfText init, ?_⟩
      rw [String.toList_append, hinit, List.append_assoc, List.singleton_append,
        stepsOfText_append_slash]
  · refine ⟨stepsOfText p.text.toList, ?_⟩
    rw [String.toList_append, String.toList_append, List.append_assoc]
    exact stepsOfText_append_slash _ _

/-- The steps of segments whose last component is a name lead to that name. -/
theorem exists_after_stepsOf {segments : List String}
    (h : (segments.filterMap Component.ofSegment?).getLast? = some (.name name)) (l : Location) :
    ∃ d, (stepsOf segments).foldl PathStep.after l = d ++ [name] := by
  -- From the end: empty segments and dots change nothing until the name is reached.
  induction segments using List.reverseRecOn with
  | nil => exact absurd h (by simp)
  | append_singleton segments s ih =>
    rw [List.filterMap_append] at h
    rw [stepsOf_append, List.foldl_append]
    by_cases hempty : s = ""
    · subst hempty
      exact ih (by simpa [Component.ofSegment?] using h)
    by_cases hhere : s = "."
    · subst hhere
      exact ih (by simpa [Component.ofSegment?] using h)
    by_cases hup : s = ".."
    · subst hup
      exact absurd h (by simp [Component.ofSegment?])
    · have hname : s = name := by
        simpa [Component.ofSegment?, hempty, hhere, hup] using h
      have hlast : stepsOf [s] = [.into s] := by simp [stepsOf, hempty, hhere, hup]
      exact ⟨(stepsOf segments).foldl PathStep.after l, by rw [hlast, hname]; rfl⟩

theorem getLast?_of_fileName? (h : p.fileName? = some name) :
    (p.segments.filterMap Component.ofSegment?).getLast? = some (.name name) := by
  have hlast : p.components.getLast? = some (.name name) := by
    rw [fileName?] at h
    split at h
    · next n hn => rw [hn, Option.some.inj h]
    · exact absurd h (by simp)
  rw [components_eq, List.getLast?_append] at hlast
  cases hsegments : (p.segments.filterMap Component.ofSegment?).getLast? with
  | some c => simpa [hsegments] using hlast
  | none =>
    rw [hsegments, Option.none_or] at hlast
    have hmem := List.mem_of_getLast? hlast
    rw [start] at hmem
    split at hmem
    · exact absurd hmem (by simp)
    · split at hmem
      · exact absurd hmem (by simp)
      · exact absurd hmem (by simp)

/-- The location of a path ends with the file name of what was joined last. -/
theorem exists_location_join (h : q.fileName? = some name) (p : Path) :
    ∃ d, (p.join q).location = d ++ [name] := by
  obtain ⟨before, hbefore⟩ := exists_steps_join p q
  rw [location, hbefore, List.foldl_append, steps_eq_stepsOf]
  exact exists_after_stepsOf (getLast?_of_fileName? h) _

end Path

end Marginalia
