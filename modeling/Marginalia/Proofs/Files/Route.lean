import Marginalia.Files.Lookup
import Marginalia.Proofs.Files.Tree

/-! Following a path as a derivation. A route has one rule for each way in which a step can
succeed, and speaks of the tree only through forms, so that whatever keeps forms keeps routes. Main
statement: a path is followed to a place exactly when there is a route to it. -/
namespace Marginalia

/-- The steps lead from a location to a place, at most `links` links being followed. -/
inductive Route (top : Node) (purpose : Purpose) :
    Nat → Bool → Location → List PathStep → Place → Prop
  | done {links : Nat} {slash : Bool} {l : Location}
      (hslash : slash = true → purpose = .find → top.formAt l = some .directory) :
      Route top purpose links slash l [] (.taken l)
  | stay {links : Nat} {slash : Bool} {l : Location} {rest : List PathStep} {place : Place}
      (hl : top.formAt l = some .directory) (hrest : Route top purpose links slash l rest place) :
      Route top purpose links slash l (.stay :: rest) place
  | up {links : Nat} {slash : Bool} {l : Location} {rest : List PathStep} {place : Place}
      (hl : top.formAt l = some .directory)
      (hrest : Route top purpose links slash l.dropLast rest place) :
      Route top purpose links slash l (.up :: rest) place
  | free {links : Nat} {slash : Bool} {l : Location} {name : String}
      (hl : top.formAt l = some .directory)
      (hname : Text.byteLength name.toList ≤ Node.longestName)
      (hfree : top.formAt (l ++ [name]) = none) (hslash : slash = true → purpose ≠ .createFile) :
      Route top purpose links slash l [.into name] (.free l name)
  | enter {links : Nat} {slash : Bool} {l : Location} {name : String} {rest : List PathStep}
      {place : Place} {f : Form} (hname : Text.byteLength name.toList ≤ Node.longestName)
      (hf : top.formAt (l ++ [name]) = some f) (hlink : ∀ target, f ≠ .link target)
      (hslash : rest = [] → slash = true → purpose ≠ .createFile)
      (hrest : Route top purpose links slash (l ++ [name]) rest place) :
      Route top purpose links slash l (.into name :: rest) place
  | keep {links : Nat} {slash : Bool} {l : Location} {name : String} {target : Path}
      (hname : Text.byteLength name.toList ≤ Node.longestName)
      (hf : top.formAt (l ++ [name]) = some (.link target))
      (hpurpose : purpose = .createDirectory) :
      Route top purpose links slash l [.into name] (.taken (l ++ [name]))
  | link {links : Nat} {slash : Bool} {l : Location} {name : String} {rest : List PathStep}
      {place : Place} {target : Path} (hname : Text.byteLength name.toList ≤ Node.longestName)
      (hf : top.formAt (l ++ [name]) = some (.link target))
      (hpurpose : rest = [] → purpose ≠ .createDirectory)
      (hslash : rest = [] → slash = true → purpose ≠ .createFile)
      (hrest : Route top purpose links (slash || (rest.isEmpty && target.endsWithSlash))
        (if target.isAbsolute then [] else l) (target.steps ++ rest) place) :
      Route top purpose (links + 1) slash l (.into name :: rest) place

namespace Node

variable {top : Node} {l d : Location} {name : String} {f : Form}

theorem formAt_append_singleton {entries : Entries} (h : top.at? l = some (.directory entries))
    (name : String) : top.formAt (l ++ [name]) = (entries.lookup name).map form := by
  rw [formAt, at?_append_singleton h]

theorem formAt_directory_of_append_singleton (h : top.formAt (l ++ [name]) = some f) :
    top.formAt l = some .directory := by
  obtain ⟨node, hnode, _⟩ := formAt_eq_some_iff.mp h
  exact formAt_eq_directory_iff.mpr (directory_of_at?_append_singleton hnode)

/-- What holds a directory is a directory, and so is the top when it holds anything. -/
theorem formAt_dropLast (h : top.formAt l = some .directory) :
    top.formAt l.dropLast = some .directory := by
  rcases List.eq_nil_or_concat' l with rfl | ⟨l, name, rfl⟩
  · exact h
  · rw [List.dropLast_concat]
    exact formAt_directory_of_append_singleton h

theorem formAt_nil_of_formAt (h : top.formAt l = some .directory) :
    top.formAt [] = some .directory := by
  obtain ⟨entries, hentries⟩ := formAt_eq_directory_iff.mp h
  cases top with
  | directory => rfl
  | file | link =>
    cases l with
    | nil => exact h
    | cons => exact absurd hentries (by simp)

end Node

namespace Route

variable {top : Node} {purpose : Purpose} {links : Nat} {slash : Bool} {l : Location}
  {step : PathStep} {rest steps : List PathStep} {place : Place}

/-- Every step is taken in a directory. -/
theorem directory (h : Route top purpose links slash l (step :: rest) place) :
    top.formAt l = some .directory := by
  cases h with
  | stay hl | up hl | free hl => exact hl
  | enter _ hf | keep _ hf | link _ hf => exact Node.formAt_directory_of_append_singleton hf

theorem short {name : String} (h : Route top purpose links slash l (.into name :: rest) place) :
    Text.byteLength name.toList ≤ Node.longestName := by
  cases h with
  | free _ hname | enter hname | keep hname | link hname => exact hname

/-- No file is created under a last name with a slash behind it. -/
theorem ne_createFile {name : String}
    (h : Route top purpose links slash l (.into name :: rest) place) (hrest : rest = [])
    (hslash : slash = true) : purpose ≠ .createFile := by
  cases h with
  | free _ _ _ hno => exact hno hslash
  | keep _ _ hpurpose => simp [hpurpose]
  | enter _ _ _ hno | link _ _ _ hno => exact hno hrest hslash

/-- A free name ends a route. -/
theorem into_free_iff {name : String} (hl : top.formAt l = some .directory)
    (hname : Text.byteLength name.toList ≤ Node.longestName)
    (hfree : top.formAt (l ++ [name]) = none)
    (hslash : rest = [] → slash = true → purpose ≠ .createFile) :
    Route top purpose links slash l (.into name :: rest) place ↔
      rest = [] ∧ place = .free l name := by
  constructor
  · intro h
    cases h with
    | free => exact ⟨rfl, rfl⟩
    | enter _ hf | keep _ hf | link _ hf => exact absurd (hfree.symm.trans hf) (by simp)
  · rintro ⟨rfl, rfl⟩
    exact .free hl hname hfree (hslash rfl)

/-- A link ends a route that makes a directory, and any other route goes on at its target. -/
theorem into_link_iff {name : String} {target : Path}
    (hname : Text.byteLength name.toList ≤ Node.longestName)
    (hf : top.formAt (l ++ [name]) = some (.link target))
    (hslash : rest = [] → slash = true → purpose ≠ .createFile) :
    Route top purpose links slash l (.into name :: rest) place ↔
      (rest = [] ∧ purpose = .createDirectory ∧ place = .taken (l ++ [name])) ∨
        (rest = [] → purpose ≠ .createDirectory) ∧ ∃ k, links = k + 1 ∧
          Route top purpose k (slash || (rest.isEmpty && target.endsWithSlash))
            (if target.isAbsolute then [] else l) (target.steps ++ rest) place := by
  constructor
  · intro h
    cases h with
    | free _ _ hfree => exact absurd (hfree.symm.trans hf) (by simp)
    | enter _ hf' hno => exact absurd (Option.some.inj (hf'.symm.trans hf)) (hno target)
    | keep _ _ hpurpose => exact .inl ⟨rfl, hpurpose, rfl⟩
    | link _ hf' hpurpose _ hrest =>
      have htarget := Form.link.inj (Option.some.inj (hf'.symm.trans hf))
      exact .inr ⟨hpurpose, _, rfl, htarget ▸ hrest⟩
  · rintro (⟨rfl, hpurpose, rfl⟩ | ⟨hpurpose, k, rfl, h⟩)
    · exact .keep hname hf hpurpose
    · exact .link hname hf hpurpose hslash h

/-- Behind any other entry a route goes on in it. -/
theorem into_iff {name : String} {f : Form}
    (hname : Text.byteLength name.toList ≤ Node.longestName)
    (hf : top.formAt (l ++ [name]) = some f) (hlink : ∀ target, f ≠ .link target)
    (hslash : rest = [] → slash = true → purpose ≠ .createFile) :
    Route top purpose links slash l (.into name :: rest) place ↔
      Route top purpose links slash (l ++ [name]) rest place := by
  constructor
  · intro h
    cases h with
    | free _ _ hfree => exact absurd (hfree.symm.trans hf) (by simp)
    | enter _ _ _ _ hrest => exact hrest
    | keep _ hf' | link _ hf' => exact absurd (Option.some.inj (hf.symm.trans hf')) (hlink _)
  · intro h
    exact .enter hname hf hlink hslash h

end Route

namespace Node

variable {top : Node} {purpose : Purpose} {links : Nat} {slash : Bool} {l : Location}
  {name : String} {steps rest : List PathStep} {place : Place}
  {followLink : Location → Path → List PathStep → Except FileError Place}

theorem walk_nil_eq_ok_iff :
    walk top purpose slash followLink l [] = .ok place ↔
      Route top purpose links slash l [] place := by
  have hdirectory : (top.at? l).any isDirectory = true ↔ top.formAt l = some .directory := by
    rw [formAt]
    rcases top.at? l with _ | content | target | entries <;> simp [isDirectory, form]
  rw [walk]
  constructor
  · intro h
    split at h
    · exact absurd h (by simp)
    · next hcond =>
      simp only [Bool.and_eq_true, beq_iff_eq, Bool.not_eq_true', Bool.not_eq_false, not_and,
        hdirectory] at hcond
      rw [← Except.ok.inj h]
      exact .done fun hslash hfind => hcond ⟨hslash, hfind⟩
  · rintro ⟨hslash⟩
    rw [if_neg]
    simp only [Bool.and_eq_true, beq_iff_eq, Bool.not_eq_true', Bool.not_eq_false, not_and,
      hdirectory]
    exact fun hcond => hslash hcond.1 hcond.2

/-- Going to a name is a route when going on from there is one, and at a link too. -/
theorem walk_into_eq_ok_iff {entries : Entries} (hl : top.at? l = some (.directory entries))
    (hnext : ∀ l, walk top purpose slash followLink l rest = .ok place ↔
      Route top purpose links slash l rest place)
    (hfollow : ∀ target, followLink l target rest = .ok place ↔
      ∃ k, links = k + 1 ∧ Route top purpose k (slash || (rest.isEmpty && target.endsWithSlash))
        (if target.isAbsolute then [] else l) (target.steps ++ rest) place) :
    walk top purpose slash followLink l (.into name :: rest) = .ok place ↔
      Route top purpose links slash l (.into name :: rest) place := by
  have hform := formAt_append_singleton hl name
  simp only [walk, hl]
  by_cases hslash : rest.isEmpty && slash && purpose == .createFile
  · rw [if_pos hslash]
    simp only [Bool.and_eq_true, List.isEmpty_iff, beq_iff_eq] at hslash
    exact ⟨fun h => absurd h (by simp),
      fun h => absurd hslash.2 (h.ne_createFile hslash.1.1 hslash.1.2)⟩
  rw [if_neg hslash]
  replace hslash : rest = [] → slash = true → purpose ≠ .createFile := by simpa using hslash
  by_cases hlong : longestName < Text.byteLength name.toList
  · rw [if_pos hlong]
    refine ⟨fun h => absurd h (by simp), fun h => ?_⟩
    have := h.short
    omega
  rw [if_neg hlong]
  have hname := Nat.not_lt.mp hlong
  cases hlookup : entries.lookup name with
  | none =>
    rw [hlookup] at hform
    rw [Route.into_free_iff (formAt_eq_directory_iff.mpr ⟨_, hl⟩) hname hform hslash]
    cases rest <;> simp [eq_comm]
  | some node =>
    rw [hlookup] at hform
    cases node with
    | file | directory =>
      rw [Route.into_iff hname hform (by simp [form]) hslash]
      exact hnext _
    | link target =>
      rw [Route.into_link_iff hname hform hslash, ← hfollow]
      by_cases hkeep : rest = [] ∧ purpose = .createDirectory
      · simp [hkeep, eq_comm]
      · have hpurpose : rest = [] → purpose ≠ .createDirectory := by simpa using hkeep
        simp only [List.isEmpty_iff, Bool.and_eq_true, beq_iff_eq, if_neg hkeep]
        refine ⟨fun h => .inr ⟨hpurpose, h⟩, ?_⟩
        rintro (⟨hrest, hcreate, _⟩ | ⟨_, h⟩)
        · exact absurd ⟨hrest, hcreate⟩ hkeep
        · exact h

/-- Taking steps is a route when going on at a link is one. -/
theorem walk_eq_ok_iff
    (hfollow : ∀ l target rest place, followLink l target rest = .ok place ↔
      ∃ k, links = k + 1 ∧ Route top purpose k (slash || (rest.isEmpty && target.endsWithSlash))
        (if target.isAbsolute then [] else l) (target.steps ++ rest) place) :
    walk top purpose slash followLink l steps = .ok place ↔
      Route top purpose links slash l steps place := by
  induction steps generalizing l with
  | nil => exact walk_nil_eq_ok_iff
  | cons step rest ih =>
    by_cases hdirectory : top.formAt l = some .directory
    · obtain ⟨entries, hl⟩ := formAt_eq_directory_iff.mp hdirectory
      cases step with
      | into name => exact walk_into_eq_ok_iff hl (fun _ => ih) fun target => hfollow l target _ _
      | stay =>
        simp only [walk, hl]
        exact ih.trans ⟨.stay hdirectory, fun h => by cases h; assumption⟩
      | up =>
        simp only [walk, hl]
        exact ih.trans ⟨.up hdirectory, fun h => by cases h; assumption⟩
    · have herror : walk top purpose slash followLink l (step :: rest) = .error .notDirectory := by
        rw [walk]
        split
        · next entries hl => exact absurd (formAt_eq_directory_iff.mpr ⟨entries, hl⟩) hdirectory
        · rfl
      rw [herror]
      exact ⟨fun h => absurd h (by simp), fun h => absurd h.directory hdirectory⟩

/-- A path is followed to a place exactly when there is a route to it. -/
theorem follow_eq_ok_iff :
    follow top purpose links slash l steps = .ok place ↔
      Route top purpose links slash l steps place := by
  induction links generalizing slash l steps place with
  | zero =>
    rw [follow]
    exact walk_eq_ok_iff fun l target rest place =>
      ⟨fun h => absurd h (by simp), fun ⟨k, hk, _⟩ => absurd hk (by omega)⟩
  | succ links ih =>
    rw [follow]
    refine walk_eq_ok_iff fun l target rest place => ih.trans ⟨fun h => ⟨links, rfl, h⟩, ?_⟩
    rintro ⟨k, hk, h⟩
    rw [Nat.succ.inj hk]
    exact h

end Node

end Marginalia
