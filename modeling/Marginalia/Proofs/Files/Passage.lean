import Marginalia.Proofs.Files.Change
import Marginalia.Proofs.Files.Lookup

/-! The entries that a path passes on its way, links included. A path depends on nothing else: in a
tree that looks the same there, it leads to the same place. -/
namespace Marginalia

/-- Steps that are taken from a location come to an entry, whether or not they end there. -/
inductive Node.Meets (top : Node) : Location → List PathStep → Location → Prop
  | entry {l : Location} {name : String} {rest : List PathStep} :
      Meets top l (.into name :: rest) (l ++ [name])
  | stay {l m : Location} {rest : List PathStep} (h : Meets top l rest m) :
      Meets top l (.stay :: rest) m
  | up {l m : Location} {rest : List PathStep} (h : Meets top l.dropLast rest m) :
      Meets top l (.up :: rest) m
  | enter {l m : Location} {name : String} {rest : List PathStep} {f : Form}
      (hf : top.formAt (l ++ [name]) = some f) (hlink : ∀ target, f ≠ .link target)
      (h : Meets top (l ++ [name]) rest m) : Meets top l (.into name :: rest) m
  | link {l m : Location} {name : String} {rest : List PathStep} {target : Path}
      (hf : top.formAt (l ++ [name]) = some (.link target))
      (h : Meets top (if target.isAbsolute then [] else l) (target.steps ++ rest) m) :
      Meets top l (.into name :: rest) m

/-- A path leads somewhere, and to or through an entry. -/
def Node.Passes (top : Node) (p : Path) (m : Location) : Prop :=
  (∃ l, top.locate .find p = .ok (.taken l)) ∧ top.Meets [] p.steps m

/-- Both trees look the same at a location. -/
abbrev Node.SameAt (top top' : Node) (l : Location) : Prop := top'.formAt l = top.formAt l

namespace Node.SameAt

variable {top top' : Node} {l : Location}

theorem symm (h : SameAt top top' l) : SameAt top' top l := Eq.symm h

theorem dropLast (h : SameAt top top' l) (hl : top.formAt l = some .directory) :
    SameAt top top' l.dropLast := by
  have hl' : top'.formAt l = some .directory := h.trans hl
  exact (formAt_dropLast hl').trans (formAt_dropLast hl).symm

theorem nil (h : SameAt top top' l) (hl : top.formAt l = some .directory) :
    SameAt top top' [] := by
  have hl' : top'.formAt l = some .directory := h.trans hl
  exact (formAt_nil_of_formAt hl').trans (formAt_nil_of_formAt hl).symm

end Node.SameAt

/-- A route is a route in every tree that looks the same where it begins and at the entries that it
meets, and what it ends at looks the same too. -/
theorem Route.of_sameAt {top top' : Node} {purpose : Purpose} {links : Nat} {slash : Bool}
    {l : Location} {steps : List PathStep} {place : Place}
    (h : Route top purpose links slash l steps place) (hl : top.SameAt top' l)
    (hmeets : ∀ m, top.Meets l steps m → top.SameAt top' m) :
    Route top' purpose links slash l steps place ∧
      ∀ m, place = .taken m → top.SameAt top' m := by
  -- Every rule asks for the form of the location or of an entry that is met.
  induction h with
  | done hslash =>
    refine ⟨.done fun hs hfind => hl.trans (hslash hs hfind), ?_⟩
    intro m hm
    rwa [← Place.taken.inj hm]
  | stay hdirectory _ ih =>
    obtain ⟨hrest, hplace⟩ := ih hl fun m hm => hmeets m (.stay hm)
    exact ⟨.stay (hl.trans hdirectory) hrest, hplace⟩
  | up hdirectory _ ih =>
    obtain ⟨hrest, hplace⟩ := ih (hl.dropLast hdirectory) fun m hm => hmeets m (.up hm)
    exact ⟨.up (hl.trans hdirectory) hrest, hplace⟩
  | free hdirectory hname hfree hslash =>
    refine ⟨.free (hl.trans hdirectory) hname ((hmeets _ .entry).trans hfree) hslash, ?_⟩
    intro m hm
    exact absurd hm (by simp)
  | enter hname hf hlink hslash _ ih =>
    have hentry := hmeets _ .entry
    obtain ⟨hrest, hplace⟩ := ih hentry fun m hm => hmeets m (.enter hf hlink hm)
    exact ⟨.enter hname (hentry.trans hf) hlink hslash hrest, hplace⟩
  | keep hname hf hpurpose =>
    have hentry := hmeets _ .entry
    refine ⟨.keep hname (hentry.trans hf) hpurpose, ?_⟩
    intro m hm
    rwa [← Place.taken.inj hm]
  | @link links slash l name rest place target hname hf hpurpose hslash _ ih =>
    have hentry := hmeets _ .entry
    have hdirectory := Node.formAt_directory_of_append_singleton hf
    have hstart : top.SameAt top' (if target.isAbsolute then [] else l) := by
      split
      · exact hl.nil hdirectory
      · exact hl
    obtain ⟨hrest, hplace⟩ := ih hstart fun m hm => hmeets m (.link hf hm)
    exact ⟨.link hname (hentry.trans hf) hpurpose hslash hrest, hplace⟩

/-- A path leads to the same in both trees: to a directory, to a file with the same text, or to
nothing that can be read. -/
structure Node.LeadsAlike (top top' : Node) (p : Path) : Prop where
  directory : top'.hasDirectory p = top.hasDirectory p
  text : ∀ text, top'.readText p = .ok text ↔ top.readText p = .ok text

namespace Node

variable {top top' : Node} {p : Path} {l : Location}

theorem LeadsAlike.symm (h : LeadsAlike top top' p) : LeadsAlike top' top p where
  directory := h.directory.symm
  text text := (h.text text).symm

theorem locate_of_sameAt (h : top.locate .find p = .ok (.taken l)) (htop : top.SameAt top' [])
    (hpasses : ∀ m, top.Passes p m → top.SameAt top' m) :
    top'.locate .find p = .ok (.taken l) ∧ top.SameAt top' l := by
  obtain ⟨hfollow, hroute⟩ := locate_eq_ok_iff.mp h
  obtain ⟨hroute', hplace⟩ := hroute.of_sameAt htop fun m hm => hpasses m ⟨⟨l, h⟩, hm⟩
  exact ⟨locate_eq_ok_iff.mpr ⟨hfollow, hroute'⟩, hplace l rfl⟩

/-- What a path leads to is what it leads to in a tree that looks the same wherever the path passes
in one of them. -/
theorem leadsAlike_of_sameAt (htop : top.SameAt top' [])
    (hpasses : ∀ m, top.Passes p m ∨ top'.Passes p m → top.SameAt top' m) :
    LeadsAlike top top' p := by
  have hforth {l : Location} (h : top.locate .find p = .ok (.taken l)) :=
    locate_of_sameAt h htop fun m hm => hpasses m (.inl hm)
  have hback {l : Location} (h : top'.locate .find p = .ok (.taken l)) :=
    locate_of_sameAt h htop.symm fun m hm => (hpasses m (.inr hm)).symm
  have hform (l : Location) (f : Form) :
      (top'.locate .find p = .ok (.taken l) ∧ top'.formAt l = some f) ↔
        (top.locate .find p = .ok (.taken l) ∧ top.formAt l = some f) := by
    constructor
    · rintro ⟨hlocate, hf⟩
      obtain ⟨hlocate', hl⟩ := hback hlocate
      exact ⟨hlocate', hl.trans hf⟩
    · rintro ⟨hlocate, hf⟩
      obtain ⟨hlocate', hl⟩ := hforth hlocate
      exact ⟨hlocate', hl.trans hf⟩
  constructor
  · rw [Bool.eq_iff_iff, hasDirectory_eq_true_iff, hasDirectory_eq_true_iff]
    simp only [hform]
  · intro text
    simp only [readText_eq_ok_iff, find_eq_ok_iff, ← formAt_eq_file_iff, hform]

end Node

end Marginalia
