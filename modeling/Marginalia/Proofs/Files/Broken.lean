import Marginalia.Proofs.Files.Passage

/-! Links that lead nowhere. Whatever is followed through such a link ends there, so a tree that
gains some of them under free names leads every path to what it led to before. -/
namespace Marginalia

/-- A name in a directory leads nowhere: from there it is followed to no entry. Of a link this says
that it is dangling, or turns in a circle. -/
def Node.Broken (top : Node) (d : Location) (name : String) : Prop :=
  ∀ l, top.follow .find linkLimit false d [.into name] ≠ .ok (.taken l)

/-- A tree gains broken links when it keeps what it has, and what appears are links that lead
nowhere. -/
structure GainsBrokenLinks (top top' : Node) : Prop where
  kept : ∀ l f, top.formAt l = some f → top'.formAt l = some f
  gained : ∀ l f, top.formAt l = none → top'.formAt l = some f →
    ∃ d name target, l = d ++ [name] ∧ f = .link target ∧ top'.Broken d name

namespace Route

variable {top : Node} {links more : Nat} {slash slash' : Bool} {l m d : Location} {name : String}
  {steps rest : List PathStep} {place : Place}

/-- A route that may follow more links and need not end at a directory is still a route. -/
theorem relax (h : Route top .find links slash l steps place) (hlinks : links ≤ more)
    (hslash : slash' = true → slash = true) : Route top .find more slash' l steps place := by
  induction h generalizing more slash' with
  | done hdone => exact .done fun hs => hdone (hslash hs)
  | stay hl _ ih => exact .stay hl (ih hlinks hslash)
  | up hl _ ih => exact .up hl (ih hlinks hslash)
  | free hl hname hfree => exact .free hl hname hfree (by simp)
  | enter hname hf hlink _ _ ih => exact .enter hname hf hlink (by simp) (ih hlinks hslash)
  | keep _ _ hpurpose => exact absurd hpurpose (by simp)
  | @link links slash l name rest place target hname hf _ _ _ ih =>
    obtain ⟨more, rfl⟩ : ∃ k, more = k + 1 := ⟨more - 1, by omega⟩
    refine .link hname hf (by simp) (by simp) (ih (Nat.le_of_succ_le_succ hlinks) ?_)
    intro hs
    rcases Bool.or_eq_true _ _ |>.mp hs with hs | hs
    · rw [hslash hs, Bool.true_or]
    · rw [hs, Bool.or_true]

/-- No route to an entry goes through a broken link. -/
theorem not_of_broken (hbroken : top.Broken d name) (hlinks : links ≤ Node.linkLimit) :
    ¬ Route top .find links slash d (.into name :: rest) (.taken m) := by
  intro h
  -- The steps up to the link would be a route of their own.
  have hfirst : ∃ l, Route top .find links false d [.into name] (.taken l) := by
    by_cases hrest : rest = []
    · rw [hrest] at h
      exact ⟨m, h.relax le_rfl (by simp)⟩
    · have hsteps : PathStep.into name :: rest = [.into name] ++ rest := rfl
      obtain ⟨l, -, hroute⟩ := h.directory_of_append hsteps hrest
      exact ⟨l, hroute false⟩
  obtain ⟨l, hroute⟩ := hfirst
  exact hbroken l (Node.follow_eq_ok_iff.mpr (hroute.relax hlinks (by simp)))

/-- From a directory that is found one step more comes to a free name. -/
theorem append_free (h : Route top .find links slash l steps place) (hplace : place = .taken d)
    (hd : top.formAt d = some .directory)
    (hname : Text.byteLength name.toList ≤ Node.longestName)
    (hfree : top.formAt (d ++ [name]) = none) :
    Route top .find links false l (steps ++ [.into name]) (.free d name) := by
  induction h with
  | done =>
    obtain rfl := Place.taken.inj hplace
    exact .free hd hname hfree (by simp)
  | stay hl _ ih => exact .stay hl (ih hplace)
  | up hl _ ih => exact .up hl (ih hplace)
  | free => exact absurd hplace (by simp)
  | enter hname' hf' hlink' _ _ ih => exact .enter hname' hf' hlink' (by simp) (ih hplace)
  | keep _ _ hpurpose => exact absurd hpurpose (by simp)
  | @link _ _ _ _ rest _ target hname' hf' _ _ _ ih =>
    rw [List.cons_append]
    refine .link hname' hf' (by simp) (by simp) ?_
    have hempty : (rest ++ [PathStep.into name]).isEmpty = false := by simp
    rw [hempty, Bool.false_and, Bool.or_false, ← List.append_assoc]
    exact ih hplace

end Route

namespace GainsBrokenLinks

variable {top top' top'' : Node} {links : Nat} {slash : Bool} {l m d : Location} {name : String}
  {steps : List PathStep} {place : Place} {p : Path} {f : Form} {entries : Entries} {target : Path}

theorem toExtends (h : GainsBrokenLinks top top') : Extends top top' := .of_kept h.kept

/-- Directories and files are those from before. -/
theorem formAt_iff (h : GainsBrokenLinks top top') (hlink : ∀ target, f ≠ .link target) :
    top'.formAt l = some f ↔ top.formAt l = some f := by
  refine ⟨fun hf => ?_, h.kept l f⟩
  cases hl : top.formAt l with
  | none =>
    obtain ⟨_, _, target, _, htarget, _⟩ := h.gained l f hl hf
    exact absurd htarget (hlink target)
  | some g => exact (h.kept l g hl).symm.trans hf

/-- A route to an entry in the tree with the broken links meets none of them. -/
theorem route (h : GainsBrokenLinks top top') (hroute : Route top' .find links slash l steps place)
    (hplace : place = .taken m) (hlinks : links ≤ Node.linkLimit) :
    Route top .find links slash l steps place := by
  induction hroute with
  | done hslash => exact .done fun hs hfind => (h.formAt_iff (by simp)).mp (hslash hs hfind)
  | stay hl _ ih => exact .stay ((h.formAt_iff (by simp)).mp hl) (ih hplace hlinks)
  | up hl _ ih => exact .up ((h.formAt_iff (by simp)).mp hl) (ih hplace hlinks)
  | free => exact absurd hplace (by simp)
  | enter hname hf hlink hslash _ ih =>
    exact .enter hname ((h.formAt_iff hlink).mp hf) hlink hslash (ih hplace hlinks)
  | keep _ _ hpurpose => exact absurd hpurpose (by simp)
  | @link links slash l name rest place target hname hf hpurpose hslash hrest ih =>
    cases hl : top.formAt (l ++ [name]) with
    | none =>
      -- The link is one of those that appeared, and the route goes through it.
      obtain ⟨d, name', _, heq, _, hbroken⟩ := h.gained _ _ hl hf
      obtain ⟨rfl, rfl⟩ := List.append_singleton_inj.mp heq
      have hthrough := Route.link hname hf hpurpose hslash hrest
      rw [hplace] at hthrough
      exact absurd hthrough (Route.not_of_broken hbroken hlinks)
    | some g =>
      obtain rfl := Option.some.inj ((h.kept _ g hl).symm.trans hf)
      exact .link hname hl hpurpose hslash (ih hplace (by omega))

theorem locate_taken_iff (h : GainsBrokenLinks top top') :
    top'.locate .find p = .ok (.taken l) ↔ top.locate .find p = .ok (.taken l) := by
  refine ⟨fun hl => ?_, Node.locate_mono h.toExtends⟩
  rw [Node.locate_eq_ok_iff] at hl ⊢
  exact ⟨hl.1, h.route hl.2 rfl le_rfl⟩

/-- Every path leads to what it led to before. -/
theorem leadsAlike (h : GainsBrokenLinks top top') (p : Path) : top.LeadsAlike top' p where
  directory := by
    rw [Bool.eq_iff_iff, Node.hasDirectory_eq_true_iff, Node.hasDirectory_eq_true_iff]
    simp only [h.locate_taken_iff, h.formAt_iff (f := .directory) (by simp)]
  text text := by
    have hfile (l : Location) (content : List UInt8) :
        top'.at? l = some (.file content) ↔ top.at? l = some (.file content) := by
      rw [← Node.formAt_eq_file_iff, h.formAt_iff (by simp), Node.formAt_eq_file_iff]
    simp only [Node.readText_eq_ok_iff, Node.find_eq_ok_iff, h.locate_taken_iff, hfile]

theorem broken (h : GainsBrokenLinks top top') (hbroken : top.Broken d name) :
    top'.Broken d name := by
  intro l hl
  have hroute := h.route (Node.follow_eq_ok_iff.mp hl) rfl le_rfl
  exact hbroken l (Node.follow_eq_ok_iff.mpr hroute)

theorem trans (h : GainsBrokenLinks top top') (h' : GainsBrokenLinks top' top'') :
    GainsBrokenLinks top top'' where
  kept l f hl := h'.kept l f (h.kept l f hl)
  gained l f hnone hl := by
    cases hmid : top'.formAt l with
    | none => exact h'.gained l f hmid hl
    | some g =>
      obtain ⟨d, name, target, hl', hg, hbroken⟩ := h.gained l g hnone hmid
      have hfg : f = g := Option.some.inj (hl.symm.trans (h'.kept l g hmid))
      exact ⟨d, name, target, hl', hfg.trans hg, h'.broken hbroken⟩

/-- A link under a free name that leads nowhere once it is there. -/
theorem put (hd : top.at? d = some (.directory entries)) (hfree : entries.lookup name = none)
    (hbroken : (top.put (d ++ [name]) (.link target)).Broken d name) :
    GainsBrokenLinks top (top.put (d ++ [name]) (.link target)) := by
  have hform := Node.formAt_put_of_free hd hfree (Node.isLeaf_link target)
  have hnone : top.formAt (d ++ [name]) = none := by
    rw [Node.formAt_append_singleton hd, hfree]
    rfl
  constructor
  · intro l f hl
    rw [hform, if_neg]
    · exact hl
    · rintro rfl
      exact absurd (hnone.symm.trans hl) (by simp)
  · intro l f hl hf
    rw [hform] at hf
    split at hf
    · next heq => exact ⟨d, name, target, heq, (Option.some.inj hf).symm, hbroken⟩
    · exact absurd (hl.symm.trans hf) (by simp)

end GainsBrokenLinks

end Marginalia
