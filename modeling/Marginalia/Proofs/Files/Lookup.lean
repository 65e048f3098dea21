import Marginalia.Proofs.Files.Route

/-! What a path names. A path that names something goes on naming it in every tree that keeps the
forms of this one, a free name that is taken later is what its path names then, and looking up a
file and writing to it lead to the same place. -/
namespace Marginalia

/-- A tree has what another one has: directories and links where that one has them, and files
where it has files, with any content. -/
structure Extends (top top' : Node) : Prop where
  directory : ∀ l, top.formAt l = some .directory → top'.formAt l = some .directory
  link : ∀ l target, top.formAt l = some (.link target) → top'.formAt l = some (.link target)
  file : ∀ l content, top.formAt l = some (.file content) →
    ∃ content', top'.formAt l = some (.file content')

namespace Extends

variable {top top' top'' : Node} {l : Location} {f : Form}

/-- It is enough to keep all forms. -/
theorem of_kept (h : ∀ l f, top.formAt l = some f → top'.formAt l = some f) : Extends top top' :=
  ⟨fun l => h l _, fun l _ => h l _, fun l content hl => ⟨content, h l _ hl⟩⟩

/-- One file may be new or have new bytes. -/
theorem of_kept_but {m : Location} {content : List UInt8}
    (hbefore : top.formAt m = none ∨ ∃ old, top.formAt m = some (.file old))
    (hafter : top'.formAt m = some (.file content))
    (hkept : ∀ l f, l ≠ m → top.formAt l = some f → top'.formAt l = some f) : Extends top top' := by
  have hother (l : Location) (f : Form) (hl : top.formAt l = some f)
      (hf : ∀ old, f ≠ .file old) : top'.formAt l = some f := by
    refine hkept l f ?_ hl
    rintro rfl
    rcases hbefore with hnone | ⟨old, hold⟩
    · exact absurd (hnone.symm.trans hl) (by simp)
    · exact hf old (Option.some.inj (hl.symm.trans hold))
  refine ⟨fun l hl => hother l _ hl (by simp), fun l target hl => hother l _ hl (by simp),
    fun l old hl => ?_⟩
  by_cases hlm : l = m
  · exact ⟨content, hlm ▸ hafter⟩
  · exact ⟨old, hkept l _ hlm hl⟩

theorem trans (h : Extends top top') (h' : Extends top' top'') : Extends top top'' := by
  refine ⟨fun l hl => h'.directory l (h.directory l hl),
    fun l target hl => h'.link l target (h.link l target hl), fun l content hl => ?_⟩
  obtain ⟨content', hl'⟩ := h.file l content hl
  exact h'.file l content' hl'

/-- What is not a link is not one afterwards. -/
theorem exists_form (h : Extends top top') (hf : top.formAt l = some f)
    (hlink : ∀ target, f ≠ .link target) :
    ∃ f', top'.formAt l = some f' ∧ ∀ target, f' ≠ .link target := by
  cases f with
  | file content =>
    obtain ⟨content', hl'⟩ := h.file l content hf
    exact ⟨_, hl', by simp⟩
  | link target => exact absurd rfl (hlink target)
  | directory => exact ⟨_, h.directory l hf, by simp⟩

end Extends

namespace Route

variable {top top' : Node} {purpose : Purpose} {links : Nat} {slash : Bool} {l d m : Location}
  {name : String} {rest steps more : List PathStep} {place : Place} {f : Form}

/-- A route to what is there stays a route. -/
theorem mono (hext : Extends top top') (h : Route top purpose links slash l steps place)
    (hplace : place = .taken m) : Route top' purpose links slash l steps place := by
  induction h with
  | done hslash => exact .done fun hs hp => hext.directory _ (hslash hs hp)
  | stay hl _ ih => exact .stay (hext.directory _ hl) (ih hplace)
  | up hl _ ih => exact .up (hext.directory _ hl) (ih hplace)
  | free => exact absurd hplace (by simp)
  | enter hname hf hlink hslash _ ih =>
    obtain ⟨f', hf', hlink'⟩ := hext.exists_form hf hlink
    exact .enter hname hf' hlink' hslash (ih hplace)
  | keep hname hf hpurpose => exact .keep hname (hext.link _ _ hf) hpurpose
  | link hname hf hpurpose hslash _ ih =>
    exact .link hname (hext.link _ _ hf) hpurpose hslash (ih hplace)

/-- Where a free name is taken later, its route leads to what has taken it. -/
theorem find_of_free (hext : Extends top top') (h : Route top purpose links slash l steps place)
    (hplace : place = .free d name) (hf : top'.formAt (d ++ [name]) = some f)
    (hform : f = .directory ∨ purpose = .createFile ∧ ∀ target, f ≠ .link target) :
    Route top' .find links slash l steps (.taken (d ++ [name])) := by
  have hlink : ∀ target, f ≠ .link target := by
    rcases hform with rfl | ⟨_, hlink⟩
    · simp
    · exact hlink
  induction h with
  | done => exact absurd hplace (by simp)
  | stay hl _ ih => exact .stay (hext.directory _ hl) (ih hplace)
  | up hl _ ih => exact .up (hext.directory _ hl) (ih hplace)
  | free _ hname _ hslash =>
    obtain ⟨rfl, rfl⟩ := Place.free.inj hplace
    refine .enter hname hf hlink (by simp) (.done fun hs _ => ?_)
    rcases hform with rfl | ⟨hpurpose, _⟩
    · exact hf
    · exact absurd hpurpose (hslash hs)
  | enter hname hf' hlink' _ _ ih =>
    obtain ⟨f', hf', hlink'⟩ := hext.exists_form hf' hlink'
    exact .enter hname hf' hlink' (by simp) (ih hplace)
  | keep => exact absurd hplace (by simp)
  | link hname hf' _ _ _ ih =>
    exact .link hname (hext.link _ _ hf') (by simp) (by simp) (ih hplace)

theorem free_spec (h : Route top purpose links slash l steps place)
    (hplace : place = .free d name) :
    top.formAt d = some .directory ∧ top.formAt (d ++ [name]) = none ∧
      Text.byteLength name.toList ≤ Node.longestName := by
  induction h with
  | done | keep => exact absurd hplace (by simp)
  | free hl hname hfree =>
    obtain ⟨rfl, rfl⟩ := Place.free.inj hplace
    exact ⟨hl, hfree, hname⟩
  | stay _ _ ih | up _ _ ih | enter _ _ _ _ _ ih | link _ _ _ _ _ ih => exact ih hplace

/-- Behind a slash only a directory is found. -/
theorem directory_of_slash (h : Route top .find links slash l steps place) (hslash : slash = true)
    (hplace : place = .taken m) : top.formAt m = some .directory := by
  induction h with
  | done hdone =>
    rw [← Place.taken.inj hplace]
    exact hdone hslash rfl
  | stay _ _ ih | up _ _ ih | enter _ _ _ _ _ ih => exact ih hslash hplace
  | free => exact absurd hplace (by simp)
  | keep _ _ hpurpose => exact absurd hpurpose (by simp)
  | link _ _ _ _ _ ih => exact ih (by simp [hslash]) hplace

theorem slash_ne_true_of_file {content : List UInt8}
    (h : Route top .find links slash l steps place) (hplace : place = .taken m)
    (hm : top.formAt m = some (.file content)) : slash ≠ true := by
  intro hslash
  rw [h.directory_of_slash hslash hplace] at hm
  exact absurd hm (by simp)

/-- The place of a file that is found is the place to write it. -/
theorem createFile_of_find {content : List UInt8} (h : Route top .find links slash l steps place)
    (hplace : place = .taken m) (hm : top.formAt m = some (.file content)) :
    Route top .createFile links slash l steps place := by
  induction h with
  | done => exact .done (by simp)
  | stay hl _ ih => exact .stay hl (ih hplace)
  | up hl _ ih => exact .up hl (ih hplace)
  | free => exact absurd hplace (by simp)
  | enter hname hf hlink _ hrest ih =>
    have hslash := hrest.slash_ne_true_of_file hplace hm
    exact .enter hname hf hlink (fun _ hs => absurd hs hslash) (ih hplace)
  | keep _ _ hpurpose => exact absurd hpurpose (by simp)
  | link hname hf _ _ hrest ih =>
    have hslash := hrest.slash_ne_true_of_file hplace hm
    exact .link hname hf (by simp) (fun _ hs => absurd (by rw [hs, Bool.true_or]) hslash)
      (ih hplace)

/-- The place to write at is found where it is taken already. -/
theorem find_of_createFile (h : Route top .createFile links slash l steps place)
    (hplace : place = .taken m)
    (hstart : steps = [] → slash = false ∨ top.formAt l = some .directory) :
    Route top .find links slash l steps place := by
  -- Only a look-up needs a directory behind a last slash, so `hstart` is carried along.
  induction h with
  | done =>
    refine .done fun hs _ => ?_
    rcases hstart rfl with hslash | hl
    · exact absurd (hslash.symm.trans hs) (by simp)
    · exact hl
  | stay hl _ ih => exact .stay hl (ih hplace fun _ => .inr hl)
  | up hl _ ih => exact .up hl (ih hplace fun _ => .inr (Node.formAt_dropLast hl))
  | free => exact absurd hplace (by simp)
  | @enter _ slash _ _ _ _ _ hname hf hlink hslash _ ih =>
    refine .enter hname hf hlink (by simp) (ih hplace fun hrest => .inl ?_)
    simpa using fun hs : slash = true => hslash hrest hs rfl
  | keep _ _ hpurpose => exact absurd hpurpose (by simp)
  | link hname hf _ _ _ ih =>
    have hl := Node.formAt_directory_of_append_singleton hf
    refine .link hname hf (by simp) (by simp) (ih hplace fun _ => .inr ?_)
    split
    · exact Node.formAt_nil_of_formAt hl
    · exact hl

/-- From a directory that is found one step more finds an entry that is no link. -/
theorem append_into (h : Route top .find links slash l steps place) (hplace : place = .taken d)
    (hname : Text.byteLength name.toList ≤ Node.longestName)
    (hf : top.formAt (d ++ [name]) = some f) (hlink : ∀ target, f ≠ .link target) :
    Route top .find links false l (steps ++ [.into name]) (.taken (d ++ [name])) := by
  induction h with
  | done =>
    rw [Place.taken.inj hplace]
    exact .enter hname hf hlink (by simp) (.done (by simp))
  | stay hl _ ih => exact .stay hl (ih hplace)
  | up hl _ ih => exact .up hl (ih hplace)
  | free => exact absurd hplace (by simp)
  | enter hname' hf' hlink' _ _ ih => exact .enter hname' hf' hlink' (by simp) (ih hplace)
  | keep _ _ hpurpose => exact absurd hpurpose (by simp)
  | @link _ _ _ _ rest _ target hname' hf' _ _ _ ih =>
    rw [List.cons_append]
    refine .link hname' hf' (by simp) (by simp) ?_
    have hempty : (rest ++ [PathStep.into name]).isEmpty = false := by simp
    rw [hempty, Bool.false_and, Bool.or_false, ← List.append_assoc]
    exact ih hplace

/-- All but the last steps of a route lead to a directory. -/
theorem directory_of_append (h : Route top purpose links slash l steps place)
    (hsteps : steps = rest ++ more) (hmore : more ≠ []) :
    ∃ d, top.formAt d = some .directory ∧
      ∀ slash', Route top .find links slash' l rest (.taken d) := by
  -- A step is taken where `rest` ends, hence in a directory.
  have hstop {links : Nat} {l : Location} (hl : top.formAt l = some .directory) :
      ∃ d, top.formAt d = some .directory ∧
        ∀ slash', Route top .find links slash' l [] (.taken d) :=
    ⟨l, hl, fun _ => .done fun _ _ => hl⟩
  induction h generalizing rest with
  | done => exact absurd (List.append_eq_nil_iff.mp hsteps.symm).2 hmore
  | stay hl _ ih =>
    cases rest with
    | nil => exact hstop hl
    | cons step rest =>
      obtain ⟨rfl, hrest⟩ := List.cons.inj hsteps
      obtain ⟨d, hd, hroute⟩ := ih hrest
      exact ⟨d, hd, fun slash' => .stay hl (hroute slash')⟩
  | up hl _ ih =>
    cases rest with
    | nil => exact hstop hl
    | cons step rest =>
      obtain ⟨rfl, hrest⟩ := List.cons.inj hsteps
      obtain ⟨d, hd, hroute⟩ := ih hrest
      exact ⟨d, hd, fun slash' => .up hl (hroute slash')⟩
  | free hl =>
    cases rest with
    | nil => exact hstop hl
    | cons step rest =>
      exact absurd (List.append_eq_nil_iff.mp (List.cons.inj hsteps).2.symm).2 hmore
  | enter hname hf hlink _ _ ih =>
    cases rest with
    | nil => exact hstop (Node.formAt_directory_of_append_singleton hf)
    | cons step rest =>
      obtain ⟨rfl, hrest⟩ := List.cons.inj hsteps
      obtain ⟨d, hd, hroute⟩ := ih hrest
      exact ⟨d, hd, fun slash' => .enter hname hf hlink (by simp) (hroute slash')⟩
  | keep _ hf =>
    cases rest with
    | nil => exact hstop (Node.formAt_directory_of_append_singleton hf)
    | cons step rest =>
      exact absurd (List.append_eq_nil_iff.mp (List.cons.inj hsteps).2.symm).2 hmore
  | @link _ _ _ _ _ _ target hname hf _ _ _ ih =>
    cases rest with
    | nil => exact hstop (Node.formAt_directory_of_append_singleton hf)
    | cons step rest =>
      obtain ⟨rfl, hrest⟩ := List.cons.inj hsteps
      obtain ⟨d, hd, hroute⟩ := ih (by rw [hrest]; exact (List.append_assoc ..).symm)
      exact ⟨d, hd, fun slash' => .link hname hf (by simp) (by simp) (hroute _)⟩

end Route

/-- A path that can be followed at all. -/
structure Path.Followable (p : Path) : Prop where
  plain : Char.ofNat 0 ∉ p.text.toList
  nonempty : p.isEmpty = false
  short : Text.byteLength p.text.toList ≤ Node.longestPath

namespace Node

variable {top top' node : Node} {purpose : Purpose} {p : Path} {place : Place} {l d : Location}
  {name : String} {f : Form}

theorem locate_eq_ok_iff :
    top.locate purpose p = .ok place ↔
      p.Followable ∧ Route top purpose linkLimit p.endsWithSlash [] p.steps place := by
  rw [locate, ← follow_eq_ok_iff]
  split
  · next hnul =>
    refine ⟨fun h => absurd h (by simp), fun h => absurd (by simpa using hnul) h.1.plain⟩
  · next hnul =>
    split
    · next hempty =>
      exact ⟨fun h => absurd h (by simp), fun h => absurd hempty (by simp [h.1.nonempty])⟩
    · next hempty =>
      split
      · next hlong =>
        exact ⟨fun h => absurd h (by simp), fun h => absurd h.1.short (Nat.not_le.mpr hlong)⟩
      · next hlong =>
        exact ⟨fun h => ⟨⟨by simpa using hnul, by simpa using hempty, Nat.not_lt.mp hlong⟩, h⟩,
          fun h => h.2⟩

theorem find_eq_ok_iff :
    top.find p = .ok (l, node) ↔ top.locate .find p = .ok (.taken l) ∧ top.at? l = some node := by
  rw [find]
  constructor
  · intro h
    split at h
    · exact absurd h (by simp)
    · exact absurd h (by simp)
    · next l' hl' =>
      split at h
      · next node' hnode' =>
        obtain ⟨rfl, rfl⟩ := Prod.mk.inj (Except.ok.inj h)
        exact ⟨hl', hnode'⟩
      · exact absurd h (by simp)
  · rintro ⟨hlocate, hnode⟩
    rw [hlocate]
    simp only [hnode]

/-- What a path names stands at the location to which it leads. -/
theorem formAt_of_find (h : top.find p = .ok (l, node)) : top.formAt l = some node.form :=
  formAt_eq_some_iff.mpr ⟨node, (find_eq_ok_iff.mp h).2, rfl⟩

/-- A path leads to a location, links being followed. -/
def Leads (top : Node) (p : Path) (l : Location) : Prop :=
  p.Followable ∧ Route top .find linkLimit p.endsWithSlash [] p.steps (.taken l)

theorem find_eq_ok_iff_leads :
    top.find p = .ok (l, node) ↔ top.Leads p l ∧ top.at? l = some node := by
  rw [find_eq_ok_iff, locate_eq_ok_iff, Leads]

/-- Where a path leads can be seen by looking there. -/
theorem leads_iff : top.Leads p l ∧ (∃ node, top.at? l = some node) ↔
    (top.find p).toOption.map Prod.fst = some l := by
  constructor
  · rintro ⟨hleads, node, hnode⟩
    rw [find_eq_ok_iff_leads.mpr ⟨hleads, hnode⟩]
    rfl
  · intro h
    cases hfind : top.find p with
    | error e =>
      rw [hfind] at h
      exact absurd h (by simp [Except.toOption])
    | ok found =>
      rw [hfind] at h
      obtain ⟨hleads, hnode⟩ := find_eq_ok_iff_leads.mp hfind
      rw [← show found.1 = l from Option.some.inj h]
      exact ⟨hleads, _, hnode⟩

theorem locate_mono (hext : Extends top top') (h : top.locate purpose p = .ok (.taken l)) :
    top'.locate purpose p = .ok (.taken l) := by
  rw [locate_eq_ok_iff] at h ⊢
  exact ⟨h.1, h.2.mono hext rfl⟩

/-- A path that names something names what stands in its place in a tree that has it still. -/
theorem find_mono {node' : Node} (hext : Extends top top') (h : top.find p = .ok (l, node))
    (hl : top'.at? l = some node') : top'.find p = .ok (l, node') :=
  find_eq_ok_iff.mpr ⟨locate_mono hext (find_eq_ok_iff.mp h).1, hl⟩

theorem find_directory_mono {entries : Entries} (hext : Extends top top')
    (h : top.find p = .ok (l, .directory entries)) :
    ∃ entries', top'.find p = .ok (l, .directory entries') := by
  have hl : top.formAt l = some .directory := formAt_of_find h
  obtain ⟨entries', hl'⟩ := formAt_eq_directory_iff.mp (hext.directory l hl)
  exact ⟨entries', find_mono hext h hl'⟩

theorem locate_find_of_free (hext : Extends top top')
    (h : top.locate purpose p = .ok (.free d name)) (hf : top'.formAt (d ++ [name]) = some f)
    (hform : f = .directory ∨ purpose = .createFile ∧ ∀ target, f ≠ .link target) :
    top'.locate .find p = .ok (.taken (d ++ [name])) := by
  rw [locate_eq_ok_iff] at h ⊢
  exact ⟨h.1, h.2.find_of_free hext rfl hf hform⟩

theorem locate_free_spec (h : top.locate purpose p = .ok (.free d name)) :
    top.formAt d = some .directory ∧ top.formAt (d ++ [name]) = none ∧
      Text.byteLength name.toList ≤ longestName :=
  (locate_eq_ok_iff.mp h).2.free_spec rfl

theorem locate_createFile_of_find {content : List UInt8}
    (hl : top.formAt l = some (.file content)) (h : top.locate .find p = .ok (.taken l)) :
    top.locate .createFile p = .ok (.taken l) := by
  rw [locate_eq_ok_iff] at h ⊢
  exact ⟨h.1, h.2.createFile_of_find rfl hl⟩

theorem locate_find_of_createFile (hl : l ≠ [])
    (h : top.locate .createFile p = .ok (.taken l)) : top.locate .find p = .ok (.taken l) := by
  rw [locate_eq_ok_iff] at h ⊢
  refine ⟨h.1, h.2.find_of_createFile rfl fun hsteps => ?_⟩
  rw [hsteps] at h
  cases h.2
  exact absurd rfl hl

theorem list_eq_ok_iff {entries : Entries} :
    top.list p = .ok entries ↔ ∃ l, top.find p = .ok (l, .directory entries) := by
  rw [list]
  constructor
  · intro h
    split at h
    · next l entries' hfind =>
      rw [Except.ok.inj h] at hfind
      exact ⟨l, hfind⟩
    · exact absurd h (by simp)
    · exact absurd h (by simp)
  · rintro ⟨l, hfind⟩
    rw [hfind]

theorem read_eq_ok_iff {content : List UInt8} :
    top.read p = .ok content ↔ ∃ l, top.find p = .ok (l, .file content) := by
  rw [read]
  constructor
  · intro h
    split at h
    · next l content' hfind =>
      rw [Except.ok.inj h] at hfind
      exact ⟨l, hfind⟩
    · exact absurd h (by simp)
    · exact absurd h (by simp)
  · rintro ⟨l, hfind⟩
    rw [hfind]

theorem has_eq_false_iff : top.has p = false ↔ ∀ found, top.find p ≠ .ok found := by
  rw [has]
  cases top.find p with
  | ok found => simp [Except.toOption]
  | error e => simp [Except.toOption]

theorem has_of_find {found : Location × Node} (h : top.find p = .ok found) : top.has p = true := by
  rw [has, h]
  rfl

theorem hasDirectory_eq_true_iff : top.hasDirectory p = true ↔
    ∃ l, top.locate .find p = .ok (.taken l) ∧ top.formAt l = some .directory := by
  simp only [formAt_eq_directory_iff]
  rw [hasDirectory]
  constructor
  · intro h
    split at h
    · next l node hfind =>
      obtain ⟨hlocate, hl⟩ := find_eq_ok_iff.mp hfind
      cases node with
      | directory entries => exact ⟨l, hlocate, entries, hl⟩
      | file | link => exact absurd h (by simp [isDirectory])
    · exact absurd h (by simp)
  · rintro ⟨l, hlocate, entries, hl⟩
    rw [find_eq_ok_iff.mpr ⟨hlocate, hl⟩]
    rfl

/-- A tree in which a directory is found is a directory itself. -/
theorem formAt_nil_of_list {entries : Entries} (h : top.list p = .ok entries) :
    top.formAt [] = some .directory := by
  obtain ⟨l, hfind⟩ := list_eq_ok_iff.mp h
  exact formAt_nil_of_formAt (formAt_of_find hfind)

end Node

end Marginalia
