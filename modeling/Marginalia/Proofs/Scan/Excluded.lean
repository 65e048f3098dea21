import Marginalia.Proofs.Scan.Findings

/-! What a walk does not see. Files of excluded names, and directories that are hidden or excluded
with all that is in them, have no effect on it, as long as no link that it sees leads to them or
through them. Whether a name counts depends on what it names: a directory may be called like an
excluded file, and a file like an excluded directory. -/
namespace Marginalia

namespace Options

/-- Whether a walk leaves out an entry: a directory that it does not enter, or anything else of an
excluded name. -/
def omits (o : Options) (name : String) : Node → Bool
  | .directory _ => !o.enters name
  | _ => o.excludedFiles.contains name

/-- The form that a walk sees at a location below a node, none where an entry on the way is left
out. -/
def seen (o : Options) : Node → Location → Option Form
  | node, [] => some node.form
  | .directory entries, name :: rest =>
    match entries.lookup name with
    | some node => if o.omits name node then none else o.seen node rest
    | none => none
  | _, _ :: _ => none

/-- Two nodes, each in a tree of its own and under the same path, in which a walk sees the same, and
every link that it sees leads to the same. -/
structure Alike (o : Options) (top top' : Node) (p : Path) (node node' : Node) : Prop where
  seen : ∀ l, o.seen node' l = o.seen node l
  links : ∀ l target, o.seen node l = some (.link target) → top.LeadsAlike top' (p.below l)

variable {o : Options} {top top' node node' : Node} {p : Path} {r r' : Location} {name : String}
  {entries entries' : Entries} {e : String × Node}

@[simp]
theorem seen_nil (o : Options) (node : Node) : o.seen node [] = some node.form := by
  cases node <;> rfl

theorem seen_cons (h : entries.lookup name = some node) (homits : o.omits name node = false)
    (l : Location) : o.seen (.directory entries) (name :: l) = o.seen node l := by
  simp only [seen, h, homits, Bool.false_eq_true, if_false]

theorem eq_nil_of_seen {f : Form} {l : Location} (hnode : node.isDirectory = false)
    (h : o.seen node l = some f) : l = [] := by
  cases l with
  | nil => rfl
  | cons =>
    cases node with
    | file | link => exact absurd h (by simp [seen])
    | directory => exact absurd hnode (by simp [Node.isDirectory])

theorem omits_of_isOwn (h : o.isOwn top p (name, node) = true) : o.omits name node = false := by
  obtain ⟨hname, ⟨content, rfl⟩ | ⟨target, rfl, _⟩⟩ := isOwn_iff.mp h
  · simpa [omits] using hname
  · simpa [omits] using hname

theorem isWalked_iff : o.isWalked (name, node) = true ↔
    ∃ below, node = .directory below ∧ o.omits name node = false := by
  cases node <;> simp [isWalked, omits, Node.isDirectory]

namespace Alike

theorem symm (h : o.Alike top top' p node node') : o.Alike top' top p node' node where
  seen l := (h.seen l).symm
  links l target hlink := (h.links l target ((h.seen l).symm.trans hlink)).symm

theorem form (h : o.Alike top top' p node node') : node'.form = node.form := by
  have hnil := h.seen []
  rw [seen_nil, seen_nil, Option.some.injEq] at hnil
  exact hnil

/-- What is seen in one of two directories stands in the other one, and the same is seen in it. -/
theorem child (h : o.Alike top top' p (.directory entries) (.directory entries'))
    (hlookup : entries.lookup name = some node) (homits : o.omits name node = false) :
    ∃ node', entries'.lookup name = some node' ∧ o.Alike top top' (p.join ⟨name⟩) node node' := by
  have hseen := seen_cons hlookup homits
  -- The entry itself is seen, so there is one of its name that is not left out either.
  have hname := h.seen [name]
  rw [hseen, seen_nil, Options.seen] at hname
  cases hlookup' : entries'.lookup name with
  | none => simp [hlookup'] at hname
  | some node' =>
    cases homits' : o.omits name node' with
    | true => simp [hlookup', homits'] at hname
    | false =>
      refine ⟨node', rfl, ?_, ?_⟩
      · intro l
        calc o.seen node' l
            = o.seen (.directory entries') (name :: l) := (seen_cons hlookup' homits' l).symm
          _ = o.seen (.directory entries) (name :: l) := h.seen (name :: l)
          _ = o.seen node l := hseen l
      · intro l target hlink
        exact h.links (name :: l) target ((hseen l).trans hlink)

theorem own (h : o.Alike top top' p (.directory entries) (.directory entries'))
    (hdistinct : (entries.map Prod.fst).Nodup) (he : e ∈ entries.filter (o.isOwn top p)) :
    ∃ e' ∈ entries'.filter (o.isOwn top' p), e'.1 = e.1 := by
  obtain ⟨name, node⟩ := e
  obtain ⟨hmem, hown⟩ := List.mem_filter.mp he
  have hlookup := (Entries.lookup_eq_some_iff hdistinct).mpr hmem
  have homits := omits_of_isOwn hown
  obtain ⟨node', hlookup', halike⟩ := h.child hlookup homits
  refine ⟨(name, node'), ?_, rfl⟩
  apply List.mem_filter.mpr
  refine ⟨Entries.mem_of_lookup hlookup', ?_⟩
  obtain ⟨hname, ⟨content, rfl⟩ | ⟨target, rfl, hdirectory⟩⟩ := isOwn_iff.mp hown
  · exact isOwn_iff.mpr ⟨hname, .inl ⟨content, Node.form_eq_file_iff.mp halike.form⟩⟩
  · -- A link counts as a file unless it leads to a directory, which needs the whole way.
    have hleads := halike.links [] target (seen_nil _ _)
    rw [Path.below_nil] at hleads
    exact isOwn_iff.mpr ⟨hname, .inr ⟨target, Node.form_eq_link_iff.mp halike.form,
      hleads.directory.trans hdirectory⟩⟩

theorem walked (h : o.Alike top top' p (.directory entries) (.directory entries'))
    (hdistinct : (entries.map Prod.fst).Nodup) (he : e ∈ entries.filter o.isWalked) :
    ∃ e' ∈ entries'.filter o.isWalked, e'.1 = e.1 := by
  obtain ⟨name, node⟩ := e
  obtain ⟨hmem, hwalked⟩ := List.mem_filter.mp he
  obtain ⟨below, rfl, homits⟩ := isWalked_iff.mp hwalked
  have hlookup := (Entries.lookup_eq_some_iff hdistinct).mpr hmem
  obtain ⟨node', hlookup', halike⟩ := h.child hlookup homits
  obtain ⟨below', rfl⟩ := Node.form_eq_directory_iff.mp halike.form
  refine ⟨(name, .directory below'), ?_, rfl⟩
  apply List.mem_filter.mpr
  exact ⟨Entries.mem_of_lookup hlookup', isWalked_iff.mpr ⟨below', rfl, homits⟩⟩

/-- Own files have the same names in both directories, so they come in the same order. -/
theorem names_own (h : o.Alike top top' p (.directory entries) (.directory entries'))
    (hdistinct : (entries.map Prod.fst).Nodup) (hdistinct' : (entries'.map Prod.fst).Nodup) :
    (Entries.byName (entries'.filter (o.isOwn top' p))).map Prod.fst =
      (Entries.byName (entries.filter (o.isOwn top p))).map Prod.fst := by
  apply Entries.names_byName_eq (Entries.nodup_filter hdistinct _)
    (Entries.nodup_filter hdistinct' _)
  · exact fun e he => h.own hdistinct he
  · exact fun e' he' => h.symm.own hdistinct' he'

theorem names_walked (h : o.Alike top top' p (.directory entries) (.directory entries'))
    (hdistinct : (entries.map Prod.fst).Nodup) (hdistinct' : (entries'.map Prod.fst).Nodup) :
    (Entries.byName (entries'.filter o.isWalked)).map Prod.fst =
      (Entries.byName (entries.filter o.isWalked)).map Prod.fst := by
  apply Entries.names_byName_eq (Entries.nodup_filter hdistinct _)
    (Entries.nodup_filter hdistinct' _)
  · exact fun e he => h.walked hdistinct he
  · exact fun e' he' => h.symm.walked hdistinct' he'

theorem readText_own (h : o.Alike top top' p (.directory entries) (.directory entries'))
    (hnode : (Node.directory entries).WellFormed) (hreaches : Reaches top p r (.directory entries))
    (hreaches' : Reaches top' p r' (.directory entries'))
    (he : e ∈ entries.filter (o.isOwn top p)) (text : String) :
    top'.readText (p.join ⟨e.1⟩) = .ok text ↔ top.readText (p.join ⟨e.1⟩) = .ok text := by
  obtain ⟨name, node⟩ := e
  cases hnode with
  | directory distinct named below =>
    obtain ⟨hmem, hown⟩ := List.mem_filter.mp he
    have hlookup := (Entries.lookup_eq_some_iff distinct).mpr hmem
    obtain ⟨node', hlookup', halike⟩ := h.child hlookup (omits_of_isOwn hown)
    obtain ⟨hname, ⟨content, rfl⟩ | ⟨target, rfl, hdirectory⟩⟩ := isOwn_iff.mp hown
    · -- A file is reached by its path in both trees, and holds the same bytes.
      obtain rfl := Node.form_eq_file_iff.mp halike.form
      have hfile := hreaches.join (named _ hmem) hlookup (by simp)
      have hfile' := hreaches'.join (named _ hmem) hlookup' (by simp)
      rw [Scan.readText_of_reaches hfile, Scan.readText_of_reaches hfile']
    · exact (halike.links [] target (seen_nil _ _)).text text

end Alike

/-- What walks of two nodes meet is the same: the files, their texts, and the directories that
cannot be listed. -/
structure WalkedAlike (o : Options) (top top' : Node) (p : Path) (node node' : Node) : Prop where
  files : (o.inventory top' p node').files = (o.inventory top p node).files
  closed : (o.inventory top' p node').closed.map ClosedDirectory.path =
    (o.inventory top p node).closed.map ClosedDirectory.path
  text : ∀ file ∈ (o.inventory top p node).files, ∀ text,
    top'.readText file = .ok text ↔ top.readText file = .ok text

namespace WalkedAlike

theorem of_not_isDirectory (hnode : node.isDirectory = false) (hform : node'.form = node.form) :
    o.WalkedAlike top top' p node node' := by
  have hempty {top node : Node} (h : node.isDirectory = false) :
      o.inventory top p node = ⟨[], [], []⟩ := by
    cases node with
    | file | link => rw [inventory]
    | directory => exact absurd h (by simp [Node.isDirectory])
  have hnode' : node'.isDirectory = false := by
    cases node <;> cases node' <;> simp_all [Node.isDirectory, Node.form]
  constructor
  · rw [hempty hnode, hempty hnode']
  · rw [hempty hnode, hempty hnode']
  · simp [hempty hnode]

theorem of_long (hreaches : Reaches top p r (.directory entries))
    (hreaches' : Reaches top' p r' (.directory entries'))
    (hlong : ¬ Text.byteLength p.text.toList ≤ Node.longestPath) :
    o.WalkedAlike top top' p (.directory entries) (.directory entries') := by
  -- Neither is listed, whatever the cause that is given.
  have hclosed {top : Node} {r : Location} {entries : Entries}
      (h : Reaches top p r (.directory entries)) :
      ∃ cause, o.inventory top p (.directory entries) = ⟨[], [], [⟨p, cause⟩]⟩ := by
    cases hlist : top.list p with
    | ok listed => exact absurd (h.exists_list_iff.mp ⟨listed, hlist⟩) hlong
    | error cause =>
      refine ⟨cause, ?_⟩
      rw [inventory]
      simp only [hlist]
  obtain ⟨cause, hinventory⟩ := hclosed hreaches
  obtain ⟨cause', hinventory'⟩ := hclosed hreaches'
  constructor
  · rw [hinventory, hinventory']
  · rw [hinventory, hinventory']
    rfl
  · simp [hinventory]

/-- Directories that are listed are walked alike when those below them are. -/
theorem of_below (h : o.Alike top top' p (.directory entries) (.directory entries'))
    (hnode : (Node.directory entries).WellFormed) (hnode' : (Node.directory entries').WellFormed)
    (hreaches : Reaches top p r (.directory entries))
    (hreaches' : Reaches top' p r' (.directory entries'))
    (hshort : Text.byteLength p.text.toList ≤ Node.longestPath)
    (hbelow : ∀ e ∈ Entries.byName (entries.filter o.isWalked),
      ∀ e' ∈ Entries.byName (entries'.filter o.isWalked), e'.1 = e.1 →
        o.WalkedAlike top top' (p.join ⟨e.1⟩) e.2 e'.2) :
    o.WalkedAlike top top' p (.directory entries) (.directory entries') := by
  obtain ⟨listed, hlist⟩ := hreaches.exists_list_iff.mpr hshort
  obtain ⟨listed', hlist'⟩ := hreaches'.exists_list_iff.mpr hshort
  have htext := fun e he => h.readText_own (e := e) hnode hreaches hreaches' he
  cases hnode with
  | directory distinct named =>
    cases hnode' with
    | directory distinct' named' =>
      have hp := hreaches.nonempty
      have hwalked := h.names_walked distinct distinct'
      have hfiles := files_inventory (o := o) hlist hp named
      constructor
      -- Own files have the same names, and each directory below brings the same files.
      · have hown := congrArg (List.map fun n => p.join ⟨n⟩) (h.names_own distinct distinct')
        rw [List.map_map, List.map_map] at hown
        rw [hfiles, files_inventory hlist' hp named']
        congr 1
        apply Entries.flatMap_eq_of_names hwalked
        intro e he e' he' heq
        rw [heq]
        exact (hbelow e he e' he' heq).files
      · rw [closed_inventory hlist hp named, closed_inventory hlist' hp named', List.map_flatMap,
          List.map_flatMap]
        apply Entries.flatMap_eq_of_names hwalked
        intro e he e' he' heq
        rw [heq]
        exact (hbelow e he e' he' heq).closed
      -- Every file is an own file or one of a directory below.
      · intro file hfile
        rw [hfiles, List.mem_append, List.mem_map, List.mem_flatMap] at hfile
        rcases hfile with ⟨e, he, rfl⟩ | ⟨e, he, hfile⟩
        · exact htext e (Entries.mem_byName.mp he)
        · obtain ⟨e', he', heq⟩ := h.walked distinct (Entries.mem_byName.mp he)
          exact (hbelow e he e' (Entries.mem_byName.mpr he') heq).text file hfile

end WalkedAlike

/-- Where the same is seen the same is walked. -/
theorem Alike.walkedAlike (hnode : node.WellFormed) (hnode' : node'.WellFormed)
    (h : o.Alike top top' p node node') (hreaches : Reaches top p r node)
    (hreaches' : Reaches top' p r' node') : o.WalkedAlike top top' p node node' := by
  -- The induction is on the first tree; the second one follows it through the entries seen.
  induction hnode generalizing p r r' node' with
  | file | link => exact .of_not_isDirectory rfl h.form
  | @directory entries distinct named below ih =>
    obtain ⟨entries', rfl⟩ := Node.form_eq_directory_iff.mp h.form
    by_cases hshort : Text.byteLength p.text.toList ≤ Node.longestPath
    · refine .of_below h (.directory distinct named below) hnode' hreaches hreaches' hshort ?_
      rintro ⟨name, node⟩ he ⟨name', node'⟩ he' (rfl : name' = name)
      obtain ⟨hmem, hwalked⟩ := List.mem_filter.mp (Entries.mem_byName.mp he)
      obtain ⟨hmem', hwalked'⟩ := List.mem_filter.mp (Entries.mem_byName.mp he')
      obtain ⟨deeper, rfl, homits⟩ := isWalked_iff.mp hwalked
      obtain ⟨deeper', rfl, -⟩ := isWalked_iff.mp hwalked'
      cases hnode' with
      | directory distinct' named' below' =>
        have hlookup := (Entries.lookup_eq_some_iff distinct).mpr hmem
        have hlookup' := (Entries.lookup_eq_some_iff distinct').mpr hmem'
        obtain ⟨found, hfound, halike⟩ := h.child hlookup homits
        obtain rfl := Option.some.inj (hlookup'.symm.trans hfound)
        have hname : IsName name' := named _ hmem
        exact ih _ hmem (below' _ hmem') halike (hreaches.join hname hlookup (by simp))
          (hreaches'.join hname hlookup' (by simp))
    · exact .of_long hreaches hreaches' hshort

end Options

namespace Scan

variable {top top' : Node} {o : Options} {file : Path}

theorem ofFile_congr (h : ∀ text, top'.readText file = .ok text ↔ top.readText file = .ok text) :
    (ofFile top' o file).findings = (ofFile top o file).findings ∧
      (ofFile top' o file).entries = (ofFile top o file).entries := by
  cases hread : top.readText file with
  | ok text =>
    simp only [ofFile, hread, (h text).mpr hread, and_self]
  | error failure =>
    cases hread' : top'.readText file with
    | ok text => exact absurd ((h text).mp hread') (by simp [hread])
    | error failure' => simp only [ofFile, hread, hread', and_self]

/-- What a walk does not see has no effect on it. In two trees with roots that can be listed, let
the same be seen below the roots, and let both trees look the same wherever a link that is seen
there leads to or through, followed from the path by which the walk opens it. Then both walks return
the same findings in the same order and say the same on the console. -/
theorem run_depends_on_seen (top top' : Node) (o : Options) (entries entries' : Entries)
    (htop : top.WellFormed) (htop' : top'.WellFormed) (hlist : top.list o.root = .ok entries)
    (hlist' : top'.list o.root = .ok entries')
    (hseen : ∀ l, o.seen (.directory entries') l = o.seen (.directory entries) l)
    (hlinks : ∀ l target m, o.seen (.directory entries) l = some (.link target) →
      top.Passes (o.root.below l) m ∨ top'.Passes (o.root.below l) m → top.SameAt top' m) :
    ∃ scan scan', run top o = .ok scan ∧ run top' o = .ok scan' ∧
      scan'.findings = scan.findings ∧ scan'.entries = scan.entries := by
  obtain ⟨r, hroot⟩ := Node.list_eq_ok_iff.mp hlist
  obtain ⟨r', hroot'⟩ := Node.list_eq_ok_iff.mp hlist'
  have hnil : top.SameAt top' [] :=
    (Node.formAt_nil_of_list hlist').trans (Node.formAt_nil_of_list hlist).symm
  have halike : o.Alike top top' o.root (.directory entries) (.directory entries') := by
    refine ⟨hseen, fun l target hlink => ?_⟩
    apply Node.leadsAlike_of_sameAt hnil
    exact fun m => hlinks l target m hlink
  have hwalked := halike.walkedAlike (htop.of_at? (Node.find_eq_ok_iff.mp hroot).2).1
    (htop'.of_at? (Node.find_eq_ok_iff.mp hroot').2).1 (.inl hroot) (.inl hroot')
  refine ⟨_, _, by rw [run, hlist]; rfl, by rw [run, hlist']; rfl, ?_, ?_⟩
  -- The files are the same list, and each of them brings the same.
  · simp only [hwalked.files, List.flatMap_map]
    apply List.flatMap_congr
    exact fun file hfile => (ofFile_congr (hwalked.text file hfile)).1
  · have hclosed := congrArg
      (List.map fun path => Console.Entry.mk .warning ("Could not list directory: " ++ path.text))
      hwalked.closed
    rw [List.map_map, List.map_map] at hclosed
    simp only [hwalked.files, List.flatMap_map]
    congr 1
    apply List.flatMap_congr
    exact fun file hfile => (ofFile_congr (hwalked.text file hfile)).2

/-- A project with a file that is called like an excluded directory, a link to it, and a hidden
directory. -/
def trackedProject : Node :=
  .directory [(".git", .directory [("head", .file [])]), ("dist", .file [84, 79, 68, 79, 40, 41]),
    ("n", .link ⟨"dist"⟩)]

/-- The project without the hidden directory, and with a checklist. -/
def exportedProject : Node :=
  .directory [("n", .link ⟨"dist"⟩), ("dist", .file [84, 79, 68, 79, 40, 41]),
    ("TODO.md", .file [35])]

theorem wellFormed_trackedProject : trackedProject.WellFormed := by
  refine .directory (by decide) (by decide) ?_
  simp only [List.forall_mem_cons]
  refine ⟨.directory (by decide) (by decide) ?_, .file _, .link (by decide), by simp⟩
  rw [List.forall_mem_singleton]
  exact .file []

theorem wellFormed_exportedProject : exportedProject.WellFormed := by
  refine .directory (by decide) (by decide) ?_
  simp only [List.forall_mem_cons]
  exact ⟨.link (by decide), .file _, .file _, by simp⟩

variable {l m : Location}

theorem seen_exportedProject (l : Location) :
    (Options.ofRoot ⟨"."⟩).seen exportedProject l =
      (Options.ofRoot ⟨"."⟩).seen trackedProject l := by
  cases l with
  | nil => rfl
  | cons name l =>
    by_cases hgit : name = ".git"
    · subst hgit
      rfl
    by_cases htodo : name = "TODO.md"
    · subst htodo
      rfl
    by_cases hdist : name = "dist"
    · subst hdist
      rfl
    · simp [Options.seen, exportedProject, trackedProject, List.lookup_cons, beq_false_of_ne hgit,
        beq_false_of_ne htodo, beq_false_of_ne hdist]

theorem passes_link {top : Node} (hn : top.formAt ["n"] = some (.link ⟨"dist"⟩))
    (hdist : top.formAt ["dist"] = some (.file [84, 79, 68, 79, 40, 41]))
    (h : top.Passes ((Path.mk ".").below ["n"]) m) : m = ["n"] ∨ m = ["dist"] := by
  have hsteps : ((Path.mk ".").below ["n"]).steps = [.stay, .into "n"] := by decide +kernel
  have htarget : (Path.mk "dist").steps ++ [] = [.into "dist"] := by decide +kernel
  obtain ⟨-, hmeets⟩ := h
  rw [hsteps] at hmeets
  -- The dot is left, the link is met, and from it its target.
  cases hmeets with
  | stay hmeets =>
    cases hmeets with
    | entry => exact .inl rfl
    | enter hf hlink => exact absurd (Option.some.inj (hf.symm.trans hn)) (hlink _)
    | link hf hmeets =>
      obtain rfl := Form.link.inj (Option.some.inj (hf.symm.trans hn))
      rw [htarget, ite_self] at hmeets
      cases hmeets with
      | entry => exact .inr rfl
      | enter _ _ hmeets => cases hmeets
      | link hf => exact absurd (hf.symm.trans hdist) (by simp)

theorem eq_of_seen_link {target : Path}
    (h : (Options.ofRoot ⟨"."⟩).seen trackedProject l = some (.link target)) : l = ["n"] := by
  cases l with
  | nil => exact absurd h (by simp [trackedProject, Node.form])
  | cons name l =>
    by_cases hgit : name = ".git"
    · subst hgit
      exact absurd h (by simp [Options.seen, trackedProject, Options.omits, Options.enters])
    by_cases hdist : name = "dist"
    · subst hdist
      rw [trackedProject, Options.seen_cons rfl rfl] at h
      obtain rfl := Options.eq_nil_of_seen rfl h
      exact absurd h (by simp [Node.form])
    by_cases hn : name = "n"
    · subst hn
      rw [trackedProject, Options.seen_cons rfl rfl] at h
      rw [Options.eq_nil_of_seen rfl h]
    · simp [Options.seen, trackedProject, List.lookup_cons, beq_false_of_ne hgit,
        beq_false_of_ne hdist, beq_false_of_ne hn] at h

/-- Neither the hidden directory nor the checklist has an effect. -/
theorem run_depends_on_seen_exported :
    (Options.ofRoot ⟨"."⟩).seen trackedProject ["n"] = some (.link ⟨"dist"⟩) ∧ ∃ scan scan',
      run trackedProject (.ofRoot ⟨"."⟩) = .ok scan ∧
        run exportedProject (.ofRoot ⟨"."⟩) = .ok scan' ∧
        scan'.findings = scan.findings ∧ scan'.entries = scan.entries := by
  refine ⟨rfl, ?_⟩
  refine run_depends_on_seen trackedProject exportedProject (.ofRoot ⟨"."⟩) _ _
    wellFormed_trackedProject wellFormed_exportedProject rfl rfl seen_exportedProject ?_
  intro l target m hlink hpasses
  obtain rfl := eq_of_seen_link hlink
  have hm : m = ["n"] ∨ m = ["dist"] := by
    rcases hpasses with hpasses | hpasses
    · exact passes_link rfl rfl hpasses
    · exact passes_link rfl rfl hpasses
  rcases hm with rfl | rfl
  · rfl
  · rfl

end Scan

end Marginalia
