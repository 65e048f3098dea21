import Marginalia.Proofs.Files.Broken
import Marginalia.Proofs.Scan.Excluded
import Mathlib.Data.List.Flatten

/-! What broken links do to a walk. They are read like files, and each of those that the walk comes
to brings one warning; the findings and all other warnings are what they were. -/
namespace Marginalia

namespace Options

variable {o : Options} {top top' node node' : Node} {p : Path} {r r' l : Location} {name : String}
  {entries : Entries}

/-- The names on the way to a location keep no walk from it: no directory is hidden or excluded,
and the last name is not excluded. -/
def Admits (o : Options) (l : Location) : Prop :=
  ∃ directories name, l = directories ++ [name] ∧
    (∀ d ∈ directories, d.toList.head? ≠ some '.' ∧ d ∉ o.excludedDirectories) ∧
    name ∉ o.excludedFiles

theorem Admits.ne_nil (h : o.Admits l) : l ≠ [] := by
  obtain ⟨directories, name, rfl, -⟩ := h
  simp

theorem visible_iff_admits : o.Visible top p r l ↔ o.Admits l ∧
    ((∃ content, top.formAt (r ++ l) = some (.file content)) ∨
      ∃ target, top.formAt (r ++ l) = some (.link target) ∧
        top.hasDirectory (p.below l) = false) := by
  constructor
  · rintro ⟨directories, name, heq, hdirectories, hname, hkind⟩
    exact ⟨⟨directories, name, heq, hdirectories, hname⟩, hkind⟩
  · rintro ⟨⟨directories, name, heq, hdirectories, hname⟩, hkind⟩
    exact ⟨directories, name, heq, hdirectories, hname, hkind⟩

/-- The directories that a walk enters, by what stands at their names. -/
theorem walked_iff_formAt (hdistinct : (entries.map Prod.fst).Nodup) :
    (∃ e ∈ entries.filter o.isWalked, e.1 = name) ↔
      (Node.directory entries).formAt [name] = some .directory ∧ o.enters name = true := by
  have hat := Node.at?_append_singleton (Node.at?_nil (.directory entries)) name
  rw [List.nil_append] at hat
  rw [Node.formAt_eq_directory_iff, hat]
  simp only [Entries.lookup_eq_some_iff hdistinct]
  constructor
  · rintro ⟨⟨_, node⟩, he, rfl⟩
    obtain ⟨hmem, hwalked⟩ := List.mem_filter.mp he
    rw [isWalked, Bool.and_eq_true] at hwalked
    cases node with
    | file | link => exact absurd hwalked.1 (by simp [Node.isDirectory])
    | directory below => exact ⟨⟨below, hmem⟩, hwalked.2⟩
  · rintro ⟨⟨below, hmem⟩, henters⟩
    refine ⟨(name, .directory below), List.mem_filter.mpr ⟨hmem, ?_⟩, rfl⟩
    rw [isWalked, Bool.and_eq_true]
    exact ⟨rfl, henters⟩

/-- The directory of a location can be listed by its path when that is short enough. -/
theorem opens_iff_list (hnode : node.WellFormed) (hreaches : Reaches top p r node)
    (hl : node.at? l.dropLast = some (.directory entries)) :
    opens p l = true ↔ ∃ listed, top.list (p.below l.dropLast) = .ok listed := by
  rw [opens, decide_eq_true_iff]
  exact (hreaches.below hnode hl (by simp)).exists_list_iff.symm

/-- Where the same directories stand, the same ones are too far below to be listed. -/
theorem closed_congr (hnode : node.WellFormed) (hnode' : node'.WellFormed)
    (hsame : ∀ l, node'.formAt l = some .directory ↔ node.formAt l = some .directory)
    (hreaches : Reaches top p r node) (hreaches' : Reaches top' p r' node') :
    (o.inventory top' p node').closed.map ClosedDirectory.path =
      (o.inventory top p node).closed.map ClosedDirectory.path := by
  induction hnode generalizing p r r' node' with
  | file | link =>
    -- Neither node is a directory, and nothing else is walked.
    have hnil := (hsame []).not.mpr (by simp [Node.formAt, Node.form])
    cases node' with
    | file | link => rw [inventory, inventory]
    | directory => exact absurd rfl hnil
  | @directory entries distinct named below ih =>
    obtain ⟨entries', hentries'⟩ := Node.formAt_eq_directory_iff.mp ((hsame []).mpr rfl)
    rw [Node.at?_nil, Option.some.injEq] at hentries'
    subst hentries'
    by_cases hshort : Text.byteLength p.text.toList ≤ Node.longestPath
    · obtain ⟨listed, hlist⟩ := hreaches.exists_list_iff.mpr hshort
      obtain ⟨listed', hlist'⟩ := hreaches'.exists_list_iff.mpr hshort
      have hp := hreaches.nonempty
      cases hnode' with
      | directory distinct' named' below' =>
        -- Only directories are walked, so both walks go on in directories of the same names.
        have hwalked (name : String) : (∃ e ∈ entries'.filter o.isWalked, e.1 = name) ↔
            ∃ e ∈ entries.filter o.isWalked, e.1 = name := by
          rw [walked_iff_formAt distinct, walked_iff_formAt distinct', hsame]
        have hnames := Entries.names_byName_eq (Entries.nodup_filter distinct o.isWalked)
          (Entries.nodup_filter distinct' o.isWalked)
          (fun e he => (hwalked e.1).mpr ⟨e, he, rfl⟩)
          (fun e he => (hwalked e.1).mp ⟨e, he, rfl⟩)
        rw [closed_inventory hlist hp named, closed_inventory hlist' hp named', List.map_flatMap,
          List.map_flatMap]
        apply Entries.flatMap_eq_of_names hnames
        rintro ⟨name, node⟩ he ⟨name', node'⟩ he' (rfl : name' = name)
        obtain ⟨hmem, hisWalked⟩ := List.mem_filter.mp (Entries.mem_byName.mp he)
        obtain ⟨hmem', hisWalked'⟩ := List.mem_filter.mp (Entries.mem_byName.mp he')
        have hlookup := (Entries.lookup_eq_some_iff distinct).mpr hmem
        have hlookup' := (Entries.lookup_eq_some_iff distinct').mpr hmem'
        obtain ⟨deeper, rfl, -⟩ := isWalked_iff.mp hisWalked
        obtain ⟨deeper', rfl, -⟩ := isWalked_iff.mp hisWalked'
        have hname : IsName name' := named _ hmem
        refine ih _ hmem (below' _ hmem') ?_ (hreaches.join hname hlookup (by simp))
          (hreaches'.join hname hlookup' (by simp))
        intro l
        have hbelow := hsame (name' :: l)
        simpa only [Node.formAt, Node.at?_directory_cons, hlookup, hlookup', Option.bind_some]
          using hbelow
    · exact (WalkedAlike.of_long (o := o) hreaches hreaches' hshort).closed

end Options

namespace GainsBrokenLinks

variable {top top' node node' : Node} {o : Options} {p : Path} {r l : Location}
  {entries entries' : Entries} {f : Form}

/-- What holds an entry is a directory that stood there before. -/
theorem exists_directory (h : GainsBrokenLinks top top') (hat : top.at? r = some node)
    (hl : l ≠ []) (hf : top'.formAt (r ++ l) = some f) :
    ∃ below, node.at? l.dropLast = some (.directory below) := by
  obtain ⟨directories, name, rfl⟩ := List.eq_nil_or_concat' l |>.resolve_left hl
  rw [← List.append_assoc] at hf
  have hdirectory : top.formAt (r ++ directories) = some .directory :=
    (h.formAt_iff (by simp)).mp (Node.formAt_directory_of_append_singleton hf)
  obtain ⟨below, hbelow⟩ := Node.formAt_eq_directory_iff.mp hdirectory
  rw [Node.at?_append, hat, Option.bind_some] at hbelow
  rw [List.dropLast_concat]
  exact ⟨below, hbelow⟩

/-- No path leads to a link that appeared. -/
theorem locate_below_ne (h : GainsBrokenLinks top top') (hnode : node.WellFormed)
    (hat : top.at? r = some node) (hreaches : Reaches top p r node) (hl : l ≠ [])
    (hnames : ∀ n ∈ l, IsName n) (hnone : top.formAt (r ++ l) = none)
    (hf : top'.formAt (r ++ l) = some f) (m : Location) :
    top.locate .find (p.below l) ≠ .ok (.taken m) := by
  obtain ⟨below, hbelow⟩ := h.exists_directory hat hl hf
  obtain ⟨directories, name, rfl⟩ := List.eq_nil_or_concat' l |>.resolve_left hl
  rw [List.dropLast_concat] at hbelow
  have hname := hnames name (by simp)
  have hdirectory : top.formAt (r ++ directories) = some .directory := by
    rw [Node.formAt_eq_directory_iff, Node.at?_append, hat]
    exact ⟨below, hbelow⟩
  have hdirectories := hreaches.below hnode hbelow (by simp)
  have hp := hdirectories.nonempty
  intro hlocate
  obtain ⟨hfollow, hroute⟩ := Node.locate_eq_ok_iff.mp hlocate
  rw [Path.below_append, Path.below_cons, Path.below_nil] at hfollow hroute
  rcases hdirectories with hfind | hlong
  · obtain ⟨-, hway⟩ := Node.locate_eq_ok_iff.mp (Node.find_eq_ok_iff.mp hfind).1
    rw [← List.append_assoc] at hnone
    have hfree := hway.append_free rfl hdirectory hname.short hnone
    rw [Path.steps_join hp hname, Path.endsWithSlash_join hp hname] at hroute
    -- One path would lead to an entry and to a free name.
    have htaken := Node.follow_eq_ok_iff.mpr hroute
    rw [Node.follow_eq_ok_iff.mpr hfree] at htaken
    exact absurd htaken (by simp)
  · have hlonger := Path.byteLength_join (p.below directories) hname
    have hshort := hfollow.short
    omega

/-- What stood before is visible as before. -/
theorem visible_iff (h : GainsBrokenLinks top top') (hf : top.formAt (r ++ l) = some f) :
    o.Visible top' p r l ↔ o.Visible top p r l := by
  simp only [Options.Visible, hf, h.kept _ _ hf, (h.leadsAlike _).directory]

/-- Of what appeared the walk reads everything that names do not keep it from. -/
theorem visible_gained_iff (h : GainsBrokenLinks top top') (hnode : node.WellFormed)
    (hnode' : node'.WellFormed) (hat : top.at? r = some node) (hat' : top'.at? r = some node')
    (hreaches : Reaches top p r node) (hnone : top.formAt (r ++ l) = none) :
    o.Visible top' p r l ↔
      (∃ target, top'.formAt (r ++ l) = some (.link target)) ∧ o.Admits l := by
  rw [Options.visible_iff_admits]
  constructor
  · rintro ⟨hadmits, ⟨content, hf⟩ | ⟨target, hf, -⟩⟩
    · rw [h.formAt_iff (by simp), hnone] at hf
      exact absurd hf (by simp)
    · exact ⟨⟨target, hf⟩, hadmits⟩
  · rintro ⟨⟨target, hf⟩, hadmits⟩
    refine ⟨hadmits, .inr ⟨target, hf, ?_⟩⟩
    rw [(h.leadsAlike _).directory, ← Bool.not_eq_true, Node.hasDirectory_eq_true_iff]
    rintro ⟨m, hlocate, -⟩
    have hnames := hnode'.isName_of_formAt hat' hf
    exact h.locate_below_ne hnode hat hreaches hadmits.ne_nil hnames hnone hf m hlocate

/-- The files visible before are those visible after that stood there before, in the same order. -/
theorem lists_eq_filter (h : GainsBrokenLinks top top') {ls ls' : List Location}
    (hls : o.Lists top p r ls) (hls' : o.Lists top' p r ls') :
    ls = ls'.filter fun l => (top.formAt (r ++ l)).isSome := by
  apply eq_of_pairwise_precedes hls.ordered (hls'.ordered.filter _)
  intro l
  rw [List.mem_filter, hls.mem, hls'.mem, Option.isSome_iff_exists]
  constructor
  · intro hvisible
    obtain ⟨f, hf⟩ := hvisible.formAt
    exact ⟨(h.visible_iff hf).mpr hvisible, f, hf⟩
  · rintro ⟨hvisible, f, hf⟩
    exact (h.visible_iff hf).mp hvisible

/-- A walk reads what it read before, and the visible links that appeared in directories that can
be listed. -/
theorem exists_files (h : GainsBrokenLinks top top') (o : Options) (hnode : node.WellFormed)
    (hnode' : node'.WellFormed) (hentries : node = .directory entries)
    (hentries' : node' = .directory entries') (hat : top.at? r = some node)
    (hat' : top'.at? r = some node') (hreaches : Reaches top p r node)
    (hreaches' : Reaches top' p r node') :
    ∃ files : List Location, files.Nodup ∧ (o.inventory top' p node').files = files.map p.below ∧
      (o.inventory top p node).files =
        (files.filter fun l => (top.formAt (r ++ l)).isSome).map p.below ∧
      ∀ l, top.formAt (r ++ l) = none →
        (l ∈ files ↔ (∃ target, top'.formAt (r ++ l) = some (.link target)) ∧ o.Admits l ∧
          ∃ listed, top.list (p.below l.dropLast) = .ok listed) := by
  obtain ⟨ls, hls, hfiles⟩ := Options.exists_files o hnode hentries hat hreaches
  obtain ⟨ls', hls', hfiles'⟩ := Options.exists_files o hnode' hentries' hat' hreaches'
  refine ⟨ls'.filter (Options.opens p), ?_, hfiles', ?_, ?_⟩
  · exact (nodup_of_pairwise_precedes hls'.ordered).filter _
  · rw [hfiles, h.lists_eq_filter hls hls', List.filter_comm]
  · intro l hnone
    rw [List.mem_filter, hls'.mem,
      h.visible_gained_iff hnode hnode' hat hat' hreaches hnone, and_assoc]
    refine and_congr_right fun hlink => and_congr_right fun hadmits => ?_
    obtain ⟨target, hf⟩ := hlink
    obtain ⟨below, hbelow⟩ := h.exists_directory hat hadmits.ne_nil hf
    exact Options.opens_iff_list hnode hreaches hbelow

/-- The same directories are too far below to be listed, and the same is said of them. -/
theorem closed (h : GainsBrokenLinks top top') (o : Options) (hnode : node.WellFormed)
    (hnode' : node'.WellFormed) (hat : top.at? r = some node) (hat' : top'.at? r = some node')
    (hreaches : Reaches top p r node) (hreaches' : Reaches top' p r node') :
    (o.inventory top' p node').closed.map ClosedDirectory.warning =
      (o.inventory top p node).closed.map ClosedDirectory.warning := by
  have hsame (l : Location) :
      node'.formAt l = some .directory ↔ node.formAt l = some .directory := by
    have hbelow := h.formAt_iff (l := r ++ l) (f := .directory) (by simp)
    rw [Node.formAt, Node.formAt, Node.at?_append, Node.at?_append, hat, hat'] at hbelow
    exact hbelow
  have hpaths := congrArg
    (List.map fun path => Console.Entry.mk .warning ("Could not list directory: " ++ path.text))
    (Options.closed_congr (o := o) hnode hnode' hsame hreaches hreaches')
  rw [List.map_map, List.map_map] at hpaths
  exact hpaths

theorem find_directory_iff (h : GainsBrokenLinks top top') :
    (∃ entries, top'.find p = .ok (r, .directory entries)) ↔
      ∃ entries, top.find p = .ok (r, .directory entries) := by
  simp only [Node.find_eq_ok_iff, exists_and_left, ← Node.formAt_eq_directory_iff,
    h.locate_taken_iff, h.formAt_iff (f := .directory) (by simp)]

end GainsBrokenLinks

namespace Scan

variable {top top' : Node} {o : Options} {file : Path} {cause : FileError}

theorem run_eq_error_iff : run top o = .error cause ↔ top.list o.root = .error cause := by
  rw [run]
  cases top.list o.root <;> simp [Except.map]

/-- A walk fails unless its root is a directory. -/
theorem exists_run_eq_error_iff : (∃ cause, run top o = .error cause) ↔
    ¬ ∃ r entries, top.find o.root = .ok (r, .directory entries) := by
  simp only [run_eq_error_iff]
  constructor
  · rintro ⟨cause, herror⟩ ⟨r, entries, hroot⟩
    rw [Node.list_eq_ok_iff.mpr ⟨r, hroot⟩] at herror
    exact absurd herror (by simp)
  · intro hroot
    cases hlist : top.list o.root with
    | ok entries =>
      obtain ⟨r, hfind⟩ := Node.list_eq_ok_iff.mp hlist
      exact absurd ⟨r, entries, hfind⟩ hroot
    | error cause => exact ⟨cause, rfl⟩

/-- A file that no path leads to is read in vain. -/
theorem ofFile_of_locate_ne (h : ∀ l, top.locate .find file ≠ .ok (.taken l)) :
    (ofFile top o file).findings = [] ∧
      (ofFile top o file).entries = [⟨.warning, "Could not read file: " ++ file.text⟩] := by
  cases hread : top.readText file with
  | ok text =>
    obtain ⟨l, content, hfind, -⟩ := Node.readText_eq_ok_iff.mp hread
    exact absurd (Node.find_eq_ok_iff.mp hfind).1 (h l)
  | error => simp only [ofFile, hread, and_self]

/-- Where the files of one walk are some of those of another one, and the others cannot be read,
both find the same, and the other one has one warning more for each of these. -/
theorem of_filter {keep : Location → Bool} {files : List Location}
    (hcongr : ∀ file text, top'.readText file = .ok text ↔ top.readText file = .ok text)
    (hlost : ∀ l ∈ files, keep l = false →
      ∀ m, top.locate .find (o.root.below l) ≠ .ok (.taken m)) :
    files.flatMap (fun l => (ofFile top' o (o.root.below l)).findings) =
        (files.filter keep).flatMap (fun l => (ofFile top o (o.root.below l)).findings) ∧
      (files.flatMap fun l => (ofFile top' o (o.root.below l)).entries).Perm
        ((files.filter keep).flatMap (fun l => (ofFile top o (o.root.below l)).entries) ++
          (files.filter (!keep ·)).map fun l =>
            ⟨.warning, "Could not read file: " ++ (o.root.below l).text⟩) ∧
      ((files.filter keep).flatMap fun l => (ofFile top o (o.root.below l)).entries).Sublist
        (files.flatMap fun l => (ofFile top' o (o.root.below l)).entries) := by
  have hcongr' (l : Location) := ofFile_congr (o := o) (hcongr (o.root.below l))
  have hlost' (l : Location) (hl : l ∈ files) (hkeep : keep l = false) :=
    ofFile_of_locate_ne (o := o) (hlost l hl hkeep)
  simp only [fun l => (hcongr' l).1, fun l => (hcongr' l).2]
  refine ⟨?_, ?_, List.filter_sublist.flatMap _⟩
  · exact (flatMap_filter_of_eq_nil fun l hl hkeep => (hlost' l hl hkeep).1).symm
  · have hrest :
        (files.filter (!keep ·)).flatMap (fun l => (ofFile top o (o.root.below l)).entries) =
          (files.filter (!keep ·)).map fun l =>
            ⟨.warning, "Could not read file: " ++ (o.root.below l).text⟩ := by
      rw [List.map_eq_flatMap]
      apply List.flatMap_congr
      intro l hl
      obtain ⟨hmem, hkeep⟩ := List.mem_filter.mp hl
      exact (hlost' l hmem (by simpa using hkeep)).2
    rw [← hrest, ← List.flatMap_append]
    exact ((List.filter_append_perm keep files).flatMap_right _).symm

/-- What broken links do to a walk. With or without them it fails only when its root cannot be
listed. It finds the same in the same order, and all that is said besides is that an added link
cannot be read: once of each that stands in a directory that can be listed and that no name keeps
the walk from. -/
theorem run_with_broken_links (top top' : Node) (o : Options) (htop : top.WellFormed)
    (htop' : top'.WellFormed) (h : GainsBrokenLinks top top') :
    (∀ t, (∃ cause, run t o = .error cause) ↔ ∃ cause, t.list o.root = .error cause) ∧
    ((∃ cause, run top' o = .error cause) ↔ ∃ cause, run top o = .error cause) ∧
    ∀ scan, run top o = .ok scan → ∃ (scan' : Scan) (r : Location) (entries : Entries)
      (gained : List Location), top.find o.root = .ok (r, .directory entries) ∧
      run top' o = .ok scan' ∧ scan'.findings = scan.findings ∧ gained.Nodup ∧
      (∀ l, l ∈ gained ↔ top.formAt (r ++ l) = none ∧
        (∃ target, top'.formAt (r ++ l) = some (.link target)) ∧ o.Admits l ∧
        ∃ listed, top.list (o.root.below l.dropLast) = .ok listed) ∧
      scan.entries.Sublist scan'.entries ∧
      scan'.entries.Perm (scan.entries ++ gained.map fun l =>
        ⟨.warning, "Could not read file: " ++ (o.root.below l).text⟩) := by
  refine ⟨fun t => by simp only [run_eq_error_iff], ?_, ?_⟩
  · rw [exists_run_eq_error_iff, exists_run_eq_error_iff]
    simp only [h.find_directory_iff]
  intro scan hrun
  obtain ⟨r, entries, hroot⟩ : ∃ r entries, top.find o.root = .ok (r, .directory entries) := by
    by_contra hroot
    obtain ⟨cause, herror⟩ := exists_run_eq_error_iff.mpr hroot
    exact absurd (hrun.symm.trans herror) (by simp)
  -- The root is the same location in both trees, and a directory in both.
  obtain ⟨entries', hroot'⟩ := h.find_directory_iff.mpr ⟨entries, hroot⟩
  have hlist := Node.list_eq_ok_iff.mpr ⟨r, hroot⟩
  have hlist' := Node.list_eq_ok_iff.mpr ⟨r, hroot'⟩
  have hat := (Node.find_eq_ok_iff.mp hroot).2
  have hat' := (Node.find_eq_ok_iff.mp hroot').2
  have hnode := (htop.of_at? hat).1
  have hnode' := (htop'.of_at? hat').1
  have hreaches : Reaches top o.root r (.directory entries) := .inl hroot
  have hreaches' : Reaches top' o.root r (.directory entries') := .inl hroot'
  have hclosed := h.closed o hnode hnode' hat hat' hreaches hreaches'
  obtain ⟨files, hnodup, hfiles', hfiles, hmem⟩ :=
    h.exists_files o hnode hnode' rfl rfl hat hat' hreaches hreaches'
  set stood := fun l : Location => (top.formAt (r ++ l)).isSome with hstood
  have hnone (l : Location) : stood l = false ↔ top.formAt (r ++ l) = none := by
    rw [hstood, Option.isSome_eq_false_iff, Option.isNone_iff_eq_none]
  -- What did not stand there is an added link, and no path leads to it.
  have hlost (l : Location) (hl : l ∈ files) (hgone : stood l = false) (m : Location) :
      top.locate .find (o.root.below l) ≠ .ok (.taken m) := by
    obtain ⟨⟨target, hf⟩, hadmits, -⟩ := (hmem l ((hnone l).mp hgone)).mp hl
    exact h.locate_below_ne hnode hat hreaches hadmits.ne_nil (hnode'.isName_of_formAt hat' hf)
      ((hnone l).mp hgone) hf m
  obtain ⟨hfindings, hperm, hsublist⟩ :=
    of_filter (o := o) (fun file => (h.leadsAlike file).text) hlost
  rw [run, hlist] at hrun
  obtain rfl := Except.ok.inj hrun
  refine ⟨_, r, entries, files.filter (!stood ·), hroot, by rw [run, hlist']; rfl, ?_,
    hnodup.filter _, ?_, ?_, ?_⟩
  · simp only [hfiles, hfiles', List.flatMap_map]
    exact hfindings
  · intro l
    rw [List.mem_filter, Bool.not_eq_true', hnone, and_comm]
    exact and_congr_right (hmem l)
  · simp only [hfiles, hfiles', hclosed, List.flatMap_map]
    exact hsublist.append_left _
  · simp only [hfiles, hfiles', hclosed, List.flatMap_map, List.append_assoc]
    exact hperm.append_left _

/-- A project with a file and an empty directory. -/
def soundProject : Node :=
  .directory [("a.rs", .file [84, 79, 68, 79, 40, 41]), ("src", .directory [])]

/-- The project with a link to itself in the directory. -/
def circularProject : Node := soundProject.put (["src"] ++ ["loop"]) (.link ⟨"loop"⟩)

/-- The project with a link to nothing, too, in place of a checklist. -/
def brokenProject : Node := circularProject.put ([] ++ ["TODO.md"]) (.link ⟨"gone"⟩)

theorem wellFormed_soundProject : soundProject.WellFormed := by
  refine .directory (by decide) (by decide) ?_
  simp only [List.forall_mem_cons]
  exact ⟨.file _, .directory (by decide) (by decide) (by simp), by simp⟩

theorem wellFormed_brokenProject : brokenProject.WellFormed := by
  have hcircular : circularProject.WellFormed :=
    wellFormed_soundProject.put (.link (by decide)) (by decide)
  exact hcircular.put (.link (by decide)) (by decide)

theorem gainsBrokenLinks_brokenProject : GainsBrokenLinks soundProject brokenProject := by
  have hloop : GainsBrokenLinks soundProject circularProject := by
    have hsrc : soundProject.at? ["src"] = some (.directory []) := rfl
    refine .put hsrc rfl fun l hl => ?_
    have hcircle : circularProject.follow .find Node.linkLimit false ["src"] [.into "loop"] =
        .error .tooManyLinks := by
      decide +kernel
    exact absurd (hcircle.symm.trans hl) (by simp)
  have hgone : GainsBrokenLinks circularProject brokenProject := by
    refine .put rfl rfl fun l hl => ?_
    have hfree : brokenProject.follow .find Node.linkLimit false [] [.into "TODO.md"] =
        .ok (.free [] "gone") := by
      decide +kernel
    exact absurd (hfree.symm.trans hl) (by simp)
  exact hloop.trans hgone

/-- The link to itself is reported, and the one with the name of the checklist is passed over. -/
theorem run_with_broken_links_project : soundProject.WellFormed ∧ brokenProject.WellFormed ∧
    GainsBrokenLinks soundProject brokenProject ∧
    ∃ scan scan', ∃ gained : List Location, run soundProject (.ofRoot ⟨"."⟩) = .ok scan ∧
      run brokenProject (.ofRoot ⟨"."⟩) = .ok scan' ∧ scan'.findings = scan.findings ∧
      ["src", "loop"] ∈ gained ∧ ["TODO.md"] ∉ gained ∧
      scan'.entries.length = scan.entries.length + gained.length := by
  refine ⟨wellFormed_soundProject, wellFormed_brokenProject, gainsBrokenLinks_brokenProject, ?_⟩
  obtain ⟨-, -, hruns⟩ := run_with_broken_links soundProject brokenProject (.ofRoot ⟨"."⟩)
    wellFormed_soundProject wellFormed_brokenProject gainsBrokenLinks_brokenProject
  have hfind : soundProject.find ⟨"."⟩ = .ok ([], soundProject) := rfl
  cases hrun : run soundProject (.ofRoot ⟨"."⟩) with
  | error cause =>
    exact absurd ⟨[], _, hfind⟩ (exists_run_eq_error_iff.mp ⟨cause, hrun⟩)
  | ok scan =>
    obtain ⟨scan', r, entries, gained, hroot, hrun', hfindings, -, hmem, -, hperm⟩ :=
      hruns scan hrun
    obtain ⟨rfl, -⟩ := Prod.mk.inj (Except.ok.inj (hfind.symm.trans hroot))
    refine ⟨scan, scan', gained, rfl, hrun', hfindings, ?_, ?_, ?_⟩
    · have hadmits : (Options.ofRoot ⟨"."⟩).Admits ["src", "loop"] :=
        ⟨["src"], "loop", rfl, by decide, by decide⟩
      exact (hmem _).mpr ⟨rfl, ⟨⟨"loop"⟩, rfl⟩, hadmits, _, rfl⟩
    · intro htodo
      obtain ⟨-, -, ⟨directories, name, heq, -, hname⟩, -⟩ := (hmem _).mp htodo
      have hsplit : [] ++ ["TODO.md"] = directories ++ [name] := heq
      obtain ⟨-, hlast⟩ := List.append_inj' hsplit rfl
      rw [← List.singleton_inj.mp hlast] at hname
      exact hname (by decide)
    · rw [hperm.length_eq, List.length_append, List.length_map]

end Scan

end Marginalia
