import Marginalia.Proofs.Files.Passage
import Marginalia.Proofs.Scan.Walk

/-! The findings of a walk. They are those of the visible files, one file after the other, whatever
the order in which the directories are listed and however the root is spelled. -/
namespace Marginalia

namespace Node

variable {top top' node : Node} {p : Path} {l : Location} {text : String} {entries : Entries}

/-- Trees with the same forms have the same entries under all paths. -/
theorem locate_taken_congr (h : ∀ l, top'.formAt l = top.formAt l) {purpose : Purpose} :
    top'.locate purpose p = .ok (.taken l) ↔ top.locate purpose p = .ok (.taken l) :=
  ⟨locate_mono (.of_kept fun l _ => ((h l).symm.trans ·)),
    locate_mono (.of_kept fun l _ => ((h l).trans ·))⟩

theorem hasDirectory_congr (h : ∀ l, top'.formAt l = top.formAt l) :
    top'.hasDirectory p = top.hasDirectory p :=
  (leadsAlike_of_sameAt (h []) fun m _ => h m).directory

theorem readText_congr (h : ∀ l, top'.formAt l = top.formAt l) :
    top'.readText p = .ok text ↔ top.readText p = .ok text :=
  (leadsAlike_of_sameAt (h []) fun m _ => h m).text text

theorem readText_of_long (h : longestPath < Text.byteLength p.text.toList) :
    top.readText p ≠ .ok text := by
  rw [ne_eq, readText_eq_ok_iff]
  rintro ⟨l, content, hfind, _⟩
  have hshort := (locate_eq_ok_iff.mp (find_eq_ok_iff.mp hfind).1).1.short
  omega

end Node

namespace Scan

variable {top top' : Node} {o : Options} {p : Path} {r l : Location} {entries : Entries}
  {text : String} {content : List UInt8}

theorem readText_of_reaches (h : Reaches top p l (.file content)) :
    top.readText p = .ok text ↔ Text.byteLength p.text.toList ≤ Node.longestPath ∧
      text = String.ofList (Text.decodeLossy content) := by
  by_cases hlong : Node.longestPath < Text.byteLength p.text.toList
  · exact ⟨fun hread => absurd hread (Node.readText_of_long hlong), fun hshort => by omega⟩
  · have hfind := h.resolve_right hlong
    rw [Node.readText_of_find hfind, Except.ok.injEq, eq_comm]
    exact ⟨fun htext => ⟨Nat.not_lt.mp hlong, htext⟩, fun hshort => hshort.2⟩

/-- The findings of the file at a location below the root, none if it cannot be read. -/
def findingsAt (top : Node) (o : Options) (l : Location) : List Finding :=
  match top.readText (o.root.below l) with
  | .ok text => Finding.ofLines ⟨"/".intercalate l⟩ text.toList
  | .error _ => []

/-- The findings at a location are read from the bytes of the file that its path leads to. -/
theorem findingsAt_of_leads {m : Location} (hleads : top.Leads (o.root.below l) m)
    (hfile : top.formAt m = some (.file content)) :
    findingsAt top o l =
      (Text.lines (Text.decodeLossy content)).flatMap (Finding.ofText ⟨"/".intercalate l⟩) := by
  have hfind := Node.find_eq_ok_iff_leads.mpr ⟨hleads, Node.formAt_eq_file_iff.mp hfile⟩
  rw [findingsAt, Node.readText_of_find hfind]
  simp only [Finding.ofLines, String.toList_ofList]

theorem findingsAt_eq_nil (h : ∀ m content, top.Leads (o.root.below l) m →
    top.formAt m ≠ some (.file content)) : findingsAt top o l = [] := by
  rw [findingsAt]
  cases hread : top.readText (o.root.below l) with
  | error => rfl
  | ok text =>
    obtain ⟨m, content, hfind, _⟩ := Node.readText_eq_ok_iff.mp hread
    obtain ⟨hleads, hfile⟩ := Node.find_eq_ok_iff_leads.mp hfind
    exact absurd (Node.formAt_eq_file_iff.mpr hfile) (h m content hleads)

theorem findingsAt_congr (h : ∀ text, top'.readText (o.root.below l) = .ok text ↔
    top.readText (o.root.below l) = .ok text) : findingsAt top' o l = findingsAt top o l := by
  rw [findingsAt, findingsAt]
  cases hread : top.readText (o.root.below l) with
  | ok text => rw [(h text).mpr hread]
  | error failure =>
    cases hread' : top'.readText (o.root.below l) with
    | ok text => exact absurd ((h text).mp hread') (by simp [hread])
    | error => rfl

theorem findings_ofFile (hroot : o.root.isEmpty = false) (hl : l ≠ [])
    (hnames : ∀ n ∈ l, IsName n) :
    (ofFile top o (o.root.below l)).findings = findingsAt top o l := by
  have hrelative : o.relative (o.root.below l) = ⟨"/".intercalate l⟩ := by
    rw [Options.relative, Path.stripPrefix?_below hroot hl hnames]
    rfl
  rw [ofFile, findingsAt, hrelative]
  cases top.readText (o.root.below l) <;> rfl

/-- A walk finds what the visible files hold, in their order. -/
theorem run_findings (htop : top.WellFormed)
    (hroot : top.find o.root = .ok (r, .directory entries)) :
    ∃ scan files, run top o = .ok scan ∧ o.Lists top o.root r files ∧
      scan.findings = files.flatMap (findingsAt top o) := by
  have hlist : top.list o.root = .ok entries := Node.list_eq_ok_iff.mpr ⟨r, hroot⟩
  have hat := (Node.find_eq_ok_iff.mp hroot).2
  have hwellFormed := (htop.of_at? hat).1
  have hreaches : Reaches top o.root r (.directory entries) := .inl hroot
  obtain ⟨files, hlists, hfiles⟩ :=
    Options.exists_lists o Finding hwellFormed rfl hat hreaches
  have hlong (file : Path) (h : Node.longestPath < Text.byteLength file.text.toList) :
      (ofFile top o file).findings = [] := by
    rw [ofFile]
    cases hread : top.readText file with
    | ok text => exact absurd hread (Node.readText_of_long h)
    | error => rfl
  rw [run, hlist]
  refine ⟨_, files, rfl, hlists, ?_⟩
  simp only [List.flatMap_map]
  rw [hfiles (fun file => (ofFile top o file).findings) hlong]
  refine List.flatMap_congr fun l hl => ?_
  exact findings_ofFile hreaches.nonempty (hlists.ne_nil hl)
    (((hlists.mem l).mp hl).isName hat hwellFormed)

/-- What a walk returns when its root can be listed. The visible files are read once each, a
directory's own before those below it and both by name. Each brings the findings in the lines of its
bytes, or of the bytes that its link leads to, and they carry its way from the root; where no file
can be reached it brings nothing, and a regular file can be if its path is short enough. The order
in which directories are listed has no effect. -/
theorem run_reads_visible (top : Node) (o : Options) (entries : Entries) (htop : top.WellFormed)
    (hlist : top.list o.root = .ok entries) :
    ∃ (r : Location) (scan : Scan) (files : List Location) (brought : Location → List Finding),
      top.Leads o.root r ∧ top.at? r = some (.directory entries) ∧ run top o = .ok scan ∧
      (∀ l, l ∈ files ↔ o.Visible top o.root r l) ∧
      (∀ l, top.hasDirectory (o.root.below l) = true ↔
        ∃ m, top.Leads (o.root.below l) m ∧ top.formAt m = some .directory) ∧
      files.Nodup ∧ files.Pairwise Precedes ∧ scan.findings = files.flatMap brought ∧
      (∀ l ∈ files,
        (∀ m bytes, top.Leads (o.root.below l) m → top.formAt m = some (.file bytes) →
          brought l =
            (Text.lines (Text.decodeLossy bytes)).flatMap (Finding.ofText ⟨"/".intercalate l⟩)) ∧
        ((∀ m bytes, top.Leads (o.root.below l) m → top.formAt m ≠ some (.file bytes)) →
          brought l = []) ∧
        ∀ bytes, top.formAt (r ++ l) = some (.file bytes) →
          Text.byteLength (o.root.below l).text.toList ≤ Node.longestPath →
            top.Leads (o.root.below l) (r ++ l)) ∧
      ∀ top' : Node, top'.WellFormed → (∀ l, top'.formAt l = top.formAt l) →
        ∃ scan', run top' o = .ok scan' ∧ scan'.findings = scan.findings := by
  obtain ⟨r, hroot⟩ := Node.list_eq_ok_iff.mp hlist
  obtain ⟨scan, files, hrun, hlists, hfindings⟩ := run_findings htop hroot
  obtain ⟨hlocate, hat⟩ := Node.find_eq_ok_iff.mp hroot
  refine ⟨r, scan, files, findingsAt top o, (Node.find_eq_ok_iff_leads.mp hroot).1, hat, hrun,
    hlists.mem, fun l => ?_, nodup_of_pairwise_precedes hlists.ordered, hlists.ordered, hfindings,
    fun l _ => ⟨fun m bytes => findingsAt_of_leads, findingsAt_eq_nil, ?_⟩, ?_⟩
  · simp only [Node.hasDirectory_eq_true_iff, Node.locate_eq_ok_iff, Node.Leads]
  · intro bytes hf hshort
    have hl := Node.formAt_eq_file_iff.mp hf
    rw [Node.at?_append, hat] at hl
    have hreaches : Reaches top o.root r (.directory entries) := .inl hroot
    rcases hreaches.below (htop.of_at? hat).1 hl (by simp) with hfind | hlong
    · exact (Node.find_eq_ok_iff_leads.mp hfind).1
    · omega
  · intro top' htop' hsame
    have hdirectory : top'.formAt r = some .directory :=
      (hsame r).trans (Node.formAt_eq_directory_iff.mpr ⟨entries, hat⟩)
    obtain ⟨entries', hat'⟩ := Node.formAt_eq_directory_iff.mp hdirectory
    have hroot' : top'.find o.root = .ok (r, .directory entries') :=
      Node.find_eq_ok_iff.mpr ⟨(Node.locate_taken_congr hsame).mpr hlocate, hat'⟩
    obtain ⟨scan', files', hrun', hlists', hfindings'⟩ := run_findings htop' hroot'
    -- The same files are visible, and there is one order to walk them in.
    have hvisible (l : Location) : o.Visible top' o.root r l ↔ o.Visible top o.root r l := by
      simp only [Options.Visible, hsame, Node.hasDirectory_congr hsame]
    have hfiles : files' = files :=
      eq_of_pairwise_precedes hlists'.ordered hlists.ordered fun l =>
        ((hlists'.mem l).trans (hvisible l)).trans (hlists.mem l).symm
    refine ⟨scan', hrun', ?_⟩
    rw [hfindings', hfindings, hfiles]
    refine List.flatMap_congr fun l _ => ?_
    exact findingsAt_congr fun text => Node.readText_congr hsame

/-- A link out of its directory, beside a directory with a link that leads nowhere. -/
def linkedEntries : Entries :=
  [("lost", .directory [("gone.rs", .link ⟨"../nowhere"⟩)]), ("link.rs", .link ⟨"../../main.rs"⟩)]

/-- A file at the top and one below it that ends with a byte which begins no character, links deeper
down, and a hidden directory. -/
def nestedEntries : Entries :=
  [("util", .directory [("old", .directory linkedEntries),
      ("fs.rs", .file (Text.encode "// FIXME(io): flush\r\n".toList ++ [0xFF]))]),
    (".git", .directory [("head", .file (Text.encode "BUG(index): lost".toList))]),
    ("main.rs", .file (Text.encode "fn main() {} // TODO(cli): usage\n".toList))]

theorem wellFormed_linkedEntries : (Node.directory linkedEntries).WellFormed := by
  refine .directory (by decide) (by decide) (List.forall_mem_cons.mpr ⟨?_, ?_⟩)
  · exact .directory (by decide) (by decide) (List.forall_mem_singleton.mpr (.link (by decide)))
  · exact List.forall_mem_singleton.mpr (.link (by decide))

theorem wellFormed_nestedEntries : (Node.directory nestedEntries).WellFormed := by
  refine .directory (by decide) (by decide)
    (List.forall_mem_cons.mpr ⟨?_, List.forall_mem_cons.mpr ⟨?_, ?_⟩⟩)
  · exact .directory (by decide) (by decide)
      (List.forall_mem_cons.mpr ⟨wellFormed_linkedEntries, List.forall_mem_singleton.mpr (.file _)⟩)
  · exact .directory (by decide) (by decide) (List.forall_mem_singleton.mpr (.file _))
  · exact List.forall_mem_singleton.mpr (.file _)

/-- Three files bring a finding each here, one of them through its link. -/
theorem run_reads_visible_nestedEntries : (Node.directory nestedEntries).WellFormed ∧
    (Node.directory nestedEntries).list ⟨"."⟩ = .ok nestedEntries ∧
    ∃ (scan : Scan) (files : List Location) (brought : Location → List Finding),
      run (.directory nestedEntries) (.ofRoot ⟨"."⟩) = .ok scan ∧
      scan.findings = files.flatMap brought ∧
      scan.findings =
        [⟨⟨"main.rs"⟩, .todo, "cli", "usage"⟩, ⟨⟨"util/fs.rs"⟩, .fixme, "io", "flush"⟩,
          ⟨⟨"util/old/link.rs"⟩, .todo, "cli", "usage"⟩] ∧
      (["util", "fs.rs"] ∈ files ∧
        brought ["util", "fs.rs"] = [⟨⟨"util/fs.rs"⟩, .fixme, "io", "flush"⟩]) ∧
      (["util", "old", "link.rs"] ∈ files ∧
        brought ["util", "old", "link.rs"] = [⟨⟨"util/old/link.rs"⟩, .todo, "cli", "usage"⟩]) ∧
      (["util", "old", "lost", "gone.rs"] ∈ files ∧
        brought ["util", "old", "lost", "gone.rs"] = []) ∧
      [".git", "head"] ∉ files := by
  let top : Node := .directory nestedEntries
  have hlist : top.list ⟨"."⟩ = .ok nestedEntries := rfl
  refine ⟨wellFormed_nestedEntries, hlist, ?_⟩
  obtain ⟨r, scan, files, brought, hroot, hat, hrun, hmem, -, -, -, hfindings, hbrought, -⟩ :=
    run_reads_visible top (.ofRoot ⟨"."⟩) _ wellFormed_nestedEntries hlist
  have hfind : top.find ⟨"."⟩ = .ok ([], .directory nestedEntries) := rfl
  obtain ⟨rfl, _⟩ := Prod.mk.inj
    (Except.ok.inj (hfind.symm.trans (Node.find_eq_ok_iff_leads.mpr ⟨hroot, hat⟩)))
  have hfile : ["util", "fs.rs"] ∈ files :=
    (hmem _).mpr ⟨["util"], "fs.rs", rfl, by decide, by decide, .inl ⟨_, rfl⟩⟩
  have hlink : ["util", "old", "link.rs"] ∈ files := by
    refine (hmem _).mpr ⟨["util", "old"], "link.rs", rfl, by decide, by decide, .inr ⟨_, rfl, ?_⟩⟩
    decide +kernel
  have hgone : ["util", "old", "lost", "gone.rs"] ∈ files := by
    refine (hmem _).mpr ⟨["util", "old", "lost"], "gone.rs", rfl, by decide, by decide,
      .inr ⟨_, rfl, ?_⟩⟩
    decide +kernel
  refine ⟨scan, files, brought, hrun, hfindings, ?_, ⟨hfile, ?_⟩, ⟨hlink, ?_⟩, ⟨hgone, ?_⟩, ?_⟩
  · have hfound : ((run top (.ofRoot ⟨"."⟩)).map Scan.findings).toOption =
        some [⟨⟨"main.rs"⟩, .todo, "cli", "usage"⟩, ⟨⟨"util/fs.rs"⟩, .fixme, "io", "flush"⟩,
          ⟨⟨"util/old/link.rs"⟩, .todo, "cli", "usage"⟩] := by
      decide +kernel
    rw [hrun] at hfound
    exact Option.some.inj hfound
  · have hleads := (hbrought _ hfile).2.2 _ rfl (by decide +kernel)
    rw [(hbrought _ hfile).1 _ _ hleads rfl]
    decide +kernel
  · obtain ⟨hleads, _⟩ := Node.leads_iff.mpr (show
      (top.find ⟨"./util/old/link.rs"⟩).toOption.map Prod.fst = some ["main.rs"] by decide +kernel)
    rw [(hbrought _ hlink).1 _ _ hleads rfl]
    decide +kernel
  · refine (hbrought _ hgone).2.1 fun m bytes hleads hm => ?_
    have hfound := Node.leads_iff.mp ⟨hleads, _, Node.formAt_eq_file_iff.mp hm⟩
    have hnone : (top.find ⟨"./util/old/lost/gone.rs"⟩).toOption.map Prod.fst = none := by
      decide +kernel
    exact absurd (hnone.symm.trans hfound) (by simp)
  · intro hgit
    obtain ⟨directories, name, heq, hentered, _⟩ := (hmem _).mp hgit
    have hsplit : [".git"] ++ ["head"] = directories ++ [name] := heq
    obtain ⟨rfl, _⟩ := List.append_inj' hsplit rfl
    exact (hentered ".git" List.mem_cons_self).1 (by decide)

end Scan

end Marginalia
