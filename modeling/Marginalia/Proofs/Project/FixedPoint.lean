import Marginalia.Proofs.Files.LinkFree
import Marginalia.Proofs.Project.Frame
import Marginalia.Proofs.Scan.Findings

/-! A second run. What a run writes is invisible to the walk, so in a tree without links the next
run finds the same, writes the same checklist, and links a readme that is linked already. -/
namespace Marginalia

/-- The same bytes stand in both trees wherever the name is not excluded. -/
def Options.SameFiles (o : Options) (top top' : Node) : Prop :=
  ∀ d name content, name ∉ o.excludedFiles →
    (top'.formAt (d ++ [name]) = some (.file content) ↔
      top.formAt (d ++ [name]) = some (.file content))

namespace Options.SameFiles

variable {o : Options} {top mid top' : Node} {p : Path} {l : Location} {content : List UInt8}

theorem trans (h : o.SameFiles top mid) (h' : o.SameFiles mid top') : o.SameFiles top top' :=
  fun d name content hname => (h' d name content hname).trans (h d name content hname)

/-- Locations of excluded names are those of no other name. -/
theorem ne_of_excluded (hl : ∃ d, ∃ name ∈ o.excludedFiles, l = d ++ [name]) {d : Location}
    {name : String} (hname : name ∉ o.excludedFiles) : d ++ [name] ≠ l := by
  rintro rfl
  obtain ⟨d', name', hexcluded, heq⟩ := hl
  have hlast := (List.append_inj' heq rfl).2
  rw [List.singleton_inj.mp hlast] at hname
  exact hname hexcluded

theorem of_written (hl : ∃ d, ∃ name ∈ o.excludedFiles, l = d ++ [name])
    (h : Written p l content top top') : o.SameFiles top top' := by
  intro d name content hname
  have hne : d ++ [name] ≠ l := ne_of_excluded hl hname
  exact ⟨h.file_of_ne hne, h.formAt_of_ne hne⟩

theorem of_stored (hl : ∃ d, ∃ name ∈ o.excludedFiles, l = d ++ [name])
    (h : Stored l content top top') : o.SameFiles top top' := by
  intro d name content hname
  rw [h.frame _ (ne_of_excluded hl hname)]

/-- Without links the same locations are visible. -/
theorem visible_iff (h : o.SameFiles top top') (htop : top.LinkFree) (htop' : top'.LinkFree)
    {r : Location} : o.Visible top' p r l ↔ o.Visible top p r l := by
  have hkind {directories : Location} {name : String} (hl : l = directories ++ [name])
      (hname : name ∉ o.excludedFiles) (content : List UInt8) :
      top'.formAt (r ++ l) = some (.file content) ↔ top.formAt (r ++ l) = some (.file content) := by
    rw [hl, ← List.append_assoc]
    exact h _ name content hname
  constructor
  · rintro ⟨directories, name, hl, hdirectories, hname, ⟨content, hf⟩ | ⟨target, hf, _⟩⟩
    · exact ⟨directories, name, hl, hdirectories, hname,
        .inl ⟨content, (hkind hl hname content).mp hf⟩⟩
    · exact absurd hf (htop' _ _)
  · rintro ⟨directories, name, hl, hdirectories, hname, ⟨content, hf⟩ | ⟨target, hf, _⟩⟩
    · exact ⟨directories, name, hl, hdirectories, hname,
        .inl ⟨content, (hkind hl hname content).mpr hf⟩⟩
    · exact absurd hf (htop _ _)

end Options.SameFiles

namespace Scan

variable {top top' : Node} {o : Options} {p : Path} {r l : Location} {text : String}
  {entries entries' : Entries} {content : List UInt8}

/-- A walk finds the same in trees without links that have the same files to be read. -/
theorem run_congr (htop : top.WellFormed) (htop' : top'.WellFormed) (hlinks : top.LinkFree)
    (hlinks' : top'.LinkFree) (hroot : top.find o.root = .ok (r, .directory entries))
    (hroot' : top'.find o.root = .ok (r, .directory entries')) (hsame : o.SameFiles top top') :
    ∃ scan scan', run top o = .ok scan ∧ run top' o = .ok scan' ∧
      scan'.findings = scan.findings := by
  obtain ⟨scan, files, hrun, hlists, hfindings⟩ := run_findings htop hroot
  obtain ⟨scan', files', hrun', hlists', hfindings'⟩ := run_findings htop' hroot'
  have hfiles : files' = files :=
    eq_of_pairwise_precedes hlists'.ordered hlists.ordered fun l =>
      ((hlists'.mem l).trans (hsame.visible_iff hlinks hlinks')).trans (hlists.mem l).symm
  refine ⟨scan, scan', hrun, hrun', ?_⟩
  rw [hfindings', hfindings, hfiles]
  refine List.flatMap_congr fun l hl => findingsAt_congr fun text => ?_
  obtain ⟨directories, name, rfl, _, hname, ⟨content, hf⟩ | ⟨target, hf, _⟩⟩ := (hlists.mem l).mp hl
  · have hf' : top'.formAt (r ++ (directories ++ [name])) = some (.file content) := by
      rw [← List.append_assoc] at hf ⊢
      exact (hsame _ name content hname).mpr hf
    have hreach {top : Node} {entries : Entries} (htop : top.WellFormed)
        (hroot : top.find o.root = .ok (r, .directory entries))
        (hf : top.formAt (r ++ (directories ++ [name])) = some (.file content)) :
        Reaches top (o.root.below (directories ++ [name])) (r ++ (directories ++ [name]))
          (.file content) := by
      have hat := (Node.find_eq_ok_iff.mp hroot).2
      have hfile := Node.formAt_eq_file_iff.mp hf
      rw [Node.at?_append, hat] at hfile
      have hreaches : Reaches top o.root r (.directory entries) := .inl hroot
      exact hreaches.below (htop.of_at? hat).1 hfile (by simp)
    rw [readText_of_reaches (hreach htop' hroot' hf'), readText_of_reaches (hreach htop hroot hf)]
  · exact absurd hf (hlinks _ _)

end Scan

namespace Project

variable {top : Node} {o : Options} {l : Location} {linked : String}

/-- A checklist that is there already is written again as it is. -/
theorem generate_of_found {scan : Scan} (hscan : Scan.run top o = .ok scan)
    (hfind : top.find o.reportPath = .ok (l, .file (reportBytes scan.findings))) :
    (generate top .complete o).top = top ∧
      (generate top .complete o).result = .ok scan.findings := by
  have hwrite : top.write .complete o.reportPath (Checklist.render scan.findings) =
      (top, .ok ()) :=
    Node.writeBytes_self hfind
  constructor
  · simp only [generate, hscan, hwrite]
  · simp only [generate, hscan, hwrite]

/-- A readme that is linked already is written again as it is. -/
theorem updateReadme_of_linked (hfind : top.find o.readmePath =
      .ok (l, .file (Text.encode linked.toList)))
    (hlink : Readme.link? linked o.reportFile = some linked) :
    (updateReadme top .complete o).top = top ∧
      (updateReadme top .complete o).result = .ok () := by
  have hread : Readme.link? (String.ofList (Text.decodeLossy (Text.encode linked.toList)))
      o.reportFile = some linked := by
    rw [Text.decodeLossy_encode, String.ofList_toList, hlink]
  obtain ⟨htop, hresult⟩ := updateReadme_of_link? .complete hfind hread
  rw [Transfer.kept, Node.put_eq_self (Node.find_eq_ok_iff.mp hfind).2] at htop
  exact ⟨htop, hresult⟩

/-- What a run that succeeds has done: a walk, a checklist, and a linked readme. -/
theorem run_ok_cases {report readme : Transfer} {findings : List Finding}
    (h : (run top report readme o).result = .ok findings) :
    ∃ entries scan mid l m bytes linked, top.list o.root = .ok entries ∧
      Scan.run top o = .ok scan ∧ scan.findings = findings ∧
      Written o.reportPath l (reportBytes findings) top mid ∧
      mid.find o.readmePath = .ok (m, .file bytes) ∧
      Readme.link? (String.ofList (Text.decodeLossy bytes)) o.reportFile = some linked ∧
      Stored m (Text.encode linked.toList) mid (run top report readme o).top := by
  cases hgenerate : (generate top report o).result with
  | error e => exact absurd ((run_of_generate_error readme hgenerate).2.symm.trans h) (by simp)
  | ok findings' =>
    obtain ⟨htop, hresult⟩ := run_of_generate_ok readme hgenerate
    obtain ⟨l, hwritten⟩ := written_of_generate hgenerate
    rcases updateReadme_cases (generate top report o).top readme o with ⟨_, heq⟩ |
      ⟨m, node, _, _, heq⟩ | ⟨m, bytes, _, _, heq⟩ | ⟨m, bytes, linked, hfind, hlink, hstored, hlast⟩
    · exact absurd (hresult.symm.trans h) (by simp [heq, Except.map])
    · exact absurd (hresult.symm.trans h) (by simp [heq, Except.map])
    · exact absurd (hresult.symm.trans h) (by simp [heq, Except.map])
    · cases hupdate : (updateReadme (generate top report o).top readme o).result with
      | error e => exact absurd (hresult.symm.trans h) (by simp [hupdate, Except.map])
      | ok =>
        rw [Transfer.kept_eq_of_mapError_result (hlast.symm.trans hupdate)] at hstored
        have hfindings : findings' = findings := by
          rw [hresult, hupdate] at h
          exact Except.ok.inj h
        subst hfindings
        rcases generate_cases top report o with
          ⟨cause, _, heq⟩ | ⟨entries, scan, hlist, hscan, _, hgen⟩
        · exact absurd hgenerate (by simp [heq])
        · have hscanned : scan.findings = findings' := by
            rw [hgenerate] at hgen
            split at hgen
            · exact absurd hgen (by simp)
            · exact (Except.ok.inj hgen).symm
          rw [htop]
          exact ⟨entries, scan, _, l, m, bytes, linked, hlist, hscan, hscanned, hwritten, hfind,
            hlink, hstored⟩

/-- A run reaches a fixed point. In a tree without links, where the checklist and the readme are
different files with excluded names and the name of the checklist is one line, a run after a run
that succeeds finds the same and leaves the tree as it is, when the device takes the bytes again. -/
theorem run_run (top : Node) (report readme : Transfer) (o : Options) (findings : List Finding)
    (htop : top.WellFormed) (hlinks : top.LinkFree)
    (hdiffer : o.reportPath.location ≠ o.readmePath.location)
    (hreport : ∃ name ∈ o.excludedFiles, Path.fileName? ⟨o.reportFile⟩ = some name)
    (hreadme : ∃ name ∈ o.excludedFiles, Path.fileName? ⟨o.readmeFile⟩ = some name)
    (hname : '\n' ∉ o.reportFile.toList)
    (hrun : (run top report readme o).result = .ok findings) :
    (run (run top report readme o).top .complete .complete o).result = .ok findings ∧
      (run (run top report readme o).top .complete .complete o).top =
        (run top report readme o).top := by
  obtain ⟨entries, scan, mid, l, m, bytes, linked, hlist, hscan, rfl, hwritten, hfind, hlink,
    hstored⟩ := run_ok_cases hrun
  generalize (run top report readme o).top = done at hstored
  have hlinks_mid := hlinks.of_written hwritten
  have hlinks_done := hlinks_mid.of_stored hstored
  -- The checklist and the readme are where their paths say, hence apart and of excluded names.
  have hl := hlinks_mid.find_eq_location hwritten.found
  have hm := hlinks_mid.find_eq_location hfind
  have hne : l ≠ m := by rwa [hl, hm]
  have hl_excluded : ∃ d, ∃ name ∈ o.excludedFiles, l = d ++ [name] := by
    obtain ⟨name, hexcluded, hfile⟩ := hreport
    obtain ⟨d, hd⟩ := Path.exists_location_join hfile o.root
    exact ⟨d, name, hexcluded, hl.trans hd⟩
  have hm_excluded : ∃ d, ∃ name ∈ o.excludedFiles, m = d ++ [name] := by
    obtain ⟨name, hexcluded, hfile⟩ := hreadme
    obtain ⟨d, hd⟩ := Path.exists_location_join hfile o.root
    exact ⟨d, name, hexcluded, hm.trans hd⟩
  have hsame : o.SameFiles top done :=
    (Options.SameFiles.of_written hl_excluded hwritten).trans (.of_stored hm_excluded hstored)
  -- The root is still there, so the second walk finds the same.
  obtain ⟨r, hroot⟩ := Node.list_eq_ok_iff.mp hlist
  have hext : Extends top done := hwritten.toExtends.trans hstored.toExtends
  obtain ⟨entries', hroot'⟩ := Node.find_directory_mono hext hroot
  have hwellFormed := hstored.wellFormed (hwritten.wellFormed htop)
  obtain ⟨scan₁, scan', hscan₁, hscan', hfindings⟩ :=
    Scan.run_congr htop hwellFormed hlinks hlinks_done hroot hroot' hsame
  obtain rfl := Except.ok.inj (hscan₁.symm.trans hscan)
  -- Both files hold what they are given again.
  have hreport_found : done.find o.reportPath = .ok (l, .file (reportBytes scan'.findings)) := by
    rw [hfindings]
    refine Node.find_mono hstored.toExtends hwritten.found (Node.formAt_eq_file_iff.mp ?_)
    rw [hstored.frame l hne, Node.formAt_of_find hwritten.found, Node.form]
  have hreadme_found : done.find o.readmePath = .ok (m, .file (Text.encode linked.toList)) :=
    Node.find_mono hstored.toExtends hfind (Node.formAt_eq_file_iff.mp hstored.after)
  obtain ⟨hgenerate_top, hgenerate⟩ := generate_of_found hscan' hreport_found
  obtain ⟨hrun_top, hrun_result⟩ := run_of_generate_ok .complete hgenerate
  rw [hgenerate_top] at hrun_top hrun_result
  obtain ⟨hupdate_top, hupdate⟩ :=
    updateReadme_of_linked hreadme_found (Readme.link?_linked hname hlink)
  rw [hrun_result, hupdate, hrun_top, hupdate_top, hfindings]
  exact ⟨rfl, rfl⟩

theorem wellFormed_markedProject : markedProject.WellFormed := by
  refine .directory (by decide) (by decide) ?_
  rw [List.forall_mem_cons, List.forall_mem_singleton]
  refine ⟨.file _, .directory (by decide) (by decide) ?_⟩
  rw [List.forall_mem_singleton]
  exact .file _

theorem linkFree_markedProject : markedProject.LinkFree := by
  refine .directory ?_
  rw [List.forall_mem_cons, List.forall_mem_singleton]
  refine ⟨.file _, .directory ?_⟩
  rw [List.forall_mem_singleton]
  exact .file _

/-- The first run adds a checklist and a link here, and the second run finds the same and keeps
them. -/
theorem run_run_markedProject :
    (run markedProject .complete .complete (.ofRoot ⟨"."⟩)).result = .ok [notedFinding] ∧
      let done := (run markedProject .complete .complete (.ofRoot ⟨"."⟩)).top
      (run done .complete .complete (.ofRoot ⟨"."⟩)).result = .ok [notedFinding] ∧
        (run done .complete .complete (.ofRoot ⟨"."⟩)).top = done := by
  have hrun : (run markedProject .complete .complete (.ofRoot ⟨"."⟩)).result =
      .ok [notedFinding] := by
    decide +kernel
  refine ⟨hrun, ?_⟩
  exact run_run markedProject .complete .complete (.ofRoot ⟨"."⟩) [notedFinding]
    wellFormed_markedProject linkFree_markedProject (by decide) ⟨"TODO.md", by decide, by decide⟩
    ⟨"README.md", by decide, by decide⟩ (by decide) hrun

end Project

end Marginalia
