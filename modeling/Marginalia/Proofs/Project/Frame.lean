import Marginalia.Project
import Marginalia.Proofs.Files.Change
import Marginalia.Proofs.Project.Readme

/-! What the work on a project does to its files, whether it succeeds or fails. Each part of the
work is described by its cases, from which the effect of a whole run follows. -/
namespace Marginalia

section Transfer

variable {transfer : Transfer} {p : Path} {content : List UInt8}

theorem Transfer.kept_eq_of_mapError_result
    (h : (transfer.result p content).mapError ProjectError.file = .ok ()) :
    transfer.kept content = content := by
  cases hresult : transfer.result p content with
  | ok => exact kept_eq_of_result hresult
  | error failure => exact absurd h (by simp [hresult, Except.mapError])

end Transfer

namespace Project

variable {top : Node} {o : Options} {findings : List Finding} {e : ProjectError}
  {transfer report readme : Transfer}

/-- The bytes of a checklist. -/
def reportBytes (findings : List Finding) : List UInt8 :=
  Text.encode (Checklist.render findings).toList

theorem generate_of_unlistable {cause : FileError} (transfer : Transfer)
    (h : top.list o.root = .error cause) :
    generate top transfer o = ⟨top, opening o, [], .error (.unlistable cause)⟩ := by
  simp only [generate, Scan.run, h, Except.map]

theorem run_of_generate_error (readme : Transfer) (h : (generate top report o).result = .error e) :
    (run top report readme o).top = (generate top report o).top ∧
      (run top report readme o).result = .error e := by
  constructor
  · simp only [run, h]
  · simp only [run, h]

theorem run_of_generate_ok (readme : Transfer)
    (h : (generate top report o).result = .ok findings) :
    (run top report readme o).top = (updateReadme (generate top report o).top readme o).top ∧
      (run top report readme o).result =
        (updateReadme (generate top report o).top readme o).result.map fun _ => findings := by
  constructor
  · simp only [run, h]
  · simp only [run, h]

/-- The findings of a checklist that was written are those of the walk, and the walk could list
the root. -/
theorem generate_cases (top : Node) (transfer : Transfer) (o : Options) :
    (∃ cause, top.list o.root = .error cause ∧
        generate top transfer o = ⟨top, opening o, [], .error (.unlistable cause)⟩) ∨
      ∃ entries scan, top.list o.root = .ok entries ∧ Scan.run top o = .ok scan ∧
        (generate top transfer o).top =
          (top.writeBytes transfer o.reportPath (reportBytes scan.findings)).1 ∧
        (generate top transfer o).result =
          match (top.writeBytes transfer o.reportPath (reportBytes scan.findings)).2 with
          | .error failure => .error (.file failure)
          | .ok () => .ok scan.findings := by
  cases hlist : top.list o.root with
  | error cause => exact .inl ⟨cause, rfl, generate_of_unlistable transfer hlist⟩
  | ok entries =>
    have hrun : ∃ scan, Scan.run top o = .ok scan := by
      rw [Scan.run, hlist]
      exact ⟨_, rfl⟩
    obtain ⟨scan, hscan⟩ := hrun
    refine .inr ⟨entries, scan, rfl, hscan, ?_⟩
    have hwrite : top.write transfer o.reportPath (Checklist.render scan.findings) =
        top.writeBytes transfer o.reportPath (reportBytes scan.findings) := rfl
    simp only [generate, hscan, hwrite]
    rcases top.writeBytes transfer o.reportPath (reportBytes scan.findings) with
      ⟨top', failure | _⟩
    · exact ⟨rfl, rfl⟩
    · exact ⟨rfl, rfl⟩

/-- A checklist that was written is the only file that changes. -/
theorem written_of_generate (h : (generate top transfer o).result = .ok findings) :
    ∃ l, Written o.reportPath l (reportBytes findings) top (generate top transfer o).top := by
  rcases generate_cases top transfer o with
    ⟨cause, _, hgenerate⟩ | ⟨entries, scan, hlist, _, htop, hresult⟩
  · rw [hgenerate] at h
    exact absurd h (by simp)
  · rw [hresult] at h
    rcases hwrite : top.writeBytes transfer o.reportPath (reportBytes scan.findings) with
      ⟨top', failure | _⟩
    · rw [hwrite] at h
      exact absurd h (by simp)
    · rw [hwrite] at h
      rw [htop, ← Except.ok.inj h, hwrite]
      exact Node.written_of_writeBytes (Node.formAt_nil_of_list hlist) hwrite

/-- A readme that has its markers is written in its place, as far as the device takes the bytes. -/
theorem updateReadme_of_link? {l : Location} {bytes : List UInt8} {linked : String}
    (transfer : Transfer) (hfind : top.find o.readmePath = .ok (l, .file bytes))
    (hlink : Readme.link? (String.ofList (Text.decodeLossy bytes)) o.reportFile = some linked) :
    (updateReadme top transfer o).top =
        top.put l (.file (transfer.kept (Text.encode linked.toList))) ∧
      (updateReadme top transfer o).result =
        (transfer.result o.readmePath (Text.encode linked.toList)).mapError .file := by
  have hhas := Node.has_of_find hfind
  have hread := Node.readText_of_find hfind
  have hwrite : top.write transfer o.readmePath linked = _ :=
    Node.writeBytes_of_find hfind transfer _
  cases hresult : transfer.result o.readmePath (Text.encode linked.toList) with
  | ok => simp [updateReadme, hhas, hread, hlink, hwrite, hresult, Except.mapError]
  | error failure => simp [updateReadme, hhas, hread, hlink, hwrite, hresult, Except.mapError]

/-- What comes of linking the readme: it is missing, it is no file, it lacks a marker, or it is
written in its place as far as the device takes the bytes. -/
theorem updateReadme_cases (top : Node) (transfer : Transfer) (o : Options) :
    ((∀ found, top.find o.readmePath ≠ .ok found) ∧
        updateReadme top transfer o = ⟨top, [], [], .error (.missingReadme o.readmePath)⟩) ∨
      (∃ l node, top.find o.readmePath = .ok (l, node) ∧ (∀ bytes, node ≠ .file bytes) ∧
        updateReadme top transfer o =
          ⟨top, [], [], .error (.file ⟨.read, o.readmePath, .isDirectory⟩)⟩) ∨
      (∃ l bytes, top.find o.readmePath = .ok (l, .file bytes) ∧
        Readme.link? (String.ofList (Text.decodeLossy bytes)) o.reportFile = none ∧
        updateReadme top transfer o = ⟨top, [], [], .error (.missingMarkers o.readmePath)⟩) ∨
      ∃ l bytes linked, top.find o.readmePath = .ok (l, .file bytes) ∧
        Readme.link? (String.ofList (Text.decodeLossy bytes)) o.reportFile = some linked ∧
        Stored l (transfer.kept (Text.encode linked.toList)) top (updateReadme top transfer o).top ∧
        (updateReadme top transfer o).result =
          (transfer.result o.readmePath (Text.encode linked.toList)).mapError .file := by
  by_cases hhas : top.has o.readmePath = true
  · obtain ⟨⟨l, node⟩, hfind⟩ : ∃ found, top.find o.readmePath = .ok found := by
      by_contra hnone
      rw [Node.has_eq_false_iff.mpr fun found hfound => hnone ⟨found, hfound⟩] at hhas
      exact absurd hhas (by simp)
    refine .inr ?_
    by_cases hfile : ∃ bytes, node = .file bytes
    · obtain ⟨bytes, rfl⟩ := hfile
      refine .inr ?_
      cases hlink : Readme.link? (String.ofList (Text.decodeLossy bytes)) o.reportFile with
      | none =>
        refine .inl ⟨l, bytes, hfind, hlink, ?_⟩
        simp [updateReadme, hhas, Node.readText_of_find hfind, hlink]
      | some linked =>
        obtain ⟨htop, hresult⟩ := updateReadme_of_link? transfer hfind hlink
        refine .inr ⟨l, bytes, linked, hfind, hlink, ?_, hresult⟩
        rw [htop]
        exact Node.stored_put (Node.find_eq_ok_iff.mp hfind).2 _
    · have hread : top.readText o.readmePath = .error ⟨.read, o.readmePath, .isDirectory⟩ := by
        cases node with
        | file bytes => exact absurd ⟨bytes, rfl⟩ hfile
        | link | directory => simp only [Node.readText, Node.read, hfind]
      refine .inl ⟨l, node, hfind, fun bytes hbytes => hfile ⟨bytes, hbytes⟩, ?_⟩
      simp [updateReadme, hhas, hread]
  · rw [Bool.not_eq_true] at hhas
    refine .inl ⟨Node.has_eq_false_iff.mp hhas, ?_⟩
    simp [updateReadme, hhas]

/-- A project with a readme and a tagged file. -/
def notedProject (readme : String) : Node :=
  .directory [("README.md", .file (Text.encode readme.toList)),
    ("src", .directory [("retry.rs", .file (Text.encode "// TODO(io): back off\n".toList))])]

/-- What is found in it. -/
def notedFinding : Finding := ⟨⟨"src/retry.rs"⟩, .todo, "io", "back off"⟩

def markedProject : Node :=
  notedProject "# Notes\n<!-- TODOS_START -->\n<!-- TODOS_END -->"

end Project

end Marginalia
