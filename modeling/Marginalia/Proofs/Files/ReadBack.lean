import Marginalia.Proofs.Files.Change

/-! Writing a text and reading it. A write that succeeds is read back under its path, whatever links
and missing directories the path leads through, and leaves all other entries alone. Only the last
of several writes to a path can be told from what they leave, also when the device does not take all
of its bytes. -/
namespace Marginalia

namespace Node

variable {top top' : Node} {p : Path} {content : List UInt8} {transfer : Transfer}

/-- A second write goes to the place of the first one, and nothing is left of that. Only the device
can make it fail. -/
theorem writeBytes_writeBytes (htop : top.formAt [] = some .directory)
    (h : top.writeBytes transfer p content = (top', .ok ())) (again : Transfer)
    (other : List UInt8) :
    ∃ last, top'.writeBytes again p other = (last, again.result p other) ∧
      top.writeBytes again p other = (last, again.result p other) := by
  obtain ⟨mid, l, hgrows, hl, rfl, hother⟩ := exists_storesAt_of_writeBytes h
  have hfind := hl.find (hgrows.kept [] _ htop) content
  refine ⟨mid.put l (.file (again.kept other)), ?_, hother again other⟩
  rw [writeBytes_of_find hfind, put_put]

/-- A text that was written is read back. The path leads to the one file that is new or has new
bytes; every other entry keeps its form, and what else is new are directories that the path leads
through. Writing another text there succeeds as well if the device takes its bytes, and leaves what
it would have left without the first one, whatever the device does. -/
theorem write_read_back (entries : Entries) (transfer : Transfer) (top' : Node) (p : Path)
    (text : String) (h : (Node.directory entries).write transfer p text = (top', .ok ())) :
    top'.readText p = .ok text ∧
      (∃ l, top'.find p = .ok (l, .file (Text.encode text.toList)) ∧
        (∀ f, (Node.directory entries).formAt l = some f → ∃ old, f = .file old) ∧
        (∀ m f, m ≠ l → (Node.directory entries).formAt m = some f → top'.formAt m = some f) ∧
        ∀ m f, m ≠ l → (Node.directory entries).formAt m = none → top'.formAt m = some f →
          f = .directory ∧ ∃ q ∈ p.ancestors, ∃ inside, top'.find q = .ok (m, .directory inside)) ∧
      (∀ other, ∃ last, top'.write .complete p other = (last, .ok ()) ∧
        (Node.directory entries).write .complete p other = (last, .ok ())) ∧
      ∀ again other, ∃ last,
        let result := again.result p (Text.encode other.toList)
        top'.write again p other = (last, result) ∧
          (Node.directory entries).write again p other = (last, result) := by
  have htop : (Node.directory entries).formAt [] = some .directory := rfl
  obtain ⟨l, hwritten⟩ := written_of_writeBytes htop h
  refine ⟨?_, ⟨l, hwritten.found, ?_, ?_, ?_⟩, ?_, ?_⟩
  · rw [readText_of_find hwritten.found, Text.decodeLossy_encode, String.ofList_toList]
  · intro f hf
    rcases hwritten.before with hnone | ⟨old, hold⟩
    · exact absurd (hnone.symm.trans hf) (by simp)
    · exact ⟨old, Option.some.inj (hf.symm.trans hold)⟩
  · intro m f hm hf
    exact hwritten.formAt_of_ne hm hf
  · intro m f hm hnone hf
    rcases hwritten.others m hm with heq | ⟨_, q, hq, inside, hfind⟩
    · exact absurd (hnone.symm.trans (heq.symm.trans hf)) (by simp)
    · have hdirectory : top'.formAt m = some .directory := formAt_of_find hfind
      exact ⟨Option.some.inj (hf.symm.trans hdirectory), q, hq, inside, hfind⟩
  · intro other
    exact writeBytes_writeBytes htop h .complete _
  · intro again other
    exact writeBytes_writeBytes htop h again (Text.encode other.toList)

/-- A directory, a file that holds more than will be written, and a link to a name that is free. -/
def linkedEntries : Entries :=
  [("notes", .directory []), ("old", .file [49, 50, 51]), ("link", .link ⟨"notes/new"⟩)]

/-- A path up out of a directory that is missing and through the link. -/
def throughLink : Path := ⟨"a/../link"⟩

/-- The write goes through the link here. Another write leaves nothing of it, neither when it
succeeds nor when the device is full. -/
theorem write_read_back_throughLink :
    let full : FileFailure :=
      ⟨.write, throughLink, .device "No space left on device (os error 28)"⟩
    ∃ top', (Node.directory linkedEntries).write .complete throughLink "1" = (top', .ok ()) ∧
      top'.readText throughLink = .ok "1" ∧
      top'.find throughLink = .ok (["notes", "new"], .file [49]) ∧
      top'.formAt ["link"] = some (.link ⟨"notes/new"⟩) ∧
      top'.formAt ["old"] = some (.file [49, 50, 51]) ∧ top'.formAt ["a"] = some .directory ∧
      (∃ last, top'.write .complete throughLink "" = (last, .ok ()) ∧
        (Node.directory linkedEntries).write .complete throughLink "" = (last, .ok ())) ∧
      ∃ last, top'.write (.full 1) throughLink "23" = (last, .error full) ∧
        (Node.directory linkedEntries).write (.full 1) throughLink "23" = (last, .error full) := by
  intro full
  let top' := ((Node.directory linkedEntries).write .complete throughLink "1").1
  have hwrite :
      (Node.directory linkedEntries).write .complete throughLink "1" = (top', .ok ()) :=
    Prod.ext rfl (by decide +kernel)
  obtain ⟨htext, ⟨l, hfind, -, hkept, -⟩, hagain, hother⟩ :=
    write_read_back linkedEntries .complete top' throughLink "1" hwrite
  have hplace : (top'.find throughLink).toOption.map Prod.fst = some ["notes", "new"] := by
    decide +kernel
  rw [hfind] at hplace
  obtain rfl : l = ["notes", "new"] := Option.some.inj hplace
  have hlink := hkept ["link"] _ (by decide) rfl
  have hold := hkept ["old"] _ (by decide) rfl
  have hfull : (Transfer.full 1).result throughLink (Text.encode "23".toList) = .error full := by
    decide +kernel
  exact ⟨top', hwrite, htext, hfind, hlink, hold, by decide +kernel, hagain "",
    hfull ▸ hother (.full 1) "23"⟩

end Node

end Marginalia
