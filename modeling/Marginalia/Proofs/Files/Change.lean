import Marginalia.Files.Change
import Marginalia.Proofs.Files.Parent
import Marginalia.Proofs.Files.WellFormed

/-! What changes when files are written. Directories on the way may appear, then one file has new
bytes; every other location keeps its form, also when a write fails half way. Then the file holds
the front of what it was to hold. Trees stay well-formed. -/
namespace Marginalia

/-- A tree grows when directories appear under free names, each one where one of the paths
leads. -/
structure Grows (paths : List Path) (top top' : Node) : Prop where
  kept : ∀ l f, top.formAt l = some f → top'.formAt l = some f
  grown : ∀ l f, top.formAt l = none → top'.formAt l = some f →
    f = .directory ∧ ∃ p ∈ paths, top'.locate .find p = .ok (.taken l)
  wellFormed : top.WellFormed → top'.WellFormed

/-- One file is new or has new bytes, and nothing else changes. -/
structure Stored (l : Location) (content : List UInt8) (top top' : Node) : Prop where
  before : top.formAt l = none ∨ ∃ old, top.formAt l = some (.file old)
  after : top'.formAt l = some (.file content)
  frame : ∀ m, m ≠ l → top'.formAt m = top.formAt m
  wellFormed : top.WellFormed → top'.WellFormed

namespace Grows

variable {paths more : List Path} {top top' top'' : Node}

theorem refl (paths : List Path) (top : Node) : Grows paths top top where
  kept _ _ h := h
  grown l f hnone h := absurd (hnone.symm.trans h) (by simp)
  wellFormed h := h

theorem toExtends (h : Grows paths top top') : Extends top top' := .of_kept h.kept

theorem mono (h : Grows paths top top') (hsub : paths ⊆ more) : Grows more top top' where
  kept := h.kept
  grown l f hnone hl := by
    obtain ⟨hf, p, hp, hfind⟩ := h.grown l f hnone hl
    exact ⟨hf, p, hsub hp, hfind⟩
  wellFormed := h.wellFormed

theorem trans (h : Grows paths top top') (h' : Grows paths top' top'') :
    Grows paths top top'' where
  kept l f hl := h'.kept l f (h.kept l f hl)
  grown l f hnone hl := by
    cases hmid : top'.formAt l with
    | none => exact h'.grown l f hmid hl
    | some g =>
      obtain ⟨hg, p, hp, hfind⟩ := h.grown l g hnone hmid
      have hfg : f = g := Option.some.inj (hl.symm.trans (h'.kept l g hmid))
      exact ⟨hfg.trans hg, p, hp, Node.locate_mono h'.toExtends hfind⟩
  wellFormed htop := h'.wellFormed (h.wellFormed htop)

end Grows

theorem Stored.toExtends {l : Location} {content : List UInt8} {top top' : Node}
    (h : Stored l content top top') : Extends top top' :=
  .of_kept_but h.before h.after fun m _ hne hm => (h.frame m hne).trans hm

/-- A path was written: the one file that is new or has new bytes is the file that the path leads
to, and the only other new entries are directories on the way to it. -/
structure Written (p : Path) (l : Location) (content : List UInt8) (top top' : Node) : Prop where
  found : top'.find p = .ok (l, .file content)
  before : top.formAt l = none ∨ ∃ old, top.formAt l = some (.file old)
  others : ∀ m, m ≠ l → top'.formAt m = top.formAt m ∨
    top.formAt m = none ∧ ∃ q ∈ p.ancestors, ∃ entries, top'.find q = .ok (m, .directory entries)
  wellFormed : top.WellFormed → top'.WellFormed

namespace Written

variable {p : Path} {l m : Location} {content : List UInt8} {top mid top' : Node} {f : Form}

theorem of_stored (hgrows : Grows p.ancestors top mid) (hstored : Stored l content mid top')
    (hfind : top'.find p = .ok (l, .file content)) : Written p l content top top' where
  found := hfind
  before := by
    cases hl : top.formAt l with
    | none => exact .inl rfl
    | some f =>
      have hmid := hgrows.kept l f hl
      rcases hstored.before with hnone | ⟨old, hold⟩
      · exact absurd (hnone.symm.trans hmid) (by simp)
      · exact .inr ⟨old, hmid.symm.trans hold⟩
  others m hm := by
    cases htop : top.formAt m with
    | some f => exact .inl ((hstored.frame m hm).trans (hgrows.kept m f htop))
    | none =>
      cases hmid : mid.formAt m with
      | none => exact .inl ((hstored.frame m hm).trans hmid)
      | some f =>
        obtain ⟨rfl, q, hq, hlocate⟩ := hgrows.grown m f htop hmid
        obtain ⟨entries, hentries⟩ :=
          Node.formAt_eq_directory_iff.mp ((hstored.frame m hm).trans hmid)
        refine .inr ⟨rfl, q, hq, entries, Node.find_eq_ok_iff.mpr ⟨?_, hentries⟩⟩
        exact Node.locate_mono hstored.toExtends hlocate
  wellFormed htop := hstored.wellFormed (hgrows.wellFormed htop)

/-- What stood elsewhere stands there still. -/
theorem formAt_of_ne (h : Written p l content top top') (hm : m ≠ l)
    (hf : top.formAt m = some f) : top'.formAt m = some f := by
  rcases h.others m hm with heq | ⟨hnone, _⟩
  · rw [heq, hf]
  · exact absurd (hnone.symm.trans hf) (by simp)

/-- A file that stands elsewhere stood there before. -/
theorem file_of_ne (h : Written p l content top top') (hm : m ≠ l) {bytes : List UInt8}
    (hf : top'.formAt m = some (.file bytes)) : top.formAt m = some (.file bytes) := by
  rcases h.others m hm with heq | ⟨_, q, _, entries, hfind⟩
  · rw [← heq, hf]
  · exact absurd ((Node.formAt_of_find hfind).symm.trans hf) (by simp [Node.form])

theorem toExtends (h : Written p l content top top') : Extends top top' :=
  .of_kept_but h.before (Node.formAt_of_find h.found)
    fun _ _ hne hm => h.formAt_of_ne hne hm

end Written

namespace Transfer

variable {transfer : Transfer} {p : Path} {content : List UInt8}

/-- A device that is full after so many bytes. -/
def full (count : Nat) : Transfer :=
  .cutInWrite count (.device "No space left on device (os error 28)")

/-- Bytes are lost only with a word. -/
theorem kept_eq_of_result (h : transfer.result p content = .ok ()) :
    transfer.kept content = content := by
  cases transfer with
  | complete => rfl
  | cutInWrite count cause =>
    rw [result] at h
    split at h
    · next hcount => exact List.take_of_length_le hcount
    · exact absurd h (by simp)
  | cutInFlush => exact absurd h (by simp [result])

end Transfer

namespace Node

variable {top top' node : Node} {p : Path} {l d : Location} {name : String}
  {content old : List UInt8} {transfer : Transfer}

/-- A leaf under the free name that a path leads to changes one form. -/
theorem formAt_put_of_locate_free {purpose : Purpose}
    (h : top.locate purpose p = .ok (.free d name)) (hnode : node.IsLeaf) (m : Location) :
    (top.put (d ++ [name]) node).formAt m =
      if m = d ++ [name] then some node.form else top.formAt m := by
  obtain ⟨hd, hnone, _⟩ := locate_free_spec h
  obtain ⟨entries, hentries⟩ := formAt_eq_directory_iff.mp hd
  rw [formAt_append_singleton hentries, Option.map_eq_none_iff] at hnone
  exact formAt_put_of_free hentries hnone hnode m

theorem createDirectory_grows (h : top.createDirectory p = .ok top') : Grows [p] top top' := by
  rw [createDirectory] at h
  split at h
  · exact absurd h (by simp)
  · exact absurd h (by simp)
  · next d name hfree =>
    obtain ⟨_, hnone, _⟩ := locate_free_spec hfree
    have hform := formAt_put_of_locate_free hfree isLeaf_emptyDirectory
    rw [Except.ok.inj h] at hform
    have hkept (m : Location) (f : Form) (hm : top.formAt m = some f) :
        top'.formAt m = some f := by
      rw [hform, if_neg, hm]
      rintro rfl
      exact absurd (hnone.symm.trans hm) (by simp)
    have hwellFormed (htop : top.WellFormed) : top'.WellFormed :=
      Except.ok.inj h ▸ htop.put_of_locate_free hfree wellFormed_emptyDirectory
    refine ⟨hkept, fun m f hm hf => ?_, hwellFormed⟩
    by_cases heq : m = d ++ [name]
    · subst heq
      rw [hform, if_pos rfl] at hf
      refine ⟨(Option.some.inj hf).symm, p, List.mem_singleton_self p, ?_⟩
      exact locate_find_of_free (.of_kept hkept) hfree ((hform _).trans (if_pos rfl)) (.inl rfl)
    · rw [hform, if_neg heq, hm] at hf
      exact absurd hf (by simp)

theorem createChain_grows (top : Node) (paths : List Path) :
    Grows paths top (top.createChain paths).1 := by
  -- The chain goes up until a directory can be created and then down again.
  induction paths with
  | nil => exact .refl [] top
  | cons p above ih =>
    have hone {mid top' : Node} (h : mid.createDirectory p = .ok top') :
        Grows (p :: above) mid top' :=
      (createDirectory_grows h).mono (by simp)
    have habove := ih.mono (List.subset_cons_self p above)
    rw [createChain]
    split
    · exact .refl _ top
    · split
      · next top' hcreate => exact hone hcreate
      · split
        · next mid e hchain => rwa [hchain] at habove
        · next mid hchain =>
          rw [hchain] at habove
          split
          · next top' hcreate => exact habove.trans (hone hcreate)
          · exact habove
      · exact .refl _ top

theorem createDirectories_grows (top : Node) (p : Path) :
    Grows (p :: p.ancestors) top (top.createDirectories p).1 := by
  have hchain := createChain_grows top (p :: p.ancestors)
  rw [createDirectories]
  split
  · exact .refl _ top
  · split
    · next hresult => rwa [hresult] at hchain
    · next hresult => rwa [hresult] at hchain

theorem createDirectories_of_find (h : top.find p = .ok (l, node)) :
    top.createDirectories p = (top, .ok ()) := by
  rw [createDirectories, if_pos (has_of_find h)]

theorem stored_of_formAt (hbefore : top.formAt l = none ∨ ∃ old, top.formAt l = some (.file old))
    (hform : ∀ m, top'.formAt m = if m = l then some (.file content) else top.formAt m)
    (hwellFormed : top.WellFormed → top'.WellFormed) : Stored l content top top' :=
  ⟨hbefore, (hform l).trans (if_pos rfl), fun m hm => (hform m).trans (if_neg hm), hwellFormed⟩

theorem stored_put (h : top.at? l = some (.file old)) (content : List UInt8) :
    Stored l content top (top.put l (.file content)) :=
  stored_of_formAt (.inr ⟨old, formAt_eq_file_iff.mpr h⟩)
    (formAt_put_of_at? h (isLeaf_file old) (isLeaf_file content))
    fun htop => htop.put_of_at? h (.file content)

/-- Where the bytes of a file go: under the free name, or into the file, that a path leads to. -/
inductive StoresAt (top : Node) (p : Path) : Location → Prop
  | free {d : Location} {name : String}
      (hfree : top.locate .createFile p = .ok (.free d name)) : StoresAt top p (d ++ [name])
  | taken {l : Location} {old : List UInt8} (htaken : top.locate .createFile p = .ok (.taken l))
      (hold : top.at? l = some (.file old)) : StoresAt top p l

/-- A file is opened at the place where its bytes go. -/
theorem truncate_eq_ok_iff : top.truncate p = .ok (l, top') ↔
    top.StoresAt p l ∧ top.put l (.file []) = top' := by
  rw [truncate]
  constructor
  · intro h
    split at h
    · exact absurd h (by simp)
    · next d name hfree =>
      obtain ⟨rfl, rfl⟩ := Prod.mk.inj (Except.ok.inj h)
      exact ⟨.free hfree, rfl⟩
    · next m htaken =>
      split at h
      · next old hold =>
        obtain ⟨rfl, rfl⟩ := Prod.mk.inj (Except.ok.inj h)
        exact ⟨.taken htaken hold, rfl⟩
      · exact absurd h (by simp)
  · rintro ⟨hl, rfl⟩
    cases hl with
    | free hfree => simp only [hfree]
    | taken htaken hold => simp only [htaken, hold]

theorem StoresAt.stored (h : top.StoresAt p l) (content : List UInt8) :
    Stored l content top (top.put l (.file content)) := by
  cases h with
  | free hfree =>
    obtain ⟨_, hnone, _⟩ := locate_free_spec hfree
    exact stored_of_formAt (.inl hnone) (formAt_put_of_locate_free hfree (isLeaf_file content))
      fun htop => htop.put_of_locate_free hfree (.file content)
  | taken _ hold => exact stored_put hold content

/-- A file that is stored is found under its path. -/
theorem StoresAt.find (h : top.StoresAt p l) (htop : top.formAt [] = some .directory)
    (content : List UInt8) : (top.put l (.file content)).find p = .ok (l, .file content) := by
  have hstored := h.stored content
  refine find_eq_ok_iff.mpr ⟨?_, formAt_eq_file_iff.mp hstored.after⟩
  cases h with
  | free hfree =>
    exact locate_find_of_free hstored.toExtends hfree hstored.after (.inr ⟨rfl, by simp⟩)
  | taken htaken hold =>
    have hne : l ≠ [] := by
      rintro rfl
      rw [formAt_eq_file_iff.mpr hold] at htop
      exact absurd htop (by simp)
    exact locate_mono hstored.toExtends (locate_find_of_createFile hne htaken)

theorem createAbove_grows (top : Node) (p : Path) :
    Grows p.ancestors top (top.createAbove p).1 := by
  cases hparent : p.parent? with
  | none =>
    rw [createAbove, hparent]
    exact .refl _ top
  | some q =>
    rw [(Path.isParent_of_parent? hparent).ancestors, createAbove, hparent]
    dsimp only
    split
    · exact .refl _ top
    · exact createDirectories_grows top q

theorem writeBytes_of_truncate {mid mid' : Node} (habove : top.createAbove p = (mid, .ok ()))
    (hopen : mid.truncate p = .ok (l, mid')) (transfer : Transfer) (content : List UInt8) :
    top.writeBytes transfer p content =
      (mid'.put l (.file (transfer.kept content)), transfer.result p content) := by
  simp only [writeBytes, createFile, habove, hopen]

/-- Up to the opening of the file a write does not look at the bytes. When it gets that far, its file
stands in a tree that has the directories above it and holds what the device has taken. -/
theorem writeBytes_cases (top : Node) (p : Path) :
    ∃ mid, Grows p.ancestors top mid ∧
      ((∃ failure, ∀ transfer content,
          top.writeBytes transfer p content = (mid, .error failure)) ∨
        ∃ l, mid.StoresAt p l ∧ ∀ transfer content, top.writeBytes transfer p content =
          (mid.put l (.file (transfer.kept content)), transfer.result p content)) := by
  have hgrows := createAbove_grows top p
  rcases habove : top.createAbove p with ⟨mid, failure | _⟩
  · refine ⟨mid, by rwa [habove] at hgrows, .inl ⟨failure, fun transfer content => ?_⟩⟩
    simp only [writeBytes, createFile, habove]
  · refine ⟨mid, by rwa [habove] at hgrows, ?_⟩
    cases hopen : mid.truncate p with
    | error e =>
      refine .inl ⟨⟨.create, p, e⟩, fun transfer content => ?_⟩
      simp only [writeBytes, createFile, habove, hopen]
    | ok opened =>
      obtain ⟨l, mid'⟩ := opened
      obtain ⟨hl, hput⟩ := truncate_eq_ok_iff.mp hopen
      refine .inr ⟨l, hl, fun transfer content => ?_⟩
      rw [writeBytes_of_truncate habove hopen, ← hput, put_put]

/-- A write that succeeds has stored all its bytes. What it would have done with others, and with
another device, differs at its file only. -/
theorem exists_storesAt_of_writeBytes (h : top.writeBytes transfer p content = (top', .ok ())) :
    ∃ mid l, Grows p.ancestors top mid ∧ mid.StoresAt p l ∧
      top' = mid.put l (.file content) ∧ ∀ transfer content, top.writeBytes transfer p content =
        (mid.put l (.file (transfer.kept content)), transfer.result p content) := by
  obtain ⟨mid, hgrows, ⟨failure, hfail⟩ | ⟨l, hl, hwrite⟩⟩ := writeBytes_cases top p
  · exact absurd ((hfail transfer content).symm.trans h) (by simp)
  · obtain ⟨hput, hresult⟩ := Prod.mk.inj ((hwrite transfer content).symm.trans h)
    rw [Transfer.kept_eq_of_result hresult] at hput
    exact ⟨mid, l, hgrows, hl, hput.symm, hwrite⟩

/-- A write that succeeds changes no file but its own, and its path leads there afterwards. -/
theorem written_of_writeBytes (htop : top.formAt [] = some .directory)
    (h : top.writeBytes transfer p content = (top', .ok ())) :
    ∃ l, Written p l content top top' := by
  obtain ⟨mid, l, hgrows, hl, rfl, _⟩ := exists_storesAt_of_writeBytes h
  have hfind := hl.find (hgrows.kept [] _ htop) content
  exact ⟨l, .of_stored hgrows (hl.stored content) hfind⟩

/-- A file that is there has all directories above it. -/
theorem createAbove_of_find (h : top.find p = .ok (l, node)) :
    top.createAbove p = (top, .ok ()) := by
  cases hparent : p.parent? with
  | none => rw [createAbove, hparent]
  | some q =>
    rw [createAbove, hparent]
    dsimp only
    split
    · rfl
    · next hempty =>
      obtain ⟨d, entries, hfind⟩ :=
        find_parent (find_eq_ok_iff.mp h).1 hparent (by simpa using hempty)
      exact createDirectories_of_find hfind

/-- A file that is there is written in its place, as far as the device takes the bytes. -/
theorem writeBytes_of_find (h : top.find p = .ok (l, .file old)) (transfer : Transfer)
    (content : List UInt8) : top.writeBytes transfer p content =
      (top.put l (.file (transfer.kept content)), transfer.result p content) := by
  obtain ⟨hlocate, hold⟩ := find_eq_ok_iff.mp h
  have htaken := locate_createFile_of_find (formAt_eq_file_iff.mpr hold) hlocate
  have hopen : top.truncate p = .ok (l, top.put l (.file [])) :=
    truncate_eq_ok_iff.mpr ⟨.taken htaken hold, rfl⟩
  rw [writeBytes_of_truncate (createAbove_of_find h) hopen, put_put]

theorem readText_of_find (h : top.find p = .ok (l, .file content)) :
    top.readText p = .ok (String.ofList (Text.decodeLossy content)) := by
  simp only [readText, read, h]

theorem readText_eq_ok_iff {text : String} : top.readText p = .ok text ↔
    ∃ l content, top.find p = .ok (l, .file content) ∧
      text = String.ofList (Text.decodeLossy content) := by
  constructor
  · intro h
    rw [readText] at h
    split at h
    · next content hread =>
      obtain ⟨l, hfind⟩ := read_eq_ok_iff.mp hread
      exact ⟨l, content, hfind, (Except.ok.inj h).symm⟩
    · exact absurd h (by simp)
  · rintro ⟨l, content, hfind, rfl⟩
    exact readText_of_find hfind

/-- Writing what a file holds changes nothing. -/
theorem writeBytes_self (h : top.find p = .ok (l, .file content)) :
    top.writeBytes .complete p content = (top, .ok ()) := by
  rw [writeBytes_of_find h, Transfer.kept, put_eq_self (find_eq_ok_iff.mp h).2, Transfer.result]

end Node

end Marginalia
