import Marginalia.Proofs.Files.Below
import Marginalia.Proofs.Files.WellFormed
import Marginalia.Proofs.Scan.Order
import Marginalia.Proofs.Text.Utf8
import Marginalia.Scan
import Mathlib.Tactic.Choose

/-! What a walk visits. A file is visible by where it stands and what its name and those of the
directories above it are; the walk visits these files and no others, each once and in order, but
for those whose paths are too long to be followed. -/
namespace Marginalia

/-- What the walk of a directory is to read, by the location below it: a file or a link that leads
to no directory, with a name that is not excluded, in directories that are neither hidden nor
excluded. None of them is a link, since nothing stands below a link. -/
def Options.Visible (o : Options) (top : Node) (p : Path) (r l : Location) : Prop :=
  ∃ directories name, l = directories ++ [name] ∧
    (∀ d ∈ directories, d.toList.head? ≠ some '.' ∧ d ∉ o.excludedDirectories) ∧
    name ∉ o.excludedFiles ∧
    ((∃ content, top.formAt (r ++ l) = some (.file content)) ∨
      ∃ target, top.formAt (r ++ l) = some (.link target) ∧ top.hasDirectory (p.below l) = false)

/-- A path leads to a node, or is too long to be followed. -/
def Reaches (top : Node) (p : Path) (l : Location) (node : Node) : Prop :=
  top.find p = .ok (l, node) ∨ Node.longestPath < Text.byteLength p.text.toList

namespace Path

variable {p : Path} {name : String} {names : List String}

theorem byteLength_join (p : Path) (hn : IsName name) :
    Text.byteLength p.text.toList ≤ Text.byteLength (p.join ⟨name⟩).text.toList := by
  rcases text_join (p := p) hn with h | h
  · rw [h, String.toList_append, Text.byteLength_append]
    omega
  · rw [h, String.toList_append, String.toList_append, Text.byteLength_append,
      Text.byteLength_append]
    omega

theorem byteLength_below (p : Path) (hnames : ∀ n ∈ names, IsName n) :
    Text.byteLength p.text.toList ≤ Text.byteLength (p.below names).text.toList := by
  induction names generalizing p with
  | nil => exact le_refl _
  | cons name names ih =>
    have hrest := ih (p.join ⟨name⟩) fun n hn => hnames n (List.mem_cons_of_mem name hn)
    exact (byteLength_join p (hnames name List.mem_cons_self)).trans hrest

theorem plain_join (hp : Char.ofNat 0 ∉ p.text.toList) (hn : IsName name) :
    Char.ofNat 0 ∉ (p.join ⟨name⟩).text.toList := by
  rcases text_join (p := p) hn with h | h
  · rw [h, String.toList_append, List.mem_append]
    exact not_or.mpr ⟨hp, hn.plain⟩
  · rw [h, String.toList_append, String.toList_append, List.mem_append, List.mem_append]
    exact not_or.mpr ⟨not_or.mpr ⟨hp, by decide⟩, hn.plain⟩

end Path

namespace Reaches

variable {top node node' : Node} {p : Path} {r l : Location} {name : String} {entries : Entries}

theorem nonempty (h : Reaches top p l node) : p.isEmpty = false := by
  rcases h with hfind | hlong
  · exact (Node.locate_eq_ok_iff.mp (Node.find_eq_ok_iff.mp hfind).1).1.nonempty
  · rw [Path.isEmpty_eq_false_iff]
    intro hempty
    rw [hempty] at hlong
    exact absurd hlong (by decide)

/-- A directory can be listed by a path exactly when the path is short enough. -/
theorem exists_list_iff (h : Reaches top p l (.directory entries)) :
    (∃ listed, top.list p = .ok listed) ↔ Text.byteLength p.text.toList ≤ Node.longestPath := by
  constructor
  · rintro ⟨listed, hlist⟩
    obtain ⟨m, hfind⟩ := Node.list_eq_ok_iff.mp hlist
    exact (Node.locate_eq_ok_iff.mp (Node.find_eq_ok_iff.mp hfind).1).1.short
  · intro hshort
    have hfind := h.resolve_right (Nat.not_lt.mpr hshort)
    exact ⟨entries, Node.list_eq_ok_iff.mpr ⟨l, hfind⟩⟩

/-- The path of an entry leads there from the path of its directory. -/
theorem join (h : Reaches top p l (.directory entries)) (hn : IsName name)
    (hnode : entries.lookup name = some node) (hlink : ∀ target, node ≠ .link target) :
    Reaches top (p.join ⟨name⟩) (l ++ [name]) node := by
  have hp := h.nonempty
  by_cases hlong : Node.longestPath < Text.byteLength (p.join ⟨name⟩).text.toList
  · exact .inr hlong
  · rcases h with hfind | hlong'
    · obtain ⟨hlocate, hl⟩ := Node.find_eq_ok_iff.mp hfind
      obtain ⟨hfollow, hroute⟩ := Node.locate_eq_ok_iff.mp hlocate
      have hat : top.at? (l ++ [name]) = some node := by
        rw [Node.at?_append_singleton hl, hnode]
      have hform : top.formAt (l ++ [name]) = some node.form := by
        rw [Node.formAt, hat]
        rfl
      have hlink' : ∀ target, node.form ≠ .link target := by
        intro target hform
        cases node with
        | link target' => exact hlink target' rfl
        | file | directory => exact absurd hform (by simp [Node.form])
      refine .inl (Node.find_eq_ok_iff.mpr ⟨Node.locate_eq_ok_iff.mpr ⟨?_, ?_⟩, hat⟩)
      · exact ⟨Path.plain_join hfollow.plain hn, Path.isEmpty_join hn, Nat.not_lt.mp hlong⟩
      · rw [Path.steps_join hp hn, Path.endsWithSlash_join hp hn]
        exact hroute.append_into rfl hn.short hform hlink'
    · exact absurd (hlong'.trans_le (Path.byteLength_join p hn)) hlong

theorem below (h : Reaches top p r node) (hnode : node.WellFormed) (hl : node.at? l = some node')
    (hlink : ∀ target, node' ≠ .link target) : Reaches top (p.below l) (r ++ l) node' := by
  induction l generalizing p r node with
  | nil =>
    rw [Node.at?_nil, Option.some.injEq] at hl
    rw [List.append_nil, ← hl]
    exact h
  | cons name l ih =>
    cases hnode with
    | file | link => exact absurd hl (by simp)
    | directory distinct named hbelow =>
      rw [Node.at?_directory_cons, Option.bind_eq_some_iff] at hl
      obtain ⟨child, hchild, hl⟩ := hl
      have hmem := Entries.mem_of_lookup hchild
      -- The entry is the node itself, or holds it; a link does neither.
      have hchild_link : ∀ target, child ≠ .link target := by
        rintro target rfl
        cases l with
        | nil =>
          rw [Node.at?_nil, Option.some.injEq] at hl
          exact hlink target hl.symm
        | cons => exact absurd hl (by simp)
      have hrest := ih (h.join (named _ hmem) hchild hchild_link) (hbelow _ hmem) hl
      rwa [List.append_assoc] at hrest

end Reaches

namespace Options

variable {o : Options} {top : Node} {p : Path} {r l : Location} {name : String}
  {entries : Entries}

theorem enters_iff : o.enters name = true ↔
    name.toList.head? ≠ some '.' ∧ name ∉ o.excludedDirectories := by
  rw [enters, Bool.and_eq_true, Bool.not_eq_true', Bool.not_eq_true', beq_eq_false_iff_ne,
    List.contains_eq_mem, decide_eq_false_iff_not]

/-- Whether an entry of a directory is read as a file. -/
def isOwn (o : Options) (top : Node) (p : Path) (e : String × Node) : Bool :=
  match e.2 with
  | .directory _ => false
  | .link _ => !top.hasDirectory (p.join ⟨e.1⟩) && !o.excludedFiles.contains e.1
  | .file _ => !o.excludedFiles.contains e.1

/-- Whether an entry of a directory is a directory that is walked. -/
def isWalked (o : Options) (e : String × Node) : Bool := e.2.isDirectory && o.enters e.1

theorem ownFiles_eq (o : Options) (top : Node) (p : Path) (entries : Entries) :
    o.ownFiles top p entries =
      (entries.filter (o.isOwn top p)).map fun e => p.join ⟨e.1⟩ := by
  rw [ownFiles, ← List.filterMap_eq_map, List.filterMap_filter]
  refine List.filterMap_congr fun e _ => ?_
  rcases e with ⟨name, content | target | below⟩
  · by_cases hname : name ∈ o.excludedFiles <;> simp [isOwn, hname]
  · by_cases hname : name ∈ o.excludedFiles <;>
      cases hdirectory : top.hasDirectory (p.join ⟨name⟩) <;> simp [isOwn, hname, hdirectory]
  · simp [isOwn]

theorem inventories_eq (o : Options) (top : Node) (p : Path) (entries : Entries) :
    o.inventories top p entries = (entries.filter o.isWalked).map fun e =>
      (p.join ⟨e.1⟩, o.inventory top (p.join ⟨e.1⟩) e.2) := by
  induction entries with
  | nil => rw [inventories]; rfl
  | cons e rest ih =>
    obtain ⟨name, node⟩ := e
    rw [inventories, List.filter_cons, ih]
    by_cases hwalked : o.isWalked (name, node) = true
    · rw [if_pos hwalked, if_pos (by exact hwalked), List.map_cons]
    · rw [if_neg hwalked, if_neg (by exact hwalked)]

/-- What is sorted by the paths of entries is sorted by their names. -/
theorem mergeSort_map {α : Type} {f : String × Node → α} {le : α → α → Bool}
    (hle : ∀ a b, le (f a) (f b) = (p.join ⟨a.1⟩).notAfter (p.join ⟨b.1⟩))
    (hp : p.isEmpty = false) (hnamed : ∀ e ∈ entries, IsName e.1) :
    (entries.map f).mergeSort le = entries.byName.map f := by
  symm
  apply List.map_mergeSort
  intro a ha b hb
  rw [hle, Path.join_notAfter_join hp (hnamed a ha) (hnamed b hb)]

/-- The inventories below a directory stand in the order of the names. -/
theorem byPath_inventories (o : Options) (top : Node) (hp : p.isEmpty = false)
    (hnamed : ∀ e ∈ entries, IsName e.1) :
    byPath (o.inventories top p entries) =
      (Entries.byName (entries.filter o.isWalked)).map fun e =>
        (p.join ⟨e.1⟩, o.inventory top (p.join ⟨e.1⟩) e.2) := by
  rw [byPath, inventories_eq]
  exact mergeSort_map (fun _ _ => rfl) hp fun e he => hnamed e (List.mem_filter.mp he).1

/-- The files of a directory that can be listed: its own, by name, and those of the directories
below it, by name. -/
theorem files_inventory {listed : Entries} (hlist : top.list p = .ok listed)
    (hp : p.isEmpty = false) (hnamed : ∀ e ∈ entries, IsName e.1) :
    (o.inventory top p (.directory entries)).files =
      (Entries.byName (entries.filter (o.isOwn top p))).map (fun e => p.join ⟨e.1⟩) ++
        (Entries.byName (entries.filter o.isWalked)).flatMap fun e =>
          (o.inventory top (p.join ⟨e.1⟩) e.2).files := by
  have hown := mergeSort_map (f := fun e => p.join ⟨e.1⟩) (fun _ _ => rfl) hp
    fun e (he : e ∈ entries.filter (o.isOwn top p)) => hnamed e (List.mem_filter.mp he).1
  rw [inventory]
  simp only [hlist, ownFiles_eq, hown, byPath_inventories o top hp hnamed, List.flatMap_map]

/-- The closed directories below a directory that can be listed, by name. -/
theorem closed_inventory {listed : Entries} (hlist : top.list p = .ok listed)
    (hp : p.isEmpty = false) (hnamed : ∀ e ∈ entries, IsName e.1) :
    (o.inventory top p (.directory entries)).closed =
      (Entries.byName (entries.filter o.isWalked)).flatMap fun e =>
        (o.inventory top (p.join ⟨e.1⟩) e.2).closed := by
  rw [inventory]
  simp only [hlist, byPath_inventories o top hp hnamed, List.flatMap_map]

theorem not_visible_nil : ¬ o.Visible top p r [] := by
  rintro ⟨directories, name, heq, _⟩
  exact absurd heq (by simp)

theorem visible_singleton_iff : o.Visible top p r [name] ↔ name ∉ o.excludedFiles ∧
    ((∃ content, top.formAt (r ++ [name]) = some (.file content)) ∨
      ∃ target, top.formAt (r ++ [name]) = some (.link target) ∧
        top.hasDirectory (p.join ⟨name⟩) = false) := by
  constructor
  · rintro ⟨directories, name', heq, _, hname, hkind⟩
    cases directories with
    | nil =>
      rw [List.nil_append, List.singleton_inj] at heq
      exact ⟨heq ▸ hname, hkind⟩
    | cons => exact absurd heq (by simp)
  · rintro ⟨hname, hkind⟩
    exact ⟨[], name, rfl, by simp, hname, hkind⟩

theorem visible_cons_iff (hl : l ≠ []) : o.Visible top p r (name :: l) ↔
    o.enters name = true ∧ o.Visible top (p.join ⟨name⟩) (r ++ [name]) l := by
  have hsplit : r ++ name :: l = r ++ [name] ++ l := by simp
  rw [enters_iff, Visible, Visible, hsplit, Path.below_cons]
  constructor
  · rintro ⟨directories, last, heq, hdirectories, hlast⟩
    cases directories with
    | nil => exact absurd (List.cons.inj heq).2 hl
    | cons d directories =>
      rw [List.cons_append, List.cons.injEq] at heq
      obtain ⟨rfl, hrest⟩ := heq
      refine ⟨hdirectories _ List.mem_cons_self, directories, last, hrest, ?_, hlast⟩
      exact fun d hd => hdirectories d (List.mem_cons_of_mem _ hd)
  · rintro ⟨hname, directories, last, hrest, hdirectories, hlast⟩
    refine ⟨name :: directories, last, by rw [hrest, List.cons_append], ?_, hlast⟩
    intro d hd
    rcases List.mem_cons.mp hd with rfl | hd
    · exact hname
    · exact hdirectories d hd

theorem isOwn_iff {node : Node} : o.isOwn top p (name, node) = true ↔ name ∉ o.excludedFiles ∧
    ((∃ content, node = .file content) ∨
      ∃ target, node = .link target ∧ top.hasDirectory (p.join ⟨name⟩) = false) := by
  cases node with
  | file content => simp [isOwn]
  | link target => simp [isOwn, and_comm]
  | directory => simp [isOwn]

/-- The visible files right below a directory are its own files. -/
theorem visible_own_iff (hentries : top.at? r = some (.directory entries))
    (hdistinct : (entries.map Prod.fst).Nodup) :
    o.Visible top p r [name] ↔ ∃ e ∈ entries.filter (o.isOwn top p), e.1 = name := by
  have hat := Node.at?_append_singleton hentries name
  rw [visible_singleton_iff]
  simp only [Node.formAt_eq_file_iff, Node.formAt_eq_link_iff, hat,
    Entries.lookup_eq_some_iff hdistinct]
  constructor
  · rintro ⟨hname, ⟨content, hmem⟩ | ⟨target, hmem, hdirectory⟩⟩
    · exact ⟨_, List.mem_filter.mpr ⟨hmem, isOwn_iff.mpr ⟨hname, .inl ⟨content, rfl⟩⟩⟩, rfl⟩
    · exact ⟨_, List.mem_filter.mpr ⟨hmem, isOwn_iff.mpr ⟨hname, .inr ⟨target, rfl, hdirectory⟩⟩⟩,
        rfl⟩
  · rintro ⟨⟨name, node⟩, he, rfl⟩
    obtain ⟨hmem, hown⟩ := List.mem_filter.mp he
    obtain ⟨hname, ⟨content, rfl⟩ | ⟨target, rfl, hdirectory⟩⟩ := isOwn_iff.mp hown
    · exact ⟨hname, .inl ⟨content, hmem⟩⟩
    · exact ⟨hname, .inr ⟨target, hmem, hdirectory⟩⟩

theorem Visible.formAt (h : o.Visible top p r l) : ∃ f, top.formAt (r ++ l) = some f := by
  obtain ⟨_, _, _, _, _, ⟨content, hf⟩ | ⟨target, hf, _⟩⟩ := h
  · exact ⟨_, hf⟩
  · exact ⟨_, hf⟩

/-- The other visible files are visible in a directory that is walked. -/
theorem visible_walked_iff (hentries : top.at? r = some (.directory entries))
    (hdistinct : (entries.map Prod.fst).Nodup) (hl : l ≠ []) :
    o.Visible top p r (name :: l) ↔ ∃ e ∈ entries.filter o.isWalked, e.1 = name ∧
      o.Visible top (p.join ⟨name⟩) (r ++ [name]) l := by
  rw [visible_cons_iff hl]
  constructor
  · rintro ⟨henters, hvisible⟩
    -- Something stands below the entry, so it is a directory and no link to one.
    obtain ⟨f, hf⟩ := hvisible.formAt
    obtain ⟨first, rest, rfl⟩ := List.exists_cons_of_ne_nil hl
    have hdirectory : ∃ below, top.at? (r ++ [name]) = some (.directory below) := by
      obtain ⟨node, hnode, _⟩ := Node.formAt_eq_some_iff.mp hf
      rw [Node.at?_append, Option.bind_eq_some_iff] at hnode
      obtain ⟨holder, hholder, hnode⟩ := hnode
      cases holder with
      | directory below => exact ⟨below, hholder⟩
      | file | link => exact absurd hnode (by simp)
    obtain ⟨below, hbelow⟩ := hdirectory
    rw [Node.at?_append_singleton hentries, Entries.lookup_eq_some_iff hdistinct] at hbelow
    exact ⟨_, List.mem_filter.mpr ⟨hbelow, by simp [isWalked, Node.isDirectory, henters]⟩, rfl,
      hvisible⟩
  · rintro ⟨⟨name, node⟩, he, rfl, hvisible⟩
    have hwalked := (List.mem_filter.mp he).2
    rw [isWalked, Bool.and_eq_true] at hwalked
    exact ⟨hwalked.2, hvisible⟩

theorem Visible.isName (h : o.Visible top p r l) {node : Node} (hnode : top.at? r = some node)
    (hwellFormed : node.WellFormed) : ∀ n ∈ l, IsName n := by
  obtain ⟨f, hf⟩ := h.formAt
  exact hwellFormed.isName_of_formAt hnode hf

end Options

end Marginalia
