import Marginalia.Proofs.Scan.Visible

/-! The walk of a whole directory. Its visible files stand in one list, in the order of the walk,
and what the walk reads is read from that list: what it leaves out cannot be read. -/
namespace Marginalia

/-- Leaving out what brings nothing changes nothing. -/
theorem flatMap_filter_of_eq_nil {α β : Type} {keep : α → Bool} {F : α → List β} {xs : List α}
    (h : ∀ x ∈ xs, keep x = false → F x = []) : (xs.filter keep).flatMap F = xs.flatMap F := by
  induction xs with
  | nil => rfl
  | cons x xs ih =>
    rw [List.forall_mem_cons] at h
    rw [List.flatMap_cons, ← ih h.2]
    cases hx : keep x with
    | true => rw [List.filter_cons_of_pos hx, List.flatMap_cons]
    | false => rw [List.filter_cons_of_neg (by simp [hx]), h.1 hx, List.nil_append]

namespace Options

variable {o : Options} {top node : Node} {p : Path} {r : Location}

/-- What a list of locations is for a walk: all visible ones, in order. -/
structure Lists (o : Options) (top : Node) (p : Path) (r : Location) (ls : List Location) :
    Prop where
  mem : ∀ l, l ∈ ls ↔ o.Visible top p r l
  ordered : ls.Pairwise Precedes

theorem Lists.ne_nil {ls : List Location} (h : o.Lists top p r ls) {l : Location} (hl : l ∈ ls) :
    l ≠ [] := by
  rintro rfl
  exact not_visible_nil ((h.mem []).mp hl)

/-- The locations of a directory from those of its own files and of the directories below it. -/
theorem lists_of_entries {entries own walked : Entries} {walk : String × Node → List Location}
    (hentries : top.at? r = some (.directory entries))
    (hdistinct : (entries.map Prod.fst).Nodup)
    (hown : own = Entries.byName (entries.filter (o.isOwn top p)))
    (hwalked : walked = Entries.byName (entries.filter o.isWalked))
    (hwalk : ∀ e ∈ walked, o.Lists top (p.join ⟨e.1⟩) (r ++ [e.1]) (walk e)) :
    o.Lists top p r (own.map (fun e => [e.1]) ++
      walked.flatMap fun e => (walk e).map (e.1 :: ·)) where
  mem l := by
    have hkeys (l : Location) : l ∈ own.map (fun e => [e.1]) ↔
        ∃ e ∈ entries.filter (o.isOwn top p), [e.1] = l := by
      simp only [List.mem_map, hown, Entries.mem_byName]
    rw [List.mem_append, List.mem_flatMap, hkeys]
    rcases l with _ | ⟨name, _ | ⟨second, rest⟩⟩
    · refine ⟨?_, fun h => absurd h not_visible_nil⟩
      rintro (⟨e, _, heq⟩ | ⟨e, _, hl⟩)
      · exact absurd heq (by simp)
      · exact absurd hl (by simp)
    · rw [visible_own_iff hentries hdistinct]
      constructor
      · rintro (⟨e, he, heq⟩ | ⟨e, he, hl⟩)
        · exact ⟨e, he, (List.cons.inj heq).1⟩
        · obtain ⟨l, hl, heq⟩ := List.mem_map.mp hl
          exact absurd (List.cons.inj heq).2 ((hwalk e he).ne_nil hl)
      · rintro ⟨e, he, rfl⟩
        exact .inl ⟨e, he, rfl⟩
    · rw [visible_walked_iff hentries hdistinct (by simp)]
      constructor
      · rintro (⟨e, _, heq⟩ | ⟨e, he, hl⟩)
        · exact absurd heq (by simp)
        · obtain ⟨l, hl, heq⟩ := List.mem_map.mp hl
          obtain ⟨rfl, rfl⟩ := List.cons.inj heq
          exact ⟨e, Entries.mem_byName.mp (hwalked ▸ he), rfl, ((hwalk e he).mem _).mp hl⟩
      · rintro ⟨e, he, rfl, hvisible⟩
        have he' : e ∈ walked := hwalked ▸ Entries.mem_byName.mpr he
        exact .inr ⟨e, he', List.mem_map.mpr ⟨_, ((hwalk e he').mem _).mpr hvisible, rfl⟩⟩
  ordered := by
    -- Own files among themselves, each subdirectory within, subdirectories among themselves, and
    -- own files before subdirectories.
    rw [List.pairwise_append, List.pairwise_map, List.pairwise_flatMap]
    refine ⟨?_, ⟨?_, ?_⟩, ?_⟩
    · rw [hown]
      exact (Entries.pairwise_byName (Entries.nodup_filter hdistinct _)).imp Precedes.file
    · intro e he
      rw [List.pairwise_map]
      exact (hwalk e he).ordered.imp Precedes.inside
    · rw [hwalked]
      refine (Entries.pairwise_byName (Entries.nodup_filter hdistinct _)).imp_of_mem ?_
      intro a b ha hb hab l hl m hm
      obtain ⟨l', hl', rfl⟩ := List.mem_map.mp hl
      obtain ⟨m', hm', rfl⟩ := List.mem_map.mp hm
      exact .directory hab ((hwalk a (hwalked ▸ ha)).ne_nil hl')
        ((hwalk b (hwalked ▸ hb)).ne_nil hm')
    · intro l hl m hm
      obtain ⟨a, _, rfl⟩ := List.mem_map.mp hl
      obtain ⟨e, he, hm⟩ := List.mem_flatMap.mp hm
      obtain ⟨m', hm', rfl⟩ := List.mem_map.mp hm
      exact .deeper ((hwalk e he).ne_nil hm')

/-- Whether the directory of a location below a path can be listed by its path. -/
def opens (p : Path) (l : Location) : Bool :=
  decide (Text.byteLength (p.below l.dropLast).text.toList ≤ Node.longestPath)

theorem opens_singleton (p : Path) (name : String) :
    opens p [name] = decide (Text.byteLength p.text.toList ≤ Node.longestPath) := rfl

theorem opens_cons (p : Path) (name : String) {l : Location} (hl : l ≠ []) :
    opens p (name :: l) = opens (p.join ⟨name⟩) l := by
  rw [opens, List.dropLast_cons_of_ne_nil hl, Path.below_cons, opens]

/-- The path of a file is not shorter than that of its directory. -/
theorem longestPath_lt_of_opens {l : Location} (hnames : ∀ n ∈ l, IsName n)
    (h : opens p l = false) :
    Node.longestPath < Text.byteLength (p.below l).text.toList := by
  rw [opens, decide_eq_false_iff_not, Nat.not_le] at h
  apply h.trans_le
  rcases List.eq_nil_or_concat' l with rfl | ⟨directories, name, rfl⟩
  · exact le_rfl
  · rw [List.dropLast_concat, Path.below_append]
    exact Path.byteLength_join _ (hnames name (by simp))

/-- Nothing below a path that is too long is opened, since what is below is longer. -/
theorem opens_of_long {l : Location} (hlong : Node.longestPath < Text.byteLength p.text.toList)
    (hnames : ∀ n ∈ l, IsName n) : opens p l = false := by
  have hbelow := Path.byteLength_below p fun n hn => hnames n (List.dropLast_subset l hn)
  rw [opens, decide_eq_false_iff_not]
  omega

/-- The visible files of a directory stand in one list. The files of the walk are those of the list
whose directories can be listed. -/
theorem exists_files (o : Options) (hnode : node.WellFormed) {entries : Entries}
    (hentries : node = .directory entries) (hat : top.at? r = some node)
    (hreaches : Reaches top p r node) :
    ∃ ls, o.Lists top p r ls ∧
      (o.inventory top p node).files = (ls.filter (opens p)).map p.below := by
  -- The induction is on the tree. The list is found below each subdirectory first.
  induction hnode generalizing p r entries with
  | file | link => exact absurd hentries (by simp)
  | @directory entries' distinct named below ih =>
    set own := Entries.byName (entries'.filter (o.isOwn top p)) with hown
    set walked := Entries.byName (entries'.filter o.isWalked) with hwalked
    have hbelow : ∀ e ∈ walked, ∃ ls, o.Lists top (p.join ⟨e.1⟩) (r ++ [e.1]) ls ∧
        (o.inventory top (p.join ⟨e.1⟩) e.2).files =
          (ls.filter (opens (p.join ⟨e.1⟩))).map (p.join ⟨e.1⟩).below := by
      rintro ⟨name, child⟩ he
      obtain ⟨hmem, hkept⟩ := List.mem_filter.mp (Entries.mem_byName.mp he)
      have hlookup := (Entries.lookup_eq_some_iff distinct).mpr hmem
      rw [isWalked, Bool.and_eq_true] at hkept
      cases child with
      | file | link => exact absurd hkept.1 (by simp [Node.isDirectory])
      | directory deeper =>
        refine ih _ hmem rfl ?_ (hreaches.join (named _ hmem) hlookup (by simp))
        rw [Node.at?_append_singleton hat, hlookup]
    choose! walk hwalk hfiles using hbelow
    have hlists := lists_of_entries hat distinct hown hwalked hwalk
    refine ⟨_, hlists, ?_⟩
    by_cases hshort : Text.byteLength p.text.toList ≤ Node.longestPath
    · obtain ⟨listed, hlist⟩ := hreaches.exists_list_iff.mpr hshort
      rw [files_inventory hlist hreaches.nonempty named, List.filter_append, List.map_append]
      congr 1
      · -- Own files stand in the directory itself.
        have hkept : ∀ l ∈ own.map (fun e => [e.1]), opens p l = true := by
          rw [List.forall_mem_map]
          intro e _
          rw [opens_singleton]
          exact decide_eq_true hshort
        rw [List.filter_eq_self.mpr hkept, List.map_map]
        rfl
      · rw [List.filter_flatMap, List.map_flatMap]
        apply List.flatMap_congr
        intro e he
        have hopens : ∀ l ∈ walk e, (opens p ∘ (e.1 :: ·)) l = opens (p.join ⟨e.1⟩) l :=
          fun l hl => opens_cons p e.1 ((hwalk e he).ne_nil hl)
        rw [hfiles e he, List.filter_map, List.filter_congr hopens, List.map_map]
        rfl
    · have hlong := Nat.not_le.mp hshort
      have hfiles : (o.inventory top p (.directory entries')).files = [] := by
        cases hlist : top.list p with
        | ok listed => exact absurd (hreaches.exists_list_iff.mp ⟨listed, hlist⟩) hshort
        | error cause =>
          rw [inventory]
          simp only [hlist]
      rw [hfiles, List.filter_eq_nil_iff.mpr, List.map_nil]
      intro l hl
      have hnames := ((hlists.mem l).mp hl).isName hat (.directory distinct named below)
      simp [opens_of_long hlong hnames]

/-- The visible files of a directory stand in one list, from which the walk reads everything that
it can read. -/
theorem exists_lists (o : Options) (α : Type) (hnode : node.WellFormed) {entries : Entries}
    (hentries : node = .directory entries) (hat : top.at? r = some node)
    (hreaches : Reaches top p r node) :
    ∃ ls, o.Lists top p r ls ∧ ∀ F : Path → List α,
      (∀ file, Node.longestPath < Text.byteLength file.text.toList → F file = []) →
        (o.inventory top p node).files.flatMap F = ls.flatMap fun l => F (p.below l) := by
  obtain ⟨ls, hlists, hfiles⟩ := exists_files o hnode hentries hat hreaches
  refine ⟨ls, hlists, ?_⟩
  intro F hF
  rw [hfiles, List.flatMap_map]
  apply flatMap_filter_of_eq_nil
  intro l hl hclosed
  subst hentries
  exact hF _ (longestPath_lt_of_opens (((hlists.mem l).mp hl).isName hat hnode) hclosed)

end Options

end Marginalia
