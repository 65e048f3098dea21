import Marginalia.Proofs.Files.Lookup
import Marginalia.Proofs.Files.Path

/-! Trees as a file system keeps them. The entries of a directory have different names, and each
name is one that a path can spell; writing keeps it so. -/
namespace Marginalia

namespace Entries

variable {entries : Entries} {name other : String} {node : Node}

theorem mem_of_lookup (h : entries.lookup name = some node) : (name, node) ∈ entries := by
  induction entries with
  | nil => exact absurd h (by simp)
  | cons e rest ih =>
    rw [List.lookup_cons] at h
    by_cases heq : name = e.1
    · rw [heq, beq_self_eq_true] at h
      rw [heq, ← Option.some.inj h]
      exact List.mem_cons_self
    · rw [beq_false_of_ne heq] at h
      exact List.mem_cons_of_mem e (ih h)

/-- Where names differ, an entry is found under its name. -/
theorem lookup_eq_some_iff (hdistinct : (entries.map Prod.fst).Nodup) :
    entries.lookup name = some node ↔ (name, node) ∈ entries := by
  refine ⟨mem_of_lookup, fun h => ?_⟩
  induction entries with
  | nil => exact absurd h (by simp)
  | cons e rest ih =>
    rw [List.map_cons, List.nodup_cons] at hdistinct
    rw [List.lookup_cons]
    rcases List.mem_cons.mp h with rfl | h
    · rw [beq_self_eq_true]
    · have hne : name ≠ e.1 := by
        rintro rfl
        exact hdistinct.1 (List.mem_map.mpr ⟨_, h, rfl⟩)
      rw [beq_false_of_ne hne]
      exact ih hdistinct.2 h

theorem mem_insert {e : String × Node} (h : e ∈ entries.insert name node) :
    e = (name, node) ∨ e ∈ entries := by
  induction entries with
  | nil => exact .inl (List.mem_singleton.mp h)
  | cons first rest ih =>
    rw [insert] at h
    split at h
    · exact (List.mem_cons.mp h).imp_right (List.mem_cons_of_mem first)
    · rcases List.mem_cons.mp h with rfl | h
      · exact .inr List.mem_cons_self
      · exact (ih h).imp_right (List.mem_cons_of_mem first)

theorem nodup_insert (h : (entries.map Prod.fst).Nodup) (name : String) (node : Node) :
    ((entries.insert name node).map Prod.fst).Nodup := by
  induction entries with
  | nil => simp [insert]
  | cons first rest ih =>
    rw [List.map_cons, List.nodup_cons] at h
    rw [insert]
    split
    · next heq =>
      rw [List.map_cons, List.nodup_cons]
      exact ⟨heq ▸ h.1, h.2⟩
    · next hne =>
      rw [List.map_cons, List.nodup_cons]
      refine ⟨fun hmem => ?_, ih h.2⟩
      obtain ⟨e, he, hfirst⟩ := List.mem_map.mp hmem
      rcases mem_insert he with rfl | he
      · exact hne hfirst.symm
      · exact h.1 (List.mem_map.mpr ⟨e, he, hfirst⟩)

end Entries

/-- A tree in which names are names, differ within a directory, and link targets are texts that a
system call can take. -/
inductive Node.WellFormed : Node → Prop
  | file (content : List UInt8) : WellFormed (.file content)
  | link {target : Path} (plain : Char.ofNat 0 ∉ target.text.toList) : WellFormed (.link target)
  | directory {entries : List (String × Node)} (distinct : (entries.map Prod.fst).Nodup)
      (named : ∀ e ∈ entries, IsName e.1) (below : ∀ e ∈ entries, WellFormed e.2) :
      WellFormed (.directory entries)

/-- The names of a path that can be followed are names, as far as they are short enough. -/
theorem Path.isName_of_mem_steps {p : Path} {name : String} (hp : Char.ofNat 0 ∉ p.text.toList)
    (h : PathStep.into name ∈ p.steps)
    (hshort : Text.byteLength name.toList ≤ Node.longestName) : IsName name := by
  obtain ⟨s, hs, hstep⟩ := List.mem_map.mp h
  obtain ⟨hs, hempty⟩ := List.mem_filter.mp hs
  split at hstep
  · exact absurd hstep (by simp)
  · next hhere =>
    split at hstep
    · exact absurd hstep (by simp)
    · next hup =>
      obtain rfl := PathStep.into.inj hstep
      exact {
        nonempty := by simpa using hempty
        ne_here := hhere
        ne_up := hup
        noSlash := p.segments_valid.noSlash s hs
        plain := fun hmem => hp (Path.mem_of_mem_segment hs hmem).1
        short := hshort }

namespace Node

variable {top node new : Node} {l d : Location} {name : String} {entries : Entries}
  {purpose : Purpose} {p : Path}

theorem WellFormed.of_at? (h : top.WellFormed) (hl : top.at? l = some node) :
    node.WellFormed ∧ ∀ n ∈ l, IsName n := by
  induction l generalizing top with
  | nil =>
    rw [at?_nil, Option.some.injEq] at hl
    exact ⟨hl ▸ h, by simp⟩
  | cons first l ih =>
    cases h with
    | file | link => exact absurd hl (by simp)
    | directory _ named below =>
      rw [at?_directory_cons, Option.bind_eq_some_iff] at hl
      obtain ⟨child, hchild, hl⟩ := hl
      have hmem := Entries.mem_of_lookup hchild
      obtain ⟨hnode, hnames⟩ := ih (below _ hmem) hl
      refine ⟨hnode, fun n hn => ?_⟩
      rcases List.mem_cons.mp hn with rfl | hn
      · exact named _ hmem
      · exact hnames n hn

/-- What stands below a node is reached by names. -/
theorem WellFormed.isName_of_formAt {r : Location} {f : Form} (h : node.WellFormed)
    (hr : top.at? r = some node) (hf : top.formAt (r ++ l) = some f) : ∀ n ∈ l, IsName n := by
  obtain ⟨found, hfound, -⟩ := formAt_eq_some_iff.mp hf
  rw [at?_append, hr] at hfound
  exact (h.of_at? hfound).2

theorem WellFormed.insert (h : (Node.directory entries).WellFormed) (hname : IsName name)
    (hnode : node.WellFormed) : (Node.directory (Entries.insert entries name node)).WellFormed := by
  cases h with
  | directory distinct named below =>
    refine .directory (Entries.nodup_insert distinct name node) ?_ ?_
    · intro e he
      rcases Entries.mem_insert he with rfl | he
      · exact hname
      · exact named e he
    · intro e he
      rcases Entries.mem_insert he with rfl | he
      · exact hnode
      · exact below e he

theorem WellFormed.put (h : top.WellFormed) (hnew : new.WellFormed) (hl : ∀ n ∈ l, IsName n) :
    (top.put l new).WellFormed := by
  induction l generalizing top with
  | nil => exact hnew
  | cons first l ih =>
    have hfirst := hl first List.mem_cons_self
    cases top with
    | file | link => exact h
    | directory entries =>
      cases hchild : entries.lookup first with
      | some child =>
        simp only [Node.put, hchild]
        refine h.insert hfirst (ih ?_ fun n hn => hl n (List.mem_cons_of_mem first hn))
        cases h with
        | directory _ _ below => exact below _ (Entries.mem_of_lookup hchild)
      | none =>
        cases l with
        | nil =>
          simp only [Node.put, hchild]
          exact h.insert hfirst hnew
        | cons =>
          simp only [Node.put, hchild]
          exact h

theorem wellFormed_emptyDirectory : (Node.directory []).WellFormed :=
  .directory (by simp) (by simp) (by simp)

end Node

namespace Route

variable {top : Node} {purpose : Purpose} {links : Nat} {slash : Bool} {l d : Location}
  {name : String} {steps : List PathStep} {place : Place}

/-- A free name that is reached is a name. -/
theorem isName_of_free (h : Route top purpose links slash l steps place)
    (hplace : place = .free d name) (htop : top.WellFormed)
    (hsteps : ∀ n, .into n ∈ steps → Text.byteLength n.toList ≤ Node.longestName → IsName n) :
    IsName name := by
  induction h with
  | done | keep => exact absurd hplace (by simp)
  | free _ hname =>
    obtain ⟨-, rfl⟩ := Place.free.inj hplace
    exact hsteps _ List.mem_cons_self hname
  | stay _ _ ih | up _ _ ih | enter _ _ _ _ _ ih =>
    exact ih hplace fun n hn => hsteps n (List.mem_cons_of_mem _ hn)
  | link _ hf _ _ _ ih =>
    refine ih hplace fun n hn hshort => ?_
    rcases List.mem_append.mp hn with hn | hn
    · have htarget := (htop.of_at? (Node.formAt_eq_link_iff.mp hf)).1
      cases htarget with
      | link plain => exact Path.isName_of_mem_steps plain hn hshort
    · exact hsteps n (List.mem_cons_of_mem _ hn) hshort

end Route

namespace Node

variable {top new old : Node} {l d : Location} {name : String} {purpose : Purpose} {p : Path}

/-- Writing under a free name that a path leads to keeps a tree well-formed. -/
theorem WellFormed.put_of_locate_free (h : top.WellFormed)
    (hfree : top.locate purpose p = .ok (.free d name)) (hnew : new.WellFormed) :
    (top.put (d ++ [name]) new).WellFormed := by
  obtain ⟨hfollow, hroute⟩ := locate_eq_ok_iff.mp hfree
  obtain ⟨entries, hentries⟩ := formAt_eq_directory_iff.mp (locate_free_spec hfree).1
  refine h.put hnew fun n hn => ?_
  rcases List.mem_append.mp hn with hn | hn
  · exact (h.of_at? hentries).2 n hn
  · rw [List.mem_singleton.mp hn]
    exact hroute.isName_of_free rfl h fun n hn hshort =>
      Path.isName_of_mem_steps hfollow.plain hn hshort

theorem WellFormed.put_of_at? (h : top.WellFormed) (hl : top.at? l = some old)
    (hnew : new.WellFormed) : (top.put l new).WellFormed :=
  h.put hnew (h.of_at? hl).2

end Node

end Marginalia
