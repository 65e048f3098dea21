import Marginalia.Files.Tree
import Mathlib.Data.List.Basic

/-! Looking at a tree after a change. A location shows a form: a file with its bytes, a link with
its target, or a directory. Putting a node somewhere leaves the form of every location that is not
below that place. -/
namespace Marginalia

/-- What stands at a location, the entries of a directory left out. -/
inductive Form where
  | file (content : List UInt8)
  | link (target : Path)
  | directory
deriving DecidableEq

namespace Entries

theorem lookup_insert (entries : Entries) (name other : String) (node : Node) :
    (entries.insert name node).lookup other =
      if other = name then some node else entries.lookup other := by
  induction entries with
  | nil =>
    rw [insert, List.lookup_cons]
    by_cases h : other = name
    · simp [h]
    · simp [h, beq_false_of_ne h]
  | cons e rest ih =>
    rw [insert]
    split
    · next heq =>
      rw [List.lookup_cons, List.lookup_cons, heq]
      by_cases h : other = name
      · simp [h]
      · simp [h, beq_false_of_ne h]
    · next hne =>
      rw [List.lookup_cons, List.lookup_cons, ih]
      by_cases h : other = name
      · rw [if_pos h, if_pos h, beq_false_of_ne fun heq => hne (heq.symm.trans h)]
      · rw [if_neg h, if_neg h]

theorem insert_eq_self {entries : Entries} {name : String} {node : Node}
    (h : entries.lookup name = some node) : entries.insert name node = entries := by
  induction entries with
  | nil => exact absurd h (by simp)
  | cons e rest ih =>
    rw [insert]
    rw [List.lookup_cons] at h
    split
    · next heq =>
      rw [heq, beq_self_eq_true] at h
      rw [← heq, ← Option.some.inj h]
    · next hne =>
      rw [beq_false_of_ne (Ne.symm hne)] at h
      rw [ih h]

/-- Of two nodes under one name the later one is left, in the same place. -/
theorem insert_insert (entries : Entries) (name : String) (first last : Node) :
    (entries.insert name first).insert name last = entries.insert name last := by
  induction entries with
  | nil => simp [insert]
  | cons e rest ih =>
    by_cases h : e.1 = name
    · simp [insert, h]
    · simp [insert, h, ih]

end Entries

namespace Node

def form : Node → Form
  | .file content => .file content
  | .link target => .link target
  | .directory _ => .directory

/-- What stands at a location, if anything does. -/
def formAt (top : Node) (l : Location) : Option Form := (top.at? l).map form

variable {top node old : Node} {entries : Entries} {l d m : Location} {name : String}

@[simp]
theorem at?_nil (top : Node) : top.at? [] = some top := by
  cases top <;> rfl

@[simp]
theorem at?_directory_cons (entries : Entries) (name : String) (l : Location) :
    (Node.directory entries).at? (name :: l) = (entries.lookup name).bind fun n => n.at? l := by
  rw [at?]
  cases entries.lookup name <;> rfl

@[simp]
theorem at?_file_cons (content : List UInt8) (name : String) (l : Location) :
    (Node.file content).at? (name :: l) = none := rfl

@[simp]
theorem at?_link_cons (target : Path) (name : String) (l : Location) :
    (Node.link target).at? (name :: l) = none := rfl

theorem at?_append (top : Node) (l m : Location) :
    top.at? (l ++ m) = (top.at? l).bind fun n => n.at? m := by
  induction l generalizing top with
  | nil => simp
  | cons name l ih =>
    cases top with
    | directory entries => cases h : entries.lookup name <;> simp [h, ih]
    | file | link => simp

theorem at?_append_singleton (h : top.at? d = some (.directory entries)) (name : String) :
    top.at? (d ++ [name]) = entries.lookup name := by
  rw [at?_append, h]
  simp

/-- What holds an entry is a directory. -/
theorem directory_of_at?_append_singleton (h : top.at? (d ++ [name]) = some node) :
    ∃ entries, top.at? d = some (.directory entries) := by
  rw [at?_append, Option.bind_eq_some_iff] at h
  obtain ⟨holder, hd, hn⟩ := h
  cases holder with
  | directory entries => exact ⟨entries, hd⟩
  | file | link => exact absurd hn (by simp)

theorem formAt_eq_some_iff {f : Form} :
    top.formAt l = some f ↔ ∃ n, top.at? l = some n ∧ n.form = f :=
  Option.map_eq_some_iff

theorem form_eq_file_iff {content : List UInt8} :
    node.form = .file content ↔ node = .file content := by
  cases node <;> simp [form]

theorem form_eq_link_iff {target : Path} : node.form = .link target ↔ node = .link target := by
  cases node <;> simp [form]

theorem form_eq_directory_iff : node.form = .directory ↔ ∃ entries, node = .directory entries := by
  cases node <;> simp [form]

theorem formAt_eq_file_iff {content : List UInt8} :
    top.formAt l = some (.file content) ↔ top.at? l = some (.file content) := by
  simp only [formAt_eq_some_iff, form_eq_file_iff, exists_eq_right]

theorem formAt_eq_link_iff {target : Path} :
    top.formAt l = some (.link target) ↔ top.at? l = some (.link target) := by
  simp only [formAt_eq_some_iff, form_eq_link_iff, exists_eq_right]

theorem formAt_eq_directory_iff :
    top.formAt l = some .directory ↔ ∃ entries, top.at? l = some (.directory entries) := by
  simp only [formAt_eq_some_iff, form_eq_directory_iff]
  constructor
  · rintro ⟨n, hn, entries, rfl⟩
    exact ⟨entries, hn⟩
  · rintro ⟨entries, hn⟩
    exact ⟨_, hn, entries, rfl⟩

theorem formAt_eq_none_iff : top.formAt l = none ↔ top.at? l = none := Option.map_eq_none_iff

theorem put_eq_self (h : top.at? l = some node) : top.put l node = top := by
  induction l generalizing top with
  | nil =>
    rw [at?_nil, Option.some.injEq] at h
    rw [put, h]
  | cons name l ih =>
    cases top with
    | directory entries =>
      rw [at?_directory_cons, Option.bind_eq_some_iff] at h
      obtain ⟨child, hchild, hl⟩ := h
      simp only [put, hchild, ih hl, Entries.insert_eq_self hchild]
    | file | link => exact absurd h (by simp)

/-- Of two nodes put at one location the later one is left. -/
theorem put_put (top : Node) (l : Location) (first last : Node) :
    (top.put l first).put l last = top.put l last := by
  induction l generalizing top with
  | nil => rw [put, put]
  | cons name l ih =>
    cases top with
    | file | link => rfl
    | directory entries =>
      cases hchild : entries.lookup name with
      | some child =>
        simp only [put, hchild, Entries.lookup_insert, if_pos, Entries.insert_insert, ih]
      | none =>
        cases l with
        | nil => simp only [put, hchild, Entries.lookup_insert, if_pos, Entries.insert_insert]
        | cons => simp only [put, hchild]

/-- Where a node stood, the new one stands with all that is below it. -/
theorem at?_put_append_of_at? (h : top.at? l = some old) (new : Node) (m : Location) :
    (top.put l new).at? (l ++ m) = new.at? m := by
  induction l generalizing top with
  | nil => rw [put, List.nil_append]
  | cons name l ih =>
    cases top with
    | directory entries =>
      rw [at?_directory_cons, Option.bind_eq_some_iff] at h
      obtain ⟨child, hchild, hl⟩ := h
      simp only [put, hchild, List.cons_append, at?_directory_cons, Entries.lookup_insert, if_pos,
        Option.bind_some, ih hl]
    | file | link => exact absurd h (by simp)

/-- A directory takes a new entry under any name. -/
theorem at?_put_append_of_directory (h : top.at? d = some (.directory entries)) (name : String)
    (new : Node) (m : Location) :
    (top.put (d ++ [name]) new).at? (d ++ [name] ++ m) = new.at? m := by
  induction d generalizing top with
  | nil =>
    rw [at?_nil, Option.some.injEq] at h
    rw [h, List.nil_append]
    cases hchild : entries.lookup name <;>
      simp [put, hchild, Entries.lookup_insert]
  | cons first d ih =>
    cases top with
    | directory es =>
      rw [at?_directory_cons, Option.bind_eq_some_iff] at h
      obtain ⟨child, hchild, hd⟩ := h
      simp only [put, hchild, List.cons_append, at?_directory_cons, Entries.lookup_insert, if_pos,
        Option.bind_some, ih hd]
    | file | link => exact absurd h (by simp)

theorem form_put_of_ne_nil (h : l ≠ []) (new : Node) : (top.put l new).form = top.form := by
  cases l with
  | nil => exact absurd rfl h
  | cons name l =>
    cases top with
    | directory entries =>
      cases hchild : entries.lookup name <;> cases l <;> simp [put, hchild, form]
    | file | link => rfl

/-- The frame of a change: no form changes at a location that is not below the place of the
change. -/
theorem formAt_put_of_not_isPrefix (h : ¬ l <+: m) (new : Node) :
    (top.put l new).formAt m = top.formAt m := by
  induction l generalizing top m with
  | nil => exact absurd List.nil_prefix h
  | cons name l ih =>
    cases m with
    | nil => simp [formAt, form_put_of_ne_nil]
    | cons other m =>
      cases top with
      | file | link => rfl
      | directory entries =>
        have hlm : other = name → ¬ l <+: m := fun heq hpre =>
          h (List.cons_prefix_cons.mpr ⟨heq.symm, hpre⟩)
        unfold formAt at ih ⊢
        cases hchild : entries.lookup name with
        | some child =>
          simp only [put, hchild, at?_directory_cons, Entries.lookup_insert]
          split
          · next heq =>
            have hput : ((child.put l new).at? m).map form = (child.at? m).map form := ih (hlm heq)
            simpa [heq, hchild] using hput
          · rfl
        | none =>
          cases l with
          | nil =>
            have hne : other ≠ name := fun heq => hlm heq List.nil_prefix
            simp only [put, hchild, at?_directory_cons, Entries.lookup_insert, if_neg hne]
          | cons => simp only [put, hchild]

/-- A node without anything below it. -/
def IsLeaf (n : Node) : Prop := ∀ l, l ≠ [] → n.at? l = none

theorem isLeaf_file (content : List UInt8) : IsLeaf (.file content) := by
  intro l hl
  cases l with
  | nil => exact absurd rfl hl
  | cons => rfl

theorem isLeaf_link (target : Path) : IsLeaf (.link target) := by
  intro l hl
  cases l with
  | nil => exact absurd rfl hl
  | cons => rfl

theorem isLeaf_emptyDirectory : IsLeaf (.directory []) := by
  intro l hl
  cases l with
  | nil => exact absurd rfl hl
  | cons => rfl

theorem IsLeaf.formAt_append (hn : node.IsLeaf) (h : top.at? l = some node) (hm : m ≠ []) :
    top.formAt (l ++ m) = none := by
  rw [formAt_eq_none_iff, at?_append, h]
  exact hn m hm

/-- A leaf in the place of a leaf changes one form. -/
theorem formAt_put_of_at? {new : Node} (h : top.at? l = some old) (hold : old.IsLeaf)
    (hnew : new.IsLeaf) (m : Location) :
    (top.put l new).formAt m = if m = l then some new.form else top.formAt m := by
  by_cases hpre : l <+: m
  · obtain ⟨r, rfl⟩ := hpre
    by_cases hr : r = []
    · rw [hr, List.append_nil, if_pos rfl, formAt]
      have hput := at?_put_append_of_at? h new []
      rw [List.append_nil, at?_nil] at hput
      rw [hput]
      rfl
    · rw [if_neg (by simpa using hr), hold.formAt_append h hr, formAt_eq_none_iff,
        at?_put_append_of_at? h, hnew r hr]
  · rw [formAt_put_of_not_isPrefix hpre, if_neg]
    exact fun heq => hpre (heq ▸ List.prefix_refl m)

/-- A leaf under a free name changes one form. -/
theorem formAt_put_of_free {new : Node} (hd : top.at? d = some (.directory entries))
    (hfree : entries.lookup name = none) (hnew : new.IsLeaf) (m : Location) :
    (top.put (d ++ [name]) new).formAt m =
      if m = d ++ [name] then some new.form else top.formAt m := by
  by_cases hpre : d ++ [name] <+: m
  · obtain ⟨r, rfl⟩ := hpre
    have hput := at?_put_append_of_directory hd name new r
    by_cases hr : r = []
    · rw [hr, List.append_nil, at?_nil] at hput
      rw [hr, List.append_nil, if_pos rfl, formAt, hput]
      rfl
    · have hnone : top.at? (d ++ [name]) = none := by rw [at?_append_singleton hd, hfree]
      rw [if_neg (by simpa using hr), formAt_eq_none_iff.mpr (hput.trans (hnew r hr)), eq_comm,
        formAt_eq_none_iff, at?_append, hnone]
      rfl
  · rw [formAt_put_of_not_isPrefix hpre, if_neg]
    exact fun heq => hpre (heq ▸ List.prefix_refl m)

end Node

end Marginalia
