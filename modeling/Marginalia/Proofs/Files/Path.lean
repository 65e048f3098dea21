import Marginalia.Files.Lookup
import Marginalia.Proofs.Text.Lines
import Mathlib.Data.List.Basic

/-! Paths by their segments. A path is its segments with slashes between them, behind a slash when
it is absolute; joining, parents and prefixes are read off the segments. -/
namespace Marginalia

/-- A name that an entry of a directory can have. -/
structure IsName (n : String) : Prop where
  nonempty : n ≠ ""
  ne_here : n ≠ "."
  ne_up : n ≠ ".."
  noSlash : '/' ∉ n.toList
  plain : Char.ofNat 0 ∉ n.toList
  short : Text.byteLength n.toList ≤ Node.longestName

instance (n : String) : Decidable (IsName n) :=
  decidable_of_iff (n ≠ "" ∧ n ≠ "." ∧ n ≠ ".." ∧ '/' ∉ n.toList ∧ Char.ofNat 0 ∉ n.toList ∧
      Text.byteLength n.toList ≤ Node.longestName)
    ⟨fun ⟨h₁, h₂, h₃, h₄, h₅, h₆⟩ => ⟨h₁, h₂, h₃, h₄, h₅, h₆⟩,
      fun ⟨h₁, h₂, h₃, h₄, h₅, h₆⟩ => ⟨h₁, h₂, h₃, h₄, h₅, h₆⟩⟩

namespace Path

variable {p q : Path} {absolute : Bool} {segments more : List String} {name : String}

theorem splitSlash_eq_splitOn (s : List Char) : splitSlash s = s.splitOn '/' := by
  induction s with
  | nil => rfl
  | cons c rest ih =>
    rw [splitSlash, List.splitOn_cons_eq_if_modifyHead, ih]
    by_cases h : c = '/'
    · rw [if_pos h, if_pos (by simpa using h)]
    · rw [if_neg h, if_neg (by simpa using h)]
      cases hsplit : rest.splitOn '/' with
      | nil => exact absurd hsplit (List.splitOn_ne_nil _ _)
      | cons => rfl

/-- The path with these segments. -/
def build (absolute : Bool) (segments : List String) : Path :=
  ⟨(if absolute then "/" else "") ++ "/".intercalate segments⟩

/-- Segments that a path can have. An empty one stands first in a relative path only when it is
the empty path. -/
structure Segments (absolute : Bool) (segments : List String) : Prop where
  nonempty : segments ≠ []
  noSlash : ∀ s ∈ segments, '/' ∉ s.toList
  first : absolute = false → segments.head? = some "" → segments = [""]

theorem isAbsolute_iff : p.isAbsolute = true ↔ ∃ rest, p.text.toList = '/' :: rest := by
  rw [isAbsolute, beq_iff_eq, List.head?_eq_some_iff]

theorem segments_eq (p : Path) :
    p.segments = ((p.text.toList.drop (if p.isAbsolute then 1 else 0)).splitOn '/').map
      String.ofList := by
  simp only [Path.segments, splitSlash_eq_splitOn]
  cases p.isAbsolute <;> rfl

theorem mem_of_mem_segment {s : String} (hs : s ∈ p.segments) {c : Char} (hc : c ∈ s.toList) :
    c ∈ p.text.toList ∧ c ≠ '/' := by
  rw [segments_eq, List.mem_map] at hs
  obtain ⟨part, hpart, rfl⟩ := hs
  rw [String.toList_ofList] at hc
  exact ⟨List.mem_of_mem_drop (Text.mem_of_mem_splitOn hpart hc).1,
    (Text.mem_of_mem_splitOn hpart hc).2⟩

theorem build_segments (p : Path) : build p.isAbsolute p.segments = p := by
  have htext : (build p.isAbsolute p.segments).text = p.text := by
    rw [build, ← String.toList_inj, String.toList_append, String.toList_intercalate, segments_eq,
      List.map_map]
    have hmap : String.toList ∘ String.ofList = id := funext fun s => by simp
    rw [hmap, List.map_id]
    have hsplit (s : List Char) : "/".toList.intercalate (s.splitOn '/') = s :=
      List.intercalate_splitOn '/'
    rw [hsplit]
    by_cases h : p.isAbsolute = true
    · obtain ⟨rest, hrest⟩ := isAbsolute_iff.mp h
      rw [if_pos h, if_pos h, hrest]
      rfl
    · rw [if_neg h, if_neg h]
      rfl
  cases p
  exact congrArg Path.mk htext

theorem segments_valid (p : Path) : Segments p.isAbsolute p.segments where
  nonempty := by
    rw [segments_eq]
    simp
  noSlash s hs hslash := (mem_of_mem_segment hs hslash).2 rfl
  first := by
    intro habsolute hhead
    rw [segments_eq, habsolute] at hhead ⊢
    simp only [Bool.false_eq_true, if_false, List.drop_zero] at hhead ⊢
    cases htext : p.text.toList with
    | nil => simp
    | cons c rest =>
      have hc : c ≠ '/' := by
        intro hc
        have htrue := isAbsolute_iff.mpr ⟨rest, hc ▸ htext⟩
        exact absurd (habsolute.symm.trans htrue) (by simp)
      rw [htext, List.splitOn_cons_eq_if_modifyHead, if_neg (by simpa using hc)] at hhead
      cases hsplit : rest.splitOn '/' with
      | nil => exact absurd hsplit (List.splitOn_ne_nil _ _)
      | cons first others =>
        rw [hsplit] at hhead
        simp [← String.toList_inj] at hhead

theorem Segments.isAbsolute_build (h : Segments absolute segments) :
    (build absolute segments).isAbsolute = absolute := by
  obtain ⟨first, others, rfl⟩ := List.exists_cons_of_ne_nil h.nonempty
  cases absolute with
  | true => simp [build, isAbsolute]
  | false =>
    rw [Bool.eq_false_iff, ne_eq, isAbsolute_iff]
    rintro ⟨rest, hrest⟩
    simp only [build, Bool.false_eq_true, if_false, String.empty_append, String.toList_intercalate,
      List.map_cons] at hrest
    cases hfirst : first.toList with
    | nil =>
      have hempty : first = "" := by
        rw [← String.toList_inj, hfirst]
        rfl
      have hothers := h.first rfl (by rw [hempty]; rfl)
      simp only [List.cons.injEq] at hothers
      rw [hothers.2, hfirst] at hrest
      exact absurd hrest (by simp)
    | cons c s =>
      have hc : c = '/' := by
        rw [hfirst] at hrest
        cases others with
        | nil => simpa using (List.cons.inj (by simpa using hrest)).1
        | cons => simpa using (List.cons.inj (by simpa using hrest)).1
      exact h.noSlash first List.mem_cons_self (by rw [hfirst, hc]; exact List.mem_cons_self)

theorem Segments.segments_build (h : Segments absolute segments) :
    (build absolute segments).segments = segments := by
  have hsplit : ("/".toList.intercalate (segments.map String.toList)).splitOn '/' =
      segments.map String.toList := by
    refine List.splitOn_intercalate '/' ?_ (by simpa using h.nonempty)
    intro part hpart
    obtain ⟨s, hs, rfl⟩ := List.mem_map.mp hpart
    exact h.noSlash s hs
  have hbody : (build absolute segments).text.toList.drop (if absolute then 1 else 0) =
      "/".toList.intercalate (segments.map String.toList) := by
    rw [build, String.toList_append, String.toList_intercalate]
    cases absolute <;> rfl
  rw [segments_eq, h.isAbsolute_build, hbody, hsplit, List.map_map]
  have hmap : String.ofList ∘ String.toList = id := funext fun s => by simp
  rw [hmap, List.map_id]

theorem Segments.of_append (h : Segments absolute (segments ++ more)) (hne : segments ≠ []) :
    Segments absolute segments where
  nonempty := hne
  noSlash s hs := h.noSlash s (List.mem_append_left more hs)
  first habsolute hhead := by
    obtain ⟨first, others, rfl⟩ := List.exists_cons_of_ne_nil hne
    have hall := h.first habsolute (by simpa using hhead)
    simp only [List.cons_append, List.cons.injEq, List.append_eq_nil_iff] at hall
    rw [hall.1, hall.2.1]

theorem segments_singleton_empty (absolute : Bool) : Segments absolute [""] where
  nonempty := by simp
  noSlash := by simp
  first _ _ := rfl

/-- A name may stand behind the first segments of a path, if a relative path keeps one that is not
empty. -/
theorem Segments.append_name (h : Segments absolute (segments ++ more)) (hn : IsName name)
    (hfirst : absolute = false → ∃ s, segments.head? = some s ∧ s ≠ "") :
    Segments absolute (segments ++ [name]) where
  nonempty := by simp
  noSlash s hs := by
    rcases List.mem_append.mp hs with hs | hs
    · exact h.noSlash s (List.mem_append_left more hs)
    · rw [List.mem_singleton.mp hs]
      exact hn.noSlash
  first habsolute hhead := by
    obtain ⟨s, hs, hne⟩ := hfirst habsolute
    rw [List.head?_append, hs] at hhead
    exact absurd (Option.some.inj hhead) hne

theorem text_build_singleton (absolute : Bool) (name : String) :
    (build absolute [name]).text = (if absolute then "/" else "") ++ name := by
  rw [build, String.intercalate_singleton]

theorem text_build_append (hne : segments ≠ []) (hmore : more ≠ []) :
    (build absolute (segments ++ more)).text =
      (build absolute segments).text ++ "/" ++ "/".intercalate more := by
  simp only [build, String.intercalate_append_of_ne_nil hne hmore, String.append_assoc]

/-- The last segment is the end of the text. -/
theorem exists_text_build_append (absolute : Bool) (segments : List String) (name : String) :
    ∃ before, (build absolute (segments ++ [name])).text = before ++ name := by
  by_cases hne : segments = []
  · exact ⟨_, by rw [hne, List.nil_append, text_build_singleton]⟩
  · exact ⟨_, by rw [text_build_append hne (by simp), String.intercalate_singleton]⟩

theorem isAbsolute_mk_name (hn : IsName name) : (Path.mk name).isAbsolute = false := by
  rw [Bool.eq_false_iff, ne_eq, isAbsolute_iff]
  rintro ⟨rest, hrest⟩
  exact hn.noSlash (hrest ▸ List.mem_cons_self)

theorem endsWithSlash_build_append (h : Segments absolute (segments ++ [name])) (hn : name ≠ "") :
    (build absolute (segments ++ [name])).endsWithSlash = false := by
  obtain ⟨before, hbefore⟩ := exists_text_build_append absolute segments name
  obtain ⟨c, hc⟩ : ∃ c, name.toList.getLast? = some c := by
    cases hlast : name.toList.getLast? with
    | none => exact absurd (String.toList_eq_nil_iff.mp (List.getLast?_eq_none_iff.mp hlast)) hn
    | some c => exact ⟨c, rfl⟩
  rw [endsWithSlash, hbefore, String.toList_append, List.getLast?_append, hc]
  have hslash : c ≠ '/' := fun heq =>
    h.noSlash name (by simp) (List.mem_of_getLast? (heq ▸ hc))
  simpa using hslash

theorem exists_first_segment (hp : p.isEmpty = false) (habsolute : p.isAbsolute = false) :
    ∃ s, p.segments.head? = some s ∧ s ≠ "" := by
  obtain ⟨first, others, hsegments⟩ := List.exists_cons_of_ne_nil p.segments_valid.nonempty
  refine ⟨first, by rw [hsegments]; rfl, fun hempty => ?_⟩
  have hall := p.segments_valid.first habsolute (by rw [hsegments, hempty]; rfl)
  have htext : p.text = "" := by
    rw [← build_segments p, hall, text_build_singleton, habsolute]
    rfl
  rw [isEmpty, htext] at hp
  exact absurd hp (by simp)

/-- What a path keeps of its segments when names are joined to it: all but an empty one at its
end. -/
theorem join_eq_build (hp : p.isEmpty = false) :
    ∃ segments void, p.segments = segments ++ void ∧
      (void = [] ∨ void = [""] ∧ p.endsWithSlash = true) ∧
      ∀ name, IsName name → Segments p.isAbsolute (segments ++ [name]) ∧
        p.join ⟨name⟩ = build p.isAbsolute (segments ++ [name]) := by
  have hvalid := p.segments_valid
  have hbuild := build_segments p
  rcases List.eq_nil_or_concat' p.segments with hnil | ⟨init, last, hlast⟩
  · exact absurd hnil hvalid.nonempty
  -- The last segment is empty exactly when the path ends with a slash, and then the name takes
  -- its place.
  by_cases hvoid : last = ""
  · subst hvoid
    have hinit : p.isAbsolute = false → ∃ s, init.head? = some s ∧ s ≠ "" := by
      intro habsolute
      obtain ⟨s, hs, hne⟩ := exists_first_segment hp habsolute
      cases init with
      | nil =>
        rw [hlast, List.nil_append, List.head?_cons, Option.some.injEq] at hs
        exact absurd hs.symm hne
      | cons first others => exact ⟨s, by simpa [hlast] using hs, hne⟩
    have hslash : p.endsWithSlash = true := by
      rw [← hbuild, hlast, endsWithSlash]
      cases init with
      | nil =>
        have habsolute : p.isAbsolute = true := by
          by_contra hrel
          obtain ⟨s, hs, _⟩ := hinit (by simpa using hrel)
          exact absurd hs (by simp)
        rw [List.nil_append, text_build_singleton, habsolute]
        decide
      | cons first others =>
        rw [text_build_append (by simp) (by simp), String.intercalate_singleton]
        simp
    refine ⟨init, [""], hlast, .inr ⟨rfl, hslash⟩, fun name hn =>
      ⟨(hlast ▸ hvalid).append_name hn hinit, ?_⟩⟩
    rw [join, isAbsolute_mk_name hn, hp, hslash]
    simp only [Bool.false_eq_true, if_false, Bool.false_or, if_true]
    rw [← congrArg Path.text hbuild, hlast]
    by_cases hnil : init = []
    · rw [hnil, List.nil_append, List.nil_append, text_build_singleton, String.append_empty, build,
        String.intercalate_singleton]
    · rw [text_build_append hnil (by simp), String.intercalate_singleton, String.append_empty,
        ← String.intercalate_singleton (s := "/") (t := name), ← text_build_append hnil (by simp)]
      simp
  · have hslash : p.endsWithSlash = false := by
      rw [← hbuild, hlast]
      exact endsWithSlash_build_append (hlast ▸ hvalid) hvoid
    have hsegments : Segments p.isAbsolute (p.segments ++ []) := by rwa [List.append_nil]
    refine ⟨p.segments, [], by simp, .inl rfl, fun name hn =>
      ⟨hsegments.append_name hn (exists_first_segment hp), ?_⟩⟩
    rw [join, isAbsolute_mk_name hn, hp, hslash]
    simp only [Bool.false_eq_true, if_false, Bool.or_false]
    rw [← congrArg Path.text hbuild, ← String.intercalate_singleton (s := "/") (t := name),
      ← text_build_append hvalid.nonempty (by simp)]
    simp

end Path

end Marginalia
