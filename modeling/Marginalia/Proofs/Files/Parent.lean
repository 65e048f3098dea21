import Marginalia.Proofs.Files.Below
import Marginalia.Proofs.Files.Lookup
import Marginalia.Proofs.Text.Utf8

/-! The directories above a path. A parent has all but the last steps of its path, so it is found
whenever something is found or may be created at the path. -/
namespace Marginalia

namespace Path

variable {p q : Path} {absolute : Bool} {reversed : List String} {rest : List Path}

theorem build_nil (absolute : Bool) : build absolute [] = build absolute [""] := by
  rw [build, build, String.intercalate_singleton]
  rfl

/-- Void segments at the end of a path are dropped. -/
theorem ofReversed_eq_build (absolute : Bool) (reversed : List String) :
    ∃ voids kept, reversed = voids ++ kept ∧
      ofReversed absolute reversed = build absolute kept.reverse ∧
      above absolute reversed = above absolute kept := by
  induction reversed with
  | nil =>
    refine ⟨[], [], rfl, ?_, rfl⟩
    rw [ofReversed, build]
    cases absolute <;> rfl
  | cons s before ih =>
    by_cases hvoid : isVoid absolute s before = true
    · obtain ⟨voids, kept, hsplit, hpath, habove⟩ := ih
      refine ⟨s :: voids, kept, by rw [hsplit, List.cons_append], ?_, ?_⟩
      · rw [ofReversed, if_pos hvoid, hpath]
      · rw [above, if_pos hvoid, habove]
    · refine ⟨[], s :: before, rfl, ?_, rfl⟩
      rw [ofReversed, if_neg hvoid, build]

/-- The innermost directory above a path stands before its last segment that is not void. -/
theorem above_eq_cons (h : above absolute reversed = q :: rest) :
    ∃ voids s before, reversed = voids ++ s :: before ∧ s ≠ "" ∧
      q = ofReversed absolute before ∧ rest = above absolute before := by
  induction reversed with
  | nil => exact absurd h (by simp [above])
  | cons s before ih =>
    rw [above] at h
    split at h
    · obtain ⟨voids, s', before', hsplit, hs, hq, hrest⟩ := ih h
      exact ⟨s :: voids, s', before', by rw [hsplit, List.cons_append], hs, hq, hrest⟩
    · next hvoid =>
      obtain ⟨hq, hrest⟩ := List.cons.inj h
      refine ⟨[], s, before, rfl, ?_, hq.symm, hrest.symm⟩
      rintro rfl
      exact hvoid (by simp [isVoid])

/-- What a parent keeps of its path. -/
structure IsParent (q p : Path) : Prop where
  ancestors : p.ancestors = q :: q.ancestors
  steps : ∃ more, more ≠ [] ∧ p.steps = q.steps ++ more
  text : ∃ rest, p.text = q.text ++ rest

theorem isParent_of_parent? (h : p.parent? = some q) : IsParent q p := by
  obtain ⟨above', habove⟩ := List.head?_eq_some_iff.mp h
  obtain ⟨voids, s, before, hsplit, hs, hq, hrest⟩ := above_eq_cons habove
  obtain ⟨voids', kept, hbefore, hpath, habove'⟩ := ofReversed_eq_build p.isAbsolute before
  have hsegments : p.segments = kept.reverse ++ (voids'.reverse ++ s :: voids.reverse) := by
    rw [← List.reverse_reverse p.segments, hsplit, hbefore]
    simp
  -- What the parent lacks has the segment `s` in it, so it is at least one step.
  generalize hmore : voids'.reverse ++ s :: voids.reverse = more at hsegments
  have hs : s ∈ more.filter (· != "") := by
    rw [← hmore, List.mem_filter]
    exact ⟨by simp, by simpa using hs⟩
  have hne : more ≠ [] := by
    rintro rfl
    exact absurd hs (by simp)
  have hmore : stepsOf more ≠ [] := by
    rw [stepsOf, ne_eq, List.map_eq_nil_iff]
    exact List.ne_nil_of_mem hs
  rw [hpath] at hq
  -- Without segments the parent is the empty path or the root, which has one empty segment.
  by_cases hkept : kept = []
  · rw [hkept, List.reverse_nil, build_nil] at hq
    have hvalid := segments_singleton_empty p.isAbsolute
    refine ⟨?_, ⟨stepsOf more, hmore, ?_⟩, ?_⟩
    · have hroot : q.ancestors = [] := by
        rw [hq, ancestors, hvalid.segments_build]
        rfl
      have hnone : above' = [] := by rw [hrest, habove', hkept]; rfl
      rw [hroot, ← hnone]
      exact habove
    · rw [steps_eq_stepsOf, hsegments, hkept, steps_eq_stepsOf q, hq, hvalid.segments_build]
      rfl
    · rw [hq, text_build_singleton, String.append_empty]
      exact ⟨_, (congrArg Path.text (build_segments p)).symm⟩
  · have hvalid : Segments p.isAbsolute kept.reverse :=
      (hsegments ▸ p.segments_valid).of_append (by simpa using hkept)
    refine ⟨?_, ⟨stepsOf more, hmore, ?_⟩, ?_⟩
    · have hq' : q.ancestors = above' := by
        rw [hrest, habove', ancestors, hq, hvalid.isAbsolute_build, hvalid.segments_build,
          List.reverse_reverse]
      rw [hq']
      exact habove
    · rw [steps_eq_stepsOf, hsegments, stepsOf_append, steps_eq_stepsOf q, hq,
        hvalid.segments_build]
    · have htext := congrArg Path.text (build_segments p)
      rw [hsegments, text_build_append (by simpa using hkept) hne, String.append_assoc] at htext
      rw [hq]
      exact ⟨_, htext.symm⟩

theorem IsParent.followable (h : IsParent q p) (hp : p.Followable) (hq : q.isEmpty = false) :
    q.Followable := by
  obtain ⟨rest, hrest⟩ := h.text
  have hshort := hp.short
  have hplain := hp.plain
  rw [hrest, String.toList_append] at hshort hplain
  rw [Text.byteLength_append] at hshort
  exact ⟨fun hmem => hplain (List.mem_append_left _ hmem), hq, by omega⟩

end Path

namespace Node

variable {top : Node} {purpose : Purpose} {p q : Path} {place : Place}

/-- What can be followed has a directory above it. -/
theorem find_parent (h : top.locate purpose p = .ok place) (hparent : p.parent? = some q)
    (hq : q.isEmpty = false) : ∃ d entries, top.find q = .ok (d, .directory entries) := by
  have hq' := Path.isParent_of_parent? hparent
  obtain ⟨hfollow, hroute⟩ := locate_eq_ok_iff.mp h
  obtain ⟨more, hmore, hsteps⟩ := hq'.steps
  obtain ⟨d, hd, hfind⟩ := hroute.directory_of_append hsteps hmore
  obtain ⟨entries, hentries⟩ := formAt_eq_directory_iff.mp hd
  refine ⟨d, entries, find_eq_ok_iff.mpr ⟨?_, hentries⟩⟩
  exact locate_eq_ok_iff.mpr ⟨hq'.followable hfollow hq, hfind q.endsWithSlash⟩

end Node

end Marginalia
