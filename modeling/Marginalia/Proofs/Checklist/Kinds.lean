import Marginalia.Proofs.Checklist.Lines

/-! A checklist kind by kind, whatever the items are. Main statement: below the header of a kind
stands an empty line when the kind has no findings, and else those of its items that no kind before
it has. An item is not listed again below a later kind that has it, too. -/
namespace Marginalia.Checklist

variable {findings : List Finding} {kind : Kind}

/-- A text with a section for each kind, given what stands below its header. -/
def assemble (body : Kind → String) : String :=
  separator.intercalate (Kind.all.map fun k => headerLine k ++ "\n" ++ body k)

/-- Some items as lines. -/
def itemLines (items : List String) : String := String.join (items.map (· ++ "\n"))

/-- What stands below the header of a kind. -/
def body (findings : List Finding) (kind : Kind) : String :=
  (if (itemsOf kind findings).isEmpty then "\n" else "") ++ itemLines (listed findings kind)

theorem itemsOf_eq_nil_iff : itemsOf kind findings = [] ↔ ∀ f ∈ findings, f.kind ≠ kind := by
  simp [itemsOf, List.filter_eq_nil_iff]

theorem render_eq_assemble (hne : findings ≠ []) : render findings = assemble (body findings) := by
  rw [render, if_neg (by simpa using hne), sections_eq, List.map_map, assemble]
  congr 2
  funext k
  simp only [Function.comp_apply, Section.text, headerLine, body, itemLines, String.append_assoc]

theorem body_of_forall_ne (h : ∀ f ∈ findings, f.kind ≠ kind) : body findings kind = "\n" := by
  have hitems : itemsOf kind findings = [] := itemsOf_eq_nil_iff.mpr h
  rw [body, listed, hitems]
  rfl

theorem body_of_listed (h : listed findings kind ≠ []) :
    body findings kind = itemLines (listed findings kind) := by
  have hitems : itemsOf kind findings ≠ [] := by
    intro hnil
    rw [listed, hnil] at h
    exact h rfl
  rw [body, if_neg (by simpa using hitems), String.empty_append]

/-- The checklist of some findings kind by kind. A kind without findings has an empty line. A kind
that is the first to have some of its items lists these and no others, each once and in the order in
which they first occur among its findings. So every finding is listed below the header of its kind
or, where its item is that of a kind before, further above. -/
theorem render_kinds (hne : findings ≠ []) :
    ∃ (texts : Kind → List String) (below : Kind → String),
      render findings = assemble below ∧
      (∀ k, (∀ f ∈ findings, f.kind ≠ k) → below k = "\n") ∧
      (∀ k, texts k ≠ [] → below k = itemLines (texts k)) ∧
      (∀ k, Lists findings k (texts k) ∧ (texts k).Nodup) ∧
      ∀ f ∈ findings, ∃ k, k.index ≤ f.kind.index ∧ f.item ∈ texts k := by
  have hlists := lists_listed findings
  refine ⟨listed findings, body findings, render_eq_assemble hne, ?_, ?_, ?_, ?_⟩
  · intro k h
    exact body_of_forall_ne h
  · intro k h
    exact body_of_listed h
  · intro k
    exact ⟨hlists k, (hlists k).nodup⟩
  · intro f hf
    obtain ⟨k, hk⟩ := (exists_mem_of_lists hlists).mpr ⟨f, hf, rfl⟩
    exact ⟨k, ((hlists k).mem_iff f.item |>.mp hk).2 f hf rfl, hk⟩

/-- Findings of two kinds that share one of their items. -/
def shared : List Finding :=
  [⟨⟨"a.rs"⟩, .todo, "x", ""⟩, ⟨⟨"a.rs"⟩, .bug, "x", ""⟩, ⟨⟨"a.rs"⟩, .bug, "y", ""⟩]

/-- The shared item is listed below the first kind only. -/
theorem render_kinds_shared : shared ≠ [] ∧
    ∃ (texts : Kind → List String) (below : Kind → String), render shared = assemble below ∧
      "- [ ] (a.rs) - x" ∈ texts .todo ∧ below .bug = "- [ ] (a.rs) - y\n" ∧
      below .fixme = "\n" := by
  have hne : shared ≠ [] := by decide
  obtain ⟨texts, below, hrender, hnone, hsome, hlists, -⟩ := render_kinds hne
  have hbug : texts .bug = ["- [ ] (a.rs) - y"] := by
    rw [← List.perm_singleton, List.perm_ext_iff_of_nodup (hlists .bug).2 (List.nodup_singleton _)]
    intro item
    rw [(hlists .bug).1.mem_iff, List.mem_singleton]
    constructor
    · rintro ⟨⟨f, hf, hkind, rfl⟩, hfirst⟩
      -- Of the two findings of this kind, one has the item of a kind before.
      rw [shared, List.mem_cons, List.mem_cons, List.mem_singleton] at hf
      rcases hf with rfl | rfl | rfl
      · exact absurd hkind (by decide)
      · exact absurd (hfirst _ List.mem_cons_self (by decide)) (by decide)
      · decide
    · rintro rfl
      decide
  refine ⟨hne, texts, below, hrender, ?_, ?_, ?_⟩
  · rw [(hlists .todo).1.mem_iff]
    decide
  · rw [hsome .bug (by simp [hbug]), hbug]
    rfl
  · exact hnone .fixme (by decide)

/-- Not every item of a kind is listed below its header. -/
theorem render_omits_shared : ¬∀ findings : List Finding, findings ≠ [] →
    ∃ below : Kind → String, render findings = assemble below ∧
      ∀ k, below k =
        if itemsOf k findings = [] then "\n" else itemLines (itemsOf k findings).eraseDups := by
  intro hcomplete
  obtain ⟨below, hrender, hbelow⟩ := hcomplete shared (by decide)
  rw [funext hbelow] at hrender
  exact absurd hrender (by decide +kernel)

end Marginalia.Checklist
