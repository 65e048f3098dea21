import Marginalia.Checklist
import Marginalia.Proofs.Tag.Grammar
import Mathlib.Data.List.Nodup
import Mathlib.Order.WellFounded

/-! The sections of a checklist. An item stands in the section of the first kind that has it, at
its first place among the items of that kind. -/
namespace Marginalia.Checklist

variable {findings : List Finding} {kind other : Kind} {seen seen' items : List String}
  {item : String}

theorem fresh_cons_of_mem (h : item ∈ seen) (rest : List String) :
    fresh seen (item :: rest) = fresh seen rest := by
  rw [fresh, if_pos (List.contains_iff_mem.mpr h)]

theorem fresh_cons_of_notMem (h : item ∉ seen) (rest : List String) :
    fresh seen (item :: rest) =
      (item :: (fresh (item :: seen) rest).1, (fresh (item :: seen) rest).2) := by
  rw [fresh, if_neg (mt List.contains_iff_mem.mp h)]

/-- What is fresh are the items that were not seen before, without their repetitions. -/
theorem fresh_fst (seen items : List String) :
    (fresh seen items).1 = (items.filter fun item => decide (item ∉ seen)).eraseDups := by
  induction items generalizing seen with
  | nil => rfl
  | cons item rest ih =>
    by_cases h : item ∈ seen
    · rw [fresh_cons_of_mem h, ih, List.filter_cons_of_neg (by simpa using h)]
    · -- What is listed here counts as seen in the rest, which is what `eraseDups` takes out of it.
      have hfilter : (rest.filter fun other => decide (other ∉ item :: seen)) =
          rest.filter fun other => !other == item && decide (other ∉ seen) := by
        apply List.filter_congr
        simp [beq_eq_decide]
      rw [fresh_cons_of_notMem h, ih, hfilter, List.filter_cons_of_pos (by simpa using h),
        List.eraseDups_cons, List.filter_filter]

theorem mem_fresh_snd (seen items : List String) :
    item ∈ (fresh seen items).2 ↔ item ∈ seen ∨ item ∈ items := by
  induction items generalizing seen with
  | nil => simp [fresh]
  | cons first rest ih =>
    by_cases h : first ∈ seen
    · rw [fresh_cons_of_mem h, ih, List.mem_cons]
      grind
    · rw [fresh_cons_of_notMem h, ih, List.mem_cons, List.mem_cons]
      grind

theorem mem_fresh_fst (seen items : List String) :
    item ∈ (fresh seen items).1 ↔ item ∈ items ∧ item ∉ seen := by
  rw [fresh_fst, List.mem_eraseDups, List.mem_filter, decide_eq_true_eq]

/-- What is fresh depends on the set of the items seen before, not on their order. -/
theorem fresh_fst_congr (h : ∀ item, item ∈ seen ↔ item ∈ seen') (items : List String) :
    (fresh seen items).1 = (fresh seen' items).1 := by
  simp only [fresh_fst, h]

/-- Items are listed in the order of their first occurrences. -/
theorem pairwise_fresh_fst (seen items : List String) :
    (fresh seen items).1.Pairwise fun a b => items.idxOf a < items.idxOf b := by
  induction items generalizing seen with
  | nil => exact List.Pairwise.nil
  | cons item rest ih =>
    -- Behind an item that is not listed again, every first occurrence moves by one place.
    have hlater (seen : List String) (h : item ∈ seen) : (fresh seen rest).1.Pairwise
        fun a b => (item :: rest).idxOf a < (item :: rest).idxOf b := by
      apply (ih seen).imp_of_mem
      intro a b ha hb hab
      have hne {c : String} (hc : c ∈ (fresh seen rest).1) : item ≠ c :=
        fun heq => ((mem_fresh_fst seen rest).mp hc).2 (heq ▸ h)
      rw [List.idxOf_cons_ne _ (hne ha), List.idxOf_cons_ne _ (hne hb)]
      exact Nat.succ_lt_succ hab
    by_cases h : item ∈ seen
    · rw [fresh_cons_of_mem h]
      exact hlater seen h
    · rw [fresh_cons_of_notMem h]
      refine List.Pairwise.cons ?_ (hlater _ List.mem_cons_self)
      intro b hb
      have hne : item ≠ b :=
        fun heq => ((mem_fresh_fst _ rest).mp hb).2 (heq ▸ List.mem_cons_self)
      rw [List.idxOf_cons_self, List.idxOf_cons_ne _ hne]
      exact Nat.succ_pos _

theorem mem_itemsOf :
    item ∈ itemsOf kind findings ↔ ∃ f ∈ findings, f.kind = kind ∧ f.item = item := by
  simp [itemsOf, and_assoc]

/-- The items of the kinds before a kind. -/
def earlier (findings : List Finding) (kind : Kind) : List String :=
  (Kind.all.filter fun k => decide (k.index < kind.index)).flatMap (itemsOf · findings)

/-- The items in the section of a kind. -/
def listed (findings : List Finding) (kind : Kind) : List String :=
  (fresh (earlier findings kind) (itemsOf kind findings)).1

theorem mem_earlier :
    item ∈ earlier findings kind ↔ ∃ f ∈ findings, f.kind.index < kind.index ∧ f.item = item := by
  simp only [earlier, List.mem_flatMap, List.mem_filter, Kind.mem_all, true_and,
    decide_eq_true_eq, mem_itemsOf]
  grind

theorem sections_cons (findings : List Finding) (seen : List String) (kind : Kind)
    (kinds : List Kind) :
    sections findings seen (kind :: kinds) =
      ⟨kind, (itemsOf kind findings).isEmpty, (fresh seen (itemsOf kind findings)).1⟩ ::
        sections findings (fresh seen (itemsOf kind findings)).2 kinds := rfl

theorem pairwise_index : Kind.all.Pairwise fun k l => k.index < l.index := by decide

theorem mem_before_iff {before after : List Kind} (h : before ++ kind :: after = Kind.all) :
    other ∈ before ↔ other.index < kind.index := by
  have horder := h ▸ pairwise_index
  rw [List.pairwise_append, List.pairwise_cons] at horder
  constructor
  · intro hother
    exact horder.2.2 other hother kind List.mem_cons_self
  · intro hlt
    have hmem : other ∈ before ++ kind :: after := h ▸ Kind.mem_all other
    rw [List.mem_append, List.mem_cons] at hmem
    obtain hbefore | rfl | hafter := hmem
    · exact hbefore
    · exact absurd hlt (Nat.lt_irrefl _)
    · exact absurd (horder.2.1.1 other hafter) (Nat.lt_asymm hlt)

/-- Behind some kinds, whose items are those seen so far, each kind has its section. -/
theorem sections_of_before (before : List Kind) {kinds : List Kind}
    (hkinds : before ++ kinds = Kind.all)
    (hseen : ∀ item, item ∈ seen ↔ ∃ f ∈ findings, f.kind ∈ before ∧ f.item = item) :
    sections findings seen kinds =
      kinds.map fun k => ⟨k, (itemsOf k findings).isEmpty, listed findings k⟩ := by
  induction kinds generalizing before seen with
  | nil => rfl
  | cons kind kinds ih =>
    have hearlier : ∀ item, item ∈ seen ↔ item ∈ earlier findings kind := by
      intro item
      simp only [hseen, mem_earlier, mem_before_iff hkinds]
    rw [sections_cons, List.map_cons, listed, ← fresh_fst_congr hearlier]
    congr 1
    apply ih (before ++ [kind])
    · rw [List.append_assoc]
      exact hkinds
    -- With the items of `kind` seen, `kind` is one of the kinds before.
    intro item
    rw [mem_fresh_snd, hseen, mem_itemsOf]
    simp only [List.mem_append, List.mem_singleton]
    grind

theorem sections_eq (findings : List Finding) :
    sections findings [] Kind.all =
      Kind.all.map fun k => ⟨k, (itemsOf k findings).isEmpty, listed findings k⟩ :=
  sections_of_before [] rfl (by simp)

/-- What a section lists: the items that its kind is the first to have, in the order of their
first occurrences among the items of the kind. -/
structure Lists (findings : List Finding) (kind : Kind) (items : List String) : Prop where
  mem_iff : ∀ item, item ∈ items ↔ (∃ f ∈ findings, f.kind = kind ∧ f.item = item) ∧
    ∀ f ∈ findings, f.item = item → kind.index ≤ f.kind.index
  ordered : items.Pairwise fun a b =>
    (itemsOf kind findings).idxOf a < (itemsOf kind findings).idxOf b

theorem lists_listed (findings : List Finding) (kind : Kind) :
    Lists findings kind (listed findings kind) where
  mem_iff item := by
    rw [listed, mem_fresh_fst, mem_itemsOf, mem_earlier]
    grind
  ordered := pairwise_fresh_fst _ _

theorem Lists.nodup (h : Lists findings kind items) : items.Nodup :=
  h.ordered.imp fun hlt heq => (heq ▸ hlt).ne rfl

variable {texts : Kind → List String}

theorem exists_mem_of_lists (h : ∀ k, Lists findings k (texts k)) :
    (∃ k, item ∈ texts k) ↔ ∃ f ∈ findings, f.item = item := by
  constructor
  · rintro ⟨k, hk⟩
    obtain ⟨f, hf, -, hitem⟩ := ((h k).mem_iff item |>.mp hk).1
    exact ⟨f, hf, hitem⟩
  · intro hitem
    -- The first kind that has the item is the kind of a finding of the smallest place.
    obtain ⟨f, ⟨hf, hitem⟩, hmin⟩ :=
      (measure fun f : Finding => f.kind.index).wf.has_min
        {f | f ∈ findings ∧ f.item = item} hitem
    refine ⟨f.kind, ((h f.kind).mem_iff item).mpr ⟨⟨f, hf, rfl, hitem⟩, ?_⟩⟩
    intro g hg hgitem
    exact Nat.le_of_not_lt (hmin g ⟨hg, hgitem⟩)

theorem nodup_of_lists (h : ∀ k, Lists findings k (texts k)) :
    (Kind.all.flatMap texts).Nodup := by
  rw [List.nodup_flatMap]
  refine ⟨fun k _ => (h k).nodup, ?_⟩
  -- An item of two kinds is not listed below the second one.
  apply pairwise_index.imp
  intro k l hkl item hk hl
  obtain ⟨f, hf, hkind, hitem⟩ := ((h k).mem_iff item |>.mp hk).1
  have hle := ((h l).mem_iff item |>.mp hl).2 f hf hitem
  rw [hkind] at hle
  omega

end Marginalia.Checklist
