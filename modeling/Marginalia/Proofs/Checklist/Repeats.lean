import Marginalia.Proofs.Checklist.Sections

/-! What a checklist depends on. Main statement: it is told by the items of each kind in their order
and without their repetitions, so neither the order of findings of different kinds matters nor a
finding whose item one of the same kind has before it. -/
namespace Marginalia.Checklist

section EraseDups

variable {α : Type} [BEq α] [LawfulBEq α]

/-- What is left out and what is a repetition do not depend on each other. -/
theorem eraseDups_filter (p : α → Bool) (xs : List α) :
    (xs.filter p).eraseDups = xs.eraseDups.filter p := by
  -- The induction is on the length, since the repetitions of the first element are taken out.
  induction hlength : xs.length using Nat.strongRecOn generalizing xs with
  | ind n ih =>
    cases xs with
    | nil => rfl
    | cons x xs =>
      have hshorter : (xs.filter fun y => !y == x).length < n := by
        rw [← hlength, List.length_cons]
        exact Nat.lt_succ_of_le (List.length_filter_le _ _)
      have hrest := ih _ hshorter _ rfl
      rw [List.eraseDups_cons]
      by_cases hx : p x = true
      · have hcomm : (xs.filter p).filter (fun y => !y == x) =
            (xs.filter fun y => !y == x).filter p := by
          rw [List.filter_filter, List.filter_filter]
          simp only [Bool.and_comm]
        rw [List.filter_cons_of_pos hx, List.filter_cons_of_pos hx, List.eraseDups_cons, hcomm,
          hrest]
      · have hkept : (xs.filter fun y => !y == x).filter p = xs.filter p := by
          rw [List.filter_filter]
          apply List.filter_congr
          intro y _
          cases hy : p y with
          | false => rfl
          | true =>
            have hne : y ≠ x := fun heq => hx (heq ▸ hy)
            simp [hne]
        rw [List.filter_cons_of_neg hx, List.filter_cons_of_neg hx, ← hrest, hkept]

theorem eraseDups_append_cons_of_mem {x : α} {front : List α} (h : x ∈ front) (back : List α) :
    (front ++ x :: back).eraseDups = (front ++ back).eraseDups := by
  have hremoved : (x :: back).removeAll front = back.removeAll front := by
    rw [List.removeAll, List.filter_cons_of_neg (by simpa using h), List.removeAll]
  rw [List.eraseDups_append, hremoved, List.eraseDups_append]

theorem eraseDups_eq_nil_iff {xs : List α} : xs.eraseDups = [] ↔ xs = [] := by
  simp only [List.eq_nil_iff_forall_not_mem, List.mem_eraseDups]

end EraseDups

variable {findings findings' : List Finding} {f g : Finding} {kind : Kind} {item : String}

theorem itemsOf_append (kind : Kind) (front back : List Finding) :
    itemsOf kind (front ++ back) = itemsOf kind front ++ itemsOf kind back := by
  rw [itemsOf, List.filter_append, List.map_append, itemsOf, itemsOf]

theorem itemsOf_cons_of_eq (h : f.kind = kind) (findings : List Finding) :
    itemsOf kind (f :: findings) = f.item :: itemsOf kind findings := by
  rw [itemsOf, List.filter_cons_of_pos (by simpa using h), List.map_cons, itemsOf]

theorem itemsOf_cons_of_ne (h : f.kind ≠ kind) (findings : List Finding) :
    itemsOf kind (f :: findings) = itemsOf kind findings := by
  rw [itemsOf, List.filter_cons_of_neg (by simpa using h), itemsOf]

/-- The same items of each kind in the same order, repetitions aside. -/
def SameItems (findings findings' : List Finding) : Prop :=
  ∀ k, (itemsOf k findings').eraseDups = (itemsOf k findings).eraseDups

namespace SameItems

theorem mem_itemsOf_iff (h : SameItems findings findings') :
    item ∈ itemsOf kind findings' ↔ item ∈ itemsOf kind findings := by
  rw [← List.mem_eraseDups, h kind, List.mem_eraseDups]

theorem mem_earlier_iff (h : SameItems findings findings') :
    item ∈ earlier findings' kind ↔ item ∈ earlier findings kind := by
  simp only [earlier, List.mem_flatMap, h.mem_itemsOf_iff]

theorem listed_eq (h : SameItems findings findings') (kind : Kind) :
    listed findings' kind = listed findings kind := calc
  listed findings' kind
      = (itemsOf kind findings').eraseDups.filter
          fun item => decide (item ∉ earlier findings' kind) := by
        rw [listed, fresh_fst, eraseDups_filter]
  _ = (itemsOf kind findings).eraseDups.filter
          fun item => decide (item ∉ earlier findings kind) := by
        simp only [h kind, h.mem_earlier_iff]
  _ = listed findings kind := by
        rw [listed, fresh_fst, eraseDups_filter]

theorem isEmpty_itemsOf (h : SameItems findings findings') (kind : Kind) :
    (itemsOf kind findings').isEmpty = (itemsOf kind findings).isEmpty := by
  rw [Bool.eq_iff_iff, List.isEmpty_iff, List.isEmpty_iff, ← eraseDups_eq_nil_iff, h kind,
    eraseDups_eq_nil_iff]

/-- A list without findings is the only one without items. -/
theorem isEmpty_eq (h : SameItems findings findings') : findings'.isEmpty = findings.isEmpty := by
  have hempty (fs : List Finding) : fs.isEmpty = true ↔ ∀ k, itemsOf k fs = [] := by
    rw [List.isEmpty_iff]
    constructor
    · rintro rfl k
      rfl
    · intro hnone
      rw [List.eq_nil_iff_forall_not_mem]
      intro f hf
      have hmem : f.item ∈ itemsOf f.kind fs := mem_itemsOf.mpr ⟨f, hf, rfl, rfl⟩
      exact absurd hmem (by simp [hnone])
  rw [Bool.eq_iff_iff, hempty, hempty]
  simp only [← List.isEmpty_iff, h.isEmpty_itemsOf]

theorem render_eq (h : SameItems findings findings') : render findings' = render findings := by
  rw [render, render, h.isEmpty_eq, sections_eq, sections_eq]
  simp only [h.listed_eq, h.isEmpty_itemsOf]

/-- Of two findings of different kinds none is among the items of the other's kind. -/
theorem swap (hkind : f.kind ≠ g.kind) (front back : List Finding) :
    SameItems (front ++ f :: g :: back) (front ++ g :: f :: back) := by
  intro k
  congr 1
  rw [itemsOf_append, itemsOf_append]
  congr 1
  by_cases hf : f.kind = k
  · have hg : g.kind ≠ k := fun heq => hkind (hf.trans heq.symm)
    rw [itemsOf_cons_of_ne hg, itemsOf_cons_of_eq hf, itemsOf_cons_of_eq hf, itemsOf_cons_of_ne hg]
  · rw [itemsOf_cons_of_ne hf (g :: back)]
    by_cases hg : g.kind = k
    · rw [itemsOf_cons_of_eq hg, itemsOf_cons_of_eq hg, itemsOf_cons_of_ne hf]
    · rw [itemsOf_cons_of_ne hg, itemsOf_cons_of_ne hg, itemsOf_cons_of_ne hf]

theorem erase {front : List Finding} (hf : f ∈ front) (hkind : f.kind = g.kind)
    (hitem : f.item = g.item) (back : List Finding) :
    SameItems (front ++ g :: back) (front ++ back) := by
  intro k
  rw [itemsOf_append, itemsOf_append]
  by_cases hg : g.kind = k
  · have hmem : g.item ∈ itemsOf k front := mem_itemsOf.mpr ⟨f, hf, hkind.trans hg, hitem⟩
    rw [itemsOf_cons_of_eq hg, eraseDups_append_cons_of_mem hmem]
  · rw [itemsOf_cons_of_ne hg]

end SameItems

/-- What the checklist of some findings depends on. Two findings of different kinds that stand next
to each other may be exchanged, and a finding may be left out when one of its kind before it has the
same item. So the items of each kind, in order and without repetition, decide the checklist. -/
theorem render_of_sameItems :
    (∀ (front back : List Finding) (f g : Finding), f.kind ≠ g.kind →
      render (front ++ g :: f :: back) = render (front ++ f :: g :: back)) ∧
    (∀ (front back : List Finding) (f g : Finding), f ∈ front → f.kind = g.kind →
      f.item = g.item → render (front ++ back) = render (front ++ g :: back)) ∧
    ∀ findings findings' : List Finding,
      (∀ k, (itemsOf k findings').eraseDups = (itemsOf k findings).eraseDups) →
        render findings' = render findings := by
  refine ⟨?_, ?_, ?_⟩
  · intro front back f g hkind
    exact (SameItems.swap hkind front back).render_eq
  · intro front back f g hf hkind hitem
    exact (SameItems.erase hf hkind hitem back).render_eq
  · intro findings findings' h
    exact SameItems.render_eq h

def bugFound : Finding := ⟨⟨"a.rs"⟩, .bug, "x", ""⟩

def todoFound : Finding := ⟨⟨"a.rs"⟩, .todo, "y", ""⟩

/-- A finding that differs from `bugFound`, and has the same item. -/
def bugAgain : Finding := ⟨⟨""⟩, .bug, "(a.rs) - x", ""⟩

/-- In three findings the last one is left out, the others are exchanged, and both at once. -/
theorem render_of_sameItems_again :
    (bugFound.kind ≠ todoFound.kind ∧ render [todoFound, bugFound] = render [bugFound, todoFound]) ∧
    (bugFound ∈ [bugFound, todoFound] ∧ bugFound.kind = bugAgain.kind ∧
      bugFound.item = bugAgain.item ∧
      render [bugFound, todoFound] = render [bugFound, todoFound, bugAgain]) ∧
    (∀ k, (itemsOf k [todoFound, bugFound]).eraseDups =
      (itemsOf k [bugFound, todoFound, bugAgain]).eraseDups) ∧
    render [todoFound, bugFound] = render [bugFound, todoFound, bugAgain] := by
  obtain ⟨hswap, herase, hsame⟩ := render_of_sameItems
  have hkind : bugFound.kind ≠ todoFound.kind := by decide
  have hmem : bugFound ∈ [bugFound, todoFound] := List.mem_cons_self
  have hitem : bugFound.item = bugAgain.item := by decide
  have hitems (k : Kind) : (itemsOf k [todoFound, bugFound]).eraseDups =
      (itemsOf k [bugFound, todoFound, bugAgain]).eraseDups := by
    cases k <;> decide
  exact ⟨⟨hkind, hswap [] [] bugFound todoFound hkind⟩,
    ⟨hmem, rfl, hitem, herase [bugFound, todoFound] [] bugFound bugAgain hmem rfl hitem⟩,
    hitems, hsame _ _ hitems⟩

end Marginalia.Checklist
