import Marginalia.Files.Tree
import Mathlib.Data.String.Basic

/-! The order of a walk. The files of a directory come before everything in its subdirectories,
and both are in the order of their names; so a set of locations can be walked in one way only. -/
namespace Marginalia

/-- A location comes before another one in a walk. -/
inductive Precedes : Location → Location → Prop
  | file {a b : String} (h : a < b) : Precedes [a] [b]
  | deeper {a b : String} {l : Location} (hl : l ≠ []) : Precedes [a] (b :: l)
  | directory {a b : String} {l m : Location} (h : a < b) (hl : l ≠ []) (hm : m ≠ []) :
      Precedes (a :: l) (b :: m)
  | inside {a : String} {l m : Location} (h : Precedes l m) : Precedes (a :: l) (a :: m)

namespace Precedes

variable {l m : Location}

theorem ne_nil (h : Precedes l m) : l ≠ [] ∧ m ≠ [] := by
  cases h <;> simp

theorem asymm (h : Precedes l m) : ¬ Precedes m l := by
  induction h with
  | file h =>
    intro h'
    cases h' with
    | file h' => exact lt_asymm h h'
    | deeper hl | directory _ hl => exact hl rfl
    | inside h' => exact h'.ne_nil.1 rfl
  | deeper hl =>
    intro h'
    cases h' with
    | file | deeper => exact hl rfl
    | directory _ _ hm => exact hm rfl
    | inside h' => exact h'.ne_nil.2 rfl
  | directory h hl hm =>
    intro h'
    cases h' with
    | file => exact hl rfl
    | deeper => exact hm rfl
    | directory h' => exact lt_asymm h h'
    | inside => exact lt_irrefl _ h
  | inside h ih =>
    intro h'
    cases h' with
    | file | deeper => exact h.ne_nil.2 rfl
    | directory h' => exact lt_irrefl _ h'
    | inside h' => exact ih h'

end Precedes

variable {ls ms : List Location}

theorem nodup_of_pairwise_precedes (h : ls.Pairwise Precedes) : ls.Nodup := by
  apply h.imp
  rintro l m hlm rfl
  exact hlm.asymm hlm

/-- Locations are in the order of a walk in one way only. -/
theorem eq_of_pairwise_precedes (hls : ls.Pairwise Precedes) (hms : ms.Pairwise Precedes)
    (h : ∀ l, l ∈ ls ↔ l ∈ ms) : ls = ms := by
  apply List.Perm.eq_of_pairwise (fun l m _ _ hlm hml => absurd hml hlm.asymm) hls hms
  exact (List.perm_ext_iff_of_nodup (nodup_of_pairwise_precedes hls)
    (nodup_of_pairwise_precedes hms)).mpr h

namespace Entries

variable {entries : Entries} {e : String × Node}

/-- The entries in the order of their names. -/
def byName (entries : Entries) : Entries := entries.mergeSort fun a b => decide (a.1 ≤ b.1)

theorem mem_byName : e ∈ entries.byName ↔ e ∈ entries := List.mem_mergeSort

theorem pairwise_byName (h : (entries.map Prod.fst).Nodup) :
    entries.byName.Pairwise fun a b => a.1 < b.1 := by
  have hsorted : entries.byName.Pairwise fun a b => decide (a.1 ≤ b.1) = true := by
    apply List.pairwise_mergeSort
    · intro a b c hab hbc
      exact decide_eq_true ((of_decide_eq_true hab).trans (of_decide_eq_true hbc))
    · intro a b
      simpa using le_total a.1 b.1
  have hdistinct : (entries.byName.map Prod.fst).Nodup :=
    ((List.mergeSort_perm _ _).map Prod.fst).nodup_iff.mpr h
  rw [List.Nodup, List.pairwise_map] at hdistinct
  apply (hsorted.and hdistinct).imp
  rintro a b ⟨hle, hne⟩
  exact lt_of_le_of_ne (of_decide_eq_true hle) hne

theorem nodup_filter (h : (entries.map Prod.fst).Nodup) (keep : String × Node → Bool) :
    ((entries.filter keep).map Prod.fst).Nodup :=
  h.sublist (List.filter_sublist.map Prod.fst)

/-- Where the same names stand, they stand in the same order. -/
theorem names_byName_eq {entries' : Entries} (h : (entries.map Prod.fst).Nodup)
    (h' : (entries'.map Prod.fst).Nodup)
    (hforth : ∀ e ∈ entries, ∃ e' ∈ entries', e'.1 = e.1)
    (hback : ∀ e' ∈ entries', ∃ e ∈ entries, e.1 = e'.1) :
    entries'.byName.map Prod.fst = entries.byName.map Prod.fst := by
  have hperm (es : Entries) : (es.byName.map Prod.fst).Perm (es.map Prod.fst) :=
    (List.mergeSort_perm _ _).map Prod.fst
  have hsorted {es : Entries} (hes : (es.map Prod.fst).Nodup) :
      (es.byName.map Prod.fst).Pairwise (· < ·) :=
    List.pairwise_map.mpr (pairwise_byName hes)
  have hsame : (entries'.map Prod.fst).Perm (entries.map Prod.fst) := by
    rw [List.perm_ext_iff_of_nodup h' h]
    intro n
    simp only [List.mem_map]
    constructor
    · rintro ⟨e', he', rfl⟩
      exact hback e' he'
    · rintro ⟨e, he, rfl⟩
      exact hforth e he
  apply List.Perm.eq_of_pairwise _ (hsorted h') (hsorted h)
  · exact ((hperm entries').trans hsame).trans (hperm entries).symm
  · intro m n _ _ hmn hnm
    exact absurd hnm (lt_asymm hmn)

/-- What is gathered from entries of the same names is the same when each brings the same. -/
theorem flatMap_eq_of_names {α : Type} {es es' : Entries} {F F' : String × Node → List α}
    (hnames : es'.map Prod.fst = es.map Prod.fst)
    (h : ∀ e ∈ es, ∀ e' ∈ es', e'.1 = e.1 → F' e' = F e) : es'.flatMap F' = es.flatMap F := by
  induction es generalizing es' with
  | nil => rw [List.map_eq_nil_iff.mp hnames, List.flatMap_nil, List.flatMap_nil]
  | cons e es ih =>
    obtain ⟨e', es', rfl, hname, hrest⟩ := List.map_eq_cons_iff.mp hnames
    rw [List.flatMap_cons, List.flatMap_cons, h e List.mem_cons_self e' List.mem_cons_self hname,
      ih hrest]
    intro d hd d' hd' heq
    exact h d (List.mem_cons_of_mem e hd) d' (List.mem_cons_of_mem e' hd') heq

end Entries

end Marginalia
