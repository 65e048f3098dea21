import Marginalia.Proofs.Files.Path
import Mathlib.Data.List.Induction
import Mathlib.Data.String.Basic

/-! The paths below a path. Joining names to a path adds them to its steps, stripping the path off
again gives the names back however it is spelled, and the paths of two entries of a directory are
in the order of the names. -/
namespace Marginalia

namespace Path

variable {p q root : Path} {absolute : Bool} {segments more names : List String} {name : String}

/-- The path below another one that names lead to. -/
def below (p : Path) (names : List String) : Path := names.foldl (fun q n => q.join ⟨n⟩) p

@[simp]
theorem below_nil (p : Path) : p.below [] = p := rfl

@[simp]
theorem below_cons (p : Path) (name : String) (names : List String) :
    p.below (name :: names) = (p.join ⟨name⟩).below names := rfl

theorem below_append (p : Path) (names more : List String) :
    p.below (names ++ more) = (p.below names).below more := List.foldl_append

theorem text_join (hn : IsName name) :
    (p.join ⟨name⟩).text = p.text ++ name ∨ (p.join ⟨name⟩).text = p.text ++ "/" ++ name := by
  rw [join, isAbsolute_mk_name hn]
  simp only [Bool.false_eq_true, if_false]
  split
  · exact .inl rfl
  · exact .inr rfl

theorem isEmpty_eq_false_iff : p.isEmpty = false ↔ p.text ≠ "" := by
  rw [isEmpty, List.isEmpty_eq_false_iff, ne_eq, String.toList_eq_nil_iff]

theorem isEmpty_join (hn : IsName name) : (p.join ⟨name⟩).isEmpty = false := by
  rw [isEmpty_eq_false_iff]
  rcases text_join (p := p) hn with h | h
  · rw [h]
    exact fun hempty => hn.nonempty (String.append_eq_empty_iff.mp hempty).2
  · rw [h]
    exact fun hempty => hn.nonempty (String.append_eq_empty_iff.mp hempty).2

theorem isEmpty_below (hp : p.isEmpty = false) (hnames : ∀ n ∈ names, IsName n) :
    (p.below names).isEmpty = false := by
  induction names generalizing p with
  | nil => exact hp
  | cons name names ih =>
    exact ih (isEmpty_join (hnames name List.mem_cons_self))
      fun n hn => hnames n (List.mem_cons_of_mem name hn)

/-- What a path keeps of its segments below it. -/
theorem below_eq_build (hp : p.isEmpty = false) :
    ∃ segments void, p.segments = segments ++ void ∧ (void = [] ∨ void = [""]) ∧
      (segments = [] → p.isAbsolute = true) ∧
      ∀ names, names ≠ [] → (∀ n ∈ names, IsName n) →
        Segments p.isAbsolute (segments ++ names) ∧
          p.below names = build p.isAbsolute (segments ++ names) := by
  obtain ⟨segments, void, hsegments, hvoid, hjoin⟩ := join_eq_build hp
  refine ⟨segments, void, hsegments, hvoid.imp_right fun h => h.1, ?_, ?_⟩
  · intro hnil
    by_contra habsolute
    obtain ⟨s, hs, hne⟩ := exists_first_segment hp (by simpa using habsolute)
    rw [hsegments, hnil, List.nil_append] at hs
    rcases hvoid with hvoid | ⟨hvoid, _⟩
    · exact absurd hs (by simp [hvoid])
    · exact hne (by simpa [hvoid] using hs.symm)
  · intro names hne hnames
    -- Names are joined at the end, and one that is joined leaves no empty segment behind it.
    induction names using List.reverseRecOn with
    | nil => exact absurd rfl hne
    | append_singleton init last ih =>
      have hlast := hnames last (by simp)
      by_cases hinit : init = []
      · rw [hinit, List.nil_append]
        exact hjoin last hlast
      obtain ⟨hvalid, hbuild⟩ := ih hinit fun n hn => hnames n (List.mem_append_left _ hn)
      obtain ⟨before, name, rfl⟩ := List.eq_nil_or_concat' init |>.resolve_left hinit
      have hname := hnames name (by simp)
      have hq : (build p.isAbsolute (segments ++ (before ++ [name]))).isEmpty = false := by
        rw [← hbuild]
        exact isEmpty_below hp fun n hn => hnames n (List.mem_append_left _ hn)
      obtain ⟨segments', void', hsegments', hvoid', hjoin'⟩ := join_eq_build hq
      rw [hvalid.isAbsolute_build] at hjoin'
      rw [hvalid.segments_build] at hsegments'
      rcases hvoid' with rfl | ⟨_, hslash⟩
      · rw [List.append_nil] at hsegments'
        rw [below_append, hbuild, ← List.append_assoc, hsegments']
        exact hsegments' ▸ hjoin' last hlast
      · rw [← List.append_assoc] at hvalid hslash
        rw [endsWithSlash_build_append hvalid hname.nonempty] at hslash
        exact absurd hslash (by simp)

/-- The steps that segments stand for. -/
def stepsOf (segments : List String) : List PathStep :=
  (segments.filter (· != "")).map fun n =>
    if n = "." then .stay else if n = ".." then .up else .into n

theorem steps_eq_stepsOf (p : Path) : p.steps = stepsOf p.segments := rfl

theorem stepsOf_append (segments more : List String) :
    stepsOf (segments ++ more) = stepsOf segments ++ stepsOf more := by
  rw [stepsOf, List.filter_append, List.map_append]
  rfl

theorem stepsOf_names (hnames : ∀ n ∈ names, IsName n) : stepsOf names = names.map .into := by
  have hfilter : names.filter (· != "") = names :=
    List.filter_eq_self.mpr fun n hn => by simpa using (hnames n hn).nonempty
  rw [stepsOf, hfilter]
  refine List.map_congr_left fun n hn => ?_
  rw [if_neg (hnames n hn).ne_here, if_neg (hnames n hn).ne_up]

theorem steps_below (hp : p.isEmpty = false) (hnames : ∀ n ∈ names, IsName n) :
    (p.below names).steps = p.steps ++ names.map .into := by
  by_cases hne : names = []
  · simp [hne]
  obtain ⟨segments, void, hsegments, hvoid, _, hbelow⟩ := below_eq_build hp
  obtain ⟨hvalid, hbuild⟩ := hbelow names hne hnames
  have hvoid : stepsOf void = [] := by rcases hvoid with rfl | rfl <;> rfl
  rw [hbuild, steps_eq_stepsOf, hvalid.segments_build, steps_eq_stepsOf, hsegments, stepsOf_append,
    stepsOf_append, hvoid, List.append_nil, stepsOf_names hnames]

theorem steps_join (hp : p.isEmpty = false) (hn : IsName name) :
    (p.join ⟨name⟩).steps = p.steps ++ [.into name] := by
  have h : (p.below [name]).steps = p.steps ++ [name].map .into :=
    steps_below hp (by simpa using hn)
  exact h

theorem endsWithSlash_join (hp : p.isEmpty = false) (hn : IsName name) :
    (p.join ⟨name⟩).endsWithSlash = false := by
  obtain ⟨segments, void, _, _, hjoin⟩ := join_eq_build hp
  obtain ⟨hvalid, hbuild⟩ := hjoin name hn
  rw [hbuild]
  exact endsWithSlash_build_append hvalid hn.nonempty

theorem ofSegment?_name (hn : IsName name) : Component.ofSegment? name = some (.name name) := by
  rw [Component.ofSegment?, if_neg, if_neg hn.ne_up]
  exact not_or.mpr ⟨hn.nonempty, hn.ne_here⟩

/-- The component that stands for the beginning of a path. -/
def start (absolute : Bool) (first : Option String) : List Component :=
  if absolute then [.root] else if first == some "." then [.here] else []

theorem components_eq (p : Path) :
    p.components =
      start p.isAbsolute p.segments.head? ++ p.segments.filterMap Component.ofSegment? := by
  rw [components]
  congr 1
  generalize p.segments = segments
  induction segments with
  | nil => rfl
  | cons s segments ih =>
    rw [List.filterMap_cons, List.filter_cons, Component.ofSegment?]
    by_cases hempty : s = ""
    · simpa [hempty] using ih
    by_cases hhere : s = "."
    · simpa [hhere] using ih
    by_cases hup : s = ".."
    · simpa [hup] using ih
    · simpa [hempty, hhere, hup] using ih

/-- Behind the components of some segments stands what follows those segments, but for segments
that name nothing. -/
theorem behind?_append (segments more : List String) :
    ∃ voids, (∀ s ∈ voids, Component.ofSegment? s = none) ∧
      Component.behind? (segments.filterMap Component.ofSegment?) (segments ++ more) =
        some (voids ++ more) := by
  induction segments with
  | nil => exact ⟨[], by simp, by simp [Component.behind?]⟩
  | cons s segments ih =>
    obtain ⟨voids, hvoids, hbehind⟩ := ih
    cases hs : Component.ofSegment? s with
    | some c =>
      refine ⟨voids, hvoids, ?_⟩
      rw [List.filterMap_cons_some hs, List.cons_append, Component.behind?, hs]
      simp only [if_pos]
      exact hbehind
    | none =>
      rw [List.filterMap_cons_none hs]
      cases hcomponents : segments.filterMap Component.ofSegment? with
      | nil =>
        refine ⟨s :: segments, fun n hn => ?_, rfl⟩
        rcases List.mem_cons.mp hn with rfl | hn
        · exact hs
        · exact List.filterMap_eq_nil_iff.mp hcomponents n hn
      | cons c cs =>
        refine ⟨voids, hvoids, ?_⟩
        rw [List.cons_append, Component.behind?, hs]
        simp only
        rw [← hcomponents]
        exact hbehind

theorem ofSegments_voids_append {voids : List String}
    (hvoids : ∀ s ∈ voids, Component.ofSegment? s = none) (hne : names ≠ [])
    (hnames : ∀ n ∈ names, IsName n) :
    ofSegments (voids ++ names) = ⟨"/".intercalate names⟩ := by
  have hdrop : (voids ++ names).dropWhile (fun s => (Component.ofSegment? s).isNone) = names := by
    rw [List.dropWhile_append_of_pos fun s hs => by rw [hvoids s hs]; rfl]
    obtain ⟨name, rest, rfl⟩ := List.exists_cons_of_ne_nil hne
    rw [List.dropWhile_cons_of_neg]
    simp [ofSegment?_name (hnames name List.mem_cons_self)]
  obtain ⟨before, name, rfl⟩ := List.eq_nil_or_concat' names |>.resolve_left hne
  have hname := hnames name (by simp)
  rw [ofSegments, hdrop, List.reverse_append, List.reverse_singleton, List.singleton_append,
    ofReversed, if_neg]
  · simp
  · simp [isVoid, hname.nonempty, hname.ne_here]

/-- The names below a root are what is left of a path there, however the root is spelled. -/
theorem stripPrefix?_below (hroot : root.isEmpty = false) (hne : names ≠ [])
    (hnames : ∀ n ∈ names, IsName n) :
    (root.below names).stripPrefix? root = some ⟨"/".intercalate names⟩ := by
  obtain ⟨segments, void, hsegments, hvoid, hnil, hbelow⟩ := below_eq_build hroot
  obtain ⟨hvalid, hbuild⟩ := hbelow names hne hnames
  have hvoid : void.filterMap Component.ofSegment? = [] := by rcases hvoid with rfl | rfl <;> rfl
  have hcomponents : root.components =
      start root.isAbsolute root.segments.head? ++ segments.filterMap Component.ofSegment? := by
    rw [components_eq]
    congr 1
    rw [hsegments, List.filterMap_append, hvoid, List.append_nil]
  have hstrip (rest : List String) :
      (Component.behind? (rest.filterMap Component.ofSegment?) (rest ++ names)).map ofSegments =
        some ⟨"/".intercalate names⟩ := by
    obtain ⟨voids, hvoids, hbehind⟩ := behind?_append rest names
    rw [hbehind, Option.map_some, ofSegments_voids_append hvoids hne hnames]
  rw [stripPrefix?, hcomponents, hbuild, hvalid.isAbsolute_build, hvalid.segments_build]
  -- Only the first component needs care: a root, a dot that counts, or a segment like any other.
  cases habsolute : root.isAbsolute with
  | true =>
    simp only [start, if_true, List.singleton_append]
    exact hstrip _
  | false =>
    obtain ⟨first, rest, rfl⟩ := List.exists_cons_of_ne_nil fun h => by
      rw [hnil h] at habsolute
      exact absurd habsolute (by simp)
    obtain ⟨s, hs, hempty⟩ := exists_first_segment hroot habsolute
    rw [hsegments, List.cons_append, List.head?_cons, Option.some.injEq] at hs
    subst hs
    rw [hsegments]
    by_cases hhere : first = "."
    · subst hhere
      simpa [start, Component.ofSegment?] using hstrip rest
    · have hfirst : ∃ c, Component.ofSegment? first = some c ∧ c ≠ .root ∧ c ≠ .here := by
        by_cases hup : first = ".."
        · exact ⟨.up, by simp [Component.ofSegment?, hup], by simp, by simp⟩
        · exact ⟨.name first, by simp [Component.ofSegment?, hempty, hhere, hup], by simp, by simp⟩
      obtain ⟨c, hc, hne_root, hne_here⟩ := hfirst
      have hbehind := hstrip (first :: rest)
      rw [List.filterMap_cons_some hc] at hbehind ⊢
      cases c with
      | root => exact absurd rfl hne_root
      | here => exact absurd rfl hne_here
      | up | name => simpa [start, hhere] using hbehind

theorem notAfter_iff (s t : List Char) : Marginalia.notAfter s t = true ↔ ¬ t < s := by
  induction s generalizing t with
  | nil => simp [Marginalia.notAfter]
  | cons c s ih =>
    cases t with
    | nil => simp [Marginalia.notAfter]
    | cons d t =>
      have hlt : c.toNat < d.toNat ↔ c < d := Iff.rfl
      rw [Marginalia.notAfter, List.cons_lt_cons_iff, Bool.or_eq_true, Bool.and_eq_true, ih,
        decide_eq_true_iff, beq_iff_eq, hlt]
      rcases lt_trichotomy c d with h | rfl | h
      · simp [h, h.ne', h.not_gt]
      · simp
      · simp [h, h.ne', h.not_gt]

theorem before_name_name (m n : String) :
    (Component.name m).before (.name n) = decide (m < n) := by
  rw [Component.before, Bool.eq_iff_iff, Bool.not_eq_true', ← Bool.not_eq_true, notAfter_iff,
    not_not, decide_eq_true_iff, String.lt_iff_toList_lt]

theorem Component.before_self (c : Component) : c.before c = false := by
  cases c with
  | root | here | up => rfl
  | name n =>
    rw [before_name_name, decide_eq_false_iff_not]
    exact String.lt_irrefl n

theorem Component.notAfter_append (cs ds es : List Component) :
    Component.notAfter (cs ++ ds) (cs ++ es) = Component.notAfter ds es := by
  induction cs with
  | nil => rfl
  | cons c cs ih => simp [Component.notAfter, Component.before_self, ih]

/-- Two entries of a directory are in the order of their names. -/
theorem join_notAfter_join {m n : String} (hp : p.isEmpty = false) (hm : IsName m)
    (hn : IsName n) : (p.join ⟨m⟩).notAfter (p.join ⟨n⟩) = decide (m ≤ n) := by
  obtain ⟨segments, void, _, _, hnil, hbelow⟩ := below_eq_build hp
  have hcomponents {k : String} (hk : IsName k) : (p.join ⟨k⟩).components =
      start p.isAbsolute segments.head? ++ segments.filterMap Component.ofSegment? ++
        [.name k] := by
    obtain ⟨hvalid, hbuild⟩ := hbelow [k] (by simp) (by simpa using hk)
    rw [below_cons, below_nil] at hbuild
    rw [hbuild, components_eq, hvalid.isAbsolute_build, hvalid.segments_build, List.append_assoc,
      List.filterMap_append, List.filterMap_cons_some (ofSegment?_name hk), List.filterMap_nil]
    congr 1
    cases segments with
    | nil => rw [hnil rfl]; rfl
    | cons => rfl
  rw [Path.notAfter, hcomponents hm, hcomponents hn, Component.notAfter_append,
    Component.notAfter, before_name_name, Component.notAfter, Bool.and_true, ← Bool.decide_or,
    decide_eq_decide, Component.name.injEq]
  exact le_iff_lt_or_eq.symm

end Path

end Marginalia
