import Marginalia.Proofs.Color.Capacity
import Mathlib.Data.List.Forall2

/-! Colors in JSON. A color is written in one way and read in several: fields may stand in any
order and among others, channels may stand in an array without names, and texts may be too long.
What is read from the written form is the color itself, so reading and writing again never
changes it. -/
namespace Marginalia

namespace Json

variable {j : Json} {names : List String} {values : List Json} {v : UInt8}

/-- An object has these values under these names, each name once, or an array has just these
values. -/
inductive Holds (names : List String) (values : List Json) : Json → Prop
  | object {fields : List (String × Json)}
      (h : List.Forall₂ (fun n v => (fields.filter fun f => f.1 = n) = [(n, v)]) names values) :
      Holds names values (.object fields)
  | array (h : values.length = names.length) : Holds names values (.array values)

theorem mapM_eq_some_iff {α β : Type} {f : α → Option β} {xs : List α} {ys : List β} :
    xs.mapM f = some ys ↔ List.Forall₂ (fun x y => f x = some y) xs ys := by
  induction xs generalizing ys with
  | nil => cases ys <;> simp [List.forall₂_nil_left_iff]
  | cons x xs ih =>
    rw [List.mapM_cons]
    cases ys with
    | nil => cases f x <;> cases xs.mapM f <;> simp [List.forall₂_nil_right_iff]
    | cons y ys =>
      rw [List.forall₂_cons, ← ih]
      cases f x <;> cases xs.mapM f <;> simp

/-- A field is read when its name stands there once. -/
theorem field?_eq_some_iff {fields : List (String × Json)} {name : String} :
    field? fields name = some j ↔ (fields.filter fun f => f.1 = name) = [(name, j)] := by
  constructor
  · intro h
    rw [field?] at h
    split at h
    · next f hf =>
      have hmem : f ∈ fields.filter fun f => f.1 = name := hf ▸ List.mem_singleton_self f
      have hname : f.1 = name := by simpa using (List.mem_filter.mp hmem).2
      rw [hf, ← Option.some.inj h, ← hname]
    · exact absurd h (by simp)
  · intro h
    rw [field?, h]

/-- Fields are read where they are held, and nowhere else. -/
theorem fields?_eq_some_iff : j.fields? names = some values ↔ j.Holds names values := by
  constructor
  · intro h
    cases j with
    | object fields =>
      exact .object ((mapM_eq_some_iff.mp h).imp fun _ _ => field?_eq_some_iff.mp)
    | array items =>
      rw [fields?] at h
      split at h
      · next hlength =>
        rw [Option.some.inj h] at hlength ⊢
        exact .array hlength
      · exact absurd h (by simp)
    | null | bool | number | text => exact absurd h (by simp [fields?])
  · rintro (h | h)
    · exact mapM_eq_some_iff.mpr (h.imp fun _ _ => field?_eq_some_iff.mpr)
    · rw [fields?, if_pos h]

/-- The number of a channel. -/
def channel (v : UInt8) : Json := .number (.integer v.toNat)

theorem byte?_channel (v : UInt8) : (channel v).byte? = some v := by
  have hbounds : (0 : Int) ≤ v.toNat ∧ (v.toNat : Int) ≤ 255 := by
    have := v.toNat_lt
    omega
  rw [channel, byte?, JsonNumber.toByte?, if_pos hbounds, Int.toNat_natCast, UInt8.ofNat_toNat]

/-- Only the integers of channels are read as channels. -/
theorem byte?_eq_some_iff : j.byte? = some v ↔ j = channel v := by
  constructor
  · intro h
    cases j with
    | number n =>
      cases n with
      | integer n =>
        rw [byte?, JsonNumber.toByte?] at h
        split at h
        · next hbounds =>
          have hv : v.toNat = n.toNat := by
            rw [← Option.some.inj h, Text.toNat_byte (by omega)]
          rw [channel, hv, Int.toNat_of_nonneg hbounds.1]
        · exact absurd h (by simp)
      | decimal => exact absurd h (by simp [byte?, JsonNumber.toByte?])
    | null | bool | text | array | object => exact absurd h (by simp [byte?])
  · rintro rfl
    exact byte?_channel v

end Json

/-- A color text is read from any string, and from nothing else. -/
theorem Hex.ofJson?_eq_some_iff {j : Json} {h : Hex} :
    Hex.ofJson? j = some h ↔ ∃ s, j = .text s ∧ h.text.toList = s.toList.take 7 := by
  constructor
  · intro hread
    cases j with
    | text s =>
      refine ⟨s, rfl, ?_⟩
      rw [← Option.some.inj hread, toList_ofText]
    | null | bool | number | array | object => exact absurd hread (by simp [ofJson?])
  · rintro ⟨s, rfl, htext⟩
    rw [← toList_ofText, String.toList_inj] at htext
    rw [ofJson?, eq_of_text htext]

namespace Rgba

variable {j : Json} {c : Rgba}

/-- A color by its channels is read where they are held. -/
theorem ofJson?_eq_some_iff : ofJson? j = some c ↔
    j.Holds ["r", "g", "b", "a"]
      [.channel c.red, .channel c.green, .channel c.blue, .channel c.alpha] := by
  rw [← Json.fields?_eq_some_iff, ofJson?]
  constructor
  · intro h
    split at h
    · next r g b a hfields =>
      simp only [Option.bind_eq_bind, Option.bind_eq_some_iff, Json.byte?_eq_some_iff] at h
      obtain ⟨red, rfl, green, rfl, blue, rfl, alpha, rfl, hc⟩ := h
      rw [← Option.some.inj hc]
      exact hfields
    · exact absurd h (by simp)
  · intro h
    simp only [h, Json.byte?_channel, Option.bind_eq_bind, Option.bind_some]
    rfl

/-- The written form holds the channels. -/
theorem holds_toJson (c : Rgba) : c.toJson.Holds ["r", "g", "b", "a"]
    [.channel c.red, .channel c.green, .channel c.blue, .channel c.alpha] :=
  .object (.cons rfl (.cons rfl (.cons rfl (.cons rfl .nil))))

end Rgba

/-- A color text is read from any string and its channels are read from any object or array that
holds them. Reading again from the form in which a color is written gives the same color, whatever
it was read from at first and in whatever way it came about. -/
theorem Color.json_keeps_colors :
    (∀ (j : Json) (h : Hex), Hex.ofJson? j = some h ↔
        ∃ s, j = .text s ∧ h.text.toList = s.toList.take 7) ∧
      (∀ (j : Json) (c : Rgba), Rgba.ofJson? j = some c ↔ j.Holds ["r", "g", "b", "a"]
        [.channel c.red, .channel c.green, .channel c.blue, .channel c.alpha]) ∧
      (∀ (j : Json) (h : Hex), Hex.ofJson? j = some h → Hex.ofJson? h.toJson = some h) ∧
      (∀ (j : Json) (c : Rgba), Rgba.ofJson? j = some c → Rgba.ofJson? c.toJson = some c) ∧
      (∀ h : Hex, Obtained (.hex h) → Hex.ofJson? h.toJson = some h) ∧
      ∀ c : Rgba, Rgba.ofJson? c.toJson = some c := by
  have hhex (h : Hex) : Hex.ofJson? h.toJson = some h := by
    refine Hex.ofJson?_eq_some_iff.mpr ⟨h.text, rfl, ?_⟩
    rw [List.take_of_length_le]
    exact String.length_toList.symm ▸ h.length_le
  have hrgba (c : Rgba) : Rgba.ofJson? c.toJson = some c :=
    Rgba.ofJson?_eq_some_iff.mpr c.holds_toJson
  exact ⟨fun _ _ => Hex.ofJson?_eq_some_iff, fun _ _ => Rgba.ofJson?_eq_some_iff,
    fun _ h _ => hhex h, fun _ c _ => hrgba c, fun h _ => hhex h, hrgba⟩

/-- An object in another order and with a field too many. -/
def scatteredColor : Json :=
  .object [("a", .number (.integer 4)), ("x", .null), ("b", .number (.integer 3)),
    ("g", .number (.integer 2)), ("r", .number (.integer 255))]

theorem Color.json_keeps_colors_scattered :
    Rgba.ofJson? scatteredColor = some ⟨255, 2, 3, 4⟩ ∧
      Rgba.ofJson? (Rgba.toJson ⟨255, 2, 3, 4⟩) = some ⟨255, 2, 3, 4⟩ ∧
      Hex.ofJson? (.text "#E31D39FF00") = some (.ofText "#E31D39") ∧
      Hex.ofJson? (Hex.ofText "#E31D39").toJson = some (.ofText "#E31D39") := by
  have hscattered : Rgba.ofJson? scatteredColor = some ⟨255, 2, 3, 4⟩ := by decide +kernel
  have hlong : Hex.ofJson? (.text "#E31D39FF00") = some (.ofText "#E31D39") := by decide +kernel
  obtain ⟨-, -, hhex, hrgba, -, -⟩ := json_keeps_colors
  exact ⟨hscattered, hrgba _ _ hscattered, hlong, hhex _ _ hlong⟩

end Marginalia
