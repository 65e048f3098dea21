import Marginalia.Proofs.Text.Lines
import Marginalia.Proofs.Text.Utf8

/-! Bytes read part by part, a part being a character or what is malformed. A byte below 128 ends
the part before it and belongs to no other, so that what stands before it and what stands behind it
are read apart, and only it spells its character. -/
namespace Marginalia.Text

/-- Bytes at the front of others that are read together: the bytes of a character, a byte that
begins none, or the first bytes of a character that does not go on. -/
inductive Part : List UInt8 → Option Char → List UInt8 → Prop
  | one {a : UInt8} {rest : List UInt8} (ha : sequenceLength a = 1) :
      Part [a] (some (codePoint a.toNat [])) rest
  | two {a b : UInt8} {rest : List UInt8} (ha : sequenceLength a = 2)
      (hb : mayFollow a b = true) : Part [a, b] (some (codePoint (a.toNat % 32) [b])) rest
  | three {a b c : UInt8} {rest : List UInt8} (ha : sequenceLength a = 3)
      (hb : mayFollow a b = true) (hc : isContinuation c = true) :
      Part [a, b, c] (some (codePoint (a.toNat % 16) [b, c])) rest
  | four {a b c d : UInt8} {rest : List UInt8} (ha : sequenceLength a = 4)
      (hb : mayFollow a b = true) (hc : isContinuation c = true) (hd : isContinuation d = true) :
      Part [a, b, c, d] (some (codePoint (a.toNat % 8) [b, c, d])) rest
  | stray {a : UInt8} {rest : List UInt8} (ha : sequenceLength a = 0) : Part [a] none rest
  | cutOne {a : UInt8} {rest : List UInt8} (ha : 2 ≤ sequenceLength a)
      (hrest : ∀ b ∈ rest.head?, mayFollow a b = false) : Part [a] none rest
  | cutTwo {a b : UInt8} {rest : List UInt8} (ha : 3 ≤ sequenceLength a)
      (hb : mayFollow a b = true) (hrest : ∀ c ∈ rest.head?, isContinuation c = false) :
      Part [a, b] none rest
  | cutThree {a b c : UInt8} {rest : List UInt8} (ha : sequenceLength a = 4)
      (hb : mayFollow a b = true) (hc : isContinuation c = true)
      (hrest : ∀ d ∈ rest.head?, isContinuation d = false) : Part [a, b, c] none rest

variable {b : UInt8} {item : Option Char} {part rest x : List UInt8}

/-- The first bytes that characters of each length begin with. -/
theorem sequenceLength_cases (a : UInt8) :
    sequenceLength a = 0 ∨ (sequenceLength a = 1 ∧ a.toNat < 0x80) ∨
      (sequenceLength a = 2 ∧ 0xC2 ≤ a.toNat ∧ a.toNat ≤ 0xDF) ∨
      (sequenceLength a = 3 ∧ 0xE0 ≤ a.toNat ∧ a.toNat ≤ 0xEF) ∨
      (sequenceLength a = 4 ∧ 0xF0 ≤ a.toNat ∧ a.toNat ≤ 0xF4) := by
  simp only [sequenceLength, Bool.and_eq_true, decide_eq_true_eq]
  split_ifs <;> simp_all

theorem sequenceLength_le_four (a : UInt8) : sequenceLength a ≤ 4 := by
  have hcases := sequenceLength_cases a
  omega

theorem characters_of_part (h : Part part item rest) :
    characters (part ++ rest) = item :: characters rest := by
  cases h with
  | one ha => exact characters_one ha rest
  | two ha hb => exact characters_two ha hb rest
  | three ha hb hc => exact characters_three ha hb hc rest
  | four ha hb hc hd => exact characters_four ha hb hc hd rest
  | stray ha =>
    rw [List.singleton_append, characters.eq_def]
    simp only [ha]
  | @cutOne a _ ha hrest =>
    have hle := sequenceLength_le_four a
    obtain ha | ha | ha : sequenceLength a = 2 ∨ sequenceLength a = 3 ∨ sequenceLength a = 4 := by
      omega
    all_goals
      rw [List.singleton_append, characters.eq_def]
      cases rest with
      | nil => simp only [ha, characters]
      | cons b rest => simp only [ha, hrest b rfl, Bool.false_eq_true, if_false]
  | @cutTwo a b _ ha hb hrest =>
    have hle := sequenceLength_le_four a
    obtain ha | ha : sequenceLength a = 3 ∨ sequenceLength a = 4 := by omega
    all_goals
      rw [List.cons_append, List.singleton_append, characters.eq_def]
      cases rest with
      | nil => simp only [ha, hb, if_true, characters]
      | cons c rest => simp only [ha, hb, hrest c rfl, Bool.false_eq_true, if_true, if_false]
  | cutThree ha hb hc hrest =>
    rw [List.cons_append, List.cons_append, List.singleton_append, characters.eq_def]
    cases rest with
    | nil => simp only [ha, hb, hc, if_true, characters]
    | cons d rest => simp only [ha, hb, hc, hrest d rfl, Bool.false_eq_true, if_true, if_false]

/-- Bytes that there are begin with a part. -/
theorem exists_part (a : UInt8) (x : List UInt8) :
    ∃ part item rest, a :: x = part ++ rest ∧ Part part item rest := by
  have hstop {p : UInt8 → Bool} {x : List UInt8} (h : ¬∃ b rest, x = b :: rest ∧ p b = true) :
      ∀ b ∈ x.head?, p b = false := by
    intro b hb
    rw [← Bool.not_eq_true]
    obtain ⟨rest, rfl⟩ := List.head?_eq_some_iff.mp hb
    exact fun hp => h ⟨b, rest, rfl, hp⟩
  obtain ha | ⟨ha, -⟩ | ha : sequenceLength a = 0 ∨ (sequenceLength a = 1 ∧ a.toNat < 0x80) ∨
      2 ≤ sequenceLength a := by
    have hcases := sequenceLength_cases a
    omega
  · exact ⟨[a], none, x, rfl, .stray ha⟩
  · exact ⟨[a], _, x, rfl, .one ha⟩
  have hle := sequenceLength_le_four a
  by_cases hx : ∃ b rest, x = b :: rest ∧ mayFollow a b = true
  swap
  · exact ⟨[a], none, x, rfl, .cutOne ha (hstop hx)⟩
  obtain ⟨b, x, rfl, hb⟩ := hx
  by_cases htwo : sequenceLength a = 2
  · exact ⟨[a, b], _, x, rfl, .two htwo hb⟩
  by_cases hx : ∃ c rest, x = c :: rest ∧ isContinuation c = true
  swap
  · exact ⟨[a, b], none, x, rfl, .cutTwo (by omega) hb (hstop hx)⟩
  obtain ⟨c, x, rfl, hc⟩ := hx
  by_cases hthree : sequenceLength a = 3
  · exact ⟨[a, b, c], _, x, rfl, .three hthree hb hc⟩
  by_cases hx : ∃ d rest, x = d :: rest ∧ isContinuation d = true
  swap
  · exact ⟨[a, b, c], none, x, rfl, .cutThree (by omega) hb hc (hstop hx)⟩
  obtain ⟨d, x, rfl, hd⟩ := hx
  exact ⟨[a, b, c, d], _, x, rfl, .four (by omega) hb hc hd⟩

theorem not_isContinuation_of_lt (h : b.toNat < 0x80) : isContinuation b = false := by
  rw [← Bool.not_eq_true, isContinuation_iff]
  omega

theorem not_mayFollow_of_lt (a : UInt8) (h : b.toNat < 0x80) : mayFollow a b = false := by
  rw [← Bool.not_eq_true, mayFollow_iff]
  omega

/-- A byte below 128 behind the rest changes nothing for the part before it. -/
theorem Part.append (h : Part part item rest) (hb : b.toNat < 0x80) (y : List UInt8) :
    Part part item (rest ++ b :: y) := by
  have hhead {p : UInt8 → Bool} (hp : p b = false) (hrest : ∀ c ∈ rest.head?, p c = false) :
      ∀ c ∈ (rest ++ b :: y).head?, p c = false := by
    cases rest with
    | nil =>
      intro c hc
      rw [← Option.some.inj hc]
      exact hp
    | cons => exact hrest
  cases h with
  | one ha => exact .one ha
  | two ha hb => exact .two ha hb
  | three ha hb hc => exact .three ha hb hc
  | four ha hb hc hd => exact .four ha hb hc hd
  | stray ha => exact .stray ha
  | cutOne ha hrest => exact .cutOne ha (hhead (not_mayFollow_of_lt _ hb) hrest)
  | cutTwo ha hb' hrest => exact .cutTwo ha hb' (hhead (not_isContinuation_of_lt hb) hrest)
  | cutThree ha hb' hc hrest =>
    exact .cutThree ha hb' hc (hhead (not_isContinuation_of_lt hb) hrest)

theorem Part.ne_nil (h : Part part item rest) : part ≠ [] := by
  cases h <;> simp

/-- Induction on the parts of bytes. -/
theorem induction_on_parts {P : List UInt8 → Prop} (nil : P [])
    (part : ∀ part item rest, Part part item rest → P rest → P (part ++ rest))
    (x : List UInt8) : P x := by
  induction hlength : x.length using Nat.strongRecOn generalizing x with
  | ind n ih =>
    cases x with
    | nil => exact nil
    | cons a x =>
      obtain ⟨first, item, rest, heq, hpart⟩ := exists_part a x
      have hpos := List.length_pos_of_ne_nil hpart.ne_nil
      rw [heq, List.length_append] at hlength
      rw [heq]
      exact part first item rest hpart (ih rest.length (by omega) rest rfl)

/-- Bytes are read in two parts at any byte below 128. -/
theorem characters_append (x : List UInt8) (hb : b.toNat < 0x80) (y : List UInt8) :
    characters (x ++ b :: y) = characters x ++ characters (b :: y) := by
  induction x using induction_on_parts with
  | nil => rw [characters, List.nil_append, List.nil_append]
  | part part item rest hpart ih =>
    rw [List.append_assoc, characters_of_part (hpart.append hb y), ih, characters_of_part hpart,
      List.cons_append]

theorem characters_cons_of_lt (hb : b.toNat < 0x80) (y : List UInt8) :
    characters (b :: y) = some (Char.ofNat b.toNat) :: characters y :=
  characters_one (sequenceLength_eq_one hb) y

/-- A number that is no surrogate and not too large is that of the character it spells. -/
theorem toNat_codePoint {payload n : Nat} {tail : List UInt8}
    (h : tail.foldl (fun n b => n * 64 + b.toNat % 64) payload = n)
    (hvalid : n < 0xD800 ∨ 0xDFFF < n ∧ n < 0x110000) : (codePoint payload tail).toNat = n := by
  rw [codePoint, h, Char.ofNat, dif_pos hvalid]
  rfl

theorem ofNat_eq {a : UInt8} {n : Nat} (h : a.toNat = n) : UInt8.ofNat n = a := by
  rw [← h, UInt8.ofNat_toNat]

/-- Reading gives every character the bytes that spell it. -/
theorem Part.utf8EncodeChar_eq {char : Char} (h : Part part (some char) rest) :
    String.utf8EncodeChar char = part := by
  have hval : char.val.toNat = char.toNat := rfl
  rw [String.utf8EncodeChar, hval]
  generalize hitem : some char = item at h
  cases h with
  | @one a _ ha =>
    have hcases := sequenceLength_cases a
    have hn : char.toNat = a.toNat := by
      rw [Option.some.inj hitem, toNat_codePoint rfl (by simp; omega)]
      rfl
    simp only [hn]
    rw [if_pos (by omega), ofNat_eq rfl]
  | @two a b _ ha hb =>
    have hcases := sequenceLength_cases a
    rw [mayFollow_iff] at hb
    have hn : char.toNat = a.toNat % 32 * 64 + b.toNat % 64 := by
      rw [Option.some.inj hitem, toNat_codePoint rfl (by simp; omega)]
      rfl
    simp only [hn]
    rw [if_neg (by omega), if_pos (by omega), ofNat_eq (a := a) (by omega),
      ofNat_eq (a := b) (by omega)]
  | @three a b c _ ha hb hc =>
    have hcases := sequenceLength_cases a
    rw [mayFollow_iff] at hb
    rw [isContinuation_iff] at hc
    have hn : char.toNat = (a.toNat % 16 * 64 + b.toNat % 64) * 64 + c.toNat % 64 := by
      rw [Option.some.inj hitem, toNat_codePoint rfl (by simp; omega)]
      rfl
    simp only [hn]
    rw [if_neg (by omega), if_neg (by omega), if_pos (by omega), ofNat_eq (a := a) (by omega),
      ofNat_eq (a := b) (by omega), ofNat_eq (a := c) (by omega)]
  | @four a b c d _ ha hb hc hd =>
    have hcases := sequenceLength_cases a
    rw [mayFollow_iff] at hb
    rw [isContinuation_iff] at hc hd
    have hn : char.toNat =
        ((a.toNat % 8 * 64 + b.toNat % 64) * 64 + c.toNat % 64) * 64 + d.toNat % 64 := by
      rw [Option.some.inj hitem, toNat_codePoint rfl (by simp; omega)]
      rfl
    simp only [hn]
    rw [if_neg (by omega), if_neg (by omega), if_neg (by omega), ofNat_eq (a := a) (by omega),
      ofNat_eq (a := b) (by omega), ofNat_eq (a := c) (by omega), ofNat_eq (a := d) (by omega)]
  | stray | cutOne | cutTwo | cutThree => exact absurd hitem (by simp)

@[simp]
theorem decodeLossy_nil : decodeLossy [] = [] := by
  rw [decodeLossy, characters, List.map_nil]

theorem decodeLossy_of_part (h : Part part item rest) :
    decodeLossy (part ++ rest) = item.getD replacement :: decodeLossy rest := by
  rw [decodeLossy, characters_of_part h, List.map_cons, decodeLossy]

/-- Text is read in two parts at any byte below 128. -/
theorem decodeLossy_append_cons (x : List UInt8) (hb : b.toNat < 0x80) (y : List UInt8) :
    decodeLossy (x ++ b :: y) = decodeLossy x ++ Char.ofNat b.toNat :: decodeLossy y := by
  simp only [decodeLossy]
  rw [characters_append x hb, characters_cons_of_lt hb, List.map_append, List.map_cons,
    Option.getD_some]

theorem decodeLossy_append_lineFeed (x y : List UInt8) :
    decodeLossy (x ++ 0x0A :: y) = decodeLossy x ++ '\n' :: decodeLossy y :=
  decodeLossy_append_cons x (by decide) y

/-- No line feed comes from malformed bytes. -/
theorem lineFeed_notMem_decodeLossy (h : 0x0A ∉ x) : '\n' ∉ decodeLossy x := by
  induction x using induction_on_parts with
  | nil => simp
  | part part item rest hpart ih =>
    rw [List.mem_append, not_or] at h
    rw [decodeLossy_of_part hpart, List.mem_cons, not_or]
    refine ⟨fun heq => h.1 ?_, ih h.2⟩
    cases item with
    | none => exact absurd heq (by decide)
    | some char =>
      obtain rfl : '\n' = char := heq
      rw [← hpart.utf8EncodeChar_eq]
      exact List.mem_singleton_self _

/-- Lines of bytes are read one by one. -/
theorem splitOn_decodeLossy (x : List UInt8) :
    (decodeLossy x).splitOn '\n' = (x.splitOn 0x0A).map decodeLossy :=
  splitOn_map decodeLossy_nil decodeLossy_append_lineFeed (fun _ => lineFeed_notMem_decodeLossy) x

theorem encode_append (s t : List Char) : encode (s ++ t) = encode s ++ encode t :=
  List.flatMap_append

theorem encode_append_lineFeed (s t : List Char) :
    encode (s ++ '\n' :: t) = encode s ++ 0x0A :: encode t := by
  rw [encode_append]
  rfl

theorem encode_intercalate (lines : List (List Char)) :
    encode (['\n'].intercalate lines) = [0x0A].intercalate (lines.map encode) :=
  map_intercalate rfl encode_append_lineFeed lines

theorem eq_lineFeed_of_mem_utf8EncodeChar {c : Char} (h : 0x0A ∈ String.utf8EncodeChar c) :
    c = '\n' := by
  -- Reading the character again, a line feed is found in it.
  obtain ⟨x, y, hxy⟩ := List.append_of_mem h
  have hread : decodeLossy (String.utf8EncodeChar c) = [c] := by
    have hencode := decodeLossy_encode [c]
    rwa [encode, List.flatMap_singleton] at hencode
  rw [hxy, decodeLossy_append_lineFeed] at hread
  have hmem : '\n' ∈ [c] := hread ▸ by simp
  exact (List.mem_singleton.mp hmem).symm

theorem lineFeed_notMem_encode {s : List Char} (h : '\n' ∉ s) : 0x0A ∉ encode s := by
  rw [encode, List.mem_flatMap]
  rintro ⟨c, hc, hmem⟩
  exact h (eq_lineFeed_of_mem_utf8EncodeChar hmem ▸ hc)

/-- Bytes that are read and written again, with a replacement character for each malformed part. -/
def reread (x : List UInt8) : List UInt8 := encode (decodeLossy x)

@[simp]
theorem reread_nil : reread [] = [] := by
  rw [reread, decodeLossy_nil]
  rfl

/-- The parts of bytes are written again one by one. Characters keep their bytes, and what is
malformed is replaced. -/
theorem reread_of_part (h : Part part item rest) :
    reread (part ++ rest) = (if item.isSome then part else [0xEF, 0xBF, 0xBD]) ++ reread rest := by
  rw [reread, decodeLossy_of_part h, ← List.singleton_append, encode_append, reread, encode,
    List.flatMap_singleton]
  cases item with
  | none => rfl
  | some char =>
    rw [Option.getD_some, h.utf8EncodeChar_eq]
    rfl

/-- The bytes of a text stay as they are. -/
theorem reread_encode (s : List Char) : reread (encode s) = encode s := by
  rw [reread, decodeLossy_encode]

theorem decodeLossy_reread (x : List UInt8) : decodeLossy (reread x) = decodeLossy x :=
  decodeLossy_encode _

theorem lineFeed_notMem_reread (h : 0x0A ∉ x) : 0x0A ∉ reread x :=
  lineFeed_notMem_encode (lineFeed_notMem_decodeLossy h)

theorem reread_append_lineFeed (x y : List UInt8) :
    reread (x ++ 0x0A :: y) = reread x ++ 0x0A :: reread y := by
  rw [reread, decodeLossy_append_lineFeed, encode_append_lineFeed, reread, reread]

/-- Lines of bytes are read and written again one by one. -/
theorem reread_intercalate (lines : List (List UInt8)) :
    reread ([0x0A].intercalate lines) = [0x0A].intercalate (lines.map reread) :=
  map_intercalate reread_nil reread_append_lineFeed lines

theorem splitOn_reread (x : List UInt8) :
    (reread x).splitOn 0x0A = (x.splitOn 0x0A).map reread :=
  splitOn_map reread_nil reread_append_lineFeed (fun _ => lineFeed_notMem_reread) x

end Marginalia.Text
