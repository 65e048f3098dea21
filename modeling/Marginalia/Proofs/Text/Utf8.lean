import Marginalia.Text.Utf8

/-! A text that is written and read again is the same text, and its bytes are those that
`byteLength` counts. -/
namespace Marginalia.Text

variable {a b c d : UInt8} {n : Nat}

theorem toNat_byte (h : n < 256) : (UInt8.ofNat n).toNat = n := by
  rw [UInt8.toNat_ofNat']
  exact Nat.mod_eq_of_lt h

theorem isContinuation_iff : isContinuation b = true ↔ 0x80 ≤ b.toNat ∧ b.toNat ≤ 0xBF := by
  rw [isContinuation, Bool.and_eq_true, decide_eq_true_iff, decide_eq_true_iff]

theorem eq_lead_iff (h : n < 256) : a = UInt8.ofNat n ↔ a.toNat = n := by
  rw [← UInt8.toNat_inj, toNat_byte h]

/-- The second bytes that a first byte allows. -/
theorem mayFollow_iff : mayFollow a b = true ↔
    0x80 ≤ b.toNat ∧ b.toNat ≤ 0xBF ∧ (a.toNat = 0xE0 → 0xA0 ≤ b.toNat) ∧
      (a.toNat = 0xED → b.toNat ≤ 0x9F) ∧ (a.toNat = 0xF0 → 0x90 ≤ b.toNat) ∧
      (a.toNat = 0xF4 → b.toNat ≤ 0x8F) := by
  have hE0 : a = 0xE0 ↔ a.toNat = 0xE0 := eq_lead_iff (n := 0xE0) (by omega)
  have hED : a = 0xED ↔ a.toNat = 0xED := eq_lead_iff (n := 0xED) (by omega)
  have hF0 : a = 0xF0 ↔ a.toNat = 0xF0 := eq_lead_iff (n := 0xF0) (by omega)
  have hF4 : a = 0xF4 ↔ a.toNat = 0xF4 := eq_lead_iff (n := 0xF4) (by omega)
  simp only [mayFollow, hE0, hED, hF0, hF4]
  split
  · rw [Bool.and_eq_true, isContinuation_iff, decide_eq_true_iff]
    omega
  · split
    · rw [Bool.and_eq_true, isContinuation_iff, decide_eq_true_iff]
      omega
    · split
      · rw [Bool.and_eq_true, isContinuation_iff, decide_eq_true_iff]
        omega
      · split
        · rw [Bool.and_eq_true, isContinuation_iff, decide_eq_true_iff]
          omega
        · rw [isContinuation_iff]
          omega

theorem sequenceLength_eq_one (h : a.toNat < 0x80) : sequenceLength a = 1 := by
  rw [sequenceLength, if_pos h]

theorem sequenceLength_eq_two (h : 0xC2 ≤ a.toNat) (h' : a.toNat ≤ 0xDF) :
    sequenceLength a = 2 := by
  simp only [sequenceLength]
  rw [if_neg (by omega), if_pos (by simp [h, h'])]

theorem sequenceLength_eq_three (h : 0xE0 ≤ a.toNat) (h' : a.toNat ≤ 0xEF) :
    sequenceLength a = 3 := by
  simp only [sequenceLength]
  rw [if_neg (by omega), if_neg (by simp; omega), if_pos (by simp [h, h'])]

theorem sequenceLength_eq_four (h : 0xF0 ≤ a.toNat) (h' : a.toNat ≤ 0xF4) :
    sequenceLength a = 4 := by
  simp only [sequenceLength]
  rw [if_neg (by omega), if_neg (by simp; omega), if_neg (by simp; omega),
    if_pos (by simp [h, h'])]

theorem characters_one (ha : sequenceLength a = 1) (rest : List UInt8) :
    characters (a :: rest) = some (codePoint a.toNat []) :: characters rest := by
  rw [characters.eq_def]
  simp only [ha]

theorem characters_two (ha : sequenceLength a = 2) (hb : mayFollow a b = true)
    (rest : List UInt8) :
    characters (a :: b :: rest) = some (codePoint (a.toNat % 32) [b]) :: characters rest := by
  rw [characters.eq_def]
  simp only [ha, hb, if_true]

theorem characters_three (ha : sequenceLength a = 3) (hb : mayFollow a b = true)
    (hc : isContinuation c = true) (rest : List UInt8) :
    characters (a :: b :: c :: rest) =
      some (codePoint (a.toNat % 16) [b, c]) :: characters rest := by
  rw [characters.eq_def]
  simp only [ha, hb, hc, if_true]

theorem characters_four (ha : sequenceLength a = 4) (hb : mayFollow a b = true)
    (hc : isContinuation c = true) (hd : isContinuation d = true) (rest : List UInt8) :
    characters (a :: b :: c :: d :: rest) =
      some (codePoint (a.toNat % 8) [b, c, d]) :: characters rest := by
  rw [characters.eq_def]
  simp only [ha, hb, hc, hd, if_true]

/-- A byte inside a character carries six bits. -/
theorem toNat_tailByte (n : Nat) : (UInt8.ofNat (n % 64 + 128)).toNat = n % 64 + 128 :=
  toNat_byte (by omega)

theorem isContinuation_tailByte (n : Nat) :
    isContinuation (UInt8.ofNat (n % 64 + 128)) = true := by
  rw [isContinuation_iff, toNat_tailByte]
  omega

theorem codePoint_eq {payload : Nat} {tail : List UInt8} (char : Char)
    (h : tail.foldl (fun n b => n * 64 + b.toNat % 64) payload = char.toNat) :
    codePoint payload tail = char := by
  rw [codePoint, h, Char.ofNat_toNat]

/-- The bytes of a character are read as that character. -/
theorem characters_utf8EncodeChar (char : Char) (rest : List UInt8) :
    characters (String.utf8EncodeChar char ++ rest) = some char :: characters rest := by
  have hvalid : char.toNat < 0xD800 ∨ 0xDFFF < char.toNat ∧ char.toNat < 0x110000 := char.valid
  have hval : char.val.toNat = char.toNat := rfl
  simp only [String.utf8EncodeChar, hval]
  generalize hn : char.toNat = n at hvalid
  -- One case for each number of bytes, in which the digits to base 64 add up to `n`.
  split
  · have ha : (UInt8.ofNat n).toNat = n := toNat_byte (by omega)
    rw [List.singleton_append, characters_one (sequenceLength_eq_one (by omega)),
      codePoint_eq char]
    simp only [List.foldl_nil]
    omega
  split
  · have ha : (UInt8.ofNat (n / 64 % 32 + 0xC0)).toNat = n / 64 % 32 + 0xC0 :=
      toNat_byte (by omega)
    have hb := toNat_tailByte n
    rw [List.cons_append, List.singleton_append,
      characters_two (sequenceLength_eq_two (by omega) (by omega)), codePoint_eq char]
    · simp only [List.foldl_cons, List.foldl_nil]
      omega
    · rw [mayFollow_iff]
      omega
  split
  · have ha : (UInt8.ofNat (n / 4096 % 16 + 0xE0)).toNat = n / 4096 % 16 + 0xE0 :=
      toNat_byte (by omega)
    have hb := toNat_tailByte (n / 64)
    have hc := toNat_tailByte n
    rw [List.cons_append, List.cons_append, List.singleton_append,
      characters_three (sequenceLength_eq_three (by omega) (by omega)) _
        (isContinuation_tailByte n), codePoint_eq char]
    · simp only [List.foldl_cons, List.foldl_nil]
      omega
    · rw [mayFollow_iff]
      omega
  · have ha : (UInt8.ofNat (n / 262144 % 8 + 0xF0)).toNat = n / 262144 % 8 + 0xF0 :=
      toNat_byte (by omega)
    have hb := toNat_tailByte (n / 4096)
    have hc := toNat_tailByte (n / 64)
    have hd := toNat_tailByte n
    rw [List.cons_append, List.cons_append, List.cons_append, List.singleton_append,
      characters_four (sequenceLength_eq_four (by omega) (by omega)) _
        (isContinuation_tailByte (n / 64)) (isContinuation_tailByte n),
      codePoint_eq char]
    · simp only [List.foldl_cons, List.foldl_nil]
      omega
    · rw [mayFollow_iff]
      omega

/-- Reading gives back what was written. -/
theorem decodeLossy_encode (s : List Char) : decodeLossy (encode s) = s := by
  -- No byte of a text is malformed, so nothing is replaced.
  have hcharacters : characters (encode s) = s.map some := by
    induction s with
    | nil => rfl
    | cons char s ih =>
      rw [encode, List.flatMap_cons, characters_utf8EncodeChar, List.map_cons, ← ih]
      rfl
  rw [decodeLossy, hcharacters, List.map_map]
  exact List.map_id s

theorem byteLength_append (s t : List Char) :
    byteLength (s ++ t) = byteLength s + byteLength t := by
  induction s with
  | nil => simp [byteLength]
  | cons char s ih =>
    have hcons (s : List Char) : byteLength (char :: s) = char.utf8Size + byteLength s := rfl
    rw [List.cons_append, hcons, hcons, ih, Nat.add_assoc]

theorem utf8ByteSize_ofList (s : List Char) : (String.ofList s).utf8ByteSize = byteLength s := by
  induction s with
  | nil => rfl
  | cons char s ih =>
    rw [← List.singleton_append, String.ofList_append, String.utf8ByteSize_append, ih,
      ← String.singleton_eq_ofList, String.utf8ByteSize_singleton]
    rfl

end Marginalia.Text
