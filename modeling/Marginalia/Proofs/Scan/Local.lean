import Marginalia.Proofs.Tag.LineEnd
import Marginalia.Proofs.Text.Parts
import Marginalia.Scan

/-! What a file brings to a walk, by the lines of its bytes. Main statement: the findings on both
sides of a line feed do not depend on each other, whatever bytes stand there, and carriage returns
in front of line feeds change nothing. -/
namespace Marginalia

namespace Text

/-- Bytes with a carriage return in front of each line feed. -/
def returned (x : List UInt8) : List UInt8 :=
  x.flatMap fun b => if b = 0x0A then [0x0D, 0x0A] else [b]

theorem returned_append (x y : List UInt8) : returned (x ++ y) = returned x ++ returned y :=
  List.flatMap_append

theorem returned_of_notMem {x : List UInt8} (h : 0x0A ∉ x) : returned x = x := by
  have hkept : ∀ b ∈ x, (if b = 0x0A then [0x0D, 0x0A] else [b]) = [b] := by
    intro b hb
    rw [if_neg]
    rintro rfl
    exact h hb
  rw [returned, List.flatMap_congr hkept, List.flatMap_singleton']

theorem returned_append_lineFeed {x : List UInt8} (h : 0x0A ∉ x) (y : List UInt8) :
    returned (x ++ 0x0A :: y) = (x ++ [0x0D]) ++ 0x0A :: returned y := by
  rw [returned_append, returned_of_notMem h, returned, List.flatMap_cons, if_pos rfl, returned]
  simp

/-- In a text, the bytes of line feeds are those of the character. -/
theorem encode_returned (s : List Char) :
    encode (s.flatMap fun c => if c = '\n' then ['\r', '\n'] else [c]) = returned (encode s) := by
  induction s with
  | nil => rfl
  | cons c s ih =>
    have hcons : encode (c :: s) = String.utf8EncodeChar c ++ encode s := List.flatMap_cons
    rw [List.flatMap_cons, encode_append, ih, hcons, returned_append]
    congr 1
    split
    · next hc => rw [hc]; rfl
    · next hc =>
      rw [returned_of_notMem (mt eq_lineFeed_of_mem_utf8EncodeChar hc), encode,
        List.flatMap_singleton]

end Text

namespace Finding

/-- A carriage return at the end of a text changes no finding of its lines. -/
theorem ofLines_append_return (path : Path) (s : List Char) :
    ofLines path (s ++ ['\r']) = ofLines path s := by
  induction s using Text.induction_on_cuts '\n' with
  | last body hbody =>
    have hbody' : '\n' ∉ body ++ ['\r'] := by simp [hbody]
    rw [ofLines_last path hbody', ofText_append_blank (by decide) (by decide),
      ofLines_last path hbody]
  | line body rest hbody ih =>
    rw [List.append_assoc, List.cons_append, ofLines_line path hbody, ih, ofLines_line path hbody]

/-- The bytes on both sides of a line feed are read apart. -/
theorem ofBytes_append (path : Path) (x y : List UInt8) :
    ofBytes path (x ++ 0x0A :: y) = ofBytes path x ++ ofBytes path y := by
  rw [ofBytes, Text.decodeLossy_append_lineFeed, ofLines_append, ofBytes, ofBytes]

/-- The findings of bytes are those of their lines, each read by itself. -/
theorem ofBytes_eq_flatMap_lines (path : Path) (x : List UInt8) :
    ofBytes path x = (x.splitOn 0x0A).flatMap fun line => ofText path (Text.decodeLossy line) := by
  induction x using Text.induction_on_cuts (0x0A : UInt8) with
  | last body hbody =>
    rw [List.splitOn_eq_singleton hbody, List.flatMap_singleton, ofBytes,
      ofLines_last path (Text.lineFeed_notMem_decodeLossy hbody)]
  | line body rest hbody ih =>
    rw [List.splitOn_append_cons_self_of_not_mem hbody, List.flatMap_cons, ofBytes_append, ih,
      ofBytes, ofLines_last path (Text.lineFeed_notMem_decodeLossy hbody)]

theorem ofBytes_append_return (path : Path) (x : List UInt8) :
    ofBytes path (x ++ [0x0D]) = ofBytes path x := by
  rw [ofBytes, Text.decodeLossy_append_cons x (by decide), Text.decodeLossy_nil]
  exact ofLines_append_return path _

theorem ofBytes_returned (path : Path) (x : List UInt8) :
    ofBytes path (Text.returned x) = ofBytes path x := by
  induction x using Text.induction_on_cuts (0x0A : UInt8) with
  | last body hbody => rw [Text.returned_of_notMem hbody]
  | line body rest hbody ih =>
    rw [Text.returned_append_lineFeed hbody, ofBytes_append, ofBytes_append_return, ih,
      ofBytes_append]

end Finding

namespace Scan

theorem findings_ofFile_of_read {top : Node} {file : Path} {bytes : List UInt8}
    (h : top.read file = .ok bytes) (o : Options) :
    (ofFile top o file).findings = Finding.ofBytes (o.relative file) bytes := by
  rw [ofFile, Node.readText, h, Finding.ofBytes]
  simp only [String.toList_ofList]

/-- What a walk finds in a file depends on its bytes line by line. It is what the lines bring that
are read one by one, so the findings on both sides of a line feed are those of two files, also where
a label is not closed or bytes are malformed; and it makes no difference whether line feeds have
carriage returns in front of them. -/
theorem ofFile_by_lines :
    (∀ (top : Node) (o : Options) (file : Path) (bytes : List UInt8),
      top.read file = .ok bytes →
        (ofFile top o file).findings = Finding.ofBytes (o.relative file) bytes) ∧
    (∀ (path : Path) (x : List UInt8), Finding.ofBytes path x =
      (x.splitOn 0x0A).flatMap fun line => Finding.ofText path (Text.decodeLossy line)) ∧
    (∀ (path : Path) (x y : List UInt8),
      Finding.ofBytes path (x ++ 0x0A :: y) = Finding.ofBytes path x ++ Finding.ofBytes path y) ∧
    (∀ (path : Path) (x : List UInt8),
      Finding.ofBytes path (Text.returned x) = Finding.ofBytes path x) ∧
    ∀ (path : Path) (s : List Char),
      Finding.ofBytes path
          (Text.encode (s.flatMap fun c => if c = '\n' then ['\r', '\n'] else [c])) =
        Finding.ofBytes path (Text.encode s) := by
  refine ⟨?_, Finding.ofBytes_eq_flatMap_lines, Finding.ofBytes_append, Finding.ofBytes_returned,
    ?_⟩
  · intro top o file bytes hread
    exact findings_ofFile_of_read hread o
  · intro path s
    rw [Text.encode_returned, Finding.ofBytes_returned]

/-- Bytes whose label is not closed and whose last character is cut off. -/
def cutLine : List UInt8 := Text.encode "TODO(a".toList ++ [0xC3]

/-- A project with a file of two lines. -/
def cutProject : Node :=
  .directory [("a.rs", .file (cutLine ++ 0x0A :: Text.encode "BUG(b)".toList))]

/-- The second line is read as if the first one were not there. -/
theorem ofFile_by_lines_cutProject :
    cutProject.read ⟨"./a.rs"⟩ = .ok (cutLine ++ 0x0A :: Text.encode "BUG(b)".toList) ∧
      (ofFile cutProject (.ofRoot ⟨"."⟩) ⟨"./a.rs"⟩).findings = [⟨⟨"a.rs"⟩, .bug, "b", ""⟩] := by
  have hread : cutProject.read ⟨"./a.rs"⟩ =
      .ok (cutLine ++ 0x0A :: Text.encode "BUG(b)".toList) := rfl
  have hrelative : (Options.ofRoot ⟨"."⟩).relative ⟨"./a.rs"⟩ = ⟨"a.rs"⟩ := by decide
  have hfirst : Finding.ofBytes ⟨"a.rs"⟩ cutLine = [] := by decide +kernel
  have hsecond : Finding.ofBytes ⟨"a.rs"⟩ (Text.encode "BUG(b)".toList) =
      [⟨⟨"a.rs"⟩, .bug, "b", ""⟩] := by decide +kernel
  refine ⟨hread, ?_⟩
  rw [ofFile_by_lines.1 _ _ _ _ hread, ofFile_by_lines.2.2.1, hrelative, hfirst, hsecond]
  rfl

end Scan

end Marginalia
