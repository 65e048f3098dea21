import Marginalia.Proofs.Project.Frame
import Marginalia.Proofs.Text.Parts
import Mathlib.Data.List.DropRight

/-! The bytes of a readme outside its block. A readme with one block is read and written again line
by line, and what stands between its markers is replaced. So the lines above the block and those
below it keep their bytes but for malformed parts, which become replacement characters; and an end
marker that was the end of the file is followed by a line feed. -/
namespace Marginalia

namespace Readme

/-- The kind of a line of bytes. -/
def byteKind (line : List UInt8) : LineKind := lineKind (Text.decodeLossy line)

/-- Bytes with one start marker among their lines and one end marker below it, together with those
in front of the line of the start marker and those behind the line of the end marker. -/
inductive OneBlock : List UInt8 → List UInt8 → List UInt8 → Prop
  | intro {bytes start finish : List UInt8} {above inside below : List (List UInt8)}
      (hlines : bytes.splitOn 0x0A = above ++ start :: (inside ++ finish :: below))
      (hstart : byteKind start = .start) (hfinish : byteKind finish = .finish)
      (hother : ∀ line ∈ above ++ (inside ++ below), byteKind line = .other) :
      OneBlock bytes (above.flatMap (· ++ [0x0A])) (below.flatMap (0x0A :: ·))

/-- What is written from the start marker to the end marker. -/
def block (name : String) : List Char :=
  (startMarker ++ "\n" ++ linkLine name ++ "\n" ++ endMarker).toList

/-- The lines below an end marker that has a line feed, where there was none an empty one. -/
def closed {α : Type} : List (List α) → List (List α)
  | [] => [[]]
  | line :: below => line :: below

variable {name : String} {s start finish : List Char}
  {above inside below lines : List (List Char)}

/-- Lines that are no markers are kept outside the block, whatever follows. -/
theorem relink_others_append (hfree : ∀ line ∈ lines, '\n' ∉ line)
    (hother : ∀ line ∈ lines, lineKind line = .other) (name : String) (inBlock : Bool)
    (s : List Char) :
    relink name inBlock (lines.flatMap (· ++ ['\n']) ++ s) =
      (if inBlock then [] else lines.flatMap (· ++ ['\n'])) ++ relink name inBlock s := by
  induction lines with
  | nil =>
    rw [List.flatMap_nil, ite_self]
    rfl
  | cons line lines ih =>
    rw [List.forall_mem_cons] at hfree hother
    rw [List.flatMap_cons, List.append_assoc, List.append_assoc, List.singleton_append,
      relink_line hfree.1, hother.1]
    simp only
    rw [ih hfree.2 hother.2]
    cases inBlock with
    | true => rfl
    | false => simp

/-- A text without markers is kept outside the block. -/
theorem relink_others (hfree : ∀ line ∈ lines, '\n' ∉ line)
    (hother : ∀ line ∈ lines, lineKind line = .other) (name : String) :
    relink name false (['\n'].intercalate lines) = ['\n'].intercalate lines := by
  rcases lines.eq_nil_or_concat' with rfl | ⟨lines, last, rfl⟩
  · rfl
  · rw [List.forall_mem_append, List.forall_mem_singleton] at hfree hother
    rw [Text.intercalate_append_cons, List.flatMap_nil, List.append_nil,
      relink_others_append hfree.1 hother.1]
    congr 1
    by_cases hlast : last = []
    · rw [hlast, relink_nil]
    · rw [relink_last hlast hfree.2, hother.2]
      rfl

/-- What is written from the end marker on. -/
theorem relink_finish (hfree : ∀ line ∈ finish :: below, '\n' ∉ line)
    (hfinish : lineKind finish = .finish) (hother : ∀ line ∈ below, lineKind line = .other)
    (name : String) (inBlock : Bool) :
    relink name inBlock (['\n'].intercalate (finish :: below)) =
      ['\n'].intercalate (endMarker.toList :: closed below) := by
  rw [List.forall_mem_cons] at hfree
  cases below with
  | nil =>
    have hne : finish ≠ [] := by
      rintro rfl
      exact absurd hfinish (by decide)
    rw [List.intercalate_singleton, relink_last hne hfree.1, hfinish]
    rfl
  | cons next below =>
    rw [Text.intercalate_cons_cons, relink_line hfree.1, hfinish]
    simp only
    rw [relink_others hfree.2 hother, closing_append, closed, Text.intercalate_cons_cons]

/-- Linking a readme with one block replaces the lines from the start marker to the end marker. -/
theorem relink_of_lines (hlines : s.splitOn '\n' = above ++ start :: (inside ++ finish :: below))
    (hstart : lineKind start = .start) (hfinish : lineKind finish = .finish)
    (hother : ∀ line ∈ above ++ (inside ++ below), lineKind line = .other) (name : String) :
    relink name false s =
      ['\n'].intercalate (above ++ startMarker.toList :: (linkLine name).toList ::
        endMarker.toList :: closed below) := by
  have hfree : ∀ line ∈ s.splitOn '\n', '\n' ∉ line := fun line hline hmem =>
    (Text.mem_of_mem_splitOn hline hmem).2 rfl
  rw [hlines, List.forall_mem_append, List.forall_mem_cons, List.forall_mem_append] at hfree
  obtain ⟨habove, hstart_free, hinside, hbelow⟩ := hfree
  rw [List.forall_mem_append, List.forall_mem_append] at hother
  -- Above the start marker the block is closed, and below it is open up to the end marker.
  have hbody : relink name true (['\n'].intercalate (inside ++ finish :: below)) =
      ['\n'].intercalate (endMarker.toList :: closed below) := by
    rw [Text.intercalate_append_cons, relink_others_append hinside hother.2.1, if_pos rfl,
      List.nil_append, ← Text.intercalate_cons]
    exact relink_finish hbelow hfinish hother.2.2 name true
  have hs : s = ['\n'].intercalate (s.splitOn '\n') := (List.intercalate_splitOn '\n').symm
  rw [hs, hlines, Text.intercalate_append_cons, relink_others_append habove hother.1,
    ← Text.cons_intercalate (by simp), relink_line hstart_free, hstart]
  simp only
  rw [hbody, opening_append, Text.intercalate_append_cons, ← Text.cons_intercalate (by simp),
    Text.intercalate_cons_cons]
  rfl

/-- The lines between line feeds have the markers of a text. -/
theorem hasLine_eq_any_splitOn {kind : LineKind} (hkind : kind ≠ .other) (s : List Char) :
    hasLine kind s = (s.splitOn '\n').any fun line => decide (lineKind line = kind) := by
  induction s using Text.induction_on_cuts '\n' with
  | last body hbody =>
    rw [List.splitOn_eq_singleton hbody, List.any_cons, List.any_nil, Bool.or_false]
    by_cases hempty : body = []
    · rw [hempty]
      exact (decide_eq_false hkind.symm).symm
    · exact hasLine_last hempty hbody kind
  | line body rest hbody ih =>
    rw [hasLine_line hbody, ih, List.splitOn_append_cons_self_of_not_mem hbody, List.any_cons]

theorem map_closed {α β : Type} {f : List α → List β} (hf : f [] = []) (lines : List (List α)) :
    (closed lines).map f = closed (lines.map f) := by
  cases lines with
  | nil => rw [closed, List.map_singleton, hf, List.map_nil, closed]
  | cons => rfl

theorem byteKind_encode (s : List Char) : byteKind (Text.encode s) = lineKind s := by
  rw [byteKind, Text.decodeLossy_encode]

theorem byteKind_reread (line : List UInt8) : byteKind (Text.reread line) = byteKind line := by
  rw [byteKind, Text.decodeLossy_reread, byteKind]

theorem reread_above (above : List (List UInt8)) :
    Text.reread (above.flatMap (· ++ [0x0A])) =
      (above.map Text.reread).flatMap (· ++ [0x0A]) := by
  have hjoin (lines : List (List UInt8)) :
      lines.flatMap (· ++ [0x0A]) = [0x0A].intercalate (lines ++ [[]]) := by
    rw [Text.intercalate_append_cons, List.flatMap_nil, List.append_nil, List.append_nil]
  rw [hjoin, Text.reread_intercalate, List.map_append, List.map_singleton, Text.reread_nil, hjoin]

theorem reread_below (below : List (List UInt8)) :
    Text.reread (below.flatMap (0x0A :: ·)) = (below.map Text.reread).flatMap (0x0A :: ·) := by
  have hjoin (lines : List (List UInt8)) :
      lines.flatMap (0x0A :: ·) = [0x0A].intercalate ([] :: lines) := by
    rw [Text.intercalate_cons, List.nil_append]
  rw [hjoin, Text.reread_intercalate, List.map_cons, Text.reread_nil, hjoin]

/-- The lines of a readme that is linked, of which those above the block and those below it are
read again. -/
def linkedLines (name : String) (above below : List (List UInt8)) : List (List UInt8) :=
  above.map Text.reread ++ Text.encode startMarker.toList ::
    ([Text.encode (linkLine name).toList] ++ Text.encode endMarker.toList ::
      closed (below.map Text.reread))

/-- What stands behind the end marker of a linked readme. -/
def behind (after : List UInt8) : List UInt8 := if after = [] then [0x0A] else Text.reread after

theorem flatMap_closed (below : List (List UInt8)) :
    (closed (below.map Text.reread)).flatMap (0x0A :: ·) = behind (below.flatMap (0x0A :: ·)) := by
  cases below with
  | nil => rfl
  | cons line below =>
    rw [behind, if_neg (by simp), reread_below]
    rfl

theorem intercalate_linkedLines (name : String) (above below : List (List UInt8)) :
    [0x0A].intercalate (linkedLines name above below) =
      Text.reread (above.flatMap (· ++ [0x0A])) ++
        (Text.encode (block name) ++ behind (below.flatMap (0x0A :: ·))) := by
  have hblock : block name =
      startMarker.toList ++ '\n' :: ((linkLine name).toList ++ '\n' :: endMarker.toList) := by
    simp [block]
  rw [linkedLines, Text.intercalate_append_cons, reread_above, List.flatMap_append,
    List.flatMap_cons, List.flatMap_cons, flatMap_closed, hblock, Text.encode_append_lineFeed,
    Text.encode_append_lineFeed]
  simp

/-- A linked readme has one block. -/
theorem oneBlock_linkedLines {above below : List (List UInt8)} (hname : '\n' ∉ name.toList)
    (hfree : (∀ line ∈ above, 0x0A ∉ line) ∧ ∀ line ∈ below, 0x0A ∉ line)
    (hother : (∀ line ∈ above, byteKind line = .other) ∧ ∀ line ∈ below, byteKind line = .other) :
    OneBlock ([0x0A].intercalate (linkedLines name above below))
      (Text.reread (above.flatMap (· ++ [0x0A]))) (behind (below.flatMap (0x0A :: ·))) := by
  have hclosed {P : List UInt8 → Prop} (hnil : P []) (h : ∀ line ∈ below, P (Text.reread line)) :
      ∀ line ∈ closed (below.map Text.reread), P line := by
    cases below with
    | nil => simpa [closed] using hnil
    | cons line below => simpa [closed] using h
  rw [reread_above, ← flatMap_closed]
  refine .intro (List.splitOn_intercalate _ ?_ (by simp [linkedLines])) ?_ ?_ ?_
  · rw [linkedLines, List.forall_mem_append, List.forall_mem_map, List.forall_mem_cons,
      List.forall_mem_append, List.forall_mem_singleton, List.forall_mem_cons]
    exact ⟨fun line hline => Text.lineFeed_notMem_reread (hfree.1 line hline),
      Text.lineFeed_notMem_encode (by decide),
      Text.lineFeed_notMem_encode (lineFeed_notMem_linkLine hname),
      Text.lineFeed_notMem_encode (by decide),
      hclosed (by simp) fun line hline => Text.lineFeed_notMem_reread (hfree.2 line hline)⟩
  · rw [byteKind_encode, lineKind_startMarker]
  · rw [byteKind_encode, lineKind_endMarker]
  · rw [List.forall_mem_append, List.forall_mem_map, List.forall_mem_append,
      List.forall_mem_singleton]
    refine ⟨fun line hline => ?_, ?_, hclosed (by decide) fun line hline => ?_⟩
    · rw [byteKind_reread, hother.1 line hline]
    · rw [byteKind_encode, lineKind_linkLine]
    · rw [byteKind_reread, hother.2 line hline]

namespace OneBlock

variable {bytes before after : List UInt8}

/-- What stands above the block is told by the bytes. -/
theorem before_eq (h : OneBlock bytes before after) :
    before = ((bytes.splitOn 0x0A).takeWhile (byteKind · = .other)).flatMap (· ++ [0x0A]) := by
  cases h with
  | intro hlines hstart _ hother =>
    rw [List.forall_mem_append] at hother
    rw [hlines, List.takeWhile_append_of_pos (by simpa using hother.1), List.takeWhile_cons, hstart]
    simp

/-- What stands below the block is told by the bytes. -/
theorem after_eq (h : OneBlock bytes before after) :
    after = ((bytes.splitOn 0x0A).rtakeWhile (byteKind · = .other)).flatMap (0x0A :: ·) := by
  cases h with
  | @intro start finish above inside below hlines _ hfinish hother =>
    rw [List.forall_mem_append, List.forall_mem_append] at hother
    have hreverse : (bytes.splitOn 0x0A).reverse =
        below.reverse ++ finish :: (above ++ start :: inside).reverse := by
      rw [hlines]
      simp
    rw [List.rtakeWhile, hreverse, List.takeWhile_append_of_pos (by simpa using hother.2.2),
      List.takeWhile_cons, hfinish]
    simp

theorem unique {before' after' : List UInt8} (h : OneBlock bytes before after)
    (h' : OneBlock bytes before' after') : before = before' ∧ after = after' :=
  ⟨h.before_eq.trans h'.before_eq.symm, h.after_eq.trans h'.after_eq.symm⟩

/-- Bytes that are a text are one on both sides of the block. -/
theorem reread_eq (h : OneBlock bytes before after) (hbytes : Text.reread bytes = bytes) :
    Text.reread before = before ∧ Text.reread after = after := by
  cases h with
  | @intro start finish above inside below hlines =>
    have hlines' := Text.splitOn_reread bytes
    rw [hbytes, hlines] at hlines'
    have hkept : ∀ line ∈ above ++ start :: (inside ++ finish :: below),
        line = Text.reread line :=
      List.map_inj_left.mp ((List.map_id _).trans hlines')
    have hmap {part : List (List UInt8)} (hpart : ∀ line ∈ part, line = Text.reread line) :
        part.map Text.reread = part :=
      (List.map_congr_left hpart).symm.trans (List.map_id part)
    rw [reread_above, reread_below, hmap fun line hline => hkept line (by simp [hline]),
      hmap fun line hline => hkept line (by simp [hline])]
    exact ⟨rfl, rfl⟩

/-- The markers are found, and the lines from one to the other are replaced. -/
theorem exists_link? (h : OneBlock bytes before after) (name : String) :
    ∃ linked, link? (String.ofList (Text.decodeLossy bytes)) name = some linked ∧
      Text.encode linked.toList =
        Text.reread before ++ (Text.encode (block name) ++ behind after) ∧
      ('\n' ∉ name.toList →
        OneBlock (Text.encode linked.toList) (Text.reread before) (behind after)) := by
  cases h with
  | @intro start finish above inside below hlines hstart hfinish hother =>
    let text := Text.decodeLossy bytes
    have hreadme : text.splitOn '\n' = above.map Text.decodeLossy ++ Text.decodeLossy start ::
        (inside.map Text.decodeLossy ++ Text.decodeLossy finish ::
          below.map Text.decodeLossy) := by
      rw [Text.splitOn_decodeLossy, hlines]
      simp only [List.map_append, List.map_cons]
    have hkinds : ∀ line ∈ above.map Text.decodeLossy ++
        (inside.map Text.decodeLossy ++ below.map Text.decodeLossy), lineKind line = .other := by
      rw [← List.map_append, ← List.map_append, List.forall_mem_map]
      exact hother
    have hlinked : Text.encode (relink name false text) =
        [0x0A].intercalate (linkedLines name above below) := by
      rw [relink_of_lines hreadme hstart hfinish hkinds, Text.encode_intercalate,
        List.map_append, List.map_cons, List.map_cons, List.map_cons, map_closed rfl, List.map_map,
        List.map_map]
      rfl
    have hmarked {line : List UInt8} (hline : line ∈ bytes.splitOn 0x0A)
        (hkind : byteKind line ≠ .other) : hasLine (byteKind line) text = true := by
      rw [hasLine_eq_any_splitOn hkind, Text.splitOn_decodeLossy, List.any_map, List.any_eq_true]
      exact ⟨line, hline, decide_eq_true rfl⟩
    refine ⟨String.ofList (relink name false text), ?_, ?_, ?_⟩
    · rw [link?_eq_some_iff, String.toList_ofList, ← hstart, ← hfinish]
      refine ⟨hmarked (by simp [hlines]) (by simp [hstart]),
        hmarked (by simp [hlines]) (by simp [hfinish]), rfl⟩
    · rw [String.toList_ofList, hlinked, intercalate_linkedLines]
    · intro hname
      have hfree : ∀ line ∈ bytes.splitOn 0x0A, 0x0A ∉ line := fun line hline hmem =>
        (Text.mem_of_mem_splitOn hline hmem).2 rfl
      rw [hlines, List.forall_mem_append, List.forall_mem_cons, List.forall_mem_append,
        List.forall_mem_cons] at hfree
      rw [List.forall_mem_append, List.forall_mem_append] at hother
      rw [String.toList_ofList, hlinked]
      exact oneBlock_linkedLines hname ⟨hfree.1, hfree.2.2.2.2⟩ ⟨hother.1, hother.2.2⟩

end OneBlock

end Readme

namespace Project

variable {top : Node} {o : Options} {l : Location} {bytes before after : List UInt8}

/-- A readme with one block is linked, as far as the device takes the bytes. -/
theorem updateReadme_of_oneBlock (transfer : Transfer)
    (hfind : top.find o.readmePath = .ok (l, .file bytes))
    (hblock : Readme.OneBlock bytes before after) :
    ∃ linked, (updateReadme top transfer o).result =
        (transfer.result o.readmePath linked).mapError .file ∧
      (updateReadme top transfer o).top.find o.readmePath =
        .ok (l, .file (transfer.kept linked)) ∧
      linked = Text.reread before ++
        (Text.encode (Readme.block o.reportFile) ++ Readme.behind after) ∧
      ('\n' ∉ o.reportFile.toList →
        Readme.OneBlock linked (Text.reread before) (Readme.behind after)) := by
  obtain ⟨linked, hlink, hlinked, hagain⟩ := hblock.exists_link? o.reportFile
  obtain ⟨htop, hresult⟩ := updateReadme_of_link? transfer hfind hlink
  refine ⟨Text.encode linked.toList, hresult, ?_, hlinked, hagain⟩
  have hstored := Node.stored_put (Node.find_eq_ok_iff.mp hfind).2
    (transfer.kept (Text.encode linked.toList))
  rw [htop]
  exact Node.find_mono hstored.toExtends hfind (Node.formAt_eq_file_iff.mp hstored.after)

/-- What linking a readme with one block does to the bytes outside of it when it succeeds. Those in
front of the line of the start marker and those behind the line of the end marker are read and
written again, which only replaces malformed parts, and an end marker at the end of the file gets a
line feed. When the name of the checklist is one line, the linked readme has one block again. -/
theorem updateReadme_outside (top : Node) (transfer : Transfer) (o : Options) (l : Location)
    (bytes before after : List UInt8) (hfind : top.find o.readmePath = .ok (l, .file bytes))
    (hblock : Readme.OneBlock bytes before after)
    (hresult : (updateReadme top transfer o).result = .ok ()) :
    ∃ linked, (updateReadme top transfer o).top.find o.readmePath = .ok (l, .file linked) ∧
      linked = Text.reread before ++
        (Text.encode (Readme.block o.reportFile) ++ Readme.behind after) ∧
      ('\n' ∉ o.reportFile.toList →
        Readme.OneBlock linked (Text.reread before) (Readme.behind after)) ∧
      (∀ s, bytes = Text.encode s →
        Text.reread before = before ∧ (after ≠ [] → Readme.behind after = after)) ∧
      ∀ part item rest, Text.Part part item rest →
        Text.reread (part ++ rest) =
          (if item.isSome then part else [0xEF, 0xBF, 0xBD]) ++ Text.reread rest := by
  obtain ⟨linked, hresult', hfind', hlinked, hagain⟩ :=
    updateReadme_of_oneBlock transfer hfind hblock
  rw [Transfer.kept_eq_of_mapError_result (hresult'.symm.trans hresult)] at hfind'
  refine ⟨linked, hfind', hlinked, hagain, ?_, fun part item rest => Text.reread_of_part⟩
  rintro s rfl
  obtain ⟨hbefore, hafter⟩ := hblock.reread_eq (Text.reread_encode s)
  refine ⟨hbefore, fun hne => ?_⟩
  rw [Readme.behind, if_neg hne, hafter]

/-- A project with nothing but a readme. -/
def readmeProject (readme : List UInt8) : Node := .directory [("README.md", .file readme)]

/-- A readme with carriage returns and a cut character at its end. -/
def returnsReadme : List UInt8 :=
  Text.encode "A\r\n<!-- TODOS_START -->\r\n<!-- TODOS_END -->\r\nB".toList ++ [0xC3]

/-- The carriage return of the first line is kept here, and the cut character is replaced. -/
theorem updateReadme_outside_returns :
    (updateReadme (readmeProject returnsReadme) .complete (.ofRoot ⟨"."⟩)).result = .ok () ∧
      (updateReadme (readmeProject returnsReadme) .complete (.ofRoot ⟨"."⟩)).top.find
        ⟨"./README.md"⟩ = .ok (["README.md"], .file (Text.encode "A\r\n".toList ++
          (Text.encode (Readme.block "TODO.md") ++ Text.encode "\nB\uFFFD".toList))) := by
  have hlines : returnsReadme.splitOn 0x0A = [Text.encode "A\r".toList] ++
      Text.encode "<!-- TODOS_START -->\r".toList ::
        ([] ++ Text.encode "<!-- TODOS_END -->\r".toList ::
          [Text.encode "B".toList ++ [0xC3]]) := by
    decide +kernel
  have hblock : Readme.OneBlock returnsReadme ([Text.encode "A\r".toList].flatMap (· ++ [0x0A]))
      ([Text.encode "B".toList ++ [0xC3]].flatMap (0x0A :: ·)) :=
    .intro hlines (by decide +kernel) (by decide +kernel) (by decide +kernel)
  have hresult : (updateReadme (readmeProject returnsReadme) .complete (.ofRoot ⟨"."⟩)).result =
      .ok () := by
    decide +kernel
  obtain ⟨bytes, hfind, hbytes, -⟩ :=
    updateReadme_outside (readmeProject returnsReadme) .complete (.ofRoot ⟨"."⟩) ["README.md"] _ _ _
      rfl hblock hresult
  have hbefore : Text.reread ([Text.encode "A\r".toList].flatMap (· ++ [0x0A])) =
      Text.encode "A\r\n".toList := by
    decide +kernel
  have hafter : Readme.behind ([Text.encode "B".toList ++ [0xC3]].flatMap (0x0A :: ·)) =
      Text.encode "\nB\uFFFD".toList := by
    decide +kernel
  rw [hbytes, hbefore, hafter] at hfind
  exact ⟨hresult, hfind⟩

/-- Whether linking the readme of a project leaves the bytes on both sides of its block. -/
def KeepsOutside (top : Node) (o : Options) : Prop :=
  ∀ transfer l bytes before after, top.find o.readmePath = .ok (l, .file bytes) →
    Readme.OneBlock bytes before after → (updateReadme top transfer o).result = .ok () →
      ∃ linked, (updateReadme top transfer o).top.find o.readmePath = .ok (l, .file linked) ∧
        Readme.OneBlock linked before after

/-- The bytes stay exactly when nothing in front of the block or behind it is malformed and the
end marker has a line feed. -/
theorem keepsOutside_iff (hname : '\n' ∉ o.reportFile.toList)
    (hfind : top.find o.readmePath = .ok (l, .file bytes))
    (hblock : Readme.OneBlock bytes before after) :
    KeepsOutside top o ↔ Text.reread before = before ∧ Readme.behind after = after := by
  constructor
  · intro hkeeps
    obtain ⟨linked, hresult, hlinked, -, hagain⟩ := updateReadme_of_oneBlock .complete hfind hblock
    obtain ⟨linked', hlinked', hblock'⟩ := hkeeps .complete l bytes before after hfind hblock hresult
    rw [hlinked] at hlinked'
    cases hlinked'
    exact (hagain hname).unique hblock'
  · rintro ⟨hbefore, hafter⟩ transfer _ _ _ _ hfind' hblock' hresult'
    rw [hfind] at hfind'
    cases hfind'
    obtain ⟨rfl, rfl⟩ := hblock.unique hblock'
    obtain ⟨linked, hresult, hlinked, -, hagain⟩ := updateReadme_of_oneBlock transfer hfind hblock
    rw [Transfer.kept_eq_of_mapError_result (hresult.symm.trans hresult')] at hlinked
    have hlinked_block := hagain hname
    rw [hbefore, hafter] at hlinked_block
    exact ⟨linked, hlinked, hlinked_block⟩

/-- A readme with a byte above its block that begins no character. -/
def malformedReadme : List UInt8 :=
  0xFF :: 0x0A :: Text.encode "<!-- TODOS_START -->\n<!-- TODOS_END -->\n".toList

/-- A readme whose end marker is the end of the file. -/
def unendedReadme : List UInt8 :=
  Text.encode "<!-- TODOS_START -->\n<!-- TODOS_END -->".toList

/-- The byte is replaced, and a line feed comes behind the end marker. -/
theorem updateReadme_changes_outside :
    ¬KeepsOutside (readmeProject malformedReadme) (.ofRoot ⟨"."⟩) ∧
      ¬KeepsOutside (readmeProject unendedReadme) (.ofRoot ⟨"."⟩) := by
  let start := Text.encode Readme.startMarker.toList
  let finish := Text.encode Readme.endMarker.toList
  have hlines : malformedReadme.splitOn 0x0A = [[0xFF]] ++ start :: ([] ++ finish :: [[]]) := by
    decide +kernel
  have hmalformed : Readme.OneBlock malformedReadme ([[0xFF]].flatMap (· ++ [0x0A]))
      ([[]].flatMap (0x0A :: ·)) :=
    .intro hlines (by decide +kernel) (by decide +kernel) (by decide +kernel)
  have hlines' : unendedReadme.splitOn 0x0A = [] ++ start :: ([] ++ finish :: []) := by
    decide +kernel
  have hunended : Readme.OneBlock unendedReadme (List.flatMap (· ++ [0x0A]) [])
      (List.flatMap (0x0A :: ·) []) :=
    .intro hlines' (by decide +kernel) (by decide +kernel) (by decide +kernel)
  rw [keepsOutside_iff (l := ["README.md"]) (by decide) rfl hmalformed,
    keepsOutside_iff (l := ["README.md"]) (by decide) rfl hunended]
  exact ⟨fun hkept => absurd hkept.1 (by decide +kernel),
    fun hkept => absurd hkept.2 (by decide +kernel)⟩

end Project

end Marginalia
