import Mathlib
import Assay.Diagnostic.Layout
import Assay.Proofs.Lines

/-! Source lines with carets. Every range within a file can be laid out: each line of its position is
printed once, with its number, and as many carets as the range has bytes stand right below these bytes
if they are all in one line. -/

namespace Assay

namespace Text

theorem head?_splitOn (sep : UInt8) (t : Text) :
    (splitOn sep t).head? = some (t.takeWhile (· ≠ sep)) := by
  induction t with
  | nil => rfl
  | cons b rest ih =>
    rw [splitOn]
    by_cases hb : b = sep
    · simp [hb]
    · obtain ⟨part, parts, hSplit⟩ := List.exists_cons_of_ne_nil (splitOn_ne_nil sep rest)
      rw [hSplit] at ih
      simp only [if_neg hb, hSplit, List.head?_cons, Option.some.injEq] at ih ⊢
      simp [hb, ih]

theorem withoutReturn_prefix (line : Text) : line.withoutReturn <+: line := by
  unfold withoutReturn
  split
  · exact List.dropLast_prefix line
  · exact List.prefix_rfl

end Text

theorem Point.after_append {t : Text} (h : 10 ∉ t) (s : Text) :
    after (s ++ t) = ⟨(after s).line, (after s).column + t.length⟩ := by
  have hAll : ∀ b ∈ t.reverse, decide (b ≠ 10) = true :=
    fun b hb => decide_eq_true fun hEq => h (hEq ▸ List.mem_reverse.1 hb)
  simp only [after, List.count_append, List.count_eq_zero.2 h, List.reverse_append,
    List.takeWhile_append_of_pos hAll, List.length_append, List.length_reverse, Point.mk.injEq]
  omega

theorem Point.exists_line (s : Text) : ∃ start, (after s).column = start.length + 1 ∧
    ∀ t, (Text.splitOn 10 (s ++ t))[s.count 10]? = some (start ++ t.takeWhile (· ≠ 10)) := by
  have hHead {start : Text} (h : 10 ∉ start) (t : Text) :
      (Text.splitOn 10 (start ++ t))[0]? = some (start ++ t.takeWhile (· ≠ 10)) := by
    rw [← List.head?_eq_getElem?, Text.head?_splitOn, List.takeWhile_append_of_pos]
    exact fun b hb => decide_eq_true fun hEq => h (hEq ▸ hb)
  have hAll {start : Text} (h : 10 ∉ start) : ∀ b ∈ start.reverse, decide (b ≠ 10) = true :=
    fun b hb => decide_eq_true fun hEq => h (hEq ▸ List.mem_reverse.1 hb)
  obtain hNot | ⟨before, start, rfl, hNot⟩ := Text.exists_cut 10 s
  · refine ⟨s, ?_, fun t => ?_⟩
    · rw [after, List.takeWhile_eq_self_iff.2 (hAll hNot), List.length_reverse]
    · rw [List.count_eq_zero.2 hNot]
      exact hHead hNot t
  · refine ⟨start, ?_, fun t => ?_⟩
    · rw [after, List.reverse_append, List.reverse_cons, List.append_assoc,
        List.takeWhile_append_of_pos (hAll hNot), List.singleton_append,
        List.takeWhile_cons_of_neg (by simp), List.append_nil, List.length_reverse]
    · rw [List.append_assoc, List.cons_append, Text.splitOn_append, List.getElem?_append_right]
      · rw [Text.length_splitOn, List.count_append, List.count_cons_self, List.count_eq_zero.2 hNot,
          Nat.sub_self]
        exact hHead hNot t
      · rw [Text.length_splitOn, List.count_append, List.count_cons_self]
        omega

namespace Files

theorem Built.exists_fileAt? {fs : Files} (h : fs.Built) (hSome : fs ≠ []) {offset : Nat}
    (hOffset : offset ≤ fs.size) :
    ∃ g ∈ fs, ∃ i ≤ g.text.length, offset = g.offset + i ∧ fs.fileAt? offset = some g := by
  induction h with
  | empty => exact absurd rfl hSome
  | @added fs path text h ih =>
    by_cases hLt : offset < fs.size
    · have hFiles : fs ≠ [] := by
        rintro rfl
        exact Nat.not_lt_zero _ hLt
      obtain ⟨g, hg, i, hi, hEq, hAt⟩ := ih hFiles hLt.le
      exact ⟨g, List.mem_append_left _ hg, i, hi, hEq, (fileAt?_add_of_lt path text hLt).trans hAt⟩
    · rw [size_add] at hOffset
      refine ⟨_, List.mem_append_right _ List.mem_cons_self, offset - fs.size, ?_, ?_,
        h.fileAt?_add path text offset (Nat.not_lt.1 hLt)⟩ <;> simp only <;> omega

end Files

namespace Layout

/-- A line as it is printed: its number, behind spaces, and its text. -/
def Prints (n : Int) (line printed : Text) : Prop :=
  ∃ pad, printed = ("  " : Text) ++ (List.replicate pad 32 ++ Text.ofInt n) ++ (". " : Text) ++ line

/-- The carets below the first line of a position, behind as many spaces as there is to its left. -/
def underline (p : Position) (indent carets : Nat) : Text :=
  List.replicate indent 32 ++ List.replicate carets 94 ++ (if p.isMultiline then " °°°" else "" : Text)

def place (p : Position) : Text :=
  "on line " ++ Text.ofInt p.location.first.line ++ ", column " ++ Text.ofInt p.location.first.column

def numbered (p : Position) : List Text :=
  p.lines.zipIdx.map fun line => lineNumber p.location.last.line (p.location.first.line + line.2) ++ line.1

theorem numbered_prints (p : Position) : List.Forall₂
    (fun (line : Text × Nat) printed => Prints (p.location.first.line + line.2) line.1 printed)
    p.lines.zipIdx (numbered p) := by
  rw [numbered, List.forall₂_map_right_iff, List.forall₂_same]
  exact fun line _ => ⟨_, rfl⟩

theorem withCarets_eq {p : Position} {line : Text} {more : List Text} (hLines : p.lines = line :: more)
    {column : Nat} (hColumn : p.location.first.column = column + 1) (message : Text) :
    ∃ others, numbered p = (lineNumber p.location.last.line p.location.first.line ++ line) :: others ∧
      withCarets p message = .ok (Text.join "\n"
        (message :: (lineNumber p.location.last.line p.location.first.line ++ line) ::
          underline p ((lineNumber p.location.last.line p.location.last.line).length + column)
            (caretCount p.location p.isMultiline line).toNat :: others ++ [place p])) := by
  have hCarets : ¬caretCount p.location p.isMultiline line < 0 := by
    unfold caretCount
    simp only
    split_ifs <;> omega
  have hSpaces : ¬((lineNumber p.location.last.line p.location.last.line).length : Int) +
      (p.location.first.column - 1) < 0 := by omega
  have hIndent : (((lineNumber p.location.last.line p.location.last.line).length : Int) +
      (p.location.first.column - 1)).toNat =
        (lineNumber p.location.last.line p.location.last.line).length + column := by omega
  have hPlace : ("\non line " : Text) = "\n" ++ "on line " := rfl
  have hMore : more.mapIdx (fun i line =>
      "\n" ++ (lineNumber p.location.last.line (p.location.first.line + (i + 1 : Nat)) ++ line)) =
      (more.zipIdx 1).map fun line =>
        "\n" ++ (lineNumber p.location.last.line (p.location.first.line + line.2) ++ line.1) := by
    refine List.ext_getElem? fun i => ?_
    simp [Nat.add_comm, Function.comp_def]
  refine ⟨(more.zipIdx 1).map fun line =>
    lineNumber p.location.last.line (p.location.first.line + line.2) ++ line.1, ?_, ?_⟩
  · rw [numbered, hLines, List.zipIdx_cons, List.map_cons, Nat.cast_zero, add_zero]
  · rw [withCarets, hLines]
    simp only [repeated, if_neg hCarets, if_neg hSpaces, List.cons_append, Text.join_cons, underline,
      place, hIndent, hPlace, hMore, List.flatMap_def, List.map_cons, List.map_append, List.map_map,
      List.flatten_cons, List.flatten_append, List.map_nil, List.flatten_nil, List.append_nil,
      Nat.cast_zero, add_zero, Function.comp_def, List.append_assoc]
    rfl

end Layout

theorem File.exists_lines (f : File) {i j : Nat} (hij : i ≤ j) :
    ∃ before more, (Point.after (f.text.take i)).column = List.length before + 1 ∧
      (f.lines.drop ((f.text.take i).count 10)).take
          ((f.text.take j).count 10 + 1 - (f.text.take i).count 10) =
        Text.withoutReturn (before ++ (f.text.drop i).takeWhile (· ≠ 10)) :: more ∧
      more.length = (f.text.take j).count 10 - (f.text.take i).count 10 := by
  obtain ⟨before, hColumn, hAt⟩ := Point.exists_line (f.text.take i)
  replace hAt := hAt (f.text.drop i)
  rw [List.take_append_drop] at hAt
  have hFirst := (List.take_sublist_take_left (l := f.text) hij).count_le 10
  have hLast := (List.take_sublist j f.text).count_le 10
  have hLine : (f.lines.drop ((f.text.take i).count 10))[0]? =
      some (Text.withoutReturn (before ++ (f.text.drop i).takeWhile (· ≠ 10))) := by
    rw [List.getElem?_drop, Nat.add_zero, File.lines, List.getElem?_map, hAt, Option.map_some,
      Text.trimEnd_return]
  obtain ⟨more, hDrop⟩ := List.head?_eq_some_iff.1 (List.head?_eq_getElem?.trans hLine)
  refine ⟨before, more.take ((f.text.take j).count 10 - (f.text.take i).count 10), hColumn, ?_, ?_⟩
  · rw [hDrop, Nat.sub_add_comm hFirst, List.take_succ_cons]
  · have hLength := congrArg List.length hDrop
    rw [List.length_drop, File.lines, List.length_map, Text.length_splitOn, List.length_cons] at hLength
    rw [List.length_take]
    omega

/-- The place of a range within a file. The first line of a range with bytes has these bytes from its
column on, if the range is all in this line. -/
theorem Files.Built.exists_position {fs : Files} (h : fs.Built) {f : File} (hf : f ∈ fs)
    {start stop : Nat} (hLe : start ≤ stop) (hStop : stop ≤ f.text.length) :
    ∃ p line more, ∃ column : Nat,
      fs.position ⟨(f.offset + start : Nat), (f.offset + stop : Nat)⟩ = .ok (some p) ∧
      p.lines = line :: more ∧ p.location.first.column = column + 1 ∧
      (start < stop → more = [] →
        p.location.last = ⟨p.location.first.line, column + (stop - start : Nat)⟩ ∧
        line.drop column <+: f.text.drop start) := by
  have hEnd := h.end_le f hf
  obtain hSome | rfl := hLe.lt_or_eq
  · obtain ⟨before, more, hColumn, hLines, hCount⟩ := f.exists_lines (show start ≤ stop - 1 by omega)
    have hPosition := (h.position_of_mem hf hSome hStop).2
    rw [hLines] at hPosition
    refine ⟨_, _, more, before.length, hPosition, rfl, hColumn, fun _ hMore => ⟨?_, ?_⟩⟩
    · have hTake : f.text.take (stop - 1) =
          f.text.take start ++ (f.text.drop start).take (stop - 1 - start) := by
        rw [← List.take_add, Nat.add_sub_cancel' (by omega)]
      have hNot : 10 ∉ (f.text.drop start).take (stop - 1 - start) := by
        rw [hMore, List.length_nil, hTake, List.count_append] at hCount
        exact List.count_eq_zero.1 (by omega)
      simp only [hTake, Point.after_append hNot, hColumn, Point.mk.injEq, true_and, List.length_take,
        List.length_drop]
      omega
    · have hPrefix := (Text.withoutReturn_prefix (before ++ (f.text.drop start).takeWhile (· ≠ 10))).drop
        before.length
      rw [List.drop_left] at hPrefix
      exact hPrefix.trans (List.takeWhile_prefix _)
  -- An empty range at the end of a file has the place of the first byte after it.
  · obtain ⟨g, -, i, hi, hEq, hAt⟩ := h.exists_fileAt? (List.ne_nil_of_mem hf)
      (show f.offset + start ≤ fs.size by omega)
    obtain ⟨before, more, hColumn, hLines, -⟩ := g.exists_lines (le_refl i)
    have hLast : Range.last ⟨(g.offset + i : Nat), (g.offset + i : Nat)⟩ = (g.offset + i : Nat) :=
      if_neg (lt_irrefl _)
    rw [hEq] at hAt ⊢
    have hPosition := (position_of_fileAt? hi hi hAt hAt rfl hLast (by simp only; omega)).2
    rw [hLines] at hPosition
    exact ⟨_, _, more, before.length, hPosition, rfl, hColumn, fun hLt => absurd hLt (lt_irrefl _)⟩

/-- A range within a file can be laid out with carets. Each line of its position is printed once, in
order and with its number. If the range is not empty, and within the text of one line, there are as many
carets as it has bytes; the first is below the column where the range starts, and right above the carets
stand the bytes of the range. -/
theorem Files.Built.carets_exact {fs : Files} (h : fs.Built) {f : File} (hf : f ∈ fs)
    {start stop : Nat} (hLe : start ≤ stop) (hStop : stop ≤ f.text.length) :
    ∃ p line more, fs.position ⟨(f.offset + start : Nat), (f.offset + stop : Nat)⟩ = .ok (some p) ∧
      p.lines = line :: more ∧
      ∀ d : Diagnostic, d.position = some p → ∃ first others indent carets,
        Layout.render .default d = .ok (Text.join "\n" (d.fullMessage :: first ::
          Layout.underline p indent carets :: others ++ [Layout.place p])) ∧
        List.Forall₂ (fun (line : Text × Nat) printed =>
          Layout.Prints (p.location.first.line + line.2) line.1 printed)
          p.lines.zipIdx (first :: others) ∧
        (start < stop → more = [] →
          p.location.first.column - 1 + (stop - start : Nat) ≤ line.length →
          carets = stop - start ∧
          (indent : Int) + line.length = first.length + (p.location.first.column - 1) ∧
          (first.drop indent).take carets = (f.text.drop start).take (stop - start)) := by
  obtain ⟨p, line, more, column, hPosition, hLines, hColumn, hPlace⟩ := h.exists_position hf hLe hStop
  refine ⟨p, line, more, hPosition, hLines, fun d hd => ?_⟩
  obtain ⟨others, hNumbered, hLayout⟩ := Layout.withCarets_eq hLines hColumn d.fullMessage
  have hRender : Layout.withCarets p d.fullMessage = Layout.render .default d := by
    rw [Layout.render, hd]
    rfl
  rw [hRender] at hLayout
  refine ⟨_, others, _, _, hLayout, hNumbered ▸ Layout.numbered_prints p, fun hSome hMore hWithin => ?_⟩
  obtain ⟨hLast, hBytes⟩ := hPlace hSome hMore
  have hCarets : (Layout.caretCount p.location p.isMultiline line).toNat = stop - start := by
    simp only [Layout.caretCount, Position.isMultiline, hLast, hColumn, bne_self_eq_false,
      Bool.false_or, decide_eq_true_eq]
    split_ifs <;> omega
  simp only [hLast, hCarets, List.length_append, Nat.cast_add, true_and]
  refine ⟨by omega, ?_⟩
  rw [List.drop_length_add_append, List.prefix_iff_eq_take.1 hBytes, List.take_take, List.length_drop,
    Nat.min_eq_left (by omega)]

theorem Files.carets_betweenEmpty :
    betweenEmpty.Built ∧ ⟨"a", 0, [120, 13, 10, 10, 255, 121]⟩ ∈ betweenEmpty ∧
    ∃ p, betweenEmpty.position ⟨4, 6⟩ = .ok (some p) ∧
      ∀ d : Diagnostic, d.position = some p → ∃ first others indent,
        Layout.render .default d = .ok (Text.join "\n" (d.fullMessage :: first ::
          Layout.underline p indent 2 :: others ++ [Layout.place p])) ∧
        (first.drop indent).take 2 = [255, 121] := by
  have hBuilt : betweenEmpty.Built := .added _ _ (.added _ _ (.added _ _ .empty))
  have hMem : (⟨"a", 0, [120, 13, 10, 10, 255, 121]⟩ : File) ∈ betweenEmpty :=
    List.mem_cons_of_mem _ List.mem_cons_self
  obtain ⟨p, line, more, hPosition, hLines, hAll⟩ :=
    @Built.carets_exact _ hBuilt _ hMem 4 6 (by decide) (by decide)
  have hPlace : betweenEmpty.position ⟨4, 6⟩ =
      .ok (some ⟨⟨"a", ⟨3, 1⟩, ⟨3, 2⟩⟩, [[255, 121]]⟩) := by rfl
  obtain rfl := Option.some.inj (Except.ok.inj (hPlace.symm.trans hPosition))
  obtain ⟨rfl, rfl⟩ := List.cons.inj hLines
  refine ⟨hBuilt, hMem, _, hPosition, fun d hd => ?_⟩
  obtain ⟨first, others, indent, carets, hRender, -, hWithin⟩ := hAll d hd
  obtain ⟨rfl, -, hBytes⟩ := hWithin (by decide) rfl (by decide)
  exact ⟨first, others, indent, hRender, hBytes⟩

end Assay
