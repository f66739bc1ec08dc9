import Mathlib
import Assay.Proofs.Located
import Assay.Proofs.Word

/-! Lines and columns. The point of an offset follows from the bytes that stand before it in its file,
and the lines of a range are those from its first point to its last. Files added later change
neither. -/

namespace Assay

variable {fs : Files} {i : Nat} {f : File} {t : Text}

namespace Text

/-- A line without the carriage return at its end, if it has one. -/
def withoutReturn (line : Text) : Text := if line.getLast? = some 13 then line.dropLast else line

theorem trimEnd_return (line : Text) : trimEnd [13] line = line.withoutReturn := by
  have hSuffix : ([13] : Text).isSuffixOf line ↔ line.getLast? = some 13 := by
    rw [List.isSuffixOf_iff_suffix, List.singleton_suffix_iff_getLast?_eq_some]
  simp only [trimEnd, withoutReturn, hSuffix, List.dropLast_eq_take, List.length_singleton]

end Text

theorem newlines_append (offset : Nat) (s t : Text) :
    newlines offset (s ++ t) = newlines offset s ++ newlines (offset + s.length) t := by
  induction s generalizing offset with
  | nil => rfl
  | cons b rest ih =>
    have hNext : offset + 1 + rest.length = offset + (b :: rest).length := by
      rw [List.length_cons]
      omega
    rw [List.cons_append, newlines, newlines, ih, hNext]
    split <;> rfl

theorem length_newlines (offset : Nat) (t : Text) : (newlines offset t).length = t.count 10 := by
  induction t generalizing offset with
  | nil => rfl
  | cons b rest ih => by_cases hb : b = 10 <;> simp [newlines, hb, ih]

theorem within_newlines {offset n : Nat} (h : n ∈ newlines offset t) :
    offset ≤ n ∧ n < offset + t.length := by
  induction t generalizing offset with
  | nil => exact absurd h List.not_mem_nil
  | cons b rest ih =>
    rw [List.length_cons]
    rw [newlines] at h
    split at h
    · obtain rfl | h := List.mem_cons.1 h
      · omega
      · have := ih h
        omega
    · have := ih h
      omega

theorem takeWhile_newlines (offset i : Nat) (t : Text) :
    (newlines offset t).takeWhile (· < offset + i) = newlines offset (t.take i) := by
  have hSplit := newlines_append offset (t.take i) (t.drop i)
  rw [List.take_append_drop] at hSplit
  have hBefore : ∀ n ∈ newlines offset (t.take i), decide (n < offset + i) = true := by
    intro n hn
    have := (within_newlines hn).2
    rw [List.length_take] at this
    exact decide_eq_true (by omega)
  have hAfter : ∀ n ∈ newlines (offset + (t.take i).length) (t.drop i),
      decide (n < offset + i) = false := by
    intro n hn
    have := within_newlines hn
    rw [List.length_take, List.length_drop] at this
    exact decide_eq_false (by omega)
  rw [hSplit, List.takeWhile_append_of_pos hBefore, List.takeWhile_eq_nil_iff.2, List.append_nil]
  intro hSome
  rw [hAfter _ (List.get_mem _ _)]
  exact Bool.false_ne_true

namespace Point

/-- The point that follows a text: a line down for each line end in it, and a column on for each byte
after the last of them. -/
def after (t : Text) : Point := ⟨t.count 10 + 1, (t.reverse.takeWhile (· ≠ 10)).length + 1⟩

/-- One point stands before another, on an earlier line or further left on the same one. -/
def Precedes (p q : Point) : Prop := p.line < q.line ∨ p.line = q.line ∧ p.column < q.column

theorem after_precedes (s : Text) (ht : t ≠ []) : (after s).Precedes (after (s ++ t)) := by
  by_cases hEnd : 10 ∈ t
  · refine .inl ?_
    have := List.count_pos_iff.2 hEnd
    simp only [after, List.count_append]
    omega
  · refine .inr ⟨by simp [after, List.count_eq_zero.2 hEnd], ?_⟩
    have hAll : ∀ b ∈ t.reverse, decide (b ≠ 10) = true := by
      intro b hb
      exact decide_eq_true fun h => hEnd (h ▸ List.mem_reverse.1 hb)
    have := List.length_pos_iff.2 ht
    simp only [after, List.reverse_append, List.takeWhile_append_of_pos hAll, List.length_append,
      List.length_reverse]
    omega

theorem after_take_precedes_iff {j : Nat} (hi : i ≤ t.length) (hj : j ≤ t.length) :
    (after (t.take i)).Precedes (after (t.take j)) ↔ i < j := by
  have hMono {i j : Nat} (hij : i < j) (hj : j ≤ t.length) :
      (after (t.take i)).Precedes (after (t.take j)) := by
    have hTake : t.take j = t.take i ++ (t.drop i).take (j - i) := by
      rw [← List.take_add, Nat.add_sub_cancel' hij.le]
    rw [hTake]
    refine after_precedes _ (List.length_pos_iff.1 ?_)
    rw [List.length_take, List.length_drop]
    omega
  refine ⟨fun h => ?_, fun hij => hMono hij hj⟩
  by_contra hNot
  obtain rfl | hji := Nat.eq_or_lt_of_not_lt hNot
  · unfold Precedes at h
    omega
  · have := hMono hji hi
    unfold Precedes at h this
    omega

end Point

theorem lastLine_newlines (offset : Nat) (s : Text) :
    ((newlines offset s).getLast?.map (· + 1)).getD offset + (s.reverse.takeWhile (· ≠ 10)).length =
      offset + s.length := by
  induction s using List.reverseRecOn with
  | nil => rfl
  | append_singleton s b ih =>
    rw [newlines_append, List.reverse_append, List.length_append, List.length_singleton]
    by_cases hb : b = 10
    · simp [newlines, hb]
      omega
    · simp only [newlines, hb, if_false, List.append_nil, List.reverse_singleton, List.singleton_append,
        List.takeWhile_cons, ne_eq, not_false_eq_true, decide_true, if_true, List.length_cons] at ih ⊢
      omega

namespace File

theorem point_end (path : Text) (offset : Nat) (s : Text) :
    (⟨path, offset, s⟩ : File).point (offset + s.length) = .after s := by
  have hLine := lastLine_newlines offset s
  have hAll := takeWhile_newlines offset s.length s
  rw [List.take_length] at hAll
  simp only [point, File.newlines, hAll, length_newlines, Point.after, Point.mk.injEq, true_and]
  cases hLast : (Assay.newlines offset s).getLast? with
  | none | some =>
    simp only [hLast, Option.map_none, Option.map_some, Option.getD_none, Option.getD_some] at hLine ⊢
    omega

theorem point_eq_after (f : File) (hi : i ≤ f.text.length) :
    f.point (f.offset + i) = .after (f.text.take i) := by
  have h := point_end f.path f.offset (f.text.take i)
  rw [List.length_take_of_le hi] at h
  rw [← h]
  simp only [point, File.newlines, takeWhile_newlines, List.take_take, Nat.min_self]

end File

namespace Files

theorem fileAt?_add_of_lt (path text : Text) {offset : Nat} (h : offset < fs.size) :
    (fs.add path text).fileAt? offset = fs.fileAt? offset := by
  have hHead : (fs.add path text).head? = fs.head? := by
    cases fs with
    | nil => exact absurd h (Nat.not_lt_zero _)
    | cons => rfl
  have hBefore : (fs.add path text).takeWhile (·.offset ≤ offset) = fs.takeWhile (·.offset ≤ offset) := by
    rw [add, List.takeWhile_append, List.takeWhile_cons_of_neg (by simpa using h), List.append_nil]
    split
    · rename_i hLength
      exact ((List.takeWhile_prefix _).eq_of_length hLength).symm
    · rfl
  rw [fileAt?, fileAt?, hHead, hBefore]

theorem Built.fileAt?_of_mem (h : fs.Built) (hf : f ∈ fs) (hi : i < f.text.length) :
    fs.fileAt? (f.offset + i) = some f := by
  induction h with
  | empty => exact absurd hf List.not_mem_nil
  | @added fs path text h ih =>
    obtain hMem | hMem := List.mem_append.1 hf
    · have := h.end_le f hMem
      rw [fileAt?_add_of_lt path text (by omega), ih hMem]
    · obtain rfl := List.mem_singleton.1 hMem
      exact h.fileAt?_add path text _ (Nat.le_add_right _ _)

theorem position_of_fileAt? {j : Nat} {r : Range} (hi : i ≤ f.text.length) (hj : j ≤ f.text.length)
    (hFirst : fs.fileAt? (f.offset + i) = some f) (hLast : fs.fileAt? (f.offset + j) = some f)
    (hStart : r.start = (f.offset + i : Nat)) (hEnd : r.last = (f.offset + j : Nat))
    (hStop : r.stop ≤ fs.size) :
    fs.locate r = .ok (some ⟨f.path, .after (f.text.take i), .after (f.text.take j)⟩) ∧
    fs.position r = .ok (some ⟨⟨f.path, .after (f.text.take i), .after (f.text.take j)⟩,
      (f.lines.drop ((f.text.take i).count 10)).take
        ((f.text.take j).count 10 + 1 - (f.text.take i).count 10)⟩) := by
  have hLocate : fs.locate r =
      .ok (some ⟨f.path, .after (f.text.take i), .after (f.text.take j)⟩) := by
    rw [locate, if_neg, hStart, hEnd]
    · simp only [Int.toNat_natCast, hFirst, hLast, if_true, f.point_eq_after hi, f.point_eq_after hj]
    · rw [Bool.or_eq_true, decide_eq_true_eq, decide_eq_true_eq]
      omega
  refine ⟨hLocate, ?_⟩
  have hSkipped : (Point.after (f.text.take i)).line.toNat - 1 = (f.text.take i).count 10 := by
    simp only [Point.after]
    omega
  have hCount : ((Point.after (f.text.take j)).line + 1 - (Point.after (f.text.take i)).line).toNat =
      (f.text.take j).count 10 + 1 - (f.text.take i).count 10 := by
    simp only [Point.after]
    omega
  rw [← hCount, ← hSkipped]
  simp only [position, hLocate, hStart, Int.toNat_natCast, hFirst]
  rfl

theorem Built.position_of_mem (h : fs.Built) (hf : f ∈ fs) {start stop : Nat} (hSome : start < stop)
    (hStop : stop ≤ f.text.length) :
    fs.locate ⟨(f.offset + start : Nat), (f.offset + stop : Nat)⟩ =
      .ok (some ⟨f.path, .after (f.text.take start), .after (f.text.take (stop - 1))⟩) ∧
    fs.position ⟨(f.offset + start : Nat), (f.offset + stop : Nat)⟩ =
      .ok (some ⟨⟨f.path, .after (f.text.take start), .after (f.text.take (stop - 1))⟩,
        (f.lines.drop ((f.text.take start).count 10)).take
          ((f.text.take (stop - 1)).count 10 + 1 - (f.text.take start).count 10)⟩) := by
  have hEnd : Range.last ⟨(f.offset + start : Nat), (f.offset + stop : Nat)⟩ =
      (f.offset + (stop - 1) : Nat) := by
    simp only [Range.last]
    split <;> omega
  have := h.end_le f hf
  exact position_of_fileAt? (by omega) (by omega) (h.fileAt?_of_mem hf (by omega))
    (h.fileAt?_of_mem hf (by omega)) rfl hEnd (by simp only; omega)

/-- The set with more files, given by their paths and texts. -/
def addAll (fs : Files) (more : List (Text × Text)) : Files :=
  more.foldl (fun fs file => fs.add file.1 file.2) fs

theorem Built.addAll (h : fs.Built) (more : List (Text × Text)) : (fs.addAll more).Built := by
  induction more generalizing fs with
  | nil => exact h
  | cons file more ih => exact ih (.added file.1 file.2 h)

theorem mem_addAll (h : f ∈ fs) (more : List (Text × Text)) : f ∈ fs.addAll more := by
  induction more generalizing fs with
  | nil => exact h
  | cons file more ih => exact ih (List.mem_append_left _ h)

/-- The place of a non-empty range in a file: its points follow the bytes before its first and its last
byte, and points stand in the order of their offsets. Its lines are those of the text between the two
points, each less a carriage return at its end. Files added later change nothing of this. -/
theorem Built.position_exact_and_lasting {fs : Files} (h : fs.Built) {f : File} (hf : f ∈ fs)
    {start stop : Nat} (hSome : start < stop) (hStop : stop ≤ f.text.length) :
    (∃ lines shown : List Text,
      Text.join [10] lines = f.text ∧ (∀ line ∈ lines, 10 ∉ line) ∧
      shown = ((lines.drop ((f.text.take start).count 10)).take
        ((f.text.take (stop - 1)).count 10 + 1 - (f.text.take start).count 10)).map
          Text.withoutReturn ∧
      (shown.length : Int) = (Point.after (f.text.take (stop - 1))).line -
        (Point.after (f.text.take start)).line + 1 ∧
      ∀ more : List (Text × Text),
        (fs.addAll more).locate ⟨(f.offset + start : Nat), (f.offset + stop : Nat)⟩ =
          .ok (some ⟨f.path, .after (f.text.take start), .after (f.text.take (stop - 1))⟩) ∧
        (fs.addAll more).position ⟨(f.offset + start : Nat), (f.offset + stop : Nat)⟩ =
          .ok (some ⟨⟨f.path, .after (f.text.take start), .after (f.text.take (stop - 1))⟩,
            shown⟩)) ∧
    ∀ i ≤ f.text.length, ∀ j ≤ f.text.length,
      (Point.after (f.text.take i)).Precedes (.after (f.text.take j)) ↔ i < j := by
  refine ⟨⟨Text.splitOn 10 f.text, _, Text.join_splitOn 10 f.text,
    fun _ => Text.not_mem_of_mem_splitOn, rfl, ?_, fun more => ?_⟩,
    fun i hi j hj => Point.after_take_precedes_iff hi hj⟩
  · have hFirst := (List.take_sublist_take_left (l := f.text) (show start ≤ stop - 1 by omega)).count_le 10
    have hLast := (List.take_sublist (stop - 1) f.text).count_le 10
    simp only [List.length_map, List.length_take, List.length_drop, Text.length_splitOn, Point.after]
    omega
  · obtain ⟨hLocate, hPosition⟩ := (h.addAll more).position_of_mem (mem_addAll hf more) hSome hStop
    refine ⟨hLocate, ?_⟩
    rw [hPosition, File.lines, List.map_take, List.map_drop, funext Text.trimEnd_return]

/-- Three lines, of which the first ends in a carriage return, between two empty files. -/
def betweenEmpty : Files := ((add [] "e" []).add "a" [120, 13, 10, 10, 255, 121]).add "f" []

theorem position_betweenEmpty :
    betweenEmpty.Built ∧ ⟨"a", 0, [120, 13, 10, 10, 255, 121]⟩ ∈ betweenEmpty ∧
    ∀ more, (betweenEmpty.addAll more).locate ⟨1, 5⟩ = .ok (some ⟨"a", ⟨1, 2⟩, ⟨3, 1⟩⟩) := by
  have hBuilt : betweenEmpty.Built := .added _ _ (.added _ _ (.added _ _ .empty))
  have hMem : (⟨"a", 0, [120, 13, 10, 10, 255, 121]⟩ : File) ∈ betweenEmpty :=
    List.mem_cons_of_mem _ List.mem_cons_self
  obtain ⟨⟨_, _, _, _, _, _, hAll⟩, _⟩ :=
    @Built.position_exact_and_lasting _ hBuilt _ hMem 1 5 (by decide) (by decide)
  exact ⟨hBuilt, hMem, fun more => (hAll more).1⟩

end Files

end Assay
