import Assay.Proofs.Placed

/-! Where the nodes of a source stand. A text that is added to a set of files starts where the
others end, so what does not lie after its end has a place, and this place is in its file. Its
declarations and references start at different points. -/

namespace Assay

variable {fs fs' : Files} {next next' stop : Nat} {path space text : Text} {r : Root Meta}

theorem File.point_injective (f : File) : Function.Injective f.point := by
  intro a b h
  obtain ⟨hLine, hColumn⟩ := Point.mk.inj h
  have hLength : (f.newlines.takeWhile (· < a)).length = (f.newlines.takeWhile (· < b)).length := by
    omega
  have hBefore : f.newlines.takeWhile (· < a) = f.newlines.takeWhile (· < b) :=
    (List.prefix_of_prefix_length_le (List.takeWhile_prefix _) (List.takeWhile_prefix _)
      hLength.le).eq_of_length hLength
  rw [hBefore] at hColumn
  omega

/-- The point that the text of a node starts at, if it has a position. -/
def Meta.first? (m : Meta) : Option Point := m.position.map (·.location.first)

namespace Files

/-- A set of files that were added one after another. -/
inductive Built : Files → Prop where
  | empty : Built []
  | added {fs : Files} (path text : Text) (h : Built fs) : Built (fs.add path text)

theorem size_add (fs : Files) (path text : Text) :
    (fs.add path text).size = fs.size + text.length := by
  simp [add, size]

theorem Built.end_le (h : fs.Built) : ∀ f ∈ fs, f.offset + f.text.length ≤ fs.size := by
  induction h with
  | empty => simp
  | @added fs path text h ih =>
    rw [size_add]
    refine List.forall_mem_append.2 ⟨fun f hf => ?_, ?_⟩
    · exact Nat.le_add_right_of_le (ih f hf)
    · simp

theorem Built.takeWhile_add (h : fs.Built) (path text : Text) {offset : Nat}
    (hOffset : fs.size ≤ offset) :
    (fs.add path text).takeWhile (·.offset ≤ offset) = fs.add path text := by
  refine List.takeWhile_eq_self_iff.2 (List.forall_mem_append.2 ⟨fun f hf => ?_, ?_⟩)
  · exact decide_eq_true ((Nat.le_of_add_right_le (h.end_le f hf)).trans hOffset)
  · simpa using hOffset

theorem Built.fileAt?_add (h : fs.Built) (path text : Text) (offset : Nat)
    (hOffset : fs.size ≤ offset) :
    (fs.add path text).fileAt? offset = some ⟨path, fs.size, text⟩ := by
  rw [fileAt?, h.takeWhile_add path text hOffset, add, List.getLast?_concat, Option.some_or]

theorem Built.position_point (h : fs.Built) (path text : Text) (start : Nat)
    (hStop : stop ≤ text.length) :
    ∃ p, (fs.add path text).position ⟨(fs.size + start : Nat), (fs.size + stop : Nat)⟩ =
      .ok (some p) ∧ p.location.path = path ∧
        p.location.first = (⟨path, fs.size, text⟩ : File).point (fs.size + start) := by
  have hFirst := h.fileAt?_add path text ((fs.size + start : Nat) : Int).toNat (by omega)
  have hLast := h.fileAt?_add path text
    (Range.last ⟨(fs.size + start : Nat), (fs.size + stop : Nat)⟩).toNat (by
      simp only [Range.last]
      split <;> omega)
  have hNot : ¬ ((fs.add path text).size : Int) < ((fs.size + stop : Nat) : Int) := by
    rw [size_add]
    omega
  have hZero : ¬ ((fs.size + start : Nat) : Int) < 0 := by omega
  simp only [position, locate, decide_eq_false hNot, decide_eq_false hZero, Bool.or_self,
    Bool.false_eq_true, if_false, hFirst, hLast, if_true]
  exact ⟨_, rfl, rfl, rfl⟩

theorem Built.position_add (h : fs.Built) (path text : Text) (start : Nat)
    (hStop : stop ≤ text.length) :
    ∃ p, (fs.add path text).position ⟨(fs.size + start : Nat), (fs.size + stop : Nat)⟩ =
      .ok (some p) ∧ p.location.path = path := by
  obtain ⟨p, hPosition, hPath, -⟩ := h.position_point path text start hStop
  exact ⟨p, hPosition, hPath⟩

theorem Built.positionOf_point (h : fs.Built) (path text : Text) (start : Nat)
    (hStop : stop ≤ text.length) :
    ∃ p, (fs.add path text).positionOf (fs.size + start) (fs.size + stop) = some p ∧
      p.location.path = path ∧
        p.location.first = (⟨path, fs.size, text⟩ : File).point (fs.size + start) := by
  obtain ⟨p, hPosition, hPlace⟩ := h.position_point path text start hStop
  exact ⟨p, by rw [positionOf, hPosition], hPlace⟩

theorem Built.positionOf_add (h : fs.Built) (path text : Text) {start : Nat}
    (hStop : stop ≤ text.length) :
    ∃ p, (fs.add path text).positionOf (fs.size + start) (fs.size + stop) = some p ∧
      p.location.path = path := by
  obtain ⟨p, hPosition, hPath, -⟩ := h.positionOf_point path text start hStop
  exact ⟨p, hPosition, hPath⟩

end Files

theorem Root.read_placed (hFiles : fs.Built)
    (h : Root.read fs space path text next = (fs', .ok r, next')) :
    (Node.root r).All fun n => ∃ p, n.ann.position = some p ∧ p.location.path = path := by
  obtain ⟨hAdd, _, _⟩ := Root.read_spec h
  obtain ⟨root, hParse, rfl⟩ := (Root.parse_of_read h).1 r rfl
  have hWithin := Root.parse_within space text next _ hParse
  change ((Node.root root).map _).All _
  rw [Node.all_map, hAdd]
  refine hWithin.mono fun n hn => ?_
  rw [Node.ann_map]
  exact hFiles.positionOf_add path text hn

theorem Root.read_located (hFiles : fs.Built)
    (h : Root.read fs space path text next = (fs', .ok r, next')) :
    (Node.root r).All (·.ann.position.isSome) := by
  refine (Root.read_placed hFiles h).mono ?_
  rintro n ⟨p, hPosition, -⟩
  rw [hPosition]
  rfl

theorem Root.read_leading (hFiles : fs.Built)
    (h : Root.read fs space path text next = (fs', .ok r, next')) :
    ((Node.root r).leading Meta.first?).Nodup := by
  obtain ⟨rfl, _, _⟩ := Root.read_spec h
  obtain ⟨root, hParse, rfl⟩ := (Root.parse_of_read h).1 r rfl
  have hWithin := Root.parse_within space text next _ hParse
  have hLeading := Root.parse_leading space text next _ hParse
  have hStarts : (Node.root (root.map (Extent.place (fs.add path text) fs.size))).leading Meta.first? =
      ((Node.root root).leading Extent.start).map fun start =>
        some ((⟨path, fs.size, text⟩ : File).point (fs.size + start)) := by
    change ((Node.root root).map _).leading _ = _
    rw [Node.leading_map, Node.leading, Node.leading, List.map_map]
    refine List.map_congr_left fun n hn => ?_
    obtain ⟨p, hPosition, -, hFirst⟩ :=
      hFiles.positionOf_point path text n.ann.start (hWithin n (List.mem_filter.1 hn).1)
    simp only [Function.comp_apply, Meta.first?, Extent.place, hPosition, Option.map_some, hFirst]
  rw [hStarts]
  refine hLeading.map fun a b hSame => ?_
  have := File.point_injective _ (Option.some.inj hSame)
  omega

end Assay
