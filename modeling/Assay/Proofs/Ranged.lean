import Mathlib
import Assay.Proofs.Spaced

/-! The places of nodes, by line and column. A later offset has a later point, so nodes nest at their
points as they do at their offsets. -/

namespace Assay

/-- Whether `w` stands in a text from the offset `start` to the offset `stop`. -/
def Text.Stands (text : Text) (start stop : Nat) (w : Text) : Prop :=
  ∃ u v, text = u ++ w ++ v ∧ start = u.length ∧ stop = u.length + w.length

theorem Token.stands_of_readAll {size : Nat} {pre t : Text} {tokens : List Token}
    (hSize : size = (pre ++ t).length) (h : Token.readAll size t = .ok tokens) :
    ∀ k ∈ tokens, (pre ++ t).Stands k.start k.stop k.lexeme.text := by
  fun_induction Token.readAll size t generalizing pre tokens with
  | case1 => simp_all
  | case2 => simp at h
  | case3 t b rest hBlanks start lexeme left hr hShorter =>
    rename_i ih
    obtain ⟨gap, hGap, -⟩ := Lexeme.exists_gap t
    obtain ⟨hText, -⟩ := Lexeme.read_readsBack hr
    have hLength := congrArg List.length hText
    rw [hBlanks, hText] at hGap
    rw [List.length_cons, List.length_append] at hLength
    have hBefore : pre ++ t = pre ++ gap ++ lexeme.text ++ left := by
      rw [hGap, List.append_assoc, List.append_assoc]
    have hTotal := congrArg List.length hBefore
    simp only [List.length_append] at hTotal hSize
    cases hMore : Token.readAll size left with
    | error e => simp [hMore, Except.map] at h
    | ok more =>
      simp only [hMore, Except.map, Except.ok.injEq] at h
      subst h
      have hAfter : size = (pre ++ gap ++ lexeme.text ++ left).length := by
        simp only [List.length_append]
        omega
      refine List.forall_mem_cons.2 ⟨⟨pre ++ gap, left, hBefore, ?_, ?_⟩, hBefore ▸ ih hAfter hMore⟩ <;>
        simp only [List.length_append] <;> omega

theorem Root.parse_nested (space text : Text) (next : Nat) :
    Yields (Root.parse space text next) fun (r, _) => (Node.root r).All (Node.Nested text.Stands) := by
  intro (r, next') h
  obtain ⟨tokens, hLex, hTook⟩ := Root.parse_took space text next _ h
  obtain ⟨hSorted, hLaid⟩ := Token.laid_of_readAll (Nat.le_refl _) hLex
  refine hTook.nested _ ⟨Nat.zero_le _, hSorted, fun t ht => ⟨Nat.zero_le _, (hLaid t ht).2, ?_⟩⟩
  have hStands := @Token.stands_of_readAll _ [] _ _ rfl hLex t ht
  exact ⟨(Token.within_of_readAll hLex t ht).2, hStands⟩

namespace Node

variable {α β P Q : Type}

theorem anchor_map (f : α → β) (n : Node α) : (n.map f).anchor = n.anchor := by
  cases n with
  | top t => cases t <;> rfl
  | value v => cases v <;> rfl
  | _ => rfl

theorem filler_map (f : α → β) (n : Node α) (a : α) :
    (n.map f).filler (f a) = (n.filler a).map f := by
  cases n <;> rfl

theorem runs_map (f : α → β) (n : Node α) : (n.map f).runs = n.runs.map (List.map (map f)) := by
  have hChildren := children_map f n
  cases n with
  | top t =>
    cases t with
    | ofClass d => simp [runs, map, TopLevel.map, Function.comp_def]
    | ofType d => exact congrArg (fun ks => [ks]) hChildren
  | _ => exact congrArg (fun ks => [ks]) hChildren

theorem mem_children_of_run {n k : Node α} {run : List (Node α)} (hRun : run ∈ n.runs)
    (hk : k ∈ run) : k ∈ n.children := by
  unfold runs at hRun
  split at hRun
  · simp only [List.mem_cons, List.not_mem_nil, or_false] at hRun
    obtain rfl | rfl := hRun
    · exact List.mem_append_left _ hk
    · obtain hk | hk := List.mem_append.1 hk
      · exact List.mem_append_left _ (List.mem_append_left _ hk)
      · exact List.mem_append_right _ hk
  · exact List.mem_singleton.1 hRun ▸ hk

theorem Omits.map {f : α → β} {spells : α → Text → Prop} {spells' : β → Text → Prop} {n k : Node α}
    (h : n.Omits spells k) (hSpells : ∀ w, spells k.ann w → spells' (f k.ann) w) :
    (n.map f).Omits spells' (k.map f) := by
  refine ⟨?_, ?_⟩
  · rw [ann_map, filler_map, ← h.1]
  · rw [ann_map, anchor_map]
    exact hSpells _ h.2

theorem Nests.map [PartialOrder P] [Preorder Q] {f : α → β} {point : P → Q}
    (hPoint : StrictMono point) {first last : α → P} {first' last' : β → Q}
    {spells : α → Text → Prop} {spells' : β → Text → Prop} {n : Node α} (h : n.Nests first last spells)
    (hFirst : ∀ k ∈ n :: n.children, first' (f k.ann) = point (first k.ann))
    (hLast : ∀ k ∈ n :: n.children, last' (f k.ann) = point (last k.ann))
    (hSpells : ∀ k ∈ n.children, ∀ w, spells k.ann w → spells' (f k.ann) w) :
    (n.map f).Nests first' last' spells' := by
  have hBelow {k : Node α} (hk : k ∈ n.children) : k ∈ n :: n.children := List.mem_cons_of_mem _ hk
  have hNot {k : Node α} (hk : k ∈ n.children) (h : ¬(n.map f).Omits spells' (k.map f)) :
      ¬n.Omits spells k :=
    fun hOmits => h (hOmits.map (hSpells k hk))
  have hLt {a b : Node α} (ha : a ∈ n.children) (hb : b ∈ n.children)
      (h : last a.ann < first b.ann) : last' (a.map f).ann < first' (b.map f).ann := by
    rw [ann_map, ann_map, hLast a (hBelow ha), hFirst b (hBelow hb)]
    exact hPoint h
  refine ⟨?_, ?_, ?_, ?_⟩
  · rw [ann_map, hFirst n List.mem_cons_self, hLast n List.mem_cons_self]
    exact hPoint.monotone h.le
  · rw [children_map]
    refine List.forall_mem_map.2 fun k hk => ?_
    rw [ann_map, ann_map, hFirst n List.mem_cons_self, hLast n List.mem_cons_self,
      hFirst k (hBelow hk), hLast k (hBelow hk)]
    exact (h.inside k hk).imp (hPoint.monotone ·) (hPoint.monotone ·)
  · rw [children_map, List.pairwise_map]
    refine h.apart.imp_of_mem fun ha hb hApart hNot₁ hNot₂ => ?_
    exact (hApart (hNot ha hNot₁) (hNot hb hNot₂)).imp (hLt ha hb) (hLt hb ha)
  · rw [runs_map]
    refine List.forall_mem_map.2 fun run hRun => List.pairwise_map.2 ?_
    refine (h.inOrder run hRun).imp_of_mem fun ha hb hOrder hNot₁ hNot₂ => ?_
    have ha := mem_children_of_run hRun ha
    have hb := mem_children_of_run hRun hb
    exact hLt ha hb (hOrder (hNot ha hNot₁) (hNot hb hNot₂))

end Node

/-- Points come one after another by line, and in a line by column. -/
instance : LE Point := ⟨fun a b => a.line < b.line ∨ a.line = b.line ∧ a.column ≤ b.column⟩

instance : LT Point := ⟨fun a b => a.line < b.line ∨ a.line = b.line ∧ a.column < b.column⟩

theorem Point.le_def {a b : Point} :
    a ≤ b ↔ a.line < b.line ∨ a.line = b.line ∧ a.column ≤ b.column :=
  .rfl

theorem Point.lt_def {a b : Point} :
    a < b ↔ a.line < b.line ∨ a.line = b.line ∧ a.column < b.column :=
  .rfl

instance : Preorder Point where
  le_refl a := Point.le_def.2 (.inr ⟨rfl, Int.le_refl _⟩)
  le_trans a b c hab hbc := by
    rw [Point.le_def] at *
    omega
  lt_iff_le_not_ge a b := by
    rw [Point.lt_def, Point.le_def, Point.le_def]
    omega

theorem File.point_strictMono (f : File) : StrictMono f.point := by
  intro a b h
  have hPrefix : f.newlines.takeWhile (· < a) <+: f.newlines.takeWhile (· < b) := by
    have hTwice :
        (f.newlines.takeWhile (· < b)).takeWhile (· < a) = f.newlines.takeWhile (· < a) := by
      rw [List.takeWhile_takeWhile]
      congr 1
      funext n
      grind
    exact hTwice ▸ List.takeWhile_prefix _
  rw [Point.lt_def]
  obtain hLength | hLength := hPrefix.length_le.lt_or_eq
  · left
    simp only [point]
    omega
  · right
    simp only [point, hPrefix.eq_of_length hLength]
    exact ⟨trivial, by omega⟩

def Meta.location (m : Meta) : Location :=
  match m.position with
  | some position => position.location
  | none => .unknown

def Meta.first (m : Meta) : Point := m.location.first

def Meta.last (m : Meta) : Point := m.location.last

def Meta.Spells (f : File) (m : Meta) (w : Text) : Prop :=
  ∃ u v, f.text = u ++ w ++ v ∧ m.first = f.point (f.offset + u.length) ∧
    m.last = f.point (f.offset + u.length + (w.length - 1))

theorem Extent.place_points {fs : Files} (h : fs.Built) (path text : Text) {e : Extent}
    (hStop : e.stop ≤ text.length) :
    let m := e.place (fs.add path text) fs.size
    let f : File := ⟨path, fs.size, text⟩
    m.position.isSome ∧ m.first = f.point (fs.size + e.start) ∧ m.last = f.point (fs.size + e.last) := by
  have hRange : (Range.last ⟨(fs.size + e.start : Nat), (fs.size + e.stop : Nat)⟩).toNat =
      fs.size + e.last := by
    simp only [Range.last, Extent.last]
    split <;> omega
  have hFirst := h.fileAt?_add path text ((fs.size + e.start : Nat) : Int).toNat (by omega)
  have hLast := h.fileAt?_add path text (fs.size + e.last) (by omega)
  have hNot : ¬((fs.add path text).size : Int) < ((fs.size + e.stop : Nat) : Int) := by
    rw [Files.size_add]
    omega
  have hZero : ¬((fs.size + e.start : Nat) : Int) < 0 := by omega
  simp only [Meta.first, Meta.last, Extent.place, Files.positionOf, Files.position, Files.locate,
    decide_eq_false hNot, decide_eq_false hZero, Bool.or_self, Bool.false_eq_true, if_false, hFirst,
    hRange, hLast, if_true]
  exact ⟨rfl, rfl, rfl⟩

/-- The nodes of a source that was read lie within their parents, and what is written of their children
lies apart and in the order of the text. -/
theorem Root.read_nested {fs fs' : Files} {space path text : Text} {next next' : Nat} {r : Root Meta}
    (hFiles : fs.Built) (h : Root.read fs space path text next = (fs', .ok r, next')) :
    (Node.root r).All fun n => n.ann.position.isSome ∧
      n.Nests Meta.first Meta.last (Meta.Spells ⟨path, fs.size, text⟩) := by
  obtain ⟨rfl, _, _⟩ := Root.read_spec h
  obtain ⟨root, hParse, rfl⟩ := (Root.parse_of_read h).1 r rfl
  have hWithin := Root.parse_within space text next _ hParse
  have hNested := Root.parse_nested space text next _ hParse
  change ((Node.root root).map _).All _
  rw [Node.all_map]
  intro n hn
  have hPlaced (k : Node Extent) (hk : k ∈ n :: n.children) :=
    Extent.place_points hFiles path text (hWithin k (by
      obtain rfl | hk := List.mem_cons.1 hk
      · exact hn
      · exact Node.mem_nodes_of_child hn hk))
  have hPoint : StrictMono fun offset => (⟨path, fs.size, text⟩ : File).point (fs.size + offset) :=
    fun a b hab => File.point_strictMono _ (Nat.add_lt_add_left hab _)
  refine ⟨?_, Node.Nests.map hPoint (hNested n hn) (fun k hk => (hPlaced k hk).2.1)
    (fun k hk => (hPlaced k hk).2.2) ?_⟩
  · rw [Node.ann_map]
    exact (hPlaced n List.mem_cons_self).1
  · rintro k hk w ⟨u, v, hText, hStart, hStop⟩
    obtain ⟨-, hFirst, hLast⟩ := hPlaced k (List.mem_cons_of_mem _ hk)
    refine ⟨u, v, hText, hStart ▸ hFirst, hLast.trans (congrArg (File.point _) ?_)⟩
    change fs.size + max k.ann.start (k.ann.stop - 1) = fs.size + u.length + (w.length - 1)
    omega

/-- A class whose supertype is left out, with a method between two attributes. -/
def interleaved : Text :=
  "class C[A] \x7b\n  val x = 1\n  m(y: A) \x7b f((z: A | B) => \x7b z.g = y; \x7d) \x7d\n" ++
    "  var w: C[A]\n\x7d\n"

theorem read_interleaved : ∃ fs' r next',
    Root.read [] "p" "C.th" interleaved 1 = (fs', .ok r, next') ∧ (Node.root r).All fun n => n.ann.position.isSome ∧
      n.Nests Meta.first Meta.last (Meta.Spells ⟨"C.th", 0, interleaved⟩) := by
  have hOk : (Root.read [] "p" "C.th" interleaved 1).2.1.isOk := by decide +kernel
  cases hRead : Root.read [] "p" "C.th" interleaved 1 with
  | mk fs' rest =>
    obtain ⟨result, next'⟩ := rest
    rw [hRead] at hOk
    cases result with
    | error m => cases hOk
    | ok r => exact ⟨fs', r, next', rfl, Root.read_nested .empty hRead⟩

end Assay
