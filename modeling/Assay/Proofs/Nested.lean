import Mathlib
import Assay.Proofs.Label
import Assay.Tree.Parser

/-! Where the nodes of a tree stand to each other: a node starts before it ends, lies within its
parent, and comes after the children in front of it. Types that are left out have no text of their
own, and are placed on the declared name or on the closing parenthesis of the parameters. Nodes that
are made one after another of the tokens of a text stand so. -/

namespace Assay

namespace Node

variable {α P : Type}

/-- The text that a type which is left out of a node is placed on. -/
def anchor : Node α → Text
  | .top d => d.name
  | .attribute a => a.name
  | .signature s => s.name
  | .value (.bind _ _ name _ _) => name
  | .value (.function ..) => ")"
  | _ => []

/-- The child that a node has in place of a type which is left out. -/
def filler (n : Node α) (a : α) : Node α :=
  match n with
  | .top _ => .spec (.simple a objectName [])
  | _ => .spec (.inferred a)

def Omits (spells : α → Text → Prop) (n k : Node α) : Prop :=
  k = n.filler k.ann ∧ spells k.ann n.anchor

/-- The children of a node, in the parts that are in the order of the text: those of a class are its
type variables and its supertype with its attributes, and with its methods. -/
def runs : Node α → List (List (Node α))
  | .top (.ofClass d) =>
    [d.typeParams.map .typeParam ++ [.spec d.super] ++ d.attributes.map .attribute,
      d.typeParams.map .typeParam ++ [.spec d.super] ++ d.methods.map .method]
  | n => [n.children]

/-- A node does not end before it starts, its children lie within it, and those that are not left out
lie apart from each other and one after another. -/
structure Nests [Preorder P] (first last : α → P) (spells : α → Text → Prop) (n : Node α) : Prop where
  le : first n.ann ≤ last n.ann
  inside : ∀ k ∈ n.children, first n.ann ≤ first k.ann ∧ last k.ann ≤ last n.ann
  apart : n.children.Pairwise fun a b => ¬n.Omits spells a → ¬n.Omits spells b →
    last a.ann < first b.ann ∨ last b.ann < first a.ann
  inOrder : ∀ run ∈ n.runs, run.Pairwise fun a b => ¬n.Omits spells a → ¬n.Omits spells b →
    last a.ann < first b.ann

end Node

/-- The offset of the last byte of an extent, or of its start if it is empty. -/
def Extent.last (e : Extent) : Nat := max e.start (e.stop - 1)

/-- Which text stands between two offsets. -/
abbrev Spelling := Nat → Nat → Text → Prop

/-- The extents of a node and of its children nest. -/
abbrev Node.Nested (stands : Spelling) : Node Extent → Prop :=
  Nests Extent.start Extent.last fun e => stands e.start e.stop

/-- The children of a node that stand for types that are left out. -/
abbrev Node.Fills (n : Node Extent) (stands : Spelling) : Node Extent → Prop :=
  n.Omits fun e => stands e.start e.stop

theorem Node.last_le_of_nested {stands : Spelling} {n k : Node Extent} (h : n.All (Nested stands))
    (hk : k ∈ n.nodes) : k.ann.last ≤ n.ann.last := by
  induction n using induct with
  | _ n ih =>
    rw [nodes_eq, List.mem_cons, List.mem_flatMap] at hk
    obtain rfl | ⟨j, hj, hk⟩ := hk
    · exact Nat.le_refl _
    · exact (ih j hj (h.child hj) hk).trans (h.self.inside j hj).2

namespace Cursor

variable {stands : Spelling}

/-- The tokens left lie one after another, and after the last one taken, each where its lexeme
stands. -/
structure Orderly (stands : Spelling) (c : Cursor) : Prop where
  last : c.last ≤ c.size
  sorted : c.tokens.Pairwise (·.stop ≤ ·.start)
  laid : ∀ t ∈ c.tokens, c.last ≤ t.start ∧ t.start < t.stop ∧ t.stop ≤ c.size ∧
    stands t.start t.stop t.lexeme.text

theorem Orderly.last_le_start {c : Cursor} (h : c.Orderly stands) : c.last ≤ c.start := by
  unfold start
  split
  · rename_i t rest ht
    exact (h.laid t (by simp [ht])).1
  · exact h.last

/-- Between two cursors a reader took tokens from the front and made of them the given nodes. All but
those of `skip` are in the order of the text. -/
structure Covers (stands : Spelling) (skip : Node Extent → Prop) (c c' : Cursor)
    (ns : List (Node Extent)) : Prop where
  orderly : c'.Orderly stands
  left : c'.left ≤ c.left
  start : c.start ≤ c'.start
  last : c.last ≤ c'.last
  took : c'.left < c.left → c.start < c'.last
  within : ∀ n ∈ ns, c.start ≤ n.ann.start ∧ n.ann.start < n.ann.stop ∧ n.ann.stop ≤ c'.last ∧
    n.All (Node.Nested stands)
  sorted : ns.Pairwise fun a b => ¬skip a → ¬skip b → a.ann.stop ≤ b.ann.start

namespace Covers

variable {skip : Node Extent → Prop} {c c' c'' : Cursor} {xs ys : List (Node Extent)}

theorem refl (hc : c.Orderly stands) : Covers stands skip c c [] :=
  ⟨hc, Nat.le_refl _, Nat.le_refl _, Nat.le_refl _, fun h => absurd h (Nat.lt_irrefl _), by simp,
    .nil⟩

theorem append (hx : Covers stands skip c c' xs) (hy : Covers stands skip c' c'' ys) :
    Covers stands skip c c'' (xs ++ ys) := by
  have hMid := hx.orderly.last_le_start
  refine ⟨hy.orderly, hy.left.trans hx.left, hx.start.trans hy.start,
    hx.last.trans hy.last, fun hlt => ?_, List.forall_mem_append.2 ⟨fun n hn => ?_, fun n hn => ?_⟩,
    List.pairwise_append.2 ⟨hx.sorted, hy.sorted, fun a ha b hb _ _ => ?_⟩⟩
  · by_cases hFirst : c'.left < c.left
    · exact (hx.took hFirst).trans_le hy.last
    · exact hx.start.trans_lt (hy.took (hlt.trans_le (Nat.not_lt.1 hFirst)))
  · obtain ⟨hStart, hProper, hStop, hNested⟩ := hx.within n hn
    exact ⟨hStart, hProper, hStop.trans hy.last, hNested⟩
  · obtain ⟨hStart, hRest⟩ := hy.within n hn
    exact ⟨hx.start.trans hStart, hRest⟩
  · exact ((hx.within a ha).2.2.1.trans hMid).trans (hy.within b hb).1

theorem bump (hx : Covers stands skip c c' xs) : Covers stands skip c c'.bump xs :=
  ⟨⟨hx.orderly.last, hx.orderly.sorted, hx.orderly.laid⟩, hx.left, hx.start, hx.last, hx.took,
    hx.within, hx.sorted⟩

theorem mono (hx : Covers stands skip c c' xs) {skip' : Node Extent → Prop}
    (h : ∀ n, skip n → skip' n) : Covers stands skip' c c' xs :=
  { hx with sorted := hx.sorted.imp fun hab ha hb => hab (mt (h _) ha) (mt (h _) hb) }

theorem omitted (hx : Covers stands skip c c' xs) {k : Node Extent} (hStart : c.start ≤ k.ann.start)
    (hProper : k.ann.start < k.ann.stop) (hStop : k.ann.stop ≤ c'.last)
    (hNested : k.All (Node.Nested stands)) (hSkip : skip k) : Covers stands skip c c'.bump (xs ++ [k]) :=
  { hx.bump with
    within := List.forall_mem_append.2 ⟨hx.within,
      List.forall_mem_singleton.2 ⟨hStart, hProper, hStop, hNested⟩⟩
    sorted := List.pairwise_append.2 ⟨hx.sorted, List.pairwise_singleton _ _, fun _ _ _ hb _ hNot =>
      absurd (List.mem_singleton.1 hb ▸ hSkip) hNot⟩ }

theorem nests {n : Node Extent} (hx : Covers stands (n.Fills stands) c c' xs)
    (hStart : n.ann.start ≤ c.start) (hStop : c'.last ≤ n.ann.stop) (hPerm : xs.Perm n.children)
    (hRuns : ∀ run ∈ n.runs, run.Sublist xs) : n.All (Node.Nested stands) := by
  have hSorted := hx.sorted.imp_of_mem
    (S := fun a b => ¬n.Omits _ a → ¬n.Omits _ b → a.ann.last < b.ann.start)
    fun {a b} ha _ h hNot hNot' => by
      have hOrder := h hNot hNot'
      have hProper := (hx.within a ha).2.1
      unfold Extent.last
      omega
  refine Node.all_iff.2 ⟨⟨Nat.le_max_left _ _, fun k hk => ?_, ?_, fun run hRun => ?_⟩, fun k hk => ?_⟩
  · obtain ⟨hFrom, hProper, hTo, -⟩ := hx.within k (hPerm.mem_iff.2 hk)
    unfold Extent.last
    omega
  · refine (hPerm.pairwise_iff fun {a b} h hNot hNot' => (h hNot' hNot).symm).1 ?_
    exact hSorted.imp fun h hNot hNot' => .inl (h hNot hNot')
  · exact hSorted.sublist (hRuns run hRun)
  · exact (hx.within k (hPerm.mem_iff.2 hk)).2.2.2

theorem node {n : Node Extent} (hx : Covers stands (n.Fills stands) c c' xs)
    (hlt : c'.left < c.left) (hStart : n.ann.start = c.start)
    (hStop : c'.last ≤ n.ann.stop ∧ n.ann.stop ≤ max c.start c'.last)
    (hPerm : xs.Perm n.children) (hRuns : ∀ run ∈ n.runs, run.Sublist xs) :
    Covers stands skip c c'.bump [n] := by
  have hTook := hx.took hlt
  rw [max_eq_right hTook.le] at hStop
  have hProper : n.ann.start < n.ann.stop := hStart ▸ hTook.trans_le hStop.1
  exact { hx.bump with
    within := List.forall_mem_singleton.2
      ⟨hStart.ge, hProper, hStop.2, hx.nests hStart.le hStop.1 hPerm hRuns⟩
    sorted := List.pairwise_singleton _ _ }

end Covers

end Cursor

end Assay
