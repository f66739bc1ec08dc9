import Mathlib
import Assay.Proofs.Nested
import Assay.Proofs.Word
import Assay.Reading

/-! What is known of a tree because it was read from a text: its names are words, or words between
dots, its nodes have numbers of their own, from the first number given to the reader on, and they nest
in the order of the text. Declarations and references each start with a token of their own; only calls
refer forward, and only the last statement of a body gives its value. -/

namespace Assay

variable {t : Token}

/-- If a computation ends without an error, its result satisfies `Q`. -/
def Yields {ε α : Type} (p : Except ε α) (Q : α → Prop) : Prop := ∀ a, p = .ok a → Q a

namespace Yields

variable {ε α β : Type}

theorem bind {p : Except ε α} {f : α → Except ε β} {P : α → Prop} {Q : β → Prop}
    (hp : Yields p P) (hf : ∀ a, P a → Yields (f a) Q) : Yields (p >>= f) Q := by
  intro b hb
  cases p with
  | error e => cases hb
  | ok a => exact hf a (hp a rfl) b hb

end Yields

/-- Different numbers from `low` up to, and without, `high`. -/
structure Span (low high : Nat) (ids : List Nat) : Prop where
  le : low ≤ high
  nodup : ids.Nodup
  mem : ∀ id ∈ ids, low ≤ id ∧ id < high

namespace Span

variable {low mid high : Nat} {xs ys : List Nat}

theorem nil (n : Nat) : Span n n [] := ⟨Nat.le_refl n, List.nodup_nil, by simp⟩

theorem one (n : Nat) : Span n (n + 1) [n] := ⟨by omega, by simp, by simp⟩

theorem append (hx : Span low mid xs) (hy : Span mid high ys) : Span low high (xs ++ ys) := by
  have hLow := hx.le
  have hHigh := hy.le
  refine ⟨by omega, List.nodup_append.2 ⟨hx.nodup, hy.nodup, fun a ha b hb => ?_⟩, fun id h => ?_⟩
  · have := hx.mem a ha
    have := hy.mem b hb
    omega
  · obtain h | h := List.mem_append.1 h
    · have := hx.mem id h
      omega
    · have := hy.mem id h
      omega

theorem perm (hx : Span low high xs) (h : xs.Perm ys) : Span low high ys :=
  ⟨hx.le, h.nodup hx.nodup, fun id hid => hx.mem id (h.mem_iff.2 hid)⟩

end Span

def Statement.Closes {α : Type} (ss : List (Statement α)) : Prop :=
  ∀ before s after, ss = before ++ s :: after → s.last = true → after = []

theorem Statement.Closes.cons {α : Type} {s : Statement α} {ss : List (Statement α)}
    (h : Closes ss) (hs : s.last = ss.isEmpty) : Closes (s :: ss) := by
  intro before s' after hEq hLast
  cases before with
  | nil =>
    obtain ⟨rfl, rfl⟩ := List.cons.inj hEq
    rw [hs] at hLast
    exact List.isEmpty_iff.1 hLast
  | cons first before =>
    obtain ⟨rfl, rfl⟩ := List.cons.inj hEq
    exact h before s' after rfl hLast

namespace Node

variable {α : Type}

/-- A node is formed as a reader forms it: in what is a body only the last statement gives its value,
and calls, but no other values, refer forward. -/
def Formed : Node α → Prop
  | .method m => Statement.Closes m.body
  | .value (.function _ _ _ _ body) => Statement.Closes body
  | .value (.ident _ ref) => ref.forward = false
  | .value (.assign _ ref _) => ref.forward = false
  | .value (.assignMember _ _ ref _) => ref.forward = false
  | .value (.call _ ref _ _) => ref.forward = true
  | _ => True

/-- The names that a node has itself are words, or words between dots. -/
def Worded : Node α → Prop
  | .use u => Text.isDotted u.source ∧ Text.isWord u.name
  | .top t => Text.isWord t.name
  | .attribute a => Text.isWord a.name
  | .signature s => Text.isWord s.name
  | .param p => Text.isWord p.name
  | .typeParam p => Text.isWord p.name
  | .reference r => Text.isWord r.name
  | .value (.bind _ _ name _ _) => Text.isWord name
  | .spec (.simple _ name _) => Text.isDotted name
  | _ => True

def extentIds (n : Node Extent) : List Nat := n.nodes.map (·.ann.id)

theorem extentIds_eq (n : Node Extent) :
    n.extentIds = n.ann.id :: n.children.flatMap extentIds := by
  rw [extentIds, nodes_eq, List.map_cons, List.map_flatMap]
  rfl

end Node

namespace Cursor

/-- Between two cursors a reader took tokens from the front and made of them the given nodes, with
everything below these. All but those of `skip` are in the order of the text. -/
structure Took (c c' : Cursor) (ns : List (Node Extent))
    (skip : Spelling → Node Extent → Prop := fun _ _ => False) : Prop where
  size : c'.size = c.size
  span : Span c.next c'.next (ns.flatMap Node.extentIds)
  words : Token.Worded c.tokens → ∀ n ∈ ns, n.All Node.Worded
  formed : ∀ n ∈ ns, n.All Node.Formed
  leading : ∃ taken, c.tokens = taken ++ c'.tokens ∧
    (ns.flatMap (Node.leading Extent.start)).Subperm (taken.map (·.start))
  covers : ∀ stands, c.Orderly stands → Covers stands (skip stands) c c' ns

/-- A token that was taken between two cursors, and the text it stands for. -/
def Holds (c c' : Cursor) (t : Token) (w : Text) : Prop :=
  ∀ stands, c.Orderly stands →
    c.start ≤ t.start ∧ t.start < t.stop ∧ t.stop ≤ c'.last ∧ stands t.start t.stop w

/-- A node that a reader makes at `c'` of the tokens from `c` on. -/
structure Spans (c c' : Cursor) (n : Node Extent) : Prop where
  lt : c'.left < c.left
  id : n.ann.id = c'.next
  start : n.ann.start = c.start
  stop : c'.last ≤ n.ann.stop ∧ n.ann.stop ≤ max c.start c'.last

theorem Spans.extent {c c' : Cursor} {n : Node Extent} (h : c'.left < c.left)
    (hAnn : n.ann = c'.extent c.start) : Spans c c' n := by
  refine ⟨h, ?_, ?_, ?_⟩ <;> rw [hAnn]
  · rfl
  · rfl
  · exact ⟨Nat.le_max_right _ _, Nat.le_refl _⟩

theorem Spans.token {c c' : Cursor} {n : Node Extent} (h : c'.left < c.left)
    (hStart : t.start = c.start) (hLast : c'.last = t.stop) (hAnn : n.ann = c'.extentOf t) :
    Spans c c' n := by
  refine ⟨h, ?_, ?_, ?_⟩ <;> rw [hAnn]
  · rfl
  · exact hStart
  · exact ⟨hLast.le, hLast.ge.trans (Nat.le_max_right _ _)⟩

namespace Took

variable {c c₁ c' c'' : Cursor} {xs ys : List (Node Extent)} {n : Node Extent}
  {skip skip' : Spelling → Node Extent → Prop}

theorem refl (c : Cursor) : Took c c [] :=
  ⟨rfl, .nil _, by simp, by simp, ⟨[], rfl, .refl _⟩, fun _ hc => .refl hc⟩

theorem worded (h : Took c c' xs skip) (hc : Token.Worded c.tokens) : Token.Worded c'.tokens := by
  obtain ⟨taken, hTaken, -⟩ := h.leading
  exact fun t ht => hc t (hTaken ▸ List.mem_append_right _ ht)

theorem mono (hx : Took c c' xs skip) (h : ∀ stands k, skip stands k → skip' stands k) :
    Took c c' xs skip' :=
  { hx with covers := fun stands hc => (hx.covers stands hc).mono (h stands) }

theorem skipping (hx : Took c c' xs) : Took c c' xs skip := hx.mono fun _ _ => False.elim

theorem append (hx : Took c c' xs skip) (hy : Took c' c'' ys) : Took c c'' (xs ++ ys) skip := by
  refine ⟨hy.size.trans hx.size, ?_, fun hc => ?_, List.forall_mem_append.2 ⟨hx.formed, hy.formed⟩, ?_,
    fun stands hc => ?_⟩
  · rw [List.flatMap_append]
    exact hx.span.append hy.span
  · exact List.forall_mem_append.2 ⟨hx.words hc, hy.words (hx.worded hc)⟩
  · obtain ⟨first, hFirst, hxs⟩ := hx.leading
    obtain ⟨second, hSecond, hys⟩ := hy.leading
    refine ⟨first ++ second, by rw [hFirst, hSecond, List.append_assoc], ?_⟩
    rw [List.flatMap_append, List.map_append]
    exact hxs.append hys
  · have hFirst := hx.covers stands hc
    exact hFirst.append (hy.skipping.covers stands hFirst.orderly)

theorem right (hx : Took c c' xs skip) (hy : Took c' c'' []) : Took c c'' xs skip := by
  have := hx.append hy
  rwa [List.append_nil] at this

theorem left (hx : Took c c' []) (hy : Took c' c'' ys skip) : Took c c'' ys skip := by
  obtain ⟨first, hFirst, -⟩ := hx.leading
  obtain ⟨second, hSecond, hys⟩ := hy.leading
  refine ⟨hy.size.trans hx.size, hx.span.append hy.span, fun hc => hy.words (hx.worded hc), hy.formed,
    ⟨first ++ second, by rw [hFirst, hSecond, List.append_assoc], ?_⟩, fun stands hc => ?_⟩
  · rw [List.map_append]
    exact hys.trans (List.sublist_append_right _ _).subperm
  · have hFirst : Covers stands (skip stands) c c' [] := hx.skipping.covers stands hc
    exact hFirst.append (hy.covers stands hFirst.orderly)

theorem holds_from (hx : Took c c₁ xs skip) {w : Text} (h : Holds c₁ c' t w) : Holds c c' t w := by
  intro stands hc
  have hCovers := hx.covers stands hc
  exact (h stands hCovers.orderly).imp_left hCovers.start.trans

theorem holds_until (hy : Took c₁ c' ys skip) (hx : Took c c₁ xs skip') {w : Text}
    (h : Holds c c₁ t w) : Holds c c' t w := by
  intro stands hc
  obtain ⟨hStart, hProper, hStop, hStands⟩ := h stands hc
  exact ⟨hStart, hProper, hStop.trans (hy.covers stands (hx.covers stands hc).orderly).last, hStands⟩

theorem nodeWith (hx : Took c c' xs n.Fills) (hSpan : Spans c c' n) (hPerm : xs.Perm n.children)
    (hRuns : ∀ run ∈ n.runs, run.Sublist xs) (hw : Token.Worded c.tokens → n.Worded)
    (hForm : n.Formed) (hLeading : ∃ taken, c.tokens = taken ++ c'.tokens ∧
      (n.leading Extent.start).Subperm (taken.map (·.start))) : Took c c'.bump [n] skip := by
  refine ⟨hx.size, ?_, fun hc => ?_, ?_, ?_, fun stands hc => ?_⟩
  · rw [List.flatMap_singleton, Node.extentIds_eq, hSpan.id]
    refine (hx.span.append (.one _)).perm ?_
    exact (List.perm_append_singleton _ _).trans ((hPerm.flatMap_right _).cons _)
  · exact List.forall_mem_singleton.2
      (Node.all_iff.2 ⟨hw hc, fun j hj => hx.words hc j (hPerm.mem_iff.2 hj)⟩)
  · exact List.forall_mem_singleton.2
      (Node.all_iff.2 ⟨hForm, fun j hj => hx.formed j (hPerm.mem_iff.2 hj)⟩)
  · rw [List.flatMap_singleton]
    exact hLeading
  · exact (hx.covers stands hc).node hSpan.lt hSpan.start hSpan.stop hPerm hRuns

theorem nodeOver (hx : Took c c' xs n.Fills) (hSpan : Spans c c' n) (hPerm : xs.Perm n.children)
    (hRuns : ∀ run ∈ n.runs, run.Sublist xs) (hw : Token.Worded c.tokens → n.Worded)
    (hForm : n.Formed) (hLeads : n.label.leads = false) : Took c c'.bump [n] skip := by
  obtain ⟨taken, hTaken, hxs⟩ := hx.leading
  refine hx.nodeWith hSpan hPerm hRuns hw hForm ⟨taken, hTaken, ?_⟩
  rw [Node.leading_eq, if_neg (by simp [hLeads]), List.nil_append]
  exact (hPerm.flatMap_right _).symm.subperm.trans hxs

/-- A node from the first to the last of the tokens taken. In what is not said otherwise, nothing is
left out, and no name is the node's own. -/
theorem node (hx : Took c c' xs skip')
    (w : Token.Worded c.tokens → n.Worded := by exact fun _ => trivial)
    (f : n.Formed := by trivial) (s : Spans c c' n := by exact .extent (by (try dsimp only); omega) rfl)
    (k : ∀ stands k, skip' stands k → n.Fills stands k := by exact fun _ _ h => h.elim)
    (r : n.runs = [n.children] := by rfl) (x : xs = n.children := by rfl)
    (l : n.label.leads = false := by rfl) : Took c c'.bump [n] skip := by
  subst x
  exact (hx.mono k).nodeOver s (.refl _) (by simp [r]) w f l

theorem leadWith (hx : Took c c' xs n.Fills) (hSpan : Spans c c' n) (hPerm : xs.Perm n.children)
    (hRuns : ∀ run ∈ n.runs, run.Sublist xs) (hw : Token.Worded c.tokens → n.Worded)
    (hForm : n.Formed) (hLeads : n.label.leads = true) {taken rest : List Token}
    (hTokens : c.tokens = t :: taken ++ rest) (hRest : c'.left ≤ rest.length)
    (hTaken : (xs.flatMap (Node.leading Extent.start)).Subperm (taken.map (·.start))) :
    Took c c'.bump [n] skip := by
  obtain ⟨all, hAll, -⟩ := hx.leading
  have hBefore : t :: taken <+: all := by
    refine List.prefix_of_prefix_length_le ⟨rest, hTokens.symm⟩ ⟨_, hAll.symm⟩ ?_
    have hLength := congrArg List.length (hTokens.symm.trans hAll)
    rw [List.length_append, List.length_append] at hLength
    change c'.tokens.length ≤ _ at hRest
    omega
  obtain ⟨more, rfl⟩ := hBefore
  refine hx.nodeWith hSpan hPerm hRuns hw hForm ⟨_, hAll, ?_⟩
  have hHead : n.ann.start = t.start := by
    rw [hSpan.start, Cursor.start, hTokens]
    rfl
  rw [Node.leading_eq, if_pos hLeads, List.singleton_append, hHead, List.map_append, List.map_cons]
  have hBelow := (hPerm.flatMap_right (Node.leading Extent.start)).symm.subperm.trans hTaken
  exact (List.subperm_cons _).2 (hBelow.trans (List.sublist_append_left _ _).subperm)

theorem exists_first (h : Took c c₁ []) (hLt : c₁.left < c.left) :
    ∃ t first, c.tokens = t :: first ++ c₁.tokens := by
  obtain ⟨first, hFirst, -⟩ := h.leading
  cases first with
  | nil =>
    rw [List.nil_append] at hFirst
    exact absurd hLt (by rw [Cursor.left, Cursor.left, hFirst]; exact Nat.lt_irrefl _)
  | cons t first => exact ⟨t, first, hFirst⟩

theorem lead (h : Took c c₁ []) (hLt : c₁.left < c.left) (hx : Took c₁ c' xs skip')
    (w : Token.Worded c.tokens → n.Worded)
    (s : Spans c c' n := by exact .extent (by (try dsimp only); omega) rfl)
    (k : ∀ stands k, skip' stands k → n.Fills stands k := by exact fun _ _ h => h.elim)
    (f : n.Formed := by trivial) (r : n.runs = [n.children] := by rfl)
    (x : xs = n.children := by rfl) (l : n.label.leads = true := by rfl) :
    Took c c'.bump [n] skip := by
  subst x
  obtain ⟨t, first, hFirst⟩ := h.exists_first hLt
  obtain ⟨taken, hTaken, hxs⟩ := hx.leading
  have hTokens : c.tokens = t :: (first ++ taken) ++ c'.tokens := by simp [hFirst, hTaken]
  refine (h.left (hx.mono k)).leadWith s (.refl _) (by simp [r]) w f l hTokens (Nat.le_refl _) ?_
  rw [List.map_append]
  exact hxs.trans (List.sublist_append_right _ _).subperm

theorem omitted (hx : Took c c' xs) {text : Text} (ht : Holds c c' t text) {spec : TypeSpec Extent}
    (hAnn : spec.ann = c'.extentOf t) (hLeaf : (Node.spec spec).children = [])
    (hWord : (Node.spec spec).Worded)
    (hSkip : ∀ stands : Spelling, stands t.start t.stop text → skip stands (.spec spec)) :
    Took c c'.bump (xs ++ [.spec spec]) skip := by
  have hAll {P : Node Extent → Prop} (h : P (.spec spec)) : ∀ n ∈ [Node.spec spec], n.All P :=
    List.forall_mem_singleton.2 (Node.all_iff.2 ⟨h, by simp [hLeaf]⟩)
  refine ⟨hx.size, ?_, fun hc => ?_, ?_, ?_, fun stands hc => ?_⟩
  · rw [List.flatMap_append, List.flatMap_singleton, Node.extentIds_eq, hLeaf,
      show (Node.spec spec).ann.id = c'.next from congrArg Extent.id hAnn]
    exact hx.span.append (.one _)
  · exact List.forall_mem_append.2 ⟨hx.words hc, hAll hWord⟩
  · exact List.forall_mem_append.2 ⟨hx.formed, hAll trivial⟩
  · obtain ⟨taken, hTaken, hLeading⟩ := hx.leading
    refine ⟨taken, hTaken, ?_⟩
    rw [List.flatMap_append, List.flatMap_singleton, Node.leading_eq, hLeaf,
      if_neg (by simp [Node.leads_spec]), List.nil_append, List.flatMap_nil, List.append_nil]
    exact hLeading
  · obtain ⟨hStart, hProper, hStop, hStands⟩ := ht stands hc
    have hExtent : (Node.spec spec).ann = c'.extentOf t := hAnn
    refine (hx.skipping.covers stands hc).omitted ?_ ?_ ?_ ?_ (hSkip stands hStands)
    · rw [hExtent]
      exact hStart
    · rw [hExtent]
      exact hProper
    · rw [hExtent]
      exact hStop
    · refine Node.all_iff.2 ⟨⟨Nat.le_max_left _ _, ?_, ?_, ?_⟩, ?_⟩ <;> simp [Node.runs, hLeaf]

end Took

end Cursor

end Assay
