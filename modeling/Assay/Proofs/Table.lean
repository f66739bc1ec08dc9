import Mathlib
import Assay.Spec.Qualified

/-! The symbol table by its entries. What is declared changes the entries of one scope; what is found
is an entry of the scope that a name's qualifier names, or of a scope on the way to where one
looks. -/

namespace Assay

variable {key : Key} {q : Path} {s t : Scope} {n name p : Text} {symbols : List Symbol}
  {f : Scope → Scope} {symbol : Symbol} {bs : List Binding} {b : Binding}

/-- A result satisfies `Q`, or it is an error that satisfies `F`. -/
def Ends {ε α : Type} (F : ε → Prop) (Q : α → Prop) : Except ε α → Prop
  | .ok a => Q a
  | .error e => F e

theorem Ends.bind {ε α β : Type} {F : ε → Prop} {P : α → Prop} {Q : β → Prop} {x : Except ε α}
    {f : α → Except ε β} (hx : Ends F P x) (hf : ∀ a, P a → Ends F Q (f a)) :
    Ends F Q (x >>= f) := by
  cases x with
  | ok a => exact hf a hx
  | error e => exact hx

theorem Ends.mono {ε α : Type} {F : ε → Prop} {P Q : α → Prop} {x : Except ε α} (hx : Ends F P x)
    (h : ∀ a, P a → Q a) : Ends F Q x := by
  cases x with
  | ok a => exact h a hx
  | error e => exact hx

namespace Scope

/-- The entries of the scope at a path; there are none if the scope is missing. -/
def bindingsAt (t : Scope) (path : Path) : List Binding := ((t.at? path).map bindings).getD []

theorem bindingsAt_nil (t : Scope) : t.bindingsAt [] = t.bindings := rfl

theorem bindingsAt_cons (t : Scope) (name : Text) (rest : Path) :
    t.bindingsAt (name :: rest) = ((t.child? name).map (bindingsAt · rest)).getD [] := by
  unfold bindingsAt
  rw [at?]
  cases t.child? name <;> rfl

theorem bindingsAt_empty (name : Text) (path : Path) : (empty name).bindingsAt path = [] := by
  cases path with
  | nil => rfl
  | cons other rest =>
    rw [bindingsAt_cons, show (empty name).child? other = none from rfl]
    rfl

/-- The change `f` of a scope is the change `g` of its entries. -/
structure Local (f : Scope → Scope) (g : List Binding → List Binding) : Prop where
  name : ∀ s, (f s).name = s.name
  inner : ∀ s, (f s).inner = s.inner
  bindings : ∀ s, (f s).bindings = g s.bindings

theorem Local.id : Local id id := ⟨fun _ => rfl, fun _ => rfl, fun _ => rfl⟩

theorem Local.add (key : Key) (name : Text) (symbol : Symbol) :
    Local (add key name symbol) (addBinding key name symbol) :=
  ⟨fun _ => rfl, fun _ => rfl, fun _ => rfl⟩

theorem find?_changeChild (hf : ∀ s, (f s).name = s.name) (name other : Text) (scopes : List Scope) :
    (changeChild name f scopes).find? (·.name = other) =
      if other = name then some (f ((scopes.find? (·.name = name)).getD (empty name)))
      else scopes.find? (·.name = other) := by
  induction scopes with
  | nil =>
    have hName : (f (empty name)).name = name := hf _
    by_cases h : other = name
    · simp [changeChild, h, hName]
    · simp [changeChild, h, hName, Ne.symm h]
  | cons s rest ih =>
    rw [changeChild]
    by_cases hs : s.name = name
    · by_cases h : other = name
      · simp [hs, h, hf]
      · have hOther : s.name ≠ other := fun h' => h (h'.symm.trans hs)
        rw [if_pos hs, if_neg h, List.find?_cons_of_neg (by simpa [hf] using hOther),
          List.find?_cons_of_neg (by simpa using hOther)]
    · by_cases h : other = name
      · subst h
        simp [hs, ih]
      · simp only [hs, if_false, List.find?_cons, ih, h]

theorem name_change {g : List Binding → List Binding} (hf : Local f g) (path : Path) (s : Scope) :
    (change f path s).name = s.name := by
  cases path with
  | nil => exact hf.name s
  | cons => rfl

theorem bindingsAt_change {g : List Binding → List Binding} (hf : Local f g) (path other : Path)
    (t : Scope) :
    (change f path t).bindingsAt other =
      if other = path then g (t.bindingsAt path) else t.bindingsAt other := by
  induction path generalizing t other with
  | nil =>
    cases other with
    | nil => exact hf.bindings t
    | cons name rest =>
      rw [change, bindingsAt_cons, bindingsAt_cons, child?, child?, hf.inner]
      simp
  | cons name path ih =>
    cases other with
    | nil => simp [change, bindingsAt_nil]
    | cons other rest =>
      rw [change, bindingsAt_cons, bindingsAt_cons t, bindingsAt_cons t, child?]
      simp only
      rw [find?_changeChild (name_change hf path) name other t.inner]
      by_cases h : other = name
      · subst h
        rw [if_pos rfl, Option.map_some, Option.getD_some, ih, child?]
        cases t.inner.find? (·.name = other) with
        | none => simp [bindingsAt_empty]
        | some s => simp
      · simp [h, child?]

theorem bindingsAt_openAt (path other : Path) (t : Scope) :
    (t.openAt path).bindingsAt other = t.bindingsAt other := by
  rw [openAt, bindingsAt_change Local.id]
  split
  · rename_i h
    rw [h]
    rfl
  · rfl

/-- The entry of a symbol in the scope at a path: the key it is found under, its own name and the
symbol. -/
def Entry (t : Scope) (path : Path) (key : Key) (name : Text) (symbol : Symbol) : Prop :=
  ∃ b ∈ t.bindingsAt path, b.key = key ∧ (name, symbol) ∈ b.members

def Free (t : Scope) (path : Path) (key : Key) : Prop := ∀ b ∈ t.bindingsAt path, b.key ≠ key

theorem Entry.not_free {path : Path} (h : t.Entry path key name symbol) : ¬t.Free path key := by
  obtain ⟨b, hb, hKey, _⟩ := h
  exact fun hFree => hFree b hb hKey

theorem exists_entry_of_not_free {path : Path} (h : ¬t.Free path (.plain p)) :
    ∃ n symbol, t.Entry path (.plain p) n symbol := by
  unfold Free at h
  push Not at h
  obtain ⟨b, hb, hKey⟩ := h
  cases b with
  | plain n symbol => exact ⟨n, symbol, _, hb, hKey, List.mem_singleton_self _⟩
  | overloads => exact nomatch hKey

def Extends (t t' : Scope) : Prop := ∀ path key, t'.Free path key → t.Free path key

theorem Extends.refl (t : Scope) : t.Extends t := fun _ _ => id

theorem Extends.trans {t' t'' : Scope} (h : t.Extends t') (h' : t'.Extends t'') : t.Extends t'' :=
  fun path key hFree => h path key (h' path key hFree)

theorem mem_addBinding (h : b ∈ addBinding key name symbol bs) {entry : Text × Symbol}
    (hEntry : entry ∈ b.members) :
    (∃ b' ∈ bs, b'.key = b.key ∧ entry ∈ b'.members) ∨
      b.key = key ∧ entry.2 = symbol ∧ (entry.1 = name ∨ key = .plain entry.1) := by
  induction bs with
  | nil =>
    unfold addBinding at h
    split at h <;> rw [List.mem_singleton] at h <;> subst h <;>
      simp only [Binding.members, List.mem_singleton] at hEntry <;> subst hEntry
    · exact .inr ⟨rfl, rfl, .inr rfl⟩
    · exact .inr ⟨rfl, rfl, .inl rfl⟩
  | cons b₀ rest ih =>
    unfold addBinding at h
    split at h
    · rename_i hKey
      split at h
      · obtain rfl | h := List.mem_cons.1 h
        · simp only [Binding.members, List.mem_singleton] at hEntry
          subst hEntry
          exact .inr ⟨hKey, rfl, .inr hKey.symm⟩
        · exact .inl ⟨b, List.mem_cons_of_mem _ h, rfl, hEntry⟩
      · rename_i set members
        obtain rfl | h := List.mem_cons.1 h
        · simp only [Binding.members, List.mem_append, List.mem_singleton] at hEntry
          obtain hEntry | rfl := hEntry
          · exact .inl ⟨.overloads set members, List.mem_cons_self, rfl, hEntry⟩
          · exact .inr ⟨hKey, rfl, .inl rfl⟩
        · exact .inl ⟨b, List.mem_cons_of_mem _ h, rfl, hEntry⟩
    · obtain rfl | h := List.mem_cons.1 h
      · exact .inl ⟨b, List.mem_cons_self, rfl, hEntry⟩
      · obtain ⟨b', hb', hSame⟩ | hNew := ih h
        · exact .inl ⟨b', List.mem_cons_of_mem _ hb', hSame⟩
        · exact .inr hNew

theorem addBinding_keeps (key : Key) (name : Text) (symbol : Symbol) (hb : b ∈ bs) :
    ∃ b' ∈ addBinding key name symbol bs, b'.key = b.key := by
  induction bs with
  | nil => simp at hb
  | cons b₀ rest ih =>
    unfold addBinding
    obtain rfl | hRest := List.mem_cons.1 hb
    · split
      · split <;> exact ⟨_, List.mem_cons_self, rfl⟩
      · exact ⟨b, List.mem_cons_self, rfl⟩
    · split
      · split <;> exact ⟨b, List.mem_cons_of_mem _ hRest, rfl⟩
      · obtain ⟨b', hb', hSame⟩ := ih hRest
        exact ⟨b', List.mem_cons_of_mem _ hb', hSame⟩

theorem addBinding_filled (h : ∀ b ∈ bs, b.members ≠ []) (hb : b ∈ addBinding key name symbol bs) :
    b.members ≠ [] := by
  induction bs with
  | nil =>
    cases key with
    | plain => exact List.mem_singleton.1 hb ▸ List.cons_ne_nil _ _
    | overloads => exact List.mem_singleton.1 hb ▸ List.cons_ne_nil _ _
  | cons b₀ rest ih =>
    obtain ⟨hFirst, hRest⟩ := List.forall_mem_cons.1 h
    unfold addBinding at hb
    split at hb
    · split at hb
      · obtain rfl | hb := List.mem_cons.1 hb
        · exact List.cons_ne_nil _ _
        · exact hRest b hb
      · obtain rfl | hb := List.mem_cons.1 hb
        · exact List.append_ne_nil_of_right_ne_nil _ (List.cons_ne_nil _ _)
        · exact hRest b hb
    · obtain rfl | hb := List.mem_cons.1 hb
      · exact hFirst
      · exact ih hRest hb

theorem addBinding_new (key : Key) (name : Text) (symbol : Symbol) (bs : List Binding) :
    ∃ b ∈ addBinding key name symbol bs, b.key = key := by
  induction bs with
  | nil => cases key <;> exact ⟨_, List.mem_singleton_self _, rfl⟩
  | cons b₀ rest ih =>
    unfold addBinding
    split
    · rename_i hKey
      split <;> exact ⟨_, List.mem_cons_self, hKey⟩
    · obtain ⟨b, hb, hNew⟩ := ih
      exact ⟨b, List.mem_cons_of_mem _ hb, hNew⟩

end Scope

theorem Name.simple_of_key {name : Name} (h : name.key = .ok (.plain p)) : p = name.simple := by
  unfold key at h
  split at h
  · cases hn : name.normalized with
    | ok t => simp [hn, Except.map] at h
    | error f => simp [hn, Except.map] at h
  · simpa using h.symm

namespace Scope

variable {t : Scope} {path : Path} {name : Name} {symbol : Symbol}

theorem entry_of_declare {other : Symbol} (h : (t.declare path name symbol).1.Entry q key n other) :
    t.Entry q key n other ∨
      (t.declare path name symbol).2 = none ∧ q = home path name ∧ name.key = .ok key ∧
        n = name.simple ∧ other = symbol := by
  unfold declare at h ⊢
  cases hKey : name.key with
  | error f =>
    simp only [hKey] at h
    obtain ⟨b, hb, hEntry⟩ := h
    rw [bindingsAt_openAt] at hb
    exact .inl ⟨b, hb, hEntry⟩
  | ok k =>
    simp only [hKey] at h
    obtain ⟨b, hb, rfl, hEntry⟩ := h
    rw [bindingsAt_change (Local.add _ _ _)] at hb
    split at hb
    · rename_i hq
      obtain ⟨b', hb', hSame⟩ | ⟨rfl, rfl, hName⟩ := mem_addBinding hb hEntry
      · exact .inl ⟨b', hq ▸ hb', hSame⟩
      · refine .inr ⟨rfl, hq, rfl, ?_, rfl⟩
        obtain hName | hName := hName
        · exact hName
        · exact Name.simple_of_key (hName ▸ hKey)
    · exact .inl ⟨b, hb, rfl, hEntry⟩

theorem free_of_declare (h : (t.declare path name symbol).1.Free q key) : t.Free q key := by
  intro b hb hKey
  unfold Scope.declare at h
  cases hName : name.key with
  | error f =>
    simp only [hName] at h
    exact h b ((bindingsAt_openAt _ _ _).symm ▸ hb) hKey
  | ok k =>
    simp only [hName, Free] at h
    rw [bindingsAt_change (Local.add _ _ _)] at h
    split at h
    · rename_i hq
      obtain ⟨b', hb', hSame⟩ := addBinding_keeps k name.simple symbol (hq ▸ hb)
      exact h b' hb' (hSame.trans hKey)
    · exact h b hb hKey

theorem not_free_declare (h : name.key = .ok key) :
    ¬(t.declare path name symbol).1.Free (home path name) key := by
  intro hFree
  simp only [Scope.declare, h, Free] at hFree
  rw [bindingsAt_change (Local.add _ _ _), if_pos rfl] at hFree
  obtain ⟨b, hb, hKey⟩ := addBinding_new key name.simple symbol (t.bindingsAt (home path name))
  exact hFree b hb hKey

theorem key_of_declare_fault {f : Fault} (h : (t.declare path name symbol).2 = some f) :
    name.key = .error f := by
  unfold Scope.declare at h
  cases hKey : name.key with
  | ok k => simp [hKey] at h
  | error f' =>
    simp only [hKey, Option.some.injEq] at h
    rw [h]

theorem exists_key_of_declare (h : (t.declare path name symbol).2 = none) :
    ∃ key, name.key = .ok key := by
  unfold Scope.declare at h
  cases hKey : name.key with
  | ok key => exact ⟨key, rfl⟩
  | error f => simp [hKey] at h

theorem symbols?_eq_some (h : s.symbols? key = some symbols) :
    ∃ b ∈ s.bindings, b.key = key ∧ symbols = b.members.map (·.2) := by
  unfold symbols? binding? at h
  cases hb : s.bindings.find? (·.key = key) with
  | none => simp [hb] at h
  | some b =>
    simp only [hb, Option.map_some, Option.some.injEq] at h
    exact ⟨b, List.mem_of_find?_eq_some hb, by simpa using List.find?_some hb, h.symm⟩

theorem symbols?_eq_none (h : s.symbols? key = none) : ∀ b ∈ s.bindings, b.key ≠ key := by
  unfold symbols? binding? at h
  simpa using h

theorem bindingsAt_of_at? (h : t.at? q = some s) : t.bindingsAt q = s.bindings := by
  rw [bindingsAt, h]
  rfl

theorem at?_cons_of_child? {name : Text} (h : t.child? name = some s) (rest : Path) :
    t.at? (name :: rest) = s.at? rest := by
  rw [at?, h]

theorem nearest?_eq_none (h : t.nearest? path key = none) (hq : q <+: path) : t.Free q key := by
  induction path generalizing t q with
  | nil =>
    obtain rfl := List.prefix_nil.1 hq
    exact symbols?_eq_none h
  | cons name rest ih =>
    rw [nearest?] at h
    have hHere : t.symbols? key = none := by
      cases hChild : t.child? name with
      | none => simpa only [hChild] using h
      | some inner =>
        simp only [hChild, Option.or_eq_none_iff] at h
        exact h.2
    cases q with
    | nil => exact symbols?_eq_none hHere
    | cons name' q =>
      obtain ⟨rfl, hRest⟩ := List.cons_prefix_cons.1 hq
      intro b hb
      rw [bindingsAt_cons] at hb
      cases hChild : t.child? name' with
      | none => simp [hChild] at hb
      | some inner =>
        simp only [hChild, Option.or_eq_none_iff] at h
        rw [hChild, Option.map_some, Option.getD_some] at hb
        exact ih h.1 hRest b hb

theorem nearest?_innermost (h : t.nearest? path key = some symbols) : ∃ q, q <+: path ∧
      (∃ s, t.at? q = some s ∧ s.symbols? key = some symbols) ∧
        ∀ q', q' <+: path → q.length < q'.length → t.Free q' key := by
  induction path generalizing t with
  | nil => exact ⟨[], List.prefix_refl _, ⟨t, rfl, h⟩, fun q' hq' hLt => by simp [List.prefix_nil.1 hq'] at hLt⟩
  | cons name rest ih =>
    -- Whatever is found further in is found on the rest of the way from the scope inside.
    have hFurther {q' : Path} {inner : Scope} (hChild : t.child? name = some inner)
        (hq' : q' <+: name :: rest) (hLt : 0 < q'.length) (hFree : ∀ q, q' = name :: q →
          q <+: rest → inner.Free q key) : t.Free q' key := by
      cases q' with
      | nil => simp at hLt
      | cons name' q =>
        obtain ⟨rfl, hRest⟩ := List.cons_prefix_cons.1 hq'
        intro b hb
        rw [bindingsAt_cons, hChild, Option.map_some, Option.getD_some] at hb
        exact hFree q rfl hRest b hb
    rw [nearest?] at h
    cases hChild : t.child? name with
    | none =>
      simp only [hChild] at h
      refine ⟨[], List.nil_prefix, ⟨t, rfl, h⟩, fun q' hq' hLt => ?_⟩
      cases q' with
      | nil => simp at hLt
      | cons name' q =>
        obtain ⟨rfl, -⟩ := List.cons_prefix_cons.1 hq'
        intro b hb
        simp [bindingsAt_cons, hChild] at hb
    | some inner =>
      simp only [hChild] at h
      cases hInner : inner.nearest? rest key with
      | none =>
        simp only [hInner, Option.none_or] at h
        exact ⟨[], List.nil_prefix, ⟨t, rfl, h⟩, fun q' hq' hLt =>
          hFurther hChild hq' hLt fun q _ hq => nearest?_eq_none hInner hq⟩
      | some found =>
        simp only [hInner, Option.some_or, Option.some.injEq] at h
        subst h
        obtain ⟨q, hq, ⟨s, hs, hFound⟩, hFree⟩ := ih hInner
        refine ⟨name :: q, List.cons_prefix_cons.2 ⟨rfl, hq⟩, ⟨s, ?_, hFound⟩, fun q' hq' hLt => ?_⟩
        · rw [at?_cons_of_child? hChild, hs]
        · rw [List.length_cons] at hLt
          refine hFurther hChild hq' (by omega) fun q₁ hEq hq₁ => hFree q₁ hq₁ ?_
          rw [hEq, List.length_cons] at hLt
          omega

theorem nearest?_eq_some (h : t.nearest? path key = some symbols) :
    ∃ q, q <+: path ∧ ∃ s, t.at? q = some s ∧ s.symbols? key = some symbols := by
  obtain ⟨q, hq, hFound, -⟩ := nearest?_innermost h
  exact ⟨q, hq, hFound⟩

/-- A scope in which a name can be found that is used in the scope at `path`: the one that its
qualifier names, or any on the way. -/
def Sees (path : Path) (name : Name) (q : Path) : Prop :=
  if name.isQualified then q = name.qualifier else q <+: path

theorem sees_root {name : Name} : Sees [] name q ↔ q = home [] name := by
  unfold Sees home
  split
  · rfl
  · exact List.prefix_nil

theorem entry_of_mem_find (h : t.find path name = .ok symbols) {symbol : Symbol}
    (hs : symbol ∈ symbols) :
    ∃ q key n, Sees path name q ∧ name.key = .ok key ∧ t.Entry q key n symbol := by
  have hEntry {q : Path} {s : Scope} {key : Key} (hq : t.at? q = some s)
      (hFound : s.symbols? key = some symbols) : ∃ n, t.Entry q key n symbol := by
    obtain ⟨b, hb, hKey, rfl⟩ := symbols?_eq_some hFound
    obtain ⟨⟨n, σ⟩, hMember, rfl⟩ := List.mem_map.1 hs
    exact ⟨n, b, bindingsAt_of_at? hq ▸ hb, hKey, hMember⟩
  unfold Scope.find at h
  cases hKey : name.key with
  | error f =>
    simp only [hKey, Except.map] at h
    split at h
    · split at h
      · simp at h
      · obtain rfl := Except.ok.inj h
        simp at hs
    · simp at h
  | ok key =>
    simp only [hKey, Except.map] at h
    split at h
    · rename_i hQualified
      split at h
      · rename_i s hAt
        obtain rfl := Except.ok.inj h
        cases hFound : s.symbols? key with
        | none => simp [hFound] at hs
        | some found =>
          simp only [hFound, Option.getD_some] at hs hEntry
          obtain ⟨n, hn⟩ := hEntry hAt hFound
          exact ⟨_, key, n, by simp [Sees, hQualified], rfl, hn⟩
      · obtain rfl := Except.ok.inj h
        simp at hs
    · rename_i hQualified
      obtain rfl := Except.ok.inj h
      cases hFound : t.nearest? path key with
      | none => simp [hFound] at hs
      | some found =>
        simp only [hFound, Option.getD_some] at hs hEntry
        obtain ⟨q, hq, s, hAt, hHere⟩ := nearest?_eq_some hFound
        obtain ⟨n, hn⟩ := hEntry hAt hHere
        exact ⟨q, key, n, by simpa [Sees, hQualified] using hq, rfl, hn⟩

theorem symbols?_plain_ne_nil : s.symbols? (.plain p) ≠ some [] := by
  intro h
  obtain ⟨b, _, hKey, hNil⟩ := symbols?_eq_some h
  cases b with
  | plain => simp [Binding.members] at hNil
  | overloads => simp [Binding.key] at hKey

theorem free_of_find_nil_of (h : t.find path name = .ok []) (hKey : name.key = .ok key)
    (hq : Sees path name q) (hSome : ∀ q s, t.at? q = some s → s.symbols? key ≠ some []) :
    t.Free q key := by
  unfold Scope.find at h
  unfold Sees at hq
  simp only [hKey, Except.map] at h
  split at h
  · rename_i hQualified
    rw [if_pos hQualified] at hq
    subst hq
    split at h
    · rename_i s hAt
      rw [Except.ok.injEq] at h
      intro b hb
      rw [bindingsAt_of_at? hAt] at hb
      cases hFound : s.symbols? key with
      | none => exact symbols?_eq_none hFound b hb
      | some found =>
        rw [hFound, Option.getD_some] at h
        exact absurd (h ▸ hFound) (hSome _ s hAt)
    · rename_i hAt
      intro b hb
      simp [bindingsAt, hAt] at hb
  · rename_i hQualified
    rw [if_neg hQualified] at hq
    rw [Except.ok.injEq] at h
    cases hFound : t.nearest? path key with
    | none => exact nearest?_eq_none hFound hq
    | some found =>
      rw [hFound, Option.getD_some] at h
      obtain ⟨_, _, s, hAt, hHere⟩ := nearest?_eq_some hFound
      exact absurd (h ▸ hHere) (hSome _ s hAt)

theorem free_of_find_nil (h : t.find path name = .ok []) (hKey : name.key = .ok (.plain p))
    (hq : Sees path name q) : t.Free q (.plain p) :=
  free_of_find_nil_of h hKey hq fun _ _ _ => symbols?_plain_ne_nil

def Filled (t : Scope) : Prop := ∀ path, ∀ b ∈ t.bindingsAt path, b.members ≠ []

theorem Filled.free_of_find_nil (hFilled : t.Filled) (h : t.find path name = .ok [])
    (hKey : name.key = .ok key) (hq : Sees path name q) : t.Free q key := by
  refine free_of_find_nil_of h hKey hq fun q s hAt hNil => ?_
  obtain ⟨b, hb, _, hMembers⟩ := symbols?_eq_some hNil
  exact hFilled q b (bindingsAt_of_at? hAt ▸ hb) (by simpa using hMembers.symm)

theorem Filled.declare (h : t.Filled) : (t.declare path name symbol).1.Filled := by
  intro q b hb
  unfold Scope.declare at hb
  cases hKey : name.key with
  | error f =>
    simp only [hKey, bindingsAt_openAt] at hb
    exact h q b hb
  | ok key =>
    simp only [hKey] at hb
    rw [bindingsAt_change (Local.add _ _ _)] at hb
    split at hb
    · exact addBinding_filled (h _) hb
    · exact h q b hb

theorem key_of_find_fault {f : Fault} (h : t.find path name = .error f) : name.key = .error f := by
  unfold Scope.find at h
  cases hKey : name.key with
  | error f' =>
    simp only [hKey, Except.map] at h
    split at h
    · split at h
      · simpa using h
      · simp at h
    · simpa using h
  | ok key =>
    simp only [hKey, Except.map] at h
    split at h
    · split at h <;> simp at h
    · simp at h

theorem find_plain (h : t.find path name = .ok symbols) (hKey : name.key = .ok (.plain p)) :
    symbols = [] ∨ ∃ symbol, symbols = [symbol] := by
  have hOne (found : Option (List Symbol)) (hFound : ∀ symbols, found = some symbols →
      ∃ s : Scope, s.symbols? (.plain p) = some symbols) (hSymbols : found.getD [] = symbols) :
      symbols = [] ∨ ∃ symbol, symbols = [symbol] := by
    cases found with
    | none => exact .inl hSymbols.symm
    | some found =>
      obtain ⟨s, hs⟩ := hFound found rfl
      obtain ⟨b, _, hb, rfl⟩ := symbols?_eq_some hs
      cases b with
      | plain n symbol => exact .inr ⟨symbol, hSymbols.symm⟩
      | overloads => exact nomatch hb
  unfold Scope.find at h
  simp only [hKey, Except.map] at h
  split at h
  · split at h
    · rename_i s _
      exact hOne _ (fun _ hs => ⟨s, hs⟩) (Except.ok.inj h)
    · exact .inl (Except.ok.inj h).symm
  · refine hOne _ (fun _ hFound => ?_) (Except.ok.inj h)
    obtain ⟨_, _, s, _, hs⟩ := nearest?_eq_some hFound
    exact ⟨s, hs⟩

theorem find_eq_singleton (hKey : name.key = .ok (.plain p)) (hSees : Sees path name q)
    (hTaken : ¬t.Free q (.plain p))
    (hOnly : ∀ q n other, Sees path name q → t.Entry q (.plain p) n other → other = symbol) :
    t.find path name = .ok [symbol] := by
  cases hFind : t.find path name with
  | error f => exact nomatch hKey.symm.trans (key_of_find_fault hFind)
  | ok symbols =>
    obtain rfl | ⟨other, rfl⟩ := find_plain hFind hKey
    · exact absurd (free_of_find_nil hFind hKey hSees) hTaken
    · obtain ⟨q', key, n, hSees', hKey', hEntry⟩ := entry_of_mem_find hFind List.mem_cons_self
      obtain rfl := Except.ok.inj (hKey.symm.trans hKey')
      rw [hOnly q' n other hSees' hEntry]

theorem key_of_findIn_fault {f : Fault} (h : t.findIn path name = .error f) :
    name.key = .error f := by
  unfold findIn findHere? at h
  cases hKey : name.key with
  | error f' =>
    simp only [hKey, Except.map] at h
    simpa using h
  | ok key => simp [hKey, Except.map] at h

theorem mem_walkAll_of_mem {scopes : List Scope} (hs : s ∈ scopes) {path : Path} {x : Path × Scope}
    (hx : x ∈ walk (path ++ [s.name]) s) : x ∈ walkAll path scopes := by
  induction scopes with
  | nil => simp at hs
  | cons first rest ih =>
    rw [walkAll]
    obtain rfl | hs := List.mem_cons.1 hs
    · exact List.mem_append_left _ hx
    · exact List.mem_append_right _ (ih hs)

theorem exists_mem_walk (h : t.at? q = some s) (path : Path) : ∃ p, (p, s) ∈ walk path t := by
  induction q generalizing t path with
  | nil =>
    obtain rfl := Option.some.inj h
    obtain ⟨name, bindings, inner⟩ := t
    exact ⟨path, by rw [walk]; exact List.mem_cons_self⟩
  | cons name rest ih =>
    rw [at?] at h
    cases hChild : t.child? name with
    | none => simp [hChild] at h
    | some inner =>
      simp only [hChild] at h
      obtain ⟨p, hp⟩ := ih h (path ++ [inner.name])
      obtain ⟨tName, bindings, scopes⟩ := t
      refine ⟨p, ?_⟩
      rw [walk]
      exact List.mem_cons_of_mem _ (mem_walkAll_of_mem (List.mem_of_find?_eq_some hChild) hp)

theorem mem_symbols_walk {symbol : Symbol} (h : t.Entry q key n symbol) :
    (n, symbol) ∈ (t.walk []).flatMap fun (_, s) => s.symbols := by
  obtain ⟨b, hb, _, hEntry⟩ := h
  cases hAt : t.at? q with
  | none => simp [bindingsAt, hAt] at hb
  | some s =>
    rw [bindingsAt_of_at? hAt] at hb
    obtain ⟨p, hp⟩ := exists_mem_walk hAt []
    exact List.mem_flatMap.2 ⟨(p, s), hp, List.mem_flatMap.2 ⟨b, hb, hEntry⟩⟩

theorem mem_aliasIds {id : Nat} {target : Text} {decl : Option (Node Meta)}
    (h : t.Entry q key n (.alias id target decl)) : id ∈ t.aliasIds :=
  List.mem_filterMap.2 ⟨(n, .alias id target decl), mem_symbols_walk h, rfl⟩

/-- An alias leads to the symbol that its target denotes from the root. -/
def Leads (t : Scope) (symbol next : Symbol) : Prop :=
  ∃ id target decl rest, symbol = .alias id target decl ∧
    t.find [] (Name.ofText target) = .ok (next :: rest)

/-- Nothing follows on a symbol, for it is no alias, or nothing is found under its target, or nothing
can be looked up under it. -/
inductive Stops (t : Scope) : Symbol → Except Fault Symbol → Prop
  | plain {symbol : Symbol} (h : symbol.aliasId? = none) : Stops t symbol (.ok symbol)
  | missing {id : Nat} {target : Text} {decl : Option (Node Meta)}
    (h : t.find [] (Name.ofText target) = .ok []) :
    Stops t (.alias id target decl) (.ok (.alias id target decl))
  | lost {id : Nat} {target : Text} {decl : Option (Node Meta)} {f : Fault}
    (h : t.find [] (Name.ofText target) = .error f) : Stops t (.alias id target decl) (.error f)

open Relation in
/-- Following aliases ends where nothing follows, or at an alias whose number was met on the way. For
the numbers seen are those of aliases of the table, and of the one at the start, and none is seen
twice. -/
theorem follow_stops (first : List Nat) {start : Symbol} {steps : Nat} {seen : List Nat}
    (hNodup : seen.Nodup) (hIds : ∀ id ∈ seen, id ∈ first ++ t.aliasIds)
    (hSeen : ∀ id ∈ seen, ∃ a, a.aliasId? = some id ∧ ReflTransGen t.Leads start a ∧
      TransGen t.Leads a symbol)
    (hHere : ∀ id target decl, symbol = .alias id target decl → id ∈ first ++ t.aliasIds)
    (hSteps : (first ++ t.aliasIds).length ≤ steps + seen.length)
    (hStart : ReflTransGen t.Leads start symbol) :
    ∃ last, ReflTransGen t.Leads start last ∧ (t.Stops last (t.follow steps seen symbol) ∨
      t.follow steps seen symbol = .ok last ∧
        ∃ a, a.aliasId? = last.aliasId? ∧ ReflTransGen t.Leads start a ∧ TransGen t.Leads a last) := by
  fun_induction t.follow steps seen symbol with
  | case1 steps seen id target decl hMem => exact ⟨_, hStart, .inr ⟨rfl, hSeen id hMem⟩⟩
  | case2 seen id target decl hNew =>
    have hAll : (id :: seen).length ≤ (first ++ t.aliasIds).length :=
      (List.subperm_of_subset (List.nodup_cons.2 ⟨hNew, hNodup⟩)
        (List.cons_subset.2 ⟨hHere id target decl rfl, hIds⟩)).length_le
    rw [List.length_cons] at hAll
    omega
  | case3 seen id target decl hNew steps ih =>
    cases hFound : t.find [] (Name.ofText target) with
    | error f => exact ⟨_, hStart, .inl (.lost hFound)⟩
    | ok symbols =>
      cases symbols with
      | nil => exact ⟨_, hStart, .inl (.missing hFound)⟩
      | cons next rest =>
        have hNext : t.Leads (.alias id target decl) next := ⟨id, target, decl, rest, rfl, hFound⟩
        refine ih next (List.nodup_cons.2 ⟨hNew, hNodup⟩)
          (List.forall_mem_cons.2 ⟨hHere id target decl rfl, hIds⟩)
          (List.forall_mem_cons.2 ⟨⟨_, rfl, hStart, .single hNext⟩, fun id' hMem => ?_⟩) ?_ ?_
          (hStart.tail hNext)
        · obtain ⟨a, hId, hReach, hWay⟩ := hSeen id' hMem
          exact ⟨a, hId, hReach, hWay.tail hNext⟩
        · rintro id' target' decl' rfl
          obtain ⟨q, key, n, _, _, hEntry⟩ := entry_of_mem_find hFound List.mem_cons_self
          exact List.mem_append_right _ (mem_aliasIds hEntry)
        · rw [List.length_cons]
          omega
  | case4 steps seen symbol hPlain =>
    refine ⟨_, hStart, .inl (.plain ?_)⟩
    cases symbol with
    | «alias» id target decl => exact absurd rfl (hPlain id target decl)
    | _ => rfl

open Relation in
theorem followAliases_stops (symbol : Symbol) :
    ∃ last, ReflTransGen t.Leads symbol last ∧ (t.Stops last (t.followAliases symbol) ∨
      t.followAliases symbol = .ok last ∧
        ∃ a, a.aliasId? = last.aliasId? ∧ ReflTransGen t.Leads symbol a ∧ TransGen t.Leads a last) := by
  refine follow_stops symbol.aliasId?.toList List.nodup_nil (by simp) (by simp) ?_ ?_ .refl
  · rintro id target decl rfl
    exact List.mem_append_left _ (by simp [Symbol.aliasId?])
  · rw [List.length_append]
    cases symbol <;> simp [Symbol.aliasId?]
    omega

theorem followAliases_spec {Q : Symbol → Prop} {F : Fault → Prop}
    (hFind : ∀ id target decl, Q (.alias id target decl) →
      Ends F (fun symbols => ∀ s ∈ symbols, Q s) (t.find [] (Name.ofText target)))
    (hQ : Q symbol) : Ends F Q (t.followAliases symbol) := by
  obtain ⟨last, hReach, hEnd⟩ := followAliases_stops (t := t) symbol
  have hLast : Q last := by
    clear hEnd
    induction hReach with
    | refl => exact hQ
    | tail _ hNext ih =>
      obtain ⟨id, target, decl, rest, rfl, hFound⟩ := hNext
      have := hFind id target decl ih
      rw [hFound] at this
      exact this _ List.mem_cons_self
  generalize t.followAliases symbol = result at hEnd ⊢
  obtain hStops | ⟨rfl, -⟩ := hEnd
  · cases hStops with
    | plain | missing => exact hLast
    | lost hFound =>
      have := hFind _ _ _ hLast
      rwa [hFound] at this
  · exact hLast

end Scope

end Assay
