import Mathlib
import Assay.Proofs.Mentioned
import Assay.Proofs.Qualified

/-! The names of a source. What it declares is put into its body, and what it refers to is found
there, or is a type. A method is found under the number of its parameters. -/

namespace Assay

open Check (Leads)

variable {plain : Plain} {K : Nat → Prop} {T : Root Meta → Prop} {b w : World} {r : Root Meta}
  {first : Nat}

variable {n : Node Meta} {name : Text}

/-- What holds of an event of a source: it declares a node of the source in its body, or is one of
its references. -/
def NameEvent.Fit (plain : Plain) (r : Root Meta) : NameEvent → Prop
  | .declare scope name n => n ∈ (Node.root r).nodes ∧ n.Declares ∧
    (∃ path, scope = some path ∧ InBody r.scopePath path) ∧
      (plain → ∃ key, Name.ofText name = ⟨[], name⟩ ∧ (Name.ofText name).key = .ok key ∧
        ∀ text k, n.arity? = some (text, k) → Text.isWord text ∧ key = .overloads (callName text k)) ∧
      ∀ t, n = .top t → name = "this"
  | .refer ref name => .reference ref ∈ (Node.root r).nodes ∧
    ∃ role, (ref.ann.id, role) ∈ (Node.root r).referrals ∧ name = role.spell ref.name

section Events

variable {k : Nat}

theorem NameEvent.fit_declare (hr : (Node.root r).All (Node.Fit plain r.scopePath K k))
    {scope : Option Path} (hn : n ∈ (Node.root r).nodes) (hDeclares : n.Declares)
    (hScope : scope = n.ann.scope) (hName : n.Worded → Text.isWord name) (hArity : n.arity? = none)
    (hInside : n.Inside r.scopePath → ∃ path, n.ann.scope = some path ∧ InBody r.scopePath path)
    (hTop : ∀ t, n = .top t → name = "this") : (NameEvent.declare scope name n).Fit plain r := by
  refine ⟨hn, hDeclares, hScope ▸ hInside (hr n hn).inside, fun hp => ?_, hTop⟩
  have hWord := hName ((hr n hn).worded hp)
  refine ⟨_, Name.ofText_of_isWord hWord,
    (Name.dotted_ofText (Text.isDotted_of_isWord hWord)).key, ?_⟩
  simp [hArity]

theorem NameEvent.fit_method (hr : (Node.root r).All (Node.Fit plain r.scopePath K k))
    {s : Signature Meta} (hn : n ∈ (Node.root r).nodes) (hs : .signature s ∈ (Node.root r).nodes)
    (hDeclares : n.Declares) (hArity : n.arity? = some (s.name, s.params.length))
    (hInside : n.Inside r.scopePath → ∃ path, n.ann.scope = some path ∧ InBody r.scopePath
      path.outer) :
    (NameEvent.declare (n.ann.scope.map Path.outer) s.symbolName n).Fit plain r := by
  obtain ⟨path, hScope, hBody⟩ := hInside (hr n hn).inside
  refine ⟨hn, hDeclares, ⟨path.outer, by rw [hScope]; rfl, hBody⟩, fun hp => ?_, ?_⟩
  · have hWorded : (Node.signature s).All Node.Worded :=
      (hr.of_mem hs).mono fun _ hk => hk.worded hp
    obtain ⟨hOf, hKey⟩ := Signature.key_symbolName hWorded
    refine ⟨_, hOf, hKey, fun text k hEq => ?_⟩
    obtain ⟨rfl, rfl⟩ := Prod.mk.inj (Option.some.inj (hArity.symm.trans hEq))
    exact ⟨hWorded.self, rfl⟩
  · rintro t rfl
    exact nomatch hArity

theorem NameEvent.fit_refer {v : Value Meta} {ref : Reference Meta} {role : Node.Role}
    (hv : .value v ∈ (Node.root r).nodes) (hRef : .reference ref ∈ (Node.value v).children)
    (hRole : (ref.ann.id, role) ∈ (Node.value v).refers) :
    (NameEvent.refer ref (role.spell ref.name)).Fit plain r :=
  ⟨Node.mem_nodes_of_child hv hRef, role, List.mem_flatMap.2 ⟨_, hv, hRole⟩, rfl⟩

theorem Node.event?_fit (hr : (Node.root r).All (Node.Fit plain r.scopePath K k))
    (hn : n ∈ (Node.root r).nodes) {e : NameEvent} (he : n.event? = some e) : e.Fit plain r := by
  unfold Node.event? at he
  split at he
  · cases he
    exact NameEvent.fit_declare hr hn trivial rfl id rfl id (by simp)
  · cases he
    exact NameEvent.fit_declare hr hn trivial rfl id rfl id (by simp)
  · cases he
    exact NameEvent.fit_method hr hn (Node.mem_nodes_of_child hn (by simp [Node.children])) trivial
      rfl id
  · cases he
    exact NameEvent.fit_declare hr hn trivial rfl (fun _ => by decide +kernel) rfl id fun _ _ => rfl
  · cases he
    exact NameEvent.fit_refer hn (by simp [Node.children]) (List.mem_singleton_self _)
  · cases he
    exact NameEvent.fit_declare hr hn trivial rfl id rfl id (by simp)
  · cases he
    exact NameEvent.fit_refer hn (by simp [Node.children]) (List.mem_singleton_self _)
  · cases he
    exact NameEvent.fit_refer hn (by simp [Node.children]) (List.mem_singleton_self _)
  · cases he
    exact NameEvent.fit_refer hn (by simp [Node.children]) (List.mem_singleton_self _)
  · cases he

theorem TopLevel.nameEvents_fit (hr : (Node.root r).All (Node.Fit plain r.scopePath K k)) :
    ∀ e ∈ r.top.nameEvents, e.Fit plain r := by
  have hTop : (Node.top r.top).nodes ⊆ (Node.root r).nodes :=
    Node.nodes_subset (Node.mem_nodes_of_child (Node.self_mem_nodes _) (by simp [Node.children]))
  intro e he
  obtain ⟨n, hn, he⟩ | ⟨s, hs, rfl⟩ := TopLevel.exists_event he
  · exact Node.event?_fit hr (hTop hn) he
  · exact NameEvent.fit_method hr (hTop hs) (hTop hs) trivial rfl id

end Events

/-- In a linked tree each reference has the name that the tree gives it. -/
theorem Store.Linked.nameOf {st : Store} (h : st.Linked (.root r)) {ref : Reference Meta}
    (he : .refer ref name ∈ r.top.nameEvents) : st.nameOf ref = .ok name := by
  obtain ⟨n, hn, he⟩ | ⟨_, _, ⟨⟩⟩ := TopLevel.exists_event he
  have hMem := Node.nodes_subset (Node.mem_nodes_of_child (Node.self_mem_nodes (.root r))
    (by simp [Node.children])) hn
  obtain ⟨p, hp, rfl⟩ := List.mem_map.1 ((Relatives.map_node_nodes (.ofRoot (.root r))).symm ▸ hMem)
  have hPlace (hRef : .reference ref ∈ p.node.children) :
      ∃ x, st.relativesOf? ref.ann.id = some x ∧ x.parent? = some p := by
    rw [← Relatives.map_node_children] at hRef
    obtain ⟨x, hx, hEq⟩ := List.mem_map.1 hRef
    have hLink := h x (Relatives.child_mem_nodes hp hx)
    rw [hEq] at hLink
    exact ⟨x, hLink, Relatives.parent?_of_mem_children hx⟩
  obtain ⟨n, above⟩ := p
  unfold Store.nameOf
  cases n with
  | value v =>
    cases v <;> cases he <;> obtain ⟨x, hLink, hParent⟩ := hPlace (by simp [Node.children]) <;>
      simp only [hLink, hParent, Option.map_some]
  | top t => cases t <;> cases he
  | _ => cases he

namespace NameEvent

theorem declareName_spec (h : Underway plain K T b r first w) {path : Path}
    (hEvent : (NameEvent.declare (some path) name n).Fit plain r) :
    Leads (declareName path name n) w (Failing plain K b) fun _ w' =>
      Underway plain K T b r first w' ∧ w.store.table.Extends w'.store.table := by
  obtain ⟨hn, hDeclares, ⟨_, hPath, hBody⟩, hName, _⟩ := hEvent
  obtain rfl := Option.some.inj hPath
  have hKey (hp : plain) : ∃ key, (Name.ofText name).key = .ok key := by
    obtain ⟨key, _, hKey, _⟩ := hName hp
    exact ⟨key, hKey⟩
  unfold declareName
  refine (h.findIn hKey).bind fun found w₁ hw₁ => ?_
  subst hw₁
  cases found with
  | some previous =>
    refine .bind (P := fun _ w' => w' = w₁) (.alreadyDefined fun _ => rfl) fun _ w₂ hw₂ => .pure ?_
    subst hw₂
    exact ⟨h, .refl _⟩
  | none =>
    refine .bind (h.leads_own (.named name n _) rfl hn (fun hp => ?_) hKey hDeclares
      fun hp key hOwn text k hArity => ?_) fun _ w₂ ⟨h₂, hw₂⟩ => ?_
    · obtain ⟨key, hOf, _⟩ := hName hp
      rw [hOf]
      exact hBody
    · obtain ⟨key', _, hKey', hSet⟩ := hName hp
      obtain rfl := Except.ok.inj (hKey'.symm.trans hOwn)
      exact hSet text k hArity
    · refine .bind (P := fun _ w' => w' = w₂) (.log rfl) fun _ w₃ hw₃ => .pure ?_
      subst hw₃ hw₂
      exact ⟨h₂, fun _ _ => Scope.free_of_declare⟩

theorem meant_of_entry (h : Underway plain K T b r first w) (hp : plain) {path q : Path}
    {key : Key} {n : Text} {symbol : Symbol} {role : Node.Role}
    (hBody : InBody r.scopePath path) (hPrefix : q <+: path)
    (hEntry : w.store.table.Entry q key n symbol)
    (hRole : ∀ args, role = .call args →
      ∃ base, Text.isWord base ∧ key = .overloads (callName base args)) :
    symbol.Meant K (Node.root r).referrals role := by
  have hFit := h.sound.table hEntry
  refine fun node hNode => ⟨?_, fun args text params hArgs hArity => ?_⟩
  · obtain ⟨hType, _⟩ | ⟨d, hd, hInside⟩ := hFit.hosted hp node hNode
    · exact .inl hType
    · -- The path leads into one body only, so what is found on it is found in this one.
      have hSame : Text.splitOn 46 d.name = r.scopePath :=
        (hInside.mono hPrefix).unique hBody
          (List.all_eq_true.1 ((h.sound.tops d hd).dotted hp)) (h.words hp)
      exact .inr (h.body hp (hSame ▸ hInside) hEntry node hNode)
  · obtain ⟨base, hBase, hKey⟩ := hRole args hArgs
    obtain ⟨hText, hSet⟩ := hFit.arity hp node text params hNode hArity
    exact ((Name.callName_inj (Name.not_mem_of_isWord hText).1).1
      (Key.overloads.inj (hSet.symm.trans hKey))).2

theorem resolve_spec (h : Underway plain K T b r first w) {ref : Reference Meta}
    (he : .refer ref name ∈ r.top.nameEvents) :
    Leads (resolve ref) w (Failing plain K b) fun _ w' =>
      Underway plain K T b r first w' ∧ w.store.table.Extends w'.store.table := by
  obtain ⟨hRef, role, hRole, rfl⟩ := TopLevel.nameEvents_fit h.fit _ he
  obtain ⟨⟨path, hScope, hBody⟩, hClear, hHigh, -, hWorded⟩ := h.fit _ hRef
  have hName (hp : plain) : ∃ key, (Name.ofText (role.spell ref.name)).qualifier = [] ∧
      (Name.ofText (role.spell ref.name)).key = .ok key ∧ ∀ args, role = .call args →
        ∃ base, Text.isWord base ∧ key = .overloads (callName base args) := by
    have hWord : Text.isWord ref.name := hWorded hp
    cases role with
    | call args =>
      obtain ⟨hOf, hKey⟩ := Name.key_callName hWord args
      refine ⟨_, congrArg Name.qualifier hOf, hKey, fun args' hArgs => ⟨ref.name, hWord, ?_⟩⟩
      rw [Node.Role.call.inj hArgs]
    | _ =>
      exact ⟨_, congrArg Name.qualifier (Name.ofText_of_isWord hWord),
        (Name.dotted_ofText (Text.isDotted_of_isWord hWord)).key, fun _ h => nomatch h⟩
  unfold resolve
  refine .bind (P := fun st w' => st = w.store ∧ w' = w) (.store ⟨rfl, rfl⟩) fun st w₁ ⟨hst, hw₁⟩ => ?_
  subst hst hw₁
  rw [h.linked.nameOf he]
  refine .bind (P := fun text w' => text = role.spell ref.name ∧ w' = w₁) (.orFault ⟨rfl, rfl⟩)
    fun text w₂ ⟨hText, hw₂⟩ => ?_
  subst hText hw₂
  refine .bind (P := fun q w' => q = path ∧ w' = w₂) (.scopeOf hScope ⟨rfl, rfl⟩)
    fun q w₁ ⟨hq, hw₁⟩ => ?_
  subst hq hw₁
  refine (h.find fun hp => ?_).bind fun symbols w₂ ⟨hw₂, hFind⟩ => ?_
  · obtain ⟨key, _, hKey, _⟩ := hName hp
    exact ⟨key, hKey⟩
  · subst hw₂
    split
    · exact .pure ⟨h, .refl _⟩
    · refine .bind (.modifyStore (Q := fun _ w' => Underway plain K T b r first w' ∧
        w₂.store.table.Extends w'.store.table) ⟨?_, .refl _⟩) fun _ w₃ h₃ => .pure h₃
      refine h.setRefs hHigh (fun symbol hs n hn => ?_) (fun _ => hClear) fun hp role' hMem symbol hs => ?_
      · obtain ⟨q', key, n', _, _, hEntry⟩ := Scope.entry_of_mem_find hFind hs
        exact (h.sound.table hEntry).declares n hn
      · obtain ⟨q', key, n', hSees, hKey, hEntry⟩ := Scope.entry_of_mem_find hFind hs
        obtain ⟨key', hSimple, hKey', hArgs⟩ := hName hp
        obtain rfl := Except.ok.inj (hKey'.symm.trans hKey)
        obtain rfl := Node.referOnce_of_nodup h.nodup _ _ _ hRole hMem
        rw [Scope.Sees, Name.isQualified, hSimple] at hSees
        exact meant_of_entry h hp hBody hSees hEntry hArgs

end NameEvent

theorem Root.resolveNames_spec (h : Underway plain K T b r first w) :
    Leads r.resolveNames w (Failing plain K b) fun _ w' =>
      Underway plain K T b r first w' ∧ w.store.table.Extends w'.store.table := by
  have hEvents := TopLevel.nameEvents_fit h.fit
  have hTrans {w' : World} {α : Type} {m : Check α} (hExtends : w.store.table.Extends w'.store.table)
      (hm : Leads m w' (Failing plain K b) fun _ w'' =>
        Underway plain K T b r first w'' ∧ w'.store.table.Extends w''.store.table) :
      Leads m w' (Failing plain K b) fun _ w'' =>
        Underway plain K T b r first w'' ∧ w.store.table.Extends w''.store.table :=
    hm.mono (fun _ _ => id) fun _ _ ⟨h'', hExtends'⟩ => ⟨h'', hExtends.trans hExtends'⟩
  refine .traced ?_
  refine (Leads.collect (I := fun w' => Underway plain K T b r first w' ∧
    w.store.table.Extends w'.store.table) (fun e he w' h' => ?_) ⟨h, .refl _⟩).bind
    fun errors w₁ h₁ => ?_
  · cases e with
    | declare scope name n =>
      obtain ⟨_, _, ⟨path, rfl, _⟩, _⟩ := hEvents _ he
      exact hTrans h'.2 (NameEvent.declareName_spec h'.1 (hEvents _ he))
    | refer ref name =>
      rw [NameEvent.settle]
      split
      · exact .pure h'
      · exact hTrans h'.2 (NameEvent.resolve_spec h'.1 he)
  · refine (Leads.collect (fun e he w' h' => ?_) h₁).bind fun late w₂ h₂ => .pure h₂
    cases e with
    | declare scope name n => exact .pure h'
    | refer ref name =>
      rw [NameEvent.settleLate]
      split
      · exact hTrans h'.2 (NameEvent.resolve_spec h'.1 he)
      · exact .pure h'

end Assay
