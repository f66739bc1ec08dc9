import Mathlib
import Assay.Proofs.Followed

/-! Full names keep what a name denotes. In a table that was made by declarations, in which types
stand under their own full names, the full form of a name leads from the root to the type that the
name leads to from its scope, after all aliases. -/

namespace Assay

variable {symbol : Symbol} {name : Text}

namespace Scope

variable {t : Scope}

/-- A name denotes a symbol in the scope at a path: alone, or with others of an overload set. -/
def Denotes (t : Scope) (path : Path) (name : Name) (symbol : Symbol) : Prop :=
  ∃ symbols, t.find path name = .ok symbols ∧ symbol ∈ symbols ∧
    (¬name.isMethod → symbols = [symbol])

/-- The chain of aliases from one symbol, each target looked up from the root, ends at another one,
which is no alias. The list has the numbers of the aliases on the way. -/
inductive StandsFor (t : Scope) : Symbol → List Nat → Symbol → Prop
  | self {symbol : Symbol} (h : symbol.aliasId? = none) : StandsFor t symbol [] symbol
  | step {id : Nat} {target : Text} {decl : Option (Node Meta)} {next symbol : Symbol}
    {rest : List Symbol} {ids : List Nat} (hNext : t.find [] (Name.ofText target) = .ok (next :: rest))
    (h : StandsFor t next ids symbol) : StandsFor t (.alias id target decl) (id :: ids) symbol

theorem addBinding_nodup {key : Key} {bs : List Binding} (h : (bs.map Binding.key).Nodup) :
    ((addBinding key name symbol bs).map Binding.key).Nodup := by
  -- The keys are as before, or there is a new one at the end.
  have hKeys : (addBinding key name symbol bs).map Binding.key = bs.map Binding.key ∨
      (addBinding key name symbol bs).map Binding.key = bs.map Binding.key ++ [key] ∧
        key ∉ bs.map Binding.key := by
    clear h
    induction bs with
    | nil => cases key <;> exact .inr ⟨rfl, by simp⟩
    | cons b rest ih =>
      rw [addBinding.eq_def]
      simp only
      split
      · split <;> exact .inl rfl
      · rename_i hNe
        refine ih.imp (fun hSame => ?_) fun ⟨hMore, hNew⟩ => ⟨?_, ?_⟩
        · rw [List.map_cons, List.map_cons, hSame]
        · rw [List.map_cons, List.map_cons, hMore, List.cons_append]
        · rw [List.map_cons, List.mem_cons]
          exact fun hMem => hMem.elim (fun hEq => hNe hEq.symm) hNew
  obtain hSame | ⟨hMore, hNew⟩ := hKeys
  · rwa [hSame]
  · rw [hMore]
    simpa using h.concat hNew

namespace Built

theorem nodup_keys (h : t.Built) (path : Path) : ((t.bindingsAt path).map Binding.key).Nodup := by
  induction h generalizing path with
  | empty =>
    rw [Scope.table, bindingsAt_empty]
    exact List.nodup_nil
  | opened _ other ih =>
    rw [bindingsAt_openAt]
    exact ih path
  | declared _ other name symbol _ ih =>
    unfold Scope.declare
    split
    · simp only
      rw [bindingsAt_change (Local.add _ _ _)]
      split
      · exact addBinding_nodup (ih _)
      · exact ih path
    · rw [bindingsAt_openAt]
      exact ih path

theorem denotes (h : t.Built) {name : Name} {key : Key} {n : Text} (hKey : name.key = .ok key)
    (hEntry : t.Entry (home [] name) key n symbol) : t.Denotes [] name symbol := by
  obtain ⟨b, hb, hSame, hMember⟩ := hEntry
  obtain ⟨s, hAt⟩ : ∃ s, t.at? (home [] name) = some s := by
    cases hAt : t.at? (home [] name) with
    | none => simp [bindingsAt, hAt] at hb
    | some s => exact ⟨s, rfl⟩
  have hNodup := h.nodup_keys (home [] name)
  rw [bindingsAt_of_at? hAt] at hb hNodup
  have hBinding : s.binding? key = some b := by
    rw [binding?]
    obtain ⟨b', hFind⟩ : ∃ b', s.bindings.find? (·.key = key) = some b' := by
      rw [← Option.isSome_iff_exists, List.find?_isSome]
      exact ⟨b, hb, by simpa using hSame⟩
    have hSame' : b'.key = key := by simpa using List.find?_some hFind
    rw [hFind, List.inj_on_of_nodup_map hNodup (List.mem_of_find?_eq_some hFind) hb
      (hSame'.trans hSame.symm)]
  have hFind : t.find [] name = .ok (b.members.map (·.2)) := by
    have hSymbols : (s.symbols? key).getD [] = b.members.map (·.2) := by
      rw [symbols?, hBinding, Option.map_some, Option.getD_some]
    unfold find
    rw [hKey]
    unfold home at hAt
    split at hAt
    · rw [if_pos ‹_›, hAt]
      exact congrArg _ hSymbols
    · obtain rfl := Option.some.inj hAt
      rw [if_neg ‹_›]
      exact congrArg _ hSymbols
  refine ⟨_, hFind, List.mem_map.2 ⟨_, hMember, rfl⟩, fun hPlain => ?_⟩
  have hKeyPlain : key = .plain name.simple := by
    rw [Name.key, if_neg hPlain] at hKey
    exact (Except.ok.inj hKey).symm
  cases b with
  | plain other σ =>
    rw [Binding.members, List.mem_singleton] at hMember
    rw [Binding.members, ← hMember]
    rfl
  | overloads => cases hSame.trans hKeyPlain

end Built

namespace StandsFor

variable {symbol other : Symbol} {ids : List Nat}

theorem holds (h : t.StandsFor symbol ids other) (hHere : t.Holds symbol) : t.Holds other := by
  induction h with
  | self => exact hHere
  | step hNext _ ih =>
    obtain ⟨q, key, n, _, _, hEntry⟩ := entry_of_mem_find hNext List.mem_cons_self
    exact ih ⟨q, key, n, hEntry⟩

theorem reaches (h : t.StandsFor symbol ids other) :
    Relation.ReflTransGen t.Leads symbol other ∧ other.aliasId? = none := by
  induction h with
  | self hNone => exact ⟨.refl, hNone⟩
  | step hNext _ ih => exact ⟨.head ⟨_, _, _, _, rfl, hNext⟩ ih.1, ih.2⟩

theorem followAliases_eq (h : t.StandsFor symbol ids other) (hBuilt : t.Built)
    (hHere : t.Holds symbol) : t.followAliases symbol = .ok other :=
  hBuilt.followAliases_of_stops (hBuilt.own hHere) h.reaches.1 (.plain h.reaches.2)

end StandsFor

end Scope

/-- The full name of a type that is no type variable and that is declared in a source, or belongs to
the runtime library or the host platform. -/
def Symbol.typeName? : Symbol → Option Text
  | .type full (.declared _) => some full
  | .library full => some full
  | .hostClass full => some full
  | .hostInterface full => some full
  | _ => none

theorem Symbol.full?_of_typeName? {full : Text} (h : symbol.typeName? = some full) :
    symbol.full? = some full := by
  cases symbol with
  | type name origin =>
    cases origin with
    | declared => exact h
    | _ => cases h
  | library | hostClass | hostInterface => exact h
  | _ => cases h

namespace Scope

variable {t : Scope}

/-- Types stand under their own full names, wherever else they stand. -/
def Canonical (t : Scope) : Prop :=
  ∀ symbol full, t.Holds symbol → symbol.typeName? = some full →
    ∃ key n, (Name.ofText full).key = .ok key ∧
      t.Entry (home [] (Name.ofText full)) key n symbol

/-- A simple name in the scope at a path leads, by aliases, to one whose target cannot be looked up,
for want of a key. -/
def Strays (t : Scope) (path : Path) (name : Text) (f : Fault) : Prop :=
  46 ∉ name ∧ ∃ found id target decl, t.find path (Name.ofText name) = .ok [found] ∧
    Relation.ReflTransGen t.Leads found (.alias id target decl) ∧
      t.find [] (Name.ofText target) = .error f ∧ (Name.ofText target).key = .error f

/-- What the name of a type in the scope at a path becomes within a namespace. -/
structure Qualifies (t : Scope) (space : Text) (path : Path) (name full : Text) : Prop where
  /-- A name that strays has no full form. -/
  sure : ∀ f, ¬t.Strays path name f
  dotted : 46 ∈ name → full = name
  absent : 46 ∉ name → t.find path (Name.ofText name) = .ok [] →
    full = if space = [] then name else space ++ "." ++ name
  type : 46 ∉ name → ∀ found ids symbol, t.find path (Name.ofText name) = .ok [found] →
    t.StandsFor found ids symbol → symbol.typeName?.isSome →
      t.Denotes [] (Name.ofText full) symbol
  typeVariable : ∀ p, t.find path (Name.ofText name) = .ok [.type name (.variable p)] → full = name
  value : ∀ found ids text decl, t.find path (Name.ofText name) = .ok [found] →
    t.StandsFor found ids (.named text decl) → full = name

theorem qualifyName_of_find {path : Path} {space : Text} {found : Symbol} (hDot : 46 ∉ name)
    (hFind : t.find path (Name.ofText name) = .ok [found]) :
    t.qualifyName (some path) space name =
      (t.followAliases found).map fun symbol => symbol.full?.getD name := by
  have hContains : ¬name.contains 46 = true := by simpa using hDot
  simp only [qualifyName, if_neg hContains, findFrom, hFind]
  change (t.followAliases found >>= _) = _
  cases t.followAliases found with
  | error f => rfl
  | ok symbol => cases symbol <;> rfl

theorem qualifyName_qualifies (hBuilt : t.Built) (hCanonical : t.Canonical) (space : Text)
    (path : Path) (hName : 40 ∉ name) :
    Ends (t.Strays path name) (t.Qualifies space path name) (t.qualifyName (some path) space name) := by
  by_cases hDot : 46 ∈ name
  · have hContains : name.contains 46 = true := by simpa using hDot
    simp only [qualifyName, hContains, if_true]
    exact ⟨fun _ h => h.1 hDot, fun _ => rfl, fun h => absurd hDot h, fun h => absurd hDot h,
      fun _ _ => rfl, fun _ _ _ _ _ _ => rfl⟩
  have hKey : (Name.ofText name).key = .ok (.plain (Name.ofText name).simple) := Name.key_ofText hName
  cases hFind : t.find path (Name.ofText name) with
  | error f => cases hKey.symm.trans (key_of_find_fault hFind)
  | ok symbols =>
    obtain rfl | ⟨found, rfl⟩ := find_plain hFind hKey
    · have hContains : ¬name.contains 46 = true := by simpa using hDot
      simp only [qualifyName, if_neg hContains, findFrom, hFind]
      have hNone {found : Symbol} : t.find path (Name.ofText name) ≠ .ok [found] := by
        rw [hFind]
        intro h
        cases h
      refine ⟨?_, fun h => absurd h hDot, fun _ _ => ?_, fun _ _ _ _ hFound => absurd hFound hNone,
        fun _ hFound => absurd hFound hNone, fun _ _ _ _ hFound => absurd hFound hNone⟩
      · rintro f ⟨-, _, _, _, _, hFound, -⟩
        exact hNone hFound
      · simp only [List.isEmpty_iff]
    · have hHolds : t.Holds found := by
        obtain ⟨q, key, n, _, _, hEntry⟩ := entry_of_mem_find hFind List.mem_cons_self
        exact ⟨q, key, n, hEntry⟩
      rw [qualifyName_of_find hDot hFind]
      cases hFollow : t.followAliases found with
      | error f =>
        obtain ⟨last, hLast, hStops | ⟨hOk, -⟩⟩ := followAliases_stops (t := t) found
        · rw [hFollow] at hStops
          cases hStops with
          | lost hLost => exact ⟨hDot, found, _, _, _, hFind, hLast, hLost, key_of_find_fault hLost⟩
        · cases hFollow.symm.trans hOk
      | ok symbol =>
        -- Whatever chain is said to lead from the name to a symbol, it has led here.
        have hEnd {ids : List Nat} {found' symbol' : Symbol}
            (hFound : t.find path (Name.ofText name) = .ok [found'])
            (hChain : t.StandsFor found' ids symbol') :
            symbol = symbol' ∧ t.Holds symbol' := by
          obtain ⟨rfl, _⟩ := List.cons.inj (Except.ok.inj (hFind.symm.trans hFound))
          exact ⟨Except.ok.inj (hFollow.symm.trans (hChain.followAliases_eq hBuilt hHolds)),
            hChain.holds hHolds⟩
        refine ⟨?_, fun h => absurd h hDot, fun _ hNil => ?_,
          fun _ found' ids symbol' hFound hChain hType => ?_, fun p hFound => ?_,
          fun found' ids text decl hFound hChain => ?_⟩
        · rintro f ⟨-, found', id, target, decl, hFound, hLast, hLost, -⟩
          obtain ⟨rfl, _⟩ := List.cons.inj (Except.ok.inj (hFind.symm.trans hFound))
          cases hFollow.symm.trans (hBuilt.followAliases_of_stops (hBuilt.own hHolds) hLast (.lost hLost))
        · cases hFind.symm.trans hNil
        · obtain ⟨rfl, hHolds'⟩ := hEnd hFound hChain
          obtain ⟨full, hFull⟩ := Option.isSome_iff_exists.1 hType
          obtain ⟨key, n, hKey', hEntry⟩ := hCanonical symbol full hHolds' hFull
          change t.Denotes [] (Name.ofText (symbol.full?.getD name)) symbol
          rw [Symbol.full?_of_typeName? hFull, Option.getD_some]
          exact hBuilt.denotes hKey' hEntry
        · obtain ⟨rfl, _⟩ := hEnd hFound (.self rfl)
          rfl
        · obtain ⟨rfl, _⟩ := hEnd hFound hChain
          rfl

end Scope

namespace TypeSpec

/-- The second type has the shape of the first, and at each of its nodes the name that `Q` relates to
the name there and the scope it is in. -/
inductive Renamed (Q : Option Path → Text → Text → Prop) : TypeSpec Meta → TypeSpec Meta → Prop
  | simple {m m' : Meta} {name name' : Text} {args args' : List (TypeSpec Meta)}
    (h : Q m.scope name name') (hArgs : List.Forall₂ (Renamed Q) args args') :
    Renamed Q (.simple m name args) (.simple m' name' args')
  | union {m m' : Meta} {types types' : List (TypeSpec Meta)}
    (h : List.Forall₂ (Renamed Q) types types') : Renamed Q (.union m types) (.union m' types')
  | inter {m m' : Meta} {types types' : List (TypeSpec Meta)}
    (h : List.Forall₂ (Renamed Q) types types') : Renamed Q (.inter m types) (.inter m' types')
  | func {m m' : Meta} {params params' : List (TypeSpec Meta)} {result result' : TypeSpec Meta}
    (h : List.Forall₂ (Renamed Q) params params') (hResult : Renamed Q result result') :
    Renamed Q (.func m params result) (.func m' params' result')
  | inferred {m m' : Meta} : Renamed Q (.inferred m) (.inferred m')

variable {Q : Option Path → Text → Text → Prop} {F : Fault → Prop} {t : Scope} {space : Text}

mutual

theorem qualify?_renamed (k : Nat) : (s : TypeSpec Meta) →
    (Node.spec s).All (fun n => ∀ m name args, n = .spec (.simple m name args) →
      Ends F (Q m.scope name) (t.qualifyName m.scope space name)) →
    (qualify? t space s).Gives k F fun new _ => Renamed Q s (new.getD s)
  | .simple m name args, h => by
    rw [qualify?]
    refine Revising.Gives.bind (P := fun full _ => Q m.scope name full)
      (.result (h.self m name args rfl)) fun full k₁ _ hFull => ?_
    refine (qualifyAll?_renamed k₁ args fun s hs => h.child (by simp [Node.children, hs])).bind
      fun new k₂ _ hArgs => ?_
    cases new with
    | some args' => exact Revising.Gives.bind (.lift (.renew m)) fun _ _ _ _ => .pure (.simple hFull hArgs)
    | none =>
      simp only
      split
      · rename_i hSame
        exact .pure (.simple (hSame ▸ hFull) hArgs)
      · exact Revising.Gives.bind (.lift (.renew m)) fun _ _ _ _ => .pure (.simple hFull hArgs)
  | .union m types, h => by
    rw [qualify?]
    refine (qualifyAll?_renamed k types fun s hs => h.child (by simp [Node.children, hs])).bind
      fun new k₁ _ hTypes => ?_
    cases new with
    | none => exact .pure (.union hTypes)
    | some types' => exact Revising.Gives.bind (.lift (.renew m)) fun _ _ _ _ => .pure (.union hTypes)
  | .inter m types, h => by
    rw [qualify?]
    refine (qualifyAll?_renamed k types fun s hs => h.child (by simp [Node.children, hs])).bind
      fun new k₁ _ hTypes => ?_
    cases new with
    | none => exact .pure (.inter hTypes)
    | some types' => exact Revising.Gives.bind (.lift (.renew m)) fun _ _ _ _ => .pure (.inter hTypes)
  | .func m params result, h => by
    rw [qualify?]
    refine (qualifyAll?_renamed k params fun s hs => h.child (by simp [Node.children, hs])).bind
      fun newParams k₁ _ hParams => ?_
    refine (qualify?_renamed k₁ result (h.child (by simp [Node.children]))).bind
      fun newResult k₂ _ hResult => ?_
    split
    · exact .pure (.func hParams hResult)
    · exact Revising.Gives.bind (.lift (.renew m)) fun _ _ _ _ => .pure (.func hParams hResult)
  | .inferred m, _ => by
    rw [qualify?]
    exact .pure .inferred

theorem qualifyAll?_renamed (k : Nat) : (ss : List (TypeSpec Meta)) →
    (∀ s ∈ ss, (Node.spec s).All (fun n => ∀ m name args, n = .spec (.simple m name args) →
      Ends F (Q m.scope name) (t.qualifyName m.scope space name))) →
    (qualifyAll? t space ss).Gives k F fun new _ => List.Forall₂ (Renamed Q) ss (new.getD ss)
  | [], _ => by
    rw [qualifyAll?]
    exact .pure .nil
  | s :: rest, h => by
    rw [qualifyAll?]
    refine (qualify?_renamed k s (h s List.mem_cons_self)).bind fun newHead k₁ _ hHead => ?_
    refine (qualifyAll?_renamed k₁ rest fun s' hs' => h s' (List.mem_cons_of_mem _ hs')).bind
      fun newRest k₂ _ hRest => ?_
    split
    · exact .pure (.cons hHead hRest)
    · exact .pure (.cons hHead hRest)

end

/-- What is asked of a node of a type: that it is in a scope, and that a name has no parenthesis. -/
def Spelled : Node Meta → Prop
  | .spec (.simple m name _) => (∃ path, m.scope = some path) ∧ 40 ∉ name
  | _ => True

/-- A type with its names in full has the same shape, and its names mean the same: the full form of a
simple name that leads to a type, after all aliases, denotes that type from the root. A name that
leads to a type variable or a value stays, as one with dots does, and one that leads nowhere is put
into the namespace. There is no such type just if a name in it leads to an alias with a target that has
no key: that is the fault then. -/
theorem full_names_denote (hBuilt : t.Built) (hCanonical : t.Canonical) {s : TypeSpec Meta}
    (hs : (Node.spec s).All Spelled) (space : Text) (next : Nat) :
    Ends (fun f => ∃ m name args path, .spec (.simple m name args) ∈ (Node.spec s).nodes ∧
      m.scope = some path ∧ t.Strays path name f) (fun new => Renamed (fun scope name full =>
      ∃ path, scope = some path ∧ t.Qualifies space path name full) s (new.getD s))
      ((qualify? t space s).run.run next).1 := by
  refine (qualify?_renamed next s fun n hn m name args hEq => ?_).2
  subst hEq
  obtain ⟨⟨path, hPath⟩, hName⟩ := hs _ hn
  rw [hPath]
  have hEnds := Scope.qualifyName_qualifies hBuilt hCanonical space path hName
  cases hFull : t.qualifyName (some path) space name with
  | error f =>
    rw [hFull] at hEnds
    exact ⟨m, name, args, path, hn, hPath, hEnds⟩
  | ok full =>
    rw [hFull] at hEnds
    exact ⟨path, rfl, hEnds⟩

/-- A class `p.A` that names a type of the library by a short name, in a type that also has a name
with dots and one that leads nowhere. -/
theorem full_names_denote_alias :
    let library := (Scope.table.declare [] (Name.ofText "lang.Text") (.library "lang.Text")).1
    let t := (library.declare ["p", "A"] (Name.ofText "T") (.alias 1 "lang.Text" none)).1
    let at? (id : Nat) : Meta := ⟨id, none, some ["p", "A", bodyName]⟩
    let s : TypeSpec Meta :=
      .union (at? 2) [.simple (at? 3) "T" [], .simple (at? 4) "q.B" [], .simple (at? 5) "C" []]
    t.Built ∧ t.Canonical ∧ (Node.spec s).All Spelled ∧
      ∃ new, ((qualify? t "p" s).run.run 6).1 = .ok new ∧ Renamed (fun scope name full =>
        ∃ path, scope = some path ∧ t.Qualifies "p" path name full) s (new.getD s) := by
  intro library t at? s
  have hBuilt : t.Built := by
    have hLibrary : library.Built := by
      refine .declared .empty _ _ _ fun _ _ _ hEq => ?_
      cases hEq
    refine .declared hLibrary _ _ _ fun id target decl _ target' decl' hHolds => ?_
    obtain hHolds | hEq := Scope.Built.holds_of_declare hHolds
    · obtain ⟨path, _, _, b, hb, _⟩ := hHolds
      rw [Scope.table, Scope.bindingsAt_empty] at hb
      simp at hb
    · cases hEq
  have hCanonical : t.Canonical := by
    intro symbol full hHolds hFull
    obtain hHolds | rfl := Scope.Built.holds_of_declare hHolds
    · obtain hHolds | rfl := Scope.Built.holds_of_declare hHolds
      · obtain ⟨path, _, _, b, hb, _⟩ := hHolds
        rw [Scope.table, Scope.bindingsAt_empty] at hb
        simp at hb
      · obtain rfl := Option.some.inj hFull
        exact ⟨.plain "Text", "Text", rfl, .plain "Text" (.library "lang.Text"),
          List.mem_singleton.2 rfl, rfl, List.mem_singleton.2 rfl⟩
    · cases hFull
  have hSpelled : (Node.spec s).All Spelled := by
    refine Node.all_iff.2 ⟨trivial, ?_⟩
    simp only [s, Node.children, List.forall_mem_map, List.forall_mem_cons]
    have hLeaf (id : Nat) {name : Text} (hName : 40 ∉ name) :
        (Node.spec (.simple (at? id) name [])).All Spelled :=
      Node.all_iff.2 ⟨⟨⟨_, rfl⟩, hName⟩, by simp [Node.children]⟩
    exact ⟨hLeaf 3 (by decide), hLeaf 4 (by decide), hLeaf 5 (by decide), by simp⟩
  have hDenote := full_names_denote hBuilt hCanonical hSpelled "p" 6
  exact ⟨hBuilt, hCanonical, hSpelled, _, rfl, hDenote⟩

/-- An alias whose target ends with an opening parenthesis stops a type from getting its full
names. -/
theorem full_names_lost :
    let t := (Scope.table.declare [] (Name.ofText "A") (.alias 1 "f(" none)).1
    ((qualify? t [] (.simple ⟨2, none, some []⟩ "A" [])).run.run 3).1 = .error .outOfBounds := by
  rfl

end TypeSpec

end Assay
