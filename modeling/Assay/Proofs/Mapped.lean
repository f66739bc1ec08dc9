import Mathlib
import Assay.Proofs.Run

/-! The table as a flat map. What a sequence of steps leaves in a table can be read off the steps
alone: which scopes there are, in which order they came, and which names and symbols each has under
which key. Look-ups, listings and walks of the tree of scopes give just that. -/

namespace Assay

variable {s t : Scope} {p path q : Path} {name : Text}

/-- A step that changes a table: it opens a scope in the one at a path, or declares a symbol there. -/
inductive TableStep where
  | openScope (path : Path) (name : Text)
  | declare (path : Path) (name : Name) (symbol : Symbol)

/-- What a declaration leaves: its name and its symbol, in which scope and under which key. -/
structure Entered where
  path : Path
  key : Key
  name : Text
  symbol : Symbol

namespace TableStep

def apply (t : Scope) : TableStep → Scope
  | .openScope path name => t.openAt (path ++ [name])
  | .declare path name symbol => (t.declare path name symbol).1

/-- The table after several steps, the first of them on a table with nothing in it. -/
def table (steps : List TableStep) : Scope := steps.foldl apply .table

def place : TableStep → Path
  | .openScope path name => path ++ [name]
  | .declare path name _ => Scope.home path name

/-- What a step leaves, if it declares a name that has a key. -/
def entered? : TableStep → Option Entered
  | .openScope .. => none
  | .declare path name symbol =>
    match name.key with
    | .ok key => some ⟨Scope.home path name, key, name.simple, symbol⟩
    | .error _ => none

/-- The scopes that several steps open, in this order. A scope comes after those around it. -/
def opened (steps : List TableStep) : List Path :=
  steps.foldl (fun known step => known ++ step.place.inits.filter (· ∉ known)) [[]]

/-- What several steps leave in the scope at a path, in this order. -/
def enteredAt (steps : List TableStep) (path : Path) : List Entered :=
  (steps.filterMap entered?).filter (·.path = path)

/-- The keys of the scope at a path, in the order in which they were declared first. -/
def keysAt (steps : List TableStep) (path : Path) : List Key :=
  ((enteredAt steps path).map (·.key)).eraseDups

/-- The names and symbols under a key of the scope at a path: of a plain name the last one, of an
overload set all, in the order in which they were declared. -/
def entries (steps : List TableStep) (path : Path) (key : Key) : List (Text × Symbol) :=
  let all := ((enteredAt steps path).filter (·.key = key)).map fun e => (e.name, e.symbol)
  match key with
  | .plain _ => all.getLast?.toList
  | .overloads _ => all

/-- The names and symbols under a key in the innermost scope on the way to a path that has any. -/
def nearestEntries (steps : List TableStep) (path : Path) (key : Key) : List (Text × Symbol) :=
  ((path.inits.reverse.map (entries steps · key)).find? (· ≠ [])).getD []

/-- All names and symbols of the scope at a path, by their keys. -/
def listing (steps : List TableStep) (path : Path) : List (Text × Symbol) :=
  (keysAt steps path).flatMap (entries steps path)

end TableStep

/-- Whether a path leads to a scope right inside the one at another path. -/
def Path.isChild (parent path : Path) : Bool := path ≠ [] ∧ path.dropLast = parent

/-- Scopes are visited once each, a scope right before all that are inside it, and scopes that are
inside the same one in the order in which they were opened. -/
structure DepthFirst (opened visited : List Path) : Prop where
  once : visited.Nodup
  all : visited.Perm opened
  children : ∀ parent : Path, visited.filter parent.isChild = opened.filter parent.isChild
  inside : ∀ path ∈ visited, ∃ before inner after, visited = before ++ path :: inner ++ after ∧
    (∀ q ∈ inner, path <+: q ∧ q ≠ path) ∧ ∀ q ∈ before ++ after, ¬path <+: q

open TableStep in
/-- A table shows what several steps have left in it. -/
structure Scope.Shows (t : Scope) (steps : List TableStep) : Prop where
  find_qualified : ∀ path (name : Name) key, name.isQualified → name.key = .ok key →
    t.find path name = .ok ((entries steps name.qualifier key).map (·.2))
  find_simple : ∀ path (name : Name) key, ¬name.isQualified → name.key = .ok key →
    t.find path name = .ok ((nearestEntries steps path key).map (·.2))
  findIn : ∀ path (name : Name) key, name.key = .ok key →
    t.findIn path name = .ok (((listing steps path).find? (·.1 = name.simple)).map (·.2))
  isDeclaredIn : ∀ path (name : Name) key, name.key = .ok key → t.isDeclaredIn path name =
    .ok (!name.isQualified && (listing steps path).any (·.1 = name.simple))
  symbols : ∀ path, (t.at? path).map Scope.symbols =
    if path ∈ opened steps then some (listing steps path) else none
  walk : DepthFirst (opened steps) ((t.walk []).map (·.1))
  walk_at : ∀ path s, (path, s) ∈ t.walk [] → t.at? path = some s

namespace Scope

/-! ### The names of inner scopes -/

/-- The names of the scopes inside the one at a path, in order. -/
def namesAt (t : Scope) (path : Path) : List Text :=
  ((t.at? path).map fun s => s.inner.map (·.name)).getD []

theorem namesAt_nil (t : Scope) : t.namesAt [] = t.inner.map (·.name) := rfl

theorem namesAt_cons (t : Scope) (name : Text) (rest : Path) :
    t.namesAt (name :: rest) = ((t.child? name).map (namesAt · rest)).getD [] := by
  unfold namesAt
  rw [at?]
  cases t.child? name <;> rfl

theorem namesAt_empty (name : Text) (path : Path) : (empty name).namesAt path = [] := by
  cases path with
  | nil => rfl
  | cons other rest =>
    rw [namesAt_cons, show (empty name).child? other = none from rfl]
    rfl

theorem namesAt_cons_getD (t : Scope) (name : Text) (rest : Path) :
    t.namesAt (name :: rest) = ((t.child? name).getD (empty name)).namesAt rest := by
  rw [namesAt_cons]
  cases t.child? name with
  | none => exact (namesAt_empty name rest).symm
  | some s => rfl

/-- A list of names with a name at its end, unless it is there. -/
def withName (name : Text) (names : List Text) : List Text :=
  if names.contains name then names else names ++ [name]

theorem map_name_changeChild {f : Scope → Scope} (hf : ∀ s, (f s).name = s.name) (name : Text)
    (scopes : List Scope) :
    (changeChild name f scopes).map (·.name) = withName name (scopes.map (·.name)) := by
  induction scopes with
  | nil => simp [changeChild, withName, hf, empty]
  | cons s rest ih =>
    rw [changeChild]
    by_cases hs : s.name = name
    · simp [hs, hf, withName]
    · rw [if_neg hs, List.map_cons, ih]
      unfold withName
      simp only [List.map_cons, List.contains_iff_mem, List.mem_cons, Ne.symm hs, false_or]
      split <;> rfl

theorem namesAt_change {f : Scope → Scope} {g : List Binding → List Binding} (hf : Local f g)
    (path p : Path) (t : Scope) :
    (change f path t).namesAt p =
      if p <+: path then
        match path.drop p.length with
        | [] => t.namesAt p
        | name :: _ => withName name (t.namesAt p)
      else t.namesAt p := by
  induction path generalizing t p with
  | nil =>
    have hSame : (change f [] t).namesAt p = t.namesAt p := by
      cases p with
      | nil => rw [change, namesAt_nil, namesAt_nil, hf.inner]
      | cons name rest => rw [change, namesAt_cons, namesAt_cons, child?, child?, hf.inner]
    rw [hSame, List.drop_nil]
    split <;> rfl
  | cons name path ih =>
    cases p with
    | nil =>
      rw [if_pos List.nil_prefix, change, namesAt_nil]
      exact map_name_changeChild (name_change hf path) name t.inner
    | cons other p =>
      rw [change, namesAt_cons, child?]
      simp only
      rw [find?_changeChild (name_change hf path) name other t.inner]
      by_cases h : other = name
      · subst h
        rw [if_pos rfl, Option.map_some, Option.getD_some, ih, namesAt_cons_getD]
        simp only [List.cons_prefix_cons, true_and, List.length_cons, List.drop_succ_cons]
        rfl
      · rw [if_neg h, if_neg fun hp => h (List.cons_prefix_cons.1 hp).1, namesAt_cons]
        rfl

theorem isSome_child? : (t.child? name).isSome ↔ name ∈ t.inner.map (·.name) := by
  rw [child?, List.find?_isSome]
  simp

theorem isSome_at?_concat (t : Scope) (path : Path) (name : Text) :
    (t.at? (path ++ [name])).isSome ↔ name ∈ t.namesAt path := by
  induction path generalizing t with
  | nil =>
    rw [List.nil_append, at?, namesAt_nil, ← isSome_child?]
    cases t.child? name <;> simp [at?]
  | cons first rest ih =>
    rw [List.cons_append, at?, namesAt_cons]
    cases t.child? first with
    | none => simp
    | some s => exact ih s

/-! ### The entries of scopes -/

theorem binding?_of_view {bs : List Binding} {keys : List Key} {E : Key → List (Text × Symbol)}
    (h : bs.map (fun b => (b.key, b.members)) = keys.map fun k => (k, E k)) (key : Key) :
    (bs.find? (·.key = key)).map Binding.members = if key ∈ keys then some (E key) else none := by
  induction bs generalizing keys with
  | nil =>
    obtain rfl := List.map_eq_nil_iff.1 h.symm
    rfl
  | cons b bs ih =>
    cases keys with
    | nil => cases h
    | cons k keys =>
      obtain ⟨hHead, hTail⟩ := List.cons.inj h
      obtain ⟨hKey, hMembers⟩ := Prod.mk.inj hHead
      by_cases hk : k = key
      · subst hk
        simp [hKey, hMembers]
      · rw [List.find?_cons_of_neg (by simpa [hKey] using hk), ih hTail]
        simp [Ne.symm hk]

/-- The names and symbols under a key after one more declaration. -/
def grown (key : Key) (name : Text) (symbol : Symbol) (members : List (Text × Symbol)) :
    List (Text × Symbol) :=
  match key with
  | .plain _ => [(name, symbol)]
  | .overloads _ => members ++ [(name, symbol)]

theorem addBinding_view {key : Key} (symbol : Symbol) (hName : ∀ p, key = .plain p → p = name)
    {bs : List Binding} {keys : List Key} {E : Key → List (Text × Symbol)}
    (hNew : key ∉ keys → E key = []) (hNodup : keys.Nodup)
    (h : bs.map (fun b => (b.key, b.members)) = keys.map fun k => (k, E k)) :
    (addBinding key name symbol bs).map (fun b => (b.key, b.members)) =
      (if key ∈ keys then keys else keys ++ [key]).map fun k =>
        (k, if k = key then grown key name symbol (E key) else E k) := by
  induction bs generalizing keys with
  | nil =>
    obtain rfl := List.map_eq_nil_iff.1 h.symm
    cases key with
    | plain p => simp [addBinding, Binding.key, Binding.members, grown, hName p rfl]
    | overloads set =>
      simp [addBinding, Binding.key, Binding.members, grown, hNew (List.not_mem_nil)]
  | cons b bs ih =>
    cases keys with
    | nil => cases h
    | cons k keys =>
      obtain ⟨hHead, hTail⟩ := List.cons.inj h
      obtain ⟨rfl, hMembers⟩ := Prod.mk.inj hHead
      obtain ⟨hk, hNodup⟩ := List.nodup_cons.1 hNodup
      unfold addBinding
      by_cases hKey : b.key = key
      · subst hKey
        have hRest : keys.map (fun k => (k, if k = b.key then grown b.key name symbol (E b.key)
            else E k)) = keys.map fun k => (k, E k) :=
          List.map_congr_left fun k hk' => by rw [if_neg (ne_of_mem_of_not_mem hk' hk)]
        rw [if_pos rfl, if_pos List.mem_cons_self, List.map_cons, if_pos rfl, hRest, ← hTail]
        cases b with
        | plain p other => simp [Binding.key, Binding.members, grown, hName p rfl]
        | overloads set members =>
          obtain rfl : members = E (.overloads set) := hMembers
          rfl
      · have hIff : key ∈ b.key :: keys ↔ key ∈ keys := by simp [Ne.symm hKey]
        have hIh := ih (fun hMem => hNew (hIff.not.2 hMem)) hNodup hTail
        simp only [hIff, if_neg hKey, List.map_cons, hIh, hMembers]
        split <;> simp [hKey]

end Scope

namespace TableStep

open Scope

theorem table_concat (steps : List TableStep) (step : TableStep) :
    table (steps ++ [step]) = step.apply (table steps) := by
  rw [table, List.foldl_append]
  rfl

theorem opened_concat (steps : List TableStep) (step : TableStep) :
    opened (steps ++ [step]) =
      opened steps ++ step.place.inits.filter (· ∉ opened steps) := by
  rw [opened, List.foldl_append]
  rfl

theorem apply_eq_change (t : Scope) (step : TableStep) :
    ∃ f g, Local f g ∧ step.apply t = change f step.place t ∧
      g = match step.entered? with
        | some e => addBinding e.key e.name e.symbol
        | none => id := by
  cases step with
  | openScope path name => exact ⟨id, id, .id, rfl, rfl⟩
  | declare path name symbol =>
    simp only [apply, Scope.declare, place, entered?]
    cases name.key with
    | ok key => exact ⟨_, _, .add key name.simple symbol, rfl, rfl⟩
    | error f => exact ⟨id, id, .id, rfl, rfl⟩

/-! ### Scopes -/

theorem isChild_concat : p.isChild (p ++ [name]) := by simp [Path.isChild]

theorem eq_concat_of_isChild (h : p.isChild q) : ∃ name, q = p ++ [name] := by
  obtain ⟨hNil, rfl⟩ : q ≠ [] ∧ q.dropLast = p := by simpa [Path.isChild] using h
  exact ⟨q.getLast hNil, (List.dropLast_append_getLast hNil).symm⟩

theorem inits_filter_isChild (path p : Path) :
    path.inits.filter p.isChild =
      if p <+: path then
        match path.drop p.length with
        | [] => []
        | name :: _ => [p ++ [name]]
      else [] := by
  induction path generalizing p with
  | nil =>
    rw [List.drop_nil]
    split <;> rfl
  | cons first path ih =>
    have hFilter : (first :: path).inits.filter p.isChild =
        (path.inits.filter fun q => p.isChild (first :: q)).map (first :: ·) := by
      rw [List.inits_cons, List.filter_cons_of_neg (by simp [Path.isChild]), List.filter_map]
      rfl
    rw [hFilter]
    cases p with
    | nil =>
      have hOnly : path.inits.filter (fun q => Path.isChild [] (first :: q)) = [[]] := by
        cases path with
        | nil => rfl
        | cons second path =>
          rw [List.inits_cons, List.filter_cons_of_pos (by simp [Path.isChild]), List.filter_map,
            List.filter_eq_nil_iff.2 (by simp [Path.isChild])]
          rfl
      rw [hOnly]
      rfl
    | cons other p =>
      have hChild (q : Path) : Path.isChild (other :: p) (first :: q) =
          (decide (first = other) && Path.isChild p q) := by
        cases q <;> simp [Path.isChild]
      simp only [hChild, List.cons_prefix_cons, List.length_cons, List.drop_succ_cons]
      by_cases hSame : other = first
      · subst hSame
        simp only [true_and, decide_true, Bool.true_and, ih p]
        split
        · split <;> rfl
        · rfl
      · simp [hSame, Ne.symm hSame]

theorem namesAt_table (steps : List TableStep) (p : Path) :
    ((table steps).namesAt p).map (p ++ [·]) = (opened steps).filter p.isChild := by
  induction steps using List.reverseRecOn with
  | nil => rw [show table [] = empty [] from rfl, namesAt_empty]; rfl
  | append_singleton steps step ih =>
    obtain ⟨f, g, hf, hApply, -⟩ := apply_eq_change (table steps) step
    have hMem (name : Text) : name ∈ (table steps).namesAt p ↔ p ++ [name] ∈ opened steps := by
      have hMap : name ∈ (table steps).namesAt p ↔
          p ++ [name] ∈ ((table steps).namesAt p).map (p ++ [·]) := by simp
      rw [hMap, ih, List.mem_filter, and_iff_left isChild_concat]
    rw [table_concat, hApply, namesAt_change hf, opened_concat, List.filter_append, ← ih,
      List.filter_comm, inits_filter_isChild]
    split
    · split
      · simp
      · rename_i name _ _
        by_cases hOld : name ∈ (table steps).namesAt p
        · simp [withName, hOld, (hMem name).1 hOld]
        · simp [withName, hOld, (hMem name).not.1 hOld]
    · simp

theorem nil_mem_opened (steps : List TableStep) : [] ∈ opened steps := by
  induction steps using List.reverseRecOn with
  | nil => exact List.mem_singleton_self _
  | append_singleton steps step ih =>
    rw [opened_concat]
    exact List.mem_append_left _ ih

theorem isSome_at?_table (steps : List TableStep) (path : Path) :
    ((table steps).at? path).isSome ↔ path ∈ opened steps := by
  induction path using List.reverseRecOn with
  | nil => simp [at?, nil_mem_opened]
  | append_singleton path name _ =>
    have hMap : name ∈ (table steps).namesAt path ↔
        path ++ [name] ∈ ((table steps).namesAt path).map (path ++ [·]) := by simp
    rw [isSome_at?_concat, hMap, namesAt_table, List.mem_filter, and_iff_left isChild_concat]

theorem nodup_inits (path : Path) : path.inits.Nodup := by
  induction path with
  | nil => exact List.nodup_singleton _
  | cons first path ih =>
    rw [List.inits_cons]
    refine List.nodup_cons.2 ⟨by simp, ih.map fun _ _ h => (List.cons.inj h).2⟩

theorem nodup_opened (steps : List TableStep) : (opened steps).Nodup := by
  induction steps using List.reverseRecOn with
  | nil => exact List.nodup_singleton _
  | append_singleton steps step ih =>
    rw [opened_concat]
    refine ih.append ((nodup_inits _).filter _) fun q hq hNew => ?_
    have hNew := (List.mem_filter.1 hNew).2
    exact of_decide_eq_true hNew hq

theorem nodup_namesAt (steps : List TableStep) (p : Path) : ((table steps).namesAt p).Nodup := by
  refine List.Nodup.of_map (p ++ [·]) ?_
  rw [namesAt_table]
  exact (nodup_opened steps).filter _

/-! ### Entries -/

theorem nodup_eraseDups {α : Type} [DecidableEq α] (xs : List α) : xs.eraseDups.Nodup := by
  induction hn : xs.length using Nat.strong_induction_on generalizing xs with
  | _ n ih =>
    cases xs with
    | nil => exact List.nodup_nil
    | cons x xs =>
      rw [List.eraseDups_cons, List.nodup_cons, List.mem_eraseDups]
      refine ⟨by simp, ih _ ?_ _ rfl⟩
      rw [← hn, List.length_cons]
      exact Nat.lt_succ_of_le (List.length_filter_le _ _)

theorem nodup_keysAt (steps : List TableStep) (path : Path) : (keysAt steps path).Nodup :=
  nodup_eraseDups _

theorem enteredAt_concat (steps : List TableStep) (step : TableStep) (path : Path) :
    enteredAt (steps ++ [step]) path =
      enteredAt steps path ++ step.entered?.toList.filter (·.path = path) := by
  rw [enteredAt, List.filterMap_append, List.filter_append, enteredAt]
  cases h : step.entered? with
  | none => simp [h]
  | some e => simp [h]

section

variable {steps steps' : List TableStep} {path : Path} {e : Entered}

theorem keysAt_of_append (h : enteredAt steps' path = enteredAt steps path ++ [e]) :
    keysAt steps' path =
      if e.key ∈ keysAt steps path then keysAt steps path else keysAt steps path ++ [e.key] := by
  unfold keysAt
  rw [h, List.map_append, List.eraseDups_append]
  simp only [List.map_cons, List.map_nil, List.mem_eraseDups, List.removeAll]
  split
  · rename_i hMem
    rw [List.filter_cons_of_neg (by simpa using hMem)]
    simp
  · rename_i hMem
    rw [List.filter_cons_of_pos (by simpa using hMem)]
    rfl

theorem entries_of_append (h : enteredAt steps' path = enteredAt steps path ++ [e]) (key : Key) :
    entries steps' path key =
      if key = e.key then grown e.key e.name e.symbol (entries steps path e.key)
      else entries steps path key := by
  by_cases hKey : key = e.key
  · subst hKey
    rw [if_pos rfl]
    cases hKind : e.key with
    | plain p => simp [entries, h, grown, hKind]
    | overloads set => simp [entries, h, grown, hKind]
  · simp [entries, h, hKey, Ne.symm hKey]

end

theorem entries_eq_nil_iff {steps : List TableStep} {key : Key} :
    entries steps path key = [] ↔ key ∉ keysAt steps path := by
  have hAll : ((enteredAt steps path).filter (·.key = key)).map (fun e => (e.name, e.symbol)) = [] ↔
      key ∉ keysAt steps path := by
    simp only [keysAt, List.mem_eraseDups, List.map_eq_nil_iff, List.filter_eq_nil_iff,
      decide_eq_true_eq, List.mem_map, not_exists, not_and]
  rw [← hAll]
  cases key with
  | plain p => simp [entries]
  | overloads set => rfl

theorem entered?_facts {step : TableStep} {e : Entered} (h : step.entered? = some e) :
    e.path = step.place ∧ ∃ name : Name, name.simple = e.name ∧ name.key = .ok e.key := by
  cases step with
  | openScope => cases h
  | declare path name symbol =>
    simp only [entered?] at h
    split at h
    · rename_i key hKey
      obtain rfl := Option.some.inj h
      exact ⟨rfl, name, rfl, hKey⟩
    · cases h

theorem bindingsAt_table (steps : List TableStep) (path : Path) :
    ((table steps).bindingsAt path).map (fun b => (b.key, b.members)) =
      (keysAt steps path).map fun key => (key, entries steps path key) := by
  induction steps using List.reverseRecOn with
  | nil => rw [show table [] = empty [] from rfl, bindingsAt_empty]; rfl
  | append_singleton steps step ih =>
    obtain ⟨f, g, hf, hApply, rfl⟩ := apply_eq_change (table steps) step
    have hEntered := enteredAt_concat steps step path
    -- Where nothing is added, the scope has what it had.
    have hSame (h : enteredAt (steps ++ [step]) path = enteredAt steps path) :
        (keysAt (steps ++ [step]) path).map (fun key => (key, entries (steps ++ [step]) path key)) =
          (keysAt steps path).map fun key => (key, entries steps path key) := by
      simp only [keysAt, entries, h]
    rw [table_concat, hApply, bindingsAt_change hf]
    cases hStep : step.entered? with
    | none =>
      rw [hStep, Option.toList_none, List.filter_nil, List.append_nil] at hEntered
      rw [hSame hEntered, ← ih]
      split
      · rename_i hPath
        rw [hPath]
        rfl
      · rfl
    | some e =>
      obtain ⟨hPlace, name, hName, hKey⟩ := entered?_facts hStep
      rw [hStep, Option.toList_some] at hEntered
      split
      · rename_i hPath
        subst hPath
        rw [List.filter_cons_of_pos (by simp [hPlace]), List.filter_nil] at hEntered
        rw [keysAt_of_append hEntered]
        simp only [entries_of_append hEntered]
        refine addBinding_view e.symbol (fun p hp => ?_) entries_eq_nil_iff.2 (nodup_keysAt _ _) ih
        rw [← hName]
        exact Name.simple_of_key (hp ▸ hKey)
      · rename_i hPath
        rw [List.filter_cons_of_neg (by simpa [hPlace] using Ne.symm hPath), List.filter_nil,
          List.append_nil] at hEntered
        rw [hSame hEntered, ← ih]

end TableStep

/-! ### Look-ups -/

namespace Scope

variable {t : Scope} {path : Path} {name : Name} {key : Key}

/-- The names and symbols under a key in the scope at a path, if it has an entry for it. -/
def membersAt (t : Scope) (path : Path) (key : Key) : Option (List (Text × Symbol)) :=
  ((t.bindingsAt path).find? (·.key = key)).map Binding.members

theorem symbols?_eq_membersAt (h : t.at? path = some s) :
    s.symbols? key = (t.membersAt path key).map fun members => members.map (·.2) := by
  rw [membersAt, bindingsAt_of_at? h, Option.map_map]
  rfl

theorem membersAt_cons (first : Text) (rest : Path) :
    t.membersAt (first :: rest) key = (t.child? first).bind (membersAt · rest key) := by
  rw [membersAt, bindingsAt_cons]
  cases t.child? first <;> rfl

theorem symbols?_eq_membersAt_nil (t : Scope) (key : Key) :
    t.symbols? key = (t.membersAt [] key).map fun members => members.map (·.2) :=
  symbols?_eq_membersAt rfl

theorem nearest?_eq_findSome? (t : Scope) (path : Path) (key : Key) :
    t.nearest? path key =
      (path.inits.reverse.findSome? (t.membersAt · key)).map fun members => members.map (·.2) := by
  induction path generalizing t with
  | nil =>
    rw [nearest?, symbols?_eq_membersAt_nil]
    cases h : t.membersAt [] key <;> simp [h]
  | cons first rest ih =>
    rw [nearest?, symbols?_eq_membersAt_nil, List.inits_cons, List.reverse_cons,
      List.findSome?_append, ← List.map_reverse, List.findSome?_map]
    simp only [Function.comp_def, membersAt_cons]
    cases t.child? first with
    | none =>
      have hNone : rest.inits.reverse.findSome?
          (fun _ => (none : Option (List (Text × Symbol)))) = none := by simp
      simp only [Option.bind_none, hNone]
      cases h : t.membersAt [] key <;> simp [h]
    | some s =>
      simp only [Option.bind_some, ih]
      cases rest.inits.reverse.findSome? (s.membersAt · key) with
      | some members => rfl
      | none => cases h : t.membersAt [] key <;> simp [h]

theorem find_root (hKey : name.key = .ok key) :
    t.find [] name = .ok (((t.membersAt (home [] name) key).getD []).map (·.2)) := by
  rw [Scope.find, hKey, home]
  split
  · rename_i hQualified
    cases hAt : t.at? name.qualifier with
    | none => simp [membersAt, bindingsAt, hAt]
    | some s =>
      simp only [Except.map, symbols?_eq_membersAt hAt]
      cases t.membersAt name.qualifier key <;> rfl
  · rw [Except.map, nearest?, symbols?_eq_membersAt_nil]
    cases t.membersAt [] key <;> rfl

theorem findIn_eq_membersAt (h : name.key = .ok key) :
    t.findIn path name =
      .ok ((t.membersAt path key).bind fun members =>
        (members.find? (·.1 = name.simple)).map (·.2)) := by
  rw [findIn, findHere?, h, membersAt, bindingsAt]
  cases t.at? path with
  | none => rfl
  | some s =>
    simp only [Option.getD_some, Option.map_some, binding?, Option.bind_map]
    rfl

end Scope

namespace TableStep

open Scope

variable {steps : List TableStep} {path : Path} {name : Name} {key : Key}

theorem membersAt_table (steps : List TableStep) (path : Path) (key : Key) :
    (table steps).membersAt path key =
      if entries steps path key = [] then none else some (entries steps path key) := by
  rw [membersAt, binding?_of_view (bindingsAt_table steps path)]
  simp only [entries_eq_nil_iff, ite_not]

theorem find_qualified_table (hQualified : name.isQualified) (hKey : name.key = .ok key) :
    (table steps).find path name = .ok ((entries steps name.qualifier key).map (·.2)) := by
  rw [Scope.find, if_pos hQualified]
  have hMembers := membersAt_table steps name.qualifier key
  cases hAt : (table steps).at? name.qualifier with
  | none =>
    have hNone : entries steps name.qualifier key = [] := by
      rw [membersAt, bindingsAt, hAt] at hMembers
      by_contra hSome
      rw [if_neg hSome] at hMembers
      cases hMembers
    rw [hNone]
    rfl
  | some s =>
    simp only [hKey, Except.map, symbols?_eq_membersAt hAt, hMembers]
    split
    · rename_i hNil
      rw [hNil]
      rfl
    · rfl

theorem find_simple_table (hSimple : ¬name.isQualified) (hKey : name.key = .ok key) :
    (table steps).find path name = .ok ((nearestEntries steps path key).map (·.2)) := by
  have hFirst (paths : List Path) : paths.findSome? ((table steps).membersAt · key) =
      (paths.map (entries steps · key)).find? (· ≠ []) := by
    induction paths with
    | nil => rfl
    | cons p paths ih =>
      rw [List.findSome?_cons, membersAt_table, ih, List.map_cons, List.find?_cons]
      by_cases hNil : entries steps p key = []
      · simp [hNil]
      · simp [hNil]
  rw [Scope.find, if_neg hSimple, hKey, Except.map, nearest?_eq_findSome?, hFirst, nearestEntries]
  cases (path.inits.reverse.map (entries steps · key)).find? (· ≠ []) <;> rfl

theorem key_congr {n n' : Name} (h : n.simple = n'.simple) : n.key = n'.key := by
  unfold Name.key Name.normalized Name.isMethod
  rw [h]

theorem key_of_mem_entries {x : Text × Symbol} (hx : x ∈ entries steps path key)
    (hName : x.1 = name.simple) : name.key = .ok key := by
  have hAll : x ∈ ((enteredAt steps path).filter (·.key = key)).map fun e => (e.name, e.symbol) := by
    cases key with
    | plain p => exact List.mem_of_getLast? (by simpa [entries] using hx)
    | overloads set => exact hx
  obtain ⟨e, he, rfl⟩ := List.mem_map.1 hAll
  obtain ⟨he, hKey⟩ := List.mem_filter.1 he
  obtain ⟨step, _, hStep⟩ := List.mem_filterMap.1 (List.mem_filter.1 he).1
  obtain ⟨-, n, hn, hnKey⟩ := entered?_facts hStep
  rw [key_congr (hn.trans hName).symm, hnKey, of_decide_eq_true hKey]

theorem listing_find? (hKey : name.key = .ok key) :
    (listing steps path).find? (·.1 = name.simple) =
      (entries steps path key).find? (·.1 = name.simple) := by
  have hOther {k : Key} (hk : k ≠ key) :
      (entries steps path k).find? (·.1 = name.simple) = none := by
    refine List.find?_eq_none.2 fun x hx hName => hk ?_
    exact Except.ok.inj ((key_of_mem_entries hx (of_decide_eq_true hName)).symm.trans hKey)
  have hKeys (keys : List Key) : keys.findSome? (fun k =>
      (entries steps path k).find? (·.1 = name.simple)) =
        if key ∈ keys then (entries steps path key).find? (·.1 = name.simple) else none := by
    induction keys with
    | nil => rfl
    | cons k keys ih =>
      rw [List.findSome?_cons, ih]
      by_cases hk : k = key
      · subst hk
        rw [if_pos List.mem_cons_self]
        cases (entries steps path k).find? (·.1 = name.simple) <;> simp
      · simp [hOther hk, Ne.symm hk]
  rw [listing, List.find?_flatMap, hKeys]
  split
  · rfl
  · rename_i hNew
    rw [entries_eq_nil_iff.2 hNew]
    rfl

theorem findIn_table (hKey : name.key = .ok key) :
    (table steps).findIn path name =
      .ok (((listing steps path).find? (·.1 = name.simple)).map (·.2)) := by
  rw [findIn_eq_membersAt hKey, membersAt_table, listing_find? hKey]
  split
  · rename_i hNil
    rw [hNil]
    rfl
  · rfl

theorem isDeclaredIn_table (hKey : name.key = .ok key) :
    (table steps).isDeclaredIn path name =
      .ok (!name.isQualified && (listing steps path).any (·.1 = name.simple)) := by
  rw [isDeclaredIn, findIn_table hKey]
  cases name.isQualified with
  | true => rfl
  | false =>
    rw [← List.isSome_find?]
    cases (listing steps path).find? (·.1 = name.simple) <;> rfl

theorem symbols_table (steps : List TableStep) (path : Path) :
    ((table steps).at? path).map Scope.symbols =
      if path ∈ opened steps then some (listing steps path) else none := by
  have hSome := isSome_at?_table steps path
  cases hAt : (table steps).at? path with
  | none => rw [hAt] at hSome; simp [hSome.not.1]
  | some s =>
    rw [hAt] at hSome
    rw [if_pos (hSome.1 rfl), Option.map_some, Scope.symbols, ← bindingsAt_of_at? hAt, listing]
    have hView := congrArg (List.flatMap Prod.snd) (bindingsAt_table steps path)
    rw [List.flatMap_map, List.flatMap_map] at hView
    rw [hView]

end TableStep

/-! ### Walks -/

namespace Scope

theorem walkAll_eq (path : Path) (scopes : List Scope) :
    walkAll path scopes = scopes.flatMap fun s => walk (path ++ [s.name]) s := by
  induction scopes with
  | nil => rfl
  | cons s scopes ih => rw [walkAll, ih, List.flatMap_cons]

theorem walk_eq (path : Path) (t : Scope) :
    walk path t = (path, t) :: t.inner.flatMap fun s => walk (path ++ [s.name]) s := by
  obtain ⟨name, bindings, inner⟩ := t
  rw [walk, walkAll_eq]

/-- The paths of a scope and of all scopes inside it, in the order of the walk. -/
def paths (path : Path) (t : Scope) : List Path := (walk path t).map (·.1)

theorem paths_eq (path : Path) (t : Scope) :
    paths path t = path :: t.inner.flatMap fun s => paths (path ++ [s.name]) s := by
  rw [paths, walk_eq, List.map_cons, List.map_flatMap]
  rfl

theorem inner_induction {P : Scope → Prop} (h : ∀ t, (∀ s ∈ t.inner, P s) → P t) (t : Scope) : P t :=
  h t fun s hs => by
    obtain ⟨name, bindings, inner⟩ := t
    have : sizeOf s < sizeOf inner := List.sizeOf_lt_of_mem hs
    exact inner_induction h s
termination_by sizeOf t
decreasing_by
  rw [Scope.mk.sizeOf_spec]
  omega

/-- All scopes inside one scope have different names, however deep it is. -/
def Apart (t : Scope) : Prop := ∀ path, (t.namesAt path).Nodup

theorem child?_of_mem (h : t.Apart) (hs : s ∈ t.inner) : t.child? s.name = some s := by
  have hNodup := h []
  rw [namesAt_nil] at hNodup
  rw [child?]
  generalize t.inner = scopes at hs hNodup
  induction scopes with
  | nil => cases hs
  | cons first scopes ih =>
    rw [List.map_cons, List.nodup_cons] at hNodup
    obtain rfl | hs := List.mem_cons.1 hs
    · simp
    · have hFirst : first.name ≠ s.name := fun hSame =>
        hNodup.1 (hSame ▸ List.mem_map_of_mem hs)
      rw [List.find?_cons_of_neg (by simpa using hFirst)]
      exact ih hs hNodup.2

theorem Apart.inner (h : t.Apart) (hs : s ∈ t.inner) : s.Apart := by
  intro path
  have hPath := h (s.name :: path)
  rw [namesAt_cons, child?_of_mem h hs] at hPath
  exact hPath

theorem Apart.names (h : t.Apart) : (t.inner.map (·.name)).Nodup := h []

theorem mem_walk (h : t.Apart) : (q, s) ∈ walk path t ↔ ∃ r, q = path ++ r ∧ t.at? r = some s := by
  induction t using inner_induction generalizing path with
  | _ t ih =>
    rw [walk_eq, List.mem_cons, List.mem_flatMap]
    constructor
    · rintro (hHere | ⟨c, hc, hMem⟩)
      · obtain ⟨rfl, rfl⟩ := Prod.mk.inj hHere
        exact ⟨[], (List.append_nil _).symm, rfl⟩
      · obtain ⟨r, rfl, hr⟩ := (ih c hc (h.inner hc)).1 hMem
        refine ⟨c.name :: r, by simp, ?_⟩
        rw [at?_cons_of_child? (child?_of_mem h hc), hr]
    · rintro ⟨r, rfl, hr⟩
      cases r with
      | nil =>
        obtain rfl := Option.some.inj hr
        exact .inl (by rw [List.append_nil])
      | cons first r =>
        rw [at?] at hr
        cases hChild : t.child? first with
        | none => simp [hChild] at hr
        | some c =>
          simp only [hChild] at hr
          have hc : c ∈ t.inner := List.mem_of_find?_eq_some hChild
          obtain rfl : c.name = first := by simpa using List.find?_some hChild
          exact .inr ⟨c, hc, (ih c hc (h.inner hc)).2 ⟨r, by simp, hr⟩⟩

theorem prefix_of_mem_paths (hq : q ∈ paths path t) : path <+: q := by
  induction t using inner_induction generalizing path with
  | _ t ih =>
    rw [paths_eq] at hq
    obtain rfl | hq := List.mem_cons.1 hq
    · exact List.prefix_refl _
    · obtain ⟨c, hc, hq⟩ := List.mem_flatMap.1 hq
      exact (List.prefix_append _ _).trans (ih c hc hq)

theorem eq_of_concats {m n : Text} (hm : path ++ [m] <+: q) (hn : path ++ [n] <+: q) : m = n := by
  have hSame := List.prefix_of_prefix_length_le hm hn (by simp)
  simpa using hSame.eq_of_length (by simp)

theorem nodup_paths (h : t.Apart) (path : Path) : (paths path t).Nodup := by
  induction t using inner_induction generalizing path with
  | _ t ih =>
    rw [paths_eq, List.nodup_cons, List.nodup_flatMap]
    refine ⟨fun hMem => ?_, fun c hc => ih c hc (h.inner hc) _, ?_⟩
    · obtain ⟨c, _, hMem⟩ := List.mem_flatMap.1 hMem
      simpa using (prefix_of_mem_paths hMem).length_le
    · refine (List.pairwise_map.1 h.names).imp fun hName q hq hq' => hName ?_
      exact eq_of_concats (prefix_of_mem_paths hq) (prefix_of_mem_paths hq')

theorem flatMap_child? {α : Type} {scopes : List Scope} (hNodup : (scopes.map (·.name)).Nodup)
    (name : Text) (f : Scope → List α) (hf : ∀ s ∈ scopes, s.name ≠ name → f s = []) :
    scopes.flatMap f = ((scopes.find? (·.name = name)).map f).getD [] := by
  induction scopes with
  | nil => rfl
  | cons s scopes ih =>
    rw [List.map_cons, List.nodup_cons] at hNodup
    rw [List.flatMap_cons]
    by_cases hs : s.name = name
    · have hRest : scopes.flatMap f = [] := by
        refine List.flatMap_eq_nil_iff.2 fun s' hs' => hf s' (List.mem_cons_of_mem _ hs') ?_
        exact fun hSame => hNodup.1 (hs.trans hSame.symm ▸ List.mem_map_of_mem hs')
      rw [hRest, List.append_nil, List.find?_cons_of_pos (by simpa using hs)]
      rfl
    · rw [hf s List.mem_cons_self hs, List.nil_append, List.find?_cons_of_neg (by simpa using hs)]
      exact ih hNodup.2 fun s' hs' => hf s' (List.mem_cons_of_mem _ hs')

theorem paths_filter_isChild (h : t.Apart) (path r : Path) :
    (paths path t).filter (Path.isChild (path ++ r)) =
      (t.namesAt r).map fun name => path ++ r ++ [name] := by
  induction t using inner_induction generalizing path r with
  | _ t ih =>
    have hSelf : ¬Path.isChild (path ++ r) path := by
      intro hChild
      obtain ⟨name, hName⟩ := TableStep.eq_concat_of_isChild hChild
      have hLength := congrArg List.length hName
      simp at hLength
    rw [paths_eq, List.filter_cons_of_neg hSelf, List.filter_flatMap]
    cases r with
    | nil =>
      have hOne (c : Scope) (hc : c ∈ t.inner) :
          (paths (path ++ [c.name]) c).filter (Path.isChild (path ++ [])) = [path ++ [c.name]] := by
        rw [paths_eq, List.append_nil, List.filter_cons_of_pos TableStep.isChild_concat,
          List.filter_eq_nil_iff.2]
        intro q hq hChild
        obtain ⟨d, _, hq⟩ := List.mem_flatMap.1 hq
        obtain ⟨name, rfl⟩ := TableStep.eq_concat_of_isChild hChild
        simpa using (prefix_of_mem_paths hq).length_le
      rw [List.flatMap_congr hOne, namesAt_nil, List.map_map, List.append_nil]
      exact List.map_eq_flatMap.symm
    | cons first r =>
      have hChild : t.inner.flatMap
          (fun c => (paths (path ++ [c.name]) c).filter (Path.isChild (path ++ first :: r))) =
            ((t.child? first).map fun c =>
              (paths (path ++ [c.name]) c).filter (Path.isChild (path ++ first :: r))).getD [] := by
        refine flatMap_child? h.names first _ fun c _ hName => List.filter_eq_nil_iff.2 ?_
        intro q hq hChild
        obtain ⟨name, rfl⟩ := TableStep.eq_concat_of_isChild hChild
        exact hName (eq_of_concats (prefix_of_mem_paths hq) ⟨r ++ [name], by simp⟩)
      rw [hChild, namesAt_cons]
      cases hFound : t.child? first with
      | none => rfl
      | some c =>
        have hc : c ∈ t.inner := List.mem_of_find?_eq_some hFound
        obtain rfl : c.name = first := by simpa using List.find?_some hFound
        have hInner := ih c hc (h.inner hc) (path ++ [c.name]) r
        simpa using hInner

theorem paths_inside (h : t.Apart) (hp : p ∈ paths path t) :
    ∃ before inner after, paths path t = before ++ p :: inner ++ after ∧
      (∀ q ∈ inner, p <+: q ∧ q ≠ p) ∧ ∀ q ∈ before ++ after, ¬p <+: q := by
  induction t using inner_induction generalizing path with
  | _ t ih =>
    have hNodup := nodup_paths h path
    rw [paths_eq] at hp hNodup ⊢
    obtain rfl | hp := List.mem_cons.1 hp
    · refine ⟨[], _, [], (List.append_nil _).symm, fun q hq => ⟨?_, ?_⟩, by simp⟩
      · obtain ⟨c, _, hq⟩ := List.mem_flatMap.1 hq
        exact (List.prefix_append _ _).trans (prefix_of_mem_paths hq)
      · exact ne_of_mem_of_not_mem hq (List.nodup_cons.1 hNodup).1
    · obtain ⟨c, hc, hp⟩ := List.mem_flatMap.1 hp
      obtain ⟨before, inner, after, hEq, hInner, hOuter⟩ := ih c hc (h.inner hc) hp
      obtain ⟨first, rest, hSplit⟩ := List.append_of_mem hc
      have hNames := h.names
      rw [hSplit, List.map_append, List.map_cons, List.nodup_middle, List.nodup_cons,
        ← List.map_append] at hNames
      -- No scope beside the one that leads to `p` leads to it too.
      have hBeside {q : Path} {d : Scope} (hd : d ∈ first ++ rest)
          (hq : q ∈ paths (path ++ [d.name]) d) : ¬p <+: q := by
        intro hpq
        have hSame := eq_of_concats ((prefix_of_mem_paths hp).trans hpq) (prefix_of_mem_paths hq)
        exact hNames.1 (hSame ▸ List.mem_map_of_mem hd)
      refine ⟨path :: first.flatMap (fun d => paths (path ++ [d.name]) d) ++ before, inner,
        after ++ rest.flatMap (fun d => paths (path ++ [d.name]) d), ?_, hInner, fun q hq => ?_⟩
      · rw [hSplit, List.flatMap_append, List.flatMap_cons, hEq]
        simp
      · simp only [List.mem_append, List.mem_cons, List.mem_flatMap] at hq hOuter
        rcases hq with ((rfl | ⟨d, hd, hq⟩) | hq) | hq | ⟨d, hd, hq⟩
        · intro hpq
          simpa using ((prefix_of_mem_paths hp).trans hpq).length_le
        · exact hBeside (List.mem_append_left _ hd) hq
        · exact hOuter q (.inl hq)
        · exact hOuter q (.inr hq)
        · exact hBeside (List.mem_append_right _ hd) hq

end Scope

namespace TableStep

open Scope

theorem apart_table (steps : List TableStep) : (table steps).Apart := nodup_namesAt steps

theorem walk_table (steps : List TableStep) :
    DepthFirst (opened steps) (((table steps).walk []).map (·.1)) where
  once := nodup_paths (apart_table steps) []
  all := by
    refine (List.perm_ext_iff_of_nodup (nodup_paths (apart_table steps) []) (nodup_opened steps)).2
      fun path => ?_
    rw [← isSome_at?_table, Option.isSome_iff_exists, paths, List.mem_map]
    constructor
    · rintro ⟨⟨q, s⟩, hMem, rfl⟩
      obtain ⟨r, rfl, hr⟩ := (mem_walk (apart_table steps)).1 hMem
      exact ⟨s, hr⟩
    · rintro ⟨s, hs⟩
      exact ⟨(path, s), (mem_walk (apart_table steps)).2 ⟨path, rfl, hs⟩, rfl⟩
  children parent := by
    rw [← namesAt_table]
    exact paths_filter_isChild (apart_table steps) [] parent
  inside _ hp := paths_inside (apart_table steps) hp

/-- Whatever scopes are opened and whatever names are declared in them, the table shows just that, and
to look a name up leaves the whole state as it is. -/
theorem table_shows (steps : List TableStep) :
    (table steps).Shows steps ∧ ∀ path name (s : State),
      (Check.find path name).ending s = (s.store.table.find path name, s) ∧
        (Check.findIn path name).ending s = (s.store.table.findIn path name, s) := by
  refine ⟨?_, fun path name s => ⟨?_, ?_⟩⟩
  · exact {
      find_qualified := fun _ _ _ => find_qualified_table
      find_simple := fun _ _ _ => find_simple_table
      findIn := fun _ _ _ => findIn_table
      isDeclaredIn := fun _ _ _ => isDeclaredIn_table
      symbols := symbols_table steps
      walk := walk_table steps
      walk_at := fun path s hMem => by
        obtain ⟨r, rfl, hr⟩ := (mem_walk (apart_table steps)).1 hMem
        exact hr }
  · rw [Check.find, Check.ending_bind]
    change Check.ending (Check.orFault (s.store.table.find path name)) s = _
    cases s.store.table.find path name <;> rfl
  · rw [Check.findIn, Check.ending_bind]
    change Check.ending (Check.orFault (s.store.table.findIn path name)) s = _
    cases s.store.table.findIn path name <;> rfl

end TableStep

end Assay
