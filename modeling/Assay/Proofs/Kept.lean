import Mathlib
import Assay.Proofs.Calls

/-! What becomes of a unit that is compiled. Later calls leave its record, its tree and the symbols of
its references as they are, and the types of its nodes too, but for one case: a later unit that assigns
to the name of a type widens the type of its declaration. -/

namespace Assay

open Check (ending)

/-- An assignment in a unit that was compiled since stands for the type whose node has the given
number. -/
def State.Assigned (s s' : State) (id : Nat) : Prop :=
  ∃ u ∈ s'.units, u ∉ s.units ∧ u.status = .compiled ∧ ∃ r, u.root = some r ∧
    ∃ m ref v, Node.value (.assign m ref v) ∈ (Node.root r).nodes ∧
      ∃ symbol n, (ref.ann.id, [symbol]) ∈ s'.store.refs ∧ s'.store.decl? symbol = some n ∧
        n.IsType ∧ n.ann.id = id

theorem Sound.assigned {plain : Plain} {s s' : State} (h : Sound plain s.world) {id : Nat}
    (hAssigns : s'.world.Assigns (· < s.store.next) (fun _ => False) id) : s.Assigned s' id := by
  obtain ⟨r, hTree, hAssign⟩ := hAssigns
  obtain ⟨u, hu, hStatus, hRoot, hClear⟩ := hTree.resolve_left fun h => h
  -- The nodes of a unit that was there before have smaller numbers.
  have hNew : u ∉ s.units := fun hOld => hClear.self (h.roots u hOld r hRoot).self
  exact ⟨u, hu, hNew, hStatus, r, hRoot, hAssign⟩

namespace Call

/-- A unit that is compiled stays as it is over any later calls, with its tree and what is wrong with
it, and on each node of the tree the symbols stay as they are, and so does the type, unless a unit
that was compiled since assigns to that node as to a type. -/
theorem compiled_unit_kept {config : Config} (hLoaders : ∀ l ∈ config.loaders, l.Bare True)
    {calls later : List Call} (hSpaced : ∀ c ∈ calls ++ later, c.Spaced) {s s' : State}
    (hs : s = after calls (.start config)) (hs' : s' = after later s) {u : SourceUnit}
    (hu : u ∈ s.units) (hStatus : u.status = .compiled) :
    u ∈ s'.units ∧ ∀ r, u.root = some r → ∀ n ∈ (Node.root r).nodes,
      s'.store.refsOf? n.ann.id = s.store.refsOf? n.ann.id ∧
        (¬s.Assigned s' n.ann.id → s'.store.typeOf? n.ann.id = s.store.typeOf? n.ann.id) := by
  have hSettled : Settled (.of True) s.world := by
    rw [hs]
    exact (after_comes (fun _ c hc => hSpaced c (List.mem_append_left _ hc))
      (.start hLoaders fun _ _ _ _ _ _ => trivial)).settled
  have hLater : Later True (· < s.store.next) s.world s'.world := by
    rw [hs']
    exact (after_comes (fun _ c hc => hSpaced c (List.mem_append_right _ hc)) hSettled).later
  refine ⟨hLater.mem_units hu (by simp [hStatus]), fun r hr n hn => ?_⟩
  have hId : n.ann.id < s.store.next := hSettled.sound.roots u hu r hr n hn
  refine ⟨hLater.refs trivial _ hId, fun hNone => ?_⟩
  exact (hLater.types trivial _ hId).resolve_right
    fun hAssigns => hNone (hSettled.sound.assigned hAssigns)

/-- Where a class that is compiled is assigned to by its name in another one, its record and its
symbols stay, and its type is widened. -/
theorem compiled_unit_kept_but_widened :
    let s := after [add "p.A" "p" "A.th" "class A { }",
      add "p.B" "p" "B.th" "class B { m() { A = 1 } }", compile "p.A"] (.start .default)
    let s' := after [compile "p.B"] s
    ∃ u r, u ∈ s.units ∧ u.status = .compiled ∧ u.root = some r ∧ u ∈ s'.units ∧
      (∀ n ∈ (Node.root r).nodes, s'.store.refsOf? n.ann.id = s.store.refsOf? n.ann.id ∧
        (¬s.Assigned s' n.ann.id → s'.store.typeOf? n.ann.id = s.store.typeOf? n.ann.id)) ∧
      (s.store.typeOf? r.top.ann.id).map (·.toText) = some "(org.thoriumlang.Object | p.A)" ∧
      (s'.store.typeOf? r.top.ann.id).map (·.toText) =
        some "((org.thoriumlang.Object | p.A) & org.thoriumlang.Number)" := by
  intro s s'
  have hLoaders : ∀ l ∈ Config.default.loaders, l.Bare True := fun l hl => by
    obtain rfl := List.mem_singleton.1 hl
    exact Loader.Standard.bare trivial
  have hSpace : Text.Spaced "p" := .inr (by decide +kernel)
  have hSpaced : ∀ c ∈ [add "p.A" "p" "A.th" "class A { }",
      add "p.B" "p" "B.th" "class B { m() { A = 1 } }", compile "p.A"] ++ [compile "p.B"],
      c.Spaced := by
    simp [Spaced, hSpace]
  obtain ⟨u, hFind, hStatus⟩ : ∃ u, s.unit? "p.A" = some u ∧ u.status = .compiled :=
    Option.map_eq_some_iff.1 (by decide +kernel)
  have hTypes : (s.unit? "p.A").map (fun u => u.root.map fun r =>
      ((s.store.typeOf? r.top.ann.id).map (·.toText),
        (s'.store.typeOf? r.top.ann.id).map (·.toText))) =
      some (some (some ("(org.thoriumlang.Object | p.A)" : Text),
        some ("((org.thoriumlang.Object | p.A) & org.thoriumlang.Number)" : Text))) := by
    decide +kernel
  rw [hFind] at hTypes
  obtain ⟨r, hRoot, hBoth⟩ := Option.map_eq_some_iff.1 (Option.some.inj hTypes)
  obtain ⟨hBefore, hAfter⟩ := Prod.mk.inj hBoth
  have hu : u ∈ s.units := List.mem_of_find?_eq_some hFind
  obtain ⟨hMem, hNodes⟩ := compiled_unit_kept hLoaders hSpaced rfl rfl hu hStatus
  exact ⟨u, r, hu, hStatus, hRoot, hMem, hNodes r hRoot, hBefore, hAfter⟩

end Call

end Assay
