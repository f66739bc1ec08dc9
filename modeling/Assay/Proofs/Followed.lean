import Mathlib
import Assay.Proofs.Sound

/-! Chains of aliases. In a table that was made by declarations a chain is the same from each of its
symbols on. It ends at a symbol that is no alias, or at an alias whose target is missing or cannot be
looked up, or it goes round; and following it ends in each of these cases. -/

namespace Assay

open Relation

namespace Scope

variable {t : Scope} {symbol next last : Symbol}

def Holds (t : Scope) (symbol : Symbol) : Prop := ∃ path key n, t.Entry path key n symbol

/-- A table that was made by opening scopes and declaring symbols. The number of an alias tells it
from all others. -/
inductive Built : Scope → Prop
  | empty : Built .table
  | opened {t : Scope} (h : Built t) (path : Path) : Built (t.openAt path)
  | declared {t : Scope} (h : Built t) (path : Path) (name : Name) (symbol : Symbol)
    (hAlias : ∀ id target decl, symbol = .alias id target decl →
      ∀ target' decl', t.Holds (.alias id target' decl') → target' = target ∧ decl' = decl) :
    Built (t.declare path name symbol).1

theorem not_holds_table : ¬Scope.table.Holds symbol := by
  rintro ⟨path, _, _, b, hb, _⟩
  rw [Scope.table, bindingsAt_empty] at hb
  cases hb

/-- If the symbol is an alias, then no other alias of the table has its number. -/
def Own (t : Scope) (symbol : Symbol) : Prop :=
  ∀ id target decl, symbol = .alias id target decl →
    ∀ target' decl', t.Holds (.alias id target' decl') → target' = target ∧ decl' = decl

theorem leads_unique : Relator.RightUnique t.Leads := by
  rintro _ next next' ⟨id, target, decl, rest, rfl, hNext⟩ ⟨_, _, _, _, hEq, hNext'⟩
  cases hEq
  exact (List.cons.inj (Except.ok.inj (hNext.symm.trans hNext'))).1

theorem Leads.holds (h : t.Leads symbol next) : t.Holds next := by
  obtain ⟨_, _, _, _, _, hNext⟩ := h
  obtain ⟨q, key, n, _, _, hEntry⟩ := entry_of_mem_find hNext List.mem_cons_self
  exact ⟨q, key, n, hEntry⟩

theorem holds_of_reaches (h : ReflTransGen t.Leads symbol last) : last = symbol ∨ t.Holds last := by
  cases h with
  | refl => exact .inl rfl
  | tail _ h => exact .inr h.holds

namespace Stops

variable {result result' : Except Fault Symbol}

theorem not_leads (h : t.Stops symbol result) (next : Symbol) : ¬t.Leads symbol next := by
  rintro ⟨id, target, decl, rest, rfl, hNext⟩
  cases h with
  | plain h => cases h
  | missing h | lost h => cases h.symm.trans hNext

theorem unique (h : t.Stops symbol result) (h' : t.Stops symbol result') : result = result' := by
  cases h with
  | plain h =>
    cases h' with
    | plain => rfl
    | missing | lost => cases h
  | missing h =>
    cases h' with
    | plain | missing => rfl
    | lost h' => cases h.symm.trans h'
  | lost h =>
    cases h' with
    | plain h' => cases h'
    | missing h' => cases h.symm.trans h'
    | lost h' => exact congrArg Except.error (Except.error.inj (h.symm.trans h'))

theorem reached (h : t.Stops last result) (hLast : ReflTransGen t.Leads symbol last)
    (hNext : ReflTransGen t.Leads symbol next) : ReflTransGen t.Leads next last := by
  obtain hWay | hWay := ReflTransGen.total_of_right_unique leads_unique hNext hLast
  · exact hWay
  · obtain rfl | ⟨_, hLeads, _⟩ := hWay.cases_head
    · exact .refl
    · exact absurd hLeads (h.not_leads _)

end Stops

theorem round_of_reaches (h : TransGen t.Leads symbol symbol) (hNext : ReflTransGen t.Leads symbol next) :
    TransGen t.Leads next next := by
  induction hNext with
  | refl => exact h
  | tail _ hLeads ih =>
    obtain ⟨other, hOther, hBack⟩ := TransGen.head'_iff.1 ih
    obtain rfl := leads_unique hOther hLeads
    exact .tail' hBack hLeads

namespace Built

theorem holds_of_declare {path : Path} {name : Name} {symbol other : Symbol}
    (h : (t.declare path name symbol).1.Holds other) : t.Holds other ∨ other = symbol := by
  obtain ⟨q, key, n, hEntry⟩ := h
  obtain hOld | ⟨_, _, _, _, rfl⟩ := entry_of_declare hEntry
  · exact .inl ⟨q, key, n, hOld⟩
  · exact .inr rfl

theorem alias_unique (h : t.Built) {id : Nat} {target target' : Text}
    {decl decl' : Option (Node Meta)} (hOne : t.Holds (.alias id target decl))
    (hOther : t.Holds (.alias id target' decl')) : target' = target ∧ decl' = decl := by
  induction h with
  | empty => exact absurd hOne not_holds_table
  | @opened t _ path ih =>
    have hSame {symbol : Symbol} (hHolds : (t.openAt path).Holds symbol) : t.Holds symbol := by
      obtain ⟨q, key, n, b, hb, hMember⟩ := hHolds
      rw [bindingsAt_openAt] at hb
      exact ⟨q, key, n, b, hb, hMember⟩
    exact ih (hSame hOne) (hSame hOther)
  | declared _ path name symbol hAlias ih =>
    obtain hOne | hOne := holds_of_declare hOne <;> obtain hOther | hOther := holds_of_declare hOther
    · exact ih hOne hOther
    · obtain ⟨rfl, rfl⟩ := hAlias id target' decl' hOther.symm target decl hOne
      exact ⟨rfl, rfl⟩
    · exact hAlias id target decl hOne.symm target' decl' hOther
    · obtain ⟨_, hTarget, hDecl⟩ := Symbol.alias.inj (hOther.trans hOne.symm)
      exact ⟨hTarget, hDecl⟩

theorem own (h : t.Built) (hHere : t.Holds symbol) : t.Own symbol := by
  rintro id target decl rfl target' decl' hOther
  exact h.alias_unique hHere hOther

theorem own_of_reaches (h : t.Built) (hOwn : t.Own symbol) (hLast : ReflTransGen t.Leads symbol last) :
    t.Own last := by
  obtain rfl | hHolds := holds_of_reaches hLast
  · exact hOwn
  · exact h.own hHolds

theorem eq_of_aliasId? (h : t.Built) (hOwn : t.Own symbol) (hNext : ReflTransGen t.Leads symbol next)
    (hLast : ReflTransGen t.Leads symbol last) {other : Symbol} (hLeads : t.Leads next other)
    (hSame : next.aliasId? = last.aliasId?) : next = last := by
  obtain ⟨id, target, decl, _, rfl, _⟩ := hLeads
  cases last with
  | «alias» id' target' decl' =>
    obtain rfl := Option.some.inj hSame
    obtain hEq | hHolds := holds_of_reaches hLast
    · obtain hEq' | hHolds' := holds_of_reaches hNext
      · exact hEq'.trans hEq.symm
      · obtain ⟨rfl, rfl⟩ := hOwn id target' decl' hEq.symm target decl hHolds'
        rfl
    · obtain ⟨rfl, rfl⟩ := h.own_of_reaches hOwn hNext id target decl rfl target' decl' hHolds
      rfl
  | _ => cases hSame

theorem followAliases_cases (h : t.Built) (hOwn : t.Own symbol) :
    ∃ last, ReflTransGen t.Leads symbol last ∧ (t.Stops last (t.followAliases symbol) ∨
      t.followAliases symbol = .ok last ∧ TransGen t.Leads last last) := by
  obtain ⟨last, hLast, hStops | ⟨hEq, a, hSame, hNext, hWay⟩⟩ := followAliases_stops (t := t) symbol
  · exact ⟨last, hLast, .inl hStops⟩
  · obtain ⟨other, hLeads, _⟩ := TransGen.head'_iff.1 hWay
    obtain rfl := h.eq_of_aliasId? hOwn hNext hLast hLeads hSame
    exact ⟨a, hLast, .inr ⟨hEq, hWay⟩⟩

theorem followAliases_of_stops (h : t.Built) (hOwn : t.Own symbol)
    (hLast : ReflTransGen t.Leads symbol last) {result : Except Fault Symbol}
    (hStops : t.Stops last result) : t.followAliases symbol = result := by
  obtain ⟨other, hOther, hEnd | ⟨-, hRound⟩⟩ := h.followAliases_cases hOwn
  · obtain rfl | ⟨_, hLeads, _⟩ := (hStops.reached hLast hOther).cases_head
    · exact hEnd.unique hStops
    · exact absurd hLeads (hEnd.not_leads _)
  · obtain ⟨_, hLeads, _⟩ := TransGen.head'_iff.1 (round_of_reaches hRound (hStops.reached hLast hOther))
    exact absurd hLeads (hStops.not_leads _)

/-- Following aliases ends, whatever they lead to. If nothing follows on a symbol of the chain, then
each symbol of the chain, this last one included, gives the last one, or the fault of looking up its
target. Otherwise the chain goes round, and it is cut at an alias of the round. -/
theorem followAliases_exact (h : t.Built) (hOwn : t.Own symbol) :
    (∀ last result, ReflTransGen t.Leads symbol last → t.Stops last result →
      ∀ next, ReflTransGen t.Leads symbol next → t.followAliases next = result) ∧
    ((∀ last result, ReflTransGen t.Leads symbol last → ¬t.Stops last result) →
      ∃ last, t.followAliases symbol = .ok last ∧ ReflTransGen t.Leads symbol last ∧
        TransGen t.Leads last last) := by
  refine ⟨fun last result hLast hStops next hNext => ?_, fun hNever => ?_⟩
  · exact h.followAliases_of_stops (h.own_of_reaches hOwn hNext) (hStops.reached hLast hNext) hStops
  · obtain ⟨last, hLast, hStops | ⟨hEq, hRound⟩⟩ := h.followAliases_cases hOwn
    · exact absurd hStops (hNever last _ hLast)
    · exact ⟨last, hEq, hLast, hRound⟩

theorem followAliases_round :
    let a : Symbol := .alias 1 "B" none
    let b : Symbol := .alias 2 "A" none
    let t := ((Scope.table.declare [] (Name.ofText "A") a).1.declare [] (Name.ofText "B") b).1
    t.Built ∧ t.Own a ∧ ∃ last, t.followAliases a = .ok last ∧ TransGen t.Leads last last := by
  intro a b t
  have hBuilt : t.Built := by
    refine .declared (.declared .empty _ _ _ fun _ _ _ _ _ _ h => absurd h not_holds_table) _ _ _ ?_
    rintro id target decl hEq target' decl' hHolds
    obtain hHolds | hOther := holds_of_declare hHolds
    · exact absurd hHolds not_holds_table
    · exact absurd ((Symbol.alias.inj hEq).1.trans (Symbol.alias.inj hOther).1) (by decide)
  have hFirst : t.find [] (Name.ofText "B") = .ok [b] := rfl
  have hSecond : t.find [] (Name.ofText "A") = .ok [a] := rfl
  have hOwn : t.Own a := hBuilt.own (Leads.holds ⟨2, "A", none, [], rfl, hSecond⟩)
  have hReached {last : Symbol} (hLast : ReflTransGen t.Leads a last) : last = a ∨ last = b := by
    induction hLast with
    | refl => exact .inl rfl
    | tail _ hLeads ih =>
      obtain rfl | rfl := ih
      · exact .inr (leads_unique hLeads ⟨1, "B", none, [], rfl, hFirst⟩)
      · exact .inl (leads_unique hLeads ⟨2, "A", none, [], rfl, hSecond⟩)
  obtain ⟨last, hEq, -, hRound⟩ := (followAliases_exact hBuilt hOwn).2 fun last result hLast hStops => by
    obtain rfl | rfl := hReached hLast
    · exact hStops.not_leads b ⟨1, "B", none, [], rfl, hFirst⟩
    · exact hStops.not_leads a ⟨2, "A", none, [], rfl, hSecond⟩
  exact ⟨hBuilt, hOwn, last, hEq, hRound⟩

/-- An alias with a target that cannot be looked up gives a fault, and not itself. -/
theorem followAliases_faults :
    let a : Symbol := .alias 1 "f(" none
    (Scope.table.declare [] (Name.ofText "A") a).1.followAliases a = .error .outOfBounds := by
  rfl

end Built

end Scope

end Assay
