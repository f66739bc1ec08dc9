import Assay.Check.Inference
import Assay.Check.Placement
import Assay.Tree.Revision

/-! Checking a source: its scopes are opened and its nodes linked, its types discovered and brought
into full, flat form, its names resolved and its types inferred. -/

namespace Assay

/-- A change of a source. The nodes of the new tree take over what is known of the old ones and are
linked. -/
def Check.update (r : Root Meta) (change : Revision (Root Meta)) : Check (Root Meta) := do
  match ← Check.revise (change r) with
  | none => return r
  | some changed =>
    Check.modifyStore fun st => (st.renew r changed).link (.root changed)
    return changed

/-- Opens the scopes of a source and puts its nodes into them. -/
def Root.openScopes (r : Root Meta) : Check (Root Meta) :=
  Check.traced ("initScopes(" ++ r.fullName ++ ")") (fun _ => []) do
    Check.modifyStore fun st =>
      { st with table := r.scopes.foldl (fun table path => table.openAt path) st.table }
    return r.place

def Root.qualify (r : Root Meta) : Check (Root Meta) := do
  Check.traced ("qualify(" ++ r.fullName ++ ")") (fun _ => []) do
    Check.update r (Root.qualify? (← Check.store).table)

def Root.flatten (r : Root Meta) : Check (Root Meta) := do
  Check.traced ("flatten(" ++ r.fullName ++ ")") (fun _ => []) do
    Check.update r Root.flatten?

/-- Checks a source and gives its tree with full, flat types, and what is wrong with it in the order
of the text. A source that declares a type a second time is not checked further. -/
def Root.check (load : Load) (r : Root Meta) : Check (Root Meta × List Diagnostic) :=
  Check.traced ("check(" ++ r.fullName ++ ")") (·.2) do
    let r ← r.openScopes
    Check.modifyStore (·.link (.root r))
    let found ← r.discover load
    match (← Check.store).declaredBy? r.top with
    | none => return (r, Diagnostic.sort found)
    | some _ =>
      let r ← r.qualify
      let r ← r.flatten
      let names ← r.resolveNames
      let types ← r.infer
      return (r, Diagnostic.sort (found ++ names ++ types))

def Check.loadListed : Load :=
  fun name trigger => do Check.ask name (some trigger) (← get).config.loaders

end Assay
