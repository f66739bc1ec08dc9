import Assay.Text

/-! Faults: what stops a computation whose own assumptions do not hold. A fault is no diagnostic of
a source; checking a source that was parsed raises none. -/

namespace Assay

/-- The ways in which an assumption can fail. -/
inductive Fault where
  /-- A case that no caller should produce. -/
  | impossible
  /-- A slice, an index or an absent record was used as if it were there. -/
  | outOfBounds
  /-- A text was to be repeated fewer than zero times. -/
  | negativeRepeat
  /-- A node has no scope yet. -/
  | noScope
  /-- A node is not linked to its parent yet. -/
  | notLinked
  /-- An attribute that an earlier step should have set is missing. -/
  | missingAttribute (key : Text)
  /-- A candidate of an overload set does not have the arity of the call. -/
  | arityMismatch (candidate : Text) (params args : Nat)
  /-- A node of this kind cannot declare a name. -/
  | notADeclaration (kind : Text)
  /-- A recursion went deeper than the bound that was computed for it. -/
  | exhausted

def Fault.message? : Fault → Option Text
  | .impossible => some "impossible"
  | .outOfBounds => none
  | .negativeRepeat => some "strings: negative Repeat count"
  | .noScope => some "scope not initialized"
  | .notLinked => some "relatives not linked"
  | .missingAttribute key => some ("required context attribute " ++ key ++ " not found")
  | .arityMismatch candidate params args =>
    some ("candidate " ++ candidate ++ " has " ++ Text.ofNat params ++
      " parameters, the call has " ++ Text.ofNat args ++ " arguments")
  | .notADeclaration kind => some ("impossible declaration type: " ++ kind)
  | .exhausted => none

end Assay
