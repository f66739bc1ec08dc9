import Assay.Tree

/-! The texts of types and signatures. Two types are compared by their texts, and methods are
declared and called under names that are built from them. -/

namespace Assay

variable {α : Type}

mutual

def TypeSpec.toText : TypeSpec α → Text
  | .simple _ name args =>
    if args.isEmpty then name
    else name ++ "[" ++ Text.join ", " (TypeSpec.texts args) ++ "]"
  | .union _ types => "(" ++ Text.join " | " (TypeSpec.texts types) ++ ")"
  | .inter _ types => "(" ++ Text.join " & " (TypeSpec.texts types) ++ ")"
  | .func _ params result =>
    "(" ++ Text.join ", " (TypeSpec.texts params) ++ "): " ++ result.toText
  | .inferred _ => "[inferred]"

def TypeSpec.texts : List (TypeSpec α) → List Text
  | [] => []
  | s :: rest => s.toText :: TypeSpec.texts rest

end

/-- The text of a parameter: its name and its type. -/
def Param.toText (p : Param α) : Text := p.name ++ ": " ++ p.spec.toText

/-- The name that a method is declared under: its name and the types of its parameters. -/
def Signature.symbolName (s : Signature α) : Text :=
  s.name ++ "(" ++ Text.join "," (s.params.map (·.spec.toText)) ++ ")"

def Signature.toText (s : Signature α) : Text :=
  let typeParams : Text :=
    if s.typeParams.isEmpty then ""
    else "[" ++ Text.join ", " (s.typeParams.map (·.name)) ++ "]"
  s.visibility.label ++ " " ++ s.name ++ typeParams ++ "(" ++
    Text.join ", " (s.params.map (·.toText)) ++ "): " ++ s.result.toText

/-- The name that the methods a call can mean are found under: the name called and a placeholder
for each argument. -/
def callName (name : Text) (arity : Nat) : Text :=
  name ++ "(" ++ Text.join "," (List.replicate arity "_") ++ ")"

end Assay
