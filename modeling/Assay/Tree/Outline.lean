import Assay.Text.Quoted
import Assay.Tree.Node

/-! Outlines: a tree written out with the names of its nodes and of their parts, a line for each. -/

namespace Assay

variable {α : Type}

/-- What is written out: a text as it is, a record with its parts, or a list. -/
inductive Outline where
  | leaf (text : Text)
  | record (name : Text) (parts : List (Text × Outline))
  | list (items : List Outline)

namespace Outline

def quoted (t : Text) : Outline := .leaf (Text.quote t)

def number (n : Nat) : Outline := .leaf (Text.ofNat n)

def truth (b : Bool) : Outline := .leaf (if b then "true" else "false")

def part (name : Text) (o : Outline) : List (Text × Outline) := [(name, o)]

/-- A part that is a list; an empty one is left out. -/
def items (name : Text) (xs : List Outline) : List (Text × Outline) :=
  if xs.isEmpty then [] else [(name, .list xs)]

/-- A node, which starts with a mark for what is not written out. -/
def node (name : Text) (parts : List (List (Text × Outline))) : Outline :=
  .record name (("Meta", .leaf "Meta\x7b\x7d") :: parts.flatten)

mutual

/-- The text of an outline, with the lines after the first one indented. -/
def render (indent : Text) : Outline → Text
  | .leaf text => text
  | .record name parts =>
    name ++ "\x7b\n" ++ renderParts (indent ++ "    ") parts ++ indent ++ "\x7d"
  | .list items => "[\n" ++ renderItems (indent ++ "    ") items ++ indent ++ "]"

/-- The lines of the parts of a record. -/
def renderParts (indent : Text) : List (Text × Outline) → Text
  | [] => []
  | (name, part) :: rest =>
    indent ++ name ++ ": " ++ part.render indent ++ "\n" ++ renderParts indent rest

/-- The lines of the items of a list. -/
def renderItems (indent : Text) : List Outline → Text
  | [] => []
  | item :: rest => indent ++ item.render indent ++ "\n" ++ renderItems indent rest

end

def toText (o : Outline) : Text := o.render []

mutual

def ofSpec : TypeSpec α → Outline
  | .simple _ name args =>
    node "TypeSpecSimple" [part "Type" (quoted name), items "Args" (ofSpecs args)]
  | .union _ types => node "TypeSpecUnion" [items "Types" (ofSpecs types)]
  | .inter _ types => node "TypeSpecIntersection" [items "Types" (ofSpecs types)]
  | .func _ params result =>
    node "TypeSpecFunction" [items "Params" (ofSpecs params), part "Return" (ofSpec result)]
  | .inferred _ => node "TypeSpecInferred" []

def ofSpecs : List (TypeSpec α) → List Outline
  | [] => []
  | s :: rest => ofSpec s :: ofSpecs rest

end

def ofReference (r : Reference α) : Outline :=
  node "Reference" [part "Name" (quoted r.name), part "AllowForward" (truth r.forward)]

def ofTypeParam (p : TypeParam α) : Outline := node "TypeParameter" [part "Name" (quoted p.name)]

def ofParam (p : Param α) : Outline :=
  node "Parameter" [part "Name" (quoted p.name), part "Type" (ofSpec p.spec)]

mutual

def ofValue : Value α → Outline
  | .string _ t => node "StringValue" [part "Value" (quoted t)]
  | .number _ digits => node "NumberValue" [part "Value" (quoted digits)]
  | .boolean _ b => node "BooleanValue" [part "Value" (truth b)]
  | .nothing _ => node "NoneValue" []
  | .ident _ ref => node "IdentifierValue" [part "Ref" (ofReference ref)]
  | .bind _ mode name s v =>
    node "NewAssignmentValue" [part "Mode" (number mode.code), part "Name" (quoted name),
      part "Type" (ofSpec s), part "Value" (ofValue v)]
  | .assign _ ref v =>
    node "DirectAssignmentValue" [part "Ref" (ofReference ref), part "Value" (ofValue v)]
  | .assignMember _ receiver ref v =>
    node "IndirectAssignmentValue" [part "Indirect" (ofValue receiver),
      part "Ref" (ofReference ref), part "Value" (ofValue v)]
  | .call _ ref typeArgs args =>
    node "MethodCallValue" [part "Ref" (ofReference ref), items "TypeArgs" (ofSpecs typeArgs),
      items "Args" (ofValues args)]
  | .nested _ outer inner =>
    node "NestedValue" [part "Outer" (ofValue outer), part "Inner" (ofValue inner)]
  | .function _ typeParams params result body =>
    node "FunctionValue" [items "TypeParams" (typeParams.map ofTypeParam),
      items "Params" (params.map ofParam), part "ReturnType" (ofSpec result),
      items "Statements" (ofStatements body)]

def ofValues : List (Value α) → List Outline
  | [] => []
  | v :: rest => ofValue v :: ofValues rest

def ofStatement : Statement α → Outline
  | ⟨_, v, last⟩ => node "Statement" [part "Value" (ofValue v), part "Last" (truth last)]

def ofStatements : List (Statement α) → List Outline
  | [] => []
  | s :: rest => ofStatement s :: ofStatements rest

end

def ofSignature (s : Signature α) : Outline :=
  node "MethodSignature" [part "Visibility" (number s.visibility.code), part "Name" (quoted s.name),
    items "TypeParams" (s.typeParams.map ofTypeParam), items "Params" (s.params.map ofParam),
    part "ReturnType" (ofSpec s.result)]

def ofMethod (m : Method α) : Outline :=
  node "Method" [part "Signature" (ofSignature m.signature),
    items "Statements" (ofStatements m.body)]

def ofAttribute (a : Attribute α) : Outline :=
  node "Attribute" [part "Mode" (number a.mode.code), part "Name" (quoted a.name),
    part "Type" (ofSpec a.spec),
    match a.value with
    | some v => part "Value" (ofValue v)
    | none => []]

def ofTop : TopLevel α → Outline
  | .ofType d =>
    node "Type" [part "Visibility" (number d.visibility.code), part "Name" (quoted d.name),
      items "TypeParams" (d.typeParams.map ofTypeParam), part "SuperType" (ofSpec d.super),
      items "Methods" (d.methods.map ofSignature)]
  | .ofClass d =>
    node "Class" [part "Visibility" (number d.visibility.code), part "Name" (quoted d.name),
      items "TypeParams" (d.typeParams.map ofTypeParam), part "SuperType" (ofSpec d.super),
      items "Attributes" (d.attributes.map ofAttribute), items "Methods" (d.methods.map ofMethod)]

def ofUse (u : Use α) : Outline :=
  node "Use" [part "From" (quoted u.source), part "To" (quoted u.name)]

def ofRoot (r : Root α) : Outline :=
  node "Root" [part "Namespace" (quoted r.space), items "Uses" (r.uses.map ofUse),
    part "Top" (ofTop r.top)]

end Outline

end Assay
