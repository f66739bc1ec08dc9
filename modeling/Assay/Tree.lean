import Assay.Text

/-! The syntax tree. Every node carries an annotation of one type `α`: the extent of its tokens when
it is parsed, its identity and position afterwards, nothing when only the shape counts. -/

namespace Assay

/-- From where a declaration can be seen. -/
inductive Visibility where
  | namespaced
  | everywhere
  | hidden
deriving DecidableEq

def Visibility.label : Visibility → Text
  | .namespaced => "namespace"
  | .everywhere => "public"
  | .hidden => "private"

def Visibility.code : Visibility → Nat
  | .namespaced => 0
  | .everywhere => 1
  | .hidden => 2

def Visibility.ofCode? (n : Int) : Option Visibility :=
  [namespaced, everywhere, hidden].find? (·.code = n)

/-- Whether an attribute or a variable can be assigned again. -/
inductive Mode where
  | val
  | var
deriving DecidableEq

def Mode.label : Mode → Text
  | .val => "val"
  | .var => "var"

def Mode.code : Mode → Nat
  | .val => 0
  | .var => 1

/-- The mode with the given number; every number but one means `val`. -/
def Mode.ofCode (n : Int) : Mode := if n = 1 then .var else .val

/-- A type as it is written. -/
inductive TypeSpec (α : Type) where
  /-- A name, with type arguments if there are any. -/
  | simple (ann : α) (name : Text) (args : List (TypeSpec α))
  /-- Any one of several types. -/
  | union (ann : α) (types : List (TypeSpec α))
  /-- Several types at once. -/
  | inter (ann : α) (types : List (TypeSpec α))
  /-- The type of a function. -/
  | func (ann : α) (params : List (TypeSpec α)) (result : TypeSpec α)
  /-- A type that is not written. -/
  | inferred (ann : α)

/-- A use of a name. A forward reference may stand before the declaration of its name. -/
structure Reference (α : Type) where
  ann : α
  name : Text
  forward : Bool

/-- A type variable. -/
structure TypeParam (α : Type) where
  ann : α
  name : Text

/-- A parameter of a method or a function. -/
structure Param (α : Type) where
  ann : α
  name : Text
  spec : TypeSpec α

mutual

/-- An expression. -/
inductive Value (α : Type) where
  /-- A text literal. -/
  | string (ann : α) (text : Text)
  /-- A number literal, as written. -/
  | number (ann : α) (digits : Text)
  /-- One of the two truth values. -/
  | boolean (ann : α) (truth : Bool)
  /-- The value for nothing. -/
  | nothing (ann : α)
  /-- The value of a variable, parameter or attribute. -/
  | ident (ann : α) (ref : Reference α)
  /-- A new local binding and its value. -/
  | bind (ann : α) (mode : Mode) (name : Text) (spec : TypeSpec α) (value : Value α)
  /-- An assignment to a binding in sight. -/
  | assign (ann : α) (ref : Reference α) (value : Value α)
  /-- An assignment to a member of `receiver`. -/
  | assignMember (ann : α) (receiver : Value α) (ref : Reference α) (value : Value α)
  /-- A call of the method that `ref` names. -/
  | call (ann : α) (ref : Reference α) (typeArgs : List (TypeSpec α)) (args : List (Value α))
  /-- `inner` evaluated against `outer`. -/
  | nested (ann : α) (outer inner : Value α)
  /-- A function. -/
  | function (ann : α) (typeParams : List (TypeParam α)) (params : List (Param α))
      (result : TypeSpec α) (body : List (Statement α))

/-- A value in the place of a statement; `last` says whether it ends its body. -/
structure Statement (α : Type) where
  ann : α
  value : Value α
  last : Bool

end

/-- The head of a method, or a method of a type declaration. -/
structure Signature (α : Type) where
  ann : α
  visibility : Visibility
  name : Text
  typeParams : List (TypeParam α)
  params : List (Param α)
  result : TypeSpec α

/-- A method of a class. -/
structure Method (α : Type) where
  ann : α
  signature : Signature α
  body : List (Statement α)

/-- An attribute of a class, with its first value if it has one. -/
structure Attribute (α : Type) where
  ann : α
  mode : Mode
  name : Text
  spec : TypeSpec α
  value : Option (Value α)

/-- The declaration of a type: a supertype and the methods its members must have. -/
structure TypeDecl (α : Type) where
  ann : α
  visibility : Visibility
  name : Text
  typeParams : List (TypeParam α)
  super : TypeSpec α
  methods : List (Signature α)

/-- The declaration of a class. -/
structure ClassDecl (α : Type) where
  ann : α
  visibility : Visibility
  name : Text
  typeParams : List (TypeParam α)
  super : TypeSpec α
  attributes : List (Attribute α)
  methods : List (Method α)

/-- The one declaration of a source. -/
inductive TopLevel (α : Type) where
  | ofType (decl : TypeDecl α)
  | ofClass (decl : ClassDecl α)

/-- The import of the type named `source` under the simple name `name`. -/
structure Use (α : Type) where
  ann : α
  source : Text
  name : Text

/-- A source: what it uses and what it declares. -/
structure Root (α : Type) where
  ann : α
  space : Text
  uses : List (Use α)
  top : TopLevel α

variable {α β : Type}

def TypeSpec.ann : TypeSpec α → α
  | .simple a .. | .union a .. | .inter a .. | .func a .. | .inferred a => a

/-- The same type with another annotation at its outermost node. -/
def TypeSpec.withAnn (s : TypeSpec α) (a : α) : TypeSpec α :=
  match s with
  | .simple _ name args => .simple a name args
  | .union _ types => .union a types
  | .inter _ types => .inter a types
  | .func _ params result => .func a params result
  | .inferred _ => .inferred a

def TypeSpec.isInferred : TypeSpec α → Bool
  | .inferred _ => true
  | _ => false

def Value.ann : Value α → α
  | .string a .. | .number a .. | .boolean a .. | .nothing a | .ident a .. | .bind a .. | .assign a ..
  | .assignMember a .. | .call a .. | .nested a .. | .function a .. => a

def TopLevel.ann : TopLevel α → α
  | .ofType d => d.ann
  | .ofClass d => d.ann

/-- The simple name that a top-level declaration declares. -/
def TopLevel.name : TopLevel α → Text
  | .ofType d => d.name
  | .ofClass d => d.name

/-- The full name that a source declares: its namespace, if it has one, and the simple name. -/
def Root.fullName (r : Root α) : Text :=
  if r.space = [] then r.top.name else r.space ++ "." ++ r.top.name

/-- The type written when a declaration names no supertype. -/
def objectName : Text := "org.thoriumlang.Object"

section Map

variable (f : α → β)

mutual

/-- The same type with every annotation replaced by its image. -/
def TypeSpec.map : TypeSpec α → TypeSpec β
  | .simple a name args => .simple (f a) name (TypeSpec.mapList args)
  | .union a types => .union (f a) (TypeSpec.mapList types)
  | .inter a types => .inter (f a) (TypeSpec.mapList types)
  | .func a params result => .func (f a) (TypeSpec.mapList params) result.map
  | .inferred a => .inferred (f a)

def TypeSpec.mapList : List (TypeSpec α) → List (TypeSpec β)
  | [] => []
  | s :: rest => s.map :: TypeSpec.mapList rest

end

def Reference.map (r : Reference α) : Reference β := ⟨f r.ann, r.name, r.forward⟩

def TypeParam.map (p : TypeParam α) : TypeParam β := ⟨f p.ann, p.name⟩

def Param.map (p : Param α) : Param β := ⟨f p.ann, p.name, p.spec.map f⟩

mutual

def Value.map : Value α → Value β
  | .string a text => .string (f a) text
  | .number a digits => .number (f a) digits
  | .boolean a truth => .boolean (f a) truth
  | .nothing a => .nothing (f a)
  | .ident a ref => .ident (f a) (ref.map f)
  | .bind a mode name spec value => .bind (f a) mode name (spec.map f) value.map
  | .assign a ref value => .assign (f a) (ref.map f) value.map
  | .assignMember a receiver ref value =>
    .assignMember (f a) receiver.map (ref.map f) value.map
  | .call a ref typeArgs args =>
    .call (f a) (ref.map f) (TypeSpec.mapList f typeArgs) (Value.mapList args)
  | .nested a outer inner => .nested (f a) outer.map inner.map
  | .function a typeParams params result body =>
    .function (f a) (typeParams.map (TypeParam.map f)) (params.map (Param.map f)) (result.map f)
      (Statement.mapList body)

def Value.mapList : List (Value α) → List (Value β)
  | [] => []
  | v :: rest => v.map :: Value.mapList rest

def Statement.map : Statement α → Statement β
  | ⟨a, value, last⟩ => ⟨f a, value.map, last⟩

def Statement.mapList : List (Statement α) → List (Statement β)
  | [] => []
  | s :: rest => s.map :: Statement.mapList rest

end

def Signature.map (s : Signature α) : Signature β :=
  ⟨f s.ann, s.visibility, s.name, s.typeParams.map (TypeParam.map f), s.params.map (Param.map f),
    s.result.map f⟩

def Method.map (m : Method α) : Method β :=
  ⟨f m.ann, m.signature.map f, Statement.mapList f m.body⟩

def Attribute.map (a : Attribute α) : Attribute β :=
  ⟨f a.ann, a.mode, a.name, a.spec.map f, a.value.map (Value.map f)⟩

def TopLevel.map : TopLevel α → TopLevel β
  | .ofType d =>
    .ofType ⟨f d.ann, d.visibility, d.name, d.typeParams.map (TypeParam.map f), d.super.map f,
      d.methods.map (Signature.map f)⟩
  | .ofClass d =>
    .ofClass ⟨f d.ann, d.visibility, d.name, d.typeParams.map (TypeParam.map f), d.super.map f,
      d.attributes.map (Attribute.map f), d.methods.map (Method.map f)⟩

def Root.map (r : Root α) : Root β :=
  ⟨f r.ann, r.space, r.uses.map fun u => ⟨f u.ann, u.source, u.name⟩, r.top.map f⟩

end Map

end Assay
