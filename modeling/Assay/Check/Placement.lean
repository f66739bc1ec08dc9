import Assay.Symbol

/-! The scopes of a tree. A source has the scope of its full name; inside it, `[body]` is the scope
of what it declares. Each method has a scope of its own there, named after it and its place among
the methods of the same name, and `[body]` inside that for its statements. A function has a scope in
the one around it, and a first value of an attribute one in the body. -/

namespace Assay

/-- The scope inside another one in which bodies are placed. -/
def bodyName : Text := "[body]"

def functionScopeName (id : Nat) : Text := "[fn#" ++ Text.ofNat id ++ "]"

def attributeScopeName (name : Text) : Text := "[attr:" ++ name ++ "]"

/-- The names of the scopes of methods with the given names. -/
def methodScopeNames (names : List Text) : List Text :=
  names.mapIdx fun i name => name ++ "#" ++ Text.ofNat ((names.take i).count name)

def spacePath (space : Text) : Path := if space.isEmpty then [] else Text.splitOn 46 space

def Meta.inScope (path : Path) (m : Meta) : Meta := { m with scope := some path }

mutual

/-- A value with all its nodes in their scopes, itself in the scope at a path. -/
def Value.place (path : Path) : Value Meta → Value Meta
  | .string m text => .string (m.inScope path) text
  | .number m digits => .number (m.inScope path) digits
  | .boolean m truth => .boolean (m.inScope path) truth
  | .nothing m => .nothing (m.inScope path)
  | .ident m ref => .ident (m.inScope path) (ref.map (Meta.inScope path))
  | .bind m mode name spec value =>
    .bind (m.inScope path) mode name (spec.map (Meta.inScope path)) (value.place path)
  | .assign m ref value =>
    .assign (m.inScope path) (ref.map (Meta.inScope path)) (value.place path)
  | .assignMember m receiver ref value =>
    .assignMember (m.inScope path) (receiver.place path) (ref.map (Meta.inScope path))
      (value.place path)
  | .call m ref typeArgs args =>
    .call (m.inScope path) (ref.map (Meta.inScope path))
      (TypeSpec.mapList (Meta.inScope path) typeArgs) (Value.placeAll path args)
  | .nested m outer inner => .nested (m.inScope path) (outer.place path) (inner.place path)
  | .function m typeParams params result body =>
    let own := path ++ [functionScopeName m.id]
    .function (m.inScope own) (typeParams.map (TypeParam.map (Meta.inScope own)))
      (params.map (Param.map (Meta.inScope own))) (result.map (Meta.inScope own))
      (Statement.placeAll (own ++ [bodyName]) body)

def Value.placeAll (path : Path) : List (Value Meta) → List (Value Meta)
  | [] => []
  | v :: rest => v.place path :: Value.placeAll path rest

def Statement.place (path : Path) : Statement Meta → Statement Meta
  | ⟨m, value, last⟩ => ⟨m.inScope path, value.place path, last⟩

def Statement.placeAll (path : Path) : List (Statement Meta) → List (Statement Meta)
  | [] => []
  | s :: rest => s.place path :: Statement.placeAll path rest

end

mutual

/-- The scopes of the functions in a value in the scope at a path, in the order they open. -/
def Value.scopes (path : Path) : Value Meta → List Path
  | .bind _ _ _ _ value => value.scopes path
  | .assign _ _ value => value.scopes path
  | .assignMember _ receiver _ value => receiver.scopes path ++ value.scopes path
  | .call _ _ _ args => Value.scopesAll path args
  | .nested _ outer inner => outer.scopes path ++ inner.scopes path
  | .function m _ _ _ body =>
    let own := path ++ [functionScopeName m.id]
    own :: (own ++ [bodyName]) :: Statement.scopesAll (own ++ [bodyName]) body
  | .string .. => []
  | .number .. => []
  | .boolean .. => []
  | .nothing _ => []
  | .ident .. => []

def Value.scopesAll (path : Path) : List (Value Meta) → List Path
  | [] => []
  | v :: rest => v.scopes path ++ Value.scopesAll path rest

def Statement.scopes (path : Path) : Statement Meta → List Path
  | ⟨_, value, _⟩ => value.scopes path

def Statement.scopesAll (path : Path) : List (Statement Meta) → List Path
  | [] => []
  | s :: rest => s.scopes path ++ Statement.scopesAll path rest

end

/-- An attribute with all its nodes in their scopes, itself in the body at a path. -/
def Attribute.place (body : Path) (a : Attribute Meta) : Attribute Meta :=
  { a with
    ann := a.ann.inScope body, spec := a.spec.map (Meta.inScope body),
    value := a.value.map (Value.place (body ++ [attributeScopeName a.name])) }

def Attribute.scopes (body : Path) (a : Attribute Meta) : List Path :=
  match a.value with
  | some v =>
    let own := body ++ [attributeScopeName a.name]
    own :: v.scopes own
  | none => []

/-- A method with all its nodes in their scopes, itself in the scope at a path. -/
def Method.place (path : Path) (m : Method Meta) : Method Meta :=
  ⟨m.ann.inScope path, m.signature.map (Meta.inScope path),
    Statement.placeAll (path ++ [bodyName]) m.body⟩

/-- The scopes of a method whose own is at a path. -/
def Method.scopes (path : Path) (m : Method Meta) : List Path :=
  path :: (path ++ [bodyName]) :: Statement.scopesAll (path ++ [bodyName]) m.body

/-- A top-level declaration with all its nodes in their scopes, itself in the body at a path. -/
def TopLevel.place (body : Path) : TopLevel Meta → TopLevel Meta
  | .ofType d =>
    let names := methodScopeNames (d.methods.map (·.name))
    .ofType { d with
      ann := d.ann.inScope body, typeParams := d.typeParams.map (TypeParam.map (Meta.inScope body)),
      super := d.super.map (Meta.inScope body),
      methods := d.methods.zipWith (fun m name => m.map (Meta.inScope (body ++ [name]))) names }
  | .ofClass d =>
    let names := methodScopeNames (d.methods.map (·.signature.name))
    .ofClass { d with
      ann := d.ann.inScope body, typeParams := d.typeParams.map (TypeParam.map (Meta.inScope body)),
      super := d.super.map (Meta.inScope body),
      attributes := d.attributes.map (Attribute.place body),
      methods := d.methods.zipWith (fun m name => m.place (body ++ [name])) names }

/-- The scopes of a top-level declaration in the body at a path, in the order they open. -/
def TopLevel.scopes (body : Path) : TopLevel Meta → List Path
  | .ofType d => (methodScopeNames (d.methods.map (·.name))).map fun name => body ++ [name]
  | .ofClass d =>
    let names := methodScopeNames (d.methods.map (·.signature.name))
    d.attributes.flatMap (Attribute.scopes body) ++
      (d.methods.zipWith (fun m name => m.scopes (body ++ [name])) names).flatten

namespace Root

def scopePath (r : Root Meta) : Path := spacePath r.space ++ [r.top.name]

def place (r : Root Meta) : Root Meta :=
  { r with
    ann := r.ann.inScope r.scopePath,
    uses := r.uses.map fun u => { u with ann := u.ann.inScope r.scopePath },
    top := r.top.place (r.scopePath ++ [bodyName]) }

def scopes (r : Root Meta) : List Path :=
  r.scopePath :: (r.scopePath ++ [bodyName]) :: r.top.scopes (r.scopePath ++ [bodyName])

end Root

end Assay
