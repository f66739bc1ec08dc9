import Assay.Tree
import Assay.Text.Quoted
import Assay.Token.Lexer

/-! Reading a tree from tokens. Every reader looks at no more than the next two tokens, takes them
from the front, and gives back what is left, which its result shows to be shorter; so reading ends,
and it stops at the first token that fits nothing. -/

namespace Assay

/-- The number of a node and the bytes that it spans in its text. -/
structure Extent where
  id : Nat
  start : Nat
  stop : Nat
deriving DecidableEq

/-- The tokens that are left of a text of `size` bytes, the offset after the last token taken, and
the number of the next node. -/
structure Cursor where
  tokens : List Token
  last : Nat
  size : Nat
  next : Nat

namespace Cursor

def left (c : Cursor) : Nat := c.tokens.length

/-- The offset of the next token, or of the end of the text. -/
def start (c : Cursor) : Nat :=
  match c.tokens with
  | t :: _ => t.start
  | [] => c.size

def peek? (c : Cursor) : Option Lexeme := c.tokens.head?.map (·.lexeme)

def isAt (c : Cursor) (m : Mark) : Bool := c.peek? = some (.mark m)

def isAtWord (c : Cursor) (k : Keyword) : Bool := c.peek? = some (.keyword k)

/-- A node from `start` to the last token taken, with the next number. -/
def extent (c : Cursor) (start : Nat) : Extent := ⟨c.next, start, max start c.last⟩

/-- A node on one token, with the next number. -/
def extentOf (c : Cursor) (t : Token) : Extent := ⟨c.next, t.start, t.stop⟩

/-- The cursor after the next number is given out. -/
def bump (c : Cursor) : Cursor := { c with next := c.next + 1 }

@[simp] theorem left_bump (c : Cursor) : c.bump.left = c.left := rfl

end Cursor

/-- A value that was read, and a cursor with fewer than `n` tokens left. -/
structure Reply (n : Nat) (α : Type) where
  value : α
  rest : Cursor
  lt : rest.left < n

/-- The result of a reader that is to leave fewer than `n` tokens. -/
abbrev Parse (α : Type) (n : Nat) := Except SyntaxError (Reply n α)

namespace Cursor

/-- The error that something else is wanted at the next token. -/
def fail {α : Type} (c : Cursor) (wants : List Want) : Except SyntaxError α :=
  .error ⟨c.start, wants⟩

/-- A node from `start` to the last token taken. -/
def node {α : Type} {n : Nat} (c : Cursor) (start : Nat) (build : Extent → α)
    (h : c.left < n := by omega) : Reply n α :=
  ⟨build (c.extent start), c.bump, h⟩

def nodeOf {α : Type} {n : Nat} (c : Cursor) (t : Token) (build : Extent → α)
    (h : c.left < n := by omega) : Reply n α :=
  ⟨build (c.extentOf t), c.bump, h⟩

/-- The next token, if there is one. -/
def pop? (c : Cursor) : Option (Reply c.left Token) :=
  match h : c.tokens with
  | [] => none
  | t :: rest => some ⟨t, { c with tokens := rest, last := t.stop }, by simp [left, h]⟩

/-- The next token, if its lexeme is the given one. -/
def take? (c : Cursor) (l : Lexeme) : Option (Reply c.left Token) :=
  match c.pop? with
  | some r => if r.value.lexeme = l then some r else none
  | none => none

def mark? (c : Cursor) (m : Mark) : Option (Reply c.left Token) := c.take? (.mark m)

def word? (c : Cursor) (k : Keyword) : Option (Reply c.left Token) := c.take? (.keyword k)

def mark (c : Cursor) (m : Mark) : Parse Token c.left :=
  match c.mark? m with
  | some r => .ok r
  | none => c.fail [.mark m]

def word (c : Cursor) (k : Keyword) : Parse Token c.left :=
  match c.word? k with
  | some r => .ok r
  | none => c.fail [.keyword k]

/-- The cursor after the given mark, or the same cursor if another token is next. -/
def skip (c : Cursor) (m : Mark) : Reply (c.left + 1) Unit :=
  match c.mark? m with
  | some ⟨_, c, h⟩ => ⟨(), c, by omega⟩
  | none => ⟨(), c, by omega⟩

/-- An identifier and its token. -/
def ident (c : Cursor) : Parse (Text × Token) c.left :=
  match c.pop? with
  | some ⟨t, rest, h⟩ =>
    match t.lexeme with
    | .ident name => .ok ⟨(name, t), rest, h⟩
    | _ => c.fail [.identifier]
  | none => c.fail [.identifier]

/-- A dot and an identifier, if the two are next. -/
def dotIdent? (c : Cursor) : Option (Reply c.left (Text × Token)) :=
  match c.mark? .dot with
  | some ⟨_, c, h⟩ =>
    match c.ident with
    | .ok ⟨name, c, h'⟩ => some ⟨name, c, by omega⟩
    | .error _ => none
  | none => none

/-- The rest of a qualified name that starts with `name`, whose last token is `t`. -/
def moreName (name : Text) (t : Token) (c : Cursor) : Reply (c.left + 1) (Text × Token) :=
  match c.dotIdent? with
  | some ⟨(part, t), c, h⟩ =>
    let ⟨result, c, h'⟩ := moreName (name ++ "." ++ part) t c
    ⟨result, c, by omega⟩
  | none => ⟨(name, t), c, by omega⟩
termination_by c.left

/-- A name of identifiers between dots, and its last token and identifier. -/
def qualifiedName (c : Cursor) : Parse (Text × Token) c.left := do
  let ⟨(name, t), c, h⟩ ← c.ident
  let ⟨result, c, h'⟩ := moreName name t c
  return ⟨result, c, by omega⟩

mutual

/-- A type: intersections between bars. -/
def typeSpec (c : Cursor) : Parse (TypeSpec Extent) c.left := do
  let start := c.start
  let ⟨first, c, h⟩ ← intersection c
  if c.isAt .bar then
    let ⟨more, c, h'⟩ ← moreUnion c
    return c.node start (.union · (first :: more))
  else return ⟨first, c, h⟩
termination_by c.left * 8 + 3

/-- Bars, each with the intersection after it. -/
def moreUnion (c : Cursor) : Parse (List (TypeSpec Extent)) (c.left + 1) := do
  match c.mark? .bar with
  | some ⟨_, c, _⟩ =>
    let ⟨first, c, _⟩ ← intersection c
    let ⟨more, c, _⟩ ← moreUnion c
    return ⟨first :: more, c, by omega⟩
  | none => return ⟨[], c, by omega⟩
termination_by c.left * 8

/-- Type atoms between ampersands. -/
def intersection (c : Cursor) : Parse (TypeSpec Extent) c.left := do
  let start := c.start
  let ⟨first, c, h⟩ ← typeAtom c
  if c.isAt .ampersand then
    let ⟨more, c, h'⟩ ← moreInter c
    return c.node start (.inter · (first :: more))
  else return ⟨first, c, h⟩
termination_by c.left * 8 + 2

/-- Ampersands, each with the type atom after it. -/
def moreInter (c : Cursor) : Parse (List (TypeSpec Extent)) (c.left + 1) := do
  match c.mark? .ampersand with
  | some ⟨_, c, _⟩ =>
    let ⟨first, c, _⟩ ← typeAtom c
    let ⟨more, c, _⟩ ← moreInter c
    return ⟨first :: more, c, by omega⟩
  | none => return ⟨[], c, by omega⟩
termination_by c.left * 8

/-- A function type, a type in parentheses, or a name with its type arguments. -/
def typeAtom (c : Cursor) : Parse (TypeSpec Extent) c.left := do
  let start := c.start
  match c.mark? .openParen with
  | some ⟨_, c, _⟩ =>
    let ⟨types, c, _⟩ ← typeList c
    let ⟨_, c, _⟩ ← c.mark .closeParen
    match c.mark? .colon with
    | some ⟨_, c, _⟩ =>
      let ⟨result, c, _⟩ ← typeSpec c
      return c.node start (.func · types result)
    | none =>
      match types with
      | [one] => return ⟨one, c, by omega⟩
      | _ => c.fail [.mark .colon]
  | none =>
    let ⟨(name, _), c, _⟩ ← c.qualifiedName
    match c.mark? .openBracket with
    | some ⟨_, c, _⟩ =>
      let ⟨args, c, _⟩ ← typeArgs c
      let ⟨_, c, _⟩ ← c.mark .closeBracket
      return c.node start (.simple · name args)
    | none => return c.node start (.simple · name [])
termination_by c.left * 8 + 1

/-- The types in front of a closing parenthesis: none, or types between commas with one more comma
allowed at the end. -/
def typeList (c : Cursor) : Parse (List (TypeSpec Extent)) (c.left + 1) := do
  if c.isAt .closeParen then return ⟨[], c, by omega⟩
  else
    let ⟨first, c, _⟩ ← typeSpec c
    match c.mark? .comma with
    | some ⟨_, c, _⟩ =>
      let ⟨more, c, _⟩ ← typeList c
      return ⟨first :: more, c, by omega⟩
    | none => return ⟨[first], c, by omega⟩
termination_by c.left * 8 + 4

/-- One or more types between commas. -/
def typeArgs (c : Cursor) : Parse (List (TypeSpec Extent)) c.left := do
  let ⟨first, c, _⟩ ← typeSpec c
  match c.mark? .comma with
  | some ⟨_, c, _⟩ =>
    let ⟨more, c, _⟩ ← typeArgs c
    return ⟨first :: more, c, by omega⟩
  | none => return ⟨[first], c, by omega⟩
termination_by c.left * 8 + 4

end

/-- A colon and a type, or else the type that `build` places on the token `t`. -/
def optionalType (t : Token) (build : Extent → TypeSpec Extent) (c : Cursor) :
    Parse (TypeSpec Extent) (c.left + 1) := do
  match c.mark? .colon with
  | some ⟨_, c, _⟩ =>
    let ⟨spec, c, _⟩ ← c.typeSpec
    return ⟨spec, c, by omega⟩
  | none => return c.nodeOf t build

/-- One or more type variables between commas. -/
def typeParamList (c : Cursor) : Parse (List (TypeParam Extent)) c.left := do
  let ⟨(name, t), c, _⟩ ← c.ident
  let ⟨first, c, _⟩ : Reply (c.left + 1) _ := c.nodeOf t (⟨·, name⟩)
  match c.mark? .comma with
  | some ⟨_, c, _⟩ =>
    let ⟨more, c, _⟩ ← typeParamList c
    return ⟨first :: more, c, by omega⟩
  | none => return ⟨[first], c, by omega⟩
termination_by c.left

/-- The type variables in brackets, if there are any. -/
def typeParams (c : Cursor) : Parse (List (TypeParam Extent)) (c.left + 1) := do
  match c.mark? .openBracket with
  | some ⟨_, c, _⟩ =>
    let ⟨params, c, _⟩ ← c.typeParamList
    let ⟨_, c, _⟩ ← c.mark .closeBracket
    return ⟨params, c, by omega⟩
  | none => return ⟨[], c, by omega⟩

/-- The parameters in front of a closing parenthesis: none, or parameters between commas with one
more comma allowed at the end. -/
def paramList (c : Cursor) : Parse (List (Param Extent)) (c.left + 1) := do
  if c.isAt .closeParen then return ⟨[], c, by omega⟩
  else
    let start := c.start
    let ⟨(name, _), c, _⟩ ← c.ident
    let ⟨_, c, _⟩ ← c.mark .colon
    let ⟨spec, c, _⟩ ← c.typeSpec
    let ⟨first, c, _⟩ : Reply (c.left + 1) _ := c.node start (⟨·, name, spec⟩)
    match c.mark? .comma with
    | some ⟨_, c, _⟩ =>
      let ⟨more, c, _⟩ ← paramList c
      return ⟨first :: more, c, by omega⟩
    | none => return ⟨[first], c, by omega⟩
termination_by c.left

def params (c : Cursor) : Parse (List (Param Extent) × Token) c.left := do
  let ⟨_, c, _⟩ ← c.mark .openParen
  let ⟨params, c, _⟩ ← c.paramList
  let ⟨close, c, _⟩ ← c.mark .closeParen
  return ⟨(params, close), c, by omega⟩

def mode (c : Cursor) : Parse Mode c.left := do
  match c.word? .var with
  | some ⟨_, c, _⟩ => return ⟨.var, c, by omega⟩
  | none =>
    let ⟨_, c, _⟩ ← c.word .val
    return ⟨.val, c, by omega⟩

/-- The value that a literal of the given text stands for. -/
def literalText (literal : Text) : Text :=
  let inside := (literal.drop 1).dropLast
  (Text.unescape? inside).getD inside

mutual

/-- A value: a primary value, and the members and calls that dots add to it. -/
def value (c : Cursor) : Parse (Value Extent) c.left := do
  let start := c.start
  let ⟨first, c, _⟩ ← primary c
  let ⟨all, c, _⟩ ← members start first c
  return ⟨all, c, by omega⟩
termination_by c.left * 8 + 2

/-- What dots add to the value `outer` that starts at `start`. -/
def members (start : Nat) (outer : Value Extent) (c : Cursor) :
    Parse (Value Extent) (c.left + 1) := do
  match c.mark? .dot with
  | none => return ⟨outer, c, by omega⟩
  | some ⟨_, c, _⟩ =>
    let ⟨(name, t), c, _⟩ ← c.ident
    let ⟨refExtent, c, _⟩ : Reply (c.left + 1) Extent := c.nodeOf t id
    match c.mark? .equals with
    | some ⟨_, c, _⟩ =>
      let ⟨assigned, c, _⟩ ← value c
      return c.node start (.assignMember · outer ⟨refExtent, name, false⟩ assigned)
    | none =>
      if c.isAt .openParen || c.isAt .openBracket then
        let ⟨inner, c, _⟩ ← call t.start ⟨refExtent, name, true⟩ c
        let ⟨all, c, _⟩ : Reply (c.left + 1) _ := c.node start (.nested · outer inner)
        let ⟨all, c, _⟩ ← members start all c
        return ⟨all, c, by omega⟩
      else
        let ⟨inner, c, _⟩ : Reply (c.left + 1) _ :=
          c.nodeOf t (.ident · ⟨refExtent, name, false⟩)
        let ⟨all, c, _⟩ : Reply (c.left + 1) _ := c.node start (.nested · outer inner)
        let ⟨all, c, _⟩ ← members start all c
        return ⟨all, c, by omega⟩
termination_by c.left * 8

/-- A value that does not start with another one. -/
def primary (c : Cursor) : Parse (Value Extent) c.left := do
  match c.pop? with
  | none => c.fail [.value]
  | some ⟨t, after, _⟩ =>
    match t.lexeme with
    | .quoted literal => return after.nodeOf t (.string · (literalText literal))
    | .number digits => return after.nodeOf t (.number · digits)
    | .keyword .yes => return after.nodeOf t (.boolean · true)
    | .keyword .no => return after.nodeOf t (.boolean · false)
    | .keyword .none => return after.nodeOf t .nothing
    | .keyword .val => binding c
    | .keyword .var => binding c
    | .mark .openParen => function c
    | .mark .openBracket => function c
    | .ident name =>
      let ⟨refExtent, c, _⟩ : Reply (after.left + 1) Extent := after.nodeOf t id
      if c.isAt .openParen || c.isAt .openBracket then
        let ⟨v, c, _⟩ ← call t.start ⟨refExtent, name, true⟩ c
        return ⟨v, c, by omega⟩
      else
        match c.mark? .equals with
        | some ⟨_, c, _⟩ =>
          let ⟨assigned, c, _⟩ ← value c
          return c.node t.start (.assign · ⟨refExtent, name, false⟩ assigned)
        | none => return c.nodeOf t (.ident · ⟨refExtent, name, false⟩)
    | _ => c.fail [.value]
termination_by c.left * 8 + 1

/-- The type arguments and the arguments of a call of `ref` that starts at `start`. -/
def call (start : Nat) (ref : Reference Extent) (c : Cursor) : Parse (Value Extent) c.left := do
  let ⟨typeArgs, c, _⟩ : Reply (c.left + 1) (List (TypeSpec Extent)) ←
    match c.mark? .openBracket with
    | some ⟨_, c, _⟩ => do
      let ⟨typeArgs, c, _⟩ ← c.typeArgs
      let ⟨_, c, _⟩ ← c.mark .closeBracket
      pure ⟨typeArgs, c, by omega⟩
    | none => pure ⟨[], c, by omega⟩
  let ⟨_, c, _⟩ ← c.mark .openParen
  let ⟨args, c, _⟩ ← arguments c
  let ⟨_, c, _⟩ ← c.mark .closeParen
  return c.node start (.call · ref typeArgs args)
termination_by c.left * 8

/-- The values in front of a closing parenthesis: none, or values between commas with one more
comma allowed at the end. -/
def arguments (c : Cursor) : Parse (List (Value Extent)) (c.left + 1) := do
  if c.isAt .closeParen then return ⟨[], c, by omega⟩
  else
    let ⟨first, c, _⟩ ← value c
    match c.mark? .comma with
    | some ⟨_, c, _⟩ =>
      let ⟨more, c, _⟩ ← arguments c
      return ⟨first :: more, c, by omega⟩
    | none => return ⟨[first], c, by omega⟩
termination_by c.left * 8 + 3

def binding (c : Cursor) : Parse (Value Extent) c.left := do
  let start := c.start
  let ⟨mode, c, _⟩ ← c.mode
  let ⟨(name, t), c, _⟩ ← c.ident
  let ⟨spec, c, _⟩ ← c.optionalType t .inferred
  let ⟨_, c, _⟩ ← c.mark .equals
  let ⟨v, c, _⟩ ← value c
  return c.node start (.bind · mode name spec v)
termination_by c.left * 8

def function (c : Cursor) : Parse (Value Extent) c.left := do
  let start := c.start
  let ⟨typeParams, c, _⟩ ← c.typeParams
  let ⟨(params, close), c, _⟩ ← c.params
  let ⟨result, c, _⟩ ← c.optionalType close .inferred
  let ⟨_, c, _⟩ ← c.mark .arrow
  let ⟨_, c, _⟩ ← c.mark .openBrace
  let ⟨body, c, _⟩ ← statements c
  let ⟨_, c, _⟩ ← c.mark .closeBrace
  return c.node start (.function · typeParams params result body)
termination_by c.left * 8

/-- The statements in front of a closing brace. -/
def statements (c : Cursor) : Parse (List (Statement Extent)) (c.left + 1) := do
  if c.isAt .closeBrace then return ⟨[], c, by omega⟩
  else
    let start := c.start
    let ⟨v, c, _⟩ ← value c
    let ⟨extent, c, _⟩ : Reply (c.left + 1) Extent := c.node start id
    let ⟨_, c, _⟩ := c.skip .semicolon
    let ⟨more, c, _⟩ ← statements c
    return ⟨⟨extent, v, more.isEmpty⟩ :: more, c, by omega⟩
termination_by c.left * 8 + 3

end

/-- The word for a visibility, or else the given one. -/
def visibility (default : Visibility) (c : Cursor) : Reply (c.left + 1) Visibility :=
  match c.word? .everywhere with
  | some ⟨_, c, _⟩ => ⟨.everywhere, c, by omega⟩
  | none =>
    match c.word? .hidden with
    | some ⟨_, c, _⟩ => ⟨.hidden, c, by omega⟩
    | none =>
      match c.word? .namespaced with
      | some ⟨_, c, _⟩ => ⟨.namespaced, c, by omega⟩
      | none => ⟨default, c, by omega⟩

def signature (c : Cursor) : Parse (Signature Extent) c.left := do
  let start := c.start
  let ⟨visibility, c, _⟩ := c.visibility .everywhere
  let ⟨(name, t), c, _⟩ ← c.ident
  let ⟨typeParams, c, _⟩ ← c.typeParams
  let ⟨(params, _), c, _⟩ ← c.params
  let ⟨result, c, _⟩ ← c.optionalType t .inferred
  return c.node start (⟨·, visibility, name, typeParams, params, result⟩)

def method (c : Cursor) : Parse (Method Extent) c.left := do
  let start := c.start
  let ⟨signature, c, _⟩ ← c.signature
  let ⟨_, c, _⟩ ← c.mark .openBrace
  let ⟨body, c, _⟩ ← c.statements
  let ⟨_, c, _⟩ ← c.mark .closeBrace
  return c.node start (⟨·, signature, body⟩)

def classAttribute (c : Cursor) : Parse (Attribute Extent) c.left := do
  let start := c.start
  let ⟨mode, c, _⟩ ← c.mode
  let ⟨(name, t), c, _⟩ ← c.ident
  let ⟨spec, c, _⟩ ← c.optionalType t .inferred
  let ⟨v, c, _⟩ : Reply (c.left + 1) (Option (Value Extent)) ←
    match c.mark? .equals with
    | some ⟨_, c, _⟩ => do
      let ⟨v, c, _⟩ ← c.value
      pure ⟨some v, c, by omega⟩
    | none => pure ⟨none, c, by omega⟩
  let ⟨extent, c, _⟩ : Reply (c.left + 1) Extent := c.node start id
  let ⟨_, c, _⟩ := c.skip .semicolon
  return ⟨⟨extent, mode, name, spec, v⟩, c, by omega⟩

/-- The signatures in front of a closing brace. -/
def signatures (c : Cursor) : Parse (List (Signature Extent)) (c.left + 1) := do
  if c.isAt .closeBrace then return ⟨[], c, by omega⟩
  else
    let ⟨first, c, _⟩ ← c.signature
    let ⟨_, c, _⟩ := c.skip .semicolon
    let ⟨more, c, _⟩ ← signatures c
    return ⟨first :: more, c, by omega⟩
termination_by c.left

/-- The attributes and the methods in front of a closing brace. -/
def classMembers (c : Cursor) :
    Parse (List (Attribute Extent) × List (Method Extent)) (c.left + 1) := do
  if c.isAt .closeBrace then return ⟨([], []), c, by omega⟩
  else if c.isAtWord .val || c.isAtWord .var then
    let ⟨first, c, _⟩ ← c.classAttribute
    let ⟨(attributes, methods), c, _⟩ ← classMembers c
    return ⟨(first :: attributes, methods), c, by omega⟩
  else
    let ⟨first, c, _⟩ ← c.method
    let ⟨(attributes, methods), c, _⟩ ← classMembers c
    return ⟨(attributes, first :: methods), c, by omega⟩
termination_by c.left

/-- The declaration of a type or a class that starts at `start`, after its keyword: a name, type
variables, a supertype, and members in braces. -/
def declaration {α β : Type} (members : (c : Cursor) → Parse α (c.left + 1))
    (build : Extent → Text → List (TypeParam Extent) → TypeSpec Extent → α → β) (start : Nat)
    (c : Cursor) : Parse β c.left := do
  let ⟨(name, t), c, _⟩ ← c.ident
  let ⟨typeParams, c, _⟩ ← c.typeParams
  let ⟨super, c, _⟩ ← c.optionalType t (.simple · objectName [])
  let ⟨_, c, _⟩ ← c.mark .openBrace
  let ⟨all, c, _⟩ ← members c
  let ⟨_, c, _⟩ ← c.mark .closeBrace
  return c.node start (build · name typeParams super all)

def typeDecl (start : Nat) (visibility : Visibility) (c : Cursor) : Parse (TopLevel Extent) c.left :=
  declaration signatures (fun extent name typeParams super methods =>
    .ofType ⟨extent, visibility, name, typeParams, super, methods⟩) start c

def classDecl (start : Nat) (visibility : Visibility) (c : Cursor) : Parse (TopLevel Extent) c.left :=
  declaration classMembers (fun extent name typeParams super all =>
    .ofClass ⟨extent, visibility, name, typeParams, super, all.1, all.2⟩) start c

def topLevel (c : Cursor) : Parse (TopLevel Extent) c.left := do
  let start := c.start
  let ⟨visibility, c, _⟩ := c.visibility .namespaced
  match c.word? .typeDecl with
  | some ⟨_, c, _⟩ =>
    let ⟨decl, c, _⟩ ← c.typeDecl start visibility
    return ⟨decl, c, by omega⟩
  | none =>
    match c.word? .classDecl with
    | some ⟨_, c, _⟩ =>
      let ⟨decl, c, _⟩ ← c.classDecl start visibility
      return ⟨decl, c, by omega⟩
    | none => c.fail [.keyword .typeDecl, .keyword .classDecl]

def uses (c : Cursor) : Parse (List (Use Extent)) (c.left + 1) := do
  let start := c.start
  match c.word? .use with
  | none => return ⟨[], c, by omega⟩
  | some ⟨_, c, _⟩ =>
    let ⟨(source, t), c, _⟩ ← c.qualifiedName
    let ⟨name, c, _⟩ : Reply (c.left + 1) Text ←
      match c.mark? .colon with
      | some ⟨_, c, _⟩ => do
        let ⟨(name, _), c, _⟩ ← c.ident
        pure ⟨name, c, by omega⟩
      | none => pure ⟨t.lexeme.text, c, by omega⟩
    let ⟨extent, c, _⟩ : Reply (c.left + 1) Extent := c.node start id
    let ⟨_, c, _⟩ := c.skip .semicolon
    let ⟨more, c, _⟩ ← uses c
    return ⟨⟨extent, source, name⟩ :: more, c, by omega⟩
termination_by c.left

/-- A source in the given namespace. -/
def root (space : Text) (c : Cursor) : Except SyntaxError (Root Extent × Nat) := do
  let ⟨uses, c, _⟩ ← c.uses
  let ⟨top, c, _⟩ ← c.topLevel
  if c.tokens.isEmpty then
    return (⟨⟨c.next, 0, c.size⟩, space, uses, top⟩, c.next + 1)
  else c.fail [.endOfText]

end Cursor

/-- The tree of a text in the given namespace, its nodes numbered from `next`, and the number after
theirs. -/
def Root.parse (space text : Text) (next : Nat) : Except SyntaxError (Root Extent × Nat) := do
  let tokens ← Token.lex text
  Cursor.root space ⟨tokens, 0, text.length, next⟩

end Assay
