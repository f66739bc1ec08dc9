import Mathlib
import Assay.Tree.Parser

/-! The grammar of sources. A rule relates a list of lexemes, the tree that it starts with, and the
lexemes after that tree; what a source leaves out stands in the tree as its default. Whether the
call of a member can have type arguments is a parameter of the grammar. -/

namespace Assay.Grammar

/-- The list starts with the lexemes of the tree, and the other list comes after them. -/
abbrev Rule (α : Type) := List Lexeme → α → List Lexeme → Prop

/-- What is left of an annotation where only the shape of a tree counts. -/
def forget {α : Type} (_ : α) : Unit := ()

section Operators

variable {α : Type}

/-- Any `rule?`. -/
inductive Optional (default : α) (rule : Rule α) : Rule α where
  | omitted (ls : List Lexeme) : Optional default rule ls default ls
  | written {ls x rest} (h : rule ls x rest) : Optional default rule ls x rest

/-- Any `rule*`. -/
inductive Many (rule : Rule α) : Rule (List α) where
  | none (ls : List Lexeme) : Many rule ls [] ls
  | more {ls x ls' xs rest} (first : rule ls x ls') (others : Many rule ls' xs rest) :
    Many rule ls (x :: xs) rest

/-- Any `mark rule`. -/
inductive After (m : Mark) (rule : Rule α) : Rule α where
  | mk {ls x rest} (h : rule ls x rest) : After m rule (.mark m :: ls) x rest

/-- Any `rule ";"?`. -/
inductive Ended (rule : Rule α) : Rule α where
  | bare {ls x rest} (h : rule ls x rest) : Ended rule ls x rest
  | closed {ls x rest} (h : rule ls x (.mark .semicolon :: rest)) : Ended rule ls x rest

/-- Any `left rule right`. -/
inductive Enclosed (left right : Mark) (rule : Rule α) : Rule α where
  | mk {ls x rest} (h : rule ls x (.mark right :: rest)) :
    Enclosed left right rule (.mark left :: ls) x rest

/-- Any `rule (mark rule)*`. -/
inductive Separated (m : Mark) (rule : Rule α) : Rule (List α) where
  | one {ls x rest} (h : rule ls x rest) : Separated m rule ls [x] rest
  | more {ls x ls' xs rest} (first : rule ls x (.mark m :: ls'))
    (others : Separated m rule ls' xs rest) : Separated m rule ls (x :: xs) rest

/-- Any `rule ("," rule)* ","?`. -/
inductive Items (rule : Rule α) : Rule (List α) where
  | one {ls x rest} (h : rule ls x rest) : Items rule ls [x] rest
  | trailing {ls x rest} (h : rule ls x (.mark .comma :: rest)) : Items rule ls [x] rest
  | more {ls x ls' xs rest} (first : rule ls x (.mark .comma :: ls'))
    (others : Items rule ls' xs rest) : Items rule ls (x :: xs) rest

/-- Any `"(" (rule ("," rule)* ","?)? ")"`. -/
inductive Listed (rule : Rule α) : Rule (List α) where
  | none (ls : List Lexeme) : Listed rule (.mark .openParen :: .mark .closeParen :: ls) [] ls
  | some {ls xs rest} (h : Items rule ls xs (.mark .closeParen :: rest)) :
    Listed rule (.mark .openParen :: ls) xs rest

end Operators

/-- Names: `qname = ident ("." ident)*`, with the last of the identifiers. -/
inductive QNameRule : Rule (Text × Text) where
  | one (name : Text) (ls : List Lexeme) : QNameRule (.ident name :: ls) (name, name) ls
  | more {ls name last part rest}
    (h : QNameRule ls (name, last) (.mark .dot :: .ident part :: rest)) :
    QNameRule ls (name ++ "." ++ part, part) rest

mutual

/-- Types: `typeSpec = intersection ("|" intersection)*`. -/
inductive TypeSpecRule : Rule (TypeSpec Unit) where
  | one {ls s rest} (h : IntersectionRule ls s rest) : TypeSpecRule ls s rest
  | union {ls s t ss rest} (h : Separated .bar IntersectionRule ls (s :: t :: ss) rest) :
    TypeSpecRule ls (.union () (s :: t :: ss)) rest

/-- Types: `intersection = typeAtom ("&" typeAtom)*`. -/
inductive IntersectionRule : Rule (TypeSpec Unit) where
  | one {ls s rest} (h : TypeAtomRule ls s rest) : IntersectionRule ls s rest
  | inter {ls s t ss rest} (h : Separated .ampersand TypeAtomRule ls (s :: t :: ss) rest) :
    IntersectionRule ls (.inter () (s :: t :: ss)) rest

/-- Types: `typeAtom = qname typeArgs? | "(" typeSpec ")" | "(" (typeSpec ("," typeSpec)*)? ")" ":"
typeSpec` with `typeArgs = "[" typeSpec ("," typeSpec)* "]"`. -/
inductive TypeAtomRule : Rule (TypeSpec Unit) where
  | name {ls name last ls' args rest} (hName : QNameRule ls (name, last) ls')
    (hArgs : Optional [] (Enclosed .openBracket .closeBracket (Separated .comma TypeSpecRule))
      ls' args rest) : TypeAtomRule ls (.simple () name args) rest
  | group {ls s rest} (h : Listed TypeSpecRule ls [s] rest) : TypeAtomRule ls s rest
  | func {ls params ls' result rest} (hParams : Listed TypeSpecRule ls params ls')
    (hResult : After .colon TypeSpecRule ls' result rest) :
    TypeAtomRule ls (.func () params result) rest

end

/-- Type arguments: `typeArgs?`. -/
abbrev TypeArgsRule : Rule (List (TypeSpec Unit)) :=
  Optional [] (Enclosed .openBracket .closeBracket (Separated .comma TypeSpecRule))

/-- An optional type, `(":" typeSpec)?`, with the type that stands for one left out. -/
abbrev OptionalTypeRule (default : TypeSpec Unit) : Rule (TypeSpec Unit) :=
  Optional default (After .colon TypeSpecRule)

/-- A type variable. -/
inductive TypeParamRule : Rule (TypeParam Unit) where
  | mk (name : Text) (ls : List Lexeme) : TypeParamRule (.ident name :: ls) ⟨(), name⟩ ls

/-- Type variables: `typeParams?` with `typeParams = "[" ident ("," ident)* "]"`. -/
abbrev TypeParamsRule : Rule (List (TypeParam Unit)) :=
  Optional [] (Enclosed .openBracket .closeBracket (Separated .comma TypeParamRule))

/-- A parameter: `ident ":" typeSpec`. -/
inductive ParamRule : Rule (Param Unit) where
  | mk {ls name ls' spec rest} (hName : ls = .ident name :: ls')
    (hSpec : After .colon TypeSpecRule ls' spec rest) : ParamRule ls ⟨(), name, spec⟩ rest

/-- A mode: `"val" | "var"`. -/
inductive ModeRule : Rule Mode where
  | val (ls : List Lexeme) : ModeRule (.keyword .val :: ls) .val ls
  | var (ls : List Lexeme) : ModeRule (.keyword .var :: ls) .var ls

section Values

variable (generic : Bool)

mutual

/-- Values: `value = primary ("." ident ("=" value | callArgs)?)*`. -/
inductive ValueRule : Rule (Value Unit) where
  | mk {ls first ls' v rest} (hFirst : PrimaryRule ls first ls')
    (hDots : DotsRule first ls' v rest) : ValueRule ls v rest

/-- The dots `("." ident ("=" value | callArgs)?)*` after the value `outer`. -/
inductive DotsRule : Value Unit → Rule (Value Unit) where
  | none (outer : Value Unit) (ls : List Lexeme) : DotsRule outer ls outer ls
  | member {outer name ls v rest}
    (hMore : DotsRule (.nested () outer (.ident () ⟨(), name, false⟩)) ls v rest) :
    DotsRule outer (.mark .dot :: .ident name :: ls) v rest
  | assign {outer name ls assigned ls' v rest} (hValue : After .equals ValueRule ls assigned ls')
    (hMore : DotsRule (.assignMember () outer ⟨(), name, false⟩ assigned) ls' v rest) :
    DotsRule outer (.mark .dot :: .ident name :: ls) v rest
  | call {outer name ls types args ls' v rest} (hTypes : generic = false → types = [])
    (hCall : CallRule ls (types, args) ls')
    (hMore : DotsRule (.nested () outer (.call () ⟨(), name, true⟩ types args)) ls' v rest) :
    DotsRule outer (.mark .dot :: .ident name :: ls) v rest

/-- Values: `primary = string | number | "true" | "false" | "none" | functionValue | ("val"|"var")
ident (":" typeSpec)? "=" value | ident typeArgs? callArgs | ident "=" value | ident` with
`functionValue = typeParams? "(" params? ")" (":" typeSpec)? "=>" "{" statements "}"`. -/
inductive PrimaryRule : Rule (Value Unit) where
  | string (literal : Text) (ls : List Lexeme) :
    PrimaryRule (.quoted literal :: ls) (.string () (Cursor.literalText literal)) ls
  | number (digits : Text) (ls : List Lexeme) :
    PrimaryRule (.number digits :: ls) (.number () digits) ls
  | yes (ls : List Lexeme) : PrimaryRule (.keyword .yes :: ls) (.boolean () true) ls
  | no (ls : List Lexeme) : PrimaryRule (.keyword .no :: ls) (.boolean () false) ls
  | nothing (ls : List Lexeme) : PrimaryRule (.keyword .none :: ls) (.nothing ()) ls
  | bind {ls mode name ls₁ spec ls₂ v rest} (hMode : ModeRule ls mode (.ident name :: ls₁))
    (hSpec : OptionalTypeRule (.inferred ()) ls₁ spec ls₂)
    (hValue : After .equals ValueRule ls₂ v rest) :
    PrimaryRule ls (.bind () mode name spec v) rest
  | call {name ls types args rest} (hCall : CallRule ls (types, args) rest) :
    PrimaryRule (.ident name :: ls) (.call () ⟨(), name, true⟩ types args) rest
  | assign {name ls v rest} (hValue : After .equals ValueRule ls v rest) :
    PrimaryRule (.ident name :: ls) (.assign () ⟨(), name, false⟩ v) rest
  | ident (name : Text) (ls : List Lexeme) :
    PrimaryRule (.ident name :: ls) (.ident () ⟨(), name, false⟩) ls
  | function {ls typeParams ls₁ params ls₂ result ls₃ body rest}
    (hTypeParams : TypeParamsRule ls typeParams ls₁) (hParams : Listed ParamRule ls₁ params ls₂)
    (hResult : OptionalTypeRule (.inferred ()) ls₂ result (.mark .arrow :: ls₃))
    (hBody : Enclosed .openBrace .closeBrace StatementsRule ls₃ body rest) :
    PrimaryRule ls (.function () typeParams params result body) rest

/-- Calls: `typeArgs? callArgs` with `callArgs = "(" (value ("," value)*)? ")"`. -/
inductive CallRule : Rule (List (TypeSpec Unit) × List (Value Unit)) where
  | mk {ls types ls' args rest} (hTypes : TypeArgsRule ls types ls')
    (hArgs : Listed ValueRule ls' args rest) : CallRule ls (types, args) rest

/-- Bodies: `statements = (value ";"?)*`, the last one marked as such. -/
inductive StatementsRule : Rule (List (Statement Unit)) where
  | none (ls : List Lexeme) : StatementsRule ls [] ls
  | more {ls v ls' others rest} (hFirst : Ended ValueRule ls v ls')
    (hOthers : StatementsRule ls' others rest) :
    StatementsRule ls (⟨(), v, others.isEmpty⟩ :: others) rest

end

/-- A visibility: `"public" | "private" | "namespace"`. -/
inductive VisibilityRule : Rule Visibility where
  | everywhere (ls : List Lexeme) : VisibilityRule (.keyword .everywhere :: ls) .everywhere ls
  | hidden (ls : List Lexeme) : VisibilityRule (.keyword .hidden :: ls) .hidden ls
  | namespaced (ls : List Lexeme) : VisibilityRule (.keyword .namespaced :: ls) .namespaced ls

/-- Signatures: `methodSig = visibility? ident typeParams? "(" params? ")" (":" typeSpec)?`. -/
inductive SignatureRule : Rule (Signature Unit) where
  | mk {ls visibility name ls₁ typeParams ls₂ params ls₃ result rest}
    (hVisibility : Optional .everywhere VisibilityRule ls visibility (.ident name :: ls₁))
    (hTypeParams : TypeParamsRule ls₁ typeParams ls₂) (hParams : Listed ParamRule ls₂ params ls₃)
    (hResult : OptionalTypeRule (.inferred ()) ls₃ result rest) :
    SignatureRule ls ⟨(), visibility, name, typeParams, params, result⟩ rest

/-- Methods: `method = methodSig "{" statements "}"`. -/
inductive MethodRule : Rule (Method Unit) where
  | mk {ls signature ls' body rest} (hSignature : SignatureRule ls signature ls')
    (hBody : Enclosed .openBrace .closeBrace (StatementsRule generic) ls' body rest) :
    MethodRule ls ⟨(), signature, body⟩ rest

/-- An attribute: `("val" | "var") ident (":" typeSpec)? ("=" value)?`. -/
inductive AttributeRule : Rule (Attribute Unit) where
  | bare {ls mode name ls₁ spec rest} (hMode : ModeRule ls mode (.ident name :: ls₁))
    (hSpec : OptionalTypeRule (.inferred ()) ls₁ spec rest) :
    AttributeRule ls ⟨(), mode, name, spec, none⟩ rest
  | valued {ls mode name ls₁ spec ls₂ v rest} (hMode : ModeRule ls mode (.ident name :: ls₁))
    (hSpec : OptionalTypeRule (.inferred ()) ls₁ spec ls₂)
    (hValue : After .equals (ValueRule generic) ls₂ v rest) :
    AttributeRule ls ⟨(), mode, name, spec, some v⟩ rest

/-- The members of a class, `(attribute | method)*`, where a semicolon may end an attribute. -/
inductive ClassMembersRule : Rule (List (Attribute Unit) × List (Method Unit)) where
  | none (ls : List Lexeme) : ClassMembersRule ls ([], []) ls
  | ofAttribute {ls a ls' attributes methods rest} (hFirst : Ended (AttributeRule generic) ls a ls')
    (hOthers : ClassMembersRule ls' (attributes, methods) rest) :
    ClassMembersRule ls (a :: attributes, methods) rest
  | ofMethod {ls m ls' attributes methods rest} (hFirst : MethodRule generic ls m ls')
    (hOthers : ClassMembersRule ls' (attributes, methods) rest) :
    ClassMembersRule ls (attributes, m :: methods) rest

/-- Declarations: `type = visibility? "type" ident typeParams? (":" typeSpec)? "{" (methodSig ";"?)*
"}"` and `class = visibility? "class" ident typeParams? (":" typeSpec)? "{" (attribute |
method)* "}"`. -/
inductive TopLevelRule : Rule (TopLevel Unit) where
  | ofType {ls visibility name ls₁ typeParams ls₂ super ls₃ methods rest}
    (hVisibility : Optional .namespaced VisibilityRule ls visibility
      (.keyword .typeDecl :: .ident name :: ls₁))
    (hTypeParams : TypeParamsRule ls₁ typeParams ls₂)
    (hSuper : OptionalTypeRule (.simple () objectName []) ls₂ super ls₃)
    (hBody : Enclosed .openBrace .closeBrace (Many (Ended SignatureRule)) ls₃ methods rest) :
    TopLevelRule ls (.ofType ⟨(), visibility, name, typeParams, super, methods⟩) rest
  | ofClass {ls visibility name ls₁ typeParams ls₂ super ls₃ attributes methods rest}
    (hVisibility : Optional .namespaced VisibilityRule ls visibility
      (.keyword .classDecl :: .ident name :: ls₁))
    (hTypeParams : TypeParamsRule ls₁ typeParams ls₂)
    (hSuper : OptionalTypeRule (.simple () objectName []) ls₂ super ls₃)
    (hBody : Enclosed .openBrace .closeBrace (ClassMembersRule generic) ls₃ (attributes, methods)
      rest) :
    TopLevelRule ls (.ofClass ⟨(), visibility, name, typeParams, super, attributes, methods⟩) rest

/-- Uses: `use = "use" qname (":" ident)?`, under the last identifier if it names no other. -/
inductive UseRule : Rule (Use Unit) where
  | plain {ls source last rest} (h : QNameRule ls (source, last) rest) :
    UseRule (.keyword .use :: ls) ⟨(), source, last⟩ rest
  | renamed {ls source last name rest}
    (h : QNameRule ls (source, last) (.mark .colon :: .ident name :: rest)) :
    UseRule (.keyword .use :: ls) ⟨(), source, name⟩ rest

/-- Sources: `root = use* (type | class)`: the lexemes of a whole source. -/
inductive RootRule (space : Text) : List Lexeme → Root Unit → Prop where
  | mk {ls uses ls' top} (hUses : Many (Ended UseRule) ls uses ls')
    (hTop : TopLevelRule generic ls' top []) : RootRule space ls ⟨(), space, uses, top⟩

end Values

end Assay.Grammar
