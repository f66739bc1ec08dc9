import Assay.Text.Digit
import Assay.Text.Letter

/-! Tokens: the words, numbers, text literals and marks of a source, with the bytes they span. -/

namespace Assay

/-- The words that are not identifiers. -/
inductive Keyword where
  | use
  | typeDecl
  | classDecl
  | val
  | var
  | everywhere
  | hidden
  | namespaced
  | yes
  | no
  | none
deriving DecidableEq

namespace Keyword

def text : Keyword → Text
  | .use => "use"
  | .typeDecl => "type"
  | .classDecl => "class"
  | .val => "val"
  | .var => "var"
  | .everywhere => "public"
  | .hidden => "private"
  | .namespaced => "namespace"
  | .yes => "true"
  | .no => "false"
  | .none => "none"

/-- All keywords. -/
def all : List Keyword :=
  [.use, .typeDecl, .classDecl, .val, .var, .everywhere, .hidden, .namespaced, .yes, .no, .none]

def ofText? (word : Text) : Option Keyword := all.find? (·.text = word)

end Keyword

/-- The marks of punctuation. -/
inductive Mark where
  | openBrace
  | closeBrace
  | openParen
  | closeParen
  | openBracket
  | closeBracket
  | colon
  | semicolon
  | comma
  | dot
  | equals
  | bar
  | ampersand
  | arrow
deriving DecidableEq

namespace Mark

def text : Mark → Text
  | .openBrace => "\x7b"
  | .closeBrace => "\x7d"
  | .openParen => "("
  | .closeParen => ")"
  | .openBracket => "["
  | .closeBracket => "]"
  | .colon => ":"
  | .semicolon => ";"
  | .comma => ","
  | .dot => "."
  | .equals => "="
  | .bar => "|"
  | .ampersand => "&"
  | .arrow => "=>"

/-- All marks, a mark before those that it starts with. -/
def all : List Mark :=
  [.openBrace, .closeBrace, .openParen, .closeParen, .openBracket, .closeBracket, .colon,
    .semicolon, .comma, .dot, .arrow, .equals, .bar, .ampersand]

end Mark

/-- What a token says. -/
inductive Lexeme where
  | keyword (k : Keyword)
  | ident (name : Text)
  | number (digits : Text)
  /-- A text literal, with its quotes. -/
  | quoted (literal : Text)
  | mark (m : Mark)
deriving DecidableEq

def Lexeme.text : Lexeme → Text
  | .keyword k => k.text
  | .ident name => name
  | .number digits => digits
  | .quoted literal => literal
  | .mark m => m.text

def Lexeme.ofWord (word : Text) : Lexeme :=
  match Keyword.ofText? word with
  | some k => .keyword k
  | none => .ident word

/-- A lexeme and the offsets of its first byte and of the byte after its last. -/
structure Token where
  lexeme : Lexeme
  start : Nat
  stop : Nat
deriving DecidableEq

/-- What could have stood at the place of a syntax error. -/
inductive Want where
  | token
  | closingQuote
  | keyword (k : Keyword)
  | mark (m : Mark)
  | identifier
  | value
  | endOfText
deriving DecidableEq

def Want.text : Want → Text
  | .token => "token"
  | .closingQuote => "\"\\\"\""
  | .keyword k => "\"" ++ k.text ++ "\""
  | .mark m => "\"" ++ m.text ++ "\""
  | .identifier => "identifier"
  | .value => "value"
  | .endOfText => "EOF"

/-- Where a text stops being readable, and what could have stood there. -/
structure SyntaxError where
  offset : Nat
  wants : List Want
deriving DecidableEq

end Assay
