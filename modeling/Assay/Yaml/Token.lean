import Assay.Text.Rune

/-! Tokens of YAML documents. Indentation opens and closes block collections; a scalar becomes a key
when a colon follows it on its line, so tokens are put in front of it afterwards. Directives,
anchors, aliases, tags and block scalars are not read. -/

namespace Assay.Yaml

/-- A token. -/
inductive Token where
  | documentStart
  | documentEnd
  | blockSequence
  | blockMapping
  | blockEnd
  | openBracket
  | closeBracket
  | openBrace
  | closeBrace
  | dash
  | comma
  | key
  | value
  /-- A scalar, and whether it is written without quotes. -/
  | scalar (plain : Bool) (text : List Char)
  /-- What cannot be read. The tokens end with it. -/
  | unreadable
deriving DecidableEq

/-- The mark around literal scalars. -/
def apostrophe : Char := Char.ofNat 39

def isBlank (c : Char) : Bool := c = ' ' || c = '\t'

/-- Whether a text starts with a space, a tab or a line break, or is at its end. -/
def atBlank : List Char → Bool
  | [] => true
  | c :: _ => isBlank c || c = '\n'

/-- Whether a character may stand in a document. -/
def isAllowed (r : Rune) : Bool :=
  r = 9 || r = 10 || r = 13 || 32 ≤ r && r ≤ 126 || r = 133 || 160 ≤ r && r ≤ 0xfffd || 0x10000 ≤ r

/-- The characters of a text, with each line break as one character, or nothing if the text is not
valid. -/
def characters? : Text → Option (List Char)
  | [] => some []
  | 13 :: 10 :: rest => (characters? rest).map ('\n' :: ·)
  | b :: rest =>
    match Rune.encoded? b rest with
    | none => none
    | some (r, width) =>
      if isAllowed r then
        let c := if r = 13 || r = 133 then '\n' else Char.ofNat r
        (characters? (rest.drop (width - 1))).map (c :: ·)
      else none
termination_by t => t.length

/-- A scalar that may still turn out to be a key: how many tokens stand before it, where it starts,
and whether it has to be one. -/
structure PendingKey where
  before : Nat
  line : Nat
  column : Nat
  required : Bool

/-- What is read and where, the indentation of the open block collections, innermost first, how many
brackets are open, whether a key may stand here, the pending keys of the open brackets and of the
block around them, and the tokens so far. -/
structure Scanner where
  rest : List Char
  line : Nat
  column : Nat
  indents : List Nat
  depth : Nat
  keyAllowed : Bool
  pending : List (Option PendingKey)
  tokens : List Token

namespace Scanner

def start (cs : List Char) : Scanner := ⟨cs, 0, 0, [], 0, true, [none], []⟩

/-- Whether the text continues with a mark of three characters at the start of a line. -/
def atMark (mark : List Char) (rest : List Char) : Bool :=
  mark.isPrefixOf rest && atBlank (rest.drop 3)

/-- Whether a document starts or ends here, if a line starts here. -/
def atIndicator (rest : List Char) : Bool :=
  atMark ['-', '-', '-'] rest || atMark ['.', '.', '.'] rest

/-- The scanner after the text up to `rest`. -/
def moveTo (s : Scanner) (rest : List Char) : Scanner :=
  (s.rest.take (s.rest.length - rest.length)).foldl (fun s c =>
    if c = '\n' then { s with line := s.line + 1, column := 0 }
    else { s with column := s.column + 1 }) { s with rest }

def push (s : Scanner) (t : Token) : Scanner := { s with tokens := s.tokens ++ [t] }

/-- Skips spaces, comments and line breaks. Tabs count as spaces only where no key may stand. -/
def skipBlanks : (fuel : Nat) → Scanner → Scanner
  | 0, s => s
  | fuel + 1, s =>
    match s.rest with
    | ' ' :: rest => skipBlanks fuel (s.moveTo rest)
    | '\t' :: rest =>
      if s.depth > 0 || !s.keyAllowed then skipBlanks fuel (s.moveTo rest) else s
    | '#' :: rest => skipBlanks fuel (s.moveTo (rest.dropWhile (· ≠ '\n')))
    | '\n' :: rest =>
      skipBlanks fuel { s.moveTo rest with keyAllowed := s.keyAllowed || s.depth = 0 }
    | _ => s

/-- Closes the block collections that are indented more than `column`; at the end of a document all
of them. -/
def closeBlocks (column : Option Nat) : List Nat → Scanner → Scanner
  | [], s => { s with indents := [] }
  | i :: outer, s =>
    if column.all (· < i) then closeBlocks column outer (s.push .blockEnd)
    else { s with indents := i :: outer }

/-- Closes block collections, unless brackets are open. -/
def unindent (s : Scanner) (column : Option Nat) : Scanner :=
  if s.depth > 0 then s else closeBlocks column s.indents s

/-- Opens a block collection with a token at the given place, if it is indented more than the one
around it. -/
def indent (s : Scanner) (column place : Nat) (t : Token) : Scanner :=
  if s.depth > 0 then s
  else if s.indents.head?.all (· < column) then
    { s with indents := column :: s.indents, tokens := s.tokens.insertIdx place t }
  else s

/-- The pending keys without those of earlier lines; one that had to be a key cannot be passed. -/
def dropStale (s : Scanner) : Option Scanner :=
  let stale (k : PendingKey) : Bool := k.line < s.line
  if s.pending.any fun k => k.any fun k => stale k && k.required then none
  else some { s with pending := s.pending.map fun k => k.filter fun k => !stale k }

/-- Forgets the pending key of the innermost brackets, unless it has to be a key. -/
def dropKey (s : Scanner) : Option Scanner :=
  match s.pending with
  | some k :: outer => if k.required then none else some { s with pending := none :: outer }
  | _ => some s

/-- Notes that what starts here may be a key. -/
def saveKey (s : Scanner) : Option Scanner :=
  if s.keyAllowed then do
    let s ← s.dropKey
    let required := s.depth = 0 && s.indents.head? = some s.column
    return { s with pending := some ⟨s.tokens.length, s.line, s.column, required⟩ :: s.pending.drop 1 }
  else some s

def indicator (s : Scanner) (t : Token) : Option Scanner := do
  let s ← (s.unindent none).dropKey
  return { (s.moveTo (s.rest.drop 3)).push t with keyAllowed := false }

def openFlow (s : Scanner) (rest : List Char) (t : Token) : Option Scanner := do
  let s ← s.saveKey
  return { (s.moveTo rest).push t with
    depth := s.depth + 1, pending := none :: s.pending, keyAllowed := true }

def closeFlow (s : Scanner) (rest : List Char) (t : Token) : Option Scanner := do
  let s ← s.dropKey
  return { (s.moveTo rest).push t with
    depth := s.depth - 1, pending := if s.depth > 0 then s.pending.drop 1 else s.pending,
    keyAllowed := false }

def nextInFlow (s : Scanner) (rest : List Char) : Option Scanner := do
  let s ← s.dropKey
  return { (s.moveTo rest).push .comma with keyAllowed := true }

def dashToken (s : Scanner) (rest : List Char) : Option Scanner := do
  if s.depth = 0 && !s.keyAllowed then none
  let s ← (s.indent s.column s.tokens.length .blockSequence).dropKey
  return { (s.moveTo rest).push .dash with keyAllowed := true }

def keyToken (s : Scanner) (rest : List Char) : Option Scanner := do
  if s.depth = 0 && !s.keyAllowed then none
  let s ← (s.indent s.column s.tokens.length .blockMapping).dropKey
  return { (s.moveTo rest).push .key with keyAllowed := s.depth = 0 }

/-- A colon in front of a value. It makes a key of a pending one. -/
def valueToken (s : Scanner) (rest : List Char) : Option Scanner :=
  match s.pending with
  | some k :: outer =>
    let s := { s with pending := none :: outer, tokens := s.tokens.insertIdx k.before .key }
    let s := s.indent k.column k.before .blockMapping
    some { (s.moveTo rest).push .value with keyAllowed := false }
  | _ =>
    if s.depth = 0 && !s.keyAllowed then none
    else
      let s := s.indent s.column s.tokens.length .blockMapping
      some { (s.moveTo rest).push .value with keyAllowed := s.depth = 0 }

/-- A run of blanks and line breaks: the blanks before the first break, how many breaks there are,
the blanks after the last one, and the rest. -/
def blankRun : List Char → List Char × Nat × Nat × List Char
  | [] => ([], 0, 0, [])
  | c :: rest =>
    if isBlank c then
      match blankRun rest with
      | (before, 0, _, rest) => (c :: before, 0, 0, rest)
      | (before, breaks, after, rest) => (c :: before, breaks, after, rest)
    else if c = '\n' then
      match blankRun rest with
      | (before, 0, _, rest) => ([], 1, before.length, rest)
      | (_, breaks, after, rest) => ([], breaks + 1, after, rest)
    else ([], 0, 0, c :: rest)

/-- What a run of blanks stands for inside a scalar: one break is a space, and of more the first is
dropped. -/
def folded (blanks : List Char) (breaks : Nat) : List Char :=
  match breaks with
  | 0 => blanks
  | 1 => [' ']
  | n + 1 => List.replicate n '\n'

/-- Whether a plain scalar ends at a character. -/
def endsPlain (flow : Bool) (c : Char) (rest : List Char) : Bool :=
  isBlank c || c = '\n' || c = ':' && atBlank rest ||
    flow && (c ∈ [',', '[', ']', '\x7b', '\x7d'] || c = '?' && atBlank rest)

/-- The word that a plain scalar goes on with, and the rest. -/
def plainWord (flow : Bool) : List Char → List Char × List Char
  | [] => ([], [])
  | c :: rest =>
    if endsPlain flow c rest then ([], c :: rest)
    else
      let (word, rest) := plainWord flow rest
      (c :: word, rest)

/-- The words of a plain scalar, after the blanks `gap`, in a block with the given indentation; with
the rest, and whether a line has ended in it. -/
def plainWords (flow : Bool) (indent : Nat) : (fuel : Nat) → (gap : List Char) → (lineStart : Bool) →
    List Char → List Char × List Char × Bool
  | 0, _, broken, cs => ([], cs, broken)
  | fuel + 1, gap, broken, cs =>
    if cs.head? = some '#' then ([], cs, broken)
    else match plainWord flow cs with
      | ([], _) => ([], cs, broken)
      | (word, rest) =>
        match blankRun rest with
        | ([], 0, _, _) => (gap ++ word, rest, false)
        | (blanks, breaks, column, rest) =>
          let broken := breaks > 0
          if broken && (column = 0 && atIndicator rest || !flow && column < indent) then
            (gap ++ word, rest, broken)
          else
            let (more, rest, broken) := plainWords flow indent fuel (folded blanks breaks) broken rest
            (gap ++ word ++ more, rest, broken)

def plainScalar (s : Scanner) : Option Scanner := do
  let s ← s.saveKey
  let indent := match s.indents with
    | [] => 0
    | i :: _ => i + 1
  let (text, rest, broken) := plainWords (s.depth > 0) indent s.rest.length [] false s.rest
  return { (s.moveTo rest).push (.scalar true text) with keyAllowed := broken }

def hexValue? (digits : List Char) : Option Nat :=
  digits.foldlM (fun n c => do
    let d ← if '0' ≤ c && c ≤ '9' then some (c.toNat - 48)
      else if 'a' ≤ c && c ≤ 'f' then some (c.toNat - 87)
      else if 'A' ≤ c && c ≤ 'F' then some (c.toNat - 55)
      else none
    return n * 16 + d) 0

/-- The character that a backslash and a letter stand for. -/
def escape? (c : Char) : Option Char :=
  [('0', 0), ('a', 7), ('b', 8), ('t', 9), ('\t', 9), ('n', 10), ('v', 11), ('f', 12), ('r', 13),
    ('e', 27), (' ', 32), ('"', 34), ('/', 47), ('\\', 92), ('N', 0x85), ('_', 0xa0), ('L', 0x2028),
    ('P', 0x2029), (apostrophe, 39)].lookup c |>.map Char.ofNat

/-- How many digits follow a backslash and a letter. -/
def escapeDigits (c : Char) : Nat :=
  if c = 'x' then 2 else if c = 'u' then 4 else if c = 'U' then 8 else 0

/-- The text of a scalar up to its closing quote, and the rest. -/
def quotedText (quote : Char) : (fuel : Nat) → List Char → Option (List Char × List Char)
  | 0, _ => none
  | _ + 1, [] => none
  | fuel + 1, c :: rest =>
    let after (part rest : List Char) : Option (List Char × List Char) := do
      let (more, rest) ← quotedText quote fuel rest
      return (part ++ more, rest)
    if c = quote then
      if quote = apostrophe && rest.head? = some apostrophe then after [c] (rest.drop 1)
      else some ([], rest)
    else if c = '\\' && quote ≠ apostrophe then
      match rest with
      | [] => none
      | '\n' :: rest => after [] (rest.dropWhile isBlank)
      | e :: rest =>
        match escapeDigits e with
        | 0 => do after [← escape? e] rest
        | n => do
          if rest.length < n then none
          let code ← hexValue? (rest.take n)
          if Rune.isScalar code then after [Char.ofNat code] (rest.drop n) else none
    else if isBlank c || c = '\n' then
      match blankRun (c :: rest) with
      | (blanks, breaks, column, rest) =>
        if breaks > 0 && column = 0 && atIndicator rest then none
        else after (folded blanks breaks) rest
    else after [c] rest

def quotedScalar (s : Scanner) (quote : Char) : Option Scanner := do
  let s ← s.saveKey
  let (text, rest) ← quotedText quote s.rest.length (s.rest.drop 1)
  return { (s.moveTo rest).push (.scalar false text) with keyAllowed := false }

/-- The characters that start no plain scalar. -/
def indicators : List Char :=
  ['-', '?', ':', ',', '[', ']', '\x7b', '\x7d', '#', '&', '*', '!', '|', '>', apostrophe, '"', '%',
    '@', Char.ofNat 96]

/-- The next token, at a place where no blank stands. -/
def token (s : Scanner) : Option Scanner :=
  match s.rest with
  | [] => none
  | c :: rest =>
    let flow := s.depth > 0
    if s.column = 0 && atMark ['-', '-', '-'] s.rest then s.indicator .documentStart
    else if s.column = 0 && atMark ['.', '.', '.'] s.rest then s.indicator .documentEnd
    else if c = '[' then s.openFlow rest .openBracket
    else if c = '\x7b' then s.openFlow rest .openBrace
    else if c = ']' then s.closeFlow rest .closeBracket
    else if c = '\x7d' then s.closeFlow rest .closeBrace
    else if c = ',' then s.nextInFlow rest
    else if c = '-' && atBlank rest then s.dashToken rest
    else if c = '?' && (flow || atBlank rest) then s.keyToken rest
    else if c = ':' && (flow || atBlank rest) then s.valueToken rest
    else if c = apostrophe || c = '"' then s.quotedScalar c
    else if c ∉ indicators || c = '-' || !flow && (c = '?' || c = ':') then s.plainScalar
    else none

/-- The tokens of the rest of the text. -/
def tokensFrom : (fuel : Nat) → Scanner → List Token
  | 0, s => s.tokens
  | fuel + 1, s =>
    let s := s.skipBlanks (s.rest.length + 1)
    match s.dropStale with
    | none => s.tokens ++ [.unreadable]
    | some s =>
      if s.rest.isEmpty then
        let s := s.unindent none
        match s.dropKey with
        | none => s.tokens ++ [.unreadable]
        | some s => s.tokens
      else
        let s := s.unindent (some s.column)
        match s.token with
        | none => s.tokens ++ [.unreadable]
        | some s => tokensFrom fuel s

end Scanner

def tokens (cs : List Char) : List Token := Scanner.tokensFrom (cs.length + 1) (.start cs)

end Assay.Yaml
