import Assay.Text.Rune

/-! TOML documents, as far as settings need them: texts and truth values are kept, and of other
values only that they are there. -/

namespace Assay.Toml

/-- A value. -/
inductive Value where
  | text (t : List Char)
  | truth (b : Bool)
  | other

/-- The parts of a key between dots. -/
abbrev Key := List (List Char)

/-- A line of a document. -/
inductive Line where
  | blank
  /-- The start of a table, and whether it is one of several. -/
  | table (key : Key) (several : Bool)
  | entry (key : Key) (value : Value)

/-- The mark around literal texts. -/
def apostrophe : Char := Char.ofNat 39

def isBlank (c : Char) : Bool := c = ' ' || c = '\t'

def skipBlanks (cs : List Char) : List Char := cs.dropWhile isBlank

/-- The text without the blanks, comments and line breaks it starts with. -/
def skipLines : (fuel : Nat) → List Char → List Char
  | 0, cs => cs
  | fuel + 1, cs =>
    match skipBlanks cs with
    | '#' :: rest => skipLines fuel (rest.dropWhile (· ≠ '\n'))
    | '\n' :: rest => skipLines fuel rest
    | rest => rest

/-- Whether a character can stand in a key without quotes. -/
def isKeyChar (c : Char) : Bool := c.isAlphanum || c = '_' || c = '-'

/-- Whether a character cannot stand in a text of one line. -/
def isControl (c : Char) : Bool := c.toNat < 32 && c ≠ '\t' || c.toNat = 127

def hexValue? (digits : List Char) : Option Nat :=
  digits.foldlM (fun n c => do
    let d ← if '0' ≤ c && c ≤ '9' then some (c.toNat - 48)
      else if 'a' ≤ c && c ≤ 'f' then some (c.toNat - 87)
      else if 'A' ≤ c && c ≤ 'F' then some (c.toNat - 55)
      else none
    return n * 16 + d) 0

/-- The character that follows a backslash, and the rest. -/
def escape? : List Char → Option (Char × List Char)
  | 'b' :: rest => some (Char.ofNat 8, rest)
  | 't' :: rest => some ('\t', rest)
  | 'n' :: rest => some ('\n', rest)
  | 'f' :: rest => some (Char.ofNat 12, rest)
  | 'r' :: rest => some ('\r', rest)
  | '"' :: rest => some ('"', rest)
  | '/' :: rest => some ('/', rest)
  | '\\' :: rest => some ('\\', rest)
  | 'u' :: rest => code 4 rest
  | 'U' :: rest => code 8 rest
  | _ => none
where
  /-- A character given by its number. -/
  code (n : Nat) (rest : List Char) : Option (Char × List Char) := do
    if rest.length < n then none
    let r ← hexValue? (rest.take n)
    if Rune.isScalar r then return (Char.ofNat r, rest.drop n) else none

/-- A text of one line up to its closing quote, and the rest. -/
def quoted (quote : Char) : (fuel : Nat) → List Char → Option (List Char × List Char)
  | 0, _ => none
  | _ + 1, [] => none
  | fuel + 1, c :: rest =>
    if c = quote then some ([], rest)
    else if isControl c then none
    else if c = '\\' && quote ≠ apostrophe then do
      let (e, rest) ← escape? rest
      let (more, rest) ← quoted quote fuel rest
      return (e :: more, rest)
    else do
      let (more, rest) ← quoted quote fuel rest
      return (c :: more, rest)

/-- A text of several lines up to its three closing quotes, and the rest. -/
def quotedLines (quote : Char) : (fuel : Nat) → List Char → Option (List Char × List Char)
  | 0, _ => none
  | _ + 1, [] => none
  | fuel + 1, c :: rest =>
    if [quote, quote, quote].isPrefixOf (c :: rest) then some ([], rest.drop 2)
    else if isControl c && c ≠ '\n' then none
    else if c = '\\' && quote ≠ apostrophe then
      if (skipBlanks rest).head? = some '\n' then
        quotedLines quote fuel (rest.dropWhile fun c => isBlank c || c = '\n')
      else do
        let (e, rest) ← escape? rest
        let (more, rest) ← quotedLines quote fuel rest
        return (e :: more, rest)
    else do
      let (more, rest) ← quotedLines quote fuel rest
      return (c :: more, rest)

/-- A part of a key, and the rest. -/
def keyPart (cs : List Char) : Option (List Char × List Char) :=
  match cs with
  | c :: rest =>
    if c = '"' || c = apostrophe then quoted c (rest.length + 1) rest
    else match cs.takeWhile isKeyChar with
      | [] => none
      | word => some (word, cs.dropWhile isKeyChar)
  | [] => none

/-- A key, and the rest without the blanks it starts with. -/
def key : (fuel : Nat) → List Char → Option (Key × List Char)
  | 0, _ => none
  | fuel + 1, cs => do
    let (part, rest) ← keyPart (skipBlanks cs)
    match skipBlanks rest with
    | '.' :: rest =>
      let (more, rest) ← key fuel rest
      return (part :: more, rest)
    | rest => return ([part], rest)

/-- Whether a character can stand in a number or a date. -/
def isNumberChar (c : Char) : Bool := c.isAlphanum || c ∈ ['+', '-', '.', ':', '_']

/-- Whether a word reads as a number or a date. -/
def isNumber (word : List Char) : Bool :=
  let digits := match word with
    | '+' :: rest => rest
    | '-' :: rest => rest
    | rest => rest
  let isMark (c : Char) : Bool := c ∈ ['+', '-', '.', ':', '_', 'e', 'E', 'T', 't', 'Z', 'z']
  match digits with
  | '0' :: 'x' :: rest => rest.all fun c => c = '_' || (hexValue? [c]).isSome
  | '0' :: 'o' :: rest => rest.all fun c => c = '_' || '0' ≤ c && c ≤ '7'
  | '0' :: 'b' :: rest => rest.all fun c => c = '_' || c = '0' || c = '1'
  | 'i' :: rest => rest = ['n', 'f']
  | 'n' :: rest => rest = ['a', 'n']
  | c :: rest => c.isDigit && rest.all fun c => c.isDigit || isMark c
  | [] => false

mutual

def value : (fuel : Nat) → List Char → Option (Value × List Char)
  | 0, _ => none
  | fuel + 1, cs =>
    match cs with
    | [] => none
    | '[' :: rest => do
      let rest ← array fuel rest
      return (.other, rest)
    | '\x7b' :: rest => do
      let rest ← inlineTable true fuel rest
      return (.other, rest)
    | c :: rest =>
      if c = '"' || c = apostrophe then
        if [c, c].isPrefixOf rest then do
          let rest := rest.drop 2
          let rest := if rest.head? = some '\n' then rest.drop 1 else rest
          let (t, rest) ← quotedLines c (rest.length + 1) rest
          return (.text t, rest)
        else do
          let (t, rest) ← quoted c (rest.length + 1) rest
          return (.text t, rest)
      else
        let word := cs.takeWhile isNumberChar
        let rest := cs.dropWhile isNumberChar
        if word = "true".toList then some (.truth true, rest)
        else if word = "false".toList then some (.truth false, rest)
        else if isNumber word then some (.other, rest)
        else none

/-- The rest after an array. -/
def array : (fuel : Nat) → List Char → Option (List Char)
  | 0, _ => none
  | fuel + 1, cs =>
    match skipLines (cs.length + 1) cs with
    | ']' :: rest => some rest
    | cs => do
      let (_, rest) ← value fuel cs
      match skipLines (rest.length + 1) rest with
      | ']' :: rest => return rest
      | ',' :: rest => array fuel rest
      | _ => none

/-- The rest after a table on one line. -/
def inlineTable (first : Bool) : (fuel : Nat) → List Char → Option (List Char)
  | 0, _ => none
  | fuel + 1, cs =>
    match first, skipBlanks cs with
    | true, '\x7d' :: rest => some rest
    | _, cs => do
      let (_, rest) ← key (cs.length + 1) cs
      match rest with
      | '=' :: rest =>
        let (_, rest) ← value fuel (skipBlanks rest)
        match skipBlanks rest with
        | '\x7d' :: rest => return rest
        | ',' :: rest => inlineTable false fuel rest
        | _ => none
      | _ => none

end

/-- The rest after the end of a line, where only a comment may stand. -/
def lineEnd (cs : List Char) : Option (List Char) :=
  match skipBlanks cs with
  | [] => some []
  | '\n' :: rest => some rest
  | '#' :: rest => some (rest.dropWhile (· ≠ '\n'))
  | _ => none

def line (cs : List Char) : Option (Line × List Char) :=
  match skipBlanks cs with
  | '[' :: '[' :: rest => do
    let (k, rest) ← key (rest.length + 1) rest
    match rest with
    | ']' :: ']' :: rest => return (.table k true, rest)
    | _ => none
  | '[' :: rest => do
    let (k, rest) ← key (rest.length + 1) rest
    match rest with
    | ']' :: rest => return (.table k false, rest)
    | _ => none
  | [] => some (.blank, [])
  | '\n' :: rest => some (.blank, rest)
  | '#' :: rest => some (.blank, rest.dropWhile (· ≠ '\n'))
  | cs => do
    let (k, rest) ← key (cs.length + 1) cs
    match rest with
    | '=' :: rest =>
      let (v, rest) ← value (rest.length + 2) (skipBlanks rest)
      return (.entry k v, ← lineEnd rest)
    | _ => none

def lines : (fuel : Nat) → List Char → Option (List Line)
  | 0, _ => none
  | fuel + 1, cs =>
    if cs.isEmpty then some []
    else do
      let (l, rest) ← line cs
      return l :: (← lines fuel rest)

/-- The tables that are started and the entries with their full keys. -/
structure Document where
  tables : List Key
  entries : List (Key × Value)

namespace Document

/-- Whether a key leads into or through an entry. -/
def passesEntry (d : Document) (k : Key) : Bool := d.entries.any fun (e, _) => e.isPrefixOf k

def isTable (d : Document) (k : Key) : Bool :=
  d.tables.any k.isPrefixOf || d.entries.any fun (e, _) => k.isPrefixOf e

/-- The document with more lines, after the start of the table `within`. A table or a key stands
once; of one of several tables only the last is kept. -/
def addLines (d : Document) (within : Key) : List Line → Option Document
  | [] => some d
  | .blank :: rest => d.addLines within rest
  | .table k several :: rest =>
    if several then
      let entries := d.entries.filter fun (e, _) => !(k.isPrefixOf e && k.length < e.length)
      if entries.any fun (e, _) => e.isPrefixOf k then none
      else addLines ⟨k :: d.tables.filter (!k.isPrefixOf ·), entries⟩ k rest
    else if d.tables.contains k || d.passesEntry k then none
    else addLines { d with tables := k :: d.tables } k rest
  | .entry k v :: rest =>
    let full := within ++ k
    if d.passesEntry full || d.isTable full then none
    else addLines { d with entries := d.entries ++ [(full, v)] } within rest

/-- The value under a key of one part. -/
def value? (d : Document) (name : String) : Option Value :=
  match d.entries.lookup [name.toList] with
  | some v => some v
  | none =>
    let within (k : Key) : Bool := k.head? = some name.toList
    if d.tables.any within || d.entries.any (fun (k, _) => within k) then some .other else none

end Document

/-- Characters with each line break as one of them, and without a mark for the byte order in
front. -/
def normalized (cs : List Char) : List Char :=
  match cs with
  | [] => []
  | c :: rest => if c.toNat = 0xfeff then joined rest else joined (c :: rest)
where
  /-- Characters with each line break as one of them. -/
  joined : List Char → List Char
    | [] => []
    | '\r' :: '\n' :: rest => '\n' :: joined rest
    | c :: rest => c :: joined rest

def document? (t : Text) : Option Document := do
  let cs := normalized ((Rune.ofText t).map Char.ofNat)
  Document.addLines ⟨[], []⟩ [] (← lines (cs.length + 1) cs)

end Assay.Toml
