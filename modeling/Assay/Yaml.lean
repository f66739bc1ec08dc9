import Assay.Yaml.Token

/-! YAML documents: scalars, sequences and mappings. -/

namespace Assay.Yaml

/-- A value in a document. -/
inductive Node where
  /-- A scalar, and whether it is written without quotes. -/
  | scalar (plain : Bool) (text : List Char)
  | sequence (items : List Node)
  | mapping (entries : List (Node × Node))

/-- The value of what is left out. -/
def Node.absent : Node := .scalar true []

def Node.isNull : Node → Bool
  | .scalar plain text => plain && String.ofList text ∈ ["", "~", "null", "Null", "NULL"]
  | _ => false

/-- Reads the value that may stand in front of certain tokens: if one of them comes first, the value
is left out. -/
def orAbsent (stops : List Token) (read : List Token → Option (Node × List Token))
    (ts : List Token) : Option (Node × List Token) :=
  match ts with
  | t :: _ => if t ∈ stops then some (.absent, ts) else read ts
  | [] => read ts

mutual

/-- A value. Block collections are read only if `block` holds, and items that are not indented only
if `items` holds too. -/
def node (block items : Bool) : (fuel : Nat) → List Token → Option (Node × List Token)
  | 0, _ => none
  | fuel + 1, ts =>
    match ts with
    | .scalar plain text :: rest => some (.scalar plain text, rest)
    | .openBracket :: rest => do
      let (items, rest) ← flowItems true fuel rest
      return (.sequence items, rest)
    | .openBrace :: rest => do
      let (entries, rest) ← flowEntries true fuel rest
      return (.mapping entries, rest)
    | .dash :: _ =>
      if block && items then do
        let (items, rest) ← looseItems fuel ts
        return (.sequence items, rest)
      else none
    | .blockSequence :: rest =>
      if block then do
        let (items, rest) ← blockItems fuel rest
        return (.sequence items, rest)
      else none
    | .blockMapping :: rest =>
      if block then do
        let (entries, rest) ← blockEntries fuel rest
        return (.mapping entries, rest)
      else none
    | _ => none

/-- The items of a block sequence, up to its end. -/
def blockItems : (fuel : Nat) → List Token → Option (List Node × List Token)
  | 0, _ => none
  | fuel + 1, ts =>
    match ts with
    | .dash :: rest => do
      let (item, rest) ← orAbsent [.dash, .blockEnd] (node true false fuel) rest
      let (items, rest) ← blockItems fuel rest
      return (item :: items, rest)
    | .blockEnd :: rest => some ([], rest)
    | _ => none

/-- The items of a sequence that is not indented more than the mapping it is in. -/
def looseItems : (fuel : Nat) → List Token → Option (List Node × List Token)
  | 0, _ => none
  | fuel + 1, ts =>
    match ts with
    | .dash :: rest => do
      let (item, rest) ←
        orAbsent [.dash, .key, .value, .blockEnd] (node true false fuel) rest
      let (items, rest) ← looseItems fuel rest
      return (item :: items, rest)
    | .unreadable :: _ => none
    | _ => some ([], ts)

/-- The entries of a block mapping, up to its end. -/
def blockEntries : (fuel : Nat) → List Token → Option (List (Node × Node) × List Token)
  | 0, _ => none
  | fuel + 1, ts =>
    match ts with
    | .key :: rest => do
      let (key, rest) ← orAbsent [.key, .value, .blockEnd] (node true true fuel) rest
      let (value, rest) ← match rest with
        | .value :: rest => orAbsent [.key, .value, .blockEnd] (node true true fuel) rest
        | _ => some (.absent, rest)
      let (entries, rest) ← blockEntries fuel rest
      return ((key, value) :: entries, rest)
    | .blockEnd :: rest => some ([], rest)
    | _ => none

/-- The items of a sequence in brackets, up to the closing one. -/
def flowItems (first : Bool) : (fuel : Nat) → List Token → Option (List Node × List Token)
  | 0, _ => none
  | fuel + 1, ts =>
    match ts with
    | .closeBracket :: rest => some ([], rest)
    | _ => do
      let ts ← if first then some ts else match ts with
        | .comma :: rest => some rest
        | _ => none
      match ts with
      | .closeBracket :: rest => return ([], rest)
      | .key :: rest =>
        let (key, rest) ← orAbsent [.value, .comma, .closeBracket] (node false false fuel) rest
        let (value, rest) ← flowValue [.comma, .closeBracket] fuel rest
        let (items, rest) ← flowItems false fuel rest
        return (.mapping [(key, value)] :: items, rest)
      | _ =>
        let (item, rest) ← node false false fuel ts
        let (items, rest) ← flowItems false fuel rest
        return (item :: items, rest)

/-- The entries of a mapping in braces, up to the closing one. -/
def flowEntries (first : Bool) : (fuel : Nat) → List Token → Option (List (Node × Node) × List Token)
  | 0, _ => none
  | fuel + 1, ts =>
    match ts with
    | .closeBrace :: rest => some ([], rest)
    | _ => do
      let ts ← if first then some ts else match ts with
        | .comma :: rest => some rest
        | _ => none
      match ts with
      | .closeBrace :: rest => return ([], rest)
      | .key :: rest =>
        let (key, rest) ← orAbsent [.value, .comma, .closeBrace] (node false false fuel) rest
        let (value, rest) ← flowValue [.comma, .closeBrace] fuel rest
        let (entries, rest) ← flowEntries false fuel rest
        return ((key, value) :: entries, rest)
      | _ =>
        let (key, rest) ← node false false fuel ts
        let (entries, rest) ← flowEntries false fuel rest
        return ((key, .absent) :: entries, rest)

/-- The value of an entry in brackets or braces. -/
def flowValue (stops : List Token) : (fuel : Nat) → List Token → Option (Node × List Token)
  | 0, _ => none
  | fuel + 1, ts =>
    match ts with
    | .value :: rest => orAbsent stops (node false false fuel) rest
    | _ => some (.absent, ts)

end

/-- The value of a document, unless the tokens after it cannot be read. -/
def documentValue (ts : List Token) : Option Node := do
  match ← node true false (2 * ts.length + 2) ts with
  | (_, .unreadable :: _) => none
  | (value, _) => return value

/-- A mark in front of a text that says how it is encoded. -/
def byteOrderMark : Text := [0xef, 0xbb, 0xbf]

/-- The first document of a text: nothing if the text cannot be read, and no value if the text holds
no document. -/
def document? (t : Text) : Option Node := do
  let t := if byteOrderMark.isPrefixOf t then t.drop 3 else t
  match tokens (← characters? t) with
  | [] => return .absent
  | .documentStart :: rest =>
    match rest with
    | [] | .documentStart :: _ | .documentEnd :: _ => return .absent
    | _ => documentValue rest
  | ts => documentValue ts

end Assay.Yaml
