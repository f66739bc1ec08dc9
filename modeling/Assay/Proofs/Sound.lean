import Mathlib
import Assay.Compilation
import Assay.Proofs.Keys
import Assay.Proofs.Placed
import Assay.Proofs.Run

/-! What holds of every world that checking goes through, and what checking one source leaves alone
of what belongs to others. -/

namespace Assay

variable {path : Path} {t t' : Scope} {u : SourceUnit}

namespace Node

def Declares : Node Meta → Prop
  | .attribute _ => True
  | .param _ => True
  | .method _ => True
  | .signature _ => True
  | .typeParam _ => True
  | .top _ => True
  | .use _ => True
  | .value (.bind ..) => True
  | .spec (.simple ..) => True
  | _ => False

/-- A node that stands for a type. All other nodes that declare something belong to a body. -/
def IsType : Node Meta → Prop
  | .top _ => True
  | .use _ => True
  | .spec _ => True
  | _ => False

/-- The name of a method and the number of its parameters. -/
def arity? : Node Meta → Option (Text × Nat)
  | .method m => some (m.signature.name, m.signature.params.length)
  | .signature s => some (s.name, s.params.length)
  | _ => none

/-- The numbers of a node and of everything below it are less than `k`. -/
def Below (k : Nat) (n : Node Meta) : Prop := n.All (·.ann.id < k)

theorem Below.mono {k k' : Nat} {n : Node Meta} (h : n.Below k) (hLe : k ≤ k') : n.Below k' :=
  All.mono h fun _ hId => Nat.lt_of_lt_of_le hId hLe

/-- Neither a node nor anything below it has a number that is to be left alone. -/
def Clear (K : Nat → Prop) (n : Node Meta) : Prop := n.All (¬K ·.ann.id)

end Node

namespace Symbol

def node? : Symbol → Option (Node Meta)
  | .type _ (.variable p) => some (.typeParam p)
  | .named _ decl => decl
  | .alias _ _ decl => decl
  | _ => none

def full? : Symbol → Option Text
  | .type name _ => some name
  | .named .. => none
  | .alias _ target _ => some target
  | .hostClass name => some name
  | .hostInterface name => some name
  | .library name => some name

def loaded? : Symbol → Option Text
  | .type name .unknown => some name
  | .hostClass name => some name
  | .hostInterface name => some name
  | .library name => some name
  | _ => none

def IsValue : Symbol → Prop
  | .named .. => True
  | _ => False

/-- The name of a type that a symbol spells is words between dots. -/
def Dotted (symbol : Symbol) : Prop := ∀ full, symbol.full? = some full → Text.isDotted full

/-- The name of a type that a symbol spells can be looked up. -/
def Keyed (symbol : Symbol) : Prop := ∀ full, symbol.full? = some full → Text.Keyed full

theorem full?_of_loaded? {symbol : Symbol} {full : Text} (h : symbol.loaded? = some full) :
    symbol.full? = some full := by
  cases symbol with
  | type name origin =>
    cases origin with
    | unknown => exact h
    | _ => exact nomatch h
  | hostClass | hostInterface | library => exact h
  | _ => exact nomatch h

end Symbol

/-- A full name is declared in the scope at a path under a key. -/
def Text.At (text : Text) (path : Path) (key : Key) : Prop :=
  path = Scope.home [] (Name.ofText text) ∧ key = .plain (Name.ofText text).simple

def Scope.Taken (t : Scope) (text : Text) : Prop :=
  ¬t.Free (home [] (Name.ofText text)) (.plain (Name.ofText text).simple)

/-- A declaration is that of a tree, as it was read or as it is now. -/
def Declared.Of (d : Declared) (r : Root Meta) : Prop :=
  d.id = r.top.ann.id ∨ d.top.ann.id = r.top.ann.id

/-- A path leads into the body of the source in the scope at `h`. -/
def InBody (h path : Path) : Prop := h ++ [bodyName] <+: path

def Store.Hosted (st : Store) (path : Path) : Prop :=
  ∃ d ∈ st.tops, InBody (Text.splitOn 46 d.name) path

/-- The type of the declaration with the given number stands under its own name, or under that of the
unit that declares it. -/
def World.Declares (w : World) (name : Text) (id : Nat) (path : Path) (key : Key) : Prop :=
  ∃ d ∈ w.store.tops, d.id = id ∧ d.name = name ∧
    (name.At path key ∨
      ∃ u ∈ w.units, u.name.At path key ∧ ∃ r, u.root = some r ∧ r.fullName = name)

/-- What is granted beforehand: that namespaces are names of words, if it holds, and that loaders give
none but the given symbols. -/
structure Plain where
  Holds : Prop
  given : Symbol → Prop

instance : CoeSort Plain Prop := ⟨Plain.Holds⟩

instance : Coe Plain Prop := ⟨Plain.Holds⟩

def Plain.of (p : Prop) : Plain := ⟨p, fun _ => True⟩

/-- What holds of a symbol in the scope at a path under a key. -/
structure Symbol.Fit (plain : Plain) (w : World) (path : Path) (key : Key) (symbol : Symbol) :
    Prop where
  declares : ∀ n, symbol.node? = some n → n.Declares ∧ n.Below w.store.next
  keyed : symbol.Keyed
  origin : ∀ name id, symbol = .type name (.declared id) →
    ∃ d ∈ w.store.tops, d.id = id ∧ d.name = name
  dotted : plain → symbol.Dotted
  hosted : plain → ∀ n, symbol.node? = some n →
    n.IsType ∧ (∀ h, ¬InBody h path) ∨ w.store.Hosted path
  arity : plain → ∀ n name k, symbol.node? = some n → n.arity? = some (name, k) →
    Text.isWord name ∧ key = .overloads (callName name k)
  /-- Names of values are in bodies. -/
  inside : plain → symbol.IsValue → w.store.Hosted path
  /-- The full name of the type that is meant is in the table, but for type variables, which stand
  under their own names in bodies. -/
  known : plain → ∀ full, symbol.full? = some full →
    w.store.table.Taken full ∨ w.store.Hosted path ∧ key = .plain full
  /-- Aliases are in the scopes of declared types. -/
  aliased : plain → ∀ id target decl, symbol = .alias id target decl →
    ∃ d ∈ w.store.tops, path = Text.splitOn 46 d.name
  /-- A type that no source declares is given by a loader and stands under its own name. -/
  loaded : plain → ∀ full, symbol.loaded? = some full → full.At path key ∧ plain.given symbol
  declared : plain → ∀ name id, symbol = .type name (.declared id) → w.Declares name id path key

/-- What holds of a top-level declaration. -/
structure Declared.Fit (plain : Prop) (st : Store) (d : Declared) : Prop where
  id : d.id < st.next
  top : (Node.top d.top).Below st.next
  tree : (Node.top d.top).All fun n => n.label.Keyed ∧ n.ann.scope.isSome
  dotted : plain → Text.isDotted d.name
  /-- Something is found under its full name. -/
  found : ∃ key, (Name.ofText d.name).key = .ok key ∧
    ¬st.table.Free (Scope.home [] (Name.ofText d.name)) key

theorem Declared.Fit.taken {plain : Prop} {st : Store} {d : Declared} (h : d.Fit plain st)
    (hp : plain) : st.table.Taken d.name := by
  obtain ⟨key, hKey, hNot⟩ := h.found
  rw [(Name.dotted_ofText (h.dotted hp)).key] at hKey
  obtain rfl := Except.ok.inj hKey
  exact hNot

/-- Two top-level declarations have no number in common. -/
structure Declared.Apart (d d' : Declared) : Prop where
  ids : d.id ≠ d'.id
  tops : d.top.ann.id ≠ d'.top.ann.id
  idTop : d.id ≠ d'.top.ann.id
  topId : d.top.ann.id ≠ d'.id

/-- The symbols of a loader are not declared in sources, and are named as they are asked for. -/
def Loader.Bare (plain : Prop) (l : Loader) : Prop :=
  ∀ name symbol, l.known? name = some symbol →
    symbol.node? = none ∧ (∀ full id, symbol ≠ .type full (.declared id)) ∧
      (name.full.Keyed → symbol.Keyed) ∧
        (plain → Text.isDotted name.full → symbol.loaded? = some name.full)

/-- A diagnostic does not say of a top-level declaration that its name is taken, but for the name
`this` in its body. -/
def Diagnostic.Spares (e : Diagnostic) : Prop :=
  e.kind = .alreadyDefined → ∀ t, e.node = some (.top t) →
    e.message = Problem.message (.alreadyDefined "this" none)

/-- A name has an entry that is seen from the scope at a path. -/
def Scope.Seen (t : Scope) (path : Path) (text : Text) : Prop :=
  ∃ q, Sees path (Name.ofText text) q ∧ ¬t.Free q (.plain (Name.ofText text).simple)

theorem Scope.Seen.mono {text : Text} (h : t.Seen path text) (hExtends : t.Extends t') :
    t'.Seen path text := by
  obtain ⟨q, hSees, hTaken⟩ := h
  exact ⟨q, hSees, fun hFree => hTaken (hExtends _ _ hFree)⟩

/-- The type that a node names is seen from the scope of the node. -/
def Node.Resolves (t : Scope) : Node Meta → Prop
  | .spec (.simple m text _) =>
    Text.isDotted text ∧ ∃ path, m.scope = some path ∧ t.Seen path text
  | _ => True

theorem Node.Resolves.mono {n : Node Meta} (h : n.Resolves t) (hExtends : t.Extends t') :
    n.Resolves t' := by
  cases n with
  | spec s =>
    cases s with
    | simple m text args =>
      obtain ⟨hText, path, hPath, hSeen⟩ := h
      exact ⟨hText, path, hPath, hSeen.mono hExtends⟩
    | _ => trivial
  | _ => trivial

/-- What the diagnostics of a source say that has declared its type: that its name is taken they do
not say, and if they do not say that a type is not defined, the types that it names are seen. -/
structure Root.Reports (r : Root Meta) (errors : List Diagnostic) (t : Scope) : Prop where
  spares : ∀ e ∈ errors, e.Spares
  resolved : (∃ e ∈ errors, e.kind = .typeNotDefined) ∨ (Node.root r).All (Node.Resolves t)

theorem Root.Reports.mono {r : Root Meta} {errors : List Diagnostic} (h : r.Reports errors t)
    (hExtends : t.Extends t') : r.Reports errors t' :=
  ⟨h.spares, h.resolved.imp_right fun hAll => hAll.mono fun _ hn => hn.mono hExtends⟩

/-- What a unit has come to that is compiled: its text cannot be read, or its tree declares its type,
or the name of that type was taken. -/
structure SourceUnit.Outcome (u : SourceUnit) (st : Store) : Prop where
  unread : u.root = none → ∃ next e, Root.parse u.space u.text next = .error e
  read : ∀ r, u.root = some r → ∃ next r' after,
    Root.parse u.space u.text next = .ok (r', after) ∧ r'.fullName = r.fullName
  declared : ∀ r, u.root = some r →
    (∃ d ∈ st.tops, d.Of r) ∧ r.Reports u.errors st.table ∨
      (∀ d ∈ st.tops, ¬d.Of r) ∧ st.table.Taken r.fullName

/-- What holds of every world. The names and the bodies are in order only if the namespaces are
names of words, which is what `plain` says. -/
structure Sound (plain : Plain) (w : World) : Prop where
  names : (w.units.map (·.name)).Nodup
  spaces : plain → ∀ u ∈ w.units, Text.Spaced u.space
  loaders : ∀ l ∈ w.config.loaders, l.Bare plain
  given : plain → ∀ l ∈ w.config.loaders, ∀ name symbol, l.known? name = some symbol →
    plain.given symbol
  filled : w.store.table.Filled
  table : ∀ {path key n symbol}, w.store.table.Entry path key n symbol →
    symbol.Fit plain w path key
  logged : ∀ {id symbols}, (id, symbols) ∈ w.store.refs → id < w.store.next
  refs : ∀ {id symbols}, (id, symbols) ∈ w.store.refs → ∀ symbol ∈ symbols, ∀ n,
    symbol.node? = some n → n.Declares ∧ n.Below w.store.next
  tops : ∀ d ∈ w.store.tops, d.Fit plain w.store
  apart : w.store.tops.Pairwise Declared.Apart
  topNames : (w.store.tops.map (·.name)).Nodup
  roots : ∀ u ∈ w.units, ∀ r, u.root = some r → (Node.root r).Below w.store.next
  unread : ∀ u ∈ w.units, u.status = .pending → u.root = none
  named : plain → ∀ u ∈ w.units, ∀ r, u.root = some r → ∀ d ∈ w.store.tops, d.Of r →
    d.name = r.fullName
  outcomes : plain → ∀ u ∈ w.units, u.status = .compiled → u.Outcome w.store

/-- What the work on other units may do to a unit: nothing, or compile it. The nodes of its tree are
then new. -/
def SourceUnit.Step (K : Nat → Prop) (u u' : SourceUnit) : Prop :=
  u' = u ∨ (u.status = .pending ∧ u'.status = .compiled ∧ u'.name = u.name ∧ u'.space = u.space ∧
    u'.path = u.path ∧ u'.text = u.text ∧ ∀ r, u'.root = some r → (Node.root r).Clear K)

/-- The sources that are no longer pending, by their paths and texts. -/
def World.started (w : World) : Multiset (Text × Text) :=
  ((w.units.filter (·.status ≠ .pending)).map fun u => (u.path, u.text) : List (Text × Text))

/-- The sources that were read, by their paths and texts. -/
def World.read (w : World) : Multiset (Text × Text) :=
  (w.files.map fun f => (f.path, f.text) : List (Text × Text))

/-- An assignment in one of the given trees, or in one of a unit that was compiled with new nodes,
stands for the node with the given number. -/
def World.Assigns (K : Nat → Prop) (T : Root Meta → Prop) (w : World) (id : Nat) : Prop :=
  ∃ r, (T r ∨ ∃ u ∈ w.units, u.status = .compiled ∧ u.root = some r ∧ (Node.root r).Clear K) ∧
    ∃ m ref v, Node.value (.assign m ref v) ∈ (Node.root r).nodes ∧
      ∃ symbol n, (ref.ann.id, [symbol]) ∈ w.store.refs ∧ w.store.decl? symbol = some n ∧
        n.IsType ∧ n.ann.id = id

/-- What is left alone between two worlds in which only other units are worked on: the nodes whose
numbers satisfy `K` keep their types and their symbols, but for those that an assignment stands for,
the bodies of declared types keep their entries, and units that were started stay as they are. -/
structure Moves (plain : Prop) (K : Nat → Prop) (T : Root Meta → Prop) (b w : World) : Prop where
  next : b.store.next ≤ w.store.next
  config : w.config = b.config
  tops : ∃ new, w.store.tops = b.store.tops ++ new ∧ ∀ d ∈ new, ¬K d.id ∧ ¬K d.top.ann.id
  taken : ∀ {path key}, w.store.table.Free path key → b.store.table.Free path key
  bodies : plain → ∀ {path key n symbol}, b.store.Hosted path →
    w.store.table.Entry path key n symbol → b.store.table.Entry path key n symbol
  log : b.store.refs <:+ w.store.refs
  links : ∀ id, K id → w.store.relativesOf? id = b.store.relativesOf? id
  refs : plain → ∀ id, K id → w.store.refsOf? id = b.store.refsOf? id
  types : plain → ∀ id, K id → w.store.typeOf? id = b.store.typeOf? id ∨ w.Assigns K T id
  units : List.Forall₂ (SourceUnit.Step K) b.units w.units
  files : w.read + b.started = b.read + w.started

/-- What is declared between two worlds is declared by units that are compiled. -/
def World.Owned (b w : World) : Prop :=
  ∀ d ∈ w.store.tops, d ∈ b.store.tops ∨
    ∃ u ∈ w.units, u.status = .compiled ∧ ∃ r, u.root = some r ∧ d.Of r

/-- What the work on units comes to. -/
structure Advances (plain : Plain) (w w' : World) : Prop where
  sound : Sound plain w'
  moves : Moves plain (· < w.store.next) (fun _ => False) w w'
  owned : w.Owned w'

/-- What holds of a symbol that is loaded for a name: no source declares it and it has that name, or
it is the type of the unit with that name. -/
structure Symbol.Loaded (plain : Plain) (w : World) (name : Name) (symbol : Symbol) : Prop where
  bare : symbol.node? = none
  keyed : name.full.Keyed → symbol.Keyed
  declared : ∀ full id, symbol = .type full (.declared id) →
    ∃ d ∈ w.store.tops, d.id = id ∧ d.name = full
  dotted : plain → symbol.Dotted
  origin : plain → symbol.loaded? = some name.full ∧ plain.given symbol ∨
    ∃ d ∈ w.store.tops, symbol = d.symbol ∧
      ∃ u ∈ w.units, u.name = name.full ∧ ∃ r, u.root = some r ∧ r.fullName = d.name

/-- The units that are being compiled have declared their types. -/
def Flying (w : World) : Prop :=
  ∀ u ∈ w.units, u.status = .compiling → ∃ r d, u.root = some r ∧ d ∈ w.store.tops ∧
    d.id = r.top.ann.id ∧ d.name = r.fullName

/-- A fault that names of other kinds than words may bring about. -/
def Fault.OfNames (f : Fault) : Prop := f ≠ .exhausted ∧ f ≠ .impossible

theorem Fault.OfNames.of_key {name : Name} {f : Fault} (h : name.key = .error f) : f.OfNames := by
  rw [Name.key_fault h]
  exact ⟨Fault.noConfusion, Fault.noConfusion⟩

/-- A fault that the check of a source may end with, if its namespace is no name of words. -/
structure Failing (plain : Plain) (K : Nat → Prop) (b : World) (f : Fault) (w : World) : Prop where
  odd : ¬plain
  ofNames : f.OfNames
  sound : Sound plain w
  moves : Moves plain K (fun _ => False) b w

/-- What only grows from one world to another. -/
structure World.Grows (w w' : World) : Prop where
  next : w.store.next ≤ w'.store.next
  tops : ∀ d ∈ w.store.tops, ∃ d' ∈ w'.store.tops, d'.id = d.id ∧ d'.name = d.name
  taken : ∀ {path key}, w'.store.table.Free path key → w.store.table.Free path key
  trees : ∀ u ∈ w.units, ∀ r, u.root = some r →
    ∃ u' ∈ w'.units, u'.name = u.name ∧ ∃ r', u'.root = some r' ∧ r'.fullName = r.fullName

section Growth

variable {plain : Plain} {w w' : World} {st st' : Store}

theorem Store.Hosted.mono (h : st.Hosted path)
    (hNames : ∀ d ∈ st.tops, ∃ d' ∈ st'.tops, d'.name = d.name) : st'.Hosted path := by
  obtain ⟨d, hd, hBody⟩ := h
  obtain ⟨d', hd', hName⟩ := hNames d hd
  exact ⟨d', hd', hName ▸ hBody⟩

theorem World.Grows.hosted (h : w.Grows w') (hPath : w.store.Hosted path) : w'.store.Hosted path :=
  hPath.mono fun d hd => by
    obtain ⟨d', hd', _, hName⟩ := h.tops d hd
    exact ⟨d', hd', hName⟩

theorem World.Grows.declares (h : w.Grows w') {name : Text} {id : Nat} {key : Key}
    (hDeclares : w.Declares name id path key) : w'.Declares name id path key := by
  obtain ⟨d, hd, rfl, rfl, hAt⟩ := hDeclares
  obtain ⟨d', hd', hId, hName⟩ := h.tops d hd
  refine ⟨d', hd', hId, hName, hAt.imp_right fun ⟨u, hu, hOf, r, hRoot, hFull⟩ => ?_⟩
  obtain ⟨u', hu', hSame, r', hRoot', hFull'⟩ := h.trees u hu r hRoot
  exact ⟨u', hu', hSame ▸ hOf, r', hRoot', hFull'.trans hFull⟩

theorem Symbol.Fit.mono {key : Key} {symbol : Symbol} (h : symbol.Fit plain w path key)
    (hGrows : w.Grows w') : symbol.Fit plain w' path key where
  declares n hn := ⟨(h.declares n hn).1, (h.declares n hn).2.mono hGrows.next⟩
  keyed := h.keyed
  origin name id hType := by
    obtain ⟨d, hd, rfl, rfl⟩ := h.origin name id hType
    exact hGrows.tops d hd
  dotted := h.dotted
  hosted hp n hn := (h.hosted hp n hn).imp_right hGrows.hosted
  arity := h.arity
  inside hp hValue := hGrows.hosted (h.inside hp hValue)
  known hp full hFull := (h.known hp full hFull).imp (fun hTaken hFree => hTaken (hGrows.taken hFree))
    (And.imp_left hGrows.hosted)
  aliased hp id target decl hAlias := by
    obtain ⟨d, hd, hPath⟩ := h.aliased hp id target decl hAlias
    obtain ⟨d', hd', _, hName⟩ := hGrows.tops d hd
    exact ⟨d', hd', hName ▸ hPath⟩
  loaded := h.loaded
  declared hp name id hType := hGrows.declares (h.declared hp name id hType)

theorem Declared.Fit.mono {d : Declared} (h : d.Fit plain st) (hNext : st.next ≤ st'.next)
    (hFree : ∀ {path key}, st'.table.Free path key → st.table.Free path key) : d.Fit plain st' where
  id := Nat.lt_of_lt_of_le h.id hNext
  top := h.top.mono hNext
  tree := h.tree
  dotted := h.dotted
  found := by
    obtain ⟨key, hKey, hNot⟩ := h.found
    exact ⟨key, hKey, fun hNow => hNot (hFree hNow)⟩

theorem SourceUnit.Outcome.mono (h : u.Outcome st)
    (hTops : ∀ r, u.root = some r → ((∃ d ∈ st'.tops, d.Of r) ↔ ∃ d ∈ st.tops, d.Of r))
    (hFree : ∀ {path key}, st'.table.Free path key → st.table.Free path key) : u.Outcome st' where
  unread := h.unread
  read := h.read
  declared r hr := by
    obtain ⟨hSome, hReports⟩ | ⟨hNone, hTaken⟩ := h.declared r hr
    · exact .inl ⟨(hTops r hr).2 hSome, hReports.mono fun _ _ => hFree⟩
    · refine .inr ⟨fun d hd hOf => ?_, fun hNow => hTaken (hFree hNow)⟩
      obtain ⟨d', hd', hOf'⟩ := (hTops r hr).1 ⟨d, hd, hOf⟩
      exact hNone d' hd' hOf'

end Growth

/-- What a change of the table, the logs and the counter has to satisfy for the world to stay
sound. -/
structure Sound.Change (plain : Plain) (w w' : World) : Prop where
  units : w'.units = w.units
  config : w'.config = w.config
  files : w'.files = w.files
  tops : w'.store.tops = w.store.tops
  next : w.store.next ≤ w'.store.next
  taken : ∀ {path key}, w'.store.table.Free path key → w.store.table.Free path key
  filled : w.store.table.Filled → w'.store.table.Filled
  table : ∀ {path key n symbol}, w'.store.table.Entry path key n symbol →
    w.store.table.Entry path key n symbol ∨ symbol.Fit plain w' path key
  log : w.store.refs <:+ w'.store.refs
  refs : ∀ {id symbols}, (id, symbols) ∈ w'.store.refs →
    (id, symbols) ∈ w.store.refs ∨ id < w'.store.next ∧ ∀ symbol ∈ symbols, ∀ n,
      symbol.node? = some n → n.Declares ∧ n.Below w'.store.next

theorem Sound.Change.grows {plain : Plain} {w w' : World} (h : Sound.Change plain w w') :
    w.Grows w' where
  next := h.next
  tops d hd := ⟨d, h.tops ▸ hd, rfl, rfl⟩
  taken := h.taken
  trees u hu r hr := ⟨u, h.units ▸ hu, rfl, r, hr, rfl⟩

theorem Sound.change {plain : Plain} {w w' : World} (h : Sound plain w)
    (hChange : Sound.Change plain w w') : Sound plain w' where
  names := hChange.units ▸ h.names
  spaces := hChange.units ▸ h.spaces
  loaders := hChange.config ▸ h.loaders
  given := hChange.config ▸ h.given
  filled := hChange.filled h.filled
  table hEntry := by
    obtain hOld | hNew := hChange.table hEntry
    · exact (h.table hOld).mono hChange.grows
    · exact hNew
  logged hLog := (hChange.refs hLog).elim
    (fun hOld => Nat.lt_of_lt_of_le (h.logged hOld) hChange.next) fun hNew => hNew.1
  refs hLog symbol hs n hn := by
    obtain hOld | hNew := hChange.refs hLog
    · obtain ⟨hDeclares, hBelow⟩ := h.refs hOld symbol hs n hn
      exact ⟨hDeclares, hBelow.mono hChange.next⟩
    · exact hNew.2 symbol hs n hn
  tops d hd := (h.tops d (hChange.tops ▸ hd)).mono hChange.next hChange.taken
  apart := hChange.tops ▸ h.apart
  topNames := hChange.tops ▸ h.topNames
  roots u hu r hr := (h.roots u (hChange.units ▸ hu) r hr).mono hChange.next
  unread := hChange.units ▸ h.unread
  named := hChange.units ▸ hChange.tops ▸ h.named
  outcomes hp u hu hStatus := by
    refine (h.outcomes hp u (hChange.units ▸ hu) hStatus).mono (fun r _ => ?_) hChange.taken
    rw [hChange.tops]

namespace World

variable {K K' : Nat → Prop} {T T' : Root Meta → Prop} {b w w' : World} {id : Nat}

theorem files_trans (h : w.read + b.started = b.read + w.started)
    (h' : w'.read + w.started = w.read + w'.started) :
    w'.read + b.started = b.read + w'.started := by
  refine add_left_cancel (a := w.read + w.started) ?_
  calc w.read + w.started + (w'.read + b.started)
      = w'.read + w.started + (w.read + b.started) := by abel
    _ = w.read + w'.started + (b.read + w.started) := by rw [h', h]
    _ = w.read + w.started + (b.read + w'.started) := by abel

theorem Assigns.mono (h : w.Assigns K' T id) (hK : ∀ id, K id → K' id) (hT : ∀ r, T r → T' r) :
    w.Assigns K T' id := by
  obtain ⟨r, hr, hAssign⟩ := h
  refine ⟨r, hr.imp (hT r) fun ⟨u, hu, hStatus, hRoot, hClear⟩ => ?_, hAssign⟩
  exact ⟨u, hu, hStatus, hRoot, hClear.mono fun n hn hId => hn (hK _ hId)⟩

theorem Assigns.keep (h : w.Assigns K T id)
    (hUnits : ∀ u ∈ w.units, u.status = .compiled → u ∈ w'.units)
    (hTops : w.store.tops <+: w'.store.tops) (hLog : w.store.refs <:+ w'.store.refs) :
    w'.Assigns K T id := by
  obtain ⟨r, hr, m, ref, v, hMem, symbol, n, hRef, hDecl, hType, hId⟩ := h
  refine ⟨r, hr.imp_right fun ⟨u, hu, hStatus, hRoot⟩ => ⟨u, hUnits u hu hStatus, hStatus, hRoot⟩,
    m, ref, v, hMem, symbol, n, hLog.subset hRef, ?_, hType, hId⟩
  rw [← hDecl]
  cases symbol with
  | type name origin =>
    cases origin with
    | declared top =>
      obtain ⟨new, hNew⟩ := hTops
      simp only [Store.decl?, Store.top?] at hDecl ⊢
      rw [← hNew, List.find?_append]
      cases hFind : w.store.tops.find? (·.id = top) with
      | none => simp [hFind] at hDecl
      | some d => rfl
    | _ => rfl
  | _ => rfl

end World

namespace SourceUnit.Step

variable {K K' : Nat → Prop} {u u' u'' : SourceUnit}

theorem refl (u : SourceUnit) : Step K u u := .inl rfl

theorem trans (h : Step K u u') (h' : Step K u' u'') : Step K u u'' := by
  obtain rfl | ⟨hPending, hCompiled, hKept⟩ := h
  · exact h'
  · obtain rfl | ⟨hPending', _⟩ := h'
    · exact .inr ⟨hPending, hCompiled, hKept⟩
    · simp [hCompiled] at hPending'

theorem mono (h : Step K' u u') (hK : ∀ id, K id → K' id) : Step K u u' :=
  h.imp_right fun ⟨h₁, h₂, h₃, h₄, h₅, h₆, hRoot⟩ =>
    ⟨h₁, h₂, h₃, h₄, h₅, h₆, fun r hr => (hRoot r hr).mono fun _ hn hId => hn (hK _ hId)⟩

theorem eq_of_started (h : Step K u u') (hStatus : u.status ≠ .pending) : u' = u :=
  h.resolve_right fun ⟨hPending, _⟩ => hStatus hPending

theorem name (h : Step K u u') : u'.name = u.name := by
  obtain rfl | ⟨_, _, hName, _⟩ := h
  · rfl
  · exact hName

end SourceUnit.Step

namespace Moves

variable {plain : Prop} {K K' : Nat → Prop} {T T' : Root Meta → Prop} {b w w' : World}

theorem refl (plain : Prop) (K : Nat → Prop) (T : Root Meta → Prop) (b : World) :
    Moves plain K T b b where
  next := Nat.le_refl _
  config := rfl
  tops := ⟨[], (List.append_nil _).symm, by simp⟩
  taken := id
  bodies _ _ _ _ _ _ := id
  log := List.suffix_refl _
  links _ _ := rfl
  refs _ _ _ := rfl
  types _ _ _ := .inl rfl
  units := List.forall₂_same.2 fun u _ => .refl u
  files := rfl

theorem mono (h : Moves plain K' T b w) (hK : ∀ id, K id → K' id) (hT : ∀ r, T r → T' r) :
    Moves plain K T' b w where
  next := h.next
  config := h.config
  tops := by
    obtain ⟨new, hNew, hClear⟩ := h.tops
    exact ⟨new, hNew, fun d hd => ⟨fun hId => (hClear d hd).1 (hK _ hId),
      fun hId => (hClear d hd).2 (hK _ hId)⟩⟩
  taken := h.taken
  bodies := h.bodies
  log := h.log
  links id hId := h.links id (hK id hId)
  refs hp id hId := h.refs hp id (hK id hId)
  types hp id hId := (h.types hp id (hK id hId)).imp_right fun hAssigns => hAssigns.mono hK hT
  units := h.units.imp fun _ _ hStep => hStep.mono hK
  files := h.files

theorem vacuous (h : Moves plain K T b w) (hOdd : ¬plain) : Moves plain K T' b w where
  next := h.next
  config := h.config
  tops := h.tops
  taken := h.taken
  bodies := h.bodies
  log := h.log
  links := h.links
  refs := h.refs
  types hp := absurd hp hOdd
  units := h.units
  files := h.files

theorem prefix_tops (h : Moves plain K T b w) : b.store.tops <+: w.store.tops := by
  obtain ⟨new, hNew, _⟩ := h.tops
  exact ⟨new, hNew.symm⟩

theorem hosted (h : Moves plain K T b w) (hPath : b.store.Hosted path) : w.store.Hosted path :=
  hPath.mono fun d hd => ⟨d, h.prefix_tops.subset hd, rfl⟩

theorem mem_units (h : Moves plain K T b w) (hu : u ∈ b.units) (hStatus : u.status ≠ .pending) :
    u ∈ w.units := by
  obtain ⟨i, hi, rfl⟩ := List.getElem_of_mem hu
  have hi' : i < w.units.length := h.units.length_eq ▸ hi
  have hStep := List.forall₂_iff_get.1 h.units |>.2 i hi hi'
  exact List.mem_iff_getElem.2 ⟨i, hi', hStep.eq_of_started hStatus⟩

theorem trans (h : Moves plain K T b w) (h' : Moves plain K T w w') : Moves plain K T b w' where
  next := Nat.le_trans h.next h'.next
  config := h'.config.trans h.config
  tops := by
    obtain ⟨new, hNew, hClear⟩ := h.tops
    obtain ⟨new', hNew', hClear'⟩ := h'.tops
    refine ⟨new ++ new', by rw [hNew', hNew, List.append_assoc], fun d hd => ?_⟩
    exact (List.mem_append.1 hd).elim (hClear d) (hClear' d)
  taken hFree := h.taken (h'.taken hFree)
  bodies hp _ _ _ _ hHosted hEntry := h.bodies hp hHosted (h'.bodies hp (h.hosted hHosted) hEntry)
  log := h.log.trans h'.log
  links id hId := (h'.links id hId).trans (h.links id hId)
  refs hp id hId := (h'.refs hp id hId).trans (h.refs hp id hId)
  types hp id hId := by
    obtain hSame' | hAssigns := h'.types hp id hId
    · obtain hSame | hAssigns := h.types hp id hId
      · exact .inl (hSame'.trans hSame)
      · exact .inr (hAssigns.keep (fun u hu hStatus => h'.mem_units hu (by simp [hStatus]))
          h'.prefix_tops h'.log)
    · exact .inr hAssigns
  units := by
    have hLength := h.units.length_eq
    have hLength' := h'.units.length_eq
    refine List.forall₂_iff_get.2 ⟨hLength.trans hLength', fun i hi hi' => ?_⟩
    exact ((List.forall₂_iff_get.1 h.units).2 i hi (hLength ▸ hi)).trans
      ((List.forall₂_iff_get.1 h'.units).2 i (hLength ▸ hi) hi')
  files := World.files_trans h.files h'.files

theorem unit_cases (h : Moves plain K T b w) (hu : u ∈ w.units) :
    u ∈ b.units ∨ u.status = .compiled ∧ ∀ r, u.root = some r → (Node.root r).Clear K := by
  obtain ⟨i, hi, rfl⟩ := List.getElem_of_mem hu
  have hi' : i < b.units.length := h.units.length_eq ▸ hi
  obtain hSame | ⟨_, hCompiled, _, _, _, _, hClear⟩ := List.forall₂_iff_get.1 h.units |>.2 i hi' hi
  · exact .inl (List.mem_iff_getElem.2 ⟨i, hi', hSame.symm⟩)
  · exact .inr ⟨hCompiled, hClear⟩

theorem change {plain : Plain} (h : Moves plain K T b w) (hChange : Sound.Change plain w w')
    (hBodies : plain → ∀ {path key n symbol}, b.store.Hosted path →
      w'.store.table.Entry path key n symbol → w.store.table.Entry path key n symbol)
    (hRefs : plain → ∀ id, K id → w'.store.refsOf? id = w.store.refsOf? id)
    (hTypes : plain → ∀ id, K id →
      w'.store.typeOf? id = w.store.typeOf? id ∨ w'.Assigns K T id)
    (hLinks : ∀ id, K id → w'.store.relativesOf? id = w.store.relativesOf? id) :
    Moves plain K T b w' where
  next := Nat.le_trans h.next hChange.next
  config := hChange.config.trans h.config
  tops := hChange.tops ▸ h.tops
  taken hFree := h.taken (hChange.taken hFree)
  bodies hp _ _ _ _ hHosted hEntry := h.bodies hp hHosted (hBodies hp hHosted hEntry)
  log := h.log.trans hChange.log
  links id hId := (hLinks id hId).trans (h.links id hId)
  refs hp id hId := (hRefs hp id hId).trans (h.refs hp id hId)
  types hp id hId := by
    obtain hSame' | hAssigns := hTypes hp id hId
    · obtain hSame | hAssigns := h.types hp id hId
      · exact .inl (hSame'.trans hSame)
      · refine .inr (hAssigns.keep (fun u hu _ => hChange.units ▸ hu) ?_ hChange.log)
        rw [hChange.tops]
    · exact .inr hAssigns
  units := hChange.units ▸ h.units
  files := by
    have hRead : w'.read = w.read := by rw [World.read, World.read, hChange.files]
    have hStarted : w'.started = w.started := by rw [World.started, World.started, hChange.units]
    rw [hRead, hStarted]
    exact h.files

end Moves

namespace Advances

variable {plain : Plain} {w w' w'' : World}

theorem refl (h : Sound plain w) : Advances plain w w := ⟨h, .refl _ _ _ _, fun _ => .inl⟩

theorem trans (h : Advances plain w w') (h' : Advances plain w' w'') : Advances plain w w'' where
  sound := h'.sound
  moves := h.moves.trans
    (h'.moves.mono (fun _ hId => Nat.lt_of_lt_of_le hId h.moves.next) fun _ => id)
  owned d hd := by
    obtain hd | hUnit := h'.owned d hd
    · obtain hd | ⟨u, hu, hStatus, hOf⟩ := h.owned d hd
      · exact .inl hd
      · exact .inr ⟨u, h'.moves.mem_units hu (by simp [hStatus]), hStatus, hOf⟩
    · exact .inr hUnit

end Advances

end Assay
