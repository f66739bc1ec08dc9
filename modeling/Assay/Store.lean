import Assay.Scope
import Assay.Tree.Relatives

/-! The store: the symbol table, and what is known about nodes beside their own annotation. -/

namespace Assay

/-- A top-level declaration: the number of its first node, its full name, and its tree as it is
now. -/
structure Declared where
  id : Nat
  name : Text
  top : TopLevel Meta

def Declared.symbol (d : Declared) : Symbol := .type d.name (.declared d.id)

/-- The symbol table, the top-level declarations, the types of nodes, the symbols of references,
the places of nodes in their trees, and the number of the next node. -/
structure Store where
  table : Scope
  tops : List Declared
  types : List (Nat × TypeSpec Meta)
  refs : List (Nat × List Symbol)
  links : List (Nat × Relatives Meta)
  next : Nat

namespace Store

def empty : Store := ⟨.table, [], [], [], [], 1⟩

/-- The top-level declaration whose first node has the given number. -/
def top? (st : Store) (id : Nat) : Option Declared := st.tops.find? (·.id = id)

/-- The node that declares a symbol, as it is now. -/
def decl? (st : Store) : Symbol → Option (Node Meta)
  | .type _ (.declared id) => (st.top? id).map fun d => .top d.top
  | .type _ (.variable p) => some (.typeParam p)
  | .type _ .unknown => none
  | .named _ decl => decl
  | .alias _ _ decl => decl
  | .hostClass _ | .hostInterface _ | .library _ => none

def position? (st : Store) (s : Symbol) : Option Position :=
  (st.decl? s).bind fun n => n.ann.position

/-- The declaration that a top-level node belongs to: as its first node, or as its tree now. -/
def declaredBy? (st : Store) (top : TopLevel Meta) : Option Declared :=
  st.tops.find? fun d => d.id = top.ann.id || d.top.ann.id = top.ann.id

def typeOf? (st : Store) (id : Nat) : Option (TypeSpec Meta) := st.types.lookup id

def refsOf? (st : Store) (id : Nat) : Option (List Symbol) := st.refs.lookup id

/-- The place of a node in its tree, as it was linked last. -/
def relativesOf? (st : Store) (id : Nat) : Option (Relatives Meta) := st.links.lookup id

def setType (st : Store) (id : Nat) (t : TypeSpec Meta) : Store :=
  { st with types := (id, t) :: st.types }

def setRefs (st : Store) (id : Nat) (symbols : List Symbol) : Store :=
  { st with refs := (id, symbols) :: st.refs }

def addTop (st : Store) (d : Declared) : Store := { st with tops := st.tops ++ [d] }

/-- The store after the tree of the top-level declaration with the given number has changed. -/
def setTop (st : Store) (id : Nat) (top : TopLevel Meta) : Store :=
  { st with tops := st.tops.map fun d => if d.id = id then { d with top } else d }

/-- The store after a tree is linked: each of its nodes has its place there. -/
def link (st : Store) (n : Node Meta) : Store :=
  { st with links := (Relatives.ofRoot n).nodes.map (fun r => (r.node.ann.id, r)) ++ st.links }

/-- The store after a node is built anew: it takes over the type and the symbols of another. -/
def derive (st : Store) (id new : Nat) : Store :=
  let typed := (st.typeOf? id).elim st (st.setType new)
  (typed.refsOf? id).elim typed (typed.setRefs new)

end Store

/-- The numbers of the nodes of a tree that another tree has built anew, each with the new one. Types
are left out: they have neither a type nor symbols of their own. -/
def Node.renewals {α : Type} (id : α → Nat) (n n' : Node α) : List (Nat × Nat) :=
  if id n.ann = id n'.ann then []
  else
    match n with
    | .spec _ => []
    | n => (id n.ann, id n'.ann) ::
      (n.children.attach.zip n'.children).flatMap fun (k, k') => renewals id k.1 k'
termination_by sizeOf n
decreasing_by exact sizeOf_lt_of_mem_children k.2

/-- The store after a tree is built anew: each new node takes over what is known of the one in whose
place it stands. -/
def Store.inherit (st : Store) (n n' : Node Meta) : Store :=
  (n.renewals Meta.id n').foldl (fun st (id, new) => st.derive id new) st

/-- The store after a source is built anew: its nodes take over what is known of the old ones, and
the top-level node also the symbol that the old one declares. -/
def Store.renew (st : Store) (r r' : Root Meta) : Store :=
  let st := st.inherit (.root r) (.root r')
  match st.declaredBy? r.top with
  | some d => st.setTop d.id r'.top
  | none => st

end Assay
