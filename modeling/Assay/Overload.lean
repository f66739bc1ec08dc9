import Assay.Store

/-! Choosing among the methods of an overload set by the types of the arguments. -/

namespace Assay

/-- A method that a call may mean: its symbol, its node, and the types of its parameters. -/
structure Candidate where
  symbol : Symbol
  node : Node Meta
  params : List (TypeSpec Meta)

namespace Candidate

/-- The methods of an overload set; symbols that declare no method are passed over. -/
def ofSymbols (st : Store) (symbols : List Symbol) : List Candidate :=
  symbols.filterMap fun symbol =>
    match st.decl? symbol with
    | some (.method m) => some ⟨symbol, .method m, m.signature.params.map (·.spec)⟩
    | some (.signature s) => some ⟨symbol, .signature s, s.params.map (·.spec)⟩
    | _ => none

/-- Whether a parameter takes an argument: their types read alike, or that of the argument is not
known. -/
def takes (arg : Option (TypeSpec Meta)) (param : TypeSpec Meta) : Bool :=
  match arg with
  | some arg => arg.toText = param.toText
  | none => true

/-- The candidates whose parameters take the arguments, one by one. It is a fault if there are more
or fewer of them. -/
def matching (args : List (Option (TypeSpec Meta))) :
    List Candidate → Except Fault (List Candidate)
  | [] => .ok []
  | c :: rest => do
    if c.params.length != args.length then
      throw (.arityMismatch c.symbol.toText c.params.length args.length)
    let more ← matching args rest
    if (args.zip c.params).all fun (arg, param) => takes arg param then return c :: more
    else return more

end Candidate

end Assay
