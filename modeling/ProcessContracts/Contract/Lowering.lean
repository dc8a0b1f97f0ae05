import ProcessContracts.TraceSet

/-!
# Contracts as traces

Each `rec` gets an atom of its own, numbered in the order the binders are written; a variable
refers to the innermost enclosing `rec` of its name.
-/

namespace ProcessContracts

inductive LoweringError where
  | unbound (name : String)
  | fault (fault : Fault)
deriving DecidableEq

/-- What a contract says when a variable has no binder. -/
def unboundMessage (name : String) : String :=
  s!"recursion variable '{name}' is not bound by an enclosing rec"

/-- The binders around a part of a contract, the innermost first. -/
abbrev Binders := List (String × Atom)

def Binders.find? (binders : Binders) (name : String) : Option Atom :=
  (List.find? (·.1 = name) binders).map (·.2)

/-- Lowering mints atoms; those minted before an error stay minted. -/
abbrev Lower := EStateM LoweringError AtomSupply

namespace Contract

def lowerRef (program : Program) (id : ExprId) : Lower ChanRef :=
  match ChanRef.ofExpr program id with
  | .ok chan => pure chan
  | .error fault => throw (.fault fault)

mutual

def lowerUnder (program : Program) (decl : DeclId) (binders : Binders) : Contract → Lower Trace
  | .skip => pure .skip
  | .stop => pure .stop
  | .div => pure .div
  | .chaos => pure .chaos
  | .event direction channel => do pure (.event direction (← lowerRef program channel))
  | .comp op children => do pure (.comp op (← lowerAll program decl binders children))
  | .recursion name body => do
      let atom ← modifyGet (·.mint (.contract decl))
      pure (.fix atom (← lowerUnder program decl ((name, atom) :: binders) body))
  | .var name =>
      match binders.find? name with
      | some atom => pure (.ref atom.id)
      | none => throw (.unbound name)

def lowerAll (program : Program) (decl : DeclId) (binders : Binders) :
    List Contract → Lower (List Trace)
  | [] => pure []
  | c :: cs => do
      let t ← lowerUnder program decl binders c
      pure (t :: (← lowerAll program decl binders cs))

end

/-- The trace a contract of `decl` stands for. -/
def lower (program : Program) (decl : DeclId) (contract : Contract) : Lower Trace :=
  lowerUnder program decl [] contract

end Contract

end ProcessContracts
