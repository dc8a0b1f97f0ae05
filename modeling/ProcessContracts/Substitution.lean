import ProcessContracts.TraceSet

/-!
# Instantiating formal parameters

An instance pairs the visible formals of its callee with the arguments that are written, in order.
Applying the pairing to a trace replaces every channel that is a formal by its argument.
-/

namespace ProcessContracts

/-- An instance with the wrong number of arguments. -/
structure ArityMismatch where
  formals : Nat
  actuals : Nat
deriving DecidableEq

def ArityMismatch.message (mismatch : ArityMismatch) : String :=
  s!"{mismatch.formals} visible formal parameters but " ++
    s!"{mismatch.actuals} visible actual arguments"

/-- The argument of each formal. -/
abbrev Substitution := Ledger NameId ExprId

namespace Substitution

/-- Hidden parameters and hidden arguments have no part in the pairing. -/
def pair (formals : List Param) (args : List Arg) : Except ArityMismatch Substitution :=
  let formals := (formals.filter (!·.hidden)).map (·.name)
  let actuals := (args.filter (!·.hidden)).map (·.expr)
  if formals.length = actuals.length then .ok (Ledger.ofList (formals.zip actuals))
  else .error ⟨formals.length, actuals.length⟩

/-- The pairing of an instance of `callee`. -/
def forCall (program : Program) (callee : DeclId) (args : List Arg) :
    Lookup (Except ArityMismatch Substitution) := do
  pure (pair (← program.decl callee).params args)

/-- The reference an argument makes of a formal with subscript `index`. An array element passed
for a formal brings its own subscript, unless one is written already. -/
def target (program : Program) (actual : ExprId) (index : Option ExprId) : Lookup ChanRef := do
  match ← program.expr actual, index with
  | .subscript base own, none => pure ⟨← program.strip base, some own⟩
  | _, index => pure ⟨actual, index⟩

/-- The reference with its formal replaced. A formal passed through as itself leaves the
reference as it is written. -/
def redirect (program : Program) (bindings : Substitution) (chan : ChanRef) : Lookup ChanRef := do
  match ← program.resolveName chan.root with
  | none => pure chan
  | some formal =>
      match bindings.get? formal with
      | none => pure chan
      | some actual => do
          let actual ← program.strip actual
          if (← program.resolveName actual) = some formal then pure chan
          else target program actual chan.index

def apply (program : Program) (bindings : Substitution) (t : Trace) : Lookup Trace :=
  if bindings.isEmpty then pure t else t.renameChannels (redirect program bindings)

def applySet (program : Program) (bindings : Substitution) (traces : TraceSet) :
    Lookup TraceSet := do
  pure ⟨← traces.alternatives.mapM (apply program bindings)⟩

end Substitution

end ProcessContracts
