import ProcessContracts.Label

/-!
# Verdicts on refinement
-/

namespace ProcessContracts

/-- What a behaviour does that its contract does not allow. -/
inductive Violation where
  | unexpectedStep (label : Label)
  | divergence
  | unconstrained
deriving DecidableEq

/-- A violation and the visible steps that both sides take before it. -/
structure Counterexample where
  path : List Label
  violation : Violation
deriving DecidableEq

inductive Verdict where
  | refines
  | violated (counterexample : Counterexample)
  /-- The bound on states was reached first. -/
  | inconclusive
deriving DecidableEq

structure RefinementReport where
  verdict : Verdict
  /-- Steps the contract offers that the behaviour never takes. -/
  restrictive : List Label
  statesExplored : Nat
deriving DecidableEq

def RefinementReport.holds (report : RefinementReport) : Bool := report.verdict = .refines

def Violation.describe (program : Program) : Violation → Lookup String
  | .unexpectedStep label => do pure ("it may perform " ++ (← label.describe program))
  | .divergence => pure "it may diverge"
  | .unconstrained => pure "its behaviour is unconstrained"

def Counterexample.describe (program : Program) (counterexample : Counterexample) :
    Lookup String := do
  let path ← counterexample.path.mapM (Label.describe program)
  let after := if path.isEmpty then "initially"
    else "after <" ++ String.intercalate ", " path ++ ">"
  pure (after ++ " " ++ (← counterexample.violation.describe program))

end ProcessContracts
