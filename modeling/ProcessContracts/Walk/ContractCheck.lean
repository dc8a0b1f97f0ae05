import ProcessContracts.Contract.Lowering
import ProcessContracts.Refinement.Search
import ProcessContracts.Walk.Basic

/-!
# Checking a contract

A contract is lowered to a trace and the computed behaviour compared with it. What is found is
reported in the procedure's own scope, at the place where the contract is written.
-/

namespace ProcessContracts

def Violation.code : Violation → DiagnosticCode
  | .unexpectedStep _ => .refinementViolation
  | .divergence => .divergence
  | .unconstrained => .unconstrained

def unboundVariable (name : String) : Diagnostic :=
  { code := .unboundContractVariable, severity := .error, message := unboundMessage name }

/-- A diagnostic at the contract of a procedure. -/
def Diagnostic.atContract (decl : DeclId) (span : Span) (diagnostic : Diagnostic) : Diagnostic :=
  { diagnostic with span := some span, decl := some decl }

/-- What the comparison of a procedure with its contract says about it. -/
def contractDiagnostics (setting : Setting) (name : String) (approximate : Bool)
    (computed : Trace) (report : RefinementReport) : Lookup (List Diagnostic) :=
  match report.verdict with
  | .violated counterexample => do
      let found ← counterexample.describe setting.program
      let behaviour ← computed.describe setting.program
      pure [{
        code := counterexample.violation.code
        severity := .error
        message := s!"'{name}' does not meet its contract: {found}"
        help := some ("computed behaviour: " ++ behaviour) }]
  | .inconclusive =>
      pure [{
        code := .inconclusive
        severity := .warning
        message := s!"contract of '{name}' could not be checked within " ++
          s!"{setting.options.maxRefinementStates} states" }]
  | .refines =>
      if approximate then
        pure [{
          code := .inconclusive
          severity := .warning
          message := s!"contract of '{name}' cannot be confirmed: " ++
            "a recursive instance changes its channels" }]
      else if setting.options.reportRestrictive && !report.restrictive.isEmpty then do
        let steps ← report.restrictive.mapM (Label.describe setting.program)
        pure [{
          code := .overlyRestrictive
          severity := .warning
          message := s!"'{name}' never performs " ++ String.intercalate ", " steps ++
            " although its contract allows it" }]
      else pure []

namespace Walk

/-- Lowers a contract, or answers with the name of a variable that nothing binds. -/
def lower (setting : Setting) (decl : DeclId) (contract : Contract) :
    Walk (Except String Trace) := do
  let state ← get
  match (contract.lower setting.program decl).run state.supply with
  | .ok trace supply => do
      set { state with supply }
      pure (.ok trace)
  | .error (.unbound name) supply => do
      set { state with supply }
      pure (.error name)
  | .error (.fault fault) _ => throw (.fault fault)

/-- Compares a computed trace with the contract of its procedure. -/
def assess (setting : Setting) (decl : DeclId) (contract : Contract) (approximate : Bool)
    (computed : Trace) : Walk (List Diagnostic) := do
  let name ← liftLookup ((setting.program.decl decl).map (·.name))
  match ← lower setting decl contract with
  | .error unbound => pure [unboundVariable unbound]
  | .ok spec => do
      let report ← liftLookup
        (refines setting.program spec computed setting.options.maxRefinementStates)
      liftLookup (contractDiagnostics setting name approximate computed report)

/-- The scope of a procedure with the outcome of its contract check. -/
def judge (setting : Setting) (scope : Scope) (decl : DeclId) (contract : Spanned Contract)
    (computed : Trace) : Walk Scope := do
  let found ← assess setting decl contract.value scope.approximate computed
  let found := found.map (Diagnostic.atContract decl contract.span)
  record (.judged decl scope.recursionAtom computed found)
  pure (found.foldl Scope.report scope)

end Walk

end ProcessContracts
