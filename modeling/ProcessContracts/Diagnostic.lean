import ProcessContracts.Handle
import ProcessContracts.Source

/-!
# Diagnostics

Findings about the checked program. Failures of the check itself are `CheckError`s.
-/

namespace ProcessContracts

inductive Severity where
  | warning | error
deriving DecidableEq

def Severity.text : Severity → String
  | .warning => "warning"
  | .error => "error"

inductive DiagnosticCode where
  /-- The behaviour takes a step its contract forbids. -/
  | refinementViolation
  /-- The behaviour may diverge where its contract may not. -/
  | divergence
  /-- The behaviour is unconstrained where its contract is not. -/
  | unconstrained
  /-- The contract allows what the procedure never does. -/
  | overlyRestrictive
  /-- The contract could be neither confirmed nor refuted. -/
  | inconclusive
  /-- A contract uses a recursion variable that nothing binds. -/
  | unboundContractVariable
  /-- Nothing is known about an instantiated procedure. -/
  | unresolvedCallee
  /-- A recursive instance does not pass its channels through. -/
  | permutedRecursion
  /-- A construct produced several fragments where one was expected. -/
  | excessFragments
deriving DecidableEq

namespace DiagnosticCode

/-- The stable number of the code. -/
def number : DiagnosticCode → String
  | .refinementViolation => "T0001"
  | .divergence => "T0002"
  | .unconstrained => "T0003"
  | .overlyRestrictive => "T0004"
  | .inconclusive => "T0005"
  | .unboundContractVariable => "T0006"
  | .unresolvedCallee => "T0007"
  | .permutedRecursion => "T0008"
  | .excessFragments => "T0009"

/-- The words of the code's name. -/
def words : DiagnosticCode → List String
  | .refinementViolation => ["refinement", "violation"]
  | .divergence => ["divergence"]
  | .unconstrained => ["unconstrained"]
  | .overlyRestrictive => ["overly", "restrictive"]
  | .inconclusive => ["inconclusive"]
  | .unboundContractVariable => ["unbound", "contract", "variable"]
  | .unresolvedCallee => ["unresolved", "callee"]
  | .permutedRecursion => ["permuted", "recursion"]
  | .excessFragments => ["excess", "fragments"]

/-- The name in one piece. -/
def name (code : DiagnosticCode) : String := String.intercalate "_" code.words

/-- The name as readers see it. -/
def label (code : DiagnosticCode) : String := String.intercalate " " code.words

end DiagnosticCode

structure Diagnostic where
  code : DiagnosticCode
  severity : Severity
  message : String
  span : Option Span := none
  /-- The procedure whose check produced the diagnostic. -/
  decl : Option DeclId := none
  help : Option String := none
deriving DecidableEq

namespace Diagnostic

def isError (diagnostic : Diagnostic) : Bool := diagnostic.severity = .error

def text (diagnostic : Diagnostic) : String :=
  let head := s!"{diagnostic.severity.text}[{diagnostic.code.number}]: {diagnostic.message}"
  match diagnostic.help with
  | some help => head ++ "\n  help: " ++ help
  | none => head

/-- How many of the diagnostics have the severity. -/
def count (severity : Severity) (diagnostics : List Diagnostic) : Nat :=
  diagnostics.countP (·.severity = severity)

end Diagnostic

end ProcessContracts
