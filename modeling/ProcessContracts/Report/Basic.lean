import ProcessContracts.Report.Value
import ProcessContracts.Check

/-!
# Reports
-/

namespace ProcessContracts

inductive UnitKind where
  | procedure | process
deriving DecidableEq

def UnitKind.name : UnitKind → String
  | .procedure => "procedure"
  | .process => "process"

structure UnitReport where
  name : String
  kind : UnitKind
  traceSet : TraceSet
  /-- The alternatives with the names of the program. -/
  traces : List String
  diagnostics : List Diagnostic
  /-- The procedure was checked for an earlier unit, and its diagnostics are reported there. -/
  checkedOnDemand : Bool

structure ProgramReport where
  program : String
  units : List UnitReport
  attachedProcedures : Nat
  atomsMinted : Nat

def ProgramUnit.kind : ProgramUnit → UnitKind
  | .proc _ => .procedure
  | .process _ => .process

/-- A unit's name in a report. -/
def ProgramUnit.name (program : Program) : ProgramUnit → String
  | .proc decl => ((program.decls[decl.index]?).map (·.name)).getD s!"procedure {decl.text}"
  | .process node => s!"process {node.text}"

namespace UnitReport

def make (program : Program) (unit : ProgramUnit) (traces : TraceSet)
    (diagnostics : List Diagnostic) (checkedOnDemand : Bool) : Lookup UnitReport := do
  pure {
    name := unit.name program
    kind := unit.kind
    traceSet := traces
    traces := ← traces.alternatives.mapM (Trace.describe program)
    diagnostics
    checkedOnDemand }

def errors (report : UnitReport) : Nat := Diagnostic.count .error report.diagnostics

def warnings (report : UnitReport) : Nat := Diagnostic.count .warning report.diagnostics

end UnitReport

namespace ProgramReport

def errors (report : ProgramReport) : Nat :=
  report.units.foldr (fun unit total => unit.errors + total) 0

def warnings (report : ProgramReport) : Nat :=
  report.units.foldr (fun unit total => unit.warnings + total) 0

/-- A program passes if no unit has an error. -/
def passed (report : ProgramReport) : Bool := report.errors = 0

/-- The first unit of that name. -/
def unit? (report : ProgramReport) (name : String) : Option UnitReport :=
  report.units.find? (·.name = name)

def diagnostics (report : ProgramReport) : List Diagnostic :=
  report.units.flatMap (·.diagnostics)

end ProgramReport

/-! ## Reports as JSON -/

def Span.toJson (span : Span) : JsonValue :=
  .object [("start", .nat span.start), ("end", .nat span.stop)]

def Diagnostic.toJson (diagnostic : Diagnostic) : JsonValue :=
  .object [
    ("code", .text diagnostic.code.name),
    ("severity", .text diagnostic.severity.text),
    ("message", .text diagnostic.message),
    ("span", .ofOption Span.toJson diagnostic.span),
    ("decl", .ofOption (.nat ·.index) diagnostic.decl),
    ("help", .ofOption .text diagnostic.help)]

def UnitReport.toJson (report : UnitReport) : JsonValue :=
  .object [
    ("name", .text report.name),
    ("kind", .text report.kind.name),
    ("traces", .array (report.traces.map .text)),
    ("diagnostics", .array (report.diagnostics.map Diagnostic.toJson)),
    ("checked_on_demand", .bool report.checkedOnDemand)]

def ProgramReport.toJson (report : ProgramReport) : JsonValue :=
  .object [
    ("program", .text report.program),
    ("units", .array (report.units.map UnitReport.toJson)),
    ("attached_procedures", .nat report.attachedProcedures),
    ("atoms_minted", .nat report.atomsMinted)]

end ProcessContracts
