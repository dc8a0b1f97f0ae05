import ProcessContracts.Report.Basic

/-!
# Checking a whole program

Units are checked in order in one session. A procedure that an earlier unit already had checked is
not checked again.
-/

namespace ProcessContracts

namespace Session

def report (setting : Setting) (unit : ProgramUnit) (traces : TraceSet)
    (diagnostics : List Diagnostic) (checkedOnDemand : Bool) : Except Abort UnitReport :=
  (UnitReport.make setting.program unit traces diagnostics checkedOnDemand).mapError .fault

def checkUnit (setting : Setting) (unit : ProgramUnit) (session : Session) :
    Except Abort UnitReport × Session :=
  match unit.decl?.bind session.store.get? with
  | some traces => (report setting unit traces [] true, session)
  | none =>
      let (outcome, session) := check setting unit session
      (outcome.bind fun outcome => report setting unit outcome.traces outcome.diagnostics false,
        session)

/-- Checks units until one fails. -/
def checkUnits (setting : Setting) :
    List ProgramUnit → Session → Except Abort (List UnitReport × Session)
  | [], session => .ok ([], session)
  | unit :: units, session => do
      let (report, session) := session.checkUnit setting unit
      let report ← report
      let (reports, session) ← checkUnits setting units session
      pure (report :: reports, session)

end Session

/-- Checks every unit of the program. What is wrong with the program is in the report; only a
failure of the check itself is an error. -/
def checkProgram (setting : Setting) : Except Abort ProgramReport := do
  let (units, session) ← Session.checkUnits setting setting.program.units {}
  pure ⟨setting.program.name, units, session.store.size, session.supply.minted⟩

inductive VerifyError where
  | aborted (abort : Abort)
  | rejected (report : ProgramReport)

/-- Whether the diagnostics of a report speak against its program. -/
def ProgramReport.isRejected (report : ProgramReport) (failOnWarnings : Bool) : Bool :=
  report.errors > 0 || (failOnWarnings && report.warnings > 0)

def ProgramReport.rejection (report : ProgramReport) : String :=
  s!"'{report.program}' was rejected: {report.errors} error(s), {report.warnings} warning(s)"

/-- Like `checkProgram`, but diagnostics can reject the program. -/
def verifyProgram (setting : Setting) (failOnWarnings : Bool) :
    Except VerifyError ProgramReport := do
  let report ← (checkProgram setting).mapError .aborted
  if report.isRejected failOnWarnings then throw (.rejected report)
  pure report

end ProcessContracts
