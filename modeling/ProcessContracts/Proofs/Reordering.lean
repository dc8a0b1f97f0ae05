import ProcessContracts.Compilation

/-!
# Units in another order

No check reads the list of units: only the run over a whole program does, to tell what to check
next. So a program whose units are put in another order has the same checks.
-/

namespace ProcessContracts

/-- The program with other units. -/
def Program.ordered (program : Program) (units : List ProgramUnit) : Program :=
  { program with units }

/-- The setting for the program with other units. -/
def Setting.ordered (setting : Setting) (units : List ProgramUnit) : Setting :=
  { setting with program := setting.program.ordered units }

/-! ## Expressions, channels and texts -/

section Texts

variable (program : Program) (units : List ProgramUnit)

theorem Program.strip_ordered : (program.ordered units).strip = program.strip := by
  delta strip stripWithin
  rfl

theorem Program.resolveName_ordered :
    (program.ordered units).resolveName = program.resolveName := by
  delta resolveName
  rw [strip_ordered]
  rfl

theorem Program.describe_ordered : (program.ordered units).describe = program.describe := by
  delta describe describeWithin
  rfl

theorem Program.constantValue_ordered :
    (program.ordered units).constantValue = program.constantValue := by
  delta constantValue constantWithin
  rfl

theorem Program.constantTruth_ordered :
    (program.ordered units).constantTruth = program.constantTruth := by
  delta constantTruth
  rw [constantValue_ordered]

theorem ChanRef.ofExpr_ordered : ofExpr (program.ordered units) = ofExpr program := by
  delta ofExpr
  rw [Program.strip_ordered]
  rfl

theorem ChanRef.isAmong_ordered : isAmong (program.ordered units) = isAmong program := by
  delta isAmong
  rw [Program.resolveName_ordered]

theorem ChanRef.describe_ordered : describe (program.ordered units) = describe program := by
  delta describe
  rw [Program.describe_ordered]

theorem ChannelKey.resolve_ordered : resolve (program.ordered units) = resolve program := by
  delta resolve resolveRoot resolveIndex
  rw [Program.resolveName_ordered, Program.strip_ordered, Program.constantValue_ordered]

theorem ChannelKey.ofRef_ordered : ofRef (program.ordered units) = ofRef program := by
  delta ofRef
  rw [resolve_ordered]

theorem Label.describe_ordered : describe (program.ordered units) = describe program := by
  delta describe ChannelKey.describe
  rw [Program.describe_ordered]
  rfl

theorem Counterexample.describe_ordered :
    describe (program.ordered units) = describe program := by
  delta describe Violation.describe
  rw [Label.describe_ordered]

theorem Trace.describe_ordered : describe (program.ordered units) = describe program := by
  delta describe
  rw [ChanRef.describe_ordered]

theorem Substitution.applySet_ordered :
    applySet (program.ordered units) = applySet program := by
  delta applySet apply redirect target
  rw [Program.resolveName_ordered, Program.strip_ordered]
  rfl

end Texts

/-! ## Contracts and their checks -/

section Comparisons

variable (program : Program) (units : List ProgramUnit)

mutual

theorem Contract.lowerUnder_ordered (decl : DeclId) (binders : Binders) (contract : Contract) :
    contract.lowerUnder (program.ordered units) decl binders =
      contract.lowerUnder program decl binders := by
  cases contract with
  | skip | stop | div | chaos | var => rfl
  | event =>
      simp only [lowerUnder, lowerRef, ChanRef.ofExpr_ordered]
  | comp _ children => simp only [lowerUnder, lowerAll_ordered decl binders children]
  | recursion _ body => simp only [lowerUnder, lowerUnder_ordered decl _ body]

theorem Contract.lowerAll_ordered (decl : DeclId) (binders : Binders) (contracts : List Contract) :
    Contract.lowerAll (program.ordered units) decl binders contracts =
      Contract.lowerAll program decl binders contracts := by
  cases contracts with
  | nil => rfl
  | cons contract contracts =>
      simp only [lowerAll, lowerUnder_ordered decl binders contract,
        lowerAll_ordered decl binders contracts]

end

theorem Contract.lower_ordered (decl : DeclId) (contract : Contract) :
    contract.lower (program.ordered units) decl = contract.lower program decl :=
  lowerUnder_ordered program units decl [] contract

namespace Explore

variable (limit : Nat)

theorem step_ordered :
    @step limit (program.ordered units) = step program := by
  delta step closure close close._unary expand
  rw [ChannelKey.resolve_ordered, ChannelKey.ofRef_ordered]

theorem search_ordered :
    @search limit (program.ordered units) = search program := by
  delta search search._unary inspect follow follow._f
  rw [step_ordered]

theorem start_ordered : @start limit (program.ordered units) = start program := by
  delta start closure close close._unary expand
  rw [ChannelKey.resolve_ordered, ChannelKey.ofRef_ordered]

end Explore

theorem refines_ordered : refines (program.ordered units) = refines program := by
  funext spec imp limit
  delta refines
  rw [Explore.search_ordered, Explore.start_ordered]

end Comparisons

/-! ## Walks and checks -/

section Checks

variable (setting : Setting) (units : List ProgramUnit)

theorem contractDiagnostics_ordered :
    contractDiagnostics (setting.ordered units) = contractDiagnostics setting := by
  delta contractDiagnostics Setting.ordered
  rw [Counterexample.describe_ordered, Trace.describe_ordered, Label.describe_ordered]

namespace Walk

theorem judge_ordered : judge (setting.ordered units) = judge setting := by
  have hlower : lower (setting.ordered units) = lower setting := by
    funext decl contract
    delta lower
    rw [← Contract.lower_ordered setting.program units]
    rfl
  delta judge assess
  rw [hlower, contractDiagnostics_ordered]
  delta Setting.ordered
  rw [refines_ordered]
  rfl

theorem declared_ordered : declared (setting.ordered units) = declared setting := by
  funext id decl
  delta declared lower Setting.ordered
  simp only [Contract.lower_ordered]

theorem project_ordered : project (setting.ordered units) = project setting := by
  delta project Setting.ordered
  rw [ChanRef.isAmong_ordered]

theorem alteredChannels_ordered (program : Program) (entered : List Scope)
    (bindings : Substitution) (params : List Param) :
    alteredChannels (program.ordered units) entered bindings params =
      alteredChannels program entered bindings params := by
  have hback : ∀ entered actual,
      tracedBack (program.ordered units) entered actual = tracedBack program entered actual := by
    intro entered
    induction entered with
    | nil => exact fun _ => rfl
    | cons scope entered ih => simp only [tracedBack, Program.resolveName_ordered, ih, implies_true]
  induction params with
  | nil => rfl
  | cons param params ih =>
      simp only [alteredChannels, passesThrough, hback, Program.resolveName_ordered, ih]

theorem recursiveCall_ordered : recursiveCall (setting.ordered units) = recursiveCall setting := by
  delta recursiveCall Setting.ordered
  simp only [alteredChannels_ordered]
  rfl

theorem call_ordered : call (setting.ordered units) = call setting := by
  delta call freshCall calleeTraces checkDecl
  rw [judge_ordered, declared_ordered, project_ordered, recursiveCall_ordered]
  delta Setting.ordered
  rw [Substitution.applySet_ordered]
  rfl

theorem constantTruth_ordered : constantTruth (setting.ordered units) = constantTruth setting := by
  delta constantTruth Setting.ordered
  rw [Program.constantTruth_ordered]

theorem channel_ordered : channel (setting.ordered units) = channel setting := by
  delta channel Setting.ordered
  rw [ChanRef.ofExpr_ordered]

theorem cond_ordered : cond (setting.ordered units) = cond setting := by
  have hcollect : collectSingle (setting.ordered units) = collectSingle setting := rfl
  delta cond condOne alternatives alternatives._f
  rw [constantTruth_ordered, hcollect]

theorem alt_ordered : alt (setting.ordered units) = alt setting := by
  have hcollect : collectSingle (setting.ordered units) = collectSingle setting := rfl
  delta alt choices choices._f disabled ready
  rw [constantTruth_ordered, channel_ordered, hcollect]

theorem loop_ordered : loop (setting.ordered units) = loop setting := by
  delta loop
  rw [constantTruth_ordered]
  rfl

theorem replicate_ordered : replicate (setting.ordered units) = replicate setting := by
  delta replicate Setting.ordered
  rw [Program.constantValue_ordered]
  rfl

theorem step_ordered : step (setting.ordered units) = step setting := by
  delta step
  rw [call_ordered, channel_ordered, cond_ordered, alt_ordered, loop_ordered, replicate_ordered]
  rfl

theorem walk_ordered : walk (setting.ordered units) = walk setting := by
  have hwithin : ∀ depth node,
      walkWithin (setting.ordered units) depth node = walkWithin setting depth node := by
    intro depth
    induction depth with
    | zero => exact fun _ => rfl
    | succ depth ih =>
        intro node
        rw [walkWithin, walkWithin, step_ordered, funext ih]
  exact funext (hwithin _)

end Walk

theorem check_ordered : check (setting.ordered units) = check setting := by
  funext unit session
  have hunit : Walk.checkUnit (setting.ordered units) unit = Walk.checkUnit setting unit := by
    cases unit with
    | proc callee =>
        rw [Walk.checkUnit, Walk.checkUnit, Walk.walk_ordered]
        delta Walk.checkDecl
        rw [Walk.judge_ordered, Walk.declared_ordered, Walk.project_ordered]
        rfl
    | process node =>
        rw [Walk.checkUnit, Walk.checkUnit]
        delta Walk.checkProcess
        rw [Walk.walk_ordered]
        rfl
  rw [check, check, hunit]

theorem Session.report_ordered : report (setting.ordered units) = report setting := by
  delta report UnitReport.make Setting.ordered
  rw [Trace.describe_ordered]
  rfl

theorem Session.checkUnit_ordered (unit : ProgramUnit) (session : Session) :
    checkUnit (setting.ordered units) unit session = checkUnit setting unit session := by
  rw [checkUnit, checkUnit, report_ordered, check_ordered]

theorem Session.checkUnits_ordered (listed : List ProgramUnit) (session : Session) :
    checkUnits (setting.ordered units) listed session = checkUnits setting listed session := by
  induction listed generalizing session with
  | nil => rfl
  | cons unit listed ih => simp only [checkUnits, checkUnit_ordered, ih]

/-- A program with its units in another order is checked in that order. -/
theorem checkProgram_ordered_eq_ok {report : ProgramReport} :
    checkProgram (setting.ordered units) = .ok report ↔ ∃ reports last,
      Session.checkUnits setting units {} = .ok (reports, last) ∧
      report = ⟨setting.program.name, reports, last.store.size, last.supply.minted⟩ := by
  have hlisted : (setting.ordered units).program.units = units := rfl
  rw [checkProgram, hlisted, Session.checkUnits_ordered]
  cases Session.checkUnits setting units {} with
  | error => simp [bind, Except.bind]
  | ok result =>
      obtain ⟨reports, last⟩ := result
      simp only [bind, Except.bind, pure, Except.pure, Except.ok.injEq, Prod.mk.injEq]
      constructor
      · rintro rfl
        exact ⟨reports, last, ⟨rfl, rfl⟩, rfl⟩
      · rintro ⟨_, _, ⟨rfl, rfl⟩, rfl⟩
        rfl

end Checks

end ProcessContracts
