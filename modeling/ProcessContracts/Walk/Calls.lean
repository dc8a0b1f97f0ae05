import ProcessContracts.Walk.ContractCheck

/-!
# Procedures and their instances

An instance contributes its callee's trace with the arguments put in. A callee without a trace is
walked on demand. An instance of a procedure that is being walked is folded back onto the
procedure's own atom.
-/

namespace ProcessContracts

/-- What a built-in procedure contributes; `none` for any other name. -/
def builtin? (name : String) : Option (Option Trace) :=
  if name = "CAUSEERROR" then some (some .stop)
  else if name ∈ ["RESCHEDULE", "SETPRI", "INCPRI", "DECPRI", "SETAFF", "GETAFF", "GETPRI"] then
    some none
  else none

/-- The traces of a procedure: all it does, and what its callers can see of that. -/
structure ProcTraces where
  computed : TraceSet
  projected : TraceSet

namespace Walk

/-- What an argument written in the innermost scope stands for, once the arguments of the instances
that opened the `entered` scopes are put in, from the innermost outwards. -/
def tracedBack (program : Program) : List Scope → ExprId → Lookup ExprId
  | [], actual => pure actual
  | scope :: entered, actual => do
      let formal ← program.resolveName actual
      tracedBack program entered ((formal.bind scope.argument?).getD actual)

/-- Whether an argument is the formal itself of the procedure outside the `entered` scopes. -/
def passesThrough (program : Program) (entered : List Scope) (formal : NameId)
    (actual : ExprId) : Lookup Bool := do
  let origin ← tracedBack program entered actual
  pure ((← program.resolveName origin) = some formal)

/-- The channel formals that an instance does not pass through. -/
def alteredChannels (program : Program) (entered : List Scope) (bindings : Substitution) :
    List Param → Lookup (List NameId)
  | [] => pure []
  | param :: params => do
      let kept ← match bindings.get? param.name with
        | some actual => passesThrough program entered param.name actual
        | none => pure false
      let rest ← alteredChannels program entered bindings params
      pure (if kept then rest else param.name :: rest)

/-- The scope of a procedure in which an instance of the procedure does not pass the `altered`
channels through. -/
def marked (program : Program) (node : NodeId) (decl : Decl) (altered : List NameId)
    (own : Scope) : Lookup Scope :=
  if altered.isEmpty then pure own
  else do
    let names ← altered.mapM program.nameText
    let written ← program.spannedConstruct node
    pure (own.report {
      code := .permutedRecursion
      severity := .warning
      message := s!"recursive instance of '{decl.name}' does not pass " ++
        String.intercalate ", " names ++ " through unchanged"
      span := some written.span
      help := some "the computed trace assumes the channels are unchanged" }).markApproximate

/-- An instance of a procedure that is being walked. `inner` are the scopes opened since, `own` is
the procedure's scope. -/
def recursiveCall (setting : Setting) (node : NodeId) (callee : DeclId) (bindings : Substitution)
    (inner : List Scope) (own : Scope) (outer : List Scope) : Walk Unit := do
  let decl ← liftLookup (setting.program.decl callee)
  let channels := decl.visibleParams.filter (·.isChannel)
  let altered ← liftLookup (alteredChannels setting.program inner bindings channels)
  let own ← liftLookup (marked setting.program node decl altered own)
  let state ← get
  let (atom, own, supply) := own.recursionAtomFrom state.supply (.recursion callee)
  set { state with supply, scopes := inner ++ own :: outer }
  record (.folded callee atom altered)
  emit node (.ref atom.id)

/-- A procedure without a body is trusted to do what its contract says. -/
def declared (setting : Setting) (id : DeclId) (decl : Decl) : Walk ProcTraces := do
  match decl.contract with
  | none => pure ⟨{}, {}⟩
  | some contract =>
      match ← lower setting id contract.value with
      | .ok trace => do
          attach id (.single trace)
          pure ⟨.single trace, .single trace⟩
      | .error unbound => do
          addDiagnostics [(unboundVariable unbound).atContract id contract.span]
          pure ⟨{}, {}⟩

/-- What callers see of a trace: communication on channels outside the interface is hidden. -/
def project (setting : Setting) (interface : List NameId) (t : Trace) : Lookup Trace :=
  if setting.options.projectInterface then do
    pure (← t.hideUnless (ChanRef.isAmong setting.program interface)).simplify
  else pure t

variable (setting : Setting) (visit : NodeId → Walk Unit)

/-- Walks a procedure in a scope of its own, checks its contract and attaches what callers see.
A trace that still refers to another procedure in progress is neither checked nor attached: the
procedure is walked again once that one is complete. -/
def checkDecl (id : DeclId) (entry : Option Substitution) : Walk ProcTraces := do
  if !setting.program.containsDecl id then fail (.unknownDecl id)
  let decl ← liftLookup (setting.program.decl id)
  match decl.body with
  | none => declared setting id decl
  | some body => do
      let channels := (decl.visibleParams.filter (·.isChannel)).map (·.name)
      pushScope (channels.foldl Scope.addInterface { owner := .proc id, entry })
      let fragment ← collectSingle setting visit "procedure body" body body
      let scope ← popScope
      let body := fragment.getD .skip
      let trace := finish setting (scope.recursionAtom.elim body (.fix · body))
      let projected ← liftLookup (project setting scope.interface trace)
      if projected.isClosed then do
        let scope ← match decl.contract with
          | some contract => judge setting scope id contract projected
          | none => pure scope
        addDiagnostics scope.diagnostics
        attach id (.single projected)
      pure ⟨.single trace, .single projected⟩

/-- The traces an instance can use, if anything is known about its callee. -/
def calleeTraces (callee : DeclId) (decl : Decl) (bindings : Substitution) :
    Walk (Option TraceSet) := do
  match (← get).store.get? callee with
  | some traces => pure (some traces)
  | none =>
      if decl.body.isSome || decl.contract.isSome then do
        pure (some (← checkDecl setting visit callee (some bindings)).projected)
      else pure none

/-- Nothing says what an instance of the procedure does. -/
def unknownCallee (decl : Decl) (span : Span) : Diagnostic where
  code := .unresolvedCallee
  severity := .warning
  message := s!"behaviour of '{decl.name}' is unknown"
  span := some span
  help := some "declare a contract for the procedure"

/-- An instance of a procedure that is not being walked. -/
def freshCall (node : NodeId) (callee : DeclId) (decl : Decl) (bindings : Substitution) :
    Walk Unit := do
  match ← calleeTraces setting visit callee decl bindings with
  | some traces => do
      let traces ← liftLookup (bindings.applySet setting.program traces)
      match traces.toChoice with
      | some choice => emit node choice
      | none => pure ()
  | none => do
      let written ← liftLookup (setting.program.spannedConstruct node)
      report (unknownCallee decl written.span)
      emit node (.unresolved node)

/-- Divides the open scopes at the scope of a procedure. -/
def splitAt (callee : DeclId) : List Scope → Option (List Scope × Scope × List Scope)
  | [] => none
  | scope :: scopes =>
      if scope.decl? = some callee then some ([], scope, scopes)
      else (splitAt callee scopes).map fun (inner, own, outer) => (scope :: inner, own, outer)

def call (node : NodeId) (callee : DeclId) (args : List Arg) : Walk Unit := do
  if !setting.program.containsDecl callee then fail (.unknownDecl callee)
  let decl ← liftLookup (setting.program.decl callee)
  match Substitution.pair decl.params args with
  | .error mismatch =>
      fail (.arityMismatch decl.name node mismatch.formals mismatch.actuals)
  | .ok bindings =>
      match splitAt callee (← get).scopes with
      | some (inner, own, outer) => recursiveCall setting node callee bindings inner own outer
      | none =>
          match (if decl.body.isNone then builtin? decl.name else none) with
          | some (some fragment) => emit node fragment
          | some none => pure ()
          | none => freshCall setting visit node callee decl bindings

end Walk

end ProcessContracts
