import ProcessContracts.Walk.Calls
import ProcessContracts.Walk.Constructs

/-!
# Checking a unit

Computes the behaviour of a procedure or a process and checks the contracts met on the way. Atoms
and attached traces belong to a session that many checks share, and stay when a check fails.
-/

namespace ProcessContracts

namespace Walk

/-- Walks one node, and with `visit` the nodes below it and the bodies of the callees it needs. -/
def step (setting : Setting) (visit : NodeId → Walk Unit) (node : NodeId) : Walk Unit := do
  if !setting.program.containsNode node then fail (.unknownNode node)
  match (← liftLookup (setting.program.spannedConstruct node)).value with
  | .skip => emit node .skip
  | .stop => emit node .stop
  | .input chan => do emit node (.event .input (← channel setting chan))
  | .output chan => do emit node (.event .output (← channel setting chan))
  | .assign _ _ => pure ()
  | .compose mode children => compose visit node mode children
  | .replicate mode count body => replicate setting visit node mode count body
  | .loop guard body => loop setting visit node guard body
  | .cond arms => cond setting visit node arms
  | .alt arms => alt setting visit node arms
  | .call callee args => call setting visit node callee args
  | .block _ body => visit body

/-- Walks a node whose walk nests at most `depth` deep. -/
def walkWithin (setting : Setting) : Nat → NodeId → Walk Unit
  | 0, node => throw (.fault (.cyclicProcess node))
  | depth + 1, node => step setting (walkWithin setting depth) node

/-- No walk nests deeper unless a node contains itself: a procedure is walked inside each other one
at most, and inside a procedure every node at most once. -/
def depthBound (program : Program) : Nat :=
  (program.decls.size + 1) * program.nodes.size + 1

def walk (setting : Setting) (node : NodeId) : Walk Unit :=
  walkWithin setting (depthBound setting.program) node

def checkProcess (setting : Setting) (node : NodeId) : Walk TraceSet := do
  if !setting.program.containsNode node then fail (.unknownNode node)
  pushScope { owner := .process node }
  let fragment ← collectSingle setting (walk setting) "process" node node
  addDiagnostics (← popScope).diagnostics
  pure (.single (finish setting (fragment.getD .skip)))

def checkUnit (setting : Setting) : ProgramUnit → Walk TraceSet
  | .proc decl => do pure (← checkDecl setting (walk setting) decl none).computed
  | .process node => checkProcess setting node

end Walk

/-- What the checks of one compilation share. -/
structure Session where
  supply : AtomSupply := {}
  store : TraceStore := {}
  history : List Event := []

/-- The state a walk of the session starts from. -/
def Session.begin (session : Session) : WalkState :=
  { supply := session.supply, store := session.store, history := session.history }

/-- What a walk leaves to the session. -/
def Session.ofWalk (state : WalkState) : Session := ⟨state.supply, state.store, state.history⟩

/-- The behaviour of a unit before projection, with the diagnostics of the unit and of the callees
walked for it. -/
structure Outcome where
  traces : TraceSet
  diagnostics : List Diagnostic

def Outcome.hasErrors (outcome : Outcome) : Bool := outcome.diagnostics.any Diagnostic.isError

def check (setting : Setting) (unit : ProgramUnit) (session : Session) :
    Except Abort Outcome × Session :=
  match (Walk.checkUnit setting unit).run session.begin with
  | .ok traces state => (.ok ⟨traces, state.diagnostics⟩, .ofWalk state)
  | .error abort state => (.error abort, .ofWalk state)

end ProcessContracts
