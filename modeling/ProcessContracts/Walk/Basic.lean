import ProcessContracts.Options
import ProcessContracts.Walk.Error
import ProcessContracts.Walk.Scope
import ProcessContracts.Trace.Simplification

/-!
# Walking a program

The state a walk works on and its basic steps. A walk of a construct adds at most one fragment to
the innermost open bucket. Composite constructs walk their parts into a bucket of their own.
-/

namespace ProcessContracts

/-- What is checked and how. -/
structure Setting where
  program : Program
  options : Options := {}

/-- What a check does for good. -/
inductive Event where
  /-- An instance was folded back onto the atom of a procedure in progress. The listed channels are
  not passed through. -/
  | folded (decl : DeclId) (atom : Atom) (altered : List NameId)
  /-- The contract of a procedure was checked against a trace. Recursive instances in the
  procedure's own scope are folded onto `own`. -/
  | judged (decl : DeclId) (own : Option Atom) (computed : Trace) (found : List Diagnostic)
  /-- Traces were attached to a procedure. -/
  | attached (decl : DeclId) (traces : TraceSet)

structure WalkState where
  supply : AtomSupply := {}
  store : TraceStore := {}
  /-- All events so far, in order. Nothing is decided by it. -/
  history : List Event := []
  /-- The open scopes, the innermost first. -/
  scopes : List Scope := []
  diagnostics : List Diagnostic := []

/-- A walk that is given up keeps what it has done to the state. -/
abbrev Walk := EStateM Abort WalkState

namespace Walk

def fail {α : Type} (error : CheckError) : Walk α := throw (.error error)

def liftLookup {α : Type} : Lookup α → Walk α
  | .ok value => pure value
  | .error fault => throw (.fault fault)

def mint (origin : Origin) : Walk Atom :=
  modifyGet fun state =>
    let (atom, supply) := state.supply.mint origin
    (atom, { state with supply })

def addDiagnostics (diagnostics : List Diagnostic) : Walk Unit :=
  modify fun state => { state with diagnostics := state.diagnostics ++ diagnostics }

def record (event : Event) : Walk Unit :=
  modify fun state => { state with history := state.history ++ [event] }

def attach (decl : DeclId) (traces : TraceSet) : Walk Unit := do
  modify fun state => { state with store := state.store.insert decl traces }
  record (.attached decl traces)

def pushScope (scope : Scope) : Walk Unit :=
  modify fun state => { state with scopes := scope :: state.scopes }

def popScope : Walk Scope := do
  let state ← get
  match state.scopes with
  | [] => fail .noActiveScope
  | scope :: scopes => do
      set { state with scopes }
      pure scope

/-- Replaces the innermost scope. -/
def setScope (scope : Scope) : Walk Unit :=
  modify fun state => { state with scopes := scope :: state.scopes.tail }

def scope : Walk Scope := do
  match (← get).scopes with
  | [] => fail .noActiveScope
  | scope :: _ => pure scope

def report (diagnostic : Diagnostic) : Walk Unit := do
  setScope ((← scope).report diagnostic)

/-- Adds the fragment of `node` to the innermost open bucket. -/
def emit (node : NodeId) (fragment : Trace) : Walk Unit := do
  match (← scope).emit fragment with
  | some scope => setScope scope
  | none => fail (.bucketUnderflow node)

def openBucket : Walk Unit := do
  setScope (← scope).openBucket

def closeBucket (node : NodeId) : Walk Bucket := do
  match (← scope).closeBucket with
  | some (bucket, scope) => do
      setScope scope
      pure bucket
  | none => fail (.bucketUnderflow node)

/-- What `visit` makes of some nodes, in order. -/
def visitAll (visit : NodeId → Walk Unit) : List NodeId → Walk Unit
  | [] => pure ()
  | node :: nodes => do
      visit node
      visitAll visit nodes

/-- The fragments of the children of `node`. -/
def collect (visit : NodeId → Walk Unit) (node : NodeId) (children : List NodeId) :
    Walk (List Trace) := do
  openBucket
  visitAll visit children
  pure (← closeBucket node).fragments

/-- The fragment of a bucket that should hold at most one. -/
def singleFragment (setting : Setting) (construct : String) (node : NodeId) (bucket : Bucket) :
    Walk (Option Trace) := do
  match bucket.single with
  | .ok fragment => pure fragment
  | .error count =>
      match setting.options.fragmentPolicy with
      | .fatal => fail (.excessFragments construct node count)
      | .report => do
          let written ← liftLookup (setting.program.spannedConstruct node)
          report {
            code := .excessFragments
            severity := .error
            message := s!"{construct} collected {count} fragments where at most one is expected"
            span := some written.span
            help := some "the fragments are composed sequentially" }
          pure (some (.comp .seq bucket.fragments))

/-- The fragment of the body of `node`, if it has one. -/
def collectSingle (setting : Setting) (visit : NodeId → Walk Unit) (construct : String)
    (node body : NodeId) : Walk (Option Trace) := do
  openBucket
  visit body
  singleFragment setting construct node (← closeBucket node)

/-- A finished trace as the options ask for it. -/
def finish (setting : Setting) (t : Trace) : Trace :=
  if setting.options.simplify then t.simplify else t

end Walk

end ProcessContracts
