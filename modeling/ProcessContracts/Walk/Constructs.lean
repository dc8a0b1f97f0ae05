import ProcessContracts.Walk.Basic

/-!
# Composition and control

What each construct contributes, given a walk of its parts. Where a guard or a count is not known
before the run, the trace leaves the choice open.
-/

namespace ProcessContracts

def Mode.operator : Mode → Operator
  | .seq => .seq
  | .par => .par

/-- The name of a replication in messages. -/
def Mode.replicatedName : Mode → String
  | .seq => "replicated SEQ"
  | .par => "replicated PAR"

namespace Walk

variable (setting : Setting) (visit : NodeId → Walk Unit)

def constantTruth (guard : ExprId) : Walk (Option Bool) :=
  liftLookup (setting.program.constantTruth guard)

def channel (expr : ExprId) : Walk ChanRef :=
  liftLookup (ChanRef.ofExpr setting.program expr)

/-- An empty composition still contributes. -/
def compose (node : NodeId) (mode : Mode) (children : List NodeId) : Walk Unit := do
  emit node (.comp mode.operator (← collect visit node children))

/-- How often a known count is unrolled. -/
def unrolling (count : Option Int64) : Option Nat :=
  count.bind fun n =>
    if 0 ≤ n.toInt ∧ n.toInt ≤ setting.options.maxReplicationUnroll then some n.toInt.toNat
    else none

/-- Copies of the body. A count known to be at most zero leaves the body alone; one that is not
known, or too large, stands for any number of copies. -/
def replicate (node : NodeId) (mode : Mode) (count : ExprId) (body : NodeId) : Walk Unit := do
  let folded ← liftLookup (setting.program.constantValue count)
  if folded.any (·.toInt ≤ 0) then pure ()
  else
    match ← collectSingle setting visit mode.replicatedName node body with
    | none => pure ()
    | some fragment =>
        match unrolling setting folded with
        | some n => emit node (.comp mode.operator (List.replicate n fragment))
        | none => do
            let atom ← mint (.replication node)
            emit node (.fix atom
              (.comp .ndet [.skip, .comp mode.operator [fragment, .ref atom.id]]))

/-- A loop that never ends and does nothing diverges. -/
def loop (node : NodeId) (guard : ExprId) (body : NodeId) : Walk Unit := do
  match ← constantTruth setting guard with
  | some false => pure ()
  | some true =>
      match ← collectSingle setting visit "WHILE" node body with
      | none => emit node .div
      | some fragment => do
          let atom ← mint (.loop node)
          emit node (.fix atom (.comp .seq [fragment, .ref atom.id]))
  | none => do
      let fragment ← collectSingle setting visit "WHILE" node body
      let atom ← mint (.loop node)
      emit node (.fix atom (.comp .ndet [fragment.getD .skip, .ref atom.id]))

/-- A conditional with one arm: it may also do nothing unless its guard is known. -/
def condOne (node : NodeId) (arm : CondArm) : Walk Unit := do
  let truth ← constantTruth setting arm.guard
  if truth = some false then pure ()
  else
    match ← collectSingle setting visit "IF" node arm.body with
    | none => pure ()
    | some fragment =>
        if truth = some true then emit node fragment
        else emit node (.comp .ndet [fragment, .skip])

/-- What the arms may do, up to the first that is known to be taken. Without such an arm all may
be passed over. -/
def alternatives (node : NodeId) : List CondArm → Walk (List Trace)
  | [] => pure [.skip]
  | arm :: arms => do
      let truth ← constantTruth setting arm.guard
      if truth = some false then alternatives node arms
      else do
        let fragment ← collectSingle setting visit "IF" node arm.body
        if truth = some true then pure [fragment.getD .skip]
        else pure (fragment.getD .skip :: (← alternatives node arms))

def cond (node : NodeId) : List CondArm → Walk Unit
  | [arm] => condOne setting visit node arm
  | arms => do emit node (Trace.collapse .ndet (← alternatives setting visit node arms))

/-- What an arm of an alternation may do once it is enabled. -/
def ready (node : NodeId) (arm : AltArm) : Walk Trace := do
  let body ← collectSingle setting visit "ALT" node arm.body
  match arm.trigger with
  | .skip => pure (body.getD .skip)
  | .input expr => do
      let input := Trace.event .input (← channel setting expr)
      match body with
      | some body => pure (.comp .seq [input, body])
      | none => pure input

def disabled (arm : AltArm) : Walk Bool :=
  match arm.precondition with
  | some guard => do pure ((← constantTruth setting guard) = some false)
  | none => pure false

/-- What the arms not known to be disabled may do. -/
def choices (node : NodeId) : List AltArm → Walk (List Trace)
  | [] => pure []
  | arm :: arms => do
      if ← disabled setting arm then choices node arms
      else do
        let choice ← ready setting visit node arm
        pure (choice :: (← choices node arms))

/-- Without an enabled arm an alternation is a deadlock. -/
def alt (node : NodeId) (arms : List AltArm) : Walk Unit := do
  match ← choices setting visit node arms with
  | [] => emit node .stop
  | choices => emit node (.comp .det choices)

end Walk

end ProcessContracts
