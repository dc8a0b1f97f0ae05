import ProcessContracts.Handle

/-!
# Process constructs

One entry of the program's node table. Sub-processes are handles.
-/

namespace ProcessContracts

/-- How the parts of a composite construct run: one after the other or side by side. -/
inductive Mode where
  | seq | par
deriving DecidableEq

/-- One arm of a conditional. -/
structure CondArm where
  guard : ExprId
  body : NodeId

/-- What makes an arm of an alternation ready. -/
inductive Trigger where
  | input (channel : ExprId)
  | skip

structure AltArm where
  /-- An arm without a pre-condition is always enabled. -/
  precondition : Option ExprId
  trigger : Trigger
  body : NodeId

/-- An actual argument of an instance. -/
structure Arg where
  expr : ExprId
  hidden : Bool := false

inductive Construct where
  | skip
  | stop
  | input (channel : ExprId)
  | output (channel : ExprId)
  | assign (target value : ExprId)
  | compose (mode : Mode) (children : List NodeId)
  | replicate (mode : Mode) (count : ExprId) (body : NodeId)
  | loop (guard : ExprId) (body : NodeId)
  | cond (arms : List CondArm)
  | alt (arms : List AltArm)
  | call (callee : DeclId) (args : List Arg)
  | block (locals : List NameId) (body : NodeId)

namespace Construct

/-- The construct's name as diagnostics print it. -/
def kind : Construct → String
  | .skip => "SKIP"
  | .stop => "STOP"
  | .input _ => "input"
  | .output _ => "output"
  | .assign _ _ => "assignment"
  | .compose .seq _ => "SEQ"
  | .compose .par _ => "PAR"
  | .replicate .seq _ _ => "replicated SEQ"
  | .replicate .par _ _ => "replicated PAR"
  | .loop _ _ => "WHILE"
  | .cond _ => "IF"
  | .alt _ => "ALT"
  | .call _ _ => "instance"
  | .block _ _ => "block"

/-- Sub-processes in source order. -/
def children : Construct → List NodeId
  | .compose _ children => children
  | .replicate _ _ body | .loop _ body | .block _ body => [body]
  | .cond arms => arms.map (·.body)
  | .alt arms => arms.map (·.body)
  | _ => []

/-- Guard of a loop or of a conditional with one arm. -/
def guard : Construct → Option ExprId
  | .loop guard _ => some guard
  | .cond [arm] => some arm.guard
  | _ => none

end Construct

end ProcessContracts
