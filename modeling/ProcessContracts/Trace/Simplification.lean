import ProcessContracts.Trace.Atoms

/-!
# Simplification

Works from the leaves up and keeps the observable behaviour. Nested compositions of one operator
are flattened and units dropped; a sequence ends with the first child that never terminates;
repeated alternatives are merged; a composition of one child is that child, an empty one the unit;
a `fix` without a reference to its binder is its body.
-/

namespace ProcessContracts.Trace

/-- What the composition of nothing behaves like. -/
def unit : Operator → Trace
  | .seq | .par => .skip
  | .det | .ndet => .stop

/-- Composition without a wrapper around fewer than two children. -/
def collapse (op : Operator) : List Trace → Trace
  | [] => unit op
  | [t] => t
  | ts => .comp op ts

/-- Whether `t` adds nothing to a composition. An internal choice may pick `stop`, so it keeps
that alternative. -/
def vanishes : Operator → Trace → Bool
  | .seq, .skip | .par, .skip | .det, .stop => true
  | _, _ => false

/-- The children that `t` stands for inside a composition by `op`. -/
def splice (op : Operator) (t : Trace) : List Trace :=
  match t with
  | .comp inner children => if inner = op then children else [.comp inner children]
  | leaf => if vanishes op leaf then [] else [leaf]

/-- Nothing runs after a child that never terminates. -/
def endsSequence : Trace → Bool
  | .stop | .div | .chaos => true
  | _ => false

/-- The list through its first element that satisfies `p`. -/
def through (p : Trace → Bool) : List Trace → List Trace
  | [] => []
  | t :: ts => if p t then [t] else t :: through p ts

/-- Drops the children that cannot matter. -/
def prune : Operator → List Trace → List Trace
  | .seq, ts => through endsSequence ts
  | .par, ts => ts
  | .det, ts | .ndet, ts => ts.eraseDups

mutual

def simplify : Trace → Trace
  | .comp op children => collapse op (prune op ((simplifyAll children).flatMap (splice op)))
  | .fix binder body =>
      let body := simplify body
      if body.refersTo binder.id then .fix binder body else body
  | leaf => leaf

def simplifyAll : List Trace → List Trace
  | [] => []
  | t :: ts => simplify t :: simplifyAll ts

end

@[simp] theorem simplifyAll_eq_map (ts : List Trace) : simplifyAll ts = ts.map simplify := by
  induction ts <;> simp_all [simplifyAll]

end ProcessContracts.Trace
