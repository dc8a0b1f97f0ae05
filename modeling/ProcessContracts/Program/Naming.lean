import ProcessContracts.Program.Basic

/-!
# What an expression names

Decorations carry no meaning for the channel or variable inside them. The queries follow handles
from entry to entry; a path that visits more entries than the table has meets one of them twice,
so the depth is bounded by the table and running out of it is a cycle.
-/

namespace ProcessContracts.Program

/-- One more than the number of entries on any path without a repetition. -/
def exprDepth (program : Program) : Nat := program.exprs.size + 1

def stripWithin (program : Program) : Nat → ExprId → Lookup ExprId
  | 0, id => .error (.cyclicExpr id)
  | depth + 1, id => do
      match ← program.expr id with
      | .decorated inner _ => program.stripWithin depth inner
      | _ => pure id

/-- The expression inside all decorations. -/
def strip (program : Program) (id : ExprId) : Lookup ExprId :=
  program.stripWithin program.exprDepth id

/-- The name an expression denotes once its decorations are removed. -/
def resolveName (program : Program) (id : ExprId) : Lookup (Option NameId) := do
  match ← program.expr (← program.strip id) with
  | .name name => pure (some name)
  | _ => pure none

def describeWithin (program : Program) : Nat → ExprId → Lookup String
  | 0, id => .error (.cyclicExpr id)
  | depth + 1, id => do
      match ← program.expr id with
      | .int value => pure (toString value.toInt)
      | .bool value => pure (if value then "TRUE" else "FALSE")
      | .name name => program.nameText name
      | .decorated inner _ => program.describeWithin depth inner
      | .subscript base index => do
          let base ← program.describeWithin depth base
          let index ← program.describeWithin depth index
          pure s!"{base}[{index}]"
      | .unary _ _ | .binary _ _ _ | .runtime => pure id.text

/-- A channel expression as messages show it; a computed value shows as its handle. -/
def describe (program : Program) (id : ExprId) : Lookup String :=
  program.describeWithin program.exprDepth id

end ProcessContracts.Program
