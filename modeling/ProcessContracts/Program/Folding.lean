import ProcessContracts.Program.Naming

/-!
# Constant folding

The value of an expression that does not depend on the run, with booleans as zero and one. An
expression that would divide by zero or leave the range of a literal has no constant value.
-/

namespace ProcessContracts

/-- The literal of value `n`, if there is one. -/
def literal? (n : Int) : Option Int64 :=
  if (Int64.ofInt n).toInt = n then some (Int64.ofInt n) else none

theorem literal?_eq_some_iff {n : Int} {v : Int64} : literal? n = some v ↔ v.toInt = n := by
  unfold literal?
  split
  case isTrue h =>
    constructor
    · rintro ⟨⟩; exact h
    · intro hv; rw [← hv, Int64.ofInt_toInt]
  case isFalse h =>
    constructor
    · rintro ⟨⟩
    · intro hv; exact absurd (by rw [← hv, Int64.ofInt_toInt]) h

def truthLiteral (b : Bool) : Int64 := if b then 1 else 0

def UnaryOp.apply : UnaryOp → Int64 → Option Int64
  | .neg, v => literal? (-v.toInt)
  | .not, v => some (truthLiteral (v = 0))

/-- Division truncates toward zero; a remainder is defined where the quotient is. -/
def BinaryOp.apply : BinaryOp → Int64 → Int64 → Option Int64
  | .add, l, r => literal? (l.toInt + r.toInt)
  | .sub, l, r => literal? (l.toInt - r.toInt)
  | .mul, l, r => literal? (l.toInt * r.toInt)
  | .div, l, r => if r = 0 then none else literal? (l.toInt.tdiv r.toInt)
  | .rem, l, r =>
      if r = 0 then none
      else (literal? (l.toInt.tdiv r.toInt)).bind fun _ => literal? (l.toInt.tmod r.toInt)
  | .eq, l, r => some (truthLiteral (l = r))
  | .ne, l, r => some (truthLiteral (l ≠ r))
  | .lt, l, r => some (truthLiteral (l < r))
  | .le, l, r => some (truthLiteral (l ≤ r))
  | .gt, l, r => some (truthLiteral (r < l))
  | .ge, l, r => some (truthLiteral (r ≤ l))
  | .and, l, r => some (truthLiteral (l ≠ 0 && r ≠ 0))
  | .or, l, r => some (truthLiteral (l ≠ 0 || r ≠ 0))

/-- What the left operand decides without a look at the right one: a conjunction with a false
left side and a disjunction with a true one are known, and no other operation is constant where
its left operand is not. -/
def BinaryOp.settled? : BinaryOp → Option Int64 → Option (Option Int64)
  | .and, some v => if v = 0 then some (some 0) else none
  | .or, some v => if v ≠ 0 then some (some 1) else none
  | .and, none | .or, none => none
  | _, none => some none
  | _, some _ => none

namespace Program

def constantWithin (program : Program) : Nat → ExprId → Lookup (Option Int64)
  | 0, id => .error (.cyclicExpr id)
  | depth + 1, id => do
      match ← program.expr id with
      | .int value => pure (some value)
      | .bool value => pure (some (truthLiteral value))
      | .name _ | .subscript _ _ | .runtime => pure none
      | .decorated inner _ => program.constantWithin depth inner
      | .unary op operand => do
          let value ← program.constantWithin depth operand
          pure (value.bind op.apply)
      | .binary op left right => do
          let l ← program.constantWithin depth left
          match op.settled? l with
          | some known => pure known
          | none => do
              let r ← program.constantWithin depth right
              pure (l.bind fun l => r.bind fun r => op.apply l r)

/-- The value of an expression in every run, if it is known. -/
def constantValue (program : Program) (id : ExprId) : Lookup (Option Int64) :=
  program.constantWithin program.exprDepth id

/-- The truth value of a guard in every run, if it is known. -/
def constantTruth (program : Program) (id : ExprId) : Lookup (Option Bool) := do
  pure ((← program.constantValue id).map (· ≠ 0))

end Program

end ProcessContracts
