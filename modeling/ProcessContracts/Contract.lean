import ProcessContracts.Handle
import ProcessContracts.Operator

/-!
# Declared contracts

The behaviour a procedure promises, written over its own formal parameters.
-/

namespace ProcessContracts

inductive Contract where
  | skip
  | stop
  | div
  | chaos
  | event (direction : Direction) (channel : ExprId)
  | comp (op : Operator) (children : List Contract)
  /-- `rec name. body` -/
  | recursion (name : String) (body : Contract)
  /-- The behaviour bound by the innermost enclosing `rec` of that name. -/
  | var (name : String)

end ProcessContracts
