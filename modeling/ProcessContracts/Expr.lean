import ProcessContracts.Handle

/-!
# Expressions

Guards, replication counts, channel expressions and arguments. Operands are handles, so an
expression is one entry of the program's expression table.
-/

namespace ProcessContracts

inductive UnaryOp where
  | neg | not
deriving DecidableEq

inductive BinaryOp where
  | add | sub | mul | div | rem
  | eq | ne | lt | le | gt | ge
  | and | or
deriving DecidableEq

/-- Wrappers without meaning for the channel they are written around. -/
inductive Decoration where
  | inputEnd | outputEnd | typed | paren
deriving DecidableEq

inductive Expr where
  | int (value : Int64)
  | bool (value : Bool)
  | name (name : NameId)
  | unary (op : UnaryOp) (operand : ExprId)
  | binary (op : BinaryOp) (left right : ExprId)
  | decorated (inner : ExprId) (decoration : Decoration)
  | subscript (base index : ExprId)
  /-- A value known only at run time. -/
  | runtime
deriving DecidableEq

end ProcessContracts
