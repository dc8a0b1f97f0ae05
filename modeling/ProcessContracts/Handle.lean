/-!
# Handles into a program's tables

A program keeps its names, expressions, process nodes and procedures in tables and refers to an
entry by its position. A handle need not be in range: a query that follows one answers with the
entry or with the fault it met.
-/

namespace ProcessContracts

/-- Position of a declared name: a channel, a variable or a formal parameter. -/
structure NameId where
  index : Nat
deriving DecidableEq

/-- Position of an expression. -/
structure ExprId where
  index : Nat
deriving DecidableEq

/-- Position of a process node. -/
structure NodeId where
  index : Nat
deriving DecidableEq

/-- Position of a procedure declaration. -/
structure DeclId where
  index : Nat
deriving DecidableEq

def NameId.text (id : NameId) : String := s!"n{id.index}"

def ExprId.text (id : ExprId) : String := s!"#{id.index}"

def NodeId.text (id : NodeId) : String := s!"p{id.index}"

def DeclId.text (id : DeclId) : String := s!"d{id.index}"

/-- What stops a query that follows handles: an entry that is not there, or a chain of entries
that leads back to itself. -/
inductive Fault where
  | missingName (id : NameId)
  | missingExpr (id : ExprId)
  | missingNode (id : NodeId)
  | missingDecl (id : DeclId)
  | cyclicExpr (id : ExprId)
  | cyclicProcess (id : NodeId)
deriving DecidableEq

/-- The answer of a query that follows handles. -/
abbrev Lookup := Except Fault

/-- The answer, or `default` where the query met a fault. -/
def Lookup.getD {α : Type} (query : Lookup α) (default : α) : α :=
  match query with
  | .ok value => value
  | .error _ => default

@[simp] theorem Lookup.getD_ok {α : Type} (value default : α) :
    Lookup.getD (.ok value) default = value := rfl

@[simp] theorem Lookup.getD_error {α : Type} (fault : Fault) (default : α) :
    Lookup.getD (.error fault) default = default := rfl

end ProcessContracts
