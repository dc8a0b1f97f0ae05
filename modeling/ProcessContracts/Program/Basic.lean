import ProcessContracts.Source
import ProcessContracts.Expr
import ProcessContracts.Construct
import ProcessContracts.Contract

/-!
# Programs

A program is a set of tables. The look-ups answer with the entry or with the fault of a handle
that is out of range.
-/

namespace ProcessContracts

inductive NameKind where
  | channel
  | var
  /-- The formal parameter of `decl` at `position`, hidden parameters counted. -/
  | param (decl : DeclId) (position : Nat) (hidden : Bool)
deriving DecidableEq

structure NameDecl where
  name : String
  kind : NameKind
  span : Span
deriving DecidableEq

/-- A formal parameter. A hidden one has no argument written for it. -/
structure Param where
  name : NameId
  isChannel : Bool
  hidden : Bool
deriving DecidableEq

/-- A procedure. One without a body is built in or compiled elsewhere. -/
structure Decl where
  name : String
  params : List Param := []
  body : Option NodeId := none
  contract : Option (Spanned Contract) := none
  span : Span := {}

/-- The parameters a caller writes arguments for, in order. -/
def Decl.visibleParams (decl : Decl) : List Param := decl.params.filter (!·.hidden)

/-- A unit that is checked on its own. -/
inductive ProgramUnit where
  | proc (decl : DeclId)
  | process (node : NodeId)
deriving DecidableEq

def ProgramUnit.decl? : ProgramUnit → Option DeclId
  | .proc decl => some decl
  | .process _ => none

def ProgramUnit.text : ProgramUnit → String
  | .proc decl => s!"proc {decl.text}"
  | .process node => s!"process {node.text}"

structure Program where
  name : String
  source : Option SourceText := none
  names : Array NameDecl := #[]
  exprs : Array (Spanned Expr) := #[]
  nodes : Array (Spanned Construct) := #[]
  decls : Array Decl := #[]
  units : List ProgramUnit := []

namespace Program

def nameDecl (program : Program) (id : NameId) : Lookup NameDecl :=
  match program.names[id.index]? with
  | some entry => .ok entry
  | none => .error (.missingName id)

def spannedExpr (program : Program) (id : ExprId) : Lookup (Spanned Expr) :=
  match program.exprs[id.index]? with
  | some entry => .ok entry
  | none => .error (.missingExpr id)

def spannedConstruct (program : Program) (id : NodeId) : Lookup (Spanned Construct) :=
  match program.nodes[id.index]? with
  | some entry => .ok entry
  | none => .error (.missingNode id)

def decl (program : Program) (id : DeclId) : Lookup Decl :=
  match program.decls[id.index]? with
  | some entry => .ok entry
  | none => .error (.missingDecl id)

def expr (program : Program) (id : ExprId) : Lookup Expr :=
  (program.spannedExpr id).map (·.value)

def nameText (program : Program) (id : NameId) : Lookup String :=
  (program.nameDecl id).map (·.name)

def containsNode (program : Program) (id : NodeId) : Bool := id.index < program.nodes.size

def containsDecl (program : Program) (id : DeclId) : Bool := id.index < program.decls.size

/-- The first procedure of that name. -/
def findDecl (program : Program) (name : String) : Option DeclId :=
  (program.decls.findIdx? (·.name == name)).map DeclId.mk

end Program

end ProcessContracts
