import ProcessContracts.Program.Basic

/-!
# Assembling a program

Every operation appends to one table and answers with the handle of the new entry, so handles
given out earlier stay valid. Filling in a procedure that was never declared is a fault.
-/

namespace ProcessContracts.Program

def addName (program : Program) (name : String) (kind : NameKind) (span : Span := {}) :
    NameId × Program :=
  (⟨program.names.size⟩, { program with names := program.names.push ⟨name, kind, span⟩ })

def addExpr (program : Program) (expr : Expr) (span : Span := {}) : ExprId × Program :=
  (⟨program.exprs.size⟩, { program with exprs := program.exprs.push ⟨expr, span⟩ })

def addConstruct (program : Program) (construct : Construct) (span : Span := {}) :
    NodeId × Program :=
  (⟨program.nodes.size⟩, { program with nodes := program.nodes.push ⟨construct, span⟩ })

/-- Declares a procedure with neither parameters nor a body. -/
def declare (program : Program) (name : String) (span : Span := {}) : DeclId × Program :=
  (⟨program.decls.size⟩, { program with decls := program.decls.push { name, span } })

def addUnit (program : Program) (unit : ProgramUnit) : Program :=
  { program with units := program.units ++ [unit] }

/-- Changes a declared procedure in place. -/
def updateDecl (program : Program) (id : DeclId) (change : Decl → Decl) : Lookup Program := do
  let _ ← program.decl id
  pure { program with decls := program.decls.modify id.index change }

/-- Appends a formal parameter to a procedure. -/
def addParam (program : Program) (id : DeclId) (name : String) (isChannel hidden : Bool)
    (span : Span := {}) : Lookup (NameId × Program) := do
  let decl ← program.decl id
  let (param, program) := program.addName name (.param id decl.params.length hidden) span
  let program ← program.updateDecl id fun decl =>
    { decl with params := decl.params ++ [⟨param, isChannel, hidden⟩] }
  pure (param, program)

def setBody (program : Program) (id : DeclId) (body : NodeId) : Lookup Program :=
  program.updateDecl id ({ · with body := some body })

def setContract (program : Program) (id : DeclId) (contract : Contract) (span : Span := {}) :
    Lookup Program :=
  program.updateDecl id ({ · with contract := some ⟨contract, span⟩ })

/-- Declares a channel and answers with an expression that names it. -/
def addChannel (program : Program) (name : String) : ExprId × Program :=
  let (id, program) := program.addName name .channel
  program.addExpr (.name id)

/-- Declares a variable and answers with an expression that names it. -/
def addVariable (program : Program) (name : String) : ExprId × Program :=
  let (id, program) := program.addName name .var
  program.addExpr (.name id)

end ProcessContracts.Program
