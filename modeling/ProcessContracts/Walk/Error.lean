import ProcessContracts.Program.Basic

/-!
# Failures of a check
-/

namespace ProcessContracts

/-- What makes a check give up. -/
inductive CheckError where
  | excessFragments (construct : String) (node : NodeId) (count : Nat)
  | arityMismatch (callee : String) (node : NodeId) (formals actuals : Nat)
  | bucketUnderflow (node : NodeId)
  | noActiveScope
  | unknownDecl (decl : DeclId)
  | unknownNode (node : NodeId)
deriving DecidableEq

namespace CheckError

def message : CheckError → String
  | .excessFragments construct node count =>
      s!"{construct} at {node.text} collected {count} fragments where at most one is expected"
  | .arityMismatch callee node formals actuals =>
      s!"instance of '{callee}' at {node.text} passes {actuals} visible arguments " ++
        s!"for {formals} visible parameters"
  | .bucketUnderflow node => s!"no open bucket to receive the fragment of {node.text}"
  | .noActiveScope => "no active checker state"
  | .unknownDecl decl => s!"unknown declaration {decl.text}"
  | .unknownNode node => s!"unknown process node {node.text}"

/-- The construct the failure is about. -/
def node? : CheckError → Option NodeId
  | .excessFragments _ node _ | .arityMismatch _ node _ _ | .bucketUnderflow node => some node
  | .noActiveScope | .unknownDecl _ | .unknownNode _ => none

end CheckError

/-- A failure together with the text it is about. -/
structure LocatedError where
  error : CheckError
  sourceName : String
  sourceSize : Nat
  /-- Where the construct is written; a span that leaves the text is not shown. -/
  span : Option Span

/-- A program without a source stands for an empty text of its own name. -/
def CheckError.locate (program : Program) (error : CheckError) : LocatedError :=
  let span := error.node?.bind fun node => (program.nodes[node.index]?).map (·.span)
  let (name, size) := match program.source with
    | some source => (source.filename, source.size)
    | none => (program.name, 0)
  ⟨error, name, size, span.filter (·.fits size)⟩

/-- What ends a walk: a failure of the check, or a handle that leads nowhere. -/
inductive Abort where
  | error (error : CheckError)
  | fault (fault : Fault)
deriving DecidableEq

end ProcessContracts
