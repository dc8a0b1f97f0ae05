import ProcessContracts.Diagnostic
import ProcessContracts.Substitution

/-!
# Scopes of a check

A scope is opened for each procedure body and each process that is checked. It collects the
fragments of constructs in buckets, one for each construct that is still open.
-/

namespace ProcessContracts

/-- Fragments of sibling constructs in source order. -/
structure Bucket where
  fragments : List Trace := []

namespace Bucket

def size (bucket : Bucket) : Nat := bucket.fragments.length

def isEmpty (bucket : Bucket) : Bool := bucket.fragments.isEmpty

def push (bucket : Bucket) (fragment : Trace) : Bucket := ⟨bucket.fragments ++ [fragment]⟩

/-- Takes every fragment out. -/
def drain (bucket : Bucket) : List Trace × Bucket := (bucket.fragments, {})

/-- The only fragment, if there is at most one; else how many there are. -/
def single (bucket : Bucket) : Except Nat (Option Trace) :=
  match bucket.fragments with
  | [] => .ok none
  | [fragment] => .ok (some fragment)
  | fragments => .error fragments.length

end Bucket

structure Scope where
  owner : ProgramUnit
  /-- The channels a procedure shares with its callers. -/
  interface : List NameId := []
  /-- The open buckets, the innermost first. -/
  buckets : List Bucket := []
  diagnostics : List Diagnostic := []
  /-- Stands for recursive instances of the owner, once there is one. -/
  recursionAtom : Option Atom := none
  /-- The arguments of the instance the scope was opened for. -/
  entry : Option Substitution := none
  /-- Some recursive instance changed its channels, so the trace is an approximation. -/
  approximate : Bool := false

namespace Scope

def decl? (scope : Scope) : Option DeclId := scope.owner.decl?

def depth (scope : Scope) : Nat := scope.buckets.length

def addInterface (scope : Scope) (name : NameId) : Scope :=
  if name ∈ scope.interface then scope
  else { scope with interface := scope.interface ++ [name] }

def isInterface (scope : Scope) (name : NameId) : Bool := name ∈ scope.interface

def openBucket (scope : Scope) : Scope := { scope with buckets := {} :: scope.buckets }

/-- Takes the innermost bucket. -/
def closeBucket (scope : Scope) : Option (Bucket × Scope) :=
  match scope.buckets with
  | [] => none
  | bucket :: buckets => some (bucket, { scope with buckets })

/-- Adds a fragment to the innermost bucket. -/
def emit (scope : Scope) (fragment : Trace) : Option Scope :=
  match scope.buckets with
  | [] => none
  | bucket :: buckets => some { scope with buckets := bucket.push fragment :: buckets }

/-- A diagnostic that names no procedure is about the owner. -/
def report (scope : Scope) (diagnostic : Diagnostic) : Scope :=
  let diagnostic := { diagnostic with decl := diagnostic.decl <|> scope.decl? }
  { scope with diagnostics := scope.diagnostics ++ [diagnostic] }

def takeDiagnostics (scope : Scope) : List Diagnostic × Scope :=
  (scope.diagnostics, { scope with diagnostics := [] })

def markApproximate (scope : Scope) : Scope := { scope with approximate := true }

/-- The atom of recursive instances, minted at its first use. -/
def recursionAtomFrom (scope : Scope) (supply : AtomSupply) (origin : Origin) :
    Atom × Scope × AtomSupply :=
  match scope.recursionAtom with
  | some atom => (atom, scope, supply)
  | none =>
      let (atom, supply) := supply.mint origin
      (atom, { scope with recursionAtom := some atom }, supply)

/-- The argument the opening instance passes for a formal. -/
def argument? (scope : Scope) (formal : NameId) : Option ExprId :=
  scope.entry.bind (·.get? formal)

def summary (scope : Scope) : String :=
  let errors := Diagnostic.count .error scope.diagnostics
  let warnings := scope.diagnostics.length - errors
  s!"  diagnostics: {errors} error(s), {warnings} warning(s)\n"

def bucketLines : Nat → List (List String) → String
  | _, [] => ""
  | i, fragments :: rest =>
      s!"  bucket {i}: [" ++ String.intercalate ", " fragments ++ "]\n" ++ bucketLines (i + 1) rest

/-- The scope as text, given its names and the fragments of its buckets, the outermost first. -/
def layout (scope : Scope) (names : List String) (buckets : List (List String)) : String :=
  s!"state {scope.owner.text} (depth {scope.depth})\n" ++
    "  interface: [" ++ String.intercalate ", " names ++ "]\n" ++
    bucketLines 0 buckets ++ scope.summary

/-- The scope with handles. -/
def text (scope : Scope) : String :=
  scope.layout (scope.interface.map NameId.text)
    (scope.buckets.reverse.map fun bucket => bucket.fragments.map Trace.text)

/-- The scope with the names the program gives. -/
def describe (program : Program) (scope : Scope) : Lookup String := do
  let names ← scope.interface.mapM program.nameText
  let buckets ← scope.buckets.reverse.mapM fun bucket =>
    bucket.fragments.mapM (Trace.describe program)
  pure (scope.layout names buckets)

end Scope

end ProcessContracts
