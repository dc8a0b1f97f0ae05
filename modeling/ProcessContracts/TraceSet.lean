import ProcessContracts.Ledger
import ProcessContracts.Trace.Text
import ProcessContracts.Trace.Atoms

/-!
# Alternative behaviours, and the traces of procedures
-/

namespace ProcessContracts

/-- The alternative behaviours of a unit or a procedure. -/
structure TraceSet where
  alternatives : List Trace := []
deriving DecidableEq

namespace TraceSet

def single (t : Trace) : TraceSet := ⟨[t]⟩

def size (traces : TraceSet) : Nat := traces.alternatives.length

def isEmpty (traces : TraceSet) : Bool := traces.alternatives.isEmpty

/-- One behaviour that may act as any alternative; an empty set contributes nothing. -/
def toChoice (traces : TraceSet) : Option Trace :=
  match traces.alternatives with
  | [] => none
  | [t] => some t
  | ts => some (.comp .ndet ts)

def map (f : Trace → Trace) (traces : TraceSet) : TraceSet := ⟨traces.alternatives.map f⟩

/-- The atoms some alternative refers to freely, by ascending number. -/
def freeAtoms (traces : TraceSet) : List AtomId := Trace.freeAtoms (.comp .ndet traces.alternatives)

def braced (parts : List String) : String := "\x7b" ++ String.intercalate " | " parts ++ "\x7d"

def text (traces : TraceSet) : String := braced (traces.alternatives.map Trace.text)

def describe (program : Program) (traces : TraceSet) : Lookup String := do
  pure (braced (← traces.alternatives.mapM (Trace.describe program)))

end TraceSet

/-- The traces of checked procedures, in the order they were attached. -/
abbrev TraceStore := Ledger DeclId TraceSet

end ProcessContracts
