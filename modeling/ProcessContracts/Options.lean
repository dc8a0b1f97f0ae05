/-!
# Options of a check
-/

namespace ProcessContracts

/-- What to do with a construct that collects more fragments than it can use. -/
inductive FragmentPolicy where
  /-- Give up with an error. -/
  | fatal
  /-- Report a diagnostic and run the fragments one after the other. -/
  | report
deriving DecidableEq

structure Options where
  /-- Simplify computed traces before they are returned or attached. -/
  simplify : Bool := true
  /-- Hide communications on channels outside a procedure's interface when its trace is attached
  and when its contract is checked. -/
  projectInterface : Bool := true
  /-- Bound on the states of one contract check. -/
  maxRefinementStates : Nat := 10000
  /-- The largest replication count that is unrolled. -/
  maxReplicationUnroll : Nat := 64
  /-- Warn about contracts that allow what the procedure never does. -/
  reportRestrictive : Bool := true
  fragmentPolicy : FragmentPolicy := .fatal
deriving DecidableEq

/-- Options that keep traces as they are composed. -/
def Options.raw : Options := { simplify := false }

end ProcessContracts
