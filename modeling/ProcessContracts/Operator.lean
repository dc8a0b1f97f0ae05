/-!
# Composition of behaviours

The operators that traces and contracts are composed with, and the two directions of a
communication.
-/

namespace ProcessContracts

inductive Direction where
  | input | output
deriving DecidableEq

/-- A communication is written after its channel: `c?` receives and `c!` sends. -/
def Direction.mark : Direction → String
  | .input => "?"
  | .output => "!"

inductive Operator where
  | seq
  | par
  /-- External choice: the environment picks. -/
  | det
  /-- Internal choice: the process picks. -/
  | ndet
deriving DecidableEq

def Operator.text : Operator → String
  | .seq => "Seq"
  | .par => "Par"
  | .det => "Det"
  | .ndet => "Ndet"

end ProcessContracts
