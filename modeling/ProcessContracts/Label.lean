import ProcessContracts.Channel

/-!
# Visible steps
-/

namespace ProcessContracts

inductive Label where
  /-- Successful termination. -/
  | tick
  | event (direction : Direction) (chan : ChannelKey)
deriving DecidableEq

namespace Label

def describe (program : Program) : Label → Lookup String
  | .tick => pure "termination"
  | .event direction chan => do pure ((← chan.describe program) ++ direction.mark)

def text : Label → String
  | .tick => "tick"
  | .event direction chan => chan.text ++ direction.mark

end Label

/-- One step of a behaviour: silent or with a label. -/
inductive Move where
  | tau
  | visible (label : Label)
deriving DecidableEq

end ProcessContracts
