import ProcessContracts.Label
import ProcessContracts.Trace.Simplification

/-!
# Steps of a trace

The operational meaning of traces. `key` says which channel a reference means. A `fix` unfolds and
an internal choice resolves silently; an external choice is resolved by the first visible step; the
children of `par` interleave and terminate together.
-/

namespace ProcessContracts.Trace

/-- A step of the first child of a sequence, with the rest still to come. -/
def sequenced (rest : List Trace) : Move × Trace → Move × Trace
  | (.visible .tick, _) => (.tau, collapse .seq rest)
  | (move, next) => (move, .comp .seq (next :: rest))

/-- Steps of parallel children, given those of each one. A child that terminates leaves silently. -/
def interleaved (ts : List Trace) (steps : List (List (Move × Trace))) : List (Move × Trace) :=
  steps.zipIdx.flatMap fun (own, i) => own.map fun
    | (.visible .tick, _) => (.tau, collapse .par (ts.eraseIdx i))
    | (move, next) => (move, .comp .par (ts.set i next))

/-- Steps of alternatives, given those of each one. A silent step leaves the choice open. -/
def chosen (ts : List Trace) (steps : List (List (Move × Trace))) : List (Move × Trace) :=
  steps.zipIdx.flatMap fun (own, i) => own.map fun
    | (.tau, next) => (.tau, .comp .det (ts.set i next))
    | (move, next) => (move, next)

mutual

def moves (key : ChanRef → ChannelKey) : Trace → List (Move × Trace)
  | .skip => [(.visible .tick, .stop)]
  | .event direction chan => [(.visible (.event direction (key chan)), .skip)]
  | .comp op [] => [(.tau, unit op)]
  | .comp .seq (t :: ts) => (moves key t).map (sequenced ts)
  | .comp .par (t :: ts) => interleaved (t :: ts) (moves key t :: movesAll key ts)
  | .comp .det (t :: ts) => chosen (t :: ts) (moves key t :: movesAll key ts)
  | .comp .ndet (t :: ts) => (t :: ts).map fun next => (.tau, next)
  | .fix binder body => [(.tau, substitute binder.id (.fix binder body) body)]
  | .stop | .div | .chaos | .atom _ | .ref _ | .unresolved _ => []

def movesAll (key : ChanRef → ChannelKey) : List Trace → List (List (Move × Trace))
  | [] => []
  | t :: ts => moves key t :: movesAll key ts

end

@[simp] theorem movesAll_eq_map (key : ChanRef → ChannelKey) (ts : List Trace) :
    movesAll key ts = ts.map (moves key) := by
  induction ts <;> simp_all [movesAll]

mutual

/-- The components that can act now: the head of a sequence, and every child of a parallel
composition or an external choice. -/
def active : Trace → List Trace
  | .comp .seq [] => []
  | .comp .seq (t :: _) => active t
  | .comp .par ts => activeAll ts
  | .comp .det ts => activeAll ts
  | t => [t]

def activeAll : List Trace → List Trace
  | [] => []
  | t :: ts => active t ++ activeAll ts

end

@[simp] theorem activeAll_eq_flatMap (ts : List Trace) : activeAll ts = ts.flatMap active := by
  induction ts <;> simp_all [activeAll]

/-- The channels whose keys `moves` asks for. -/
def activeChannels (t : Trace) : List ChanRef :=
  t.active.filterMap fun
    | .event _ chan => some chan
    | _ => none

def diverges (t : Trace) : Bool :=
  t.active.any fun
    | .div => true
    | _ => false

def acceptsAnything (t : Trace) : Bool :=
  t.active.any fun
    | .chaos => true
    | _ => false

/-- Behaviour that cannot be characterised: chaos, an atom without a definition, an unbound
reference or an unresolved node. -/
def unconstrained (t : Trace) : Bool :=
  t.active.any fun
    | .chaos | .atom _ | .ref _ | .unresolved _ => true
    | _ => false

end ProcessContracts.Trace
