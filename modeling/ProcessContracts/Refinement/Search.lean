import ProcessContracts.Refinement.Silence
import ProcessContracts.Refinement.Verdict

/-!
# Refinement

Decides whether every behaviour of an implementation is allowed by a specification. Both are
explored together, breadth first, over pairs of state sets that the same visible steps lead to, so
a counterexample carries the shortest offending path. Where the specification may accept anything
the search goes no further.
-/

namespace ProcessContracts

variable {limit : Nat}

/-- Closed sets of states that both sides reach by the same path, the latest step first. -/
structure Reached (limit : Nat) where
  imp : StateSet limit
  spec : StateSet limit
  path : List Label

/-- The visible steps met so far, in the order they were first met. -/
structure Tally where
  offered : List Label := []
  performed : List Label := []

def Tally.add (tally : Tally) (offered performed : List Label) : Tally :=
  ⟨(tally.offered ++ offered).eraseDups, (tally.performed ++ performed).eraseDups⟩

/-- Steps that are offered and never performed. -/
def Tally.restrictive (tally : Tally) : List Label := tally.offered.filter (· ∉ tally.performed)

namespace Explore

/-- Where both sides go by each label, or the first label the specification does not offer. -/
def follow (program : Program) (reached : Reached limit) :
    List Label → Explore limit (Except Violation (List (Reached limit)))
  | [] => pure (.ok [])
  | label :: rest => do
      let spec ← step program reached.spec label
      if spec.isEmpty then pure (.error (.unexpectedStep label))
      else if label = .tick then follow program reached rest
      else do
        let imp ← step program reached.imp label
        pure ((← follow program reached rest).map (⟨imp, spec, label :: reached.path⟩ :: ·))

/-- Compares both sides at one pair: a violation, or the pairs one step further on. -/
def inspect (program : Program) (reached : Reached limit) (tally : Tally) :
    Explore limit (Except Violation (List (Reached limit) × Tally)) := do
  let space ← get
  if space.any reached.spec Trace.acceptsAnything then pure (.ok ([], tally))
  else if space.diverges reached.imp && !space.diverges reached.spec then pure (.error .divergence)
  else if space.any reached.imp Trace.unconstrained then pure (.error .unconstrained)
  else do
    let performed := space.labels reached.imp
    let tally := tally.add (space.labels reached.spec) performed
    pure ((← follow program reached performed).map (·, tally))

/-- Inspects the queued pairs and all they lead to, each pair of sets once. -/
def search (program : Program) (visited : List (StateSet limit × StateSet limit))
    (nodup : visited.Nodup) (tally : Tally) :
    List (Reached limit) → Explore limit (Verdict × List Label)
  | [] => pure (.refines, tally.restrictive)
  | reached :: queue =>
      if seen : (reached.imp, reached.spec) ∈ visited then
        search program visited nodup tally queue
      else do
        match ← inspect program reached tally with
        | .error violation => pure (.violated ⟨reached.path.reverse, violation⟩, [])
        | .ok (next, tally) =>
            search program ((reached.imp, reached.spec) :: visited)
              (List.nodup_cons.2 ⟨seen, nodup⟩) tally (queue ++ next)
termination_by queue =>
  (StateSet.count limit * StateSet.count limit - visited.length, queue.length)
decreasing_by
  · exact Prod.Lex.right _ (by simp)
  · have := StateSet.length_le_of_nodup (List.nodup_cons.2 ⟨seen, nodup⟩)
    rw [List.length_cons] at this ⊢
    exact Prod.Lex.left _ _ (by omega)

/-- The start of both sides: the implementation is numbered first. -/
def start (program : Program) (spec imp : Trace) : Explore limit (Reached limit) := do
  let impStart ← intern imp.simplify
  let specStart ← intern spec.simplify
  let imp ← closure program [impStart]
  let spec ← closure program [specStart]
  pure ⟨imp, spec, []⟩

end Explore

/-- Whether every behaviour of `imp` is allowed by `spec`, as far as `limit` states can tell. -/
def refines (program : Program) (spec imp : Trace) (limit : Nat) : Lookup RefinementReport :=
  let run : Explore limit (Verdict × List Label) := do
    Explore.search program [] List.nodup_nil {} [← Explore.start program spec imp]
  match run.run {} with
  | .ok (verdict, restrictive) space => .ok ⟨verdict, restrictive, space.states.size⟩
  | .error .exhausted space => .ok ⟨.inconclusive, [], space.states.size⟩
  | .error (.fault fault) _ => .error fault

end ProcessContracts
