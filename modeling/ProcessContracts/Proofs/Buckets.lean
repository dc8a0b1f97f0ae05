import ProcessContracts.Proofs.Walks

/-!
# The bucket discipline

A walk puts at most one fragment into the innermost open bucket and leaves everything else that was
collected alone. So no bucket is ever missing, none is ever too full, and the policy on surplus
fragments makes no difference.
-/

namespace ProcessContracts

/-- Failures that would be the check's own fault. -/
def CheckError.IsInternal : CheckError → Prop
  | .excessFragments _ _ _ | .bucketUnderflow _ | .noActiveScope => True
  | .arityMismatch _ _ _ _ | .unknownDecl _ | .unknownNode _ => False

namespace Walk

variable {α β : Type} {setting : Setting} {state last : WalkState} {node : NodeId}

/-- No condition at all; what is left is the discipline that every walk keeps. -/
def anything (setting : Setting) : StateInvariant setting where
  Holds _ _ _ _ := True
  mint _ _ := trivial
  enter _ _ := trivial
  leave _ := trivial
  fold _ _ := trivial
  judge _ _ := trivial
  attach _ _ := trivial

/-- Nothing a walk can be given up for is internal. -/
theorem Invariant.Cause.not_internal {I : Invariant setting} {error : CheckError}
    (h : I.Cause (.error error)) : ¬ error.IsInternal := by
  cases h with
  | unknownNode => exact id
  | unknownDecl => exact id
  | arity => exact id

/-- What a walk does to what it found: the same scopes are open, opened for the same instances, and
what they have collected is the same but for at most one fragment more in the innermost bucket. -/
structure Undisturbed (state last : WalkState) : Prop where
  scopes : List.Forall₂ (fun s s' => s'.owner = s.owner ∧ s'.interface = s.interface ∧
    s'.entry = s.entry) state.scopes last.scopes
  buckets : ∃ ts, ts.length ≤ 1 ∧ last.buckets = contribute ts state.buckets

/-- Walking a node inside an open bucket, however deep the walk may nest. -/
theorem walkWithin_disciplined (depth : Nat) (hbuckets : Receives state.buckets) :
    match (walkWithin setting depth node).run state with
    | .ok _ last => Undisturbed state last
    | .error (.error error) _ => ¬ error.IsInternal
    | .error (.fault _) _ => True := by
  have hvisit : (anything setting).toInvariant.Visits depth (walkWithin setting depth) :=
    Invariant.keeps_walkWithin depth
  have hkeeps := @hvisit state node ((anything setting).sound trivial) hbuckets trivial
  unfold Invariant.Keeps at hkeeps
  split at hkeeps
  case h_1 last heq =>
    obtain ⟨-, hlater, hoffers⟩ := hkeeps
    rw [heq]
    exact ⟨hlater.scopes.imp fun s s' h => ⟨h.owner, h.interface, h.entry⟩, hoffers⟩
  case h_2 abort last heq =>
    rw [heq]
    cases abort with
    | error error => exact hkeeps.2.not_internal
    | fault fault => trivial

theorem check_error_not_internal {unit : ProgramUnit} {session session' : Session}
    {error : CheckError} (h : check setting unit session = (.error (.error error), session')) :
    ¬ error.IsInternal := by
  have hchecked := @checked setting (anything setting).toInvariant unit session trivial
    ((anything setting).begins unit)
  rw [h] at hchecked
  rcases hchecked.2 with hcause | hmissing
  · exact hcause.not_internal
  · cases hmissing with
    | proc => exact id
    | process => exact id

end Walk

end ProcessContracts
