import ProcessContracts.Proofs.DecidedSearches

/-!
# Running closed traces

A step of a trace refers to nothing that the trace does not refer to, and substituting a closed
trace takes away one reference and brings in none. Binders of the same number may stand inside each
other, and what they bind is told by the binders on the way to a reference. So a search that starts
from closed traces finds closed states only.
-/

namespace ProcessContracts

namespace Trace

variable {t u : Trace} {id : AtomId}

/-! ## References below binders -/

mutual

/-- The references of a trace that none of the binders around it binds, from left to right. -/
def unbound (bound : List AtomId) : Trace → List AtomId
  | .ref id => if id ∈ bound then [] else [id]
  | .comp _ children => unboundAll bound children
  | .fix binder body => unbound (binder.id :: bound) body
  | _ => []

def unboundAll (bound : List AtomId) : List Trace → List AtomId
  | [] => []
  | t :: ts => unbound bound t ++ unboundAll bound ts

end

@[simp] theorem unboundAll_eq_flatMap (bound : List AtomId) (ts : List Trace) :
    unboundAll bound ts = ts.flatMap (unbound bound) := by
  induction ts <;> simp_all [unboundAll]

/-- The binders around a trace take away the references to them. -/
theorem unbound_eq_filter (bound : List AtomId) (t : Trace) :
    t.unbound bound = t.freeRefs.filter (· ∉ bound) := by
  induction t generalizing bound with
  | ref id =>
      rw [unbound, freeRefs]
      split <;> simp_all
  | comp op ts ih =>
      rw [unbound, unboundAll_eq_flatMap, freeRefs, freeRefsAll_eq_flatMap, List.filter_flatMap]
      exact List.flatMap_congr fun t ht => ih t ht bound
  | fix binder body ih =>
      rw [unbound, ih, freeRefs, List.filter_filter]
      refine List.filter_congr fun id _ => ?_
      simp [Bool.and_comm]
  | _ => rfl

theorem freeRefs_eq_unbound (t : Trace) : t.freeRefs = t.unbound [] := by
  rw [unbound_eq_filter]
  simp

/-- A closed trace that is put in for an atom leaves the references to all others, whatever the
binders around. -/
theorem unbound_substitute {r : Trace} (hr : r.freeRefs = []) (id : AtomId) (bound : List AtomId)
    (t : Trace) : (substitute id r t).unbound bound = (t.unbound bound).filter (· ≠ id) := by
  induction t generalizing bound with
  | ref other =>
      rw [substitute]
      split
      case isTrue h =>
        rw [unbound_eq_filter, hr, h, unbound]
        split <;> simp
      case isFalse h =>
        rw [unbound]
        split <;> simp [h]
  | comp op ts ih =>
      simp only [substitute, substituteAll_eq_map, unbound, unboundAll_eq_flatMap, List.flatMap_map,
        List.filter_flatMap]
      exact List.flatMap_congr fun t ht => ih t ht bound
  | fix binder body ih =>
      rw [substitute]
      split
      case isTrue h =>
        -- the binder stands around all references to its atom, so there is nothing to filter out
        refine (List.filter_eq_self.2 fun other hother => ?_).symm
        rw [unbound, unbound_eq_filter] at hother
        obtain ⟨-, hother⟩ := List.mem_filter.1 hother
        simp_all
      case isFalse => exact ih (binder.id :: bound)
  | _ => rfl

/-! ## Free atoms -/

theorem mergeSort_filter (p : AtomId → Bool) (ids : List AtomId) :
    (ids.filter p).mergeSort (fun a b => a.index ≤ b.index) =
      (ids.mergeSort fun a b => a.index ≤ b.index).filter p := by
  have hsorted : ∀ ids : List AtomId,
      (ids.mergeSort fun a b => a.index ≤ b.index).Pairwise fun a b => a.index ≤ b.index :=
    fun ids => by
      simpa using @List.pairwise_mergeSort AtomId (fun a b => decide (a.index ≤ b.index))
        (by simpa using fun _ _ _ => Nat.le_trans) (by simpa using fun _ _ => Nat.le_total _ _) ids
  refine List.Perm.eq_of_pairwise (fun a b _ _ hab hba => ?_) (hsorted _)
    ((hsorted ids).filter p) ?_
  · cases a
    cases b
    exact congrArg AtomId.mk (Nat.le_antisymm hab hba)
  · exact (List.mergeSort_perm _ _).trans ((List.mergeSort_perm _ _).filter p).symm

theorem freeAtoms_substitute {r : Trace} (hr : r.freeRefs = []) (id : AtomId) (t : Trace) :
    (substitute id r t).freeAtoms = t.freeAtoms.filter (· ≠ id) := by
  have hrefs : (substitute id r t).freeRefs = t.freeRefs.filter (· ≠ id) := by
    rw [freeRefs_eq_unbound, unbound_substitute hr, ← freeRefs_eq_unbound]
  rw [freeAtoms, hrefs, mergeSort_filter, eraseDups_filter, freeAtoms]

theorem freeAtoms_subset_iff : u.freeAtoms ⊆ t.freeAtoms ↔ u.freeRefs ⊆ t.freeRefs := by
  simp only [List.subset_def, mem_freeAtoms]

end Trace

open Trace

/-! ## Searches -/

variable {program : Program} {spec imp : Trace} {limit : Nat}

theorem isClosed_of_explored (hspec : spec.isClosed = true) (himp : imp.isClosed = true) :
    ∀ t ∈ (Explore.endSpace (do
      Explore.search program [] List.nodup_nil {} [← Explore.start program spec imp])
      ({} : Space limit)).states, t.isClosed = true := by
  intro t ht
  have hsimplify : ∀ {t : Trace}, t.isClosed = true → t.simplify.isClosed = true := fun ht =>
    isClosed_iff.2 (View.freeRefs_simplify (isClosed_iff.1 ht))
  have hstep : ∀ t ∈ {t : Trace | t.isClosed = true}, ∀ m u,
      (m, u) ∈ t.moves (ChannelKey.ofRef program) → u.simplify ∈ {t | t.isClosed = true} :=
    fun t ht m u hm => hsimplify (isClosed_iff.2 (freeRefs_of_mem_moves (isClosed_iff.1 ht) hm))
  obtain ⟨i, hi, rfl⟩ := Array.mem_iff_getElem.1 ht
  exact within_endSpace hstep (hsimplify hspec) (hsimplify himp) i _
    (Array.getElem?_eq_getElem hi)

/-- No step leads to a reference that was not free before, and putting in a closed trace takes away
exactly the reference it is put in for. So all states of a search between closed traces are
closed. -/
theorem running_stays_closed (program : Program) :
    (∀ (t u : Trace) (m : Move), (m, u) ∈ t.moves (ChannelKey.ofRef program) →
      u.freeAtoms ⊆ t.freeAtoms ∧ u.simplify.freeAtoms ⊆ t.freeAtoms) ∧
    (∀ r : Trace, r.isClosed = true → ∀ (id : AtomId) (t : Trace),
      (substitute id r t).freeAtoms = t.freeAtoms.filter (· ≠ id) ∧
        (id ∉ t.freeAtoms → substitute id r t = t)) ∧
    ∀ spec imp : Trace, spec.isClosed = true → imp.isClosed = true → ∀ limit : Nat,
      ∃ space : Space limit, space = Explore.endSpace (do
          Explore.search program [] List.nodup_nil {} [← Explore.start program spec imp]) {} ∧
        (∀ t ∈ space.states, t.isClosed = true) ∧
        ∀ report, refines program spec imp limit = .ok report →
          report.statesExplored = space.states.size := by
  refine ⟨fun t u m hm => ?_, fun r hr id t => ?_, fun spec imp hspec himp limit =>
    ⟨_, rfl, isClosed_of_explored hspec himp, fun _ => statesExplored_of_refines⟩⟩
  · have hsubset := freeRefs_moves_subset hm
    exact ⟨freeAtoms_subset_iff.2 hsubset,
      freeAtoms_subset_iff.2 (List.Subset.trans (View.freeRefs_simplify_subset u) hsubset)⟩
  · exact ⟨freeAtoms_substitute (isClosed_iff.1 hr) id t, fun hfree =>
      substitute_of_not_mem fun hid => hfree (mem_freeAtoms.2 hid)⟩

/-- The body of a loop, with another loop in it that has the same binder. -/
def reboundBody : Trace :=
  .comp .seq [.event .output ⟨⟨0⟩, none⟩, .fix ⟨⟨0⟩, .loop ⟨1⟩⟩
    (.comp .det [.ref ⟨0⟩, .event .input ⟨⟨0⟩, none⟩]), .ref ⟨0⟩]

def rebound : Trace := .fix ⟨⟨0⟩, .loop ⟨0⟩⟩ reboundBody

theorem rebound_stays_closed :
    (substitute ⟨0⟩ rebound reboundBody).freeAtoms ⊆ rebound.freeAtoms ∧
      (substitute ⟨0⟩ rebound reboundBody).freeAtoms = reboundBody.freeAtoms.filter (· ≠ ⟨0⟩) ∧
      substitute ⟨0⟩ rebound rebound = rebound ∧
      ∃ space : Space 10, space = Explore.endSpace (do
          Explore.search ticker [] List.nodup_nil {} [← Explore.start ticker rebound rebound]) {} ∧
        ∀ t ∈ space.states, t.isClosed = true := by
  obtain ⟨hsteps, hsubstitute, hexplored⟩ := running_stays_closed ticker
  have hunfold : (.tau, substitute ⟨0⟩ rebound reboundBody) ∈
      rebound.moves (ChannelKey.ofRef ticker) := List.mem_singleton_self _
  obtain ⟨space, hspace, hstates, -⟩ := hexplored rebound rebound (by decide) (by decide) 10
  exact ⟨(hsteps _ _ _ hunfold).1, (hsubstitute rebound (by decide) ⟨0⟩ reboundBody).1,
    (hsubstitute rebound (by decide) ⟨0⟩ rebound).2 (mt mem_freeAtoms.1 (by decide)),
    space, hspace, hstates⟩

end ProcessContracts
