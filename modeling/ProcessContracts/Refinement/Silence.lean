import ProcessContracts.Refinement.Space

/-!
# Silent cycles

A finite set of states can run silently forever exactly if its silent steps form a cycle. A state
is settled once all its silent successors in the set are; what never settles leads into a cycle.
-/

namespace ProcessContracts

variable {limit : Nat}

/-- The states of a graph with the successors of each one. -/
abbrev SilentGraph (limit : Nat) := List (Fin limit × List (Fin limit))

/-- The silent steps inside the set. -/
def Space.silentGraph (space : Space limit) (set : StateSet limit) : SilentGraph limit :=
  set.ids.map fun id => (id, (space.targets [id] .tau).filter (· ∈ set))

namespace SilentGraph

/-- Whether a state is not settled yet and all its successors are. -/
def settles (settled : List (Fin limit)) (row : Fin limit × List (Fin limit)) : Bool :=
  !settled.contains row.1 && row.2.all settled.contains

theorem settles_iff {settled : List (Fin limit)} {row : Fin limit × List (Fin limit)} :
    settles settled row = true ↔ row.1 ∉ settled ∧ ∀ next ∈ row.2, next ∈ settled := by
  simp [settles]

/-- Settles what can settle. States of high number are looked at first, and what settles then
counts at once. -/
def sweep (settled : List (Fin limit)) (graph : SilentGraph limit) : List (Fin limit) :=
  graph.foldr (fun row settled => if settles settled row then row.1 :: settled else settled) settled

theorem length_le_sweep (settled : List (Fin limit)) (graph : SilentGraph limit) :
    settled.length ≤ (sweep settled graph).length := by
  induction graph with
  | nil => exact Nat.le_refl _
  | cons row rows ih =>
      simp only [sweep, List.foldr_cons] at ih ⊢
      split
      · simp only [List.length_cons]; omega
      · exact ih

theorem nodup_sweep {settled : List (Fin limit)} (graph : SilentGraph limit)
    (h : settled.Nodup) : (sweep settled graph).Nodup := by
  induction graph with
  | nil => exact h
  | cons row rows ih =>
      simp only [sweep, List.foldr_cons] at ih ⊢
      split
      case isTrue hrow => exact List.nodup_cons.2 ⟨(settles_iff.1 hrow).1, ih⟩
      case isFalse => exact ih

/-- Sweeps until nothing more settles. -/
def settle (graph : SilentGraph limit) (settled : List (Fin limit)) (h : settled.Nodup) :
    List (Fin limit) :=
  if (sweep settled graph).length = settled.length then settled
  else settle graph (sweep settled graph) (nodup_sweep graph h)
termination_by limit - settled.length
decreasing_by
  have grows := length_le_sweep settled graph
  have bounded := StateSet.length_le_of_nodup_lt (l := (sweep settled graph).map Fin.val)
    (List.pairwise_map.2 ((nodup_sweep graph h).imp fun hne heq => hne (Fin.ext heq)))
    (m := limit) (by simp)
  rw [List.length_map] at bounded
  omega

def isCyclic (graph : SilentGraph limit) : Bool :=
  (settle graph [] List.nodup_nil).length < graph.length

end SilentGraph

/-- Whether the closed set can run forever without a visible step. -/
def Space.diverges (space : Space limit) (set : StateSet limit) : Bool :=
  space.any set Trace.diverges || (space.silentGraph set).isCyclic

end ProcessContracts
