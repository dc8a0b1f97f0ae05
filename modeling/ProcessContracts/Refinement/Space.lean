import Std.Data.TreeMap
import ProcessContracts.Trace.Fingerprint
import ProcessContracts.Trace.Steps
import ProcessContracts.Refinement.StateSet

/-!
# Explored states

States are simplified traces, numbered in the order they are found. A space holds at most `limit`
of them; finding one more ends the search. The steps of a state are found when it is first
expanded, and closing a set under silent steps expands every state of it.
-/

namespace ProcessContracts

/-- What ends a search without an answer. -/
inductive Halt where
  | exhausted
  | fault (fault : Fault)
deriving DecidableEq

/-- The number found beside a trace among candidates. -/
def candidate {n : Nat} (t : Trace) : List (Trace × Fin n) → Option (Fin n)
  | [] => none
  | entry :: rest => if entry.1 = t then some entry.2 else candidate t rest

structure Space (limit : Nat) where
  states : Array Trace := #[]
  /-- States by fingerprint. -/
  index : Std.TreeMap UInt64 (List (Trace × Fin limit)) := {}
  /-- Steps of the states expanded so far. -/
  edges : Std.TreeMap Nat (List (Move × Fin limit)) := {}
  size_le : states.size ≤ limit := by simp
  index_iff : ∀ t id, candidate t (index.getD t.fingerprint []) = some id ↔
    states[id.val]? = some t := by simp [candidate]

namespace Space

variable {limit : Nat}

def find? (space : Space limit) (t : Trace) : Option (Fin limit) :=
  candidate t (space.index.getD t.fingerprint [])

theorem find?_eq_some_iff {space : Space limit} {t : Trace} {id : Fin limit} :
    space.find? t = some id ↔ space.states[id.val]? = some t := space.index_iff t id

/-- The space with one more state. -/
def push (space : Space limit) (t : Trace) (room : space.states.size < limit)
    (new : space.find? t = none) : Space limit where
  states := space.states.push t
  index := space.index.insert t.fingerprint
    ((t, ⟨space.states.size, room⟩) :: space.index.getD t.fingerprint [])
  edges := space.edges
  size_le := by rw [Array.size_push]; exact room
  index_iff u id := by
    have old := space.index_iff u id
    have absent : ∀ id : Fin limit, space.states[id.val]? ≠ some t := fun id h => by
      rw [find?_eq_some_iff.2 h] at new; cases new
    rw [Std.TreeMap.getD_insert, Array.getElem?_push]
    by_cases htu : t = u
    · subst htu
      simp only [Std.ReflCmp.compare_self, if_true, candidate]
      by_cases hid : id.val = space.states.size
      · simp [hid, Fin.ext_iff]
      · have := absent id
        simp [hid, Fin.ext_iff, this, eq_comm]
    · have skip : candidate u ((t, ⟨space.states.size, room⟩) ::
          space.index.getD u.fingerprint []) = candidate u (space.index.getD u.fingerprint []) := by
        simp [candidate, htu]
      have same : candidate u
          (if compare t.fingerprint u.fingerprint = .eq then
            (t, ⟨space.states.size, room⟩) :: space.index.getD t.fingerprint []
           else space.index.getD u.fingerprint []) =
          candidate u (space.index.getD u.fingerprint []) := by
        split
        case isTrue h => rw [Std.LawfulEqOrd.eq_of_compare h]; exact skip
        case isFalse => rfl
      rw [same, old]
      split
      case isTrue h => simp [h, htu]
      case isFalse => rfl

/-- The steps of an expanded state. -/
def steps (space : Space limit) (id : Fin limit) : List (Move × Fin limit) :=
  space.edges.getD id.val []

/-- Whether some state of the set satisfies `p`. -/
def any (space : Space limit) (set : StateSet limit) (p : Trace → Bool) : Bool :=
  set.ids.any fun id => (space.states[id.val]?).any p

/-- The visible steps the set offers, in the order they are first met. -/
def labels (space : Space limit) (set : StateSet limit) : List Label :=
  ((set.ids.flatMap space.steps).filterMap fun
    | (.visible label, _) => some label
    | (.tau, _) => none).eraseDups

/-- Where a move leads from the states of a list, in order. -/
def targets (space : Space limit) (ids : List (Fin limit)) (move : Move) : List (Fin limit) :=
  (ids.flatMap space.steps).filterMap fun step => if step.1 = move then some step.2 else none

end Space

/-- A computation that finds states. -/
abbrev Explore (limit : Nat) := EStateM Halt (Space limit)

namespace Explore

variable {limit : Nat}

def liftLookup {α : Type} : Lookup α → Explore limit α
  | .ok value => pure value
  | .error fault => throw (.fault fault)

/-- The number of a trace, a new one if it is met for the first time. -/
def intern (t : Trace) : Explore limit (Fin limit) := do
  let space ← get
  match h : space.find? t with
  | some id => pure id
  | none =>
      if room : space.states.size < limit then do
        set (space.push t room h)
        pure ⟨space.states.size, room⟩
      else throw .exhausted

def internSteps : List (Move × Trace) → Explore limit (List (Move × Fin limit))
  | [] => pure []
  | (move, next) :: rest => do
      let id ← intern next.simplify
      pure ((move, id) :: (← internSteps rest))

/-- The steps of a state. The channels it can use now have to resolve. -/
def expand (program : Program) (id : Fin limit) : Explore limit (List (Move × Fin limit)) := do
  let space ← get
  match space.edges[id.val]? with
  | some known => pure known
  | none =>
      match space.states[id.val]? with
      | none => pure []
      | some t => do
          t.activeChannels.forM fun chan => liftLookup (discard (ChannelKey.resolve program chan))
          let steps ← internSteps (t.moves (ChannelKey.ofRef program))
          modify fun space => { space with edges := space.edges.insert id.val steps }
          pure steps

def silent (steps : List (Move × Fin limit)) : List (Fin limit) :=
  steps.filterMap fun step => if step.1 = .tau then some step.2 else none

/-- Adds to `seen` whatever the stacked states reach silently. The state found last is expanded
first. -/
def close (program : Program) (seen : StateSet limit) :
    List (Fin limit) → Explore limit (StateSet limit)
  | [] => pure seen
  | id :: stack =>
      if _ : id ∈ seen then close program seen stack
      else do
        let steps ← expand program id
        close program (seen.insert id) ((silent steps).reverse ++ stack)
termination_by stack => (limit - seen.ids.length, stack.length)
decreasing_by
  · exact Prod.Lex.right _ (by simp)
  · have := (seen.insert id).length_ids_le
    rw [StateSet.length_insert ‹id ∉ seen›] at this ⊢
    exact Prod.Lex.left _ _ (by omega)

/-- The states reached silently from the seeds. -/
def closure (program : Program) (seeds : List (Fin limit)) : Explore limit (StateSet limit) :=
  close program {} seeds.reverse

/-- The states reached from a closed set by a visible step and silent ones after it. -/
def step (program : Program) (set : StateSet limit) (label : Label) :
    Explore limit (StateSet limit) := do
  closure program ((← get).targets set.ids (.visible label))

end Explore

end ProcessContracts
