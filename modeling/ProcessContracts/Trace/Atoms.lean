import ProcessContracts.Trace.Basic

/-!
# Atoms, bound and free references

A `fix` binds the references to its atom inside its body; the innermost binder of a number wins.
Substitution replaces the references that are free, and stops at a binder of the same number.
-/

namespace ProcessContracts

/-- Hands out atoms in ascending order. One supply serves a whole compilation, so that no number
is used twice. -/
structure AtomSupply where
  minted : Nat := 0
deriving DecidableEq

def AtomSupply.mint (supply : AtomSupply) (origin : Origin) : Atom × AtomSupply :=
  (⟨⟨supply.minted⟩, origin⟩, ⟨supply.minted + 1⟩)

namespace Trace

mutual

/-- Free references, from left to right. -/
def freeRefs : Trace → List AtomId
  | .ref id => [id]
  | .comp _ children => freeRefsAll children
  | .fix binder body => (freeRefs body).filter (· ≠ binder.id)
  | _ => []

def freeRefsAll : List Trace → List AtomId
  | [] => []
  | t :: ts => freeRefs t ++ freeRefsAll ts

end

/-- The atoms a trace refers to freely, by ascending number and without repetition. -/
def freeAtoms (t : Trace) : List AtomId :=
  (t.freeRefs.mergeSort fun a b => a.index ≤ b.index).eraseDups

/-- Whether the trace refers to `id` outside every binder of `id`. -/
def refersTo (t : Trace) (id : AtomId) : Bool := t.freeRefs.contains id

theorem refersTo_iff {t : Trace} {id : AtomId} : t.refersTo id = true ↔ id ∈ t.freeRefs := by
  simp [refersTo]

theorem mem_freeAtoms {t : Trace} {id : AtomId} : id ∈ t.freeAtoms ↔ id ∈ t.freeRefs := by
  simp [freeAtoms]

/-- A trace without free references. -/
def isClosed (t : Trace) : Bool := t.freeRefs.isEmpty

mutual

/-- Replaces the free references to an atom. -/
def substitute (id : AtomId) (replacement : Trace) : Trace → Trace
  | .ref other => if other = id then replacement else .ref other
  | .comp op children => .comp op (substituteAll id replacement children)
  | .fix binder body =>
      if binder.id = id then .fix binder body
      else .fix binder (substitute id replacement body)
  | leaf => leaf

def substituteAll (id : AtomId) (replacement : Trace) : List Trace → List Trace
  | [] => []
  | t :: ts => substitute id replacement t :: substituteAll id replacement ts

end

@[simp] theorem freeRefsAll_eq_flatMap (ts : List Trace) :
    freeRefsAll ts = ts.flatMap freeRefs := by
  induction ts <;> simp_all [freeRefsAll]

@[simp] theorem substituteAll_eq_map (id : AtomId) (replacement : Trace) (ts : List Trace) :
    substituteAll id replacement ts = ts.map (substitute id replacement) := by
  induction ts <;> simp_all [substituteAll]

end Trace

end ProcessContracts
