import ProcessContracts.Channel

/-!
# Traces

The algebra of behaviours. Children of a composition are a plain list, so functions on traces come
in pairs, one for a trace and one for its children; the pair's second half is always the first
mapped over the list. `Trace.induction` is the matching induction principle.
-/

namespace ProcessContracts

/-- Number of an atom, unique within one compilation. -/
structure AtomId where
  index : Nat
deriving DecidableEq

def AtomId.text (id : AtomId) : String := s!"a{id.index}"

/-- What an atom was minted for. -/
inductive Origin where
  | loop (node : NodeId)
  | replication (node : NodeId)
  | recursion (decl : DeclId)
  | contract (decl : DeclId)
deriving DecidableEq

/-- Stands for a recursively defined behaviour. -/
structure Atom where
  id : AtomId
  origin : Origin
deriving DecidableEq

inductive Trace where
  /-- Successful termination. -/
  | skip
  /-- Deadlock. -/
  | stop
  /-- Runs forever without a visible step. -/
  | div
  /-- Behaviour without any constraint. -/
  | chaos
  /-- A behaviour that is not defined yet. -/
  | atom (atom : Atom)
  /-- The behaviour an enclosing `fix` binds. -/
  | ref (id : AtomId)
  | event (direction : Direction) (chan : ChanRef)
  /-- The behaviour of a node that could not be characterised. -/
  | unresolved (node : NodeId)
  | comp (op : Operator) (children : List Trace)
  /-- The behaviour equal to its own unfolding. -/
  | fix (binder : Atom) (body : Trace)

namespace Trace

@[elab_as_elim, induction_eliminator]
theorem induction {motive : Trace → Prop}
    (skip : motive .skip) (stop : motive .stop) (div : motive .div) (chaos : motive .chaos)
    (atom : ∀ a, motive (.atom a)) (ref : ∀ id, motive (.ref id))
    (event : ∀ direction chan, motive (.event direction chan))
    (unresolved : ∀ node, motive (.unresolved node))
    (comp : ∀ op children, (∀ c ∈ children, motive c) → motive (.comp op children))
    (fix : ∀ binder body, motive body → motive (.fix binder body)) :
    ∀ t, motive t :=
  Trace.rec (motive_1 := motive) (motive_2 := fun children => ∀ c ∈ children, motive c)
    skip stop div chaos atom ref event unresolved comp fix
    (fun _ h => nomatch h)
    (fun head tail hhead htail c hc => by
      rcases List.mem_cons.1 hc with rfl | hc
      · exact hhead
      · exact htail c hc)

/-! ## Equality -/

mutual

def same : Trace → Trace → Bool
  | .skip, .skip | .stop, .stop | .div, .div | .chaos, .chaos => true
  | .atom a, .atom b => a = b
  | .ref a, .ref b => a = b
  | .event d c, .event d' c' => d = d' && c = c'
  | .unresolved n, .unresolved m => n = m
  | .comp op cs, .comp op' cs' => op = op' && sameAll cs cs'
  | .fix b t, .fix b' t' => b = b' && same t t'
  | _, _ => false

def sameAll : List Trace → List Trace → Bool
  | [], [] => true
  | t :: ts, u :: us => same t u && sameAll ts us
  | _, _ => false

end

theorem sameAll_iff {ts : List Trace} (h : ∀ t ∈ ts, ∀ u, same t u = true ↔ t = u) :
    ∀ us, sameAll ts us = true ↔ ts = us := by
  induction ts with
  | nil => intro us; cases us <;> simp [sameAll]
  | cons t ts ih =>
      intro us
      cases us with
      | nil => simp [sameAll]
      | cons u us =>
          simp [sameAll, h t (by simp) u, ih (fun t ht => h t (by simp [ht])) us]

theorem same_iff (t : Trace) : ∀ u, same t u = true ↔ t = u := by
  induction t with
  | comp op cs ih => intro u; cases u <;> simp [same, sameAll_iff ih]
  | fix b t ih => intro u; cases u <;> simp [same, ih]
  | _ => intro u; cases u <;> simp [same]

instance : DecidableEq Trace := fun t u => decidable_of_iff _ (same_iff t u)

/-! ## Shape -/

def children : Trace → List Trace
  | .comp _ children => children
  | .fix _ body => [body]
  | _ => []

def isLeaf : Trace → Bool
  | .comp _ _ | .fix _ _ => false
  | _ => true

mutual

/-- Number of nodes of the expression tree. -/
def size : Trace → Nat
  | .comp _ children => sizeAll children + 1
  | .fix _ body => size body + 1
  | _ => 1

def sizeAll : List Trace → Nat
  | [] => 0
  | t :: ts => size t + sizeAll ts

end

end Trace

end ProcessContracts
