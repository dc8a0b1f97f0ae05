import ProcessContracts.Contract.Lowering
import ProcessContracts.Proofs.Computations
import ProcessContracts.Proofs.Copies

/-!
# Renumbered atoms

Numbers only tell atoms apart. Renumbering a trace, no two atoms alike, renumbers its steps and what
is active in it. A contract that is lowered from another supply comes out renumbered.
-/

namespace ProcessContracts

def Atom.renumber (f : AtomId → AtomId) (a : Atom) : Atom := { a with id := f a.id }

namespace Trace

variable {f : AtomId → AtomId} {key : ChanRef → ChannelKey}

mutual

def renumber (f : AtomId → AtomId) : Trace → Trace
  | .atom a => .atom (a.renumber f)
  | .ref id => .ref (f id)
  | .comp op children => .comp op (renumberAll f children)
  | .fix binder body => .fix (binder.renumber f) (renumber f body)
  | leaf => leaf

def renumberAll (f : AtomId → AtomId) : List Trace → List Trace
  | [] => []
  | t :: ts => renumber f t :: renumberAll f ts

end

@[simp] theorem renumberAll_eq_map (f : AtomId → AtomId) (ts : List Trace) :
    renumberAll f ts = ts.map (renumber f) := by
  induction ts <;> simp_all [renumberAll]

/-! ## Steps -/

theorem renumber_substitute (hf : f.Injective) (id : AtomId) (r t : Trace) :
    (substitute id r t).renumber f = substitute (f id) (r.renumber f) (t.renumber f) := by
  induction t with
  | ref other =>
      simp only [substitute, renumber]
      split
      case isTrue h => rw [if_pos (congrArg f h)]
      case isFalse h => rw [if_neg fun e => h (hf e), renumber]
  | comp op ts ih =>
      simp only [substitute, renumber, substituteAll_eq_map, renumberAll_eq_map, List.map_map,
        Trace.comp.injEq, true_and]
      exact List.map_congr_left ih
  | fix binder body ih =>
      simp only [substitute, renumber, Atom.renumber]
      split
      case isTrue h => rw [if_pos (congrArg f h), renumber, Atom.renumber]
      case isFalse h => rw [if_neg fun e => h (hf e), renumber, Atom.renumber, ih]
  | _ => rfl

theorem keepsOperators_renumber (f : AtomId → AtomId) : KeepsOperators (renumber f) where
  unit op := by cases op <;> rfl
  comp op ts := by rw [renumber, renumberAll_eq_map]

/-- Each trace is moved as its renumbered copy is. -/
theorem moves_renumber (hf : f.Injective) (t : Trace) :
    (t.renumber f).moves key = (t.moves key).map (carry (renumber f) id) := by
  induction t with
  | comp op ts ih => exact (keepsOperators_renumber f).moves_comp ih
  | fix binder body ih =>
      rw [renumber, moves, moves, Atom.renumber, List.map_singleton, carry, renumber_substitute hf]
      rfl
  | _ => rfl

theorem active_renumber (t : Trace) : (t.renumber f).active = t.active.map (renumber f) := by
  induction t with
  | comp op ts ih => exact (keepsOperators_renumber f).active_comp ih
  | _ => rfl

end Trace

/-! ## Lowering from another supply -/

/-- As many atoms were minted after the first `n` as after the first `n'`. -/
def Level (n n' : Nat) (supply supply' : AtomSupply) : Prop :=
  ∃ i, supply.minted = n + i ∧ supply'.minted = n' + i

/-- `m'` does what `m` does, mints as many atoms and answers `g` of its answer. -/
abbrev Shifts {α β : Type} (n n' : Nat) (g : α → β) (m : Lower α) (m' : Lower β) : Prop :=
  Alongside (Level n n') (fun a b => b = g a) m m'

namespace Contract

variable {program : Program} {decl : DeclId} {n n' : Nat} {f : AtomId → AtomId}

def renumberBinders (f : AtomId → AtomId) (binders : Binders) : Binders :=
  binders.map fun (name, atom) => (name, atom.renumber f)

theorem find?_renumberBinders (binders : Binders) (name : String) :
    (renumberBinders f binders).find? name = (binders.find? name).map (Atom.renumber f) := by
  induction binders with
  | nil => rfl
  | cons binder binders ih =>
      unfold renumberBinders Binders.find? at ih ⊢
      rw [List.map_cons, List.find?_cons, List.find?_cons]
      by_cases h : binder.1 = name
      · simp [h]
      · simpa [h] using ih

theorem shifts_mint (hf : ∀ i, f ⟨n + i⟩ = ⟨n' + i⟩) (origin : Origin) :
    Shifts n n' (Atom.renumber f)
    (modifyGet (·.mint origin)) (modifyGet (·.mint origin)) := by
  rintro ⟨_⟩ ⟨_⟩ ⟨i, rfl, rfl⟩
  exact ⟨congrArg (Atom.mk · origin) (hf i).symm, i + 1, rfl, rfl⟩

mutual

theorem shifts_lowerUnder (hf : ∀ i, f ⟨n + i⟩ = ⟨n' + i⟩) (c : Contract) (binders : Binders) :
    Shifts n n' (Trace.renumber f) (lowerUnder program decl binders c)
      (lowerUnder program decl (renumberBinders f binders) c) := by
  cases c with
  | event direction channel =>
      have hchan : Shifts n n' (fun chan => chan) (lowerRef program channel)
          (lowerRef program channel) := by
        unfold lowerRef
        split
        · exact alongside_pure rfl
        · exact alongside_throw _
      exact hchan.bind fun chan _ hchan => alongside_pure (hchan ▸ rfl)
  | comp op children =>
      refine (shifts_lowerAll hf children binders).bind fun ts _ hts => alongside_pure ?_
      rw [hts, Trace.renumber, Trace.renumberAll_eq_map]
  | recursion name body =>
      refine (shifts_mint hf _).bind fun atom _ hatom => ?_
      subst hatom
      exact (shifts_lowerUnder hf body ((name, atom) :: binders)).bind fun t _ ht =>
        alongside_pure (ht ▸ rfl)
  | var name =>
      unfold lowerUnder
      rw [find?_renumberBinders]
      cases binders.find? name with
      | some atom => exact alongside_pure rfl
      | none => exact alongside_throw _
  | _ => exact alongside_pure rfl

theorem shifts_lowerAll (hf : ∀ i, f ⟨n + i⟩ = ⟨n' + i⟩) (cs : List Contract) (binders : Binders) :
    Shifts n n' (List.map (Trace.renumber f)) (lowerAll program decl binders cs)
      (lowerAll program decl (renumberBinders f binders) cs) := by
  cases cs with
  | nil => exact alongside_pure rfl
  | cons c cs =>
      refine (shifts_lowerUnder hf c binders).bind fun t _ ht => ?_
      exact (shifts_lowerAll hf cs binders).bind fun ts _ hts => alongside_pure (ht ▸ hts ▸ rfl)

end

/-- Lowering a contract from another supply, the atoms are other ones. -/
theorem shifts_lower (hf : ∀ i, f ⟨n + i⟩ = ⟨n' + i⟩) (contract : Contract) :
    Shifts n n' (Trace.renumber f)
    (contract.lower program decl) (contract.lower program decl) :=
  shifts_lowerUnder hf contract []

end Contract

end ProcessContracts
