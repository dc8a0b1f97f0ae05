import ProcessContracts.Check
import ProcessContracts.Proofs.Hiding
import ProcessContracts.Proofs.LoweredContracts
import ProcessContracts.Proofs.Simplification

/-!
# Procedures and their instances

An instance of a procedure in progress refers to the recursion atom of its scope. The trace of a
procedure binds that atom, so what leaves the scope refers to procedures further out only, and a
trace that is attached refers to none.
-/

namespace ProcessContracts

open Trace

/-! ## Renaming, lowering and projecting -/

theorem Trace.freeRefs_mapChannels (f : ChanRef → ChanRef) (t : Trace) :
    (t.mapChannels f).freeRefs = t.freeRefs := by
  induction t with
  | comp op ts ih =>
      simp only [mapChannels, freeRefs, mapChannelsAll_eq_map, freeRefsAll_eq_flatMap,
        List.flatMap_map]
      rw [List.flatMap_def, List.flatMap_def, List.map_congr_left ih]
  | fix binder body ih => simp only [mapChannels, freeRefs, ih]
  | _ => rfl

namespace Substitution

/-- Bindings leave a trace alone or redirect all its channels. -/
theorem cases_of_apply {program : Program} {bindings : Substitution} {t u : Trace}
    (h : bindings.apply program t = .ok u) : u = t ∨
      (∀ chan ∈ t.channels, ∃ chan', bindings.redirect program chan = .ok chan') ∧
        u = t.mapChannels fun chan => (bindings.redirect program chan).getD chan := by
  unfold apply at h
  split at h
  case isTrue => exact .inl (Except.ok.inj h).symm
  case isFalse =>
    obtain ⟨_, hasked, h⟩ := Lookup.bind_eq_ok.1 h
    exact .inr ⟨Lookup.answered_of_forM hasked, (Except.ok.inj h).symm⟩

theorem freeRefs_apply {program : Program} {bindings : Substitution} {t u : Trace}
    (h : bindings.apply program t = .ok u) : u.freeRefs = t.freeRefs := by
  obtain rfl | ⟨-, rfl⟩ := cases_of_apply h
  · rfl
  · exact freeRefs_mapChannels _ t

theorem exists_of_mem_applySet {program : Program} {bindings : Substitution}
    {traces traces' : TraceSet} (h : bindings.applySet program traces = .ok traces') {u : Trace}
    (hu : u ∈ traces'.alternatives) :
    ∃ t ∈ traces.alternatives, bindings.apply program t = .ok u := by
  obtain ⟨us, hus, h⟩ := Lookup.bind_eq_ok.1 h
  obtain rfl := Except.ok.inj h
  exact Lookup.exists_of_mem_mapM hus hu

theorem exists_error_of_applySet {program : Program} {bindings : Substitution} {traces : TraceSet}
    {fault : Fault} (h : bindings.applySet program traces = .error fault) :
    ∃ t ∈ traces.alternatives, bindings.apply program t = .error fault := by
  rcases Lookup.bind_eq_error.1 h with h | ⟨ts, -, h⟩
  · exact Lookup.exists_error_of_mapM h
  · cases h

end Substitution

namespace Contract

variable {program : Program} {decl : DeclId}

/-- A lowered part refers to the binders around it. -/
theorem Lowered.freeRefs {binders : Binders} {supply last : AtomSupply} {c : Contract} {t : Trace}
    (h : Lowered program decl binders supply c t last) :
    ∀ id ∈ t.freeRefs, ∃ binder ∈ binders, binder.2.id = id := by
  induction h with
  | cons _ _ ihhead ihtail =>
      intro id hid
      rcases List.mem_append.1 hid with hid | hid
      · exact ihhead id hid
      · exact ihtail id hid
  | recursion _ _ ih =>
      intro id hid
      obtain ⟨hid, hne⟩ := mem_freeRefs_fix.1 hid
      obtain ⟨binder, hbinder, heq⟩ := ih id hid
      rcases List.mem_cons.1 hbinder with rfl | hbinder
      · exact absurd heq.symm hne
      · exact ⟨binder, hbinder, heq⟩
  | var hfind =>
      intro id hid
      obtain ⟨binder, hbinder, rfl⟩ := mem_of_find? hfind
      exact ⟨binder, hbinder, (List.mem_singleton.1 hid).symm⟩
  | _ => exact fun id hid => by cases hid

/-- A contract as a whole is lowered to a closed trace. -/
theorem freeRefs_lower {contract : Contract} {supply supply' : AtomSupply} {t : Trace}
    (h : (contract.lower program decl).run supply = .ok t supply') : t.freeRefs = [] := by
  refine List.eq_nil_iff_forall_not_mem.2 fun id hid => ?_
  obtain ⟨binder, hbinder, -⟩ := (lowered_of_lower h).freeRefs id hid
  cases hbinder

end Contract

/-- What is known of every stored trace and of one more is known when that one is stored too. -/
theorem TraceStore.forall_insert {p : Trace → Prop} {store : TraceStore} {t : Trace}
    (h : ∀ other traces, store.get? other = some traces → ∀ u ∈ traces.alternatives, p u)
    (ht : p t) (callee : DeclId) :
    ∀ other traces, (store.insert callee (.single t)).get? other = some traces →
      ∀ u ∈ traces.alternatives, p u := by
  intro other traces hget
  rw [Ledger.get?_insert] at hget
  split at hget
  case isTrue =>
    obtain rfl := Option.some.inj hget
    exact List.forall_mem_singleton.2 ht
  case isFalse => exact h other traces hget

namespace Walk

variable {setting : Setting} {interface : List NameId} {t u : Trace} {id : AtomId}

theorem project_eq_ok (h : project setting interface t = .ok u) :
    (setting.options.projectInterface = true ∧
      (∀ chan ∈ t.channels, ∃ b, ChanRef.isAmong setting.program interface chan = .ok b) ∧
      u = (t.hide fun chan =>
        (ChanRef.isAmong setting.program interface chan).getD true).simplify) ∨
    (setting.options.projectInterface = false ∧ u = t) := by
  unfold project at h
  split at h
  case isTrue hproject =>
    obtain ⟨w, hhide, h⟩ := Lookup.bind_eq_ok.1 h
    obtain rfl := Except.ok.inj h
    obtain ⟨_, hchannels, hhide⟩ := Lookup.bind_eq_ok.1 hhide
    obtain rfl := Except.ok.inj hhide
    exact .inl ⟨hproject, Lookup.answered_of_forM hchannels, rfl⟩
  case isFalse hproject =>
    exact .inr ⟨Bool.eq_false_iff.2 hproject, (Except.ok.inj h).symm⟩

theorem mem_freeRefs_of_project (h : project setting interface t = .ok u)
    (hid : id ∈ u.freeRefs) : id ∈ t.freeRefs := by
  rcases project_eq_ok h with ⟨-, -, rfl⟩ | ⟨-, rfl⟩
  · rw [← freeRefs_hide]
    exact View.freeRefs_simplify_subset _ hid
  · exact hid

end Walk

end ProcessContracts
