import ProcessContracts.Proofs.Components

/-!
# Properties that go by components

A property that a composition has exactly if its children have it is kept by whatever drops, unwraps
and replaces children. So simplifying keeps it, and a step does as soon as unfolding a `fix` does.
-/

namespace ProcessContracts.Trace

/-- A composition has the property exactly if its children have it. -/
structure Componentwise (p : Trace → Prop) : Prop where
  skip : p .skip
  stop : p .stop
  comp : ∀ {op ts}, p (.comp op ts) ↔ ∀ t ∈ ts, p t

variable {op : Operator} {t u : Trace} {ts as bs : List Trace} {m : Move}
  {key : ChanRef → ChannelKey}

theorem flatMap_subset_iff {α : Type} {f : Trace → List α} {xs : List α} :
    ts.flatMap f ⊆ xs ↔ ∀ t ∈ ts, f t ⊆ xs := by
  constructor
  · exact fun h t ht x hx => h (List.mem_flatMap.2 ⟨t, ht, hx⟩)
  · intro h x hx
    obtain ⟨t, ht, hx⟩ := List.mem_flatMap.1 hx
    exact h t ht hx

theorem through_cases (q : Trace → Bool) (ts : List Trace) : through q ts = ts ∨
    ∃ as t bs, ts = as ++ t :: bs ∧ q t = true ∧ through q ts = as ++ [t] := by
  induction ts with
  | nil => exact .inl rfl
  | cons t ts ih =>
      unfold through
      split
      case isTrue h => exact .inr ⟨[], t, ts, rfl, h, rfl⟩
      case isFalse =>
        rcases ih with h | ⟨as, u, bs, rfl, hu, h⟩
        · exact .inl (by rw [h])
        · exact .inr ⟨t :: as, u, bs, rfl, hu, by rw [h]; rfl⟩

theorem mem_of_mem_prune (h : t ∈ prune op ts) : t ∈ ts := by
  cases op with
  | seq =>
      rw [prune] at h
      rcases through_cases endsSequence ts with heq | ⟨as, u, bs, rfl, -, heq⟩
      · exact heq ▸ h
      · rw [heq] at h
        rcases List.mem_append.1 h with h | h
        · simp [h]
        · simp [List.mem_singleton.1 h]
  | par => exact h
  | det | ndet => exact List.mem_eraseDups.1 h

namespace Componentwise

variable {p : Trace → Prop} (hp : Componentwise p)

include hp

theorem unit (op : Operator) : p (Trace.unit op) := by
  cases op with
  | seq | par => exact hp.skip
  | det | ndet => exact hp.stop

theorem collapse (h : ∀ t ∈ ts, p t) : p (Trace.collapse op ts) := by
  match ts, h with
  | [], _ => exact hp.unit op
  | [t], h => exact h t (List.mem_singleton_self t)
  | t :: u :: ts, h => exact hp.comp.2 h

/-- One child goes on and the others stay as they are. -/
theorem replace (h : ∀ c ∈ as ++ t :: bs, p c) (hu : p u) : p (.comp op (as ++ u :: bs)) := by
  obtain ⟨has, hrest⟩ := List.forall_mem_append.1 h
  exact hp.comp.2 (List.forall_mem_append.2
    ⟨has, List.forall_mem_cons.2 ⟨hu, (List.forall_mem_cons.1 hrest).2⟩⟩)

theorem splice (h : p t) (hu : u ∈ Trace.splice op t) : p u := by
  unfold Trace.splice at hu
  split at hu
  case h_1 inner children =>
    split at hu
    · exact hp.comp.1 h u hu
    · exact List.mem_singleton.1 hu ▸ h
  case h_2 =>
    split at hu
    · cases hu
    · exact List.mem_singleton.1 hu ▸ h

theorem simplify (h : ∀ t ∈ ts, p t.simplify) : p (Trace.comp op ts).simplify := by
  rw [Trace.simplify, simplifyAll_eq_map]
  refine hp.collapse fun u hu => ?_
  obtain ⟨c, hc, hu⟩ := List.mem_flatMap.1 (mem_of_mem_prune hu)
  obtain ⟨t, ht, rfl⟩ := List.mem_map.1 hc
  exact hp.splice (h t ht) hu

theorem active {l : Trace} (ht : p t) (hl : l ∈ t.active) : p l := by
  induction t with
  | comp op ts ih =>
      have hts := hp.comp.1 ht
      cases op with
      | seq =>
          cases ts with
          | nil => cases hl
          | cons c cs => exact ih c List.mem_cons_self (hts c List.mem_cons_self) hl
      | par =>
          obtain ⟨c, hc, hl⟩ := mem_active_par.1 hl
          exact ih c hc (hts c hc) hl
      | det =>
          obtain ⟨c, hc, hl⟩ := mem_active_det.1 hl
          exact ih c hc (hts c hc) hl
      | ndet => exact List.mem_singleton.1 hl ▸ ht
  | _ => exact List.mem_singleton.1 hl ▸ ht

theorem step (hfix : ∀ binder body, p (.fix binder body) →
      p (substitute binder.id (.fix binder body) body))
    (ht : p t) (hm : (m, u) ∈ t.moves key) : p u := by
  induction t generalizing m u with
  | skip =>
      simp only [moves, List.mem_singleton, Prod.mk.injEq] at hm
      exact hm.2 ▸ hp.stop
  | event =>
      simp only [moves, List.mem_singleton, Prod.mk.injEq] at hm
      exact hm.2 ▸ hp.skip
  | comp op ts ih =>
      have hts := hp.comp.1 ht
      by_cases hne : ts = []
      · subst hne
        simp only [moves_comp_nil, List.mem_singleton, Prod.mk.injEq] at hm
        exact hm.2 ▸ hp.unit op
      cases op with
      | seq =>
          obtain ⟨c, cs, rfl⟩ := List.exists_cons_of_ne_nil hne
          obtain ⟨hc, hcs⟩ := List.forall_mem_cons.1 hts
          obtain ⟨m', t', hm', ⟨-, -, rfl⟩ | ⟨-, -, rfl⟩⟩ := mem_moves_seq_cons.1 hm
          · exact hp.collapse hcs
          · exact hp.comp.2 (List.forall_mem_cons.2 ⟨ih c List.mem_cons_self hc hm', hcs⟩)
      | par =>
          obtain ⟨as, c, bs, m', t', rfl, hm', ⟨-, -, rfl⟩ | ⟨-, -, rfl⟩⟩ :=
            (mem_moves_par hne).1 hm
          · refine hp.collapse fun t ht => hts t ?_
            rcases List.mem_append.1 ht with ht | ht <;> simp [ht]
          · exact hp.replace hts (ih c (by simp) (hts c (by simp)) hm')
      | det =>
          obtain ⟨as, c, bs, m', t', rfl, hm', ⟨-, -, rfl⟩ | ⟨-, -, rfl⟩⟩ :=
            (mem_moves_det hne).1 hm
          · exact hp.replace hts (ih c (by simp) (hts c (by simp)) hm')
          · exact ih c (by simp) (hts c (by simp)) hm'
      | ndet =>
          simp only [moves_ndet hne, List.mem_map, Prod.mk.injEq] at hm
          obtain ⟨t, ht, -, rfl⟩ := hm
          exact hts t ht
  | fix binder body =>
      simp only [moves, List.mem_singleton, Prod.mk.injEq] at hm
      exact hm.2 ▸ hfix binder body ht
  | _ => simp [moves] at hm

end Componentwise

/-- A communication of a composition is one of a child. -/
theorem exists_child_of_visible {l : Label} (hm : (.visible l, u) ∈ (comp op ts).moves key) :
    ∃ t ∈ ts, ∃ u', (.visible l, u') ∈ t.moves key := by
  by_cases hne : ts = []
  · subst hne
    simp [moves_comp_nil] at hm
  cases op with
  | seq =>
      obtain ⟨c, cs, rfl⟩ := List.exists_cons_of_ne_nil hne
      obtain ⟨m', t', hm', ⟨-, h, -⟩ | ⟨-, rfl, -⟩⟩ := mem_moves_seq_cons.1 hm
      · cases h
      · exact ⟨c, List.mem_cons_self, t', hm'⟩
  | par =>
      obtain ⟨as, c, bs, m', t', rfl, hm', ⟨-, h, -⟩ | ⟨-, rfl, -⟩⟩ := (mem_moves_par hne).1 hm
      · cases h
      · exact ⟨c, by simp, t', hm'⟩
  | det =>
      obtain ⟨as, c, bs, m', t', rfl, hm', ⟨-, h, -⟩ | ⟨-, rfl, -⟩⟩ := (mem_moves_det hne).1 hm
      · cases h
      · exact ⟨c, by simp, t', hm'⟩
  | ndet => simp [moves_ndet hne] at hm

end ProcessContracts.Trace
