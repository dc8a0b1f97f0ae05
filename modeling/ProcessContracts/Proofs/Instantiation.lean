import ProcessContracts.Proofs.Componentwise

/-!
# Instantiating free references

A valuation gives every atom a trace. Instantiation puts them in for all free references at once;
unfolding a `fix` is instantiation by a valuation that knows the `fix` itself. Valuations of closed
traces suffice, so nothing is ever captured.
-/

namespace ProcessContracts

abbrev Valuation := AtomId → Trace

namespace Valuation

def set (σ : Valuation) (id : AtomId) (t : Trace) : Valuation :=
  fun other => if other = id then t else σ other

@[simp] theorem set_self (σ : Valuation) (id : AtomId) (t : Trace) : σ.set id t id = t := by
  simp [set]

@[simp] theorem set_of_ne (σ : Valuation) {id other : AtomId} (t : Trace) (h : other ≠ id) :
    σ.set id t other = σ other := by simp [set, h]

@[simp] theorem set_set (σ : Valuation) (id : AtomId) (t u : Trace) :
    (σ.set id t).set id u = σ.set id u := by
  funext other
  by_cases h : other = id <;> simp [set, h]

theorem set_comm (σ : Valuation) {id id' : AtomId} (h : id ≠ id') (t u : Trace) :
    (σ.set id t).set id' u = (σ.set id' u).set id t := by
  funext other
  by_cases h' : other = id
  · simp [set, h', h]
  · simp [set, h']

/-- Every atom stands for a closed trace. -/
def IsClosed (σ : Valuation) : Prop := ∀ id, (σ id).freeRefs = []

theorem IsClosed.set {σ : Valuation} (h : σ.IsClosed) (id : AtomId) {t : Trace}
    (ht : t.freeRefs = []) : (σ.set id t).IsClosed := by
  intro other
  by_cases h' : other = id
  · simp [Valuation.set, h', ht]
  · simp [h', h other]

/-- The valuation under a binder, which leaves the bound references alone. -/
def under (σ : Valuation) (binder : Atom) : Valuation := σ.set binder.id (.ref binder.id)

/-- No atom stands for a trace that refers to another one. -/
def IsLocal (σ : Valuation) : Prop := ∀ id, ∀ other ∈ (σ id).freeRefs, other = id

theorem IsClosed.isLocal {σ : Valuation} (h : σ.IsClosed) : σ.IsLocal := fun id other hother => by
  rw [h id] at hother
  cases hother

theorem IsLocal.under {σ : Valuation} (h : σ.IsLocal) (binder : Atom) :
    (σ.under binder).IsLocal := by
  intro id other hother
  by_cases hid : id = binder.id
  · subst hid
    rw [Valuation.under, set_self] at hother
    exact List.mem_singleton.1 hother
  · rw [Valuation.under, set_of_ne _ _ hid] at hother
    exact h id other hother

end Valuation

namespace Trace

theorem isClosed_iff {t : Trace} : t.isClosed = true ↔ t.freeRefs = [] := by simp [isClosed]

mutual

/-- Puts the valuation in for the free references. -/
def instantiate (σ : Valuation) : Trace → Trace
  | .ref id => σ id
  | .comp op children => .comp op (instantiateAll σ children)
  | .fix binder body => .fix binder (instantiate (σ.under binder) body)
  | leaf => leaf

def instantiateAll (σ : Valuation) : List Trace → List Trace
  | [] => []
  | t :: ts => instantiate σ t :: instantiateAll σ ts

end

@[simp] theorem instantiateAll_eq_map (σ : Valuation) (ts : List Trace) :
    instantiateAll σ ts = ts.map (instantiate σ) := by
  induction ts <;> simp_all [instantiateAll]

theorem mem_freeRefs_fix {binder : Atom} {body : Trace} {id : AtomId} :
    id ∈ (Trace.fix binder body).freeRefs ↔ id ∈ body.freeRefs ∧ id ≠ binder.id := by
  simp [freeRefs]

theorem mem_freeRefs_comp {op : Operator} {ts : List Trace} {id : AtomId} :
    id ∈ (Trace.comp op ts).freeRefs ↔ ∃ t ∈ ts, id ∈ t.freeRefs := by
  simp [freeRefs]

theorem instantiate_congr {σ τ : Valuation} {t : Trace} (h : ∀ id ∈ t.freeRefs, σ id = τ id) :
    t.instantiate σ = t.instantiate τ := by
  induction t generalizing σ τ with
  | ref id => exact h id (by simp [freeRefs])
  | comp op ts ih =>
      simp only [instantiate, instantiateAll_eq_map, Trace.comp.injEq, true_and]
      exact List.map_congr_left fun t ht => ih t ht fun id hid =>
        h id (mem_freeRefs_comp.2 ⟨t, ht, hid⟩)
  | fix binder body ih =>
      simp only [instantiate, Trace.fix.injEq, true_and]
      refine ih fun id hid => ?_
      by_cases hb : id = binder.id
      · simp [Valuation.under, Valuation.set, hb]
      · simp [Valuation.under, hb, h id (mem_freeRefs_fix.2 ⟨hid, hb⟩)]
  | _ => rfl

theorem instantiate_ref (t : Trace) : t.instantiate .ref = t := by
  induction t with
  | comp op ts ih =>
      simp only [instantiate, instantiateAll_eq_map, Trace.comp.injEq, true_and]
      exact (List.map_congr_left ih).trans (List.map_id ts)
  | fix binder body ih =>
      have hid : Valuation.under .ref binder = .ref := by
        funext id
        by_cases h : id = binder.id
        · simp [Valuation.under, Valuation.set, h]
        · simp [Valuation.under, h]
      rw [instantiate, hid, ih]
  | _ => rfl

theorem instantiate_of_closed (σ : Valuation) {t : Trace} (h : t.freeRefs = []) :
    t.instantiate σ = t :=
  (instantiate_congr (by simp [h])).trans (instantiate_ref t)

theorem mem_freeRefs_instantiate {σ : Valuation} {t : Trace} {id : AtomId}
    (h : id ∈ (t.instantiate σ).freeRefs) : ∃ other ∈ t.freeRefs, id ∈ (σ other).freeRefs := by
  induction t generalizing σ with
  | ref other => exact ⟨other, by simp [freeRefs], h⟩
  | comp op ts ih =>
      simp only [instantiate, instantiateAll_eq_map, mem_freeRefs_comp, List.mem_map] at h
      obtain ⟨_, ⟨t, ht, rfl⟩, hid⟩ := h
      obtain ⟨other, hother, hid⟩ := ih t ht hid
      exact ⟨other, mem_freeRefs_comp.2 ⟨t, ht, hother⟩, hid⟩
  | fix binder body ih =>
      rw [instantiate, mem_freeRefs_fix] at h
      obtain ⟨other, hother, hid⟩ := ih h.1
      by_cases hb : other = binder.id
      · simp only [Valuation.under, hb, Valuation.set_self, freeRefs, List.mem_singleton] at hid
        exact absurd hid h.2
      · rw [Valuation.under, Valuation.set_of_ne _ _ hb] at hid
        exact ⟨other, mem_freeRefs_fix.2 ⟨hother, hb⟩, hid⟩
  | _ => simp [instantiate, freeRefs] at h

theorem freeRefs_instantiate {σ : Valuation} (hσ : σ.IsClosed) (t : Trace) :
    (t.instantiate σ).freeRefs = [] := by
  refine List.eq_nil_iff_forall_not_mem.2 fun id hid => ?_
  obtain ⟨other, -, h⟩ := mem_freeRefs_instantiate hid
  rw [hσ other] at h
  cases h

theorem substitute_of_not_mem {id : AtomId} {r t : Trace} (h : id ∉ t.freeRefs) :
    substitute id r t = t := by
  induction t with
  | ref other =>
      have hne : other ≠ id := fun e => h (by simp [freeRefs, e])
      simp [substitute, hne]
  | comp op ts ih =>
      simp only [substitute, substituteAll_eq_map, Trace.comp.injEq, true_and]
      refine (List.map_congr_left fun t ht => ih t ht fun hid => h ?_).trans (List.map_id ts)
      exact mem_freeRefs_comp.2 ⟨t, ht, hid⟩
  | fix binder body ih =>
      by_cases hb : binder.id = id
      · simp [substitute, hb]
      · simp only [substitute, hb, if_false, Trace.fix.injEq, true_and]
        exact ih fun hid => h (mem_freeRefs_fix.2 ⟨hid, fun e => hb e.symm⟩)
  | _ => rfl

/-- Substituting for a reference that a valuation keeps is instantiating it too. -/
theorem substitute_instantiate {id : AtomId} {r : Trace} {σ : Valuation} (t : Trace)
    (hσ : ∀ other, other ≠ id → id ∉ (σ other).freeRefs) :
    substitute id r (t.instantiate (σ.set id (.ref id))) = t.instantiate (σ.set id r) := by
  induction t generalizing σ with
  | ref other =>
      by_cases h : other = id
      · simp [instantiate, h, substitute]
      · simp only [instantiate, Valuation.set_of_ne _ _ h]
        exact substitute_of_not_mem (hσ other h)
  | comp op ts ih =>
      simp only [instantiate, instantiateAll_eq_map, substitute, substituteAll_eq_map, List.map_map,
        Trace.comp.injEq, true_and]
      exact List.map_congr_left fun t ht => ih t ht hσ
  | fix binder body ih =>
      by_cases hb : binder.id = id
      · subst hb
        simp [instantiate, substitute, Valuation.under]
      · have hb' : id ≠ binder.id := fun e => hb e.symm
        simp only [instantiate, substitute, hb, if_false, Valuation.under,
          Valuation.set_comm σ hb', Trace.fix.injEq, true_and]
        refine ih fun other hother => ?_
        by_cases h : other = binder.id
        · simp [h, freeRefs, hb']
        · simpa [h] using hσ other hother
  | _ => rfl

/-- The body of an instantiated `fix` unfolds to its instance by the `fix`. -/
theorem unfold_instantiate {σ : Valuation} (hσ : σ.IsClosed) (binder : Atom) (body : Trace) :
    substitute binder.id ((Trace.fix binder body).instantiate σ) (body.instantiate (σ.under binder))
      = body.instantiate (σ.set binder.id ((Trace.fix binder body).instantiate σ)) :=
  substitute_instantiate body fun other _ => by simp [hσ other]

/-- Substitution is instantiation by a valuation that keeps every other reference. -/
theorem substitute_eq_instantiate_ref (id : AtomId) (r t : Trace) :
    substitute id r t = t.instantiate (Valuation.set .ref id r) := by
  have hsubst := @substitute_instantiate id r .ref t
    fun other hne => by simpa [freeRefs] using hne.symm
  have hself : Valuation.set .ref id (.ref id) = .ref := by
    funext other
    by_cases hother : other = id <;> simp [Valuation.set, hother]
  rwa [hself, instantiate_ref] at hsubst

/-- Where nothing else is free, substitution leaves a closed instance. -/
theorem substitute_eq_instantiate_of_only {id : AtomId} {t : Trace}
    (h : ∀ other ∈ t.freeRefs, other = id) (r : Trace) :
    substitute id r t = t.instantiate (Valuation.set (fun _ => .stop) id r) := by
  rw [substitute_eq_instantiate_ref]
  refine instantiate_congr fun other hother => ?_
  rw [h other hother, Valuation.set_self, Valuation.set_self]

/-- What is put in may bring in references of its own. -/
theorem mem_freeRefs_substitute {id other : AtomId} {r t : Trace}
    (h : other ∈ (substitute id r t).freeRefs) :
    other ∈ t.freeRefs ∧ other ≠ id ∨ other ∈ r.freeRefs := by
  rw [substitute_eq_instantiate_ref] at h
  obtain ⟨source, hsource, hother⟩ := mem_freeRefs_instantiate h
  by_cases heq : source = id
  · rw [heq, Valuation.set_self] at hother
    exact .inr hother
  · rw [Valuation.set_of_ne _ _ heq] at hother
    rw [List.mem_singleton.1 hother]
    exact .inl ⟨hsource, heq⟩

theorem freeRefs_substitute {id : AtomId} {r t : Trace} (h : ∀ other ∈ t.freeRefs, other = id)
    (hr : r.freeRefs = []) : (substitute id r t).freeRefs = [] := by
  refine List.eq_nil_iff_forall_not_mem.2 fun other hother => ?_
  rcases mem_freeRefs_substitute hother with ⟨hfree, hne⟩ | hfree
  · exact hne (h other hfree)
  · rw [hr] at hfree
    cases hfree

/-- The body of a closed `fix` has no free references but the bound ones. -/
theorem substitute_eq_instantiate {binder : Atom} {body : Trace}
    (h : (Trace.fix binder body).freeRefs = []) (r : Trace) :
    substitute binder.id r body =
      body.instantiate (Valuation.set (fun _ => .stop) binder.id r) := by
  refine substitute_eq_instantiate_of_only (fun id hid => Decidable.byContradiction fun hne => ?_) r
  have := mem_freeRefs_fix.2 ⟨hid, hne⟩
  rw [h] at this
  cases this

/-! ## Steps of closed traces -/

theorem componentwise_freeRefs (ids : List AtomId) :
    Componentwise fun t => t.freeRefs ⊆ ids where
  skip := List.nil_subset ids
  stop := List.nil_subset ids
  comp := by
    intro op ts
    rw [freeRefs, freeRefsAll_eq_flatMap, flatMap_subset_iff]

theorem componentwise_closed : Componentwise fun t => t.freeRefs = [] where
  skip := rfl
  stop := rfl
  comp := by simp [freeRefs]

theorem freeRefs_of_mem_active {t l : Trace} (ht : t.freeRefs = []) (hl : l ∈ t.active) :
    l.freeRefs = [] := componentwise_closed.active ht hl

/-- A `fix` refers to nothing more when it is unfolded. -/
theorem freeRefs_unfold_subset (binder : Atom) (body : Trace) :
    (substitute binder.id (.fix binder body) body).freeRefs ⊆ (Trace.fix binder body).freeRefs :=
  fun _ hid => (mem_freeRefs_substitute hid).elim mem_freeRefs_fix.2 id

theorem freeRefs_moves_subset {key : ChanRef → ChannelKey} {m : Move} {t u : Trace}
    (h : (m, u) ∈ t.moves key) : u.freeRefs ⊆ t.freeRefs :=
  (componentwise_freeRefs t.freeRefs).step
    (fun binder body hfix => List.Subset.trans (freeRefs_unfold_subset binder body) hfix)
    (List.Subset.refl _) h

theorem freeRefs_of_mem_moves {key : ChanRef → ChannelKey} {m : Move} {t u : Trace}
    (ht : t.freeRefs = []) (hm : (m, u) ∈ t.moves key) : u.freeRefs = [] :=
  List.subset_nil.1 (ht ▸ freeRefs_moves_subset hm)

end Trace

end ProcessContracts
