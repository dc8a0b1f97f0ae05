import ProcessContracts.Proofs.OpenScopes

/-!
# Well-scoped traces

A binder has a number of its own on every path into a trace, and a reference names a binder around
it. The atom of a procedure in progress is bound only when its scope is closed; until then the
fragments refer to it, and none of them binds it.
-/

namespace ProcessContracts

variable {n n' : Nat} {bound bound' : List AtomId} {t u : Trace} {ts : List Trace}

namespace Trace

mutual

/-- The trace and everything it is made of. -/
def parts : Trace → List Trace
  | .comp op children => .comp op children :: partsAll children
  | .fix binder body => .fix binder body :: parts body
  | leaf => [leaf]

def partsAll : List Trace → List Trace
  | [] => []
  | t :: ts => parts t ++ partsAll ts

end

@[simp] theorem partsAll_eq_flatMap (ts : List Trace) : partsAll ts = ts.flatMap parts := by
  induction ts <;> simp_all [partsAll]

theorem mem_parts_self (t : Trace) : t ∈ t.parts := by
  cases t <;> simp [parts]

/-- Closed and without an undefined atom. Every binder is one of the atoms minted, and none is bound
again inside. -/
structure WellScoped (minted : Nat) (t : Trace) : Prop where
  closed : t.freeAtoms = []
  defined : ∀ atom, .atom atom ∉ t.parts
  binders : ∀ binder body, .fix binder body ∈ t.parts → binder.id.index < minted
  apart : ∀ binder body, .fix binder body ∈ t.parts →
    ∀ inner rest, .fix inner rest ∈ body.parts → inner.id ≠ binder.id

mutual

/-- What stands below the `bound` binders may refer to them and may not bind them again. -/
def Scoped (n : Nat) (bound : List AtomId) : Trace → Prop
  | .atom _ => False
  | .ref id => id ∈ bound
  | .comp _ children => ScopedAll n bound children
  | .fix binder body => binder.id.index < n ∧ binder.id ∉ bound ∧ Scoped n (binder.id :: bound) body
  | _ => True

def ScopedAll (n : Nat) (bound : List AtomId) : List Trace → Prop
  | [] => True
  | t :: ts => Scoped n bound t ∧ ScopedAll n bound ts

end

@[simp] theorem scopedAll_iff (ts : List Trace) :
    ScopedAll n bound ts ↔ ∀ t ∈ ts, t.Scoped n bound := by
  induction ts <;> simp_all [ScopedAll]

theorem scoped_comp {op : Operator} :
    (Trace.comp op ts).Scoped n bound ↔ ∀ t ∈ ts, t.Scoped n bound := by
  rw [Scoped, scopedAll_iff]

theorem Scoped.mem_bound (h : t.Scoped n bound) {id : AtomId} (hid : id ∈ t.freeRefs) :
    id ∈ bound := by
  induction t generalizing bound with
  | atom => exact h.elim
  | ref other => exact List.mem_singleton.1 hid ▸ h
  | comp op ts ih =>
      obtain ⟨t, ht, hid⟩ := mem_freeRefs_comp.1 hid
      exact ih t ht (scoped_comp.1 h t ht) hid
  | fix binder body ih =>
      obtain ⟨hid, hne⟩ := mem_freeRefs_fix.1 hid
      exact (List.mem_cons.1 (ih h.2.2 hid)).resolve_left hne
  | _ => cases hid

/-- Every part stands below more binders, all of which are minted. -/
theorem Scoped.part (h : t.Scoped n bound) (hu : u ∈ t.parts) :
    ∃ inner, bound ⊆ inner ∧ (∀ id ∈ inner, id ∈ bound ∨ id.index < n) ∧ u.Scoped n inner := by
  have hself : ∃ inner, bound ⊆ inner ∧ (∀ id ∈ inner, id ∈ bound ∨ id.index < n) ∧
      t.Scoped n inner := ⟨bound, List.Subset.refl _, fun _ => .inl, h⟩
  induction t generalizing bound with
  | comp op ts ih =>
      rw [parts, partsAll_eq_flatMap, List.mem_cons, List.mem_flatMap] at hu
      rcases hu with rfl | ⟨t, ht, hu⟩
      · exact hself
      · have hchild := scoped_comp.1 h t ht
        exact ih t ht hchild hu ⟨bound, List.Subset.refl _, fun _ => .inl, hchild⟩
  | fix binder body ih =>
      rcases List.mem_cons.1 hu with rfl | hu
      · exact hself
      · obtain ⟨inner, hsub, hinner, hscoped⟩ := ih h.2.2 hu
          ⟨_, List.Subset.refl _, fun _ => .inl, h.2.2⟩
        refine ⟨inner, fun id hid => hsub (List.mem_cons_of_mem _ hid), fun id hid => ?_, hscoped⟩
        rcases hinner id hid with hid | hlt
        · rcases List.mem_cons.1 hid with rfl | hid
          · exact .inr h.1
          · exact .inl hid
        · exact .inr hlt
  | _ => exact List.mem_singleton.1 hu ▸ hself

theorem Scoped.wellScoped (h : t.Scoped n []) : t.WellScoped n where
  closed := List.eq_nil_iff_forall_not_mem.2 fun id hid => by
    cases h.mem_bound (mem_freeAtoms.1 hid)
  defined atom hatom := by
    obtain ⟨_, -, -, h⟩ := h.part hatom
    exact h
  binders binder body hfix := by
    obtain ⟨_, -, -, h⟩ := h.part hfix
    exact h.1
  apart binder body hfix inner rest hinner := by
    obtain ⟨_, -, -, hscoped⟩ := h.part hfix
    obtain ⟨_, hsub, -, hnested⟩ := hscoped.2.2.part hinner
    exact fun heq => hnested.2.1 (hsub (heq ▸ List.mem_cons_self))

/-- References name atoms that were minted. -/
theorem Scoped.references (h : t.Scoped n []) {id : AtomId} (hid : .ref id ∈ t.parts) :
    id.index < n := by
  obtain ⟨inner, -, hinner, hscoped⟩ := h.part hid
  exact (hinner id hscoped).resolve_left (by simp)

theorem scoped_of_parts (hfree : ∀ id ∈ t.freeRefs, id ∈ bound)
    (hdefined : ∀ atom, .atom atom ∉ t.parts)
    (hbinders : ∀ binder body, .fix binder body ∈ t.parts →
      binder.id.index < n ∧ binder.id ∉ bound)
    (hapart : ∀ binder body, .fix binder body ∈ t.parts →
      ∀ inner rest, .fix inner rest ∈ body.parts → inner.id ≠ binder.id) : t.Scoped n bound := by
  induction t generalizing bound with
  | atom a => exact hdefined a (List.mem_singleton_self _)
  | ref id => exact hfree id (List.mem_singleton_self _)
  | comp op ts ih =>
      refine scoped_comp.2 fun t ht => ?_
      have hparts : ∀ u ∈ t.parts, u ∈ (Trace.comp op ts).parts := fun u hu => by
        rw [parts, partsAll_eq_flatMap]
        exact List.mem_cons_of_mem _ (List.mem_flatMap.2 ⟨t, ht, hu⟩)
      exact ih t ht (fun id hid => hfree id (mem_freeRefs_comp.2 ⟨t, ht, hid⟩))
        (fun a ha => hdefined a (hparts _ ha))
        (fun binder body h => hbinders binder body (hparts _ h))
        (fun binder body h => hapart binder body (hparts _ h))
  | fix binder body ih =>
      obtain ⟨hlt, hnew⟩ := hbinders binder body (mem_parts_self _)
      refine ⟨hlt, hnew, ih (fun id hid => ?_) (fun a ha => hdefined a (List.mem_cons_of_mem _ ha))
        (fun inner rest h => ?_) fun inner rest h => hapart inner rest (List.mem_cons_of_mem _ h)⟩
      · by_cases hid' : id = binder.id
        · exact hid' ▸ List.mem_cons_self
        · exact List.mem_cons_of_mem _ (hfree id (mem_freeRefs_fix.2 ⟨hid, hid'⟩))
      · obtain ⟨hlt, hnew⟩ := hbinders inner rest (List.mem_cons_of_mem _ h)
        refine ⟨hlt, fun hmem => ?_⟩
        rcases List.mem_cons.1 hmem with heq | hmem
        · exact hapart binder body (mem_parts_self _) inner rest h heq
        · exact hnew hmem
  | _ => trivial

theorem WellScoped.scoped (h : t.WellScoped n) : t.Scoped n [] := by
  refine scoped_of_parts (fun id hid => ?_) h.defined
    (fun binder body hfix => ⟨h.binders binder body hfix, List.not_mem_nil⟩) h.apart
  have hmem := mem_freeAtoms.2 hid
  rwa [h.closed] at hmem

/-! ## What keeps traces scoped -/

/-- Binders that come to stand around a trace are newer than its own. -/
theorem Scoped.later (h : t.Scoped n bound) (hle : n ≤ n') (hsub : bound ⊆ bound')
    (hnew : ∀ id ∈ bound', id ∈ bound ∨ n ≤ id.index) : t.Scoped n' bound' := by
  induction t generalizing bound bound' with
  | atom => exact h
  | ref id => exact hsub h
  | comp op ts ih =>
      exact scoped_comp.2 fun t ht => ih t ht (scoped_comp.1 h t ht) hsub hnew
  | fix binder body ih =>
      obtain ⟨hlt, hout, hbody⟩ := h
      refine ⟨Nat.lt_of_lt_of_le hlt hle, fun hmem => ?_,
        ih hbody (List.cons_subset_cons _ hsub) ?_⟩
      · exact (hnew _ hmem).elim hout (Nat.not_le.2 hlt)
      · intro id hid
        rcases List.mem_cons.1 hid with rfl | hid
        · exact .inl List.mem_cons_self
        · exact (hnew id hid).imp_left (List.mem_cons_of_mem _)
  | _ => trivial

/-- Binders a trace does not refer to need not stand around it. -/
theorem Scoped.restrict (h : t.Scoped n bound') (hsub : bound ⊆ bound')
    (hfree : ∀ id ∈ t.freeRefs, id ∈ bound) : t.Scoped n bound := by
  induction t generalizing bound bound' with
  | atom => exact h
  | ref id => exact hfree id (List.mem_singleton_self _)
  | comp op ts ih =>
      exact scoped_comp.2 fun t ht => ih t ht (scoped_comp.1 h t ht) hsub fun id hid =>
        hfree id (mem_freeRefs_comp.2 ⟨t, ht, hid⟩)
  | fix binder body ih =>
      obtain ⟨hlt, hout, hbody⟩ := h
      refine ⟨hlt, fun hmem => hout (hsub hmem), ih hbody (List.cons_subset_cons _ hsub) ?_⟩
      intro id hid
      by_cases hid' : id = binder.id
      · exact hid' ▸ List.mem_cons_self
      · exact List.mem_cons_of_mem _ (hfree id (mem_freeRefs_fix.2 ⟨hid, hid'⟩))
  | _ => trivial

theorem componentwise_scoped (n : Nat) (bound : List AtomId) : Componentwise (Scoped n bound) :=
  ⟨trivial, trivial, scoped_comp⟩

theorem Scoped.simplify (h : t.Scoped n bound) : t.simplify.Scoped n bound := by
  induction t generalizing bound with
  | comp op ts ih =>
      exact (componentwise_scoped n bound).simplify fun t ht => ih t ht (scoped_comp.1 h t ht)
  | fix binder body ih =>
      obtain ⟨hlt, hout, hbody⟩ := h
      rw [Trace.simplify]
      split
      case isTrue => exact ⟨hlt, hout, ih hbody⟩
      case isFalse hrefers =>
        refine (ih hbody).restrict (List.subset_cons_self _ _) fun id hid => ?_
        refine (List.mem_cons.1 ((ih hbody).mem_bound hid)).resolve_left fun heq => hrefers ?_
        exact refersTo_iff.2 (heq ▸ hid)
  | _ => exact h

theorem Scoped.hide (h : t.Scoped n bound) (keep : ChanRef → Bool) :
    (t.hide keep).Scoped n bound := by
  induction t generalizing bound with
  | event direction chan =>
      rw [Trace.hide]
      split <;> trivial
  | comp op ts ih =>
      rw [Trace.hide, hideAll_eq_map]
      refine scoped_comp.2 (List.forall_mem_map.2 fun t ht => ih t ht (scoped_comp.1 h t ht))
  | fix binder body ih => exact ⟨h.1, h.2.1, ih h.2.2⟩
  | _ => exact h

theorem Scoped.mapChannels (h : t.Scoped n bound) (f : ChanRef → ChanRef) :
    (t.mapChannels f).Scoped n bound := by
  induction t generalizing bound with
  | comp op ts ih =>
      rw [Trace.mapChannels, mapChannelsAll_eq_map]
      refine scoped_comp.2 (List.forall_mem_map.2 fun t ht => ih t ht (scoped_comp.1 h t ht))
  | fix binder body ih => exact ⟨h.1, h.2.1, ih h.2.2⟩
  | _ => exact h

end Trace

open Trace

theorem Substitution.scoped_apply {program : Program} {bindings : Substitution}
    (h : bindings.apply program t = .ok u) (ht : t.Scoped n bound) : u.Scoped n bound := by
  obtain rfl | ⟨-, rfl⟩ := cases_of_apply h
  · exact ht
  · exact ht.mapChannels _

namespace Contract

variable {program : Program} {decl : DeclId}

/-- Lowering binds each `rec` to an atom of its own. -/
theorem Lowered.scoped {binders : Binders} {supply last : AtomSupply} {c : Contract}
    (h : Lowered program decl binders supply c t last) {bound : List AtomId}
    (hold : ∀ id ∈ bound, id.index < supply.minted)
    (hbinders : ∀ binder ∈ binders, binder.2.id ∈ bound) : t.Scoped last.minted bound := by
  induction h generalizing bound with
  | cons hhead htail ihhead ihtail =>
      have hfirst := (ihhead hold hbinders).later htail.minted_le (List.Subset.refl _) fun _ => .inl
      have hrest := ihtail (fun id hid => Nat.lt_of_lt_of_le (hold id hid) hhead.minted_le) hbinders
      exact scoped_comp.2 (List.forall_mem_cons.2 ⟨hfirst, scoped_comp.1 hrest⟩)
  | recursion hmint hbody ih =>
      obtain ⟨rfl, rfl⟩ := Prod.ext_iff.1 hmint
      refine ⟨hbody.minted_le, fun hmem => Nat.lt_irrefl _ (hold _ hmem), ih ?_ ?_⟩
      · intro id hid
        rcases List.mem_cons.1 hid with rfl | hid
        · exact Nat.lt_succ_self _
        · exact Nat.lt_succ_of_lt (hold id hid)
      · intro binder hbinder
        rcases List.mem_cons.1 hbinder with rfl | hbinder
        · exact List.mem_cons_self
        · exact List.mem_cons_of_mem _ (hbinders binder hbinder)
  | var hfind =>
      obtain ⟨binder, hbinder, rfl⟩ := mem_of_find? hfind
      exact hbinders binder hbinder
  | _ => trivial

theorem scoped_lower {contract : Contract} {supply last : AtomSupply}
    (h : (contract.lower program decl).run supply = .ok t last) : t.Scoped last.minted [] :=
  (lowered_of_lower h).scoped (List.forall_mem_nil _) (List.forall_mem_nil _)

end Contract

end ProcessContracts
