import ProcessContracts.Proofs.Comparison
import ProcessContracts.Proofs.Instantiation

/-!
# Comparison under binders

What a `fix` shows after some steps is what its body shows after fewer, with the `fix` in place of
the references to it. So two of them are compared by induction on the steps. Traces with free
references are compared under all valuations that compare.
-/

namespace ProcessContracts

/-- The mark does not stand on a `fix`. -/
def Mark.IsFlat (mark : Mark) : Prop := ∀ binder body, ¬ mark.holds (.fix binder body)

/-- The mark stands neither on a `fix` nor on an atom. -/
structure Mark.IsBasic (mark : Mark) : Prop where
  flat : mark.IsFlat
  atom : ∀ a, ¬ mark.holds (.atom a)

theorem Mark.isBasic_never : Mark.never.IsBasic := ⟨fun _ _ h => h, fun _ h => h⟩

theorem View.sees_fix_instantiate {v : View} {k : Sight} {n : Nat} {s : List Label} {σ : Valuation}
    (hσ : σ.IsClosed) (binder : Atom) (body : Trace) :
    v.Sees k ((Trace.fix binder body).instantiate σ) n s ↔ (n = 0 ∧ s = [] ∧ (k = .going ∨
        ∃ mark, k = .active mark ∧ mark.holds ((Trace.fix binder body).instantiate σ))) ∨
      ∃ n', n = n' + 1 ∧ v.Sees k
        (body.instantiate (σ.set binder.id ((Trace.fix binder body).instantiate σ))) n' s := by
  rw [← Trace.unfold_instantiate hσ binder body]
  exact sees_fix

namespace Trace

mutual

/-- The nodes without children. -/
def leaves : Trace → List Trace
  | .comp _ children => leavesAll children
  | .fix _ body => leaves body
  | leaf => [leaf]

def leavesAll : List Trace → List Trace
  | [] => []
  | t :: ts => leaves t ++ leavesAll ts

end

@[simp] theorem leavesAll_eq_flatMap (ts : List Trace) : leavesAll ts = ts.flatMap leaves := by
  induction ts <;> simp_all [leavesAll]

end Trace

namespace Gauge

open Trace View

variable {g : Gauge} {n : Nat} {t u : Trace} {σ τ : Valuation} {binder binder' : Atom}
  {body body' : Trace}

/-- The traces compare wherever their free references stand for traces that do. The valuations may
have to satisfy a further condition. -/
def Under (g : Gauge) (side : Valuation → Valuation → Prop) (t u : Trace) : Prop :=
  ∀ ⦃n : Nat⦄ ⦃σ τ : Valuation⦄, σ.IsClosed → τ.IsClosed → side σ τ →
    (∀ id, g.Below n (σ id) (τ id)) → g.Below n (t.instantiate σ) (u.instantiate τ)

variable {side : Valuation → Valuation → Prop}

theorem below_set {r r' : Trace} (id : AtomId) (hr : g.Below n r r')
    (h : ∀ other, g.Below n (σ other) (τ other)) (other : AtomId) :
    g.Below n (σ.set id r other) (τ.set id r' other) := by
  by_cases hid : other = id
  · subst hid
    simpa using hr
  · simpa [hid] using h other

theorem below_fix (hσ : σ.IsClosed) (hτ : τ.IsClosed)
    (hmark : ∀ p q, g.marks p q → p.holds ((Trace.fix binder body).instantiate σ) →
      q.holds ((Trace.fix binder' body').instantiate τ) ∨
        g.Excuses ((Trace.fix binder' body').instantiate τ) [])
    (hbody : ∀ m < n,
      g.Below m ((Trace.fix binder body).instantiate σ) ((Trace.fix binder' body').instantiate τ) →
      g.Below m (body.instantiate (σ.set binder.id ((Trace.fix binder body).instantiate σ)))
        (body'.instantiate (τ.set binder'.id ((Trace.fix binder' body').instantiate τ)))) :
    g.Below n ((Trace.fix binder body).instantiate σ)
      ((Trace.fix binder' body').instantiate τ) := by
  induction n with
  | zero =>
      intro k k' i s hk hi hsees
      rcases (sees_fix_instantiate hσ binder body).1 hsees with ⟨rfl, rfl, h⟩ | ⟨i', rfl, -⟩
      · rcases h with rfl | ⟨p, rfl, hp⟩
        · exact .inl (below_going _ hk)
        · cases hk with
          | active hpq =>
              rcases hmark _ _ hpq hp with hq | h
              · exact .inl ⟨0, g.pace_refl 0, .active (by simp [instantiate, active]) hq⟩
              · exact .inr h
      · omega
  | succ n ih =>
      have hfix := ih fun m hm => hbody m (by omega)
      intro k k' i s hk hi hsees
      rcases (sees_fix_instantiate hσ binder body).1 hsees with ⟨rfl, rfl, -⟩ | ⟨i', rfl, h⟩
      · exact hfix hk (Nat.zero_le n) hsees
      · have lift : ∀ {k j s}, g.right.Sees k (body'.instantiate (τ.set binder'.id
            ((Trace.fix binder' body').instantiate τ))) j s →
            g.right.Sees k ((Trace.fix binder' body').instantiate τ) (j + 1) s :=
          fun h => (sees_fix_instantiate hτ binder' body').2 (.inr ⟨_, rfl, h⟩)
        rcases hbody n (Nat.lt_succ_self n) hfix hk (by omega) h with ⟨j, hj, h⟩ | h
        · exact .inl ⟨j + 1, g.pace_add hj (g.pace_refl 1), lift h⟩
        · exact .inr (h.map fun j p h => ⟨j + 1, lift h⟩)

theorem under_ref (id : AtomId) : g.Under side (.ref id) (.ref id) :=
  fun _ _ _ _ _ _ h => h id

theorem under_comp {op : Operator} {ts us : List Trace}
    (h : List.Forall₂ (g.Under side) ts us) : g.Under side (.comp op ts) (.comp op us) := by
  intro n σ τ hσ hτ hside hbelow
  simp only [instantiate, instantiateAll_eq_map]
  refine below_comp (List.forall₂_map_left_iff.2 (List.forall₂_map_right_iff.2 (h.imp ?_)))
  intro t u h
  exact h hσ hτ hside hbelow

theorem under_fix
    (hside : ∀ {σ τ}, σ.IsClosed → τ.IsClosed → side σ τ → side
      (σ.set binder.id ((Trace.fix binder body).instantiate σ))
      (τ.set binder.id ((Trace.fix binder body').instantiate τ)))
    (hmark : ∀ {σ τ}, σ.IsClosed → τ.IsClosed → side σ τ → ∀ p q, g.marks p q →
      p.holds ((Trace.fix binder body).instantiate σ) →
        q.holds ((Trace.fix binder body').instantiate τ) ∨
          g.Excuses ((Trace.fix binder body').instantiate τ) [])
    (hbody : g.Under side body body') :
    g.Under side (.fix binder body) (.fix binder body') := by
  intro n σ τ hσ hτ hst hbelow
  refine below_fix hσ hτ (hmark hσ hτ hst) fun m hm hfix => ?_
  exact hbody (hσ.set _ (freeRefs_instantiate hσ _)) (hτ.set _ (freeRefs_instantiate hτ _))
    (hside hσ hτ hst) (below_set binder.id hfix fun id => (hbelow id).mono (Nat.le_of_lt hm))

/-! ## A trace under two valuations -/

theorem below_of_moves_nil (ht : t.moves g.left.key = [])
    (h : ∀ p q, g.marks p q → ∀ l ∈ t.active, p.holds l → ∃ l' ∈ u.active, q.holds l') :
    g.Below n t u := by
  intro k k' i s hk _ hsees
  obtain ⟨rfl, rfl, rfl | ⟨p, l, rfl, hl, hp⟩⟩ := (sees_of_moves_nil ht).1 hsees
  · exact .inl (below_going u hk)
  · cases hk with
    | active hpq =>
        obtain ⟨l', hl', hq⟩ := h _ _ hpq l hl hp
        exact .inl ⟨0, g.pace_refl 0, .active hl' hq⟩

theorem below_event {direction : Direction} {chan : ChanRef}
    (h : g.left.noted (.visible (.event direction (g.left.key chan))) =
      g.right.noted (.visible (.event direction (g.right.key chan)))) :
    g.Below n (.event direction chan) (.event direction chan) := by
  intro k k' i s hk hi hsees
  rcases sees_event.1 hsees with ⟨rfl, rfl, rfl⟩ | ⟨i', rfl, hskip, rfl⟩
  · exact .inl (below_going _ hk)
  · rcases below_skip hk (by omega : i' ≤ n) hskip with ⟨j, hj, hskip⟩ | ⟨p, hp, j, hskip⟩
    · exact .inl ⟨j + 1, g.pace_add hj (g.pace_refl 1),
        sees_event.2 (.inr ⟨j, rfl, hskip, by rw [h]⟩)⟩
    · obtain ⟨⟨h, -⟩ | ⟨h, -⟩, -⟩ := sees_skip.1 hskip <;> cases h

theorem below_refl (hview : g.left = g.right)
    (h : ∀ p q, g.marks p q → ∀ l, p.holds l → q.holds l) : g.Below n t t := by
  intro k k' i s hk _ hsees
  rw [hview] at hsees
  cases hk with
  | active hpq => exact .inl ⟨i, g.pace_refl i, hsees.of_mark (h _ _ hpq)⟩
  | _ => exact .inl ⟨i, g.pace_refl i, hsees⟩

/-- A leaf is compared with itself. -/
theorem below_leaf (hview : g.left = g.right) (hleaf : t.isLeaf = true)
    (h : ∀ p q, g.marks p q → p.holds t → q.holds t) : g.Below n t t := by
  cases t with
  | skip => exact below_skip
  | stop => exact below_stop
  | event direction chan => exact below_event (by rw [hview])
  | comp op ts => cases hleaf
  | fix binder body => cases hleaf
  | _ =>
      refine below_of_moves_nil rfl fun p q hpq l hl hp => ?_
      rw [List.mem_singleton.1 hl] at hp
      exact ⟨_, List.mem_singleton_self _, h p q hpq hp⟩

theorem under_self (hview : g.left = g.right) (hflat : ∀ p q, g.marks p q → p.IsFlat)
    (hleaves : ∀ l ∈ t.leaves, ∀ p q, g.marks p q → p.holds l → q.holds l) :
    g.Under (fun _ _ => True) t t := by
  induction t with
  | ref id => exact under_ref id
  | comp op ts ih =>
      refine under_comp (List.forall₂_same.2 fun c hc => ih c hc fun l hl => hleaves l ?_)
      simp only [leaves, leavesAll_eq_flatMap, List.mem_flatMap]
      exact ⟨c, hc, hl⟩
  | fix binder body ih =>
      exact under_fix (fun _ _ _ => trivial)
        (fun _ _ _ p q hpq hp => absurd hp (hflat p q hpq _ _)) (ih hleaves)
  | _ =>
      intro n σ τ _ _ _ _
      exact below_leaf hview rfl (hleaves _ (List.mem_singleton_self _))

end Gauge

end ProcessContracts
