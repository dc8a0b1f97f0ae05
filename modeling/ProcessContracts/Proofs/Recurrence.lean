import ProcessContracts.Proofs.Spinning

/-!
# Comparing what spins

A `fix` spins because of what its body shows with an atom in place of the references. So a
comparison that holds for the sightings of nearly every atom carries over to the components that
spin, and with them to divergence.
-/

namespace ProcessContracts.Gauge

open Filter Trace View

/-- The same comparison, for the sightings of one atom. -/
def atomic (g : Gauge) (a : Atom) : Gauge :=
  { g with marks := fun p q => p = .atom a ∧ q = .atom a }

/-- The valuations compare in the sightings of nearly every atom. -/
def Abreast (g : Gauge) (σ τ : Valuation) : Prop :=
  ∀ᶠ a in cofinite, ∀ id n, (g.atomic a).Below n (σ id) (τ id)

variable {g : Gauge} {n : Nat} {a : Atom} {t u : Trace} {σ τ : Valuation} {binder : Atom}
  {body body' : Trace}

theorem isFlat_of_atomic {p q : Mark} (h : (g.atomic a).marks p q) : p.IsFlat := by
  obtain ⟨rfl, -⟩ := h
  rintro binder body h
  cases h

theorem below_atom {g' : Gauge} {r : Trace} (h : ∀ p q, g'.marks p q → p.holds (.atom a) →
    ∃ l ∈ r.active, q.holds l) : g'.Below n (.atom a) r :=
  below_of_moves_nil rfl fun p q hpq _ hl hp => h p q hpq (List.mem_singleton.1 hl ▸ hp)

theorem Abreast.set {r r' : Trace} (h : g.Abreast σ τ) (id : AtomId)
    (hr : ∀ᶠ a in cofinite, ∀ n, (g.atomic a).Below n r r') :
    g.Abreast (σ.set id r) (τ.set id r') := by
  filter_upwards [h, hr] with a hside hr other n
  exact below_set id (hr n) (fun other => hside other n) other

/-- What is excused with an atom in place of the references is excused by the `fix` itself. -/
theorem excuses_fix_of_atom (hescape : g.escape.IsBasic) (hτ : τ.IsClosed)
    (h : g.Excuses (body.instantiate (τ.set binder.id (.atom a))) []) :
    g.Excuses ((Trace.fix binder body).instantiate τ) [] := by
  obtain ⟨p, hp, n, h⟩ := h
  rw [List.prefix_nil.1 hp] at h
  have hself := under_self (g := .loose g.right g.escape g.escape .never) (t := body) rfl
    (by rintro p q ⟨rfl, -⟩; exact hescape.flat)
    (by rintro l - p q ⟨rfl, rfl⟩ hl; exact hl)
    (n := n) (hτ.set binder.id (t := .atom a) rfl)
    (hτ.set binder.id (freeRefs_instantiate hτ (.fix binder body))) trivial
    (below_set binder.id
      (below_atom fun p q hpq hp => by
        obtain ⟨rfl, -⟩ := hpq
        exact absurd hp (hescape.atom a))
      fun id => below_refl rfl (by rintro p q ⟨rfl, rfl⟩ l hl; exact hl))
  obtain ⟨m, -, h⟩ := hself.answer rfl (.active ⟨rfl, rfl⟩) (Nat.le_refl n) h
  exact ⟨[], List.nil_prefix, m + 1, (sees_fix_instantiate hτ binder body).2 (.inr ⟨m, rfl, h⟩)⟩

theorem spins_of_abreast (hescape : g.escape.IsBasic) (hσ : σ.IsClosed) (hτ : τ.IsClosed)
    (hside : g.Abreast σ τ)
    (hatomic : ∀ᶠ a in cofinite, (g.atomic a).Under (fun _ _ => True) body body')
    (h : g.left.Spins ((Trace.fix binder body).instantiate σ)) :
    g.right.Spins ((Trace.fix binder body').instantiate τ) ∨
      g.Excuses ((Trace.fix binder body').instantiate τ) [] := by
  by_cases hexcused : g.Excuses ((Trace.fix binder body').instantiate τ) []
  · exact .inr hexcused
  rw [spins_instantiate hσ] at h
  rw [spins_instantiate hτ]
  left
  filter_upwards [h, hatomic, hside] with a ⟨n, hsees⟩ hunder hvals
  have hatom : (g.atomic a).Below n (.atom a) (.atom a) :=
    below_atom fun p q hpq hp => ⟨_, List.mem_singleton_self _, by rw [hpq.2]; rfl⟩
  have hbody := hunder (hσ.set binder.id (t := .atom a) rfl) (hτ.set binder.id (t := .atom a) rfl)
    trivial (below_set binder.id hatom fun id => hvals id n)
  rcases hbody (.active ⟨rfl, rfl⟩) (Nat.le_refl n) hsees with ⟨m, -, h⟩ | h
  · exact ⟨m, h⟩
  · exact absurd (excuses_fix_of_atom hescape hτ h) hexcused

/-- The comparison of a `fix` when endless components have to be answered by endless ones. -/
theorem under_fix_endless (hescape : g.escape.IsBasic)
    (hmarks : ∀ p q, g.marks p q → p.IsFlat ∨ p = g.left.endless ∧ q = g.right.endless)
    (hatomic : ∀ᶠ a in cofinite, (g.atomic a).Under (fun _ _ => True) body body')
    (hbody : g.Under g.Abreast body body') :
    g.Under g.Abreast (.fix binder body) (.fix binder body') := by
  refine under_fix (fun {σ τ} hσ hτ hside => ?_) (fun {σ τ} hσ hτ hside p q hpq hp => ?_) hbody
  · refine hside.set binder.id ?_
    filter_upwards [hatomic, hside] with a hunder hvals n
    exact under_fix (fun _ _ _ => trivial)
      (fun _ _ _ p q hpq hp => absurd hp (isFlat_of_atomic hpq _ _)) hunder hσ hτ trivial
      fun id => hvals id n
  · rcases hmarks p q hpq with hflat | ⟨rfl, rfl⟩
    · exact absurd hp (hflat _ _)
    · rcases hp with hdiv | hspins
      · cases hdiv
      · exact (spins_of_abreast hescape hσ hτ hside hatomic hspins).imp_left .inr

/-- Both sides are looked at in the same way, and every component is answered by its equal. -/
structure IsSteady (g : Gauge) : Prop where
  view : g.left = g.right
  escape : g.escape = .never
  marks : ∀ {p q}, g.marks p q ↔ p = q ∧ (p.IsFlat ∨ p = g.left.endless)

theorem IsSteady.isBasic (hg : g.IsSteady) : g.escape.IsBasic := hg.escape ▸ Mark.isBasic_never

theorem IsSteady.below_refl (hg : g.IsSteady) : g.Below n t t :=
  Gauge.below_refl hg.view fun _ _ hpq _ hp => (hg.marks.1 hpq).1 ▸ hp

theorem IsSteady.trans {w : Trace} (hg : g.IsSteady) (h : g.Below n t u)
    (h' : ∀ m, g.Below m u w) : g.Below n t w :=
  h.trans h' hg.view hg.escape fun hpq => by
    obtain ⟨rfl, hp⟩ := hg.marks.1 hpq
    exact hg.marks.2 ⟨rfl, hp⟩

theorem IsSteady.atomic (hg : g.IsSteady) (h : g.Below n t u) : (g.atomic a).Below n t u := by
  intro k k' i s hk
  refine h ?_
  cases hk with
  | going => exact .going
  | done => exact .done
  | active hpq =>
      obtain ⟨rfl, rfl⟩ := hpq
      exact .active (hg.marks.2 ⟨rfl, .inl fun _ _ h => by cases h⟩)

theorem IsSteady.answered (hg : g.IsSteady) (p q : Mark) (h : g.marks p q) :
    p.IsFlat ∨ p = g.left.endless ∧ q = g.right.endless := by
  obtain ⟨rfl, hp⟩ := hg.marks.1 h
  exact hp.imp_right fun hp => ⟨hp, hg.view ▸ hp⟩

theorem under_self_atomic (hview : g.left = g.right) (a : Atom) (t : Trace) :
    (g.atomic a).Under (fun _ _ => True) t t :=
  under_self hview (fun _ _ hpq => isFlat_of_atomic hpq)
    (by rintro l - p q ⟨rfl, rfl⟩ hl; exact hl)

theorem IsSteady.under_self (hg : g.IsSteady) (t : Trace) : g.Under g.Abreast t t := by
  induction t with
  | ref id => exact under_ref id
  | comp op ts ih => exact under_comp (List.forall₂_same.2 ih)
  | fix binder body ih =>
      exact under_fix_endless hg.isBasic hg.answered
        (.of_forall fun a => under_self_atomic hg.view a body) ih
  | _ =>
      intro n σ τ _ _ _ _
      exact below_leaf hg.view rfl fun p q hpq hp => (hg.marks.1 hpq).1 ▸ hp

/-- If the instances of the bodies compare, those of the fixed points do. -/
theorem IsSteady.below_fix (hg : g.IsSteady) (hσ : σ.IsClosed)
    (h : ∀ τ : Valuation, τ.IsClosed → ∀ m, g.Below m (body.instantiate τ) (body'.instantiate τ)) :
    g.Below n ((Trace.fix binder body).instantiate σ) ((Trace.fix binder body').instantiate σ) := by
  have hbody : g.Under g.Abreast body body' := fun n σ τ hσ hτ hside hvals =>
    hg.trans (hg.under_self body hσ hτ hside hvals) (h τ hτ)
  have hatomic : ∀ a, (g.atomic a).Under (fun _ _ => True) body body' := by
    intro a n σ τ hσ hτ _ hvals
    have hself := under_self_atomic hg.view a body hσ hτ trivial hvals
    refine hself.trans (fun m => hg.atomic (h τ hτ m)) hg.view hg.escape ?_
    rintro p q ⟨-, rfl⟩
    exact ⟨rfl, rfl⟩
  refine under_fix_endless hg.isBasic hg.answered (.of_forall hatomic) hbody hσ hσ ?_ ?_
  · exact .of_forall fun a id n => hg.atomic hg.below_refl
  · exact fun id => hg.below_refl

end ProcessContracts.Gauge
