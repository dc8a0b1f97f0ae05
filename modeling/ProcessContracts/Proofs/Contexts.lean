import ProcessContracts.Proofs.Refinement

/-!
# Refinement in context

A specification that allows an implementation allows it in every context. The comparison asks for
an answer to divergence and excuses all that comes after chaos; chaos is also what answers
unconstrained behaviour, so that this is never seen without an excuse. A contract of a callee can
thereby stand for its body.
-/

namespace ProcessContracts

open Filter Trace

variable {program : Program} {v w : View} {n : Nat} {t u spec mid imp context : Trace}
  {s : List Label} {hole : AtomId}

/-- Nothing in the trace is left open by an atom or by a node without a characterisation. -/
structure Trace.Defined (t : Trace) : Prop where
  atom : ∀ a, .atom a ∉ t.leaves
  unresolved : ∀ node, .unresolved node ∉ t.leaves

namespace Gauge

/-- What is seen on the left the right allows, up to where it accepts anything. -/
def lenient (v : View) : Gauge where
  left := v
  right := v
  pace _ _ := True
  marks p q := p = .vague ∧ q = .chaos ∨ p = v.endless ∧ q = v.endless
  escape := .chaos
  pace_refl _ := trivial
  pace_trans _ _ := trivial
  pace_add _ _ := trivial
  idle := idle_always

theorem lenient_excuses_iff : (lenient v).Excuses u s ↔ ¬ v.Settled u s := by
  simp only [Excuses, View.Settled, View.chaotic_iff, not_forall, not_not, exists_prop]
  rfl

/-- An atom that occurs nowhere on the left is never seen there. -/
theorem eventually_below_atomic {g : Gauge} (ht : t.freeRefs = []) (h : ∀ n, g.Below n t u) :
    ∀ᶠ a in cofinite, ∀ n, (g.atomic a).Below n t u := by
  filter_upwards [eventually_atom_notMem t.leaves] with a ha n k k' i s hk hi hsees
  cases hk with
  | going => exact h n .going hi hsees
  | done => exact h n .done hi hsees
  | active hpq =>
      obtain ⟨rfl, rfl⟩ := hpq
      exact absurd hsees (View.not_sees_atom ht ha)

theorem holds_of_lenient {p q : Mark} (hpq : (lenient v).marks p q) (hp : p.holds t)
    (href : ∀ id, t ≠ .ref id) (hatom : ∀ a, t ≠ .atom a) (hnode : ∀ node, t ≠ .unresolved node) :
    q.holds t := by
  rcases hpq with ⟨rfl, rfl⟩ | ⟨rfl, rfl⟩
  · cases t with
    | chaos => rfl
    | atom a => exact absurd rfl (hatom a)
    | ref id => exact absurd rfl (href id)
    | unresolved node => exact absurd rfl (hnode node)
    | _ => exact hp.elim
  · exact hp

theorem under_lenient (ht : t.Defined) : (lenient v).Under (lenient v).Abreast t t := by
  induction t with
  | ref id => exact under_ref id
  | comp op ts ih =>
      have hleaves : ∀ c ∈ ts, c.leaves ⊆ (Trace.comp op ts).leaves := fun c hc l hl => by
        rw [leaves, leavesAll_eq_flatMap]
        exact List.mem_flatMap.2 ⟨c, hc, hl⟩
      exact under_comp (List.forall₂_same.2 fun c hc => ih c hc
        ⟨fun a ha => ht.atom a (hleaves c hc ha), fun n hn => ht.unresolved n (hleaves c hc hn)⟩)
  | fix binder body ih =>
      refine under_fix_endless Mark.isBasic_chaos ?_
        (.of_forall fun a => under_self_atomic rfl a body) (ih ⟨ht.atom, ht.unresolved⟩)
      rintro p q (⟨rfl, -⟩ | h)
      · exact .inl Mark.isFlat_vague
      · exact .inr h
  | _ =>
      intro n σ τ _ _ _ _
      refine below_leaf rfl rfl fun p q hpq hp =>
        holds_of_lenient hpq hp (by simp [instantiate]) ?_ ?_
      · exact fun a h => ht.atom a (List.mem_singleton.2 h.symm)
      · exact fun node h => ht.unresolved node (List.mem_singleton.2 h.symm)

end Gauge

namespace View

open Gauge

theorem Permits.below (h : v.Permits spec v imp) (hspec : spec.freeRefs = [])
    (himp : imp.freeRefs = []) : (lenient v).Below n imp spec := by
  intro k k' i s hk _ hsees
  by_cases hs : v.Settled spec s
  · left
    cases hk with
    | going =>
        have htrace := h.traces s (hasTrace_iff.2 (.inl ⟨i, hsees⟩)) fun p hp _ => hs p hp
        rcases hasTrace_iff.1 htrace with ⟨j, h⟩ | ⟨p, rfl, -⟩
        · exact ⟨j, trivial, h⟩
        · exact absurd (by simp) hsees.tick_notMem
    | done =>
        have htrace := h.traces _ (hasTrace_iff.2 (.inr ⟨s, rfl, i, hsees⟩))
          ((Observer.settled_iff_concat (o := v.observer)).1 hs)
        rcases hasTrace_iff.1 htrace with ⟨j, h⟩ | ⟨p, hp, j, h⟩
        · exact absurd (by simp) h.tick_notMem
        · exact ⟨j, trivial, List.append_cancel_right hp ▸ h⟩
    | active hpq =>
        rcases hpq with ⟨rfl, rfl⟩ | ⟨rfl, rfl⟩
        · exact absurd (unconstrained_iff.2 ⟨i, hsees⟩) (h.unconstrained s hs)
        · have hdiverges := h.diverges s hs ((diverges_iff_sees himp).2 ⟨i, hsees⟩)
          obtain ⟨j, h⟩ := (diverges_iff_sees hspec).1 hdiverges
          exact ⟨j, trivial, h⟩
  · exact .inr (lenient_excuses_iff.2 hs)

theorem permits_of_below (hspec : spec.freeRefs = []) (himp : imp.freeRefs = [])
    (h : ∀ n, (lenient v).Below n imp spec) : v.Permits spec v imp := by
  have answer : ∀ {k k' i s}, (lenient v).Answers k k' → v.Settled spec s → v.Sees k imp i s →
      ∃ j, v.Sees k' spec j s := by
    intro k k' i s hk hs hsees
    rcases h i hk (Nat.le_refl i) hsees with ⟨j, -, h⟩ | h
    · exact ⟨j, h⟩
    · exact absurd hs (lenient_excuses_iff.1 h)
  constructor
  · intro s htrace hbefore
    rcases hasTrace_iff.1 htrace with ⟨i, hsees⟩ | ⟨p, rfl, i, hsees⟩
    · -- Chaos right after `s` excuses what is seen there, but `s` led to it.
      by_cases hs : v.Chaotic spec s
      · obtain ⟨u, hu, -⟩ := hs
        exact ⟨u, hu⟩
      · have hs := Observer.settled_of_before (o := v.observer) hbefore hs
        exact hasTrace_iff.2 (.inl (answer .going hs hsees))
    · have hs := (Observer.settled_iff_concat (o := v.observer)).2 hbefore
      exact hasTrace_iff.2 (.inr ⟨p, rfl, answer .done hs hsees⟩)
  · intro s hs hdiverges
    obtain ⟨i, hsees⟩ := (diverges_iff_sees himp).1 hdiverges
    exact (diverges_iff_sees hspec).2 (answer (.active (.inr ⟨rfl, rfl⟩)) hs hsees)
  · intro s hs hvague
    obtain ⟨i, hsees⟩ := unconstrained_iff.1 hvague
    obtain ⟨j, h⟩ := answer (.active (.inl ⟨rfl, rfl⟩)) hs hsees
    exact hs s (List.prefix_refl s) (chaotic_iff.2 ⟨j, h⟩)

theorem permits_refl (ht : t.freeRefs = []) (hdefined : t.Defined) : v.Permits t v t := by
  have hσ : Valuation.IsClosed fun _ => .stop := fun _ => rfl
  refine permits_of_below ht ht fun n => ?_
  have h := under_lenient (v := v) hdefined (n := n) hσ hσ (.of_forall fun _ _ _ => below_stop)
    fun _ => below_stop
  rwa [instantiate_of_closed _ ht] at h

theorem Permits.trans (h : v.Permits spec v mid) (h' : v.Permits mid w imp) :
    v.Permits spec w imp :=
  permits_observer_iff.1 ((permits_observer_iff.2 h).trans (permits_observer_iff.2 h'))

/-- A context keeps what the trace in its hole is allowed. -/
theorem Permits.substitute (h : v.Permits spec v imp) (hspec : spec.freeRefs = [])
    (himp : imp.freeRefs = []) (hcontext : context.Defined)
    (honly : ∀ id ∈ context.freeRefs, id = hole) :
    v.Permits (substitute hole spec context) v (substitute hole imp context) := by
  have hstop : Valuation.IsClosed fun _ => .stop := fun _ => rfl
  have hσ := hstop.set hole himp
  have hτ := hstop.set hole hspec
  rw [substitute_eq_instantiate_of_only honly, substitute_eq_instantiate_of_only honly]
  refine permits_of_below (freeRefs_instantiate hτ _) (freeRefs_instantiate hσ _) fun n => ?_
  refine under_lenient hcontext hσ hτ ?_
    (below_set hole (h.below hspec himp) fun _ => below_stop)
  filter_upwards [eventually_below_atomic himp fun _ => h.below hspec himp] with a ha id n
  exact below_set hole (ha n) (fun _ => below_stop) id

end View

variable {limit limit' : Nat} {report report' : RefinementReport}

theorem unrefuted_of_permits (hspec : spec.isClosed = true) (himp : imp.isClosed = true)
    (h : program.view.Permits spec program.view imp) : Unrefuted program spec imp := by
  intro limit report hrefines
  exact (View.permits_observer_iff.2 h).ne_violated (refines_spec hspec himp hrefines)

theorem isClosed_substitute (honly : ∀ id ∈ context.freeAtoms, id = hole)
    (ht : t.isClosed = true) : (substitute hole t context).isClosed = true :=
  isClosed_iff.2 (freeRefs_substitute (fun id hid => honly id (mem_freeAtoms.2 hid))
    (isClosed_iff.1 ht))

theorem permits_in_context (hspec : spec.isClosed = true) (himp : imp.isClosed = true)
    (h : refines program spec imp limit = .ok report) (hverdict : report.verdict = .refines)
    (hcontext : context.Defined) (honly : ∀ id ∈ context.freeAtoms, id = hole) :
    program.view.Permits (substitute hole spec context) program.view
      (substitute hole imp context) :=
  ((refines_spec hspec himp h).permits hverdict).substitute (isClosed_iff.1 hspec)
    (isClosed_iff.1 himp) hcontext fun id hid => honly id (mem_freeAtoms.2 hid)

/-- What refines a specification is not refuted against it in any context. -/
theorem unrefuted_in_context (hspec : spec.isClosed = true) (himp : imp.isClosed = true)
    (h : refines program spec imp limit = .ok report) (hverdict : report.verdict = .refines)
    (hcontext : context.Defined) (honly : ∀ id ∈ context.freeAtoms, id = hole) :
    Unrefuted program (substitute hole spec context) (substitute hole imp context) :=
  unrefuted_of_permits (isClosed_substitute honly hspec) (isClosed_substitute honly himp)
    (permits_in_context hspec himp h hverdict hcontext honly)

/-- A request, perhaps followed by another one. -/
def onceOrTwice : Trace := .comp .seq [request, .comp .ndet [.skip, request]]

/-- Two at a time, again and again. -/
def pairs : Trace :=
  .fix ⟨⟨1⟩, .loop ⟨0⟩⟩ (.comp .seq [.comp .par [.ref ⟨0⟩, .ref ⟨0⟩], .ref ⟨1⟩])

theorem pairs_unrefuted :
    Unrefuted server (substitute ⟨0⟩ onceOrTwice pairs) (substitute ⟨0⟩ request pairs) := by
  have h : refines server onceOrTwice request 5 = .ok ⟨.refines, [], 5⟩ := by cbv
  have hcontext : pairs.Defined := ⟨by simp [pairs, leaves], by simp [pairs, leaves]⟩
  have honly : ∀ id ∈ pairs.freeAtoms, id = ⟨0⟩ := by
    intro id hid
    simpa [pairs, freeRefs] using mem_freeAtoms.1 hid
  exact unrefuted_in_context (by decide) (by decide) h rfl hcontext honly

/-- A caller may be checked against what its callee refines instead of against the callee. -/
theorem unrefuted_through_callee {caller : Trace} (hcaller : caller.isClosed = true)
    (hspec : spec.isClosed = true) (himp : imp.isClosed = true)
    (h : refines program spec imp limit = .ok report) (hverdict : report.verdict = .refines)
    (hcontext : context.Defined) (honly : ∀ id ∈ context.freeAtoms, id = hole)
    (h' : refines program caller (substitute hole spec context) limit' = .ok report')
    (hverdict' : report'.verdict = .refines) :
    Unrefuted program caller (substitute hole imp context) := by
  refine unrefuted_of_permits hcaller (isClosed_substitute honly himp) ?_
  have hpermits := (refines_spec hcaller (isClosed_substitute honly hspec) h').permits hverdict'
  exact hpermits.trans (permits_in_context hspec himp h hverdict hcontext honly)

end ProcessContracts
