import ProcessContracts.Proofs.Contexts
import ProcessContracts.Proofs.Plans

/-!
# What covers what

A trace covers another one if it permits it and both are complete. Compositions cover part by part,
a choice covers each of its alternatives, and the trace a repetition stands for covers all that its
rounds cover. None of this depends on which atoms were minted.
-/

namespace ProcessContracts

open Trace

/-- Nothing in the trace is left open. -/
structure Trace.Complete (t : Trace) : Prop extends t.Defined where
  closed : t.freeRefs = []

namespace Trace

theorem fragmentary_defined : Fragmentary Defined := by
  have hleaf : ∀ {t : Trace}, t.leaves = [t] → (∀ a, t ≠ .atom a) → (∀ node, t ≠ .unresolved node) →
      t.Defined := fun h ha hn =>
    ⟨fun a hmem => ha a (List.mem_singleton.1 (h ▸ hmem)).symm,
      fun node hmem => hn node (List.mem_singleton.1 (h ▸ hmem)).symm⟩
  have hcomp : ∀ {op ts}, Defined (.comp op ts) ↔ ∀ t ∈ ts, Defined t := by
    intro op ts
    have hleaves : ∀ l, l ∈ (Trace.comp op ts).leaves ↔ ∃ t ∈ ts, l ∈ t.leaves := fun l => by
      rw [leaves, leavesAll_eq_flatMap, List.mem_flatMap]
    constructor
    · exact fun h t ht => ⟨fun a ha => h.atom a ((hleaves _).2 ⟨t, ht, ha⟩),
        fun node hn => h.unresolved node ((hleaves _).2 ⟨t, ht, hn⟩)⟩
    · intro h
      constructor
      · rintro a ha
        obtain ⟨t, ht, ha⟩ := (hleaves _).1 ha
        exact (h t ht).atom a ha
      · rintro node hn
        obtain ⟨t, ht, hn⟩ := (hleaves _).1 hn
        exact (h t ht).unresolved node hn
  have hfix : ∀ {binder body}, Defined body → Defined (.fix binder body) :=
    fun h => ⟨h.atom, h.unresolved⟩
  have hskip : Defined .skip := hleaf rfl (by simp) (by simp)
  have hround : ∀ {op t id}, Defined t → Defined (.comp op [t, .ref id]) := fun ht =>
    hcomp.2 (List.forall_mem_cons.2 ⟨ht, List.forall_mem_singleton.2
      (hleaf rfl (by simp) (by simp))⟩)
  exact {
    skip := hskip
    stop := hleaf rfl (by simp) (by simp)
    comp := hcomp
    div := hleaf rfl (by simp) (by simp)
    event := fun _ _ => hleaf rfl (by simp) (by simp)
    again := fun ht => hfix (hround ht)
    repeated := fun ht => hfix (hcomp.2 (List.forall_mem_cons.2
      ⟨hskip, List.forall_mem_singleton.2 (hround ht)⟩)) }

theorem fragmentary_closed : Fragmentary fun t => t.freeRefs = [] where
  toComponentwise := componentwise_closed
  div := rfl
  event _ _ := rfl
  again ht := by simp [freeRefs, ht]
  repeated ht := by simp [freeRefs, ht]

theorem fragmentary_complete : Fragmentary Complete where
  skip := ⟨fragmentary_defined.skip, rfl⟩
  stop := ⟨fragmentary_defined.stop, rfl⟩
  comp := by
    intro op ts
    constructor
    · exact fun h t ht => ⟨fragmentary_defined.comp.1 h.toDefined t ht,
        componentwise_closed.comp.1 h.closed t ht⟩
    · exact fun h => ⟨fragmentary_defined.comp.2 fun t ht => (h t ht).toDefined,
        componentwise_closed.comp.2 fun t ht => (h t ht).closed⟩
  div := ⟨fragmentary_defined.div, rfl⟩
  event _ _ := ⟨fragmentary_defined.event _ _, rfl⟩
  again h := ⟨fragmentary_defined.again h.toDefined, fragmentary_closed.again h.closed⟩
  repeated h := ⟨fragmentary_defined.repeated h.toDefined, fragmentary_closed.repeated h.closed⟩

end Trace

namespace View

variable {v w : View} {t u spec mid imp : Trace} {ts us : List Trace} {op : Operator}
  {binder binder' : Atom}

/-- A trace that shows more permits more. -/
theorem Shows.permits (h : v.Shows spec mid) (hspec : spec.freeRefs = [])
    (hmid : mid.freeRefs = []) (h' : v.bare.Permits mid w imp) : v.bare.Permits spec w imp where
  traces s himp hbefore := h.hasTrace (h'.traces s himp fun p hp hne hc =>
    hbefore p hp hne (h.chaotic hc))
  diverges s hs hd := h.diverges hspec hmid
    (h'.diverges s (fun p hp hc => hs p hp (h.chaotic hc)) hd)
  unconstrained s hs := h'.unconstrained s fun p hp hc => hs p hp (h.chaotic hc)

/-- A complete trace permits another one. -/
structure Covers (v : View) (spec imp : Trace) : Prop where
  left : spec.Complete
  right : imp.Complete
  permits : v.bare.Permits spec v.bare imp

namespace Covers

theorem refl (h : t.Complete) : v.Covers t t := ⟨h, h, permits_refl h.closed h.toDefined⟩

theorem trans (h : v.Covers spec mid) (h' : v.Covers mid imp) : v.Covers spec imp :=
  ⟨h.left, h'.right, h.permits.trans h'.permits⟩

theorem of_shows (ht : t.Complete) (hu : u.Complete) (h : v.Shows t u) : v.Covers t u :=
  ⟨ht, hu, h.permits ht.closed hu.closed (refl hu).permits⟩

theorem of_alike (ht : t.Complete) (hu : u.Complete) (h : v.Alike t u) : v.Covers t u :=
  of_shows ht hu h.shows_left

theorem of_alike_symm (ht : t.Complete) (hu : u.Complete) (h : v.Alike t u) : v.Covers u t :=
  of_shows hu ht h.shows_right

/-- Traces with a common simpler form cover each other. -/
theorem of_common (ht : t.Complete) (hu : u.Complete) {w : Trace} (hw : w.Complete)
    (h : v.Alike t w) (h' : v.Alike u w) : v.Covers t u :=
  (of_alike ht hw h).trans (of_alike_symm hu hw h')

theorem below (h : v.Covers spec imp) (n : Nat) : (Gauge.lenient v.bare).Below n imp spec :=
  h.permits.below h.left.closed h.right.closed

theorem of_below (hspec : spec.Complete) (himp : imp.Complete)
    (h : ∀ n, (Gauge.lenient v.bare).Below n imp spec) : v.Covers spec imp :=
  ⟨hspec, himp, permits_of_below hspec.closed himp.closed h⟩

/-! ## Compositions -/

/-- A deadlock shows nothing but that it is there. -/
theorem stop (ht : t.Complete) : v.Covers t .stop :=
  of_shows ht fragmentary_complete.stop fun _ _ _ _ hsees => ⟨0, sees_going_of_stop hsees t⟩

/-- Part by part. -/
theorem comp (h : List.Forall₂ v.Covers ts us) : v.Covers (.comp op ts) (.comp op us) := by
  have hcomplete : (∀ t ∈ ts, t.Complete) ∧ ∀ u ∈ us, u.Complete := by
    induction h with
    | nil => simp
    | cons h _ ih =>
        exact ⟨List.forall_mem_cons.2 ⟨h.left, ih.1⟩, List.forall_mem_cons.2 ⟨h.right, ih.2⟩⟩
  refine of_below (fragmentary_complete.comp.2 hcomplete.1)
    (fragmentary_complete.comp.2 hcomplete.2) fun n => Gauge.below_comp ?_
  exact (h.imp fun _ _ h => h.below n).flip

/-- An internal choice is covered if all its alternatives are. -/
theorem choice (hus : us ≠ []) (ht : t.Complete) (h : ∀ u ∈ us, v.Covers t u) :
    v.Covers t (collapse .ndet us) := by
  refine of_below ht (fragmentary_complete.collapse fun u hu => (h u hu).right) fun n => ?_
  intro k k' i s hk hi hsees
  rcases (sees_collapse_ndet hus).1 hsees with ⟨rfl, rfl, rfl⟩ | ⟨u, hu, m, rfl, hseen⟩
  · exact .inl (Gauge.below_going t hk)
  · rcases (h u hu).below m hk (Nat.le_refl m) hseen with ⟨j, -, h⟩ | h
    · exact .inl ⟨j, trivial, h⟩
    · exact .inr h

/-- An internal choice covers what one of its alternatives covers. -/
theorem alternative (hts : ∀ t ∈ ts, t.Complete) (ht : t ∈ ts) (h : v.Covers t u) :
    v.Covers (collapse .ndet ts) u := by
  refine trans (of_shows (fragmentary_complete.collapse hts) h.left fun k _ n s hsees => ?_) h
  exact ⟨_, (sees_collapse_ndet (List.ne_nil_of_mem ht)).2 (.inr ⟨t, ht, n, rfl, hsees⟩)⟩

/-- An external choice covers the choice between some of its alternatives. -/
theorem fewer (hts : ∀ t ∈ ts, t.Complete) (hsub : us ⊆ ts) :
    v.Covers (.comp .det ts) (.comp .det us) := by
  have hcomplete : (Trace.comp .det ts).Complete := fragmentary_complete.comp.2 hts
  have hus : (Trace.comp .det us).Complete :=
    fragmentary_complete.comp.2 fun u hu => hts u (hsub hu)
  by_cases hne : us = []
  · subst hne
    exact (stop hcomplete).trans
      (of_alike_symm hus fragmentary_complete.stop (condenses_collapse .det []).alike)
  · refine of_shows hcomplete hus fun k _ n s hsees => ?_
    obtain ⟨t, ht, m, -, hseen⟩ := ((sees_det hne).1 hsees).exists_child
    exact ⟨m, (sees_det (List.ne_nil_of_mem (hsub ht))).2 (picks_of_mem (hsub ht) hseen)⟩

/-- Every alternative of the one is covered by some alternative of the other. -/
theorem external (hts : ∀ t ∈ ts, t.Complete) (h : ∀ u ∈ us, ∃ t ∈ ts, v.Covers t u) :
    v.Covers (.comp .det ts) (.comp .det us) := by
  have hchosen : ∃ cs, cs ⊆ ts ∧ List.Forall₂ v.Covers cs us := by
    induction us with
    | nil => exact ⟨[], List.nil_subset ts, .nil⟩
    | cons u us ih =>
        obtain ⟨t, ht, hcovers⟩ := h u List.mem_cons_self
        obtain ⟨cs, hsub, hall⟩ := ih fun u hu => h u (List.mem_cons_of_mem _ hu)
        exact ⟨t :: cs, List.cons_subset.2 ⟨ht, hsub⟩, .cons hcovers hall⟩
  obtain ⟨cs, hsub, hall⟩ := hchosen
  exact (fewer hts hsub).trans (comp hall)

theorem internal (hts : ∀ t ∈ ts, t.Complete) (hus : us ≠ [])
    (h : ∀ u ∈ us, ∃ t ∈ ts, v.Covers t u) :
    v.Covers (collapse .ndet ts) (collapse .ndet us) :=
  choice hus (fragmentary_complete.collapse hts) fun u hu =>
    let ⟨_, ht, hcovers⟩ := h u hu
    alternative hts ht hcovers

end Covers

/-! ## Repetitions -/

section Rebinding

variable {body body' : Trace}

/-- The bodies unfold alike, whatever the bound references are called. -/
def UnfoldAlike (binder : Atom) (body : Trace) (binder' : Atom) (body' : Trace) : Prop :=
  ∀ r, substitute binder.id r body = substitute binder'.id r body'

theorem below_of_unfoldAlike {g : Gauge} {side : Valuation → Valuation → Prop} {n : Nat}
    (hfix : (Trace.fix binder body).freeRefs = []) (hfix' : (Trace.fix binder' body').freeRefs = [])
    (h : UnfoldAlike binder body binder' body')
    (hmark : ∀ p q, g.marks p q → p.holds (.fix binder' body') → q.holds (.fix binder body))
    (hbody : g.Under side body' body')
    (hside : side (Valuation.set (fun _ => .stop) binder'.id (.fix binder' body'))
      (Valuation.set (fun _ => .stop) binder'.id (.fix binder body))) :
    g.Below n (.fix binder' body') (.fix binder body) := by
  have hstop : Valuation.IsClosed fun _ => .stop := fun _ => rfl
  have hunfold : body.instantiate (Valuation.set (fun _ => .stop) binder.id (.fix binder body)) =
      body'.instantiate (Valuation.set (fun _ => .stop) binder'.id (.fix binder body)) := by
    rw [← substitute_eq_instantiate hfix, ← substitute_eq_instantiate hfix', h]
  rw [← instantiate_of_closed (fun _ => .stop) hfix, ← instantiate_of_closed (fun _ => .stop) hfix']
  refine Gauge.below_fix hstop hstop (fun p q hpq hp => .inl ?_) fun m _ hm => ?_
  · rw [instantiate_of_closed _ hfix'] at hp
    rw [instantiate_of_closed _ hfix]
    exact hmark p q hpq hp
  rw [instantiate_of_closed _ hfix, instantiate_of_closed _ hfix'] at hm ⊢
  rw [hunfold]
  exact hbody (hstop.set _ hfix') (hstop.set _ hfix) hside
    (Gauge.below_set _ hm fun _ => Gauge.below_stop)

theorem covers_of_unfoldAlike (hfix : (Trace.fix binder body).Complete)
    (hfix' : (Trace.fix binder' body').Complete) (h : UnfoldAlike binder body binder' body') :
    v.Covers (.fix binder body) (.fix binder' body') := by
  refine .of_below hfix hfix' fun n => ?_
  refine below_of_unfoldAlike hfix.closed hfix'.closed h (fun p q hpq hp => ?_)
    (Gauge.under_lenient ⟨hfix'.atom, hfix'.unresolved⟩) (.of_forall fun a other m => ?_)
  · rcases hpq with ⟨rfl, -⟩ | ⟨rfl, rfl⟩
    · exact hp.elim
    · obtain hdiv | ⟨b, c, heq, hspins⟩ := hp
      · cases hdiv
      · obtain ⟨rfl, rfl⟩ := Trace.fix.inj heq
        exact .inr ⟨binder, body, rfl, hspins.mono fun a ha => by rwa [h]⟩
  · refine Gauge.below_set binder'.id ?_ (fun _ => Gauge.below_stop) other
    exact below_of_unfoldAlike hfix.closed hfix'.closed h
      (fun p q hpq hp => absurd hp (Gauge.isFlat_of_atomic hpq _ _))
      (Gauge.under_self_atomic rfl a body') trivial

end Rebinding

/-- Of the components that are watched for, the constrained ones are endless. -/
theorem Watches.eq_endless {mark : Mark} (hk : v.Watches (.active mark)) {l : Trace}
    (hp : mark.holds l) (hl : ¬ Mark.vague.holds l) : mark = v.bare.endless := by
  cases hk with
  | chaos =>
      obtain rfl : l = .chaos := hp
      exact absurd trivial hl
  | vague => exact absurd hp hl
  | endless => rfl

theorem sees_div {k : Sight} (hk : v.Watches k) {n : Nat} {s : List Label} :
    v.bare.Sees k .div n s ↔ n = 0 ∧ s = [] ∧ (k = .going ∨ k = .active v.bare.endless) := by
  rw [sees_of_moves_nil rfl]
  refine and_congr_right fun _ => and_congr_right fun _ => or_congr_right ?_
  constructor
  · rintro ⟨mark, l, rfl, hl, hp⟩
    rw [List.mem_singleton.1 hl] at hp
    rw [hk.eq_endless hp nofun]
  · rintro rfl
    exact ⟨_, _, rfl, List.mem_singleton_self _, .inl rfl⟩

/-- A fixed point shows what its unfolding shows. -/
theorem shows_unfolded (binder : Atom) (body : Trace) :
    v.Shows (.fix binder body) (substitute binder.id (.fix binder body) body) :=
  fun _ _ n _ hsees => ⟨n + 1, sees_fix.2 (.inr ⟨n, rfl, hsees⟩)⟩

/-- An internal choice shows what each alternative shows. -/
theorem shows_alternative (ht : t ∈ ts) : v.Shows (.comp .ndet ts) t := fun _ _ n _ hsees =>
  ⟨n + 1, (sees_ndet (List.ne_nil_of_mem ht)).2 (.inr ⟨n, rfl, t, ht, hsees⟩)⟩

/-- How a fixed point goes on: what it does in one round, and the reference to the next one. -/
structure IsRound (shape : Trace → Trace → Trace) : Prop where
  substitute : ∀ id r t next,
    substitute id r (shape t next) = shape (substitute id r t) (substitute id r next)
  complete : ∀ {binder t}, t.Complete → (Trace.fix binder (shape t (.ref binder.id))).Complete
  leaves : ∀ id id', (shape (.ref id) (.ref id')).Defined
  freeRefs : ∀ {id id' id''}, id'' ∈ (shape (.ref id) (.ref id')).freeRefs → id'' = id ∨ id'' = id'

theorem isRound_again (op : Operator) : IsRound fun t next => .comp op [t, next] where
  substitute _ _ _ _ := by simp [Trace.substitute]
  complete := fragmentary_complete.again
  leaves _ _ := ⟨by simp [Trace.leaves], by simp [Trace.leaves]⟩
  freeRefs := by simp [Trace.freeRefs]

theorem isRound_repeated (op : Operator) :
    IsRound fun t next => .comp .ndet [.skip, .comp op [t, next]] where
  substitute _ _ _ _ := by simp [Trace.substitute]
  complete := fragmentary_complete.repeated
  leaves _ _ := ⟨by simp [Trace.leaves], by simp [Trace.leaves]⟩
  freeRefs := by simp [Trace.freeRefs]

theorem IsRound.put {shape : Trace → Trace → Trace} (hshape : IsRound shape)
    (ht : t.freeRefs = []) (id : AtomId) (r : Trace) :
    Trace.substitute id r (shape t (.ref id)) = shape t r := by
  rw [hshape.substitute, substitute_of_not_mem (by simp [ht])]
  simp [Trace.substitute]

namespace Covers

/-- A fixed point covers another one if a round covers a round. -/
theorem fix {shape : Trace → Trace → Trace} (hshape : IsRound shape) (h : v.Covers t u) :
    v.Covers (.fix binder (shape t (.ref binder.id)))
      (.fix binder' (shape u (.ref binder'.id))) := by
  have hsame : v.Covers (.fix binder (shape t (.ref binder.id)))
      (.fix binder (shape u (.ref binder.id))) := by
    refine ⟨hshape.complete h.left, hshape.complete h.right, ?_⟩
    let hole : AtomId := ⟨binder.id.index + 1⟩
    have hne : binder.id ≠ hole := fun heq => Nat.succ_ne_self _ (congrArg AtomId.index heq).symm
    have hput : ∀ r : Trace, substitute hole r (.fix binder (shape (.ref hole) (.ref binder.id))) =
        .fix binder (shape r (.ref binder.id)) := fun r => by
      simp [substitute, hshape.substitute, hne]
    have hcontext : (Trace.fix binder (shape (.ref hole) (.ref binder.id))).Defined :=
      ⟨(hshape.leaves hole binder.id).atom, (hshape.leaves hole binder.id).unresolved⟩
    have honly : ∀ id ∈ (Trace.fix binder (shape (.ref hole) (.ref binder.id))).freeRefs,
        id = hole := fun id hid =>
      (hshape.freeRefs (mem_freeRefs_fix.1 hid).1).resolve_right (mem_freeRefs_fix.1 hid).2
    have hpermits := h.permits.substitute h.left.closed h.right.closed hcontext honly
    rwa [hput, hput] at hpermits
  refine hsame.trans (covers_of_unfoldAlike (hshape.complete h.right) (hshape.complete h.right)
    fun r => ?_)
  rw [hshape.put h.right.closed, hshape.put h.right.closed]

/-- A fixed point covers what one round of it covers. -/
theorem unfold {shape : Trace → Trace → Trace} (hshape : IsRound shape) (ht : t.Complete)
    (h : v.Covers (shape t (.fix binder (shape t (.ref binder.id)))) u) :
    v.Covers (.fix binder (shape t (.ref binder.id))) u := by
  refine trans (of_shows (hshape.complete ht) h.left ?_) h
  have hunfolded := shows_unfolded (v := v) binder (shape t (.ref binder.id))
  rwa [hshape.put ht.closed] at hunfolded

/-- A choice of going on covers what it goes on with. -/
theorem pick (hts : ∀ t ∈ ts, t.Complete) (ht : t ∈ ts) (h : v.Covers t u) :
    v.Covers (.comp .ndet ts) u :=
  (of_shows (fragmentary_complete.comp.2 hts) h.left (shows_alternative ht)).trans h

theorem repeated_cases (ht : t.Complete) : v.Covers
    (.fix binder (.comp .ndet [.skip, .comp op [t, .ref binder.id]])) .skip ∧ v.Covers
    (.fix binder (.comp .ndet [.skip, .comp op [t, .ref binder.id]]))
    (.comp op [t, .fix binder (.comp .ndet [.skip, .comp op [t, .ref binder.id]])]) := by
  have hround : (Trace.comp op [t, .fix binder (.comp .ndet [.skip,
      .comp op [t, .ref binder.id]])]).Complete :=
    fragmentary_complete.comp.2 (List.forall_mem_cons.2
      ⟨ht, List.forall_mem_singleton.2 ((isRound_repeated op).complete ht)⟩)
  have hchoices : ∀ c ∈ [Trace.skip, .comp op [t, .fix binder (.comp .ndet [.skip,
      .comp op [t, .ref binder.id]])]], c.Complete :=
    List.forall_mem_cons.2 ⟨fragmentary_complete.skip, List.forall_mem_singleton.2 hround⟩
  exact ⟨unfold (isRound_repeated op) ht (pick hchoices List.mem_cons_self
      (refl fragmentary_complete.skip)),
    unfold (isRound_repeated op) ht (pick hchoices (List.mem_cons_of_mem _ List.mem_cons_self)
      (refl hround))⟩

/-- Any number of rounds covers every number of copies. -/
theorem copies (h : v.Covers t u) (n : Nat) :
    v.Covers (.fix binder (.comp .ndet [.skip, .comp op [t, .ref binder.id]]))
      (.comp op (List.replicate n u)) := by
  have hnone : v.Covers (.fix binder (.comp .ndet [.skip, .comp op [t, .ref binder.id]])) .skip :=
    (repeated_cases h.left).1
  induction n with
  | zero =>
      have hunit : v.Covers (.fix binder (.comp .ndet [.skip, .comp op [t, .ref binder.id]]))
          (unit op) := by
        cases op with
        | seq | par => exact hnone
        | det | ndet => exact stop hnone.left
      exact hunit.trans (of_alike_symm (fragmentary_complete.comp.2 (by simp)) hunit.right
        (condenses_collapse op []).alike)
  | succ n ih =>
      have hall : ∀ c ∈ List.replicate (n + 1) u, c.Complete :=
        fun c hc => List.eq_of_mem_replicate hc ▸ h.right
      have hround : v.Covers (.fix binder (.comp .ndet [.skip, .comp op [t, .ref binder.id]]))
          (.comp op [u, .comp op (List.replicate n u)]) :=
        (repeated_cases h.left).2.trans (comp (.cons h (.cons ih .nil)))
      have hflat : v.Alike (.comp op [u, .comp op (List.replicate n u)])
          (collapse op (u :: List.replicate n u)) := by
        have hnested := alike_nested (v := v) op [u] [] (List.replicate n u)
        rwa [List.append_nil] at hnested
      have hwrapped := (condenses_collapse (v := v.bare) op (u :: List.replicate n u)).alike
      have hcollapsed : (collapse op (u :: List.replicate n u)).Complete :=
        fragmentary_complete.collapse hall
      exact hround.trans (of_common hround.right (fragmentary_complete.comp.2 hall) hcollapsed hflat
        hwrapped)

/-- What goes round without a step of its own diverges. -/
theorem endless (h : v.Covers t .skip) :
    v.Covers (.fix binder (.comp .seq [t, .ref binder.id])) .div := by
  have hsilent : v.Covers (.fix binder (.comp .seq [t, .ref binder.id]))
      (.fix binder (.comp .seq [.skip, .ref binder.id])) := fix (isRound_again .seq) h
  refine hsilent.trans (of_shows (fragmentary_complete.again h.right) fragmentary_complete.div ?_)
  have hspins : v.bare.Spins (.fix binder (.comp .seq [.skip, .ref binder.id])) :=
    ⟨binder, _, rfl, .of_forall fun a => ⟨1, by
      rw [(isRound_again .seq).put rfl]
      refine sees_seq_cons.2 (.inr ⟨1, [], 0, [], sees_skip.2 ⟨.inr ⟨rfl, rfl⟩, rfl⟩, ?_, rfl, rfl⟩)
      exact .active (List.mem_singleton_self _) rfl⟩⟩
  intro k hk n s hsees
  obtain ⟨rfl, rfl, rfl | rfl⟩ := (sees_div hk).1 hsees
  · exact ⟨0, .going _⟩
  · exact ⟨0, .active (List.mem_singleton_self _) (.inr hspins)⟩

end Covers

end View

end ProcessContracts
