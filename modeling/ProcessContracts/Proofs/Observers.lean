import ProcessContracts.Proofs.ReducedRuns
import ProcessContracts.Refinement.Verdict

/-!
# Observers

A verdict is about what an observer can note of two traces: the labels along their paths, and
whether a path ends in divergence, in chaos or in unconstrained behaviour. The paths may be those of
the traces themselves or those through simplified states that a search follows. What follows from a
comparison is the same for both.
-/

namespace ProcessContracts

open Trace

variable {t u spec mid imp : Trace} {s p : List Label} {l : Label}

structure Observer where
  HasTrace : Trace → List Label → Prop
  Diverges : Trace → List Label → Prop
  Chaotic : Trace → List Label → Prop
  Unconstrained : Trace → List Label → Prop
  hasTrace_nil : ∀ t, HasTrace t []
  hasTrace_left : ∀ {t s p}, HasTrace t (s ++ p) → HasTrace t s
  hasTrace_of_diverges : ∀ {t s}, Diverges t s → HasTrace t s
  hasTrace_of_unconstrained : ∀ {t s}, Unconstrained t s → HasTrace t s
  unconstrained_of_chaotic : ∀ {t s}, Chaotic t s → Unconstrained t s
  /-- Nothing happens after termination. -/
  finished : ∀ {t s}, Label.tick ∈ s →
    (∀ l, ¬ HasTrace t (s ++ [l])) ∧ ¬ Diverges t s ∧ ¬ Unconstrained t s

namespace Observer

variable {o o' : Observer}

/-- Neither `s` nor any part that `s` starts with leads to chaos. -/
def Settled (o : Observer) (t : Trace) (s : List Label) : Prop := ∀ p, p <+: s → ¬ o.Chaotic t p

/-- What a violation says about both sides after `s`. -/
def Happens (o : Observer) (spec imp : Trace) (s : List Label) : Violation → Prop
  | .unexpectedStep l => o.HasTrace imp (s ++ [l]) ∧ ¬ o.HasTrace spec (s ++ [l])
  | .divergence => o.Diverges imp s ∧ ¬ o.Diverges spec s
  | .unconstrained => o.Unconstrained imp s

/-- Both sides take the path, and the specification accepts nothing arbitrary before its end. -/
structure Takes (o : Observer) (spec imp : Trace) (s : List Label) : Prop where
  performed : o.HasTrace imp s
  allowed : o.HasTrace spec s
  before : ∀ p, p <+: s → p ≠ s → ¬ o.Chaotic spec p

/-- No violation happens after `s`, unless the specification accepts anything by then. -/
def Clear (o : Observer) (spec imp : Trace) (s : List Label) : Prop :=
  o.Takes spec imp s → ¬ o.Chaotic spec s → ∀ violation, ¬ o.Happens spec imp s violation

/-- What a verdict says about both sides. -/
def Justifies (o : Observer) (spec imp : Trace) : Verdict → Prop
  | .refines => ∀ s, o.Clear spec imp s
  | .violated ⟨path, violation⟩ => o.Takes spec imp path ∧ ¬ o.Chaotic spec path ∧
      o.Happens spec imp path violation ∧ ∀ s, s.length < path.length → o.Clear spec imp s
  | .inconclusive => True

/-- What `o'` notes of `imp` is allowed by what `o` notes of `spec`, up to where `spec` accepts
anything. -/
structure Permits (o : Observer) (spec : Trace) (o' : Observer) (imp : Trace) : Prop where
  traces : ∀ s, o'.HasTrace imp s → (∀ p, p <+: s → p ≠ s → ¬ o.Chaotic spec p) →
    o.HasTrace spec s
  diverges : ∀ s, o.Settled spec s → o'.Diverges imp s → o.Diverges spec s
  unconstrained : ∀ s, o.Settled spec s → ¬ o'.Unconstrained imp s

theorem settled_of_before (hbefore : ∀ p, p <+: s → p ≠ s → ¬ o.Chaotic spec p)
    (hs : ¬ o.Chaotic spec s) : o.Settled spec s := by
  intro p hp
  by_cases heq : p = s
  · exact heq ▸ hs
  · exact hbefore p hp heq

theorem Takes.settled (h : o.Takes spec imp s) (hc : ¬ o.Chaotic spec s) : o.Settled spec s :=
  settled_of_before h.before hc

theorem settled_iff_concat : o.Settled spec s ↔
    ∀ p, p <+: s ++ [l] → p ≠ s ++ [l] → ¬ o.Chaotic spec p := by
  constructor
  · intro h p hp hne
    exact h p ((List.prefix_concat_iff.1 hp).resolve_left hne)
  · intro h p hp
    refine h p (hp.trans (List.prefix_append s [l])) ?_
    rintro rfl
    have := hp.length_le
    rw [List.length_append, List.length_singleton] at this
    omega

theorem takes_nil : o.Takes spec imp [] :=
  ⟨o.hasTrace_nil imp, o.hasTrace_nil spec, fun _ hp hne => absurd (List.prefix_nil.1 hp) hne⟩

theorem takes_concat_iff : o.Takes spec imp (s ++ [l]) ↔ o.Takes spec imp s ∧
    ¬ o.Chaotic spec s ∧ o.HasTrace imp (s ++ [l]) ∧ o.HasTrace spec (s ++ [l]) := by
  constructor
  · intro h
    have hs := settled_iff_concat.2 h.before
    exact ⟨⟨o.hasTrace_left h.performed, o.hasTrace_left h.allowed, fun p hp _ => hs p hp⟩,
      hs s (List.prefix_refl s), h.performed, h.allowed⟩
  · rintro ⟨h, hc, himp, hspec⟩
    exact ⟨himp, hspec, settled_iff_concat.1 (h.settled hc)⟩

theorem not_happens_of_tick (hs : Label.tick ∈ s) (violation : Violation) :
    ¬ o.Happens spec imp s violation := by
  obtain ⟨htrace, hdiverges, hvague⟩ := o.finished (t := imp) hs
  cases violation with
  | unexpectedStep l => exact fun h => htrace l h.1
  | divergence => exact fun h => hdiverges h.1
  | unconstrained => exact hvague

theorem hasTrace_of_happens {violation : Violation} (h : o.Happens spec imp s violation) :
    o.HasTrace imp s := by
  cases violation with
  | unexpectedStep l => exact o.hasTrace_left h.1
  | divergence => exact o.hasTrace_of_diverges h.1
  | unconstrained => exact o.hasTrace_of_unconstrained h

/-- Before the first violation the specification takes every step of the implementation. -/
theorem takes_of_clear (h : ∀ p, p.length < s.length → o.Clear spec imp p)
    (himp : o.HasTrace imp s) (hbefore : ∀ p, p <+: s → p ≠ s → ¬ o.Chaotic spec p) :
    o.Takes spec imp s := by
  induction s using List.reverseRecOn with
  | nil => exact takes_nil
  | append_singleton s l ih =>
      have hs := settled_iff_concat.2 hbefore
      have hc := hs s (List.prefix_refl s)
      rw [List.length_append, List.length_singleton] at h
      have htakes := ih (fun p hp => h p (Nat.lt_succ_of_lt hp)) (o.hasTrace_left himp)
        fun p hp _ => hs p hp
      refine takes_concat_iff.2 ⟨htakes, hc, himp, ?_⟩
      by_contra hno
      exact h s (Nat.lt_succ_self _) htakes hc (.unexpectedStep l) ⟨himp, hno⟩

/-- Where the specification is settled, a violation needs no step of the specification to count. -/
theorem not_happens_of_clear (h : ∀ p, p.length ≤ s.length → o.Clear spec imp p)
    (hs : o.Settled spec s) (violation : Violation) : ¬ o.Happens spec imp s violation := by
  intro hhappens
  have htakes := takes_of_clear (fun p hp => h p (Nat.le_of_lt hp)) (hasTrace_of_happens hhappens)
    fun p hp _ => hs p hp
  exact h s (Nat.le_refl _) htakes (hs s (List.prefix_refl s)) violation hhappens

/-- Without a violation anywhere the specification allows all that the implementation does. -/
theorem permits_of_clear (h : ∀ s, o.Clear spec imp s) : o.Permits spec o imp where
  traces _ himp hbefore := (takes_of_clear (fun p _ => h p) himp hbefore).allowed
  diverges _ hs hd := by
    by_contra hno
    exact not_happens_of_clear (fun p _ => h p) hs .divergence ⟨hd, hno⟩
  unconstrained _ hs := not_happens_of_clear (fun p _ => h p) hs .unconstrained

theorem Justifies.permits {verdict : Verdict} (h : o.Justifies spec imp verdict)
    (hverdict : verdict = .refines) : o.Permits spec o imp := by
  rw [hverdict] at h
  exact permits_of_clear h

/-- Nothing of the kind a counterexample shows happens where the specification is settled. -/
theorem Permits.not_happens (h : o.Permits spec o imp) (hs : o.Settled spec s)
    (violation : Violation) : ¬ o.Happens spec imp s violation := by
  cases violation with
  | unexpectedStep l => exact fun ⟨himp, hspec⟩ => hspec (h.traces _ himp (settled_iff_concat.1 hs))
  | divergence => exact fun ⟨himp, hspec⟩ => hspec (h.diverges s hs himp)
  | unconstrained => exact h.unconstrained s hs

/-- What is allowed gives rise to no counterexample. -/
theorem Permits.ne_violated {verdict : Verdict} (h : o.Permits spec o imp)
    (hverdict : o.Justifies spec imp verdict) (counterexample : Counterexample) :
    verdict ≠ .violated counterexample := by
  rintro rfl
  obtain ⟨htakes, hc, hhappens, -⟩ := hverdict
  exact h.not_happens (htakes.settled hc) _ hhappens

/-- Chaos is unconstrained, so the trace in the middle does not reach it before `spec` does. -/
theorem Permits.trans (h : o.Permits spec o mid) (h' : o.Permits mid o' imp) :
    o.Permits spec o' imp := by
  have calm : ∀ {s}, o.Settled spec s → ¬ o.Chaotic mid s :=
    fun hs hchaotic => h.unconstrained _ hs (o.unconstrained_of_chaotic hchaotic)
  have settled : ∀ {s}, o.Settled spec s → o.Settled mid s :=
    fun hs p hp => calm fun q hq => hs q (hq.trans hp)
  constructor
  · intro s himp hbefore
    refine h.traces s (h'.traces s himp fun p hp hne => calm fun q hq => ?_) hbefore
    exact hbefore q (hq.trans hp) fun heq => hne (hp.eq_of_length_le (heq ▸ hq.length_le))
  · exact fun s hs himp => h.diverges s hs (h'.diverges s (settled hs) himp)
  · exact fun s hs => h'.unconstrained s (settled hs)

/-! ## Observers that agree -/

/-- Both observers note the same of a trace. -/
structure Alike (o o' : Observer) (t : Trace) : Prop where
  traces : ∀ s, o.HasTrace t s ↔ o'.HasTrace t s
  diverges : ∀ s, o.Diverges t s ↔ o'.Diverges t s
  chaotic : ∀ s, o.Chaotic t s ↔ o'.Chaotic t s
  unconstrained : ∀ s, o.Unconstrained t s ↔ o'.Unconstrained t s

theorem takes_congr (hspec : o.Alike o' spec) (himp : o.Alike o' imp) :
    o.Takes spec imp s ↔ o'.Takes spec imp s := by
  constructor
  · exact fun h => ⟨(himp.traces s).1 h.performed, (hspec.traces s).1 h.allowed,
      fun p hp hne => mt (hspec.chaotic p).2 (h.before p hp hne)⟩
  · exact fun h => ⟨(himp.traces s).2 h.performed, (hspec.traces s).2 h.allowed,
      fun p hp hne => mt (hspec.chaotic p).1 (h.before p hp hne)⟩

theorem happens_congr (hspec : o.Alike o' spec) (himp : o.Alike o' imp) (violation : Violation) :
    o.Happens spec imp s violation ↔ o'.Happens spec imp s violation := by
  cases violation with
  | unexpectedStep l => exact and_congr (himp.traces _) (not_congr (hspec.traces _))
  | divergence => exact and_congr (himp.diverges s) (not_congr (hspec.diverges s))
  | unconstrained => exact himp.unconstrained s

theorem clear_congr (hspec : o.Alike o' spec) (himp : o.Alike o' imp) :
    o.Clear spec imp s ↔ o'.Clear spec imp s :=
  imp_congr (takes_congr hspec himp) (imp_congr (not_congr (hspec.chaotic s))
    (forall_congr' fun violation => not_congr (happens_congr hspec himp violation)))

theorem Justifies.congr (hspec : o.Alike o' spec) (himp : o.Alike o' imp) {verdict : Verdict}
    (h : o.Justifies spec imp verdict) : o'.Justifies spec imp verdict := by
  cases verdict with
  | refines => exact fun s => (clear_congr hspec himp).1 (h s)
  | violated counterexample =>
      obtain ⟨htakes, hc, hhappens, hshorter⟩ := h
      exact ⟨(takes_congr hspec himp).1 htakes, mt (hspec.chaotic _).2 hc,
        (happens_congr hspec himp _).1 hhappens,
        fun s hs => (clear_congr hspec himp).1 (hshorter s hs)⟩
  | inconclusive => trivial

end Observer

/-! ## The paths of a trace -/

namespace View

variable {v : View}

theorem After.split (h : v.After t (s ++ p) u) : ∃ w, v.After t s w ∧ v.After w p u := by
  generalize hr : s ++ p = r at h
  induction h generalizing s with
  | here t =>
      obtain ⟨rfl, rfl⟩ := List.append_eq_nil_iff.1 hr
      exact ⟨t, .here t, .here t⟩
  | @step t _ _ m _ hm h ih =>
      cases s with
      | nil => exact ⟨t, .here t, by rw [List.nil_append] at hr; exact hr ▸ .step hm h⟩
      | cons a s =>
          cases hn : v.noted m with
          | none =>
              rw [hn] at hr
              obtain ⟨w, hw, hp⟩ := ih hr
              have := After.step hm hw
              rw [hn] at this
              exact ⟨w, this, hp⟩
          | some b =>
              rw [hn] at hr
              obtain ⟨rfl, htail⟩ := List.cons.inj hr
              obtain ⟨w, hw, hp⟩ := ih htail
              have := After.step hm hw
              rw [hn] at this
              exact ⟨w, this, hp⟩

theorem After.eq_stop (h : v.After t s u) (hs : Label.tick ∈ s) : u = .stop :=
  (h.tick.resolve_left (not_not.2 hs)).1

theorem Chaotic.unconstrained (h : v.Chaotic t s) : v.Unconstrained t s := by
  obtain ⟨n, h⟩ := chaotic_iff.1 h
  exact unconstrained_iff.2 ⟨n, h.of_mark fun l hl => by rw [show l = .chaos from hl]; trivial⟩

/-- Follows the plain paths of a trace. -/
def observer (v : View) : Observer where
  HasTrace := v.HasTrace
  Diverges := v.Diverges
  Chaotic := v.Chaotic
  Unconstrained := v.Unconstrained
  hasTrace_nil t := ⟨t, .here t⟩
  hasTrace_left := by
    rintro t s p ⟨u, h⟩
    obtain ⟨w, hw, -⟩ := h.split
    exact ⟨w, hw⟩
  hasTrace_of_diverges := fun ⟨u, hu, _⟩ => ⟨u, hu⟩
  hasTrace_of_unconstrained := fun ⟨u, hu, _⟩ => ⟨u, hu⟩
  unconstrained_of_chaotic := Chaotic.unconstrained
  finished := by
    intro t s hs
    refine ⟨?_, ?_, ?_⟩
    · rintro l ⟨u, h⟩
      obtain ⟨w, hw, hl⟩ := h.split
      obtain rfl := hw.eq_stop hs
      cases hl.eq_of_stop.1
    · rintro ⟨u, hu, hd⟩
      obtain rfl := hu.eq_stop hs
      rcases hd with hd | ⟨run, hzero, hrun⟩
      · exact absurd hd (by decide)
      · obtain ⟨m, hm, -⟩ := hrun 0
        rw [hzero] at hm
        simp [moves] at hm
    · rintro ⟨u, hu, hvague⟩
      obtain rfl := hu.eq_stop hs
      exact absurd hvague (by decide)

end View

/-! ## Paths through simplified states -/

theorem Leads.eq_stop {key : ChanRef → ChannelKey} (h : Leads key t s u) (hs : Label.tick ∈ s) :
    u = .stop := by
  have stays : ∀ {t u s}, Leads key t s u → t = .stop → u = .stop := by
    intro t u s h ht
    subst ht
    cases h with
    | here => rfl
    | silent hm => simp [moves] at hm
    | visible hm => simp [moves] at hm
  induction h with
  | here => cases hs
  | silent _ _ ih => exact ih hs
  | @visible t u w l s hm hnext ih =>
      rcases List.mem_cons.1 hs with rfl | hs
      · obtain rfl := View.eq_stop_of_tick hm
        exact stays hnext rfl
      · exact ih hs

/-- Some simplified state can run forever without a visible step. -/
def View.SlidesForever (key : ChanRef → ChannelKey) (t : Trace) : Prop :=
  ∃ p : Trace → Prop, p t ∧ ∀ t, p t → t.diverges = true ∨ ∃ u, View.Slides key t u ∧ p u

theorem View.not_slidesForever_stop {key : ChanRef → ChannelKey} :
    ¬ View.SlidesForever key .stop := by
  rintro ⟨p, hp, hnext⟩
  rcases hnext _ hp with hd | ⟨u, ⟨w, hw, -⟩, -⟩
  · exact absurd hd (by decide)
  · simp [moves] at hw

theorem View.slidesForever_iff {v : View} (ht : t.freeRefs = []) :
    View.SlidesForever v.key t ↔ ¬ v.bare.CalmsDown t := by
  constructor
  · rintro ⟨p, hp, hnext⟩
    exact not_calmsDown_of_slidesForever hnext ht hp
  · intro h
    refine ⟨fun t => t.freeRefs = [] ∧ ¬ v.bare.CalmsDown t, ⟨ht, h⟩, fun t ⟨ht, h⟩ => ?_⟩
    by_cases hd : t.diverges = true
    · exact .inl hd
    · obtain ⟨u, ⟨w, hw, rfl⟩, hu⟩ := exists_slides ht h (Bool.eq_false_iff.2 hd)
      exact .inr ⟨_, ⟨w, hw, rfl⟩, freeRefs_simplify (freeRefs_of_mem_moves ht hw), hu⟩

/-- Follows the paths of a search, on which every state is simplified. -/
def searched (key : ChanRef → ChannelKey) : Observer where
  HasTrace t s := ∃ u, Leads key t.simplify s u
  Diverges t s := ∃ u, Leads key t.simplify s u ∧ View.SlidesForever key u
  Chaotic t s := ∃ u, Leads key t.simplify s u ∧ u.acceptsAnything = true
  Unconstrained t s := ∃ u, Leads key t.simplify s u ∧ u.unconstrained = true
  hasTrace_nil t := ⟨_, .here _⟩
  hasTrace_left := by
    rintro t s p ⟨u, h⟩
    obtain ⟨w, hw, -⟩ := Leads.append_iff.1 h
    exact ⟨w, hw⟩
  hasTrace_of_diverges := fun ⟨u, hu, _⟩ => ⟨u, hu⟩
  hasTrace_of_unconstrained := fun ⟨u, hu, _⟩ => ⟨u, hu⟩
  unconstrained_of_chaotic := by
    rintro t s ⟨u, hu, hc⟩
    obtain ⟨l, hl, hc⟩ := Mark.acceptsAnything_iff.1 hc
    refine ⟨u, hu, Mark.unconstrained_iff.2 ⟨l, hl, ?_⟩⟩
    rw [show l = .chaos from hc]
    trivial
  finished := by
    intro t s hs
    refine ⟨?_, ?_, ?_⟩
    · rintro l ⟨u, h⟩
      obtain ⟨u, u', hu, hm, -⟩ := Leads.concat_iff.1 h
      obtain rfl := hu.eq_stop hs
      simp [moves] at hm
    · rintro ⟨u, hu, hslides⟩
      obtain rfl := hu.eq_stop hs
      exact View.not_slidesForever_stop hslides
    · rintro ⟨u, hu, hvague⟩
      obtain rfl := hu.eq_stop hs
      exact absurd hvague (by decide)

/-- What a search notes of a trace. -/
def Program.searched (program : Program) : Observer :=
  ProcessContracts.searched (ChannelKey.ofRef program)

/-- A search follows a closed trace as it is. -/
theorem alike_searched {program : Program} (ht : t.freeRefs = []) :
    program.searched.Alike program.view.observer t where
  traces _ := View.leads_hasTrace_iff (v := program.view) ht
  chaotic _ := View.leads_chaotic_iff (v := program.view) ht
  unconstrained _ := View.leads_unconstrained_iff (v := program.view) ht
  diverges s := by
    refine Iff.trans (exists_congr fun u => and_congr_right fun hu => ?_)
      (View.leads_diverges_iff (v := program.view) ht)
    exact View.slidesForever_iff (v := program.view) (hu.freeRefs (View.freeRefs_simplify ht))

end ProcessContracts
