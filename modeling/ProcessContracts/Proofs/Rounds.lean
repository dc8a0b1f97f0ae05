import ProcessContracts.Proofs.Allowances
import ProcessContracts.Proofs.Realization

/-!
# Loops with an unknown guard

What such a loop contributes chooses in each round between its body and the next round, and leaves
after the body. So it stands for one round of the body or for none that ever ends, and covers more
rounds only where one of these two does.
-/

namespace ProcessContracts

open Trace Walk

variable {t u : Trace} {binder : Atom}

/-- The trace a number of times in a row. -/
def Trace.times (t : Trace) (n : Nat) : Trace := collapse .seq (List.replicate n t)

namespace View

variable {v : View}

theorem spins_choice (ht : t.freeRefs = []) :
    v.Spins (.fix binder (.comp .ndet [t, .ref binder.id])) := by
  refine ⟨binder, _, rfl, .of_forall fun a => ⟨1, ?_⟩⟩
  rw [(isRound_again .ndet).put ht]
  exact (sees_ndet (List.cons_ne_nil _ _)).2 (.inr ⟨0, rfl, .atom a,
    List.mem_cons_of_mem _ List.mem_cons_self, .active (List.mem_singleton_self _) rfl⟩)

theorem sees_choice {k : Sight} {n : Nat} {s : List Label} (ht : t.freeRefs = []) :
    v.Sees k (.fix binder (.comp .ndet [t, .ref binder.id])) n s ↔
      (n = 0 ∧ s = [] ∧ (k = .going ∨ ∃ mark, k = .active mark ∧
        mark.holds (.fix binder (.comp .ndet [t, .ref binder.id])))) ∨
      (k = .going ∧ n = 1 ∧ s = []) ∨ ∃ m, n = m + 2 ∧ (v.Sees k t m s ∨
        v.Sees k (.fix binder (.comp .ndet [t, .ref binder.id])) m s) := by
  rw [sees_fix, (isRound_again .ndet).put ht]
  simp only [sees_ndet (List.cons_ne_nil t [_]), List.mem_cons, List.not_mem_nil, or_false,
    exists_eq_or_imp, exists_eq_left]
  constructor
  · rintro (h | ⟨n', rfl, ⟨rfl, rfl, rfl⟩ | ⟨m, rfl, h⟩⟩)
    · exact .inl h
    · exact .inr (.inl ⟨rfl, rfl, rfl⟩)
    · exact .inr (.inr ⟨m, rfl, h⟩)
  · rintro (h | ⟨rfl, rfl, rfl⟩ | ⟨m, rfl, h⟩)
    · exact .inl h
    · exact .inr ⟨0, rfl, .inl ⟨rfl, rfl, rfl⟩⟩
    · exact .inr ⟨m + 1, rfl, .inr ⟨m, rfl, h⟩⟩

theorem choice_shows_once (ht : t.freeRefs = []) :
    v.Shows (.fix binder (.comp .ndet [t, .ref binder.id])) (.comp .ndet [t, .div]) := by
  intro k hk n s hsees
  rcases (sees_ndet (List.cons_ne_nil _ _)).1 hsees with ⟨rfl, -, rfl⟩ | ⟨m, -, c, hc, hseen⟩
  · exact ⟨0, .going _⟩
  · rcases List.mem_cons.1 hc with rfl | hc
    · exact ⟨m + 2, (sees_choice ht).2 (.inr (.inr ⟨m, rfl, .inl hseen⟩))⟩
    · rw [List.mem_singleton.1 hc] at hseen
      obtain ⟨rfl, rfl, rfl | rfl⟩ := (sees_div hk).1 hseen
      · exact ⟨0, .going _⟩
      · exact ⟨0, .active (List.mem_singleton_self _) (.inr (spins_choice ht))⟩

theorem once_shows_choice (ht : t.freeRefs = []) :
    v.Shows (.comp .ndet [t, .div]) (.fix binder (.comp .ndet [t, .ref binder.id])) := by
  intro k hk n s hsees
  -- The next round is seen after fewer steps, and shows no more than the choice.
  induction n using Nat.strongRecOn with
  | ind n ih =>
      have halternative : ∀ {c m}, c ∈ [t, .div] → v.bare.Sees k c m s →
          ∃ m, v.bare.Sees k (.comp .ndet [t, .div]) m s := fun hc hseen =>
        shows_alternative hc hk hseen
      rcases (sees_choice ht).1 hsees with ⟨-, rfl, rfl | ⟨mark, rfl, hp⟩⟩ | ⟨rfl, -, rfl⟩ |
          ⟨m, rfl, hseen | hseen⟩
      · exact ⟨0, .going _⟩
      · refine halternative (m := 0) (List.mem_cons_of_mem _ List.mem_cons_self)
          ((sees_div hk).2 ?_)
        exact ⟨rfl, rfl, .inr (congrArg _ (hk.eq_endless hp nofun))⟩
      · exact ⟨0, .going _⟩
      · exact halternative List.mem_cons_self hseen
      · exact ih m (by omega) hseen

/-- Choosing again and again between the body and the next round is choosing once between the body
and silence. -/
theorem agree_choice (ht : t.freeRefs = []) :
    v.bare.Agree (.fix binder (.comp .ndet [t, .ref binder.id])) (.comp .ndet [t, .div]) := by
  refine (choice_shows_once ht).agree (once_shows_choice ht) (fragmentary_closed.again ht) ?_
  exact componentwise_closed.comp.2 (by simp [ht, freeRefs])

theorem covers_once (ht : t.Complete) (h : v.Covers t u) : v.Covers (.comp .ndet [t, .div]) u :=
  .pick (List.forall_mem_cons.2 ⟨ht, List.forall_mem_singleton.2 fragmentary_complete.div⟩)
    List.mem_cons_self h

theorem covers_skip_times (n : Nat) : v.Covers .skip (Trace.skip.times n) := by
  induction n with
  | zero => exact .refl fragmentary_complete.skip
  | succ n ih =>
      have hcondenses : v.bare.Condenses (collapse .seq ([] ++ .skip :: List.replicate n .skip))
          (collapse .seq ([] ++ List.replicate n .skip)) := condenses_seq_skip
      refine ih.trans (.of_alike_symm (fragmentary_complete.collapse fun c hc => ?_) ih.right
        hcondenses.alike)
      exact List.eq_of_mem_replicate hc ▸ fragmentary_complete.skip

end View

section Loops

variable {setting : Setting} {depth : Nat} {node body : NodeId} {guard : ExprId} {s s' : WalkState}

/-- What a loop with an unknown guard contributes. -/
theorem walk_unknown_loop (hnode : setting.program.HasNode node (.loop guard body))
    (hguard : setting.program.constantTruth guard = .ok none) (hopen : Receives s.buckets)
    (hwalk : (walkWithin setting (depth + 1) node).run s = .ok () s') :
    ∃ fragment account mid binder, YieldsWithin setting depth body s.emptied fragment account mid ∧
      s'.buckets = contribute
        [.fix binder (.comp .ndet [fragment.getD .skip, .ref binder.id])] s.buckets := by
  obtain ⟨fragment, account, hrule, hbuckets⟩ :=
    ((realizes_walkWithin (depth + 1) node).run_iff hopen).1 hwalk
  generalize s.emptied = first, s'.emptied = last at hrule
  cases hrule with
  | planned hnode' hplan hseries hmakes =>
      cases hnode.unique hnode'
      cases Construct.planned_of_plan hplan with | loop htruth =>
      cases hguard.symm.trans htruth
      obtain ⟨part, here, mid, rest, account', hpart, hrest, rfl, -⟩ := series_cons_iff.1 hseries
      obtain ⟨rfl, -, rfl⟩ := series_nil_iff.1 hrest
      exact ⟨part, here, _, _, hpart, by rw [hbuckets, hmakes.fragment]; rfl⟩
  | folded hcall | builtin hcall | supplied hcall | unresolved hcall =>
      obtain ⟨args, hnode', -⟩ := hcall
      cases hnode.unique hnode'

/-- A loop with an unknown guard stands for one round of its body or for silence. So it covers the
rounds that one of these two covers: a single one, and any number if the body contributes
nothing. -/
theorem unknown_loop_leaves_once (hnode : setting.program.HasNode node (.loop guard body))
    (hguard : setting.program.constantTruth guard = .ok none) (hopen : Receives s.buckets)
    (hwalk : (walkWithin setting (depth + 1) node).run s = .ok () s') :
    ∃ fragment account mid t loop, YieldsWithin setting depth body s.emptied fragment account mid ∧
      s'.buckets = contribute [loop] s.buckets ∧ t = fragment.getD .skip ∧
      (∃ binder, loop = .fix binder (.comp .ndet [t, .ref binder.id])) ∧ (t.isClosed = true →
        setting.program.view.Agree loop (.comp .ndet [t, .div]) ∧
        (∀ n, setting.program.view.Permits (.comp .ndet [t, .div]) setting.program.view
          (t.times n) → Unrefuted setting.program loop (t.times n)) ∧
        (t.Defined → Unrefuted setting.program loop t) ∧
        (fragment = none → ∀ n, Unrefuted setting.program loop (t.times n))) := by
  obtain ⟨fragment, account, mid, binder, hbody, hbuckets⟩ :=
    walk_unknown_loop hnode hguard hopen hwalk
  refine ⟨fragment, account, mid, _, _, hbody, hbuckets, rfl, ⟨binder, rfl⟩, fun hclosed => ?_⟩
  generalize ht : fragment.getD .skip = t at hclosed ⊢
  rw [isClosed_iff] at hclosed
  have htimes : ∀ n, (t.times n).freeRefs = [] := fun n =>
    componentwise_closed.collapse fun c hc => List.eq_of_mem_replicate hc ▸ hclosed
  have honce : (Trace.comp .ndet [t, .div]).freeRefs = [] :=
    componentwise_closed.comp.2 (by simp [hclosed, freeRefs])
  have hpermitted : ∀ n, setting.program.view.Permits (.comp .ndet [t, .div])
      setting.program.view (t.times n) → Unrefuted setting.program
        (.fix binder (.comp .ndet [t, .ref binder.id])) (t.times n) := fun n hpermits =>
    unrefuted_of_permits (isClosed_iff.2 (fragmentary_closed.again hclosed))
      (isClosed_iff.2 (htimes n))
      ((View.choice_shows_once (v := setting.program.view) hclosed).permits
        (fragmentary_closed.again hclosed) honce hpermits)
  have hcovered : ∀ n, setting.program.view.Covers t (t.times n) → t.Complete →
      Unrefuted setting.program (.fix binder (.comp .ndet [t, .ref binder.id])) (t.times n) :=
    fun n h ht => hpermitted n (View.covers_once ht h).permits
  refine ⟨View.agree_choice (v := setting.program.view) hclosed, hpermitted, ?_, ?_⟩
  · exact fun hdefined => hcovered 1 (.refl ⟨hdefined, hclosed⟩) ⟨hdefined, hclosed⟩
  · rintro rfl n
    obtain rfl : Trace.skip = t := ht
    exact hcovered n (View.covers_skip_times n) fragmentary_complete.skip

end Loops

/-- A process that reports on a channel for as long as a guard holds that is known at run time. -/
def reporter : Program where
  name := "reporter"
  names := #[⟨"report", .channel, {}⟩]
  exprs := #[⟨.runtime, {}⟩, ⟨.name ⟨0⟩, {}⟩]
  nodes := #[⟨.loop ⟨0⟩ ⟨1⟩, {}⟩, ⟨.output ⟨1⟩, {}⟩]

def reports : Trace := .event .output ⟨⟨1⟩, none⟩

def reportLoop : Trace := .fix ⟨⟨0⟩, .loop ⟨0⟩⟩ (.comp .ndet [reports, .ref ⟨0⟩])

/-- Inside of the process, before and after its walk. -/
def beforeReports : WalkState := { scopes := [{ owner := .process ⟨0⟩, buckets := [{}] }] }

def afterReports : WalkState :=
  { supply := ⟨1⟩, scopes := [{ owner := .process ⟨0⟩, buckets := [⟨[reportLoop]⟩] }] }

theorem reporter_reports_once : reporter.view.Agree reportLoop (.comp .ndet [reports, .div]) ∧
    Unrefuted reporter reportLoop reports := by
  have hnode : reporter.HasNode ⟨0⟩ (.loop ⟨0⟩ ⟨1⟩) := ⟨_, rfl, rfl⟩
  have hwalk : (walkWithin ⟨reporter, {}⟩ 2 ⟨0⟩).run beforeReports = .ok () afterReports := by cbv
  obtain ⟨fragment, account, mid, t, loop, -, hbuckets, -, ⟨binder, rfl⟩, h⟩ :=
    unknown_loop_leaves_once hnode (by cbv) ⟨{}, [], [], rfl⟩ hwalk
  have hloop : reportLoop = .fix binder (.comp .ndet [t, .ref binder.id]) := by
    simpa [beforeReports, afterReports, WalkState.buckets, contribute] using hbuckets
  obtain ⟨rfl, hround⟩ := Trace.fix.inj hloop
  obtain rfl : reports = t := by simpa using hround
  obtain ⟨hagree, -, honce, -⟩ := h (by decide)
  exact ⟨hagree, honce ⟨by simp [reports, leaves], by simp [reports, leaves]⟩⟩

/-- The process may leave before the first round and after the second one; its trace may not. -/
theorem reportLoop_refuted : reporter.constantTruth ⟨0⟩ = .ok none ∧
    (check { program := reporter } (.process ⟨0⟩) {}).1.map Outcome.traces =
      .ok (.single reportLoop) ∧
    ¬ Unrefuted reporter reportLoop (reports.times 0) ∧
    ¬ Unrefuted reporter reportLoop (reports.times 2) := by
  have hnone : refines reporter reportLoop .skip 8 =
      .ok ⟨.violated ⟨[], .unexpectedStep .tick⟩, [], 5⟩ := by cbv
  have htwice : refines reporter reportLoop (.comp .seq [reports, reports]) 8 =
      .ok ⟨.violated ⟨[.event .output ⟨.name ⟨0⟩, none⟩],
        .unexpectedStep (.event .output ⟨.name ⟨0⟩, none⟩)⟩, [], 6⟩ := by cbv
  exact ⟨by cbv, by cbv, fun h => h 8 _ hnone _ rfl, fun h => h 8 _ htwice _ rfl⟩

end ProcessContracts
