import ProcessContracts.Proofs.AbandonedWalks
import ProcessContracts.Proofs.ContractSoundness
import ProcessContracts.Proofs.UnitRuns

/-!
# Reports of a procedure

A procedure that is in the store is reported with what callers see of its trace, and any other one
with the trace itself. Where a procedure and all that it leads to are on no cycle of calls with
another one, both come from one trace, whatever was checked before.
-/

namespace ProcessContracts

open Walk WalkState

/-- The sessions of one compilation: units are checked under the same options, going on after those
that fail. -/
inductive Session.Under (setting : Setting) : Session → Prop
  | start : Under setting {}
  | checkUnit {session : Session} (unit : ProgramUnit) : Under setting session →
      Under setting (session.checkUnit setting unit).2

section Sessions

variable {setting : Setting} {inside : DeclId → Bool} {unit : ProgramUnit} {session last : Session}

theorem Session.WellScoped.closed (h : session.WellScoped) : session.Closed :=
  fun callee traces hget t ht => List.eq_nil_iff_forall_not_mem.2 fun _ hid =>
    List.not_mem_nil ((h callee traces hget t ht).scoped.mem_bound hid)

theorem Session.WellScoped.sober (h : session.WellScoped) : Sober setting session.begin :=
  ⟨fun _ hmem => (nomatch hmem), h.holds setting⟩

/-- The nodes of a process are walked in a scope of their own. -/
theorem Session.going_process (h : session.WellScoped)
    (hstocked : Stocked setting inside session.begin) (node : NodeId) :
    Going setting inside (.process node) (session.begin.enter { owner := .process node }) where
  ready hwithin := by
    have hready := @ready_process session.begin setting.program rfl h.closed node
    exact ⟨hready.innermost, hready.linked, hready.nodup, hwithin, hready.closed⟩
  sober := ⟨List.forall_mem_cons.2 ⟨rfl, fun _ hmem => nomatch hmem⟩,
    (scoping setting).enter ⟨rfl, rfl, .inl ⟨node, rfl, rfl⟩⟩ h.sober.holds⟩
  stocked := hstocked.keep rfl rfl

variable (hregion : setting.program.Region inside)
include hregion

theorem Session.leaves_checkUnit (h : session.WellScoped)
    (hstocked : Stocked setting inside session.begin)
    (hfresh : unit.decl?.bind session.store.get? = none) :
    Leaves setting inside session.begin (Walk.checkUnit setting unit)
      fun _ => Stocked setting inside := by
  have hcareful := @careful_walkWithin setting inside hregion (depthBound setting.program)
  cases unit with
  | proc callee =>
      have henter : Enterable setting.program callee session.begin :=
        enterable_of_no_scopes rfl h.closed
      have hnew : session.begin.store.get? callee = none := hfresh
      have hchecked := @leaves_checkDecl setting inside callee session.begin _ hregion hcareful
        none henter hnew (fun _ _ _ hnone => nomatch hnone) h.sober hstocked
      exact hchecked.bind fun _ mid hmid => hmid
  | process node =>
      unfold Walk.checkUnit checkProcess
      dsimp only
      split
      · exact leaves_of_quiet hstocked (quiet_throw _)
      · have hpush : Leaves setting inside session.begin (pushScope { owner := .process node })
            fun _ s' => s' = session.begin.enter { owner := .process node } := rfl
        refine hpush.bind fun _ mid heq => ?_
        subst heq
        refine leaves_part_bind hregion hcareful (session.going_process h hstocked node)
          (List.cons_ne_nil _ _) _ _ Program.Root.process.within fun fragment => ?_
        exact modest_popScope.bind fun scope =>
          ((quiet_addDiagnostics _).bind fun _ => quiet_pure _).modest

/-- A check leaves stocked what it finds stocked, whether it succeeds or not. -/
theorem Session.stocked_check (h : session.WellScoped)
    (hstocked : Stocked setting inside session.begin)
    (hfresh : unit.decl?.bind session.store.get? = none) :
    Stocked setting inside (check setting unit session).2.begin := by
  have hleaves := session.leaves_checkUnit hregion h hstocked hfresh
  unfold check
  cases hrun : (Walk.checkUnit setting unit).run session.begin with
  | ok traces state => exact (ComesTo.of_ok hleaves hrun).keep rfl rfl
  | error abort state => exact (ComesTo.of_error hleaves hrun).keep rfl rfl

theorem Session.Under.stocked (h : session.Under setting) :
    session.WellScoped ∧ Stocked setting inside session.begin := by
  induction h with
  | start => exact ⟨fun _ _ hget => (nomatch hget), [], .nil, List.nodup_nil, fun _ h => nomatch h⟩
  | @checkUnit session unit _ ih =>
      obtain ⟨hscoped, hstocked⟩ := ih
      unfold Session.checkUnit
      split
      case h_1 => exact ⟨hscoped, hstocked⟩
      case h_2 hfresh => exact ⟨hscoped.check, stocked_check hregion hscoped hstocked hfresh⟩

end Sessions

/-! ## Traces of procedures -/

namespace Walk

section Interfaces

variable {setting : Setting} {store : TraceStore} {unit : ProgramUnit} {visits : LocalTable}
  {node : NodeId} {nodes : List NodeId} {scope last own own' : Scope} {fragment : Option Trace}
  {fragments : List (Option Trace)} {share : Share} {depth : Nat}

theorem LocalSeries.interface (hvisits : ∀ node scope fragment share last,
      visits node scope fragment share last → last.interface = scope.interface)
    (h : LocalSeries visits nodes scope fragments share last) :
    last.interface = scope.interface := by
  induction h with
  | nil => rfl
  | cons hnode _ ih => exact ih.trans (hvisits _ _ _ _ _ hnode)

/-- Walking leaves the interface of the procedure alone. -/
theorem LocalWithin.interface
    (h : LocalWithin setting store unit depth node scope fragment share last) :
    last.interface = scope.interface := by
  induction depth generalizing node scope fragment share last with
  | zero => exact h.elim
  | succ depth ih =>
      cases h with
      | planned _ _ _ hseries => exact hseries.interface fun _ _ _ _ _ hvisit => ih hvisit
      | folded _ _ _ hmarked hatom =>
          have hown := congrArg Scope.interface (marked_eq_ok hmarked).1
          obtain ⟨rfl, -⟩ := recursionAtomFrom_eq hatom
          refine hown.trans ?_
          split <;> rfl
      | builtin | supplied | unresolved => rfl

theorem project_congr {interface names : List NameId}
    (h : ∀ name, name ∈ interface ↔ name ∈ names) (t : Trace) :
    project setting interface t = project setting names t := by
  have hsame : ChanRef.isAmong setting.program interface = ChanRef.isAmong setting.program names :=
    funext (ChanRef.isAmong_congr h)
  rw [project, project, hsame]

/-- What callers see of a procedure depends on its visible channel formals. -/
theorem project_of_local {callee : DeclId} {decl : Decl} {entry : Option Substitution}
    (h : LocalWithin setting store unit depth node (.opened callee decl entry) fragment share last)
    (t : Trace) : project setting last.interface t =
      project setting ((decl.visibleParams.filter (·.isChannel)).map (·.name)) t := by
  refine project_congr (fun name => ?_) t
  rw [h.interface, Scope.opened, mem_foldl_addInterface]
  simp

end Interfaces

/-- The trace is that of a walk of the procedure for the store, before projection. -/
inductive Walked (setting : Setting) (inside : DeclId → Bool) (session : Session) (callee : DeclId)
    (decl : Decl) (t : Trace) : Prop
  | intro {records body depth entry fragment share rest scope} :
      Stock setting inside records session.begin → (callee, Share.add share rest) ∈ records →
      decl.body = some body →
      LocalWithin setting (session.store.within inside) (.proc callee) depth body
        (.opened callee decl entry) fragment share scope →
      t = whole setting scope fragment → Walked setting inside session callee decl t

section Walked

variable {setting : Setting} {inside : DeclId → Bool} {session session' last : Session}
  {callee : DeclId} {decl : Decl} {body : NodeId} {t t' : Trace}

/-- A procedure has the same trace in all sessions. -/
theorem Walked.twin (h : Walked setting inside session callee decl t)
    (h' : Walked setting inside session' callee decl t') :
    ∃ f : Shuffle, t' = t.renumber f.perm := by
  obtain @⟨records, body, _, _, _, share, _, _, hstock, hmem, hbody, hlocal, rfl⟩ := h
  obtain @⟨records', _, _, _, _, share', _, _, hstock', hmem', hbody', hlocal', rfl⟩ := h'
  cases hbody.symm.trans hbody'
  obtain ⟨f, hmatch, -⟩ := @Records.exists_match records records' Unit [] []
    hstock.recorded.keys_nodup hstock'.recorded.keys_nodup List.nodup_nil List.nodup_nil
    (by simpa using hstock.nodup) (by simpa using hstock'.nodup)
  have hsame := (hstock.recorded.twin hstock'.recorded hmatch).1
  obtain ⟨rfl, -, hscope⟩ := LocalWithin.twin hsame _ _ _ hlocal hlocal'
    (Scope.twin_opened callee decl _ _) (hmatch callee _ _ hmem hmem').left
  exact ⟨f, hscope.whole f.perm.injective _⟩

/-- What is stored of a procedure with a body is what callers see of its trace. -/
theorem exists_walked_of_stored (hstocked : Stocked setting inside session.begin)
    (hcallee : inside callee = true) (hdecl : setting.program.decl callee = .ok decl)
    (hbody : decl.body = some body) {traces : TraceSet}
    (hget : session.store.get? callee = some traces) :
    ∃ t u, Walked setting inside session callee decl t ∧
      project setting ((decl.visibleParams.filter (·.isChannel)).map (·.name)) t = .ok u ∧
      traces = .single u := by
  obtain ⟨records, hstock⟩ := hstocked
  have hget' := (Ledger.get?_within hcallee).trans hget
  obtain ⟨share, hmem⟩ := hstock.recorded.exists_share hget'
  obtain ⟨before, u, hbefore, hfound, hattaches⟩ := hstock.recorded.attaches hmem
  obtain rfl := Option.some.inj (hget'.symm.trans hfound)
  cases hattaches with
  | declared hdecl' hbody' =>
      cases hdecl.symm.trans hdecl'
      cases hbody.symm.trans hbody'
  | walked hdecl' hbody' hlocal hproject _ _ _ =>
      cases hdecl.symm.trans hdecl'
      rw [project_of_local hlocal] at hproject
      exact ⟨_, u, .intro hstock hmem hbody' (hlocal.later hbefore) rfl, hproject, rfl⟩

/-- A procedure that is checked on its own answers with its trace, and is in the store then. -/
theorem exists_walked_of_check (hregion : setting.program.Region inside) (h : session.WellScoped)
    (hstocked : Stocked setting inside session.begin) (hcallee : inside callee = true)
    (hdecl : setting.program.decl callee = .ok decl) (hbody : decl.body = some body)
    (hfresh : session.store.get? callee = none) {outcome : Outcome}
    (hcheck : check setting (.proc callee) session = (.ok outcome, last)) :
    ∃ t, Walked setting inside last callee decl t ∧ outcome.traces = .single t := by
  obtain ⟨records, hstock⟩ := hstocked
  obtain ⟨account, state, hyields, -, rfl⟩ := check_eq_ok_iff.1 hcheck
  have henter : Enterable setting.program callee session.begin :=
    enterable_of_no_scopes rfl h.closed
  have hnew : session.begin.store.get? callee = none := hfresh
  generalize outcome.traces = computed at hyields
  cases hyields with
  | @proc _ _ traces _ _ hcompletes =>
  have hkept := @kept_yieldsWithin setting inside hregion (depthBound setting.program)
  have hbooks := books_completes (books_yieldsWithin setting _) (regular_yieldsWithin setting _)
    henter hnew hcompletes
  have hrecorded := (kept_completes hkept hregion hcompletes henter hnew hdecl
    (fun _ hnone => nomatch hnone) h.sober hstock.recorded).1
  have hlast := hstock.after hbooks hrecorded
  cases hcompletes with
  | undeclared hdecl' hbody' | declared hdecl' hbody' | unbound hdecl' hbody' =>
      cases hdecl.symm.trans hdecl'
      cases hbody.symm.trans hbody'
  | dropped hdecl' hbody' hvisit hscopes hproject hopen =>
      exact absurd (entangled_of_dropped (regular_yieldsWithin setting _) henter hdecl' hbody'
        hvisit hscopes hproject hopen) (hregion.untangled hcallee)
  | @attached _ _ fragment inner scope outer mid projected judged noted hdecl' hbody' hvisit hscopes
      hproject hclosed hverdict =>
      cases hdecl.symm.trans hdecl'
      have hready := henter.ready hdecl hbody' none
      obtain ⟨own, hscopes', hlocal⟩ := (hkept hvisit hready
        (h.sober.enter henter hdecl fun _ hnone => nomatch hnone) hstock.recorded).2
        (hregion.includes hcallee) rfl
      obtain ⟨rfl, rfl⟩ := List.cons.inj (hscopes.symm.trans hscopes')
      have hstays := staysIn_insert (fresh_of_visit hready hnew hvisit) (.single projected)
      have hmem : (callee, inner.own.add ⟨mid.supply.upTo noted.supply, judged.diagnostics⟩) ∈
          records ++ Records.within inside (inner.attached ++ [(callee, _)]) :=
        List.mem_append_right _ (List.mem_filter.2
          ⟨List.mem_append_right _ (List.mem_singleton_self _), hcallee⟩)
      exact ⟨_, .intro ⟨hlast.recorded, hlast.nodup, hlast.minted⟩ hmem hbody'
        (hlocal.later (staysIn_within hstays)) rfl, rfl⟩

end Walked

end Walk

section Reports

variable {setting : Setting} {inside : DeclId → Bool} {callee : DeclId} {decl : Decl}
  {body : NodeId} {session : Session} {report : UnitReport}

/-- A report of a procedure tells its trace, or what callers see of it. -/
theorem exists_walked_of_report (hregion : setting.program.Region inside)
    (hcallee : inside callee = true) (hdecl : setting.program.decl callee = .ok decl)
    (hbody : decl.body = some body) (hunder : session.Under setting)
    (h : (session.checkUnit setting (.proc callee)).1 = .ok report) :
    ∃ last t u, Walked setting inside last callee decl t ∧ report.traceSet = .single u ∧
      if report.checkedOnDemand then
        project setting ((decl.visibleParams.filter (·.isChannel)).map (·.name)) t = .ok u
      else u = t := by
  obtain ⟨hscoped, hstocked⟩ := hunder.stocked hregion
  rcases cases_of_checkUnit (Prod.ext h rfl) with ⟨traces, hstored, hreport, -⟩ |
    ⟨hfresh, outcome, hcheck, hreport⟩
  · obtain ⟨texts, -, hreport⟩ := exists_texts_of_report hreport
    obtain ⟨t, u, hwalked, hproject, rfl⟩ :=
      exists_walked_of_stored hstocked hcallee hdecl hbody hstored
    rw [hreport]
    exact ⟨session, t, u, hwalked, rfl, by rwa [if_pos rfl]⟩
  · obtain ⟨texts, -, hreport⟩ := exists_texts_of_report hreport
    obtain ⟨t, hwalked, hcomputed⟩ :=
      exists_walked_of_check hregion hscoped hstocked hcallee hdecl hbody hfresh hcheck
    rw [hreport]
    exact ⟨_, t, t, hwalked, hcomputed, by rw [if_neg Bool.false_ne_true]⟩

open Classical in
/-- The other procedure is the same one, or calls lead to it. -/
noncomputable def Program.alongside (program : Program) (callee other : DeclId) : Bool :=
  decide (other = callee ∨ program.Leads (.proc callee) other)

theorem Program.alongside_iff {program : Program} {other : DeclId} :
    program.alongside callee other = true ↔
      other = callee ∨ program.Leads (.proc callee) other := by
  classical exact decide_eq_true_iff

theorem Program.region_alongside {program : Program} (hfree : ∀ other, other = callee ∨
    program.Leads (.proc callee) other → ¬ program.Entangled other) :
    program.Region (program.alongside callee) where
  calls := fun {caller other} hcaller hcalls => by
    refine alongside_iff.2 (.inr ?_)
    rcases alongside_iff.1 hcaller with rfl | hleads
    · exact hcalls.leads
    · exact hleads.trans hcalls.leads
  untangled := fun {other} hother => hfree other (alongside_iff.1 hother)

/-- A procedure is reported with one trace, up to a permutation of the atoms: with what callers see
of it if it was checked for an earlier unit, and before projection if it was not. It does not
matter which units were checked before, nor whether they failed. -/
theorem report_of_procedure (hdecl : setting.program.decl callee = .ok decl)
    (hbody : decl.body.isSome = true)
    (hfree : ∀ other, other = callee ∨ setting.program.Leads (.proc callee) other →
      ¬ setting.program.Entangled other) :
    ∃ t, ∀ session, Session.Under setting session → ∀ report,
      (session.checkUnit setting (.proc callee)).1 = .ok report →
      ∃ (π : Equiv.Perm AtomId) (u : Trace), report.traceSet = .single (u.renumber π) ∧
        if report.checkedOnDemand then
          project setting ((decl.visibleParams.filter (·.isChannel)).map (·.name)) t = .ok u
        else u = t := by
  obtain ⟨body, hbody⟩ := Option.isSome_iff_exists.1 hbody
  have hregion := Program.region_alongside hfree
  have hcallee : setting.program.alongside callee callee = true :=
    Program.alongside_iff.2 (.inl rfl)
  by_cases hsome : ∃ session, Session.Under setting session ∧ ∃ report,
    (session.checkUnit setting (.proc callee)).1 = .ok report
  case neg =>
    exact ⟨.skip, fun session hunder report hreport =>
      absurd ⟨session, hunder, report, hreport⟩ hsome⟩
  obtain ⟨first, hfirst, report, hreport⟩ := hsome
  obtain ⟨_, t, _, ht, -⟩ := exists_walked_of_report hregion hcallee hdecl hbody hfirst hreport
  refine ⟨t, fun session hunder report hreport => ?_⟩
  obtain ⟨_, t', u, ht', htraces, hu⟩ :=
    exists_walked_of_report hregion hcallee hdecl hbody hunder hreport
  obtain ⟨f, rfl⟩ := ht.twin ht'
  cases hdemand : report.checkedOnDemand with
  | false =>
      rw [hdemand, if_neg Bool.false_ne_true] at hu
      exact ⟨f.perm, t, htraces.trans (congrArg TraceSet.single hu), rfl⟩
  | true =>
      rw [hdemand, if_pos rfl, project_renumber f.perm.injective] at hu
      cases hproject : project setting ((decl.visibleParams.filter (·.isChannel)).map (·.name)) t
        with
      | error fault =>
          rw [hproject] at hu
          cases hu
      | ok seen =>
          rw [hproject] at hu
          obtain rfl := Except.ok.inj hu
          exact ⟨f.perm, seen, htraces, rfl⟩

end Reports

/-! ## Procedures reported otherwise -/

/-- The procedure has a body, and once the unit has been checked it is reported from the store with
another trace set than before, whatever numbers the atoms are given. -/
def Setting.ReportsOtherwise (setting : Setting) (unit : ProgramUnit) (callee : DeclId) : Prop :=
  (∃ decl, setting.program.decl callee = .ok decl ∧ decl.body.isSome = true) ∧
    ∃ first again, (Session.checkUnit setting (.proc callee) {}).1 = .ok first ∧
      ((Session.checkUnit setting unit {}).2.checkUnit setting (.proc callee)).1 = .ok again ∧
      first.checkedOnDemand = false ∧ again.checkedOnDemand = true ∧
      ∀ f, again.traceSet ≠ first.traceSet.renumber f

/-- What a report tells of a unit, apart from texts and diagnostics. -/
def UnitReport.told (report : UnitReport) : TraceSet × Bool :=
  (report.traceSet, report.checkedOnDemand)

theorem exists_report_of_told {answer : Except Abort UnitReport} {traces : TraceSet}
    {checkedOnDemand : Bool} (h : answer.map UnitReport.told = .ok (traces, checkedOnDemand)) :
    ∃ report, answer = .ok report ∧ report.traceSet = traces ∧
      report.checkedOnDemand = checkedOnDemand := by
  cases answer with
  | error => cases h
  | ok report =>
      obtain ⟨htraces, hdemand⟩ := Prod.mk.inj (Except.ok.inj h)
      exact ⟨report, rfl, htraces, hdemand⟩

/-- A procedure that hums, one that opens with a channel of its own and then hums, two that answer
each other, and one that starts them over. -/
def recital : Program where
  name := "recital"
  names := #[⟨"c", .param ⟨0⟩ 0 false, {}⟩, ⟨"c", .param ⟨1⟩ 0 false, {}⟩, ⟨"ready", .channel, {}⟩,
    ⟨"cue", .channel, {}⟩, ⟨"reply", .channel, {}⟩, ⟨"stage", .channel, {}⟩]
  exprs := #[⟨.name ⟨0⟩, {}⟩, ⟨.name ⟨1⟩, {}⟩, ⟨.name ⟨2⟩, {}⟩, ⟨.name ⟨3⟩, {}⟩, ⟨.name ⟨4⟩, {}⟩,
    ⟨.name ⟨5⟩, {}⟩]
  nodes := #[⟨.compose .seq [⟨1⟩, ⟨2⟩], {}⟩, ⟨.output ⟨0⟩, {}⟩, ⟨.call ⟨0⟩ [⟨⟨0⟩, false⟩], {}⟩,
    ⟨.block [⟨2⟩] ⟨4⟩, {}⟩, ⟨.compose .seq [⟨5⟩, ⟨6⟩], {}⟩, ⟨.output ⟨2⟩, {}⟩,
    ⟨.call ⟨0⟩ [⟨⟨1⟩, false⟩], {}⟩,
    ⟨.compose .seq [⟨8⟩, ⟨9⟩], {}⟩, ⟨.output ⟨3⟩, {}⟩, ⟨.call ⟨3⟩ [], {}⟩,
    ⟨.compose .seq [⟨11⟩, ⟨12⟩], {}⟩, ⟨.output ⟨4⟩, {}⟩, ⟨.call ⟨2⟩ [], {}⟩,
    ⟨.call ⟨2⟩ [], {}⟩,
    ⟨.compose .seq [⟨15⟩, ⟨16⟩, ⟨17⟩], {}⟩, ⟨.call ⟨3⟩ [], {}⟩, ⟨.call ⟨4⟩ [], {}⟩,
    ⟨.call ⟨1⟩ [⟨⟨5⟩, false⟩], {}⟩]
  decls := #[{ name := "hum", params := [⟨⟨0⟩, true, false⟩], body := some ⟨0⟩ },
    { name := "open", params := [⟨⟨1⟩, true, false⟩], body := some ⟨3⟩ },
    { name := "lead", body := some ⟨7⟩ },
    { name := "answer", body := some ⟨10⟩ },
    { name := "encore", body := some ⟨13⟩ }]

namespace Recital

theorem roots {caller : DeclId} {root : NodeId} (hroot : recital.Root (.proc caller) root) :
    root.index < 14 ∧ (caller.index < 2 → root.index < 7) := by
  cases hroot with
  | proc hdecl hbody =>
      match caller with
      | ⟨0⟩ | ⟨1⟩ | ⟨2⟩ | ⟨3⟩ | ⟨4⟩ =>
          cases hdecl
          cases hbody
          decide
      | ⟨_ + 5⟩ => cases hdecl

theorem calls_hum {caller callee : DeclId} (hcaller : caller.index < 2)
    (hcalls : recital.Calls (.proc caller) callee) : callee.index = 0 := by
  obtain ⟨i, hi, written, hentry, hmem⟩ := hcalls.exists_written
    (fun root hroot => (roots hroot).2 hcaller) (by decide)
  have hcallees : ∀ i < 7, ∀ written ∈ recital.nodes[i]?, ∀ id ∈ written.value.callees,
      id.index = 0 := by decide
  exact hcallees i hi written hentry callee hmem

theorem encore_uncalled (caller : DeclId) : ¬ recital.Calls (.proc caller) ⟨4⟩ := by
  intro hcalls
  obtain ⟨i, hi, written, hentry, hmem⟩ := hcalls.exists_written
    (fun root hroot => (roots hroot).1) (by decide)
  have hcallees : ∀ i < 14, ∀ written ∈ recital.nodes[i]?, ⟨4⟩ ∉ written.value.callees := by decide
  exact hcallees i hi written hentry hmem

/-- What opens the recital leads to procedures that call only themselves. -/
theorem opening_free (other : DeclId)
    (h : other = ⟨1⟩ ∨ recital.Leads (.proc ⟨1⟩) other) : ¬ recital.Entangled other := by
  have hordered : ∀ caller callee : DeclId, caller.index < 2 →
      recital.Calls (.proc caller) callee → callee.index ≤ caller.index :=
    fun caller callee hcaller hcalls => (calls_hum hcaller hcalls).trans_le (Nat.zero_le _)
  refine Program.not_entangled_of_calls hordered ?_
  rcases h with rfl | hleads
  · decide
  · exact (hleads.index_le hordered (by decide)).trans_lt (by decide)

/-- A channel is written to. -/
def tone (id : ExprId) : Trace := .event .output ⟨id, none⟩

/-- A channel is written to for good. -/
def hums (atom : AtomId) (id : ExprId) : Trace :=
  .fix ⟨atom, .recursion ⟨0⟩⟩ (.comp .seq [tone id, .ref atom])

theorem opening_first : (Session.checkUnit ⟨recital, {}⟩ (.proc ⟨1⟩) {}).1.map UnitReport.told =
    .ok (.single (.comp .seq [tone ⟨2⟩, hums ⟨0⟩ ⟨1⟩]), false) := by cbv

theorem opening_again : ((Session.checkUnit ⟨recital, {}⟩ (.process ⟨14⟩) {}).2.checkUnit
    ⟨recital, {}⟩ (.proc ⟨1⟩)).1.map UnitReport.told = .ok (.single (hums ⟨1⟩ ⟨1⟩), true) := by cbv

/-- The recital with nothing hidden from callers. -/
def unprojected : Setting := ⟨recital, { projectInterface := false }⟩

theorem encore_first : (Session.checkUnit unprojected (.proc ⟨4⟩) {}).1.map UnitReport.told =
    .ok (.single (.fix ⟨⟨0⟩, .recursion ⟨2⟩⟩ (.comp .seq [tone ⟨3⟩, tone ⟨4⟩, .ref ⟨0⟩])),
      false) := by cbv

theorem encore_again : ((Session.checkUnit unprojected (.process ⟨14⟩) {}).2.checkUnit
    unprojected (.proc ⟨4⟩)).1.map UnitReport.told =
    .ok (.single (.comp .seq [tone ⟨3⟩, .fix ⟨⟨0⟩, .recursion ⟨3⟩⟩
      (.comp .seq [tone ⟨4⟩, tone ⟨3⟩, .ref ⟨0⟩])]), true) := by cbv

end Recital

open Recital

/-- Callers do not see the channel that the opening has of its own. And a procedure that leads to a
cycle of calls, without being on it, has the trace of where the cycle was entered first. -/
theorem recital_reported_otherwise :
    (¬ recital.Entangled ⟨1⟩ ∧ Setting.ReportsOtherwise ⟨recital, {}⟩ (.process ⟨14⟩) ⟨1⟩) ∧
      ¬ recital.Entangled ⟨4⟩ ∧ unprojected.ReportsOtherwise (.process ⟨14⟩) ⟨4⟩ := by
  refine ⟨⟨opening_free _ (.inl rfl), ⟨_, rfl, rfl⟩, ?_⟩,
    Program.not_entangled_of_uncalled encore_uncalled, ⟨_, rfl, rfl⟩, ?_⟩
  · obtain ⟨first, hfirst, htraces, hnew⟩ := exists_report_of_told opening_first
    obtain ⟨again, hagain, htraces', hstored⟩ := exists_report_of_told opening_again
    refine ⟨first, again, hfirst, hagain, hnew, hstored, fun f => ?_⟩
    rw [htraces, htraces']
    exact nofun
  · obtain ⟨first, hfirst, htraces, hnew⟩ := exists_report_of_told encore_first
    obtain ⟨again, hagain, htraces', hstored⟩ := exists_report_of_told encore_again
    refine ⟨first, again, hfirst, hagain, hnew, hstored, fun f => ?_⟩
    rw [htraces, htraces']
    exact nofun

/-- The opening is reported with one trace: as it is on its own, and with the channel of its own
hidden after the recital. -/
theorem opening_reported : (∃ decl, recital.decl ⟨1⟩ = .ok decl ∧ decl.body.isSome = true) ∧
    (∀ other, other = ⟨1⟩ ∨ recital.Leads (.proc ⟨1⟩) other → ¬ recital.Entangled other) ∧
    ∃ (t u : Trace) (first again : UnitReport) (π π' : Equiv.Perm AtomId),
      (Session.checkUnit ⟨recital, {}⟩ (.proc ⟨1⟩) {}).1 = .ok first ∧
      ((Session.checkUnit ⟨recital, {}⟩ (.process ⟨14⟩) {}).2.checkUnit ⟨recital, {}⟩
        (.proc ⟨1⟩)).1 = .ok again ∧
      first.traceSet = .single (t.renumber π) ∧ again.traceSet = .single (u.renumber π') ∧
      Walk.project ⟨recital, {}⟩ [⟨1⟩] t = .ok u := by
  obtain ⟨first, hfirst, -, hnew⟩ := exists_report_of_told opening_first
  obtain ⟨again, hagain, -, hstored⟩ := exists_report_of_told opening_again
  obtain ⟨t, h⟩ := @report_of_procedure ⟨recital, {}⟩ ⟨1⟩ _ rfl rfl opening_free
  obtain ⟨π, t', htraces, ht⟩ := h _ .start first hfirst
  obtain ⟨π', u, htraces', hu⟩ := h _ (.checkUnit _ .start) again hagain
  rw [hnew, if_neg Bool.false_ne_true] at ht
  rw [hstored, if_pos rfl] at hu
  obtain rfl := ht
  exact ⟨⟨_, rfl, rfl⟩, opening_free, t', u, first, again, π, π', hfirst, hagain, htraces, htraces',
    hu⟩

end ProcessContracts
