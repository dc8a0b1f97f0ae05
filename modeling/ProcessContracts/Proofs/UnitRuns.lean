import ProcessContracts.Compilation
import ProcessContracts.Proofs.Reproduction

/-!
# Runs over the units of a program

Checking a unit does some work for the unit itself and attaches the procedures it needs. What a run
over some units did a run over the same units in another order can do again: each procedure is
attached once, whichever unit needs it first.
-/

namespace ProcessContracts

open Walk WalkState

/-! ## Writing traces out -/

/-- Every channel of the trace can be written out. -/
def Trace.Writable (program : Program) (t : Trace) : Prop :=
  ∀ chan ∈ t.channels, ∃ text, chan.describe program = .ok text

/-- The fault is met in writing out a channel of the trace: its name or an expression of it is not
in the tables or, where the table of expressions is cyclic, an expression of it contains itself. -/
def Trace.Unwritable (program : Program) (fault : Fault) (t : Trace) : Prop :=
  ∃ chan ∈ t.channels, chan.describe program = .error fault

section Writing

variable {setting : Setting} {program : Program} {unit : ProgramUnit} {traces : TraceSet}
  {found : List Diagnostic} {checkedOnDemand : Bool} {report : UnitReport} {t u : Trace}

theorem Trace.Writable.of_subset (h : t.Writable program) (hsub : u.channels ⊆ t.channels) :
    u.Writable program := fun chan hchan => h chan (hsub hchan)

theorem Trace.writable_renumber {f : AtomId → AtomId} :
    (t.renumber f).Writable program ↔ t.Writable program := by
  rw [Writable, channels_renumber, Writable]

/-- What callers see of a trace can be written out if the trace can. -/
theorem Trace.Writable.project (h : t.Writable setting.program) {interface : List NameId}
    (hproject : Walk.project setting interface t = .ok u) : u.Writable setting.program := by
  rcases project_eq_ok hproject with ⟨-, -, rfl⟩ | ⟨-, rfl⟩
  · exact (h.of_subset (channels_hide_subset _ t)).of_subset (channels_simplify_subset _)
  · exact h

theorem Trace.writable_iff : t.Writable program ↔ ∃ text, t.describe program = .ok text := by
  constructor
  · intro h
    obtain ⟨_, hchannels, -⟩ := Lookup.answers_forM fun chan hchan => by
      obtain ⟨text, htext⟩ := h chan hchan
      exact (⟨text, htext, trivial⟩ : Lookup.Answers (chan.describe program) fun _ => True)
    exact ⟨_, by rw [describe, hchannels]; rfl⟩
  · rintro ⟨text, h⟩
    obtain ⟨_, hchannels, -⟩ := Lookup.bind_eq_ok.1 h
    exact Lookup.answered_of_forM hchannels

theorem Trace.unwritable_of_describe {fault : Fault} (h : t.describe program = .error fault) :
    t.Unwritable program fault := by
  rcases Lookup.bind_eq_error.1 h with h | ⟨_, -, h⟩
  · exact Lookup.exists_error_of_forM h
  · cases h

/-- Queries that were made one after the other have been answered. -/
theorem Lookup.answered_of_mapM {α β : Type} {query : α → Lookup β} {l : List α} {bs : List β}
    (h : l.mapM query = .ok bs) : ∀ a ∈ l, ∃ b, query a = .ok b := by
  induction l generalizing bs with
  | nil => simp
  | cons a l ih =>
      rw [List.mapM_cons] at h
      obtain ⟨b, hb, h⟩ := bind_eq_ok.1 h
      obtain ⟨_, hl, -⟩ := bind_eq_ok.1 h
      exact List.forall_mem_cons.2 ⟨⟨b, hb⟩, ih hl⟩

/-- A unit is reported with all its traces written out. -/
theorem Session.report_of_writable (h : ∀ t ∈ traces.alternatives, t.Writable setting.program) :
    ∃ report, Session.report setting unit traces found checkedOnDemand = .ok report ∧
      report.diagnostics = found := by
  have hdescribed : ∀ t ∈ traces.alternatives,
      Lookup.Answers (t.describe setting.program) fun _ => True := fun t ht => by
    obtain ⟨text, htext⟩ := Trace.writable_iff.1 (h t ht)
    exact ⟨text, htext, trivial⟩
  obtain ⟨texts, hwritten, -⟩ := Lookup.answers_mapM hdescribed
  unfold Session.report UnitReport.make
  rw [hwritten]
  exact ⟨_, rfl, rfl⟩

theorem Session.writable_of_report
    (h : Session.report setting unit traces found checkedOnDemand = .ok report) :
    ∀ t ∈ traces.alternatives, t.Writable setting.program := by
  obtain ⟨texts, hwritten, -⟩ := exists_texts_of_report h
  exact fun t ht => Trace.writable_iff.2 (Lookup.answered_of_mapM hwritten t ht)

theorem Session.report_of_fault {fault : Fault}
    (h : traces.alternatives.mapM (Trace.describe setting.program) = .error fault) :
    Session.report setting unit traces found checkedOnDemand = .error (.fault fault) := by
  unfold Session.report UnitReport.make
  rw [h]
  rfl

end Writing

/-! ## The work for a unit -/

/-- What checking a unit does for the unit itself, with the traces of procedures looked up in a
store that is complete. What it comes to is written out. -/
inductive UnitWorks (setting : Setting) (store : TraceStore) : ProgramUnit → Share → Prop
  | proc {callee decl traces share} : setting.program.decl callee = .ok decl →
      Obtains setting.program store callee decl traces share →
      (∀ t ∈ traces.alternatives, t.Writable setting.program) →
      UnitWorks setting store (.proc callee) share
  | process {node depth fragment share scope} :
      LocalWithin setting store (.process node) depth node { owner := .process node } fragment share
        scope →
      (finish setting (fragment.getD .skip)).Writable setting.program →
      UnitWorks setting store (.process node) (share.add { published := scope.diagnostics })

/-- The state after a unit, with what was found. -/
def Session.reported (session : Session) (found : List Diagnostic) : WalkState :=
  { session.begin with diagnostics := found }

section Units

variable {setting : Setting} {unit : ProgramUnit} {records recorded : Records}
  {store store' : TraceStore} {session last : Session} {share share' : Share}

theorem UnitWorks.later (hstore : store.StaysIn store') (h : UnitWorks setting store unit share) :
    UnitWorks setting store' unit share := by
  cases h with
  | proc hdecl hobtains hwritable => exact .proc hdecl (hobtains.later hstore) hwritable
  | process hlocal hwritable => exact .process (hlocal.later hstore) hwritable

/-- The work for a unit is the same in two stores with the same traces. -/
theorem UnitWorks.twin {f : AtomId → AtomId} (hstores : SameTraces f store store')
    (h : UnitWorks setting store unit share) (h' : UnitWorks setting store' unit share')
    (hmatches : Matches f share.atoms share'.atoms) : share.Twin setting.program f share' := by
  cases h with
  | proc hdecl hobtains =>
      cases h' with
      | proc hdecl' hobtains' =>
          cases hdecl.symm.trans hdecl'
          exact (hobtains.twin hstores hobtains' hmatches).2
  | process hlocal =>
      cases h' with
      | process hlocal' =>
          obtain ⟨-, hshare, hscope⟩ := LocalWithin.twin hstores _ _ _ hlocal hlocal'
            (Scope.twin_start _ _ _ _) hmatches.left
          exact hshare.add ⟨rfl, hscope.diagnostics⟩

theorem Session.wellScoped_of_poised (h : Poised setting records session.begin) :
    session.WellScoped := Session.wellScoped_of_holds h.sober.holds

theorem Session.closed_of_poised (h : Poised setting records session.begin) : session.Closed :=
  fun callee traces hget t ht => List.eq_nil_iff_forall_not_mem.2 fun _ hid =>
    List.not_mem_nil ((session.wellScoped_of_poised h callee traces hget t ht).scoped.mem_bound hid)

theorem Session.poised_start (setting : Setting) : Poised setting [] (Session.begin {}) where
  sober := ⟨fun _ h => (nomatch h), ⟨.nil _, fun _ _ hget => nomatch hget⟩⟩
  once := Once.nil
  recorded := .nil
  nodup := List.nodup_nil
  minted _ h := nomatch h

/-- The state in which the body of a process is walked. -/
theorem Session.poised_process (h : Poised setting records session.begin) (node : NodeId) :
    Poised setting records (session.begin.enter { owner := .process node }) where
  sober := ⟨List.forall_mem_cons.2 ⟨rfl, h.sober.bare⟩,
    (scoping setting).enter ⟨rfl, rfl, .inl ⟨node, rfl, rfl⟩⟩ h.sober.holds⟩
  once := ⟨h.once.nodup, h.once.decls⟩
  recorded := h.recorded
  nodup := h.nodup
  minted := h.minted

variable (huntangled : setting.program.Untangled)
include huntangled

/-- A unit that is checked does its work, and the procedures it attached have their records. -/
theorem works_check {outcome : Outcome} (hpoised : Poised setting records session.begin)
    (hfresh : unit.decl?.bind session.store.get? = none)
    (h : check setting unit session = (.ok outcome, last))
    (hwritable : ∀ t ∈ outcome.traces.alternatives, t.Writable setting.program) :
    ∃ account, UnitWorks setting last.store unit account.own ∧
      Poised setting (records ++ account.attached) last.begin ∧
      Books session.begin account (last.reported outcome.diagnostics) := by
  have hclosed := session.closed_of_poised hpoised
  have hlast : last.WellScoped := by
    have hscoped := (check_wellScoped setting unit session (session.wellScoped_of_poised hpoised)).1
    rwa [h] at hscoped
  obtain ⟨account, state, hyields, hdiagnostics, rfl⟩ := check_eq_ok_iff.1 h
  have hbooks : Books session.begin account state :=
    books_unitYields rfl hclosed (fun callee hunit => by rw [hunit] at hfresh; exact hfresh) hyields
  suffices hdone : UnitWorks setting state.store unit account.own ∧
      Recorded setting (records ++ account.attached) state.store by
    refine ⟨account, hdone.1, ?_, { hbooks with published := ?_ }⟩
    · exact ⟨⟨fun _ h => (nomatch h), hlast.holds setting⟩, Once.nil, hdone.2,
        hpoised.nodup_attached hbooks, (hpoised.minted_attached hbooks :)⟩
    · rw [Session.reported, hdiagnostics]
      exact hbooks.published
  generalize outcome.traces = computed at hyields hwritable
  cases hyields with
  | @proc callee _ traces _ _ hcompletes =>
      have henter : Enterable setting.program callee session.begin :=
        enterable_of_no_scopes rfl hclosed
      obtain ⟨decl, hdecl⟩ : ∃ decl, setting.program.decl callee = .ok decl := by
        cases hcompletes <;> exact ⟨_, ‹_›⟩
      obtain ⟨-, hobtains, hrecorded⟩ :=
        recorded_completes huntangled hcompletes henter hfresh hdecl
        (fun _ hnone => nomatch hnone) hpoised.sober hpoised.recorded
      refine ⟨.proc hdecl hobtains ?_, hrecorded⟩
      cases hcompletes with
      | undeclared | declared | unbound => exact hwritable
      | dropped _ _ _ _ hproject | attached _ _ _ _ hproject =>
          exact List.forall_mem_singleton.2
            ((hwritable _ (List.mem_singleton_self _)).project hproject)
  | @process node _ _ _ _ _ _ hvisit hmid =>
      have hready : Ready setting.program (.process node) node
        (session.begin.enter { owner := .process node }) :=
          ready_process (s := session.begin) rfl hclosed node
      obtain ⟨own', hscopes, hlocal, hrecorded⟩ := recorded_yieldsWithin huntangled _ hvisit hready
        (session.poised_process hpoised _).sober hpoised.recorded rfl
      obtain ⟨rfl, rfl⟩ := List.cons.inj (hmid.symm.trans hscopes)
      refine ⟨.process hlocal (hwritable _ (List.mem_singleton_self _)), ?_⟩
      rwa [← List.append_nil (Account.attached _)] at hrecorded

/-- A unit that did its work once does it from any session, and only procedures are attached that
were then. For a procedure nothing is said about its trace before projection. -/
theorem UnitWorks.exists_yields (hrecorded : Recorded setting recorded store)
    (hnodup : (recorded.atoms ++ share.atoms).Nodup) (hworks : UnitWorks setting store unit share)
    (hpoised : Poised setting records session.begin) :
    ∃ traces account state, UnitYields setting unit session.begin traces account state ∧
      (∀ callee ∈ account.procs, store.get? callee ≠ none) ∧
      (unit.decl? = none → ∀ t ∈ traces.alternatives, t.Writable setting.program) := by
  have hclosed := session.closed_of_poised hpoised
  have hbefore := (List.nodup_append.1 hnodup).1
  have hcallees := hrecorded.reproducible huntangled hbefore fun _ => id
  have hroom : setting.program.nodes.size + room setting.program session.begin ≤
      depthBound setting.program := by
    rw [room, depthBound, Nat.succ_mul, Nat.mul_comm, Nat.add_comm]
    exact Nat.le_succ _
  cases hworks with
  | @proc callee decl traces _ hdecl hobtains =>
      suffices hcompletes : ∃ traces account state, Completes setting
          (YieldsWithin setting (depthBound setting.program)) callee none session.begin
            traces account
          state ∧ ∀ other ∈ account.procs, store.get? other ≠ none by
        obtain ⟨_, account, state, hcompletes, hprocs⟩ := hcompletes
        exact ⟨_, account, state, .proc hcompletes, hprocs,
          fun hnone => absurd hnone (Option.some_ne_none _)⟩
      cases hobtains with
      | known _ hget =>
          exact hcallees callee (hget ▸ Option.some_ne_none traces) hdecl
            (enterable_of_no_scopes rfl hclosed) hpoised
            (fun _ hnone => absurd hnone.symm (Option.some_ne_none _))
            ((Nat.le_add_left _ _).trans hroom)
      | undeclared hbody hcontract =>
          exact ⟨_, _, _, .undeclared hdecl hbody hcontract,
            fun _ hmem => absurd hmem List.not_mem_nil⟩
      | unbound hbody hcontract hlower =>
          obtain ⟨_, hlower', -⟩ := Contract.lower_unbound_from hlower session.supply
          exact ⟨_, _, _, .unbound hdecl hbody hcontract hlower',
            fun _ hmem => absurd hmem List.not_mem_nil⟩
  | @process node _ fragment share _ hlocal hwritable =>
      have hready : Ready setting.program (.process node) node
        (session.begin.enter { owner := .process node }) :=
          ready_process (s := session.begin) rfl hclosed node
      have hopened := session.poised_process hpoised node
      obtain ⟨_, account, mid, hvisit, hprocs⟩ := followed_localWithin huntangled hrecorded hbefore
        hcallees _ hlocal.shallow hready hopened hroom
      obtain ⟨own, hscopes, hlocal', hrecorded'⟩ := recorded_yieldsWithin huntangled _ hvisit hready
        hopened.sober hopened.recorded rfl
      refine ⟨_, _, _, .process hvisit hscopes, fun other hmem => ?_, fun _ => ?_⟩
      · rw [Account.procs_add] at hmem
        exact hprocs other ((List.mem_append.1 hmem).resolve_right List.not_mem_nil)
      · have hbooks := books_yieldsWithin setting _ _ _ _ _ _ _ hvisit hready
        obtain ⟨f, hsame, hown⟩ := exists_sameTraces share account.own hrecorded
          (hnodup.sublist ((List.sublist_append_left _ _).append_left _)) hrecorded'
          (hopened.nodup_own hbooks)
        obtain ⟨rfl, -, -⟩ := LocalWithin.twin hsame _ _ _ hlocal hlocal' (Scope.twin_start _ _ _ _)
          hown
        rw [getD_renumbered, finish_renumber f.perm.injective]
        exact List.forall_mem_singleton.2 (Trace.writable_renumber.2 hwritable)

/-- A unit that did its work once can be checked from any session. -/
theorem exists_check (hrecorded : Recorded setting recorded store)
    (hnodup : (recorded.atoms ++ share.atoms).Nodup) (hworks : UnitWorks setting store unit share)
    (hpoised : Poised setting records session.begin)
    (hfresh : unit.decl?.bind session.store.get? = none)
    (hkeys : ∀ callee, session.store.get? callee ≠ none → store.get? callee ≠ none) :
    ∃ outcome last, check setting unit session = (.ok outcome, last) ∧
      (∀ callee, last.store.get? callee ≠ none → store.get? callee ≠ none) ∧
      (unit.decl? = none → ∀ t ∈ outcome.traces.alternatives, t.Writable setting.program) := by
  obtain ⟨traces, account, state, hyields, hprocs, hwritable⟩ :=
    hworks.exists_yields huntangled hrecorded hnodup hpoised
  have hcheck : check setting unit session = (.ok ⟨traces, state.diagnostics⟩, .ofWalk state) :=
    check_eq_ok_iff.2 ⟨account, state, hyields, rfl, rfl⟩
  refine ⟨_, _, hcheck, fun callee hget => ?_, hwritable⟩
  have hbooks := books_unitYields (s := session.begin) rfl (session.closed_of_poised hpoised)
    (fun callee hunit => by rw [hunit] at hfresh; exact hfresh) hyields
  have hmem : callee ∈ state.store.keys := by
    by_contra hmem
    exact hget (Ledger.get?_eq_none_iff.2 hmem)
  rw [hbooks.keys] at hmem
  rcases List.mem_append.1 hmem with hmem | hmem
  · exact hkeys callee fun hnone => Ledger.get?_eq_none_iff.1 hnone hmem
  · exact hprocs callee hmem

end Units

/-! ## Runs -/

/-- The run gives up at a procedure: it was checked, but a channel of its trace cannot be written
out. -/
inductive StopsWriting (setting : Setting) (fault : Fault) : List ProgramUnit → Session → Prop
  | here {callee units session outcome} : session.store.get? callee = none →
      (check setting (.proc callee) session).1 = .ok outcome →
      outcome.traces.alternatives.mapM (Trace.describe setting.program) = .error fault →
      (∃ t ∈ outcome.traces.alternatives, t.Unwritable setting.program fault) →
      StopsWriting setting fault (.proc callee :: units) session
  | later {unit units session report mid} : session.checkUnit setting unit = (.ok report, mid) →
      StopsWriting setting fault units mid → StopsWriting setting fault (unit :: units) session

/-- What a run did: work for each unit, and the procedures it attached. -/
structure Ran (setting : Setting) (session : Session) (jobs : List (ProgramUnit × Share))
    (attached : Records) (found : List Diagnostic) (last : Session) : Prop where
  works : ∀ job ∈ jobs, UnitWorks setting last.store job.1 job.2
  books : Books session.begin
    ⟨⟨jobs.flatMap (·.2.atoms), jobs.flatMap (·.2.published)⟩, attached⟩ (last.reported found)

section Runs

variable {setting : Setting} {unit : ProgramUnit} {units : List ProgramUnit}
  {records recorded attached : Records} {store : TraceStore} {session mid last : Session}
  {report : UnitReport} {reports : List UnitReport} {jobs jobs' : List (ProgramUnit × Share)}
  {attached' : Records} {found found' : List Diagnostic} {fault : Fault}

theorem Session.checkUnits_cons_eq_ok :
    Session.checkUnits setting (unit :: units) session = .ok (reports, last) ↔
      ∃ report mid rest, session.checkUnit setting unit = (.ok report, mid) ∧
        Session.checkUnits setting units mid = .ok (rest, last) ∧ reports = report :: rest := by
  rw [Session.checkUnits]
  obtain ⟨answer, mid⟩ := session.checkUnit setting unit
  cases answer with
  | error => simp [bind, Except.bind]
  | ok report =>
      cases hrest : Session.checkUnits setting units mid with
      | error => simp [bind, Except.bind, hrest]
      | ok result =>
          obtain ⟨rest, final⟩ := result
          simp [bind, Except.bind, hrest, pure, Except.pure, eq_comm, and_comm]

theorem Session.checkUnit_of_fresh {outcome : Outcome}
    (hfresh : unit.decl?.bind session.store.get? = none)
    (hcheck : check setting unit session = (.ok outcome, last)) : session.checkUnit setting unit =
      (Session.report setting unit outcome.traces outcome.diagnostics false, last) := by
  rw [Session.checkUnit, hfresh, hcheck]
  rfl

theorem StopsWriting.checkUnits_eq (h : StopsWriting setting fault units session) :
    Session.checkUnits setting units session = .error (.fault fault) := by
  induction h with
  | @here callee _ session _ hfresh hcheck hwritten _ =>
      have hnone : (ProgramUnit.proc callee).decl?.bind session.store.get? = none := hfresh
      rw [Session.checkUnits, Session.checkUnit_of_fresh hnone (Prod.ext hcheck rfl),
        Session.report_of_fault hwritten]
      rfl
  | later hunit _ ih =>
      rw [Session.checkUnits, hunit]
      dsimp only [bind, Except.bind]
      rw [ih]

theorem Ran.nil (session : Session) : Ran setting session [] [] [] session where
  works _ h := nomatch h
  books := .refl _

theorem Ran.append (h : Ran setting session jobs attached found mid)
    (h' : Ran setting mid jobs' attached' found' last) :
    Ran setting session (jobs ++ jobs') (attached ++ attached') (found ++ found') last where
  works := List.forall_mem_append.2
    ⟨fun job hjob => (h.works job hjob).later h'.books.kept, h'.works⟩
  books := by
    have hrest : Books (mid.reported found) _ (last.reported (found ++ found')) :=
      { h'.books with published := h'.books.published.append_left found }
    rw [List.flatMap_append, List.flatMap_append]
    exact h.books.trans rfl hrest

variable (huntangled : setting.program.Untangled)
include huntangled

theorem ran_checkUnit (hpoised : Poised setting records session.begin)
    (h : session.checkUnit setting unit = (.ok report, last)) :
    ∃ share attached, Ran setting session [(unit, share)] attached report.diagnostics last ∧
      Poised setting (records ++ attached) last.begin := by
  rcases cases_of_checkUnit h with
    ⟨traces, hstored, hreport, rfl⟩ | ⟨hfresh, outcome, hcheck, hreport⟩
  · cases unit with
    | process => cases hstored
    | proc callee =>
        obtain ⟨_, hmem⟩ := hpoised.recorded.exists_share hstored
        obtain ⟨_, _, -, -, hattaches⟩ := hpoised.recorded.attaches hmem
        obtain ⟨decl, hdecl, hknown⟩ := hattaches.isKnown
        have hwritable := Session.writable_of_report hreport
        obtain ⟨texts, -, rfl⟩ := exists_texts_of_report hreport
        exact ⟨{}, [], ⟨List.forall_mem_singleton.2
          (.proc hdecl (.known hknown hstored) hwritable), .refl _⟩, by rwa [List.append_nil]⟩
  · obtain ⟨account, hworks, hlast, hbooks⟩ := works_check huntangled hpoised hfresh hcheck
      (Session.writable_of_report hreport)
    obtain ⟨texts, -, rfl⟩ := exists_texts_of_report hreport
    refine ⟨account.own, account.attached, ⟨List.forall_mem_singleton.2 hworks, ?_⟩, hlast⟩
    rw [List.flatMap_singleton, List.flatMap_singleton]
    exact hbooks

/-- Every run does the work of its units. -/
theorem ran_checkUnits (hpoised : Poised setting records session.begin)
    (h : Session.checkUnits setting units session = .ok (reports, last)) :
    ∃ jobs attached, jobs.map (·.1) = units ∧
      Ran setting session jobs attached (reports.flatMap (·.diagnostics)) last ∧
      Poised setting (records ++ attached) last.begin := by
  induction units generalizing session records reports with
  | nil =>
      obtain ⟨rfl, rfl⟩ := Prod.mk.inj (Except.ok.inj h)
      exact ⟨[], [], rfl, .nil session, by rwa [List.append_nil]⟩
  | cons unit units ih =>
      obtain ⟨report, mid, rest, hunit, hunits, rfl⟩ := Session.checkUnits_cons_eq_ok.1 h
      obtain ⟨share, attached, hfirst, hmid⟩ := ran_checkUnit huntangled hpoised hunit
      obtain ⟨jobs, others, rfl, hrest, hlast⟩ := ih hmid hunits
      refine ⟨(unit, share) :: jobs, attached ++ others, rfl, hfirst.append hrest, ?_⟩
      rwa [← List.append_assoc]

section Other

variable (hrecorded : Recorded setting recorded store)
include hrecorded

omit huntangled in
/-- The traces of a procedure that were written out once are written out from any store. -/
theorem writable_of_stored {share : Share} {callee : DeclId} {traces : TraceSet}
    (hnodup : recorded.atoms.Nodup) (hworks : UnitWorks setting store (.proc callee) share)
    (hsome : store.get? callee ≠ none) (hpoised : Poised setting records session.begin)
    (hget : session.store.get? callee = some traces) :
    ∀ t ∈ traces.alternatives, t.Writable setting.program := by
  cases hworks with
  | @proc _ decl known _ hdecl hobtains hwritable =>
      obtain ⟨f, hsame, -⟩ := exists_sameTraces {} {} hrecorded (by rwa [List.append_nil])
        hpoised.recorded (by rw [List.append_nil]; exact hpoised.nodup)
      obtain ⟨stored, hstored⟩ := Option.ne_none_iff_exists'.1 hsome
      have hknown := hrecorded.isKnown hstored hdecl
      cases hobtains with
      | known _ hstored =>
          obtain rfl := hsame _ _ _ hstored hget
          exact List.forall_mem_map.2 fun t ht => Trace.writable_renumber.2 (hwritable t ht)
      | undeclared hbody hcontract => exact absurd hcontract (hknown.contract_ne_none hbody)
      | unbound hbody hcontract hlower => exact (hknown.not_unbound hbody hcontract hlower).elim

/-- A unit that did its work once is checked again, or its trace cannot be written out. -/
theorem exists_checkUnit {share : Share} (hnodup : (recorded.atoms ++ share.atoms).Nodup)
    (hworks : UnitWorks setting store unit share) (hpoised : Poised setting records session.begin)
    (hkeys : ∀ callee, session.store.get? callee ≠ none → store.get? callee ≠ none) :
    (∃ fault, ∀ units, StopsWriting setting fault (unit :: units) session) ∨
      ∃ report last, session.checkUnit setting unit = (.ok report, last) ∧
        ∀ callee, last.store.get? callee ≠ none → store.get? callee ≠ none := by
  cases hstored : unit.decl?.bind session.store.get? with
  | none =>
      obtain ⟨outcome, last, hcheck, hlast, hprocess⟩ :=
        exists_check huntangled hrecorded hnodup hworks hpoised hstored hkeys
      by_cases hwritable : ∀ t ∈ outcome.traces.alternatives, t.Writable setting.program
      · obtain ⟨report, hreport, -⟩ := Session.report_of_writable hwritable
        exact .inr ⟨report, last, by rw [Session.checkUnit_of_fresh hstored hcheck, hreport], hlast⟩
      · cases unit with
        | process => exact absurd (hprocess rfl) hwritable
        | proc callee =>
            cases hwritten : outcome.traces.alternatives.mapM (Trace.describe setting.program) with
            | ok =>
                exact absurd (fun t ht =>
                  Trace.writable_iff.2 (Lookup.answered_of_mapM hwritten t ht)) hwritable
            | error fault =>
                obtain ⟨t, ht, hfault⟩ := Lookup.exists_error_of_mapM hwritten
                have hstops := Trace.unwritable_of_describe hfault
                exact .inl ⟨fault, fun units =>
                  .here hstored (by rw [hcheck]) hwritten ⟨t, ht, hstops⟩⟩
  | some traces =>
      cases unit with
      | process => cases hstored
      | proc callee =>
          have hsome : store.get? callee ≠ none :=
            hkeys callee fun hnone => Option.some_ne_none traces (hstored.symm.trans hnone)
          have hwritable := writable_of_stored hrecorded (List.nodup_append.1 hnodup).1 hworks hsome
            hpoised hstored
          obtain ⟨report, hreport, -⟩ :=
            @Session.report_of_writable setting (.proc callee) traces [] true hwritable
          refine .inr ⟨report, session, ?_, hkeys⟩
          rw [Session.checkUnit, hstored]
          exact Prod.ext hreport rfl

/-- A run over units that did their work once does it again, or it stops at a trace that cannot be
written out. -/
theorem exists_checkUnits (hjobs : ∀ unit ∈ units, ∃ share, UnitWorks setting store unit share ∧
      (recorded.atoms ++ share.atoms).Nodup)
    (hpoised : Poised setting records session.begin)
    (hkeys : ∀ callee, session.store.get? callee ≠ none → store.get? callee ≠ none) :
    (∃ fault, StopsWriting setting fault units session) ∨
      ∃ reports last, Session.checkUnits setting units session = .ok (reports, last) ∧
        ∀ callee, last.store.get? callee ≠ none → store.get? callee ≠ none := by
  induction units generalizing session records with
  | nil => exact .inr ⟨[], session, rfl, hkeys⟩
  | cons unit units ih =>
      obtain ⟨⟨share, hworks, hnodup⟩, hrest⟩ := List.forall_mem_cons.1 hjobs
      rcases exists_checkUnit huntangled hrecorded hnodup hworks hpoised hkeys with
        ⟨fault, hstops⟩ | ⟨report, mid, hunit, hmid⟩
      · exact .inl ⟨fault, hstops units⟩
      obtain ⟨_, _, -, hlater⟩ := ran_checkUnit huntangled hpoised hunit
      rcases ih hrest hlater hmid with ⟨fault, hstops⟩ | ⟨reports, last, hunits, hlast⟩
      · exact .inl ⟨fault, .later hunit hstops⟩
      · have hall := Session.checkUnits_cons_eq_ok.2 ⟨report, mid, reports, hunit, hunits, rfl⟩
        exact .inr ⟨_, last, hall, hlast⟩

end Other

end Runs

end ProcessContracts
