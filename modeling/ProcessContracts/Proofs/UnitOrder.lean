import ProcessContracts.Proofs.Reordering
import ProcessContracts.Proofs.UnitRuns

/-!
# The order of the units

In a program in which no procedure is on a cycle of calls with another one, the order of the units
makes no difference: the runs attach the same traces, mint as many atoms and find the same, up to
the numbers of the atoms. Only the trace of a procedure before projection is written out in some
orders and not in others, and a run stops where a channel of it cannot be written out.
-/

namespace ProcessContracts

open Walk WalkState

/-- Two runs come to the same, up to a permutation of the atoms. -/
structure SameRuns (program : Program) (π : Equiv.Perm AtomId) (found : List Diagnostic)
    (last : Session) (found' : List Diagnostic) (last' : Session) : Prop where
  stores : ∀ callee, last'.store.get? callee = (last.store.get? callee).map (TraceSet.renumber π)
  diagnostics : ∃ matched, matched.Perm found ∧
    List.Forall₂ (Diagnostic.Renumbered program π) matched found'
  attached : last'.store.size = last.store.size
  minted : last'.supply.minted = last.supply.minted

/-! ## Matching the work of two runs -/

section Shares

variable {program : Program} {f : AtomId → AtomId} {shares shares' : List Share}

/-- The shares with their places as owners. -/
def Share.listed (shares : List Share) : List (Nat × Share) := shares.zipIdx.map Prod.swap

theorem Share.nodup_listed (shares : List Share) : ((listed shares).map (·.1)).Nodup := by
  rw [listed, List.map_map]
  exact List.nodup_zipIdx_map_snd shares

theorem Share.atoms_listed (shares : List Share) :
    (listed shares).flatMap (·.2.atoms) = shares.flatMap (·.atoms) := by
  rw [listed, List.flatMap_map]
  conv_rhs => rw [← List.zipIdx_map_fst 0 shares, List.flatMap_map]
  rfl

theorem Share.mem_listed {i : Nat} {share : Share} (h : shares[i]? = some share) :
    (i, share) ∈ listed shares :=
  List.mem_map.2 ⟨(share, i), List.mem_zipIdx_iff_getElem?.2 h, rfl⟩

/-- As many atoms were minted for twin shares, and the same was found. -/
theorem Share.twins_total (h : List.Forall₂ (Share.Twin program f) shares shares') :
    (shares'.flatMap (·.atoms)).length = (shares.flatMap (·.atoms)).length ∧
      List.Forall₂ (Diagnostic.Renumbered program f) (shares.flatMap (·.published))
        (shares'.flatMap (·.published)) := by
  induction h with
  | nil => exact ⟨rfl, .nil⟩
  | cons hfirst _ ih =>
      simp only [List.flatMap_cons, List.length_append, hfirst.length_eq, ih.1, true_and]
      exact List.rel_append hfirst.published ih.2

end Shares

/-- A list can be put in the order of another one with the same keys. -/
theorem exists_aligned {κ α : Type} {l l' : List (κ × α)} (h : (l'.map (·.1)).Perm (l.map (·.1))) :
    ∃ aligned : List (κ × α), aligned.Perm l ∧ aligned.map (·.1) = l'.map (·.1) := by
  have hlift := congrFun (congrFun (List.eq_map_comp_perm (Prod.fst : κ × α → κ)) (l'.map (·.1))) l
  obtain ⟨aligned, hkeys, hperm⟩ := hlift.mpr h
  exact ⟨aligned, hperm, hkeys.symm⟩

/-- What holds of values of the same key holds along two lists with the same keys. -/
theorem forall₂_of_aligned {κ α : Type} {R : α → α → Prop} {l l' : List (κ × α)}
    (hkeys : l.map (·.1) = l'.map (·.1))
    (h : ∀ key a b, (key, a) ∈ l → (key, b) ∈ l' → R a b) :
    List.Forall₂ R (l.map (·.2)) (l'.map (·.2)) := by
  have hlength : l.length = l'.length := by simpa using congrArg List.length hkeys
  refine List.forall₂_iff_get.2 ⟨by simpa using hlength, fun i hi hi' => ?_⟩
  rw [List.length_map] at hi hi'
  have hkey : l[i].1 = l'[i].1 := by simpa [hi, hi'] using congrArg (·[i]?) hkeys
  simp only [List.get_eq_getElem, List.getElem_map]
  refine h l[i].1 _ _ (List.getElem_mem hi) ?_
  rw [hkey]
  exact List.getElem_mem hi'

/-! ## Runs in two orders -/

section Runs

variable {setting : Setting} {units : List ProgramUnit} {jobs jobs' : List (ProgramUnit × Share)}
  {records records' : Records} {found found' : List Diagnostic} {last last' : Session}
  {reports reports' : List UnitReport} {fault : Fault}

/-- No atom is minted for two purposes. -/
theorem Ran.nodup (h : Ran setting {} jobs records found last) :
    (jobs.flatMap (·.2.atoms) ++ records.atoms).Nodup :=
  h.books.atoms.nodup_iff.2 (AtomSupply.nodup_upTo _ _)

/-- All atoms of a run. -/
theorem Ran.length_atoms (h : Ran setting {} jobs records found last) :
    (jobs.flatMap (·.2.atoms) ++ records.atoms).length = last.supply.minted :=
  h.books.atoms.length_eq.trans (AtomSupply.length_upTo _ _)

/-- The work of a run may be listed in any order. -/
theorem Ran.perm_jobs (h : Ran setting {} jobs records found last) (hjobs : jobs'.Perm jobs) :
    Ran setting {} jobs' records found last where
  works job hjob := h.works job (hjobs.subset hjob)
  books := { h.books with
    atoms := ((hjobs.flatMap_right _).append_right _).trans h.books.atoms
    published := h.books.published.trans
      (((hjobs.flatMap_right _).symm.append_right _).append_left _) }

/-- The work for the units is the same. -/
theorem Ran.twins (h : Ran setting {} jobs records found last)
    (h' : Ran setting {} jobs' records' found' last')
    (hunits : jobs.map (·.1) = jobs'.map (·.1)) {f : Shuffle}
    (hsame : SameTraces f.perm last.store last'.store)
    (hmatch : ∀ (i : Nat) share share', (i, share) ∈ Share.listed (jobs.map (·.2)) →
      (i, share') ∈ Share.listed (jobs'.map (·.2)) → Matches f.perm share.atoms share'.atoms) :
    List.Forall₂ (Share.Twin setting.program f.perm) (jobs.map (·.2)) (jobs'.map (·.2)) := by
  have hlength : jobs.length = jobs'.length := by simpa using congrArg List.length hunits
  refine List.forall₂_iff_get.2 ⟨by simpa using hlength, fun i hi hi' => ?_⟩
  have hshare := List.getElem?_eq_getElem hi
  have hshare' := List.getElem?_eq_getElem hi'
  have hmatches := hmatch i _ _ (Share.mem_listed hshare) (Share.mem_listed hshare')
  rw [List.length_map] at hi hi'
  have hunit : jobs[i].1 = jobs'[i].1 := by simpa [hi, hi'] using congrArg (·[i]?) hunits
  simp only [List.get_eq_getElem, List.getElem_map] at hmatches ⊢
  exact (h.works _ (List.getElem_mem hi)).twin hsame (hunit ▸ h'.works _ (List.getElem_mem hi'))
    hmatches

theorem Ran.sameRuns (h : Ran setting {} jobs records found last)
    (h' : Ran setting {} jobs' records' found' last')
    (hrecorded : Recorded setting records last.store)
    (hrecorded' : Recorded setting records' last'.store)
    (hunits : (jobs'.map (·.1)).Perm (jobs.map (·.1)))
    (hkeys : ∀ callee, last'.store.get? callee ≠ none ↔ last.store.get? callee ≠ none) :
    ∃ π, SameRuns setting.program π found last found' last' := by
  obtain ⟨_, hjobs, hunits⟩ := exists_aligned hunits
  replace h := h.perm_jobs hjobs
  have hkeysPerm : (records'.map (·.1)).Perm (records.map (·.1)) := by
    rw [List.perm_ext_iff_of_nodup hrecorded'.keys_nodup hrecorded.keys_nodup]
    intro callee
    rw [← hrecorded'.keys, ← hrecorded.keys]
    have hkey := hkeys callee
    rwa [Ne, Ledger.get?_eq_none_iff, not_not, Ne, Ledger.get?_eq_none_iff, not_not] at hkey
  obtain ⟨aligned, hrecords, haligned⟩ := exists_aligned hkeysPerm
  have hatoms : ∀ {jobs : List (ProgramUnit × Share)} {records : Records},
      (jobs.flatMap (·.2.atoms) ++ records.atoms).Nodup →
        (records.atoms ++ (Share.listed (jobs.map (·.2))).flatMap (·.2.atoms)).Nodup := by
    intro jobs records hnodup
    rw [Share.atoms_listed, List.flatMap_map]
    exact List.perm_append_comm.nodup_iff.1 hnodup
  obtain ⟨f, hmatch, hlisted⟩ := Records.exists_match hrecorded.keys_nodup hrecorded'.keys_nodup
    (Share.nodup_listed _) (Share.nodup_listed _) (hatoms h.nodup) (hatoms h'.nodup)
  obtain ⟨hsame, hshares⟩ := hrecorded.twin hrecorded' hmatch
  obtain ⟨hlength, hfound⟩ := Share.twins_total (List.rel_append (h.twins h' hunits hsame hlisted)
    (forall₂_of_aligned haligned fun callee share share' hmem =>
      hshares callee share share' (hrecords.subset hmem)))
  simp only [List.flatMap_append, List.flatMap_map] at hlength hfound
  refine ⟨f.perm, ⟨fun callee => ?_, ?_, ?_, ?_⟩⟩
  · cases hget : last.store.get? callee with
    | none =>
        by_contra hsome
        exact (hkeys callee).1 hsome hget
    | some traces =>
        obtain ⟨traces', hget'⟩ :=
          Option.ne_none_iff_exists'.1 ((hkeys callee).2 (hget ▸ Option.some_ne_none traces))
        rw [hget', hsame callee _ _ hget hget']
        rfl
  · obtain ⟨matched, hmatched, hall⟩ := List.perm_comp_forall₂ h'.books.published hfound.flip
    refine ⟨matched, hall.trans ?_, hmatched.flip⟩
    exact ((hrecords.flatMap_right _).append_left _).trans h.books.published.symm
  · have hsize : ∀ store : TraceStore, store.size = store.keys.length :=
      fun store => (List.length_map _).symm
    rw [hsize, hsize, hrecorded.keys, hrecorded'.keys, hkeysPerm.length_eq]
  · rw [← h.length_atoms, ← h'.length_atoms]
    exact hlength.trans ((hrecords.flatMap_right _).append_left _).length_eq

variable (huntangled : setting.program.Untangled)
include huntangled

/-- What one run does a run in another order does, or it stops at a trace that cannot be written
out. -/
theorem exists_checkUnits_of_perm {listed : List ProgramUnit} (hperm : units.Perm listed)
    (h : Session.checkUnits setting listed {} = .ok (reports, last)) :
    (∃ fault, StopsWriting setting fault units {}) ∨
      ∃ reports' last', Session.checkUnits setting units {} = .ok (reports', last') ∧
        ∀ callee, last'.store.get? callee ≠ none → last.store.get? callee ≠ none := by
  have hstart := Session.poised_start setting
  obtain ⟨jobs, records, rfl, hran, hlast⟩ := ran_checkUnits huntangled hstart h
  refine exists_checkUnits huntangled hlast.recorded (fun unit hunit => ?_) hstart
    fun _ hget => absurd rfl hget
  obtain ⟨job, hjob, rfl⟩ := List.mem_map.1 (hperm.subset hunit)
  refine ⟨job.2, hran.works job hjob, List.perm_append_comm.nodup_iff.1 (hran.nodup.sublist ?_)⟩
  rw [List.flatMap_def]
  have hatoms := List.mem_map_of_mem (f := fun job : ProgramUnit × Share => job.2.atoms) hjob
  exact (List.sublist_flatten_of_mem hatoms).append_right _

/-- Runs in two orders come to the same. -/
theorem sameRuns_of_perm {listed : List ProgramUnit} (hperm : units.Perm listed)
    (h : Session.checkUnits setting listed {} = .ok (reports, last))
    (h' : Session.checkUnits setting units {} = .ok (reports', last')) :
    ∃ π, SameRuns setting.program π (reports.flatMap (·.diagnostics)) last
      (reports'.flatMap (·.diagnostics)) last' := by
  have hstart := Session.poised_start setting
  have hkeys : ∀ {units listed : List ProgramUnit} {reports reports' last last'},
      units.Perm listed → Session.checkUnits setting listed {} = .ok (reports, last) →
      Session.checkUnits setting units {} = .ok (reports', last') →
      ∀ callee, last'.store.get? callee ≠ none → last.store.get? callee ≠ none := by
    intro units listed reports reports' last last' hperm h h'
    rcases exists_checkUnits_of_perm huntangled hperm h with ⟨fault, hstops⟩ | ⟨_, _, hok, hkeys⟩
    · rw [hstops.checkUnits_eq] at h'
      cases h'
    · obtain ⟨-, rfl⟩ := Prod.mk.inj (Except.ok.inj (h'.symm.trans hok))
      exact hkeys
  obtain ⟨jobs, records, rfl, hran, hlast⟩ := ran_checkUnits huntangled hstart h
  obtain ⟨jobs', records', rfl, hran', hlast'⟩ := ran_checkUnits huntangled hstart h'
  exact hran.sameRuns hran' hlast.recorded hlast'.recorded hperm fun callee =>
    ⟨hkeys hperm h h' callee, hkeys hperm.symm h' h callee⟩

end Runs

/-! ## Programs -/

section Programs

variable {setting : Setting} {units listed : List ProgramUnit} {session : Session} {fault : Fault}

theorem StopsWriting.ordered (h : StopsWriting setting fault listed session) :
    StopsWriting (setting.ordered units) fault listed session := by
  induction h with
  | here hfresh hcheck hwritten hstops =>
      obtain ⟨t, ht, chan, hchan, hfault⟩ := hstops
      have hdescribe := Trace.describe_ordered setting.program units
      refine .here hfresh (by rw [check_ordered]; exact hcheck)
        ((congrArg (List.mapM · _) hdescribe).trans hwritten) ⟨t, ht, chan, hchan, ?_⟩
      exact (congrFun (ChanRef.describe_ordered setting.program units) chan).trans hfault
  | later hunit _ ih => exact .later (by rw [Session.checkUnit_ordered]; exact hunit) ih

/-- The check of the program gives up at a procedure whose trace has a channel that cannot be
written out. -/
def Setting.GivesUpWriting (setting : Setting) : Prop :=
  ∃ fault, checkProgram setting = .error (.fault fault) ∧
    StopsWriting setting fault setting.program.units {}

theorem StopsWriting.givesUpWriting (h : StopsWriting setting fault units {}) :
    (setting.ordered units).GivesUpWriting := by
  refine ⟨fault, ?_, h.ordered⟩
  rw [checkProgram]
  exact congrArg (· >>= _) h.ordered.checkUnits_eq

/-- A program that is checked in one order is checked in another one, or its check gives up at a
trace that cannot be written out. -/
theorem checkProgram_ordered_or (huntangled : setting.program.Untangled) (hperm : units.Perm listed)
    (h : ∃ report, checkProgram (setting.ordered listed) = .ok report) :
    (∃ report, checkProgram (setting.ordered units) = .ok report) ∨
      (setting.ordered units).GivesUpWriting := by
  obtain ⟨report, h⟩ := h
  obtain ⟨reports, last, hunits, -⟩ := (checkProgram_ordered_eq_ok setting listed).1 h
  rcases exists_checkUnits_of_perm huntangled hperm hunits with
    ⟨fault, hstops⟩ | ⟨reports', last', hunits', -⟩
  · exact .inr hstops.givesUpWriting
  · exact .inl ⟨_, (checkProgram_ordered_eq_ok setting units).2 ⟨reports', last', hunits', rfl⟩⟩

/-- The order of the units makes no difference: the program is checked in all orders or in none, and
what comes of it is the same up to a permutation of the atoms. Only where the trace of a procedure
has a channel that cannot be written out (a handle that leads nowhere, or an expression that
contains itself) it matters whether the procedure is checked as a unit or for another one. -/
theorem checkProgram_perm (huntangled : setting.program.Untangled)
    (hperm : units.Perm setting.program.units) :
    (((∃ report, checkProgram setting = .ok report) ↔
        ∃ report, checkProgram (setting.ordered units) = .ok report) ∨
      setting.GivesUpWriting ∨ (setting.ordered units).GivesUpWriting) ∧
    ∀ report report', checkProgram setting = .ok report →
      checkProgram (setting.ordered units) = .ok report' → ∃ π last last',
        Session.checkUnits setting setting.program.units {} = .ok (report.units, last) ∧
        Session.checkUnits (setting.ordered units) units {} = .ok (report'.units, last') ∧
        SameRuns setting.program π report.diagnostics last report'.diagnostics last' ∧
        report'.attachedProcedures = report.attachedProcedures ∧
        report'.atomsMinted = report.atomsMinted := by
  constructor
  · have hforth := checkProgram_ordered_or huntangled hperm
    have hback := checkProgram_ordered_or huntangled hperm.symm
    -- The program as it is has its units in their own order.
    have hown : setting.ordered setting.program.units = setting := rfl
    rw [hown] at hforth hback
    tauto
  · intro report report' h h'
    obtain ⟨reports, last, hunits, rfl⟩ :=
      (checkProgram_ordered_eq_ok setting setting.program.units).1 h
    obtain ⟨reports', last', hunits', rfl⟩ := (checkProgram_ordered_eq_ok setting units).1 h'
    obtain ⟨π, hsame⟩ := sameRuns_of_perm huntangled hperm hunits hunits'
    refine ⟨π, last, last', hunits, ?_, hsame, hsame.attached, hsame.minted⟩
    rw [Session.checkUnits_ordered]
    exact hunits'

end Programs

/-- Procedures that instantiate no later ones are on no cycle of calls with others. -/
theorem Program.untangled_of_calls {program : Program}
    (h : ∀ caller callee, program.Calls (.proc caller) callee → callee.index ≤ caller.index) :
    program.Untangled := fun callee =>
  not_entangled_of_calls (fun caller other _ => h caller other) (Nat.lt_succ_self callee.index)

theorem exists_report_of_isOk {setting : Setting} (h : (checkProgram setting).isOk = true) :
    ∃ report, checkProgram setting = .ok report := by
  cases hcheck : checkProgram setting with
  | ok report => exact ⟨report, rfl⟩
  | error abort =>
      rw [hcheck] at h
      cases h

/-- A clock, and a user that starts over before it sets the clock. -/
def timer : Program where
  name := "timer"
  nodes := #[⟨.call ⟨0⟩ [], {}⟩, ⟨.compose .seq [⟨2⟩, ⟨3⟩], {}⟩, ⟨.call ⟨1⟩ [], {}⟩,
    ⟨.call ⟨0⟩ [], {}⟩]
  decls := #[{ name := "clock", body := some ⟨0⟩ }, { name := "user", body := some ⟨1⟩ }]
  units := [.proc ⟨0⟩, .proc ⟨1⟩]

theorem timer_untangled : timer.Untangled := by
  refine Program.untangled_of_calls fun ⟨caller⟩ ⟨callee⟩ => ?_
  rintro ⟨node, args, ⟨_, hroot, hreach⟩, written, hwritten, hcall⟩
  have hcallees : ∀ written ∈ timer.nodes, ∀ id ∈ written.value.callees, id.index ≤ 1 := by decide
  cases hroot with
  | proc hdecl hbody =>
    match caller with
    | 0 =>
      cases hdecl
      cases hbody
      rcases hreach.cases_head with rfl | ⟨part, ⟨outer, houter, hpart⟩, -⟩
      · cases hwritten
        cases hcall
        exact le_rfl
      · cases houter
        cases hpart
    | 1 =>
      have hentry := Array.mem_of_getElem? (Program.entry_of_construct hwritten)
      refine hcallees written hentry ⟨callee⟩ ?_
      rw [hcall]
      exact List.mem_singleton_self _
    | n + 2 => cases hdecl

/-- The user's own atom is minted before that of the clock if the user is checked first. -/
theorem timer_reordered : timer.Untangled ∧ [.proc ⟨1⟩, .proc ⟨0⟩].Perm timer.units ∧
    ∃ report report' π last last', checkProgram { program := timer } = .ok report ∧
      checkProgram (Setting.ordered { program := timer } [.proc ⟨1⟩, .proc ⟨0⟩]) = .ok report' ∧
      Session.checkUnits { program := timer } timer.units {} = .ok (report.units, last) ∧
      Session.checkUnits (Setting.ordered { program := timer } [.proc ⟨1⟩, .proc ⟨0⟩])
        [.proc ⟨1⟩, .proc ⟨0⟩] {} = .ok (report'.units, last') ∧
      SameRuns timer π report.diagnostics last report'.diagnostics last' ∧
      report'.attachedProcedures = report.attachedProcedures ∧
      report'.atomsMinted = report.atomsMinted := by
  have hperm : [.proc ⟨1⟩, .proc ⟨0⟩].Perm timer.units := List.Perm.swap _ _ _
  have hok : (checkProgram { program := timer }).isOk = true := by cbv
  have hok' : (checkProgram (Setting.ordered { program := timer }
    [.proc ⟨1⟩, .proc ⟨0⟩])).isOk = true := by cbv
  obtain ⟨report, hreport⟩ := exists_report_of_isOk hok
  obtain ⟨report', hreport'⟩ := exists_report_of_isOk hok'
  obtain ⟨π, last, last', hsame⟩ := (@checkProgram_perm { program := timer } _ timer_untangled
    hperm).2 report report' hreport hreport'
  exact ⟨timer_untangled, hperm, report, report', π, last, last', hreport, hreport', hsame⟩

/-- A procedure that writes to a channel without a name, and a user of it. -/
def leak : Program where
  name := "leak"
  exprs := #[⟨.name ⟨99⟩, {}⟩]
  nodes := #[⟨.output ⟨0⟩, {}⟩, ⟨.call ⟨0⟩ [], {}⟩]
  decls := #[{ name := "leak", body := some ⟨0⟩ }, { name := "user", body := some ⟨1⟩ }]
  units := [.proc ⟨0⟩, .proc ⟨1⟩]

theorem leak_untangled : leak.Untangled := by
  refine Program.untangled_of_calls fun caller callee => ?_
  rintro ⟨node, args, -, written, hwritten, hcall⟩
  have hcallees : ∀ written ∈ leak.nodes, ∀ id ∈ written.value.callees, id.index ≤ 0 := by decide
  have hentry := Array.mem_of_getElem? (Program.entry_of_construct hwritten)
  refine (hcallees written hentry callee ?_).trans (Nat.zero_le _)
  rw [hcall]
  exact List.mem_singleton_self _

/-- Checked as a unit, the procedure has its trace written out with the channel. Checked for its
user it does not. -/
theorem leak_reordered : leak.Untangled ∧ [.proc ⟨1⟩, .proc ⟨0⟩].Perm leak.units ∧
    ¬ ((∃ report, checkProgram { program := leak } = .ok report) ↔
      ∃ report, checkProgram (Setting.ordered { program := leak } [.proc ⟨1⟩, .proc ⟨0⟩]) =
        .ok report) := by
  refine ⟨leak_untangled, List.Perm.swap _ _ _, fun h => ?_⟩
  have hok : (checkProgram (Setting.ordered { program := leak }
    [.proc ⟨1⟩, .proc ⟨0⟩])).isOk = true := by cbv
  have hfault : (checkProgram { program := leak }).isOk = false := by cbv
  obtain ⟨report, hreport⟩ := h.2 (exists_report_of_isOk hok)
  rw [hreport] at hfault
  cases hfault

end ProcessContracts
