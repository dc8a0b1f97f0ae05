import ProcessContracts.Proofs.Approximations
import ProcessContracts.Proofs.ScopedChecks
import ProcessContracts.Proofs.ShiftedWalks

/-!
# Units that fail

A check that is given up leaves the atoms it minted and the traces it attached. The atoms cannot be
noticed. Of the traces later reports tell nothing, since the diagnostics that were found with them
are lost; so a failure is without consequence for units that lead to none of these procedures.
-/

namespace ProcessContracts

/-! ## Sessions -/

namespace Walk

/-- As many atoms were minted, and no other condition. -/
def minting (setting : Setting) (least : Nat) : StateInvariant setting where
  Holds n _ _ _ := least ≤ n
  mint hle hholds := hholds.trans hle
  enter _ hholds := hholds
  leave hholds := hholds
  fold hfolds hholds := hholds.trans hfolds.minted_le
  judge hholds _ := hholds
  attach hholds _ := hholds

end Walk

namespace Session

variable {program : Program} {session : Session} {setting : Setting} {unit : ProgramUnit}

/-- What any invariant of walks says about a session, a check keeps. -/
theorem holds_check (I : Walk.Invariant setting) (hbegins : I.Begins unit)
    (h : I.Holds session.supply.minted session.store session.history []) :
    ∃ frames, I.Holds (check setting unit session).2.supply.minted
      (check setting unit session).2.store (check setting unit session).2.history frames := by
  have hchecked := checked h hbegins
  generalize check setting unit session = result at hchecked ⊢
  obtain ⟨answer, last⟩ := result
  cases answer with
  | ok outcome => exact ⟨[], hchecked.1⟩
  | error abort => exact hchecked.1

theorem minted_le_check : session.supply.minted ≤ (check setting unit session).2.supply.minted := by
  have hbegins := (Walk.minting setting session.supply.minted).begins unit
  obtain ⟨_, h⟩ := holds_check _ hbegins (Nat.le_refl _)
  exact h

theorem WellScoped.check (h : session.WellScoped) : (check setting unit session).2.WellScoped := by
  have hbegins : (Walk.scoping setting).Begins unit :=
    Walk.Invariant.begins_of_may (fun _ _ => trivial) unit
  obtain ⟨_, h⟩ := holds_check _ hbegins (h.holds setting)
  exact wellScoped_of_holds h

theorem Reached.wellScoped (h : session.Reached program) : session.WellScoped := by
  induction h with
  | start => exact fun _ _ hget => nomatch hget
  | check options unit _ ih => exact ih.check

theorem minted_le_checkUnit :
    session.supply.minted ≤ (session.checkUnit setting unit).2.supply.minted := by
  unfold checkUnit
  split
  · exact Nat.le_refl _
  · exact minted_le_check

/-- The answers to checking units one after the other, each under its own options, going on after
those that fail. -/
def checkEach (program : Program) :
    List (Options × ProgramUnit) → Session → List (Except Abort UnitReport)
  | [], _ => []
  | (options, unit) :: rest, session =>
      (session.checkUnit ⟨program, options⟩ unit).1 ::
        checkEach program rest (session.checkUnit ⟨program, options⟩ unit).2

end Session

/-! ## Later units -/

namespace Renumbering

variable {program : Program} (r : Renumbering program)

/-- Answers that tell the same, but for the numbers of atoms. -/
def Answers : Except Abort UnitReport → Except Abort UnitReport → Prop
  | .ok report, .ok report' => r.Reports report report'
  | .error abort, .error abort' => abort' = abort
  | _, _ => False

variable {r}

theorem answers_checkEach {steps : List (Options × ProgramUnit)}
    (hknows : ∀ step ∈ steps, r.Knows step.2) {session session' : Session}
    (h : r.Sessions session session') : List.Forall₂ r.Answers
      (session.checkEach program steps) (session'.checkEach program steps) := by
  induction steps generalizing session session' with
  | nil => exact .nil
  | cons step rest ih =>
      obtain ⟨options, unit⟩ := step
      obtain ⟨hunit, hrest⟩ := List.forall_mem_cons.1 hknows
      have hchecks := @checks_checkUnit ⟨program, options⟩ r unit session session' hunit h
      unfold Session.checkEach
      generalize session.checkUnit ⟨program, options⟩ unit = result,
        session'.checkUnit ⟨program, options⟩ unit = result' at hchecks ⊢
      obtain ⟨answer, last⟩ := result
      obtain ⟨answer', last'⟩ := result'
      cases answer with
      | ok report =>
          cases answer' with
          | ok report' => exact .cons hchecks.1 (ih hrest hchecks.2)
          | error => exact hchecks.elim
      | error abort =>
          cases answer' with
          | ok => exact hchecks.elim
          | error abort' => exact .cons hchecks.1 (ih hrest hchecks.2)

/-- The atoms after the first `n`, with `d` more minted before them. -/
def shift (n d : Nat) (id : AtomId) : AtomId := if id.index < n then id else ⟨id.index + d⟩

theorem shift_injective (n d : Nat) : (shift n d).Injective := by
  intro a b h
  have hindex : (if a.index < n then a.index else a.index + d) =
      if b.index < n then b.index else b.index + d := by
    simpa only [shift, apply_ite AtomId.index] using congrArg AtomId.index h
  obtain ⟨i⟩ := a
  obtain ⟨j⟩ := b
  have hij : i = j := by
    dsimp only at hindex
    split at hindex <;> split at hindex <;> omega
  exact congrArg AtomId.mk hij

/-- Later on, with `d` more atoms minted, the same procedures have the same traces. -/
def after (program : Program) (n d : Nat) (known : DeclId → Prop)
    (closed : ∀ {caller callee}, known caller → program.Calls (.proc caller) callee →
      known callee) :
    Renumbering program where
  f := shift n d
  injective := shift_injective n d
  first := n
  first' := n + d
  minted i := by
    rw [shift, if_neg (by dsimp only; omega)]
    exact congrArg AtomId.mk (Nat.add_right_comm n i d)
  known := known
  closed := closed

end Renumbering

open Trace in
/-- Renumberings that agree on the atoms of a trace are the same for it. -/
theorem Trace.Scoped.renumber_congr {n : Nat} {bound : List AtomId} {t : Trace}
    {f g : AtomId → AtomId} (hfg : ∀ id : AtomId, id.index < n → f id = g id)
    (hbound : ∀ id ∈ bound, id.index < n) (h : t.Scoped n bound) : t.renumber f = t.renumber g := by
  induction t generalizing bound with
  | atom => exact h.elim
  | ref id => exact congrArg ref (hfg id (hbound id h))
  | comp op ts ih =>
      rw [renumber, renumber, renumberAll_eq_map, renumberAll_eq_map]
      exact congrArg (comp op) (List.map_congr_left fun t ht =>
        ih t ht hbound (scoped_comp.1 h t ht))
  | fix binder body ih =>
      obtain ⟨hbinder, -, hbody⟩ := h
      have hinner := ih (List.forall_mem_cons.2 ⟨hbinder, hbound⟩) hbody
      rw [renumber, renumber, Atom.renumber, Atom.renumber, hfg binder.id hbinder, hinner]
  | _ => rfl

theorem Trace.WellScoped.renumber_eq {n : Nat} {t : Trace} {f : AtomId → AtomId}
    (h : t.WellScoped n) (hf : ∀ id : AtomId, id.index < n → f id = id) : t.renumber f = t :=
  (h.scoped.renumber_congr hf (List.forall_mem_nil _)).trans t.renumber_id

variable {program : Program} {session failed : Session}

/-- Whatever a unit that failed has done, later units do not notice, one after the other and whether
they fail or not, unless it attached a trace to a procedure that one of them leads to. -/
theorem reports_after_failure (hreached : session.Reached program) {options : Options}
    {unit : ProgramUnit} {abort : Abort}
    (hfails : session.checkUnit ⟨program, options⟩ unit = (.error abort, failed))
    (later : List (Options × ProgramUnit))
    (hsame : ∀ step ∈ later, ∀ callee, step.2 = .proc callee ∨ program.Leads step.2 callee →
      failed.store.get? callee = session.store.get? callee) :
    ∃ r : Renumbering program, (∀ id, id.index < session.supply.minted → r.f id = id) ∧
      List.Forall₂ r.Answers (session.checkEach program later)
        (failed.checkEach program later) := by
  have hle := @Session.minted_le_checkUnit session ⟨program, options⟩ unit
  rw [hfails] at hle
  obtain ⟨d, hd⟩ := Nat.exists_eq_add_of_le hle
  -- Closed under calls, since who leads to a caller leads to its callees.
  let known : DeclId → Prop := fun callee =>
    ∃ step ∈ later, step.2 = .proc callee ∨ program.Leads step.2 callee
  have hclosed : ∀ {caller callee}, known caller → program.Calls (.proc caller) callee →
      known callee := by
    rintro caller callee ⟨step, hstep, hcaller⟩ hcalls
    refine ⟨step, hstep, .inr ?_⟩
    rcases hcaller with heq | hleads
    · exact heq ▸ hcalls.leads
    · exact hleads.trans hcalls.leads
  let r := Renumbering.after program session.supply.minted d known hclosed
  have hkeeps : ∀ id, id.index < session.supply.minted → r.f id = id := fun id hid => if_pos hid
  have hsessions : r.Sessions session failed := by
    refine ⟨⟨0, rfl, hd⟩, fun callee ⟨step, hstep, hleads⟩ => ?_⟩
    rw [hsame step hstep callee hleads]
    cases hget : session.store.get? callee with
    | none => rfl
    | some traces =>
        have hsame : traces.alternatives.map (Trace.renumber r.f) = traces.alternatives :=
          (List.map_congr_left fun t ht =>
            (hreached.wellScoped callee traces hget t ht).renumber_eq hkeeps).trans (List.map_id' _)
        exact congrArg some (congrArg TraceSet.mk hsame.symm)
  refine ⟨r, hkeeps, Renumbering.answers_checkEach (fun step hstep => ?_) hsessions⟩
  exact ⟨fun callee heq => ⟨step, hstep, .inl heq⟩,
    fun callee hcalls => ⟨step, hstep, .inr hcalls.leads⟩⟩

/-! ## A case -/

/-- A procedure that does not meet its contract, and processes that pass it too few arguments: one
after it was instantiated as it should be, one after a loop. -/
def courier : Program where
  name := "courier"
  names := #[⟨"c", .param ⟨0⟩ 0 false, {}⟩, ⟨"d", .channel, {}⟩]
  exprs := #[⟨.name ⟨0⟩, {}⟩, ⟨.name ⟨1⟩, {}⟩, ⟨.bool true, {}⟩]
  nodes := #[⟨.loop ⟨2⟩ ⟨1⟩, {}⟩, ⟨.output ⟨0⟩, {}⟩, ⟨.compose .seq [⟨3⟩, ⟨4⟩], {}⟩,
    ⟨.call ⟨0⟩ [⟨⟨1⟩, false⟩], {}⟩, ⟨.call ⟨0⟩ [], {}⟩, ⟨.compose .seq [⟨6⟩, ⟨4⟩], {}⟩,
    ⟨.loop ⟨2⟩ ⟨7⟩, {}⟩, ⟨.output ⟨1⟩, {}⟩]
  decls := #[{ name := "deliver", params := [⟨⟨0⟩, true, false⟩], body := some ⟨0⟩
               contract := some ⟨.stop, {}⟩ }]

/-- What is wrong with the procedure, with its first atom written out. -/
def undelivered (atom : String) : Diagnostic where
  code := .refinementViolation
  severity := .error
  message := "'deliver' does not meet its contract: initially it may perform c!"
  span := some {}
  decl := some ⟨0⟩
  help := some ("computed behaviour: Fix " ++ atom ++ ". Seq(c!, " ++ atom ++ ")")

/-- The violation is reported neither with the process that had the procedure checked, since that
process fails, nor with the procedure itself. -/
theorem courier_lost :
    (Session.checkEach courier [({}, .process ⟨2⟩), ({}, .proc ⟨0⟩)] {}).map
      (Except.map UnitReport.diagnostics) =
        [.error (.error (.arityMismatch "deliver" ⟨4⟩ 1 0)), .ok []] ∧
    (Session.checkEach courier [({}, .proc ⟨0⟩)] {}).map (Except.map UnitReport.diagnostics) =
      [.ok [undelivered "a0"]] :=
  ⟨by cbv, by cbv⟩

/-- After the process with the loop, the procedure is reported with another atom. -/
theorem courier_reported : ∃ failed,
    Session.checkUnit ⟨courier, {}⟩ (.process ⟨5⟩) {} =
      (.error (.error (.arityMismatch "deliver" ⟨4⟩ 1 0)), failed) ∧
    (Session.checkEach courier [({}, .proc ⟨0⟩)] failed).map (Except.map UnitReport.diagnostics) =
      [.ok [undelivered "a1"]] ∧
    ∃ r : Renumbering courier, List.Forall₂ r.Answers
      (Session.checkEach courier [({}, .proc ⟨0⟩)] {})
      (Session.checkEach courier [({}, .proc ⟨0⟩)] failed) := by
  have hfails : Session.checkUnit ⟨courier, {}⟩ (.process ⟨5⟩) {} =
      (.error (.error (.arityMismatch "deliver" ⟨4⟩ 1 0)), ⟨⟨1⟩, {}, []⟩) := by cbv
  obtain ⟨r, -, hanswers⟩ := reports_after_failure .start hfails [({}, .proc ⟨0⟩)]
    fun _ _ _ _ => rfl
  exact ⟨_, hfails, by cbv, r, hanswers⟩

end ProcessContracts
