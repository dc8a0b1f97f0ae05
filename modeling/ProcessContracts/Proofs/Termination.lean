import ProcessContracts.Proofs.AcyclicQueries
import ProcessContracts.Proofs.PairedWalks
import ProcessContracts.Proofs.Totality

/-!
# Checks come to an end

A walk goes down the nodes of a procedure, and into the body of another procedure only while that
one is not open. What is left of both bounds how deep it nests, however the procedures call each
other. So a check never runs out of depth, and the bound it walks with decides nothing.
-/

namespace ProcessContracts

open Lookup

namespace Walk

open Invariant

variable {setting : Setting} {depth depth' : Nat} {units : List ProgramUnit} {node : NodeId}
  {alarm : Abort}

/-- A walk of a node that raises the alarm where a procedure is open twice, or where more procedures
are open than there are. -/
def watched (setting : Setting) (alarm : Abort) (visit : NodeId → Walk Unit) (node : NodeId) :
    Walk Unit := do
  let walked := procs (owners (← get).frames)
  if walked.Nodup ∧ walked.length ≤ setting.program.decls.size then visit node else throw alarm

/-- A walk in which every node is watched. -/
def watchedWithin (setting : Setting) (alarm : Abort) : Nat → NodeId → Walk Unit
  | 0, node => throw (.fault (.cyclicProcess node))
  | depth + 1, node => watched setting alarm (step setting (watchedWithin setting alarm depth)) node

/-- How deep a walk can nest from a node on, which need not be there. -/
noncomputable def descent (program : Program) (units : List ProgramUnit) (node : NodeId) : Nat :=
  program.nodeLevel node + program.nodes.size * (program.decls.size - (procs units).length)

section Descent

variable {program : Program} (h : program.Acyclic)
include h

theorem descent_lt_depthBound : descent program units node < depthBound program := by
  have hlevel := Program.nodeLevel_le h node
  have hproduct : program.nodes.size * (program.decls.size - (procs units).length) ≤
      program.nodes.size * program.decls.size := Nat.mul_le_mul_left _ (Nat.sub_le _ _)
  rw [descent, depthBound, Nat.add_mul, Nat.one_mul, Nat.mul_comm program.decls.size]
  omega

theorem descent_part {construct : Construct} {part : NodeId}
    (hnode : program.HasNode node construct) (hpart : part ∈ construct.children) :
    descent program units part < descent program units node :=
  Nat.add_lt_add_right (Program.nodeLevel_part h hnode hpart) _

/-- Walking the body of a callee uses up one of the procedures that are not open. -/
theorem descent_body {construct : Construct} {callee : DeclId} {body : NodeId}
    (hnode : program.HasNode node construct) (hlt : (procs units).length < program.decls.size) :
    descent program (.proc callee :: units) body < descent program units node := by
  have hbody := Program.nodeLevel_le h body
  have hpos := Program.nodeLevel_pos hnode
  have hrest : program.decls.size - (procs units).length =
      program.decls.size - ((procs units).length + 1) + 1 := by omega
  rw [descent, descent, procs_cons_proc, List.length_cons, hrest, Nat.mul_succ]
  omega

end Descent

/-- Each procedure is open once at most. -/
def opening (setting : Setting) : StateInvariant setting where
  Holds _ _ _ frames := Once setting.program (owners frames)
  mint _ hholds := hholds
  enter hopens hholds := hholds.enter hopens
  leave hholds := hholds.leave
  fold hfolds hholds := hholds.advance (hfolds.advances _ _)
  judge hholds _ := hholds.leave
  attach hholds _ := hholds

/-- The invariant that each procedure is open once at most and no walk nests too deep. -/
noncomputable def descending (setting : Setting) (h : setting.program.Acyclic) :
    Invariant setting where
  __ := (opening setting).toInvariant
  May depth units node := descent setting.program units node < depth
  child hmay hnode hpart :=
    Nat.lt_of_lt_of_le (descent_part h hnode hpart) (Nat.le_of_lt_succ hmay)
  body hholds hmay hinstance hnew _ := by
    obtain ⟨args, hnode, hdecl, -⟩ := hinstance
    exact Nat.lt_of_lt_of_le (descent_body h hnode (hholds.length_lt hdecl hnew))
      (Nat.le_of_lt_succ hmay)

variable {h : setting.program.Acyclic}

theorem begins_descending (unit : ProgramUnit) : (descending setting h).Begins unit :=
  begins_of_may (fun _ _ => descent_lt_depthBound h) unit

/-- No walk is given up over a cycle. -/
theorem not_isCycle_of_cause {fault : Fault}
    (hcause : (descending setting h).Cause (.fault fault)) :
    ¬ fault.IsCycle := by
  cases hcause with
  | deep hmay => exact absurd hmay (Nat.not_lt_zero _)
  | query _ _ _ hfault =>
      rcases hfault with hfault | hfault
      · exact Program.settles_constantValue h _ fault hfault
      · exact ChanRef.settles_ofExpr h _ fault hfault
  | altered _ _ _ hfault => exact settles_alteredChannels h _ _ _ fault hfault
  | name _ _ hfault => exact Program.settles_nameText _ fault hfault
  | instantiate _ _ hfault => exact Substitution.settles_apply h _ _ fault hfault
  | project _ hfault => exact settles_project h _ _ fault hfault
  | lower _ _ hfault => exact Contract.not_isCycle_of_lower h hfault
  | compare _ _ hfault => exact settles_refines h _ _ _ fault hfault
  | describe _ _ _ hfault => exact settles_contractDiagnostics h _ _ _ _ fault hfault

/-! ## Other depths, and watched walks -/

/-- Walks that may nest deeper do the same. -/
theorem agrees_deeper (hle : depth ≤ depth') : Agrees (descending setting h) (fun _ => False) depth
    (walkWithin setting depth) (walkWithin setting depth') := by
  induction depth generalizing depth' with
  | zero => exact fun _ _ _ _ hmay => absurd hmay (Nat.not_lt_zero _)
  | succ depth ih =>
      cases depth' with
      | zero => exact absurd hle (Nat.not_succ_le_zero depth)
      | succ depth' =>
          exact agrees_step (keeps_walkWithin depth) (ih (Nat.le_of_succ_le_succ hle))
            (presents_same _ setting.options.fragmentPolicy)

/-- The alarm is never raised. -/
theorem agrees_watched (depth : Nat) : Agrees (descending setting h) (fun _ => False) depth
    (walkWithin setting depth) (watchedWithin setting alarm depth) := by
  induction depth with
  | zero => exact fun _ _ _ _ _ => .refl _
  | succ depth ih =>
      intro state node hstate hbuckets hmay
      have honce : Once setting.program (owners state.frames) := hstate.holds
      have hstep := agrees_step (keeps_walkWithin depth) ih
        (presents_same _ setting.options.fragmentPolicy) hstate hbuckets hmay
      have hguard : (watchedWithin setting alarm (depth + 1) node).run state =
          (step setting (watchedWithin setting alarm depth) node).run state := by
        change EStateM.run (if _ then _ else _) state = _
        rw [if_pos ⟨honce.nodup, honce.length_le⟩]
      rw [InStep, hguard]
      exact hstep

end Walk

open Walk

/-- Checks of every program without a cyclic expression or process end, whatever its procedures call
and whatever is stored. Neither the depth of walks nor that of queries is ever used up, so that
larger ones make no difference; and when a node is walked, no procedure is open twice and at most as
many are open as there are. -/
theorem check_terminates (setting : Setting) (h : setting.program.Acyclic) (unit : ProgramUnit)
    (session : Session) :
    (∀ fault last, check setting unit session = (.error (.fault fault), last) → ¬ fault.IsCycle) ∧
    (∀ depth, depthBound setting.program ≤ depth →
      checkWith setting (walkWithin setting depth) unit session = check setting unit session) ∧
    (∀ id depth, setting.program.exprDepth ≤ depth →
      setting.program.stripWithin depth id = setting.program.strip id ∧
      setting.program.constantWithin depth id = setting.program.constantValue id ∧
      setting.program.describeWithin depth id = setting.program.describe id) ∧
    (∀ alarm,
      checkWith setting (watchedWithin setting alarm (depthBound setting.program)) unit session
      = check setting unit session) := by
  have hholds :
      (descending setting h).Holds session.supply.minted session.store session.history [] :=
    Once.nil
  refine ⟨fun fault last hcheck => ?_, fun depth hdepth => ?_, fun id depth hdepth => ?_,
    fun alarm => ?_⟩
  · have hchecked := checked hholds (begins_descending (h := h) unit)
    rw [hcheck] at hchecked
    rcases hchecked.2 with hcause | hmissing
    · exact not_isCycle_of_cause hcause
    · cases hmissing
  · exact checkWith_eq_check (agrees_deeper hdepth) hholds (begins_descending unit)
  · have hlevel := Program.exprLevel_lt h id
    have hlevel' := Nat.lt_of_lt_of_le hlevel hdepth
    exact ⟨(Program.stripWithin_settled h hlevel' hlevel).1,
      (Program.constantWithin_settled h hlevel' hlevel).1,
      (Program.describeWithin_settled h hlevel' hlevel).1⟩
  · exact checkWith_eq_check (agrees_watched _) hholds (begins_descending unit)

/-- The procedures of the exchange call each other in turn. -/
theorem exchange_terminates : exchange.Acyclic ∧
    ∀ alarm, checkWith { program := exchange }
      (watchedWithin { program := exchange } alarm (depthBound exchange)) (.proc ⟨0⟩) {} =
        check { program := exchange } (.proc ⟨0⟩) {} :=
  ⟨inOrder_exchange.acyclic,
    (check_terminates { program := exchange } inOrder_exchange.acyclic (.proc ⟨0⟩) {}).2.2.2⟩

end ProcessContracts
