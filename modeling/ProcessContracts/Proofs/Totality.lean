import ProcessContracts.Proofs.AnsweredInstances
import ProcessContracts.Proofs.PairedWalks
import ProcessContracts.Proofs.ScopedChecks

/-!
# Checks that always answer

In a program in order no query is left without an answer, and walks nest only as deep as the bound
allows: inside one procedure they go down the nodes, and a procedure is walked inside others only
while it is not open itself.
-/

namespace ProcessContracts

open Lookup Trace

variable {setting : Setting} {n n' depth : Nat} {store : TraceStore} {frames : List Scope}
  {scope : Scope} {units : List ProgramUnit} {node : NodeId} {callee : DeclId} {decl : Decl}

/-- The procedures among some units. -/
def procs (units : List ProgramUnit) : List Nat :=
  units.filterMap fun unit => unit.decl?.map (·.index)

theorem procs_cons_proc : procs (.proc callee :: units) = callee.index :: procs units := rfl

theorem mem_procs {index : Nat} : index ∈ procs units ↔ .proc ⟨index⟩ ∈ units := by
  rw [procs, List.mem_filterMap]
  constructor
  · rintro ⟨unit, hunit, hsome⟩
    obtain ⟨callee, hcallee, rfl⟩ := Option.map_eq_some_iff.1 hsome
    exact ProgramUnit.eq_proc_of_decl? hcallee ▸ hunit
  · exact fun hunit => ⟨_, hunit, rfl⟩

/-- Handles that come from the unit. -/
def ProgramUnit.InRange (program : Program) : ProgramUnit → Prop
  | .proc callee => callee.index < program.decls.size
  | .process node => node.index < program.nodes.size

/-- Handles of the traces in the store. -/
def Session.InRange (program : Program) (session : Session) : Prop :=
  ∀ callee traces, session.store.get? callee = some traces →
    ∀ t ∈ traces.alternatives, t.InRange program

namespace Walk

/-- Each procedure is open once at most, and is one of the program. -/
structure Once (program : Program) (units : List ProgramUnit) : Prop where
  nodup : (procs units).Nodup
  decls : ∀ index ∈ procs units, index < program.decls.size

/-- Each procedure is open once at most, and what was stored and passed is in range. -/
structure Ordered (program : Program) (store : TraceStore) (frames : List Scope) : Prop where
  nodup : (procs (owners frames)).Nodup
  decls : ∀ index ∈ procs (owners frames), index < program.decls.size
  entries : EntriesInRange program frames
  stored : ∀ callee traces, store.get? callee = some traces → ∀ t ∈ traces.alternatives,
    t.InRange program

/-- How deep walks can nest from a node on: down the nodes of its procedure, and down the nodes of
one procedure after the other that is not open yet. -/
noncomputable def nesting (program : Program) (units : List ProgramUnit) (node : NodeId) : Nat :=
  program.nodeHeight node + program.nodes.size * (program.decls.size - (procs units).length)

variable {program : Program}

theorem Once.nil : Once program [] := ⟨List.nodup_nil, fun _ h => nomatch h⟩

theorem Once.leave (h : Once program (owners (scope :: frames))) :
    Once program (owners frames) := by
  have hsub : (procs (owners frames)).Sublist (procs (owners (scope :: frames))) :=
    (List.sublist_cons_self _ _).filterMap _
  exact ⟨h.nodup.sublist hsub, fun index hindex => h.decls index (hsub.subset hindex)⟩

theorem Once.cons_proc (h : Once program units) (hdecl : program.decl callee = .ok decl)
    (hnew : .proc callee ∉ units) : Once program (.proc callee :: units) :=
  ⟨List.nodup_cons.2 ⟨fun hmem => hnew (mem_procs.1 hmem), h.nodup⟩, List.forall_mem_cons.2
    ⟨of_decide_eq_true (Program.containsDecl_of_ok hdecl), h.decls⟩⟩

theorem Once.enter (h : Once program (owners frames)) (hopens : program.Opens frames scope) :
    Once program (owners (scope :: frames)) := by
  rw [owners, List.map_cons]
  rcases hopens.owner with ⟨node, howner, -⟩ | ⟨callee, decl, howner, hdecl, hnew, -⟩
  · rw [howner]
    exact ⟨h.nodup, h.decls⟩
  · rw [howner]
    exact h.cons_proc hdecl hnew

theorem Once.advance {frames' : List Scope}
    (hframes : List.Forall₂ (Scope.Advances n) frames frames') (h : Once program (owners frames)) :
    Once program (owners frames') := owners_eq_of_advances hframes ▸ h

theorem Once.length_le (h : Once program units) : (procs units).length ≤ program.decls.size :=
  StateSet.length_le_of_nodup_lt h.nodup h.decls

/-- One more procedure can be open. -/
theorem Once.length_lt (h : Once program units) (hdecl : program.decl callee = .ok decl)
    (hnew : .proc callee ∉ units) : (procs units).length < program.decls.size :=
  (h.cons_proc hdecl hnew).length_le

theorem Ordered.once (h : Ordered program store frames) : Once program (owners frames) :=
  ⟨h.nodup, h.decls⟩

theorem Ordered.leave (h : Ordered program store (scope :: frames)) :
    Ordered program store frames :=
  ⟨h.once.leave.nodup, h.once.leave.decls, (List.forall_mem_cons.1 h.entries).2, h.stored⟩

theorem Ordered.enter (horder : program.InOrder) (hopens : program.Opens frames scope)
    (h : Ordered program store frames) : Ordered program store (scope :: frames) := by
  have honce := h.once.enter hopens
  refine ⟨honce.nodup, honce.decls,
    List.forall_mem_cons.2 ⟨fun bindings hbindings => ?_, h.entries⟩,
    h.stored⟩
  rcases hopens.owner with ⟨node, -, hentry⟩ | ⟨callee, decl, -, -, -, hentry⟩
  · cases hentry.symm.trans hbindings
  · obtain ⟨node, hinstance⟩ := hentry bindings hbindings
    exact Substitution.inRange_of_instantiates horder hinstance

/-- Scopes are open for the same instances later on. -/
theorem Ordered.advance {frames' : List Scope}
    (hframes : List.Forall₂ (Scope.Advances n) frames frames') (h : Ordered program store frames) :
    Ordered program store frames' := by
  have honce := h.once.advance hframes
  refine ⟨honce.nodup, honce.decls, fun scope hscope bindings hentry => ?_, h.stored⟩
  obtain ⟨i, hi, rfl⟩ := List.getElem_of_mem hscope
  have hlt : i < frames.length := hframes.length_eq ▸ hi
  exact h.entries frames[i] (List.getElem_mem hlt) bindings
    ((hframes.get hlt hi).entry.symm.trans hentry)

theorem nesting_child (horder : program.InOrder) {construct : Construct} {part : NodeId}
    (hnode : program.HasNode node construct) (hpart : part ∈ construct.children) :
    nesting program units part < nesting program units node :=
  Nat.add_lt_add_right (Program.part_of_hasNode horder hnode hpart).2 _

/-- Walking the body of a callee uses up one of the procedures that are not open. -/
theorem nesting_body (horder : program.InOrder) {body : NodeId}
    (hbody : body.index < program.nodes.size) (hlt : (procs units).length < program.decls.size) :
    nesting program (.proc callee :: units) body < nesting program units node := by
  have hheight := Program.nodeHeight_lt horder hbody
  have hrest : program.decls.size - (procs units).length =
      program.decls.size - ((procs units).length + 1) + 1 := by omega
  rw [nesting, nesting, procs_cons_proc, List.length_cons, hrest, Nat.mul_succ]
  omega

theorem nesting_lt_depthBound (horder : program.InOrder) (hnode : node.index < program.nodes.size) :
    nesting program units node < depthBound program := by
  have hheight := Program.nodeHeight_lt horder hnode
  have hproduct : program.nodes.size * (program.decls.size - (procs units).length) ≤
      program.nodes.size * program.decls.size := Nat.mul_le_mul_left _ (Nat.sub_le _ _)
  rw [nesting, depthBound, Nat.add_mul, Nat.one_mul, Nat.mul_comm program.decls.size]
  omega

/-- A channel expression that is answered is there. -/
theorem inRange_of_ofExpr (horder : program.InOrder) {expr : ExprId} {chan : ChanRef}
    (h : ChanRef.ofExpr program expr = .ok chan) : chan.InRange program := by
  obtain ⟨target, hstrip, -⟩ := Lookup.bind_eq_ok.1 h
  obtain ⟨e, hexpr, -⟩ := Lookup.bind_eq_ok.1 hstrip
  have hrange : program.InExprs expr := by
    refine Decidable.byContradiction fun hout => ?_
    rw [Program.expr, Program.spannedExpr, Array.getElem?_eq_none (Nat.not_lt.1 hout)] at hexpr
    cases hexpr
  obtain ⟨found, hfound, hin⟩ := ChanRef.answers_ofExpr horder hrange
  obtain rfl := Except.ok.inj (h.symm.trans hfound)
  exact hin

/-- The invariant that everything is in range and no walk nests too deep. -/
noncomputable def order (setting : Setting) (horder : setting.program.InOrder) :
    Invariant setting where
  Holds _ store _ frames := Ordered setting.program store frames
  Fits _ _ t := t.InRange setting.program
  May depth units node := node.index < setting.program.nodes.size ∧
    nesting setting.program units node < depth
  later _ _ ht := ht
  skip := fun _ h => nomatch h
  stop := fun _ h => nomatch h
  div := fun _ h => nomatch h
  unresolved _ := fun _ h => nomatch h
  event _ h := List.forall_mem_singleton.2 (inRange_of_ofExpr horder h)
  comp _ hts := fun chan hchan => by
    obtain ⟨t, ht, hchan⟩ := mem_channels_comp.1 hchan
    exact hts t ht chan hchan
  loop _ _ _ ht := fun chan hchan => ht chan (by simpa [channels] using hchan)
  replication _ _ _ ht := fun chan hchan => ht chan (by simpa [channels] using hchan)
  ref _ _ := fun _ h => nomatch h
  bind {n store history scope frames t} _ ht := by
    cases scope.recursionAtom with
    | none => exact ht
    | some atom => exact ht
  simplify ht := ht.of_subset (channels_simplify_subset _)
  hide keep ht := ht.of_subset (channels_hide_subset keep _)
  instantiate hinstance happly ht := by
    obtain ⟨u, hu, hrange⟩ := Substitution.answers_apply horder
      (Substitution.inRange_of_instantiates horder hinstance) ht
    obtain rfl := Except.ok.inj (happly.symm.trans hu)
    exact hrange
  lowered _ hdecl hcontract hrun := (Contract.lowered_of_lower hrun).inRange horder
    (horder.inRange.contracts _ (Program.mem_of_decl hdecl) _ hcontract)
  stored hholds hget ht := hholds.stored _ _ hget _ ht
  mint _ hholds := hholds
  enter hopens hholds := hholds.enter horder hopens
  leave hholds := hholds.leave
  fold hfolds hholds := hholds.advance (hfolds.advances _ _)
  judge hholds _ := hholds.leave
  attach hholds ht _ :=
    ⟨hholds.nodup, hholds.decls, hholds.entries, TraceStore.forall_insert hholds.stored ht _⟩
  child hmay hnode hpart := ⟨(Program.part_of_hasNode horder hnode hpart).1,
    Nat.lt_of_lt_of_le (nesting_child horder hnode hpart) (Nat.le_of_lt_succ hmay.2)⟩
  body hholds hmay hinstance hnew hbody := by
    obtain ⟨-, -, hdecl, -⟩ := hinstance
    have hrange := horder.inRange.bodies _ (Program.mem_of_decl hdecl) _ hbody
    exact ⟨hrange, Nat.lt_of_lt_of_le (nesting_body horder hrange
      (hholds.once.length_lt hdecl hnew))
      (Nat.le_of_lt_succ hmay.2)⟩

/-- There is no cause to give up. -/
theorem not_cause_order {horder : setting.program.InOrder} {abort : Abort} :
    ¬ (order setting horder).Cause abort := by
  intro hcause
  cases hcause with
  | deep hmay => exact Nat.not_lt_zero _ hmay.2
  | unknownNode hmay hmissing => exact of_decide_eq_false hmissing hmay.1
  | query hmay hnode hexpr hfault =>
      obtain ⟨written, hmem, hwritten⟩ := Program.mem_of_hasNode hnode
      have hrange := horder.inRange.exprs written hmem _ (hwritten ▸ hexpr)
      rcases hfault with hfault | hfault
      · exact (Program.answers_constantValue horder hrange).ne_error _ hfault
      · exact (ChanRef.answers_ofExpr horder hrange).ne_error _ hfault
  | unknownDecl hmay hnode hmissing =>
      obtain ⟨written, hmem, hwritten⟩ := Program.mem_of_hasNode hnode
      refine of_decide_eq_false hmissing (horder.inRange.callees written hmem _ ?_)
      rw [hwritten]
      exact List.mem_singleton_self _
  | @arity _ _ _ _ args decl _ _ hnode hdecl hpair =>
      have hlength := horder.arities _ _ args decl hnode hdecl
      unfold Substitution.pair at hpair
      dsimp only at hpair
      rw [if_pos (by rw [List.length_map, List.length_map, hlength]; rfl)] at hpair
      cases hpair
  | @altered _ _ _ frames inner _ _ _ _ _ hholds hinner hinstance hfault =>
      have hentries : EntriesInRange setting.program inner := fun scope hscope =>
        hholds.entries scope.frame (hinner.subset (List.mem_map_of_mem hscope))
      exact (answers_alteredChannels horder hentries
        (Substitution.inRange_of_instantiates horder hinstance) _).ne_error _ hfault
  | name hdecl hparam hfault =>
      have hrange := horder.inRange.params _ (Program.mem_of_decl hdecl) _ hparam
      exact (Program.answers_nameText hrange).ne_error _ hfault
  | instantiate ht hinstance hfault =>
      exact (Substitution.answers_apply horder
        (Substitution.inRange_of_instantiates horder hinstance) ht).ne_error _ hfault
  | project ht hfault => exact (answers_project horder ht _).ne_error _ hfault
  | lower hdecl hcontract hfault =>
      have hchannels := horder.inRange.contracts _ (Program.mem_of_decl hdecl) _ hcontract
      exact Contract.not_refused_of_inRange horder hchannels (Contract.refused_of_lower hfault)
  | compare hspec hcomputed hfault =>
      exact (answers_refines horder hspec hcomputed _).ne_error _ hfault
  | describe hspec hcomputed hrefines hfault =>
      obtain ⟨report, hreport, hrange⟩ := answers_refines horder hspec hcomputed _
      obtain rfl := Except.ok.inj (hrefines.symm.trans hreport)
      exact (answers_contractDiagnostics horder hcomputed hrange).ne_error _ hfault

theorem begins_order {horder : setting.program.InOrder} {unit : ProgramUnit}
    (hunit : unit.InRange setting.program) : (order setting horder).Begins unit := by
  cases unit with
  | proc callee =>
      intro decl body hdecl hbody
      have hrange := horder.inRange.bodies decl (Program.mem_of_decl hdecl) body hbody
      exact ⟨hrange, nesting_lt_depthBound horder hrange⟩
  | process node => exact fun _ => ⟨hunit, nesting_lt_depthBound horder hunit⟩

end Walk

/-- A check in a program in order answers, and for what is walked with one behaviour. -/
theorem check_answers {unit : ProgramUnit} {session : Session} (horder : setting.program.InOrder)
    (hunit : unit.InRange setting.program) (hstore : Session.InRange setting.program session) :
    ∃ outcome last, check setting unit session = (.ok outcome, last) ∧
      (unit.IsWalked setting.program → outcome.traces.alternatives.length = 1) := by
  have hholds : (Walk.order setting horder).Holds session.supply.minted session.store
      session.history [] := ⟨List.nodup_nil, by simp [procs, owners], by simp [Walk.EntriesInRange],
    hstore⟩
  have hchecked := checked hholds (Walk.begins_order hunit)
  generalize check setting unit session = result at hchecked ⊢
  obtain ⟨answer, last⟩ := result
  cases answer with
  | ok outcome => exact ⟨outcome, last, rfl, hchecked.2.2.1⟩
  | error abort =>
      rcases hchecked.2 with hcause | hmissing
      · exact absurd hcause Walk.not_cause_order
      · cases hmissing with
        | proc hmissing => exact (of_decide_eq_false hmissing hunit).elim
        | process hmissing => exact (of_decide_eq_false hmissing hunit).elim

/-- The bucket discipline of checks. A failure is never internal; a walk of a node in an open bucket
leaves everything as it found it, but for at most one fragment more in the innermost bucket; the
policy on surplus fragments makes no difference; and in a program in order a check answers. -/
theorem check_disciplined (setting : Setting) (unit : ProgramUnit) (session : Session) :
    (∀ error last, check setting unit session = (.error (.error error), last) →
      ¬ error.IsInternal) ∧
    (∀ depth node state, Receives state.buckets →
      match (Walk.walkWithin setting depth node).run state with
      | .ok _ last => Walk.Undisturbed state last
      | .error (.error error) _ => ¬ error.IsInternal
      | .error (.fault _) _ => True) ∧
    (∀ policy, check (setting.withPolicy policy) unit session = check setting unit session) ∧
    (setting.program.InOrder → unit.InRange setting.program →
      (∀ callee traces, session.store.get? callee = some traces →
        ∀ t ∈ traces.alternatives, t.InRange setting.program) →
      ∃ outcome last, check setting unit session = (.ok outcome, last) ∧
        (unit.IsWalked setting.program → outcome.traces.alternatives.length = 1)) := by
  exact ⟨fun _ _ => Walk.check_error_not_internal,
    fun depth node state => Walk.walkWithin_disciplined depth,
    fun policy => Walk.check_withPolicy setting policy unit session, check_answers⟩

theorem inOrder_exchange : exchange.InOrder := by
  refine Program.inOrder_of_ascending ⟨by decide, by decide, by decide, by decide, by decide,
    by decide, by decide, by decide⟩ (by decide) (by decide)
    fun node callee args decl hnode hdecl => ?_
  obtain ⟨written, hmem, hwritten⟩ := Program.mem_of_hasNode hnode
  simp only [exchange, List.mem_toArray, List.mem_cons, List.not_mem_nil, or_false] at hmem
  rcases hmem with rfl | rfl | rfl | rfl | rfl | rfl <;> cases hwritten <;>
    (obtain rfl := Except.ok.inj hdecl; rfl)

/-- The procedures of the exchange call each other, and checking one of them answers. -/
theorem exchange_disciplined : exchange.InOrder ∧ ∃ outcome last,
    check { program := exchange } (.proc ⟨0⟩) {} = (.ok outcome, last) ∧
      outcome.traces.alternatives.length = 1 := by
  obtain ⟨-, -, -, hanswers⟩ := check_disciplined { program := exchange } (.proc ⟨0⟩) {}
  obtain ⟨outcome, last, hcheck, hsingle⟩ := hanswers inOrder_exchange
    (show 0 < exchange.decls.size by decide) (by intro _ _ h; cases h)
  exact ⟨inOrder_exchange, outcome, last, hcheck, hsingle ⟨_, rfl, rfl⟩⟩

end ProcessContracts
