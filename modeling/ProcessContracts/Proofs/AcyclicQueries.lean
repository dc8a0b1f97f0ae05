import ProcessContracts.Proofs.SearchFaults
import ProcessContracts.Proofs.Walks
import ProcessContracts.Proofs.WellFormed

/-!
# Queries of programs without cycles

Handles may lead nowhere, but where no expression contains itself a query never runs out of depth:
it is answered or meets an entry that is missing, and a larger depth makes no difference to it.
-/

namespace ProcessContracts

/-- The fault of a chain of entries that leads back to itself. -/
def Fault.IsCycle : Fault → Prop
  | .cyclicExpr _ | .cyclicProcess _ => True
  | .missingName _ | .missingExpr _ | .missingNode _ | .missingDecl _ => False

/-- No expression and no process contains itself. -/
structure Program.Acyclic (program : Program) : Prop where
  exprs : ∀ id, ¬ Relation.TransGen program.Operand id id
  nodes : ∀ node, ¬ Relation.TransGen program.Part node node

theorem Program.InOrder.acyclic {program : Program} (h : program.InOrder) : program.Acyclic :=
  ⟨h.exprs_acyclic, h.nodes_acyclic⟩

namespace Lookup

variable {α β : Type}

/-- If the query is not answered, then not because of a cycle. -/
def Settles (query : Lookup α) : Prop := ∀ fault, query = .error fault → ¬ fault.IsCycle

theorem settles_pure (a : α) : Settles (pure a : Lookup α) := fun _ h => by cases h

theorem Settles.bind {query : Lookup α} {f : α → Lookup β} (h : Settles query)
    (hf : ∀ a, Settles (f a)) : Settles (query >>= f) := by
  intro fault hfault
  rcases bind_eq_error.1 hfault with hfault | ⟨a, -, hfault⟩
  · exact h fault hfault
  · exact hf a fault hfault

theorem Settles.map {query : Lookup α} (h : Settles query) (f : α → β) : Settles (query.map f) := by
  cases query with
  | ok a => exact fun _ hfault => by cases hfault
  | error fault =>
      rintro _ ⟨⟩
      exact h fault rfl

theorem settles_mapM {f : α → Lookup β} (h : ∀ a, Settles (f a)) (l : List α) :
    Settles (l.mapM f) := fun fault hfault => by
  obtain ⟨a, -, ha⟩ := exists_error_of_mapM hfault
  exact h a fault ha

theorem settles_forM {query : α → Lookup β} (h : ∀ a, Settles (query a)) (l : List α) :
    Settles (l.forM fun a => discard (query a)) := fun fault hfault => by
  obtain ⟨a, -, ha⟩ := exists_error_of_forM hfault
  exact h a fault ha

end Lookup

open Lookup

/-! ## Levels -/

namespace Program

open Classical

variable {program : Program}

/-- How deep a query about an expression can go: not at all if there is no such entry. -/
noncomputable def exprLevel (program : Program) (id : ExprId) : Nat :=
  if program.InExprs id then program.exprHeight id + 1 else 0

noncomputable def nodeLevel (program : Program) (node : NodeId) : Nat :=
  if node.index < program.nodes.size then program.nodeHeight node + 1 else 0

variable (h : program.Acyclic)
include h

theorem exprLevel_lt (id : ExprId) : program.exprLevel id < program.exprDepth := by
  unfold exprLevel exprDepth
  split
  case isTrue hid => exact Nat.succ_lt_succ (height_lt h.exprs hid)
  case isFalse => exact Nat.succ_pos _

/-- Queries about an operand go less deep. -/
theorem exprLevel_operand {id operand : ExprId} {e : Expr} (hexpr : program.expr id = .ok e)
    (hoperand : operand ∈ e.operands) : program.exprLevel operand < program.exprLevel id := by
  unfold expr spannedExpr at hexpr
  split at hexpr
  case h_2 => cases hexpr
  case h_1 written hget =>
    obtain rfl := Except.ok.inj hexpr
    have hid : program.InExprs id := (Array.getElem?_eq_some_iff.1 hget).1
    rw [exprLevel, exprLevel, if_pos hid]
    split
    case isTrue hrange =>
      exact Nat.succ_lt_succ (height_lt_of_rel h.exprs ⟨written, hget, hoperand⟩ hrange)
    case isFalse => exact Nat.succ_pos _

theorem nodeLevel_le (node : NodeId) : program.nodeLevel node ≤ program.nodes.size := by
  unfold nodeLevel
  split
  case isTrue hnode => exact height_lt h.nodes hnode
  case isFalse => exact Nat.zero_le _

theorem nodeLevel_part {node part : NodeId} {construct : Construct}
    (hnode : program.HasNode node construct) (hpart : part ∈ construct.children) :
    program.nodeLevel part < program.nodeLevel node := by
  obtain ⟨written, hget, rfl⟩ := hnode
  have hentry := entry_of_construct hget
  rw [nodeLevel, nodeLevel, if_pos (Array.getElem?_eq_some_iff.1 hentry).1]
  split
  case isTrue hrange =>
    exact Nat.succ_lt_succ (height_lt_of_rel h.nodes ⟨written, hentry, hpart⟩ hrange)
  case isFalse => exact Nat.succ_pos _

omit h in
theorem nodeLevel_pos {node : NodeId} {construct : Construct}
    (hnode : program.HasNode node construct) : 0 < program.nodeLevel node := by
  obtain ⟨written, hget, -⟩ := hnode
  rw [nodeLevel, if_pos (Array.getElem?_eq_some_iff.1 (entry_of_construct hget)).1]
  exact Nat.succ_pos _

/-! ## Expressions -/

omit h in
theorem settles_expr (expr : ExprId) : Settles (program.expr expr) := by
  refine Settles.map (fun fault hfault => ?_) _
  unfold spannedExpr at hfault
  split at hfault
  case h_1 => cases hfault
  case h_2 =>
    obtain rfl := Except.error.inj hfault
    exact id

omit h in
theorem settles_nameText (name : NameId) : Settles (program.nameText name) := by
  refine Settles.map (fun fault hfault => ?_) _
  unfold nameDecl at hfault
  split at hfault
  case h_1 => cases hfault
  case h_2 =>
    obtain rfl := Except.error.inj hfault
    exact id

/-- A query is made about an entry first. What it does next settles, and is the same at both
depths. -/
theorem sameAnswer_of_expr {α : Type} {id : ExprId} {f g : Expr → Lookup α}
    (hfg : ∀ e, program.expr id = .ok e →
      (∀ operand ∈ e.operands, program.exprLevel operand < program.exprLevel id) →
        f e = g e ∧ Settles (f e)) :
    (program.expr id >>= f) = (program.expr id >>= g) ∧ Settles (program.expr id >>= f) := by
  cases hexpr : program.expr id with
  | ok e => exact hfg e hexpr fun operand hoperand => exprLevel_operand h hexpr hoperand
  | error fault =>
      refine ⟨rfl, ?_⟩
      rintro _ ⟨⟩
      exact settles_expr id fault hexpr

variable {id : ExprId} {depth depth' : Nat} (hdepth : program.exprLevel id < depth)
  (hdepth' : program.exprLevel id < depth')
include hdepth hdepth'

theorem stripWithin_settled : program.stripWithin depth id = program.stripWithin depth' id ∧
    Settles (program.stripWithin depth id) := by
  induction depth generalizing id depth' with
  | zero => exact absurd hdepth (Nat.not_lt_zero _)
  | succ depth ih =>
      obtain ⟨depth', rfl⟩ := Nat.exists_eq_succ_of_ne_zero
        (Nat.ne_of_gt (Nat.zero_lt_of_lt hdepth'))
      refine sameAnswer_of_expr h fun e _ hlevel => ?_
      cases e with
      | decorated inner _ =>
          have hinner := hlevel inner List.mem_cons_self
          exact ih (by omega) (by omega)
      | _ => exact ⟨rfl, settles_pure id⟩

theorem constantWithin_settled :
    program.constantWithin depth id = program.constantWithin depth' id ∧
      Settles (program.constantWithin depth id) := by
  induction depth generalizing id depth' with
  | zero => exact absurd hdepth (Nat.not_lt_zero _)
  | succ depth ih =>
      obtain ⟨depth', rfl⟩ := Nat.exists_eq_succ_of_ne_zero
        (Nat.ne_of_gt (Nat.zero_lt_of_lt hdepth'))
      refine sameAnswer_of_expr h fun e _ hlevel => ?_
      have hoperand : ∀ operand ∈ e.operands,
          program.constantWithin depth operand = program.constantWithin depth' operand ∧
            Settles (program.constantWithin depth operand) := fun operand hmem => by
        have hlt := hlevel operand hmem
        exact ih (by omega) (by omega)
      cases e with
      | decorated inner _ => exact hoperand inner List.mem_cons_self
      | unary op operand =>
          obtain ⟨heq, hsettles⟩ := hoperand operand List.mem_cons_self
          dsimp only
          exact ⟨heq ▸ rfl, hsettles.bind fun _ => settles_pure _⟩
      | binary op left right =>
          obtain ⟨hleft, hsettlesLeft⟩ := hoperand left List.mem_cons_self
          obtain ⟨hright, hsettlesRight⟩ := hoperand right
            (List.mem_cons_of_mem _ List.mem_cons_self)
          dsimp only
          refine ⟨by rw [hleft, hright], hsettlesLeft.bind fun l => ?_⟩
          split
          · exact settles_pure _
          · exact hsettlesRight.bind fun _ => settles_pure _
      | _ => exact ⟨rfl, settles_pure _⟩

theorem describeWithin_settled :
    program.describeWithin depth id = program.describeWithin depth' id ∧
      Settles (program.describeWithin depth id) := by
  induction depth generalizing id depth' with
  | zero => exact absurd hdepth (Nat.not_lt_zero _)
  | succ depth ih =>
      obtain ⟨depth', rfl⟩ := Nat.exists_eq_succ_of_ne_zero
        (Nat.ne_of_gt (Nat.zero_lt_of_lt hdepth'))
      refine sameAnswer_of_expr h fun e _ hlevel => ?_
      have hoperand : ∀ operand ∈ e.operands,
          program.describeWithin depth operand = program.describeWithin depth' operand ∧
            Settles (program.describeWithin depth operand) := fun operand hmem => by
        have hlt := hlevel operand hmem
        exact ih (by omega) (by omega)
      cases e with
      | name name => exact ⟨rfl, settles_nameText name⟩
      | decorated inner _ => exact hoperand inner List.mem_cons_self
      | subscript base index =>
          obtain ⟨hbase, hsettlesBase⟩ := hoperand base List.mem_cons_self
          obtain ⟨hindex, hsettlesIndex⟩ := hoperand index
            (List.mem_cons_of_mem _ List.mem_cons_self)
          dsimp only
          exact ⟨by rw [hbase, hindex],
            hsettlesBase.bind fun _ => hsettlesIndex.bind fun _ => settles_pure _⟩
      | _ => exact ⟨rfl, settles_pure _⟩

omit hdepth hdepth'

theorem settles_strip (id : ExprId) : Settles (program.strip id) :=
  (stripWithin_settled h (exprLevel_lt h id) (exprLevel_lt h id)).2

theorem settles_constantValue (id : ExprId) : Settles (program.constantValue id) :=
  (constantWithin_settled h (exprLevel_lt h id) (exprLevel_lt h id)).2

theorem settles_describe (id : ExprId) : Settles (program.describe id) :=
  (describeWithin_settled h (exprLevel_lt h id) (exprLevel_lt h id)).2

theorem settles_resolveName (id : ExprId) : Settles (program.resolveName id) := by
  refine (settles_strip h id).bind fun target => (settles_expr target).bind fun e => ?_
  split
  · exact settles_pure _
  · exact settles_pure _

end Program

/-! ## Channels -/

section Channels

variable {program : Program} (h : program.Acyclic)
include h

theorem ChanRef.settles_ofExpr (id : ExprId) : Settles (ChanRef.ofExpr program id) := by
  refine (Program.settles_strip h id).bind fun target =>
    (Program.settles_expr target).bind fun e => ?_
  split
  · exact (Program.settles_strip h _).bind fun _ => settles_pure _
  · exact settles_pure _

theorem ChanRef.settles_isAmong (names : List NameId) (chan : ChanRef) :
    Settles (chan.isAmong program names) :=
  (Program.settles_resolveName h chan.root).bind fun _ => settles_pure _

theorem ChanRef.settles_describe (chan : ChanRef) : Settles (chan.describe program) := by
  refine (Program.settles_describe h chan.root).bind fun root => ?_
  split
  · exact (Program.settles_describe h _).bind fun _ => settles_pure _
  · exact settles_pure _

theorem ChannelKey.settles_resolve (chan : ChanRef) :
    Settles (ChannelKey.resolve program chan) := by
  have hroot : Settles (ChannelKey.resolveRoot program chan.root) := by
    refine (Program.settles_resolveName h chan.root).bind fun found => ?_
    split
    · exact settles_pure _
    · exact (Program.settles_strip h _).bind fun _ => settles_pure _
  have hindex : ∀ id, Settles (ChannelKey.resolveIndex program id) := fun id => by
    refine (Program.settles_constantValue h id).bind fun found => ?_
    split
    · exact settles_pure _
    · exact (Program.settles_strip h _).bind fun _ => settles_pure _
  refine hroot.bind fun root => ?_
  split
  · exact (hindex _).bind fun _ => settles_pure _
  · exact settles_pure _

theorem ChannelKey.settles_describe (key : ChannelKey) : Settles (key.describe program) := by
  unfold describe
  extract_lets withIndex
  have hindex : ∀ root, Settles (withIndex root) := by
    intro root
    dsimp only [withIndex]
    split
    · exact settles_pure _
    · exact (Program.settles_describe h _).bind fun _ => settles_pure _
    · exact settles_pure _
  cases key.root with
  | name id => exact (Program.settles_nameText id).bind hindex
  | expr id => exact (Program.settles_describe h id).bind hindex

theorem Label.settles_describe (label : Label) : Settles (label.describe program) := by
  cases label with
  | tick => exact settles_pure _
  | event direction key => exact (ChannelKey.settles_describe h key).bind fun _ => settles_pure _

theorem Counterexample.settles_describe (counterexample : Counterexample) :
    Settles (counterexample.describe program) := by
  refine (settles_mapM (Label.settles_describe h) _).bind fun path => ?_
  have hviolation : Settles (counterexample.violation.describe program) := by
    cases counterexample.violation with
    | unexpectedStep label => exact (Label.settles_describe h label).bind fun _ => settles_pure _
    | divergence => exact settles_pure _
    | unconstrained => exact settles_pure _
  exact hviolation.bind fun _ => settles_pure _

theorem Trace.settles_describe (t : Trace) : Settles (t.describe program) :=
  (settles_forM (ChanRef.settles_describe h) _).bind fun _ => settles_pure _

theorem settles_refines (spec imp : Trace) (limit : Nat) :
    Settles (refines program spec imp limit) := fun fault hfault => by
  obtain ⟨chan, -, hchan⟩ := exists_unresolved_of_refines hfault
  exact ChannelKey.settles_resolve h chan fault hchan

end Channels

/-! ## Instances and contracts -/

section Walks

variable {program : Program} (h : program.Acyclic)
include h

theorem Substitution.settles_redirect (bindings : Substitution) (chan : ChanRef) :
    Settles (redirect program bindings chan) := by
  have htarget : ∀ actual index, Settles (target program actual index) := fun actual index => by
    refine (Program.settles_expr actual).bind fun e => ?_
    split
    · exact (Program.settles_strip h _).bind fun _ => settles_pure _
    · exact settles_pure _
  refine (Program.settles_resolveName h chan.root).bind fun found => ?_
  split
  case h_1 => exact settles_pure _
  case h_2 =>
    split
    case h_1 => exact settles_pure _
    case h_2 =>
      refine (Program.settles_strip h _).bind fun actual =>
        (Program.settles_resolveName h actual).bind fun _ => ?_
      split
      case isTrue => exact settles_pure _
      case isFalse => exact htarget _ _

theorem Substitution.settles_apply (bindings : Substitution) (t : Trace) :
    Settles (bindings.apply program t) := by
  unfold apply
  split
  case isTrue => exact settles_pure _
  case isFalse => exact (settles_forM (settles_redirect h bindings) _).bind fun _ => settles_pure _

namespace Walk

theorem settles_tracedBack (entered : List Scope) (actual : ExprId) :
    Settles (tracedBack program entered actual) := by
  induction entered generalizing actual with
  | nil => exact settles_pure _
  | cons scope entered ih => exact (Program.settles_resolveName h actual).bind fun _ => ih _

theorem settles_alteredChannels (entered : List Scope) (bindings : Substitution)
    (params : List Param) : Settles (alteredChannels program entered bindings params) := by
  induction params with
  | nil => exact settles_pure _
  | cons param params ih =>
      rw [alteredChannels_cons]
      refine Settles.bind ?_ fun _ => ih.bind fun _ => settles_pure _
      unfold passes
      split
      · exact (settles_tracedBack h _ _).bind fun _ =>
          (Program.settles_resolveName h _).bind fun _ => settles_pure _
      · exact settles_pure _

variable {setting : Setting}

omit h in
theorem settles_project (h : setting.program.Acyclic) (interface : List NameId) (t : Trace) :
    Settles (project setting interface t) := by
  unfold project
  split
  case isTrue =>
    exact ((settles_forM (ChanRef.settles_isAmong h interface) _).bind
      fun _ => settles_pure _).bind fun _ => settles_pure _
  case isFalse => exact settles_pure _

omit h in
theorem settles_contractDiagnostics (h : setting.program.Acyclic) (name : String)
    (approximate : Bool) (computed : Trace) (report : RefinementReport) :
    Settles (contractDiagnostics setting name approximate computed report) := by
  unfold contractDiagnostics
  split
  · exact (Counterexample.settles_describe h _).bind fun _ =>
      (Trace.settles_describe h computed).bind fun _ => settles_pure _
  · exact settles_pure _
  · split
    · exact settles_pure _
    · split
      · exact (settles_mapM (Label.settles_describe h) _).bind fun _ => settles_pure _
      · exact settles_pure _

end Walk

end Walks

namespace Contract

variable {program : Program} {decl : DeclId}

theorem not_isCycle_of_lower (h : program.Acyclic) {contract : Contract} {supply last : AtomSupply}
    {fault : Fault} (hrun : (contract.lower program decl).run supply = .error (.fault fault) last) :
    ¬ fault.IsCycle := by
  obtain ⟨id, -, hid⟩ := (refused_of_lower hrun).exists_channel rfl
  exact ChanRef.settles_ofExpr h id fault hid

end Contract

end ProcessContracts
