import ProcessContracts.Proofs.AnsweredSearches
import ProcessContracts.Proofs.Walks

/-!
# Instances and contracts that meet no fault

Putting arguments in range into a trace in range, tracing an argument back through the instances
that opened the scopes, lowering a contract and reporting on it only ask queries that are answered.
-/

namespace ProcessContracts

open Lookup Trace

variable {program : Program} {t : Trace}

theorem Trace.InRange.of_subset {u : Trace} (ht : t.InRange program) (h : u.channels ⊆ t.channels) :
    u.InRange program := fun chan hchan => ht chan (h hchan)

/-! ## Bindings -/

theorem Ledger.mem_of_get?_ofList {κ α : Type} [DecidableEq κ] {pairs : List (κ × α)} {key : κ}
    {value : α} (h : (Ledger.ofList pairs).get? key = some value) : (key, value) ∈ pairs := by
  have hfold : ∀ (pairs : List (κ × α)) (start : Ledger κ α),
      (pairs.foldl (fun ledger pair => ledger.insert pair.1 pair.2) start).get? key = some value →
        start.get? key = some value ∨ (key, value) ∈ pairs := by
    intro pairs
    induction pairs with
    | nil => exact fun start h => .inl h
    | cons pair pairs ih =>
        intro start h
        rcases ih _ h with h | h
        · rw [Ledger.get?_insert] at h
          split at h
          case isTrue heq =>
            refine .inr (List.mem_cons.2 (.inl ?_))
            rw [heq, ← Option.some.inj h]
          case isFalse => exact .inl h
        · exact .inr (List.mem_cons_of_mem _ h)
  exact (hfold pairs {} h).resolve_left fun h => by cases h

theorem Ledger.get?_ofList_ne_none {κ α : Type} [DecidableEq κ] {pairs : List (κ × α)} {key : κ}
    (h : key ∈ pairs.map (·.1)) : (Ledger.ofList pairs).get? key ≠ none := by
  have hfold : ∀ (pairs : List (κ × α)) (start : Ledger κ α),
      start.get? key ≠ none ∨ key ∈ pairs.map (·.1) →
        (pairs.foldl (fun ledger pair => ledger.insert pair.1 pair.2) start).get? key ≠ none := by
    intro pairs
    induction pairs with
    | nil => exact fun start h => h.resolve_right List.not_mem_nil
    | cons pair pairs ih =>
        intro start h
        refine ih _ ?_
        rw [Ledger.get?_insert]
        by_cases hkey : key = pair.1
        · exact .inl (by simp [hkey])
        · rw [if_neg hkey]
          exact h.imp_right fun h => (List.mem_cons.1 h).resolve_left hkey
  exact hfold pairs {} (.inr h)

namespace Substitution

section Pairing

variable {params : List Param} {args : List Arg} {bindings : Substitution}
  (h : pair params args = .ok bindings)
include h

/-- What a formal is paired with is a visible argument. -/
theorem exists_arg_of_pair {formal : NameId} {actual : ExprId}
    (hget : bindings.get? formal = some actual) :
    ∃ arg ∈ args, arg.hidden = false ∧ arg.expr = actual := by
  unfold pair at h
  dsimp only at h
  split at h
  case isFalse => cases h
  case isTrue =>
    obtain rfl := Except.ok.inj h
    obtain ⟨arg, harg, heq⟩ := List.mem_map.1 (List.of_mem_zip (Ledger.mem_of_get?_ofList hget)).2
    obtain ⟨hmem, hvisible⟩ := List.mem_filter.1 harg
    exact ⟨arg, hmem, by simpa using hvisible, heq⟩

/-- Every visible formal is paired with something. -/
theorem get?_of_pair {param : Param} (hparam : param ∈ params.filter (!·.hidden)) :
    bindings.get? param.name ≠ none := by
  unfold pair at h
  dsimp only at h
  split at h
  case isFalse => cases h
  case isTrue hlength =>
    obtain rfl := Except.ok.inj h
    refine Ledger.get?_ofList_ne_none ?_
    rw [List.map_fst_zip (Nat.le_of_eq hlength)]
    exact List.mem_map_of_mem hparam

end Pairing

/-- Every argument is in range. -/
def InRange (program : Program) (bindings : Substitution) : Prop :=
  ∀ formal actual, bindings.get? formal = some actual → program.InExprs actual

theorem inRange_of_instantiates (h : program.InOrder) {node : NodeId} {callee : DeclId}
    {decl : Decl} {bindings : Substitution}
    (hinstance : program.Instantiates node callee decl bindings) : bindings.InRange program := by
  obtain ⟨args, hnode, -, hpair⟩ := hinstance
  obtain ⟨written, hmem, hwritten⟩ := Program.mem_of_hasNode hnode
  intro formal actual hget
  obtain ⟨arg, harg, -, rfl⟩ := exists_arg_of_pair hpair hget
  refine h.inRange.exprs written hmem arg.expr ?_
  rw [hwritten]
  exact List.mem_map_of_mem harg

variable (h : program.InOrder)
include h

theorem answers_target {actual : ExprId} {index : Option ExprId} (hactual : program.InExprs actual)
    (hindex : ∀ id ∈ index, program.InExprs id) :
    Answers (target program actual index) (ChanRef.InRange program) := by
  refine (Program.answers_expr h hactual).bind fun e he => ?_
  split
  case h_1 base own =>
    refine (Program.answers_strip h (he.2 base List.mem_cons_self).1).bind fun root hroot =>
      answers_pure ⟨hroot, ?_⟩
    rintro _ ⟨⟩
    exact (he.2 own (List.mem_cons_of_mem _ List.mem_cons_self)).1
  case h_2 => exact answers_pure ⟨hactual, hindex⟩

variable {bindings : Substitution} (hbindings : bindings.InRange program)
include hbindings

theorem answers_redirect {chan : ChanRef} (hchan : chan.InRange program) :
    Answers (redirect program bindings chan) (ChanRef.InRange program) := by
  refine (Program.answers_resolveName h hchan.root).bind fun found _ => ?_
  split
  case h_1 => exact answers_pure hchan
  case h_2 =>
    split
    case h_1 => exact answers_pure hchan
    case h_2 actual hget =>
      refine (Program.answers_strip h (hbindings _ actual hget)).bind fun inner hinner =>
        (Program.answers_resolveName h hinner).bind fun _ _ => ?_
      split
      case isTrue => exact answers_pure hchan
      case isFalse => exact answers_target h hinner hchan.index

theorem answers_apply (ht : t.InRange program) :
    Answers (bindings.apply program t) (Trace.InRange program) := by
  unfold apply
  split
  case isTrue => exact answers_pure ht
  case isFalse =>
    refine (answers_forM fun chan hchan => answers_redirect h hbindings (ht chan hchan)).bind
      fun _ _ => answers_pure fun chan hchan => ?_
    rw [channels_mapChannels] at hchan
    obtain ⟨old, hold, rfl⟩ := List.mem_map.1 hchan
    obtain ⟨new, hnew, hrange⟩ := answers_redirect h hbindings (ht old hold)
    rw [hnew]
    exact hrange

end Substitution

/-! ## Recursive instances -/

namespace Walk

/-- The arguments of the instances that opened the scopes are in range. -/
def EntriesInRange (program : Program) (scopes : List Scope) : Prop :=
  ∀ scope ∈ scopes, ∀ bindings, scope.entry = some bindings → bindings.InRange program

variable (h : program.InOrder) {inner : List Scope} (hinner : EntriesInRange program inner)
include h hinner

theorem answers_tracedBack {actual : ExprId} (hactual : program.InExprs actual) :
    Answers (tracedBack program inner actual) program.InExprs := by
  induction inner generalizing actual with
  | nil => exact answers_pure hactual
  | cons scope entered ih =>
      obtain ⟨hscope, hentered⟩ := List.forall_mem_cons.1 hinner
      refine (Program.answers_resolveName h hactual).bind fun formal _ => ih hentered ?_
      cases hargument : formal.bind scope.argument? with
      | none => exact hactual
      | some found =>
          obtain ⟨name, -, hfound⟩ := Option.bind_eq_some_iff.1 hargument
          obtain ⟨bindings, hentry, hget⟩ := Option.bind_eq_some_iff.1 hfound
          exact hscope bindings hentry name found hget

variable {bindings : Substitution} (hbindings : bindings.InRange program)
include hbindings

theorem answers_alteredChannels (params : List Param) :
    Answers (alteredChannels program inner bindings params) fun _ => True := by
  induction params with
  | nil => exact answers_pure trivial
  | cons param params ih =>
      have hpasses : Answers (passes program inner bindings param) fun _ => True := by
        unfold passes
        split
        case h_1 actual hget =>
          exact (answers_tracedBack h hinner (hbindings _ _ hget)).bind fun origin horigin =>
            (Program.answers_resolveName h horigin).bind fun _ _ => answers_pure trivial
        case h_2 => exact answers_pure trivial
      rw [alteredChannels_cons]
      exact hpasses.bind fun kept _ => ih.bind fun rest _ => answers_pure trivial

end Walk

/-! ## Contracts -/

namespace Contract

variable {decl : DeclId} {binders : Binders} {supply last : AtomSupply} {c : Contract} {t : Trace}

theorem Lowered.inRange (horder : program.InOrder)
    (h : Lowered program decl binders supply c t last)
    (hc : ∀ id ∈ c.channels, program.InExprs id) : t.InRange program := by
  induction h with
  | @event _ _ _ channel _ hchan =>
      obtain ⟨_, hanswer, hrange⟩ := ChanRef.answers_ofExpr horder (hc channel List.mem_cons_self)
      obtain rfl := Except.ok.inj (hanswer.symm.trans hchan)
      exact List.forall_mem_singleton.2 hrange
  | cons _ _ ihhead ihtail =>
      obtain ⟨hhead, htail⟩ := List.forall_mem_append.1 hc
      exact List.forall_mem_append.2 ⟨ihhead hhead, ihtail htail⟩
  | recursion _ _ ih => exact ih hc
  | _ => exact fun chan hchan => by cases hchan

/-- Where the channels are there, lowering meets no fault. -/
theorem not_refused_of_inRange (horder : program.InOrder)
    (hc : ∀ id ∈ c.channels, program.InExprs id) {fault : Fault} :
    ¬ Refused program decl binders supply c (.fault fault) last := by
  intro h
  obtain ⟨id, hid, hfault⟩ := h.exists_channel rfl
  exact (ChanRef.answers_ofExpr horder (hc id hid)).ne_error _ hfault

end Contract

namespace Walk

variable {setting : Setting} (h : setting.program.InOrder)
include h

theorem answers_project (ht : t.InRange setting.program) (interface : List NameId) :
    Answers (project setting interface t) (Trace.InRange setting.program) := by
  unfold project
  split
  case isTrue =>
    have hhide : Answers (t.hideUnless (ChanRef.isAmong setting.program interface))
        (Trace.InRange setting.program) := by
      refine (answers_forM fun chan hchan =>
        ChanRef.answers_isAmong h (ht chan hchan) interface).bind
        fun _ _ => answers_pure (ht.of_subset (channels_hide_subset _ t))
    exact hhide.bind fun hidden hhidden =>
      answers_pure (hhidden.of_subset (channels_simplify_subset hidden))
  case isFalse => exact answers_pure ht

theorem answers_contractDiagnostics {name : String} {approximate : Bool} {report : RefinementReport}
    (ht : t.InRange setting.program) (hreport : report.InRange setting.program) :
    Answers (contractDiagnostics setting name approximate t report) fun _ => True := by
  have hverdict := hreport.verdict
  unfold contractDiagnostics
  split
  case h_1 counterexample heq =>
    rw [heq] at hverdict
    have hviolation :
        Answers (counterexample.violation.describe setting.program) fun _ => True := by
      have hrange := hverdict.2
      cases hv : counterexample.violation with
      | unexpectedStep label =>
          rw [hv] at hrange
          exact (Label.answers_describe h hrange).bind fun _ _ => answers_pure trivial
      | divergence => exact answers_pure trivial
      | unconstrained => exact answers_pure trivial
    have hdescribe : Answers (counterexample.describe setting.program) fun _ => True :=
      (answers_mapM fun label hlabel => Label.answers_describe h (hverdict.1 label hlabel)).bind
        fun _ _ => hviolation.bind fun _ _ => answers_pure trivial
    exact hdescribe.bind fun _ _ => (Trace.answers_describe h ht).bind fun _ _ =>
      answers_pure trivial
  case h_2 => exact answers_pure trivial
  case h_3 =>
    split
    case isTrue => exact answers_pure trivial
    case isFalse =>
      split
      case isTrue =>
        exact (answers_mapM fun label hlabel =>
          Label.answers_describe h (hreport.restrictive label hlabel)).bind
            fun _ _ => answers_pure trivial
      case isFalse => exact answers_pure trivial

end Walk

end ProcessContracts
