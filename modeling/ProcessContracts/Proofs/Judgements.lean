import Mathlib
import ProcessContracts.Compilation
import ProcessContracts.Proofs.OpenScopes
import ProcessContracts.Proofs.Realization

/-!
# Contracts are judged once

A procedure is judged when its trace is attached, and it is attached once: a walk that is dropped
neither judges nor reports, and an attached procedure is not walked again. So over a whole program
each unit's contract is judged on the trace that stays in the store, and what was found is in the
report of one unit.
-/

namespace ProcessContracts

open Walk WalkState

/-- What a contract check can find. -/
def DiagnosticCode.findings : List DiagnosticCode :=
  [.refinementViolation, .divergence, .unconstrained, .inconclusive, .overlyRestrictive,
    .unboundContractVariable]

/-- Whether a diagnostic is about the contract of a procedure. -/
def Diagnostic.isFinding (callee : DeclId) (diagnostic : Diagnostic) : Bool :=
  diagnostic.decl = some callee ∧ diagnostic.code ∈ DiagnosticCode.findings

/-- Whether the contract of a procedure is judged. -/
def Event.judges (callee : DeclId) : Event → Bool
  | .judged decl _ _ _ => decl = callee
  | _ => false

/-- What is found about the contract of a procedure. -/
def findings (callee : DeclId) (diagnostics : List Diagnostic) : List Diagnostic :=
  diagnostics.filter (·.isFinding callee)

/-- The diagnostics are those of a check of the trace against the contract, placed at that. -/
def Assessed (setting : Setting) (callee : DeclId) (contract : Spanned Contract) (computed : Trace)
    (found : List Diagnostic) : Prop :=
  ∃ approximate s raw s',
    (assess setting callee contract.value approximate computed).run s = .ok raw s' ∧
    found = raw.map (Diagnostic.atContract callee contract.span)

/-- The contract checks of a procedure. -/
def judgements (callee : DeclId) (history : List Event) : List Event :=
  history.filter (·.judges callee)

@[simp] theorem findings_append (callee : DeclId) (ds ds' : List Diagnostic) :
    findings callee (ds ++ ds') = findings callee ds ++ findings callee ds' := List.filter_append ..

@[simp] theorem judgements_append (callee : DeclId) (es es' : List Event) :
    judgements callee (es ++ es') = judgements callee es ++ judgements callee es' :=
  List.filter_append ..

section Findings

variable {setting : Setting} {callee other : DeclId}

theorem findings_eq_self {ds : List Diagnostic} (h : ∀ d ∈ ds, d.isFinding callee = true) :
    findings callee ds = ds := List.filter_eq_self.2 h

theorem findings_eq_nil {ds : List Diagnostic} (h : ∀ d ∈ ds, d.isFinding callee = false) :
    findings callee ds = [] :=
  List.filter_eq_nil_iff.2 fun d hd => by simp [h d hd]

theorem isFinding_of_other {d : Diagnostic} (hne : other ≠ callee)
    (h : d.isFinding other = true) : d.isFinding callee = false := by
  obtain ⟨hdecl, -⟩ := of_decide_eq_true h
  refine decide_eq_false fun hfinding => hne ?_
  exact Option.some.inj (hdecl.symm.trans hfinding.1)

theorem isFinding_atContract (span : Span) {d : Diagnostic} (h : d.code ∈ DiagnosticCode.findings) :
    (d.atContract callee span).isFinding callee = true := decide_eq_true ⟨rfl, h⟩

theorem code_contractDiagnostics {name : String} {approximate : Bool} {computed : Trace}
    {report : RefinementReport} {found : List Diagnostic}
    (h : contractDiagnostics setting name approximate computed report = .ok found) :
    ∀ d ∈ found, d.code ∈ DiagnosticCode.findings := by
  unfold contractDiagnostics at h
  split at h
  case h_1 counterexample _ =>
    obtain ⟨described, -, h⟩ := Lookup.bind_eq_ok.1 h
    obtain ⟨behaviour, -, h⟩ := Lookup.bind_eq_ok.1 h
    obtain rfl := Except.ok.inj h
    refine List.forall_mem_singleton.2 ?_
    obtain ⟨path, violation⟩ := counterexample
    cases violation <;> simp [DiagnosticCode.findings, Violation.code]
  case h_2 =>
    obtain rfl := Except.ok.inj h
    exact List.forall_mem_singleton.2 (by simp [DiagnosticCode.findings])
  case h_3 =>
    split at h
    · obtain rfl := Except.ok.inj h
      exact List.forall_mem_singleton.2 (by simp [DiagnosticCode.findings])
    · split at h
      · obtain ⟨steps, -, h⟩ := Lookup.bind_eq_ok.1 h
        obtain rfl := Except.ok.inj h
        exact List.forall_mem_singleton.2 (by simp [DiagnosticCode.findings])
      · obtain rfl := Except.ok.inj h
        exact List.forall_mem_nil _

/-- Comparing a trace with a contract notes nothing. -/
theorem assess_spec {contract : Contract} {approximate : Bool} {computed : Trace}
    {found : List Diagnostic} {s s' : WalkState}
    (h : (assess setting callee contract approximate computed).run s = .ok found s') :
    s'.history = s.history ∧ ∀ d ∈ found, d.code ∈ DiagnosticCode.findings := by
  unfold assess at h
  obtain ⟨name, -, h⟩ := liftLookup_bind_eq_ok.1 h
  obtain ⟨spec, mid, hlower, h⟩ := bind_eq_ok.1 h
  have hmid : mid.history = s.history := by
    rw [lower_run] at hlower
    split at hlower
    case h_3 => cases hlower
    all_goals
      obtain ⟨-, rfl⟩ := EStateM.Result.ok.inj hlower
      rfl
  cases spec with
  | error unbound =>
      obtain ⟨rfl, rfl⟩ := pure_eq_ok.1 h
      exact ⟨hmid, List.forall_mem_singleton.2 (by simp [unboundVariable, DiagnosticCode.findings])⟩
  | ok spec =>
      obtain ⟨report, -, h⟩ := liftLookup_bind_eq_ok.1 h
      obtain ⟨hfound, rfl⟩ := liftLookup_eq_ok.1 h
      exact ⟨hmid, code_contractDiagnostics hfound⟩

theorem diagnostics_foldl_report {found : List Diagnostic} (scope : Scope)
    (h : ∀ d ∈ found, d.isFinding callee = true) :
    (found.foldl Scope.report scope).diagnostics = scope.diagnostics ++ found := by
  induction found generalizing scope with
  | nil => exact (List.append_nil _).symm
  | cons d found ih =>
      obtain ⟨hd, hfound⟩ := List.forall_mem_cons.1 h
      obtain ⟨hdecl, -⟩ := of_decide_eq_true hd
      rw [List.foldl_cons, ih _ hfound, Scope.report, hdecl, List.append_assoc]
      obtain ⟨code, severity, message, span, decl, help⟩ := d
      cases hdecl
      rfl

/-- A contract is judged on the trace it is judged for, and what is found is noted and reported. -/
theorem verdict_spec {decl : Decl} {scope judged : Scope} {t : Trace} {s s' : WalkState}
    (h : (verdict setting callee decl scope t).run s = .ok judged s') :
    (decl.contract = none ∧ judged = scope ∧ s'.history = s.history) ∨
      ∃ contract found, decl.contract = some contract ∧ Assessed setting callee contract t found ∧
        judged.diagnostics = scope.diagnostics ++ found ∧
        (∀ d ∈ found, d.isFinding callee = true) ∧
        s'.history = s.history ++ [.judged callee scope.recursionAtom t found] := by
  unfold verdict at h
  split at h
  case h_2 hcontract =>
    obtain ⟨rfl, rfl⟩ := pure_eq_ok.1 h
    exact .inl ⟨hcontract, rfl, rfl⟩
  case h_1 contract hcontract =>
    obtain ⟨found, mid, hassess, h⟩ := bind_eq_ok.1 h
    obtain ⟨hhistory, hcodes⟩ := assess_spec hassess
    obtain ⟨rfl, rfl⟩ := EStateM.Result.ok.inj h
    have hfound : ∀ d ∈ found.map (Diagnostic.atContract callee contract.span),
        d.isFinding callee = true :=
      List.forall_mem_map.2 fun d hd => isFinding_atContract contract.span (hcodes d hd)
    exact .inr ⟨contract, _, hcontract, ⟨_, _, _, _, hassess, rfl⟩,
      diagnostics_foldl_report scope hfound, hfound, congrArg (· ++ _) hhistory⟩

end Findings

/-! ## Walks -/

section Settling

variable {setting : Setting} {callee : DeclId} {decl : Decl} {s mid s' : WalkState}

/-- No open scope holds a finding about the procedure. -/
def WalkState.Clean (callee : DeclId) (s : WalkState) : Prop :=
  ∀ scope ∈ s.scopes, findings callee scope.diagnostics = []

/-- Nothing happened to the procedure. -/
structure Kept (callee : DeclId) (s s' : WalkState) : Prop where
  stored : s'.store.get? callee = s.store.get? callee
  judged : judgements callee s'.history = judgements callee s.history
  published : findings callee s'.diagnostics = findings callee s.diagnostics

/-- The procedure, neither open nor attached before, was attached. If it has a contract, that was
judged on the trace attached, and what was found is published. -/
structure Decided (setting : Setting) (callee : DeclId) (decl : Decl) (s s' : WalkState) :
    Prop where
  fresh : s.store.get? callee = none
  closed : .proc callee ∉ owners s.scopes
  judged : ∃ computed, s'.store.get? callee = some (.single computed) ∧
    ∀ contract, decl.contract = some contract → ∃ own found,
      Assessed setting callee contract computed found ∧
      judgements callee s'.history =
        judgements callee s.history ++ [.judged callee own computed found] ∧
      findings callee s'.diagnostics = findings callee s.diagnostics ++ found

/-- What a walk does to a procedure: it is attached at most once. -/
structure Settles (setting : Setting) (callee : DeclId) (decl : Decl) (s s' : WalkState) :
    Prop where
  same_owners : owners s'.scopes = owners s.scopes
  settled : s.Clean callee → s'.Clean callee ∧ (Kept callee s s' ∨ Decided setting callee decl s s')

theorem Kept.refl (callee : DeclId) (s : WalkState) : Kept callee s s := ⟨rfl, rfl, rfl⟩

theorem Kept.trans (h : Kept callee s mid) (h' : Kept callee mid s') : Kept callee s s' :=
  ⟨h'.stored.trans h.stored, h'.judged.trans h.judged, h'.published.trans h.published⟩

theorem Kept.decided (h : Kept callee s mid) (howners : owners mid.scopes = owners s.scopes)
    (h' : Decided setting callee decl mid s') : Decided setting callee decl s s' := by
  obtain ⟨hfresh, hclosed, computed, hstored, hjudged⟩ := h'
  refine ⟨h.stored ▸ hfresh, howners ▸ hclosed, computed, hstored, fun contract hcontract => ?_⟩
  rw [← h.judged, ← h.published]
  exact hjudged contract hcontract

theorem Decided.kept (h : Decided setting callee decl s mid) (h' : Kept callee mid s') :
    Decided setting callee decl s s' := by
  obtain ⟨hfresh, hclosed, computed, hstored, hjudged⟩ := h
  refine ⟨hfresh, hclosed, computed, h'.stored.trans hstored, fun contract hcontract => ?_⟩
  rw [h'.judged, h'.published]
  exact hjudged contract hcontract

theorem Settles.of_kept (howners : owners s'.scopes = owners s.scopes)
    (hclean : s.Clean callee → s'.Clean callee) (h : Kept callee s s') :
    Settles setting callee decl s s' := ⟨howners, fun hs => ⟨hclean hs, .inl h⟩⟩

theorem Settles.refl (s : WalkState) : Settles setting callee decl s s :=
    .of_kept rfl id (.refl callee s)

theorem Settles.trans (h : Settles setting callee decl s mid)
    (h' : Settles setting callee decl mid s') :
    Settles setting callee decl s s' := by
  refine ⟨h'.same_owners.trans h.same_owners, fun hs => ?_⟩
  obtain ⟨hmid, hfirst⟩ := h.settled hs
  obtain ⟨hlast, hsecond⟩ := h'.settled hmid
  refine ⟨hlast, ?_⟩
  rcases hfirst with hkept | hdecided
  · rcases hsecond with hkept' | hdecided
    · exact .inl (hkept.trans hkept')
    · exact .inr (hkept.decided h.same_owners hdecided)
  · rcases hsecond with hkept | hagain
    · exact .inr (hdecided.kept hkept)
    · obtain ⟨computed, hstored, -⟩ := hdecided.judged
      have hfresh := hagain.fresh
      rw [hstored] at hfresh
      cases hfresh

/-- Every node is walked so that the procedure is attached at most once. -/
def SettlesAt (setting : Setting) (callee : DeclId) (decl : Decl) (visits : Table) : Prop :=
  ∀ node s fragment account s', visits node s fragment account s' → Settles setting callee decl s s'

theorem settles_series {visits : Table} (h : SettlesAt setting callee decl visits)
    {nodes : List NodeId}
    {fragments : List (Option Trace)} {account : Account}
    (hseries : Series visits nodes s fragments account s') : Settles setting callee decl s s' := by
  induction hseries with
  | nil s => exact .refl s
  | cons hnode _ ih => exact (h _ _ _ _ _ hnode).trans ih

theorem opened_diagnostics (other : DeclId) (d : Decl) (entry : Option Substitution) :
    (Scope.opened other d entry).diagnostics = [] ∧
      (Scope.opened other d entry).owner = .proc other := by
  unfold Scope.opened
  obtain ⟨interface, h⟩ := Walk.foldl_addInterface_eq { owner := .proc other, entry }
    ((d.visibleParams.filter (·.isChannel)).map (·.name))
  rw [h]
  exact ⟨rfl, rfl⟩

/-- What is walked in a scope of its own, seen from outside. The scope comes out clean. -/
theorem Settles.outside {new scope : Scope} {outer : List Scope} (hnew : new.diagnostics = [])
    (hscopes : mid.scopes = scope :: outer) (h : Settles setting callee decl (s.enter new) mid) :
    owners outer = owners s.scopes ∧ (s.Clean callee →
      findings callee scope.diagnostics = [] ∧ WalkState.Clean callee { mid with scopes := outer } ∧
      (Kept callee s { mid with scopes := outer } ∨
        new.owner ≠ .proc callee ∧
          Decided setting callee decl s { mid with scopes := outer })) := by
  have howners := h.same_owners
  rw [hscopes] at howners
  refine ⟨(List.cons.inj howners).2, fun hs => ?_⟩
  have hentered : (s.enter new).Clean callee :=
    List.forall_mem_cons.2 ⟨by rw [hnew]; rfl, hs⟩
  obtain ⟨hclean, houtcome⟩ := h.settled hentered
  rw [WalkState.Clean, hscopes] at hclean
  obtain ⟨hscope, houter⟩ := List.forall_mem_cons.1 hclean
  refine ⟨hscope, houter, ?_⟩
  rcases houtcome with hkept | hdecided
  · exact .inl ⟨hkept.stored, hkept.judged, hkept.published⟩
  · obtain ⟨hother, hclosed⟩ := not_or.1 (hdecided.closed ∘ List.mem_cons.2)
    exact .inr ⟨fun heq => hother heq.symm, hdecided.fresh, hclosed, hdecided.judged⟩

variable {other : DeclId} {entry : Option Substitution} {traces : ProcTraces} {account : Account}
  {visits : Table}

/-- Attaching another procedure does nothing to this one. -/
theorem kept_attach (hne : other ≠ callee) (s : WalkState) (t : Trace) :
    Kept callee s (s.attach other t) where
  stored := by
    change (s.store.insert other _).get? callee = _
    rw [Ledger.get?_insert, if_neg hne.symm]
  judged := by
    change judgements callee (s.history ++ [.attached other _]) = _
    rw [judgements_append]
    exact List.append_nil _
  published := rfl

theorem kept_publish {found : List Diagnostic} (h : findings callee found = []) (s : WalkState) :
    Kept callee s (s.publish found) where
  stored := rfl
  judged := rfl
  published := by
    change findings callee (s.diagnostics ++ found) = _
    rw [findings_append, h, List.append_nil]

theorem kept_after {noted : WalkState} (h : judgements callee noted.history = []) (s : WalkState) :
    Kept callee s (s.after noted) where
  stored := rfl
  judged := by
    change judgements callee (s.history ++ noted.history) = _
    rw [judgements_append, h, List.append_nil]
  published := rfl

theorem kept_supply (s : WalkState) (supply : AtomSupply) : Kept callee s { s with supply } :=
  ⟨rfl, rfl, rfl⟩

/-- The contract check of another procedure says nothing about this one. -/
theorem kept_concluded (hne : other ≠ callee) {d : Decl} {scope judged : Scope} {t : Trace}
    {supply : AtomSupply} {noted : WalkState} (hscope : findings callee scope.diagnostics = [])
    (h : (verdict setting other d scope t).run { supply } = .ok judged noted) (s : WalkState) :
    Kept callee s (((s.after noted).publish judged.diagnostics).attach other t) := by
  have hboth : findings callee judged.diagnostics = [] ∧ judgements callee noted.history = [] := by
    rcases verdict_spec h with ⟨-, rfl, hnoted⟩ | ⟨contract, found, -, -, hjudged, hfound, hnoted⟩
    · exact ⟨hscope, by rw [hnoted]; rfl⟩
    · constructor
      · rw [hjudged, findings_append, hscope]
        exact findings_eq_nil fun d hd => isFinding_of_other hne (hfound d hd)
      · rw [hnoted]
        exact List.filter_cons_of_neg (by simpa [Event.judges] using hne)
  exact ((kept_after hboth.2 s).trans (kept_publish hboth.1 _)).trans (kept_attach hne _ t)

/-- The contract check of the procedure itself. -/
theorem decided_attach (hfresh : s.store.get? callee = none)
    (hclosed : .proc callee ∉ owners s.scopes)
    (hkept : Kept callee s mid) {scope judged : Scope} {t : Trace} {noted : WalkState}
    (hscope : findings callee scope.diagnostics = [])
    (h : (verdict setting callee decl scope t).run { supply := mid.supply } = .ok judged noted) :
    Decided setting callee decl s
      (((mid.after noted).publish judged.diagnostics).attach callee t) := by
  refine ⟨hfresh, hclosed, t, ?_, fun contract hcontract => ?_⟩
  · change (mid.store.insert callee _).get? callee = _
    rw [Ledger.get?_insert, if_pos rfl]
  rcases verdict_spec h with ⟨hnone, -⟩ | ⟨_, found, hsome, hassessed, hjudged, hfound, hnoted⟩
  · rw [hcontract] at hnone
    cases hnone
  obtain rfl := Option.some.inj (hsome.symm.trans hcontract)
  refine ⟨scope.recursionAtom, found, hassessed, ?_, ?_⟩
  · change judgements callee ((mid.history ++ noted.history) ++ [.attached callee _]) = _
    rw [hnoted, ← hkept.judged]
    simp [judgements, Event.judges]
  · change findings callee (mid.diagnostics ++ judged.diagnostics) = _
    rw [findings_append, hjudged, findings_append, hscope, findings_eq_self hfound,
      hkept.published, List.nil_append]

theorem settles_completes (h : SettlesAt setting callee decl visits)
    (hdecl : setting.program.decl callee = .ok decl) (hbody : decl.body.isSome = true)
    (hfresh : s.store.get? other = none) (hclosed : .proc other ∉ owners s.scopes)
    (hcompletes : Completes setting visits other entry s traces account s') :
    Settles setting callee decl s s' := by
  have hother : ∀ {d : Decl}, setting.program.decl other = .ok d → d.body = none →
      other ≠ callee := by
    rintro d hd hnone rfl
    rw [hdecl] at hd
    cases hd
    rw [hnone] at hbody
    cases hbody
  cases hcompletes with
  | undeclared => exact .refl s
  | declared hd hnone =>
      exact .of_kept rfl id ((kept_supply s _).trans (kept_attach (hother hd hnone) _ _))
  | unbound hd hnone =>
      refine .of_kept rfl id ((kept_supply s _).trans (kept_publish ?_ _))
      refine findings_eq_nil (List.forall_mem_singleton.2 ?_)
      exact isFinding_of_other (hother hd hnone)
        (isFinding_atContract _ (by simp [unboundVariable, DiagnosticCode.findings]))
  | dropped hd hsome hvisit hscopes =>
      obtain ⟨howners, hsettled⟩ := (h _ _ _ _ _ hvisit).outside (opened_diagnostics ..).1 hscopes
      refine ⟨howners, fun hs => ?_⟩
      obtain ⟨-, hclean, houtcome⟩ := hsettled hs
      exact ⟨hclean, houtcome.imp_right And.right⟩
  | attached hd hsome hvisit hscopes hproject hpclosed hverdict =>
      obtain ⟨howners, hsettled⟩ := (h _ _ _ _ _ hvisit).outside (opened_diagnostics ..).1 hscopes
      refine ⟨howners, fun hs => ?_⟩
      obtain ⟨hscope, hclean, houtcome⟩ := hsettled hs
      refine ⟨hclean, ?_⟩
      by_cases hne : other = callee
      · subst hne
        cases hdecl.symm.trans hd
        have hkept := houtcome.resolve_right fun hdecided =>
          hdecided.1 (opened_diagnostics ..).2
        exact .inr (decided_attach hfresh hclosed hkept hscope hverdict)
      · have hkept := kept_concluded hne hscope hverdict
        exact houtcome.imp (·.trans (hkept _)) fun hdecided => hdecided.2.kept (hkept _)

theorem settles_supplies (h : SettlesAt setting callee decl visits)
    (hdecl : setting.program.decl callee = .ok decl) (hbody : decl.body.isSome = true)
    (hclosed : .proc other ∉ owners s.scopes) {d : Decl} {bindings : Substitution}
    {traces : TraceSet} (hsupplies : Supplies setting visits other d bindings s traces account s') :
    Settles setting callee decl s s' := by
  cases hsupplies with
  | stored => exact .refl s
  | demanded hfresh _ hcompletes => exact settles_completes h hdecl hbody hfresh hclosed hcompletes

theorem clean_report {scope : Scope} {d : Diagnostic} (hcode : d.code ∉ DiagnosticCode.findings)
    (h : findings callee scope.diagnostics = []) :
    findings callee (scope.report d).diagnostics = [] := by
  change findings callee (scope.diagnostics ++ [_]) = []
  rw [findings_append, h]
  exact findings_eq_nil (List.forall_mem_singleton.2 (decide_eq_false fun hfinding =>
    hcode hfinding.2))

theorem marked_spec {program : Program} {node : NodeId} {d : Decl} {altered : List NameId}
    {own own' : Scope} (h : marked program node d altered own = .ok own') :
    own'.owner = own.owner ∧ (findings callee own.diagnostics = [] →
      findings callee own'.diagnostics = []) := by
  obtain ⟨-, rfl⟩ | ⟨-, _, hcode, rfl⟩ := cases_of_marked h
  · exact ⟨rfl, id⟩
  · exact ⟨rfl, clean_report (by simp [hcode, DiagnosticCode.findings])⟩

/-- One step: a node attaches the procedure at most once if the nodes below do. -/
theorem settlesAt_rule (h : SettlesAt setting callee decl visits)
    (hdecl : setting.program.decl callee = .ok decl) (hbody : decl.body.isSome = true) :
    SettlesAt setting callee decl (Rule setting visits) := by
  intro node s fragment account s' hrule
  cases hrule with
  | planned _ _ hseries hmade =>
      obtain ⟨-, -, rfl⟩ := hmade
      exact (settles_series h hseries).trans (.of_kept rfl id (kept_supply _ _))
  | folded _ hsplit _ hmarked hatom =>
      obtain ⟨hscopes, -⟩ := splitAt_eq hsplit
      obtain ⟨howner, hfound⟩ := marked_spec hmarked
      obtain ⟨rfl, -⟩ := recursionAtomFrom_eq hatom
      refine .of_kept ?_ (fun hs => ?_) ⟨rfl, ?_, rfl⟩
      · rw [hscopes]
        simp [owners, howner]
      · rw [WalkState.Clean, hscopes] at hs
        obtain ⟨hinner, hs⟩ := List.forall_mem_append.1 hs
        obtain ⟨hown, houter⟩ := List.forall_mem_cons.1 hs
        refine List.forall_mem_append.2 ⟨hinner, List.forall_mem_cons.2 ⟨?_, houter⟩⟩
        exact hfound hown
      · exact (judgements_append ..).trans (List.append_nil _)
  | builtin => exact .refl s
  | supplied _ hsplit _ hsupplies =>
      exact settles_supplies h hdecl hbody (splitAt_eq_none hsplit) hsupplies
  | unresolved _ _ _ _ _ _ _ hscopes =>
      refine .of_kept ?_ (fun hs => ?_) ⟨rfl, rfl, rfl⟩
      · rw [hscopes]
        rfl
      · rw [WalkState.Clean, hscopes] at hs
        obtain ⟨hscope, houter⟩ := List.forall_mem_cons.1 hs
        refine List.forall_mem_cons.2 ⟨clean_report ?_ hscope, houter⟩
        simp [unknownCallee, DiagnosticCode.findings]

theorem settlesAt_yieldsWithin (hdecl : setting.program.decl callee = .ok decl)
    (hbody : decl.body.isSome = true) (depth : Nat) :
    SettlesAt setting callee decl (YieldsWithin setting depth) := by
  induction depth with
  | zero => exact fun _ _ _ _ _ h => h.elim
  | succ depth ih => exact settlesAt_rule ih hdecl hbody

end Settling

/-! ## Units -/

section Units

variable {setting : Setting} {callee : DeclId} {decl : Decl} {session last : Session}
  {outcome : Outcome} {unit : ProgramUnit}

theorem settles_unitYields (hdecl : setting.program.decl callee = .ok decl)
    (hbody : decl.body.isSome = true) {s s' : WalkState} {traces : TraceSet} {account : Account}
    (hscopes : s.scopes = []) (hfresh : ∀ other, unit = .proc other → s.store.get? other = none)
    (h : UnitYields setting unit s traces account s') :
    Kept callee s s' ∨ Decided setting callee decl s s' := by
  have hwalk := settlesAt_yieldsWithin hdecl hbody (depthBound setting.program)
  have hclean : s.Clean callee := by
    rw [WalkState.Clean, hscopes]
    exact List.forall_mem_nil _
  cases h with
  | proc hcompletes =>
      have hclosed : ∀ unit, unit ∉ owners s.scopes := fun unit => by
        rw [hscopes]
        exact List.not_mem_nil
      exact ((settles_completes hwalk hdecl hbody (hfresh _ rfl) (hclosed _)
        hcompletes).settled hclean).2
  | process hvisit hmid =>
      obtain ⟨-, hsettled⟩ := (hwalk _ _ _ _ _ hvisit).outside rfl hmid
      obtain ⟨hscope, -, houtcome⟩ := hsettled hclean
      have hpublish := kept_publish hscope
      exact houtcome.imp (·.trans (hpublish _)) fun hdecided => hdecided.2.kept (hpublish _)

/-- What a run of checks does to a procedure: nothing, or it is attached in one of them. -/
inductive Session.Settled (setting : Setting) (callee : DeclId) (decl : Decl)
    (session last : Session) (reports : List UnitReport) : Prop
  | kept : last.store.get? callee = session.store.get? callee →
      judgements callee last.history = judgements callee session.history →
      (∀ report ∈ reports, findings callee report.diagnostics = []) →
      Settled setting callee decl session last reports
  | decided {computed pre report post} : session.store.get? callee = none →
      last.store.get? callee = some (.single computed) → reports = pre ++ report :: post →
      (∀ other ∈ pre ++ post, findings callee other.diagnostics = []) →
      (∀ contract, decl.contract = some contract → ∃ own found,
        Assessed setting callee contract computed found ∧
        judgements callee last.history =
          judgements callee session.history ++ [.judged callee own computed found] ∧
        findings callee report.diagnostics = found) →
      Settled setting callee decl session last reports

theorem Session.Settled.append {mid : Session} {reports rest : List UnitReport}
    (h : session.Settled setting callee decl mid reports)
    (h' : mid.Settled setting callee decl last rest) :
    session.Settled setting callee decl last (reports ++ rest) := by
  cases h with
  | kept hstored hjudged hreports =>
      cases h' with
      | kept hstored' hjudged' hrest =>
          exact .kept (hstored'.trans hstored) (hjudged'.trans hjudged)
            (List.forall_mem_append.2 ⟨hreports, hrest⟩)
      | @decided computed pre report post hfresh hlast hsplit hothers hcontract =>
          have hall : reports ++ rest = (reports ++ pre) ++ report :: post := by
            rw [hsplit, List.append_assoc]
          refine .decided (hstored ▸ hfresh) hlast hall ?_ (hjudged ▸ hcontract)
          rw [List.append_assoc]
          exact List.forall_mem_append.2 ⟨hreports, hothers⟩
  | @decided computed pre report post hfresh hmid hsplit hothers hcontract =>
      cases h' with
      | kept hstored hjudged hrest =>
          have hall : reports ++ rest = pre ++ report :: (post ++ rest) := by
            rw [hsplit, List.append_assoc, List.cons_append]
          refine .decided hfresh (hstored.trans hmid) hall ?_ (hjudged ▸ hcontract)
          rw [← List.append_assoc]
          exact List.forall_mem_append.2 ⟨hothers, hrest⟩
      | decided hfresh' =>
          rw [hmid] at hfresh'
          cases hfresh'

/-- The attached traces refer to no procedure in progress. -/
def Session.Closed (session : Session) : Prop :=
  ∀ callee traces, session.store.get? callee = some traces →
    ∀ t ∈ traces.alternatives, t.freeRefs = []

theorem begins_confinement (setting : Setting) (unit : ProgramUnit) :
    (confinement setting).Begins unit := Invariant.begins_of_may (fun _ _ => trivial) unit

/-- A check that answers keeps the store closed, and its own behaviour is closed. -/
theorem closed_of_check (hclosed : session.Closed)
    (h : check setting unit session = (.ok outcome, last)) :
    last.Closed ∧ ∀ t ∈ outcome.traces.alternatives, t.freeRefs = [] := by
  have hchecked := @checked setting (confinement setting) unit session hclosed
    (begins_confinement setting unit)
  rw [h] at hchecked
  obtain ⟨hholds, hfits, -⟩ := hchecked
  exact ⟨hholds, fun t ht => List.eq_nil_iff_forall_not_mem.2 fun id hid =>
    List.not_mem_nil (hfits t ht id hid)⟩

/-- A procedure that is checked on its own is attached. -/
theorem attached_of_check (hdecl : setting.program.decl callee = .ok decl)
    (hbody : decl.body.isSome = true) (hclosed : session.Closed)
    (h : check setting (.proc callee) session = (.ok outcome, last)) :
    last.store.get? callee ≠ none := by
  obtain ⟨-, houtcome⟩ := closed_of_check hclosed h
  obtain ⟨account, state, hyields, -, rfl⟩ := check_eq_ok_iff.1 h
  generalize hcomputed : outcome.traces = computed at hyields
  cases hyields with
  | proc hcompletes =>
      cases hcompletes with
      | undeclared hd hnone | declared hd hnone | unbound hd hnone =>
          cases hdecl.symm.trans hd
          rw [hnone] at hbody
          cases hbody
      | dropped hd hsome hvisit hscopes hproject hopen =>
          rw [hcomputed] at houtcome
          have hfree := houtcome _ (List.mem_singleton_self _)
          have hprojected := List.eq_nil_iff_forall_not_mem.2 fun id hid => by
            have hmem := mem_freeRefs_of_project hproject hid
            rw [hfree] at hmem
            exact List.not_mem_nil hmem
          rw [Trace.isClosed, hprojected] at hopen
          cases hopen
      | attached =>
          change Ledger.get? (Ledger.insert _ callee _) callee ≠ none
          rw [Ledger.get?_insert, if_pos rfl]
          exact Option.some_ne_none _

/-- What a report tells: the traces it is about, all of them written out, and what was found. -/
theorem exists_texts_of_report {traces : TraceSet} {found : List Diagnostic} {onDemand : Bool}
    {report : UnitReport} (h : Session.report setting unit traces found onDemand = .ok report) :
    ∃ texts, traces.alternatives.mapM (Trace.describe setting.program) = .ok texts ∧
      report = ⟨unit.name setting.program, unit.kind, traces, texts, found, onDemand⟩ := by
  unfold Session.report UnitReport.make at h
  cases hwritten : traces.alternatives.mapM (Trace.describe setting.program) with
  | error fault =>
      rw [hwritten] at h
      cases h
  | ok texts =>
      rw [hwritten] at h
      exact ⟨texts, rfl, (Except.ok.inj h).symm⟩

/-- A report is about the traces that are there, or else about a check of the unit. -/
theorem cases_of_checkUnit {report : UnitReport}
    (h : session.checkUnit setting unit = (.ok report, last)) :
    (∃ traces, unit.decl?.bind session.store.get? = some traces ∧
        Session.report setting unit traces [] true = .ok report ∧ last = session) ∨
      unit.decl?.bind session.store.get? = none ∧ ∃ outcome,
        check setting unit session = (.ok outcome, last) ∧
          Session.report setting unit outcome.traces outcome.diagnostics false = .ok report := by
  unfold Session.checkUnit at h
  split at h
  case h_1 traces hstored =>
    obtain ⟨hreport, rfl⟩ := Prod.mk.inj h
    exact .inl ⟨traces, hstored, hreport, rfl⟩
  case h_2 hfresh =>
    cases hcheck : check setting unit session with
    | mk answer mid =>
        rw [hcheck] at h
        obtain ⟨hreport, rfl⟩ := Prod.mk.inj h
        cases answer with
        | error => cases hreport
        | ok outcome => exact .inr ⟨hfresh, outcome, rfl, hreport⟩

theorem Session.Settled.stored {reports : List UnitReport}
    (h : session.Settled setting callee decl last reports)
    (hstored : session.store.get? callee ≠ none) :
    last.store.get? callee ≠ none := by
  cases h with
  | kept hsame => rwa [hsame]
  | decided hfresh => exact absurd hfresh hstored

/-- One step of a run. -/
theorem settled_checkUnit (hdecl : setting.program.decl callee = .ok decl)
    (hbody : decl.body.isSome = true) (hclosed : session.Closed) {report : UnitReport}
    (h : session.checkUnit setting unit = (.ok report, last)) :
    last.Closed ∧ session.Settled setting callee decl last [report] ∧
      (unit = .proc callee → last.store.get? callee ≠ none) := by
  rcases cases_of_checkUnit h with
    ⟨traces, hstored, hreport, rfl⟩ | ⟨hfresh, outcome, hcheck, hreport⟩
  · obtain ⟨texts, -, rfl⟩ := exists_texts_of_report hreport
    refine ⟨hclosed, .kept rfl rfl (List.forall_mem_singleton.2 rfl), ?_⟩
    rintro rfl
    exact fun hnone => Option.some_ne_none traces (hstored.symm.trans hnone)
  obtain ⟨texts, -, hreport⟩ := exists_texts_of_report hreport
  have hfound : report.diagnostics = outcome.diagnostics := hreport ▸ rfl
  refine ⟨(closed_of_check hclosed hcheck).1, ?_, ?_⟩
  · obtain ⟨account, state, hyields, hpublished, rfl⟩ := check_eq_ok_iff.1 hcheck
    rw [hpublished] at hfound
    have hunit : ∀ other, unit = .proc other → session.begin.store.get? other = none := by
      rintro other rfl
      exact hfresh
    rcases settles_unitYields hdecl hbody rfl hunit hyields with hkept | hdecided
    · exact .kept hkept.stored hkept.judged
        (List.forall_mem_singleton.2 (hfound ▸ hkept.published))
    · obtain ⟨hnew, -, computed, hstored, hcontract⟩ := hdecided
      refine .decided hnew hstored (List.nil_append [report]).symm (List.forall_mem_nil _) ?_
      intro contract hsome
      obtain ⟨own, found, hassessed, hjudged, hreported⟩ := hcontract contract hsome
      exact ⟨own, found, hassessed, hjudged, hfound ▸ hreported⟩
  · rintro rfl
    exact attached_of_check hdecl hbody hclosed hcheck

/-- A whole run attaches its units, each at most once. -/
theorem settled_checkUnits (hdecl : setting.program.decl callee = .ok decl)
    (hbody : decl.body.isSome = true) {units : List ProgramUnit} {reports : List UnitReport}
    (hclosed : session.Closed)
    (h : Session.checkUnits setting units session = .ok (reports, last)) :
    session.Settled setting callee decl last reports ∧
      (.proc callee ∈ units → last.store.get? callee ≠ none) := by
  induction units generalizing session reports with
  | nil =>
      obtain ⟨rfl, rfl⟩ := Prod.mk.inj (Except.ok.inj h)
      exact ⟨.kept rfl rfl (List.forall_mem_nil _), fun hmem => absurd hmem List.not_mem_nil⟩
  | cons unit units ih =>
      unfold Session.checkUnits at h
      cases hunit : session.checkUnit setting unit with
      | mk answer mid =>
          rw [hunit] at h
          cases answer with
          | error => cases h
          | ok report =>
              cases hrest : Session.checkUnits setting units mid with
              | error =>
                  simp only [hrest] at h
                  cases h
              | ok result =>
                  obtain ⟨rest, final⟩ := result
                  simp only [hrest] at h
                  obtain ⟨rfl, rfl⟩ := Prod.mk.inj (Except.ok.inj h)
                  obtain ⟨hmid, hfirst, hattached⟩ := settled_checkUnit hdecl hbody hclosed hunit
                  obtain ⟨hlater, hunits⟩ := ih hmid hrest
                  refine ⟨hfirst.append hlater, fun hmem => ?_⟩
                  rcases List.mem_cons.1 hmem with rfl | hmem
                  · exact hlater.stored (hattached rfl)
                  · exact hunits hmem

theorem checkProgram_eq_ok {report : ProgramReport} (h : checkProgram setting = .ok report) :
    ∃ last, Session.checkUnits setting setting.program.units {} = .ok (report.units, last) := by
  unfold checkProgram at h
  cases hunits : Session.checkUnits setting setting.program.units {} with
  | error abort =>
      rw [hunits] at h
      cases h
  | ok result =>
      obtain ⟨reports, last⟩ := result
      rw [hunits] at h
      obtain rfl := Except.ok.inj h
      exact ⟨last, rfl⟩

/-- Every procedure with a body that is a unit ends up in the store. If it has a contract, that was
judged once in the whole run: what was found comes from the check of the trace in the store against
the contract, and it is in the report of one unit. -/
theorem judged_once {report : ProgramReport} (hcheck : checkProgram setting = .ok report)
    (hunit : .proc callee ∈ setting.program.units)
    (hdecl : setting.program.decl callee = .ok decl) (hbody : decl.body.isSome = true) :
    ∃ last computed,
      Session.checkUnits setting setting.program.units {} = .ok (report.units, last) ∧
      last.store.get? callee = some (.single computed) ∧
      ∀ contract, decl.contract = some contract → ∃ own found pre judging post,
        Assessed setting callee contract computed found ∧
        last.history.filter (·.judges callee) = [.judged callee own computed found] ∧
        report.units = pre ++ judging :: post ∧
        judging.diagnostics.filter (·.isFinding callee) = found ∧
        ∀ other ∈ pre ++ post, other.diagnostics.filter (·.isFinding callee) = [] := by
  obtain ⟨last, hrun⟩ := checkProgram_eq_ok hcheck
  have hclosed : Session.Closed {} := fun callee traces hget => by cases hget
  obtain ⟨hsettled, hstored⟩ := settled_checkUnits hdecl hbody hclosed hrun
  cases hsettled with
  | kept hsame => exact absurd hsame (hstored hunit)
  | @decided computed pre judging post _ hlast hreports hothers hcontract =>
      refine ⟨last, computed, hrun, hlast, fun contract hsome => ?_⟩
      obtain ⟨own, found, hassessed, hjudged, hfound⟩ := hcontract contract hsome
      exact ⟨own, found, pre, judging, post, hassessed, hjudged, hreports, hfound, hothers⟩

/-- Two procedures that call each other, each with a contract, one of them listed twice. -/
def volley : Program where
  name := "volley"
  names := #[⟨"c", .param ⟨0⟩ 0 false, {}⟩, ⟨"e", .param ⟨1⟩ 0 false, {}⟩]
  exprs := #[⟨.name ⟨0⟩, {}⟩, ⟨.name ⟨1⟩, {}⟩]
  nodes := #[⟨.compose .seq [⟨1⟩, ⟨2⟩], {}⟩, ⟨.output ⟨0⟩, {}⟩, ⟨.call ⟨1⟩ [⟨⟨0⟩, false⟩], {}⟩,
    ⟨.compose .seq [⟨4⟩, ⟨5⟩], {}⟩, ⟨.input ⟨1⟩, {}⟩, ⟨.call ⟨0⟩ [⟨⟨1⟩, false⟩], {}⟩]
  decls := #[
    { name := "serve", params := [⟨⟨0⟩, true, false⟩], body := some ⟨0⟩,
      contract := some ⟨.event .output ⟨0⟩, {}⟩ },
    { name := "return", params := [⟨⟨1⟩, true, false⟩], body := some ⟨3⟩,
      contract := some ⟨.chaos, {}⟩ }]
  units := [.proc ⟨0⟩, .proc ⟨1⟩, .proc ⟨0⟩]

theorem volley_judged_once : ∃ (report : ProgramReport) (last : Session) (computed : Trace),
    checkProgram { program := volley } = .ok report ∧
    Session.checkUnits { program := volley } volley.units {} = .ok (report.units, last) ∧
    last.store.get? ⟨0⟩ = some (.single computed) ∧ ∃ own found pre judging post,
      Assessed { program := volley } ⟨0⟩ ⟨.event .output ⟨0⟩, {}⟩ computed found ∧
      last.history.filter (·.judges ⟨0⟩) = [.judged ⟨0⟩ own computed found] ∧
      report.units = pre ++ judging :: post ∧
      judging.diagnostics.filter (·.isFinding ⟨0⟩) = found ∧
      ∀ other ∈ pre ++ post, other.diagnostics.filter (·.isFinding ⟨0⟩) = [] := by
  have hok : (checkProgram { program := volley }).isOk = true := by cbv
  cases hcheck : checkProgram { program := volley } with
  | error abort =>
      rw [hcheck] at hok
      cases hok
  | ok report =>
      obtain ⟨last, computed, hrun, hstored, hcontract⟩ := judged_once hcheck
        (show .proc ⟨0⟩ ∈ volley.units by decide) (show volley.decl ⟨0⟩ = .ok _ from rfl) rfl
      exact ⟨report, last, computed, rfl, hrun, hstored, hcontract _ rfl⟩

end Units

end ProcessContracts
