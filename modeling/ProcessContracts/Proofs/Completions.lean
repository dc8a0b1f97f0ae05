import ProcessContracts.Proofs.Effects

/-!
# Checking a procedure, as the rules say

A contract check needs nothing of the state but the supply of atoms. Around it a procedure is walked
in a scope of its own, and the rules on completed procedures say what comes of that.
-/

namespace ProcessContracts

theorem Scope.buckets_opened (callee : DeclId) (decl : Decl) (entry : Option Substitution) :
    (Scope.opened callee decl entry).buckets = [] := by
  unfold Scope.opened
  obtain ⟨interface, h⟩ := Walk.foldl_addInterface_eq { owner := .proc callee, entry }
    ((decl.visibleParams.filter (·.isChannel)).map (·.name))
  rw [h]

theorem Scope.emptied_eq_self {scope : Scope} (h : scope.buckets = []) : scope.emptied = scope := by
  obtain ⟨owner, interface, buckets, found, atom, entry, approximate⟩ := scope
  cases h
  rfl

namespace Walk

open WalkState

variable {setting : Setting} {visit : NodeId → Walk Unit} {visits : Table} {node body : NodeId}
  {callee : DeclId} {decl : Decl} {bindings : Substitution} {s s' : WalkState}

/-! ## Contract checks -/

/-- The state a computation starts from that needs the supply alone. -/
def onlySupply (s : WalkState) : WalkState := { supply := s.supply }

/-- The outcome depends on the supply alone, and only atoms and events are added. -/
def OnSupply {α : Type} (m : Walk α) : Prop :=
  ∀ s : WalkState, m.run s = match m.run (onlySupply s) with
    | .ok a noted => .ok a (s.after noted)
    | .error e noted => .error e (s.after noted)

theorem after_onlySupply (s : WalkState) : s.after (onlySupply s) = s := by
  simp [after, onlySupply]

theorem onSupply_pure {α : Type} (a : α) : OnSupply (pure a) := fun s => by
  change EStateM.Result.ok a s = .ok a (s.after (onlySupply s))
  rw [after_onlySupply]

theorem onSupply_throw {α : Type} (abort : Abort) : OnSupply (throw abort : Walk α) := fun s => by
  change EStateM.Result.error abort s = .error abort (s.after (onlySupply s))
  rw [after_onlySupply]

theorem onSupply_liftLookup {α : Type} (query : Lookup α) : OnSupply (liftLookup query) := by
  cases query with
  | ok a => exact onSupply_pure a
  | error fault => exact onSupply_throw _

theorem OnSupply.bind {α β : Type} {m : Walk α} {k : α → Walk β} (hm : OnSupply m)
    (hk : ∀ a, OnSupply (k a)) : OnSupply (m >>= k) := by
  intro s
  have hrun := hm s
  have hself := hm (onlySupply s)
  change EStateM.bind m k s = match EStateM.bind m k (onlySupply s) with
    | .ok b noted => .ok b (s.after noted)
    | .error e noted => .error e (s.after noted)
  unfold EStateM.run at hrun hself
  unfold EStateM.bind
  rw [hrun]
  cases hfirst : m (onlySupply s) with
  | error e noted => rfl
  | ok a noted =>
      have hsame : (onlySupply s).after noted = noted := by
        rw [show onlySupply (onlySupply s) = onlySupply s from rfl, hfirst] at hself
        exact (EStateM.Result.ok.inj hself).2.symm
      have hnext := hk a (s.after noted)
      have hnoted := hk a noted
      unfold EStateM.run at hnext hnoted
      dsimp only
      rw [hnext, hnoted, show onlySupply (s.after noted) = onlySupply noted from rfl]
      cases k a (onlySupply noted) <;> simp [after, List.append_assoc]

theorem lower_run (setting : Setting) (callee : DeclId) (contract : Contract) (s : WalkState) :
    (lower setting callee contract).run s =
      match (contract.lower setting.program callee).run s.supply with
      | .ok t supply => .ok (.ok t) { s with supply }
      | .error (.unbound name) supply => .ok (.error name) { s with supply }
      | .error (.fault fault) _ => .error (.fault fault) s := by
  change EStateM.run (match (contract.lower setting.program callee).run s.supply with
      | .ok t supply => (do
          set { s with supply }
          pure (.ok t) : Walk (Except String Trace))
      | .error (.unbound name) supply => do
          set { s with supply }
          pure (.error name)
      | .error (.fault fault) _ => throw (.fault fault)) s = _
  split <;> rfl

theorem onSupply_lower (setting : Setting) (callee : DeclId) (contract : Contract) :
    OnSupply (lower setting callee contract) := fun s => by
  rw [lower_run, lower_run, onlySupply]
  cases (contract.lower setting.program callee).run s.supply with
  | ok t supply => simp [after]
  | error e supply => cases e <;> simp [after]

theorem onSupply_record (event : Event) : OnSupply (record event) := fun _ => rfl

theorem onSupply_verdict (setting : Setting) (callee : DeclId) (decl : Decl) (scope : Scope)
    (t : Trace) : OnSupply (verdict setting callee decl scope t) := by
  unfold verdict
  split
  case h_2 => exact onSupply_pure scope
  case h_1 contract =>
    refine OnSupply.bind ?_ fun found => (onSupply_record _).bind fun _ => onSupply_pure _
    refine (onSupply_liftLookup _).bind fun name =>
      (onSupply_lower setting callee _).bind fun spec => ?_
    cases spec with
    | error unbound => exact onSupply_pure _
    | ok spec => exact (onSupply_liftLookup _).bind fun report => onSupply_liftLookup _

theorem OnSupply.run_iff {α : Type} {m : Walk α} (h : OnSupply m) {a : α} :
    m.run s = .ok a s' ↔
      ∃ noted, m.run { supply := s.supply } = .ok a noted ∧ s' = s.after noted := by
  rw [h s]
  change _ ↔ ∃ noted, m.run (onlySupply s) = _ ∧ _
  cases m.run (onlySupply s) with
  | ok b noted => simp [eq_comm]
  | error e noted => simp

/-! ## Procedures -/

theorem completes_iff_of_no_body (hdecl : setting.program.decl callee = .ok decl)
    (hbody : decl.body = none) {entry : Option Substitution} {traces : ProcTraces}
    {account : Account} : Completes setting visits callee entry s traces account s' ↔
      (decl.contract = none ∧ traces = ⟨{}, {}⟩ ∧ account = {} ∧ s' = s) ∨
      ∃ contract, decl.contract = some contract ∧
        ((∃ t supply, (contract.value.lower setting.program callee).run s.supply = .ok t supply ∧
          traces = ⟨.single t, .single t⟩ ∧
          account = { attached := [(callee, { atoms := s.supply.upTo supply })] } ∧
          s' = ({ s with supply }.attach callee t)) ∨
        ∃ name supply, (contract.value.lower setting.program callee).run s.supply =
            .error (.unbound name) supply ∧ traces = ⟨{}, {}⟩ ∧
          account = { own := ⟨s.supply.upTo supply,
            [(unboundVariable name).atContract callee contract.span]⟩ } ∧
          s' = { s with supply }.publish
            [(unboundVariable name).atContract callee contract.span]) := by
  constructor
  · intro h
    cases h with
    | undeclared hdecl' hbody' hcontract =>
        rw [hdecl] at hdecl'
        cases hdecl'
        exact .inl ⟨hcontract, rfl, rfl, rfl⟩
    | declared hdecl' hbody' hcontract hlower =>
        rw [hdecl] at hdecl'
        cases hdecl'
        exact .inr ⟨_, hcontract, .inl ⟨_, _, hlower, rfl, rfl, rfl⟩⟩
    | unbound hdecl' hbody' hcontract hlower =>
        rw [hdecl] at hdecl'
        cases hdecl'
        exact .inr ⟨_, hcontract, .inr ⟨_, _, hlower, rfl, rfl, rfl⟩⟩
    | dropped hdecl' hbody' | attached hdecl' hbody' =>
        rw [hdecl] at hdecl'
        cases hdecl'
        rw [hbody] at hbody'
        cases hbody'
  · rintro (⟨hcontract, rfl, rfl, rfl⟩ | ⟨contract, hcontract, ⟨t, supply, hlower, rfl, rfl, rfl⟩ |
      ⟨name, supply, hlower, rfl, rfl, rfl⟩⟩)
    · exact .undeclared hdecl hbody hcontract
    · exact .declared hdecl hbody hcontract hlower
    · exact .unbound hdecl hbody hcontract hlower

theorem declared_run (setting : Setting) (callee : DeclId) (decl : Decl) (s : WalkState) :
    (declared setting callee decl).run s =
      match decl.contract with
      | none => .ok ⟨{}, {}⟩ s
      | some contract =>
          match (contract.value.lower setting.program callee).run s.supply with
          | .ok t supply => .ok ⟨.single t, .single t⟩ ({ s with supply }.attach callee t)
          | .error (.unbound name) supply => .ok ⟨{}, {}⟩ ({ s with supply }.publish
              [(unboundVariable name).atContract callee contract.span])
          | .error (.fault fault) _ => .error (.fault fault) s := by
  unfold declared
  cases decl.contract with
  | none => rfl
  | some contract =>
      change EStateM.bind (lower setting callee contract.value) _ s = _
      rw [EStateM.bind, show lower setting callee contract.value s = _ from lower_run _ _ _ _]
      dsimp only
      cases (contract.value.lower setting.program callee).run s.supply with
      | ok => rfl
      | error e => cases e <;> rfl

/-- Checking a procedure without a body. -/
theorem declared_run_iff (hdecl : setting.program.decl callee = .ok decl)
    (hbody : decl.body = none) {entry : Option Substitution} {traces : ProcTraces} :
    (declared setting callee decl).run s = .ok traces s' ↔ ∃ account,
      Completes setting visits callee entry s.emptied traces account s'.emptied ∧
        s'.buckets = s.buckets := by
  rw [declared_run]
  simp only [completes_iff_of_no_body hdecl hbody]
  cases decl.contract with
  | none =>
      constructor
      · rintro ⟨⟩
        exact ⟨_, .inl ⟨rfl, rfl, rfl, rfl⟩, rfl⟩
      · rintro ⟨account, ⟨-, rfl, -, hlast⟩ | ⟨_, ⟨⟩, -⟩, hbuckets⟩
        rw [ext_emptied hlast hbuckets]
  | some contract =>
      have hempty : s.emptied.supply = s.supply := rfl
      simp only [reduceCtorEq, false_and, false_or, Option.some.injEq, exists_eq_left', hempty]
      cases (contract.value.lower setting.program callee).run s.supply with
      | ok t supply =>
          constructor
          · rintro ⟨⟩
            exact ⟨_, .inl ⟨t, supply, rfl, rfl, rfl, rfl⟩, rfl⟩
          · rintro ⟨account, ⟨_, _, ⟨⟩, rfl, -, hlast⟩ | ⟨_, _, ⟨⟩, -⟩, hbuckets⟩
            have hsame : s' = { s with supply }.attach callee t := ext_emptied hlast hbuckets
            rw [hsame]
      | error e supply =>
          cases e with
          | unbound name =>
              constructor
              · rintro ⟨⟩
                exact ⟨_, .inr ⟨name, supply, rfl, rfl, rfl, rfl⟩, rfl⟩
              · rintro ⟨account, ⟨_, _, ⟨⟩, -⟩ | ⟨_, _, ⟨⟩, rfl, -, hlast⟩, hbuckets⟩
                have hsame : s' = { s with supply }.publish
                    [(unboundVariable name).atContract callee contract.span] :=
                  ext_emptied hlast hbuckets
                rw [hsame]
          | fault fault =>
              constructor
              · rintro ⟨⟩
              · rintro ⟨account, ⟨_, _, ⟨⟩, -⟩ | ⟨_, _, ⟨⟩, -⟩, -⟩

/-- What is done with a procedure once its body is walked. -/
def conclude (setting : Setting) (callee : DeclId) (decl : Decl) (scope : Scope) (t : Trace) :
    Walk ProcTraces := do
  let projected ← liftLookup (project setting scope.interface t)
  if projected.isClosed then do
    let scope ← verdict setting callee decl scope projected
    addDiagnostics scope.diagnostics
    attach callee (.single projected)
  pure ⟨.single t, .single projected⟩

theorem checkDecl_eq (hdecl : setting.program.decl callee = .ok decl) {body : NodeId}
    (hbody : decl.body = some body) (entry : Option Substitution) (s : WalkState) :
    (checkDecl setting visit callee entry).run s = (do
      pushScope (.opened callee decl entry)
      let fragment ← collectSingle setting visit "procedure body" body body
      let scope ← popScope
      conclude setting callee decl scope (whole setting scope fragment)).run s := by
  unfold checkDecl
  rw [if_neg (by rw [Program.containsDecl_of_ok hdecl]; decide)]
  have hlookup : (liftLookup (setting.program.decl callee)).run s = .ok decl s :=
    liftLookup_eq_ok.2 ⟨hdecl, rfl⟩
  refine (run_bind_of_ok hlookup).trans ?_
  rw [hbody]
  dsimp only
  unfold conclude verdict
  cases decl.contract <;> rfl

section Bodies

variable {entry : Option Substitution} {traces : ProcTraces} {account : Account}

/-- What becomes of the state once the body of a procedure is walked. -/
inductive Concludes (setting : Setting) (callee : DeclId) (decl : Decl) (scope : Scope)
    (projected : Trace) (inner : Account) (s : WalkState) : Account → WalkState → Prop
  | dropped : projected.isClosed = false →
      Concludes setting callee decl scope projected inner s inner s
  | attached {judged noted} : projected.isClosed = true →
      (verdict setting callee decl scope projected).run { supply := s.supply } = .ok judged noted →
      Concludes setting callee decl scope projected inner s
        { attached := inner.attached ++ [(callee,
          inner.own.add ⟨s.supply.upTo noted.supply, judged.diagnostics⟩)] }
        (((s.after noted).publish judged.diagnostics).attach callee projected)

theorem completes_iff_of_body (hdecl : setting.program.decl callee = .ok decl)
    (hbody : decl.body = some body) : Completes setting visits callee entry s traces account s' ↔
      ∃ fragment inner scope outer mid projected,
        visits body (s.enter (.opened callee decl entry)) fragment inner mid ∧
        mid.scopes = scope :: outer ∧
        project setting scope.interface (whole setting scope fragment) = .ok projected ∧
        traces = ⟨.single (whole setting scope fragment), .single projected⟩ ∧
        Concludes setting callee decl scope projected inner { mid with scopes := outer }
          account s' := by
  constructor
  · intro h
    cases h with
    | undeclared hdecl' hbody' | declared hdecl' hbody' | unbound hdecl' hbody' =>
        rw [hdecl] at hdecl'
        cases hdecl'
        rw [hbody] at hbody'
        cases hbody'
    | dropped hdecl' hbody' hvisit hscopes hproject hopen =>
        rw [hdecl] at hdecl'
        cases hdecl'
        rw [hbody] at hbody'
        cases hbody'
        exact ⟨_, _, _, _, _, _, hvisit, hscopes, hproject, rfl, .dropped hopen⟩
    | attached hdecl' hbody' hvisit hscopes hproject hclosed hverdict =>
        rw [hdecl] at hdecl'
        cases hdecl'
        rw [hbody] at hbody'
        cases hbody'
        exact ⟨_, _, _, _, _, _, hvisit, hscopes, hproject, rfl, .attached hclosed hverdict⟩
  · rintro ⟨fragment, inner, scope, outer, mid, projected, hvisit, hscopes, hproject, rfl, h⟩
    cases h with
    | dropped hopen => exact .dropped hdecl hbody hvisit hscopes hproject hopen
    | attached hclosed hverdict =>
        have hcompletes :=
          Completes.attached hdecl hbody hvisit hscopes hproject hclosed hverdict
        exact hcompletes

theorem conclude_run_iff {scope : Scope} {t : Trace} (inner : Account) :
    (conclude setting callee decl scope t).run s = .ok traces s' ↔
      ∃ projected account, project setting scope.interface t = .ok projected ∧
        traces = ⟨.single t, .single projected⟩ ∧
        Concludes setting callee decl scope projected inner s account s' := by
  unfold conclude
  rw [liftLookup_bind_eq_ok]
  constructor
  · rintro ⟨projected, hproject, hrun⟩
    split at hrun
    case isTrue hclosed =>
      obtain ⟨judged, mid, hjudge, hrun⟩ := bind_eq_ok.1 hrun
      obtain ⟨noted, hverdict, rfl⟩ :=
        (OnSupply.run_iff (onSupply_verdict setting callee decl scope _)).1 hjudge
      obtain ⟨rfl, rfl⟩ := EStateM.Result.ok.inj hrun
      exact ⟨_, _, hproject, rfl, .attached hclosed hverdict⟩
    case isFalse hopen =>
      obtain ⟨rfl, rfl⟩ := pure_eq_ok.1 hrun
      exact ⟨_, _, hproject, rfl, .dropped (by simpa using hopen)⟩
  · rintro ⟨projected, account, hproject, rfl, h⟩
    refine ⟨projected, hproject, ?_⟩
    cases h with
    | dropped hopen =>
        rw [if_neg (by simp [hopen])]
        rfl
    | attached hclosed hverdict =>
        rw [if_pos hclosed]
        exact (run_bind_of_ok ((OnSupply.run_iff
          (onSupply_verdict setting callee decl scope projected)).2 ⟨_, hverdict, rfl⟩)).trans rfl

theorem Concludes.emptied {scope : Scope} {projected : Trace} {inner : Account}
    (h : Concludes setting callee decl scope projected inner s account s') :
    Concludes setting callee decl scope projected inner s.emptied account s'.emptied ∧
      s'.buckets = s.buckets := by
  cases h with
  | dropped hopen => exact ⟨.dropped hopen, rfl⟩
  | attached hclosed hverdict => exact ⟨.attached hclosed hverdict, rfl⟩

theorem Concludes.filled {scope : Scope} {projected : Trace} {inner : Account} {last : WalkState}
    (h : Concludes setting callee decl scope projected inner s.emptied account last) :
    ∃ s', Concludes setting callee decl scope projected inner s account s' ∧
      s'.emptied = last ∧ s'.buckets = s.buckets := by
  generalize hstart : s.emptied = start at h
  cases h with
  | dropped hopen => exact ⟨s, .dropped hopen, hstart, rfl⟩
  | attached hclosed hverdict =>
      subst hstart
      exact ⟨_, .attached hclosed hverdict, rfl, rfl⟩

theorem emptied_enter (callee : DeclId) (decl : Decl) (entry : Option Substitution) :
    (s.enter (.opened callee decl entry)).emptied =
      s.emptied.enter (.opened callee decl entry) := by
  rw [emptied, enter, List.map_cons, Scope.emptied_eq_self (Scope.buckets_opened callee decl entry)]
  rfl

theorem exists_scope_of_buckets {bs : List (List Bucket)} (h : s.buckets = [] :: bs) :
    ∃ scope outer, s.scopes = scope :: outer ∧ scope.emptied = scope ∧
      WalkState.buckets { s with scopes := outer } = bs := by
  obtain ⟨supply, store, history, scopes, diagnostics⟩ := s
  cases scopes with
  | nil => cases h
  | cons scope outer =>
      obtain ⟨hscope, houter⟩ := List.cons.inj h
      exact ⟨scope, outer, rfl, Scope.emptied_eq_self hscope, houter⟩

theorem popScope_run {scope : Scope} {outer : List Scope} (h : s.scopes = scope :: outer) :
    popScope.run s = .ok scope { s with scopes := outer } := by
  obtain ⟨supply, store, history, scopes, diagnostics⟩ := s
  cases h
  rfl

theorem checkDecl_run_iff_of_body (h : Realizes visit visits)
    (hdecl : setting.program.decl callee = .ok decl) (hbody : decl.body = some body) :
    (checkDecl setting visit callee entry).run s = .ok traces s' ↔ ∃ account,
      Completes setting visits callee entry s.emptied traces account s'.emptied ∧
        s'.buckets = s.buckets := by
  have hcollect : Computes (collectSingle setting visit "procedure body" body body) (visits body) :=
    computes_collectSingle (h body) "procedure body" body
  have hbuckets : (s.enter (.opened callee decl entry)).buckets = [] :: s.buckets :=
    congrArg (· :: s.buckets) (Scope.buckets_opened callee decl entry)
  have hpush : (pushScope (.opened callee decl entry)).run s =
      .ok () (s.enter (.opened callee decl entry)) := rfl
  rw [checkDecl_eq hdecl hbody, run_bind_of_ok hpush, bind_eq_ok]
  simp only [completes_iff_of_body hdecl hbody]
  constructor
  · rintro ⟨fragment, mid, hrun, hrest⟩
    obtain ⟨inner, hvisit, hmid⟩ := (hcollect.run_iff (List.cons_ne_nil _ _)).1 hrun
    rw [emptied_enter] at hvisit
    obtain ⟨scope, outer, hscopes, hscope, houter⟩ := exists_scope_of_buckets (hmid.trans hbuckets)
    rw [run_bind_of_ok (popScope_run hscopes)] at hrest
    obtain ⟨projected, account, hproject, rfl, hconcludes⟩ := (conclude_run_iff inner).1 hrest
    obtain ⟨hconcludes, hlast⟩ := hconcludes.emptied
    refine ⟨account, ⟨fragment, inner, scope, outer.map Scope.emptied, _, projected, hvisit, ?_,
      hproject, rfl, hconcludes⟩, hlast.trans houter⟩
    rw [emptied, hscopes, List.map_cons, hscope]
  · rintro ⟨account, ⟨fragment, inner, scope, outer, mid, projected, hvisit, hscopes, hproject, rfl,
      hconcludes⟩, hlast⟩
    rw [← emptied_enter] at hvisit
    obtain ⟨hbare, hlength⟩ := (h body).bare hvisit (bare_emptied _)
    obtain ⟨full, rfl, hfull⟩ := exists_filled hbare ([] :: s.buckets) (by
      rw [hlength, length_emptied, ← length_buckets, hbuckets])
    obtain ⟨scope', outer', hscopes', hscope', houter⟩ := exists_scope_of_buckets hfull
    rw [emptied, hscopes', List.map_cons, hscope'] at hscopes
    obtain ⟨rfl, rfl⟩ := List.cons.inj hscopes
    obtain ⟨last, hdone, hsame, hkept⟩ :=
      Concludes.filled (s := { full with scopes := outer' }) hconcludes
    obtain rfl : last = s' := ext_emptied hsame (hkept.trans (houter.trans hlast.symm))
    refine ⟨fragment, full, (hcollect.run_iff (List.cons_ne_nil _ _)).2
      ⟨inner, hvisit, hfull.trans hbuckets.symm⟩, ?_⟩
    rw [run_bind_of_ok (popScope_run hscopes')]
    exact (conclude_run_iff inner).2 ⟨projected, account, hproject, rfl, hdone⟩

/-- Checking a procedure. -/
theorem checkDecl_run_iff (h : Realizes visit visits) :
    (checkDecl setting visit callee entry).run s = .ok traces s' ↔ ∃ account,
      Completes setting visits callee entry s.emptied traces account s'.emptied ∧
        s'.buckets = s.buckets := by
  cases hdecl : setting.program.decl callee with
  | error fault =>
      constructor
      · intro hrun
        unfold checkDecl at hrun
        split at hrun
        · cases hrun
        · rw [liftLookup_bind_eq_ok, hdecl] at hrun
          obtain ⟨_, ⟨⟩, -⟩ := hrun
      · rintro ⟨account, hcompletes, -⟩
        generalize s.emptied = start at hcompletes
        generalize s'.emptied = last at hcompletes
        cases hcompletes <;> simp_all
  | ok decl =>
      cases hbody : decl.body with
      | some body => exact checkDecl_run_iff_of_body h hdecl hbody
      | none =>
          rw [← declared_run_iff hdecl hbody]
          unfold checkDecl
          rw [if_neg (by rw [Program.containsDecl_of_ok hdecl]; decide)]
          refine liftLookup_bind_eq_ok.trans ?_
          simp only [hdecl, Except.ok.injEq, exists_eq_left']
          rw [hbody]

theorem Completes.keepsBare (h : Realizes visit visits)
    (hcompletes : Completes setting visits callee entry s traces account s') : KeepsBare s s' := by
  intro hs
  cases hcompletes with
  | undeclared => exact ⟨hs, rfl⟩
  | declared => exact ⟨hs, rfl⟩
  | unbound => exact ⟨hs, rfl⟩
  | dropped _ _ hvisit hscopes | attached _ _ hvisit hscopes =>
      have hopened : ∀ decl, (s.enter (.opened callee decl entry)).Bare := fun decl =>
        List.forall_mem_cons.2 ⟨Scope.buckets_opened callee decl entry, hs⟩
      obtain ⟨hbare, hlength⟩ := (h _).bare hvisit (hopened _)
      rw [WalkState.Bare, hscopes] at hbare
      rw [hscopes] at hlength
      exact ⟨(List.forall_mem_cons.1 hbare).2, Nat.succ.inj hlength⟩

end Bodies

end Walk

end ProcessContracts
