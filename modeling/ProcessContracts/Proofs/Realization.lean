import ProcessContracts.Proofs.Completions
import ProcessContracts.Proofs.Handlers

/-!
# Walks go by the rules

Walking a node succeeds exactly if a rule allows what it contributes, and so for procedures and
units. An instance is folded back if its callee is open; else it goes by what is known of its
callee.
-/

namespace ProcessContracts

namespace Program

variable {program : Program} {node : NodeId}

theorem HasNode.unique {construct other : Construct} (h : program.HasNode node construct)
    (h' : program.HasNode node other) : construct = other := by
  obtain ⟨written, hwritten, rfl⟩ := h
  obtain ⟨written', hwritten', rfl⟩ := h'
  rw [hwritten] at hwritten'
  cases hwritten'
  rfl

theorem Instantiates.unique {callee callee' : DeclId} {decl decl' : Decl}
    {bindings bindings' : Substitution} (h : program.Instantiates node callee decl bindings)
    (h' : program.Instantiates node callee' decl' bindings') :
    callee' = callee ∧ decl' = decl ∧ bindings' = bindings := by
  obtain ⟨args, hnode, hdecl, hpair⟩ := h
  obtain ⟨args', hnode', hdecl', hpair'⟩ := h'
  cases hnode.unique hnode'
  rw [hdecl] at hdecl'
  cases hdecl'
  rw [hpair] at hpair'
  cases hpair'
  exact ⟨rfl, rfl, rfl⟩

end Program

namespace Walk

/-! ## Folded instances -/

open WalkState

variable {setting : Setting} {visit : NodeId → Walk Unit} {visits : Table} {node : NodeId}
  {callee : DeclId} {decl : Decl} {bindings : Substitution} {s s' : WalkState}

/-- A division of the open scopes, without the buckets. -/
def emptiedSplit (parts : List Scope × Scope × List Scope) : List Scope × Scope × List Scope :=
  (parts.1.map Scope.emptied, parts.2.1.emptied, parts.2.2.map Scope.emptied)

theorem splitAt_emptied (callee : DeclId) (scopes : List Scope) :
    splitAt callee (scopes.map Scope.emptied) = (splitAt callee scopes).map emptiedSplit := by
  induction scopes with
  | nil => rfl
  | cons scope scopes ih =>
      rw [List.map_cons, splitAt, splitAt]
      split
      case isTrue h => rw [if_pos (show scope.decl? = some callee from h)]; rfl
      case isFalse h =>
        rw [if_neg (show ¬ scope.decl? = some callee from h), ih]
        cases splitAt callee scopes <;> rfl

theorem tracedBack_emptied (program : Program) (scopes : List Scope) (actual : ExprId) :
    tracedBack program (scopes.map Scope.emptied) actual = tracedBack program scopes actual := by
  induction scopes generalizing actual with
  | nil => rfl
  | cons scope scopes ih =>
      rw [List.map_cons, tracedBack, tracedBack]
      exact congrArg _ (funext fun formal => ih _)

theorem alteredChannels_emptied (program : Program) (scopes : List Scope)
    (bindings : Substitution) (params : List Param) :
    alteredChannels program (scopes.map Scope.emptied) bindings params =
      alteredChannels program scopes bindings params := by
  induction params with
  | nil => rfl
  | cons param params ih =>
      rw [alteredChannels, alteredChannels, ih]
      simp only [passesThrough, tracedBack_emptied]

theorem marked_emptied (program : Program) (node : NodeId) (decl : Decl)
    (altered : List NameId) (own : Scope) : marked program node decl altered own.emptied =
      (marked program node decl altered own).map Scope.emptied := by
  unfold marked
  split
  · rfl
  · cases altered.mapM program.nameText with
    | error => rfl
    | ok names => cases program.spannedConstruct node <;> rfl

theorem recursionAtomFrom_emptied (scope : Scope) (supply : AtomSupply) (origin : Origin) :
    scope.emptied.recursionAtomFrom supply origin =
      ((scope.recursionAtomFrom supply origin).1,
        (scope.recursionAtomFrom supply origin).2.1.emptied,
        (scope.recursionAtomFrom supply origin).2.2) := by
  obtain ⟨owner, interface, buckets, found, atom, entry, approximate⟩ := scope
  cases atom <;> rfl

/-- The state after an instance is folded onto the marked scope. -/
def foldedState (callee : DeclId) (altered : List NameId) (inner : List Scope) (own : Scope)
    (outer : List Scope) (s : WalkState) : WalkState :=
  let (atom, own, supply) := own.recursionAtomFrom s.supply (.recursion callee)
  { s with
    supply, scopes := inner ++ own :: outer
    history := s.history ++ [.folded callee atom altered] }

/-- Folding an instance leaves the buckets alone. -/
theorem buckets_foldedState {altered : List NameId} {inner outer : List Scope} {own own' : Scope}
    (hsplit : splitAt callee s.scopes = some (inner, own, outer))
    (hmarked : marked setting.program node decl altered own = .ok own') :
    (foldedState callee altered inner own' outer s).buckets = s.buckets := by
  obtain ⟨hscopes, -⟩ := splitAt_eq hsplit
  obtain ⟨-, hbuckets⟩ := marked_eq_ok hmarked
  have hatom : (own'.recursionAtomFrom s.supply (.recursion callee)).2.1.buckets = own'.buckets :=
    recursionAtomFrom_buckets rfl
  simp only [foldedState, WalkState.buckets, hscopes, List.map_append, List.map_cons]
  rw [hatom, hbuckets]

theorem recursiveCall_run_iff (hdecl : setting.program.decl callee = .ok decl)
    (hbuckets : Receives s.buckets) {inner outer : List Scope} {own : Scope}
    (hsplit : splitAt callee s.scopes = some (inner, own, outer)) :
    (recursiveCall setting node callee bindings inner own outer).run s = .ok () s' ↔
      ∃ altered own', alteredChannels setting.program inner bindings
          (decl.visibleParams.filter (·.isChannel)) = .ok altered ∧
        marked setting.program node decl altered own = .ok own' ∧
        s'.emptied = (foldedState callee altered inner own' outer s).emptied ∧
        s'.buckets = contribute
          [.ref (own'.recursionAtomFrom s.supply (.recursion callee)).1.id] s.buckets := by
  have hfold : ∀ altered own', marked setting.program node decl altered own = .ok own' →
      ((do
        let state ← get
        let (atom, own, supply) := own'.recursionAtomFrom state.supply (.recursion callee)
        set { state with supply, scopes := inner ++ own :: outer }
        record (.folded callee atom altered)
        emit node (.ref atom.id) : Walk Unit).run s = .ok () s' ↔
      s'.emptied = (foldedState callee altered inner own' outer s).emptied ∧
        s'.buckets = contribute
          [.ref (own'.recursionAtomFrom s.supply (.recursion callee)).1.id] s.buckets) := by
    intro altered own' hmarked
    have hsame := buckets_foldedState hsplit hmarked
    obtain ⟨last, hrun, hlast, hadded⟩ := emit_run (hsame ▸ hbuckets) node
      (.ref (own'.recursionAtomFrom s.supply (.recursion callee)).1.id)
    rw [hsame] at hadded
    rw [show EStateM.run _ s = .ok () last from hrun, EStateM.Result.ok.injEq]
    constructor
    · rintro ⟨-, rfl⟩
      exact ⟨hlast, hadded⟩
    · rintro ⟨hlast', hadded'⟩
      exact ⟨rfl, ext_emptied (hlast.trans hlast'.symm) (hadded.trans hadded'.symm)⟩
  unfold recursiveCall
  simp only [liftLookup_bind_eq_ok, hdecl, Except.ok.injEq, exists_eq_left']
  constructor
  · rintro ⟨altered, haltered, own', hmarked, hrun⟩
    exact ⟨altered, own', haltered, hmarked, (hfold altered own' hmarked).1 hrun⟩
  · rintro ⟨altered, own', haltered, hmarked, hrest⟩
    exact ⟨altered, haltered, own', hmarked, (hfold altered own' hmarked).2 hrest⟩

theorem foldedState_emptied (callee : DeclId) (altered : List NameId) (inner : List Scope)
    (own : Scope) (outer : List Scope) (s : WalkState) :
    foldedState callee altered (inner.map Scope.emptied) own.emptied (outer.map Scope.emptied)
      s.emptied = (foldedState callee altered inner own outer s).emptied := by
  have hatom := recursionAtomFrom_emptied own s.supply (.recursion callee)
  simp only [foldedState, emptied, hatom, List.map_append, List.map_cons]

/-- An instance of an open procedure goes by one rule. -/
theorem rule_folded_iff (hinstance : setting.program.Instantiates node callee decl bindings)
    {inner outer : List Scope} {own : Scope}
    (hsplit : splitAt callee s.scopes = some (inner, own, outer)) {f : Option Trace}
    {account : Account} : Rule setting visits node s f account s' ↔
      ∃ altered own', alteredChannels setting.program inner bindings
          (decl.visibleParams.filter (·.isChannel)) = .ok altered ∧
        marked setting.program node decl altered own = .ok own' ∧
        f = some (.ref (own'.recursionAtomFrom s.supply (.recursion callee)).1.id) ∧
        account = .minted s.supply (own'.recursionAtomFrom s.supply (.recursion callee)).2.2 ∧
        s' = foldedState callee altered inner own' outer s := by
  constructor
  · intro h
    cases h with
    | planned hnode hplan =>
        obtain ⟨args, hnode', -⟩ := hinstance
        cases hnode.unique hnode'
        cases hplan
    | folded hinstance' hsplit' haltered hmarked hatom =>
        obtain ⟨rfl, rfl, rfl⟩ := hinstance.unique hinstance'
        rw [hsplit] at hsplit'
        cases hsplit'
        refine ⟨_, _, haltered, hmarked, ?_⟩
        simp only [foldedState, hatom, and_self]
    | builtin hinstance' hsplit' | supplied hinstance' hsplit' | unresolved hinstance' hsplit' =>
        obtain ⟨rfl, -, -⟩ := hinstance.unique hinstance'
        rw [hsplit] at hsplit'
        cases hsplit'
  · rintro ⟨altered, own', haltered, hmarked, rfl, rfl, rfl⟩
    exact .folded hinstance hsplit haltered hmarked rfl

theorem folded_iff (hinstance : setting.program.Instantiates node callee decl bindings)
    (hbuckets : Receives s.buckets) {inner outer : List Scope} {own : Scope}
    (hsplit : splitAt callee s.scopes = some (inner, own, outer)) :
    (recursiveCall setting node callee bindings inner own outer).run s = .ok () s' ↔
      ∃ f account, Rule setting visits node s.emptied f account s'.emptied ∧
        s'.buckets = contribute f.toList s.buckets := by
  have hempty : splitAt callee s.emptied.scopes =
      some (inner.map Scope.emptied, own.emptied, outer.map Scope.emptied) := by
    rw [emptied, splitAt_emptied, hsplit]
    rfl
  obtain ⟨args, hnode, hdecl, hpair⟩ := id hinstance
  rw [recursiveCall_run_iff hdecl hbuckets hsplit]
  simp only [rule_folded_iff hinstance hempty, alteredChannels_emptied, marked_emptied]
  constructor
  · rintro ⟨altered, own', haltered, hmarked, hlast, hadded⟩
    have hatom := recursionAtomFrom_emptied own' s.supply (.recursion callee)
    refine ⟨_, _, ⟨altered, own'.emptied, haltered, by rw [hmarked]; rfl, rfl, rfl, ?_⟩, ?_⟩
    · rw [hlast, foldedState_emptied]
    · exact hadded.trans (by rw [emptied, hatom]; rfl)
  · rintro ⟨_, _, ⟨altered, own', haltered, hmarked, rfl, rfl, hlast⟩, hadded⟩
    obtain ⟨own', hown, rfl⟩ : ∃ scope, marked setting.program node decl altered own =
        .ok scope ∧ scope.emptied = own' := by
      cases hscope : marked setting.program node decl altered own with
      | ok scope =>
          rw [hscope] at hmarked
          exact ⟨scope, rfl, Except.ok.inj hmarked⟩
      | error =>
          rw [hscope] at hmarked
          cases hmarked
    have hatom := recursionAtomFrom_emptied own' s.supply (.recursion callee)
    refine ⟨altered, own', haltered, hown, hlast.trans (foldedState_emptied ..), ?_⟩
    exact hadded.trans (by rw [emptied, hatom]; rfl)

/-! ## Instances -/

theorem Supplies.keepsBare (h : Realizes visit visits) {traces : TraceSet} {account : Account}
    (hsupplies : Supplies setting visits callee decl bindings s traces account s') :
    KeepsBare s s' := by
  cases hsupplies with
  | stored => exact .refl s
  | demanded _ _ hcompletes => exact hcompletes.keepsBare h

theorem supplies_iff_of_stored {stored traces : TraceSet} {account : Account}
    (hstore : s.store.get? callee = some stored) :
    Supplies setting visits callee decl bindings s traces account s' ↔
      stored = traces ∧ account = {} ∧ s' = s := by
  constructor
  · intro h
    cases h with
    | stored hstore' =>
        rw [hstore] at hstore'
        exact ⟨Option.some.inj hstore', rfl, rfl⟩
    | demanded hstore' =>
        rw [hstore] at hstore'
        cases hstore'
  · rintro ⟨rfl, rfl, rfl⟩
    exact .stored hstore

theorem supplies_iff_of_not_stored {traces : TraceSet} {account : Account}
    (hstore : s.store.get? callee = none) :
    Supplies setting visits callee decl bindings s traces account s' ↔
      (decl.body.isSome || decl.contract.isSome) = true ∧ ∃ found,
        Completes setting visits callee (some bindings) s found account s' ∧
          traces = found.projected := by
  constructor
  · intro h
    cases h with
    | stored hstore' =>
        rw [hstore] at hstore'
        cases hstore'
    | demanded _ hknown hcompletes => exact ⟨hknown, _, hcompletes, rfl⟩
  · rintro ⟨hknown, found, hcompletes, rfl⟩
    exact .demanded hstore hknown hcompletes

/-- What an instance can use, if anything is known about its callee. -/
def Looks (setting : Setting) (visits : Table) (callee : DeclId) (decl : Decl)
    (bindings : Substitution) (s : WalkState) (found : Option TraceSet) (account : Account)
    (s' : WalkState) : Prop :=
  match found with
  | some traces => Supplies setting visits callee decl bindings s traces account s'
  | none => s.store.get? callee = none ∧ (decl.body.isSome || decl.contract.isSome) = false ∧
      account = {} ∧ s' = s

theorem computes_calleeTraces (h : Realizes visit visits) :
    Computes (calleeTraces setting visit callee decl bindings)
      (Looks setting visits callee decl bindings) where
  run_iff {s s' found} hopen := by
    unfold calleeTraces
    rw [run_bind_of_ok (show EStateM.run get s = .ok s s from rfl)]
    cases hstore : s.store.get? callee with
    | some stored =>
        have hempty : s.emptied.store.get? callee = some stored := hstore
        dsimp only
        rw [pure_eq_ok]
        cases found with
        | none => simp [Looks, hempty]
        | some traces =>
            simp only [Looks, supplies_iff_of_stored hempty, Option.some.injEq]
            constructor
            · rintro ⟨rfl, rfl⟩
              exact ⟨{}, ⟨rfl, rfl, rfl⟩, rfl⟩
            · rintro ⟨account, ⟨rfl, -, hlast⟩, hbuckets⟩
              exact ⟨rfl, (ext_emptied hlast hbuckets).symm⟩
    | none =>
        have hempty : s.emptied.store.get? callee = none := hstore
        dsimp only
        split
        case isTrue hknown =>
          rw [bind_eq_ok]
          cases found with
          | none =>
              simp only [Looks, hknown, Bool.true_eq_false, false_and, and_false, exists_false,
                iff_false]
              rintro ⟨traces, mid, -, hpure⟩
              cases (pure_eq_ok.1 hpure).1
          | some traces =>
              simp only [Looks, supplies_iff_of_not_stored hempty, hknown, true_and,
                checkDecl_run_iff h]
              constructor
              · rintro ⟨found, mid, ⟨account, hcompletes, hbuckets⟩, hpure⟩
                obtain ⟨hfound, rfl⟩ := pure_eq_ok.1 hpure
                exact ⟨account, ⟨found, hcompletes, (Option.some.inj hfound).symm⟩, hbuckets⟩
              · rintro ⟨account, ⟨found, hcompletes, rfl⟩, hbuckets⟩
                exact ⟨found, s', ⟨account, hcompletes, hbuckets⟩, pure_eq_ok.2 ⟨rfl, rfl⟩⟩
        case isFalse hunknown =>
          rw [pure_eq_ok]
          cases found with
          | some traces => simp [Looks, supplies_iff_of_not_stored hempty, hunknown]
          | none =>
              simp only [Looks, hempty, Bool.eq_false_iff.2 hunknown, true_and]
              constructor
              · rintro rfl
                exact ⟨{}, ⟨rfl, rfl⟩, rfl⟩
              · rintro ⟨account, ⟨-, hlast⟩, hbuckets⟩
                exact (ext_emptied hlast hbuckets).symm
  bare {s s' found account} h' := by
    cases found with
    | some traces => exact Supplies.keepsBare h h'
    | none =>
        obtain ⟨-, -, -, rfl⟩ := h'
        exact .refl _

theorem computes_report (diagnostic : Diagnostic) : Computes (report diagnostic)
    fun s _ account s' => account = {} ∧ ∃ scope outer, s.scopes = scope :: outer ∧
      s' = { s with scopes := scope.report diagnostic :: outer } where
  run_iff {s s' u} hopen := by
    obtain ⟨supply, store, history, scopes, diagnostics⟩ := s
    match scopes, hopen with
    | scope :: outer, _ =>
        change EStateM.Result.ok () (⟨supply, store, history, scope.report diagnostic :: outer,
          diagnostics⟩ : WalkState) = _ ↔ _
        rw [EStateM.Result.ok.injEq]
        constructor
        · rintro ⟨-, rfl⟩
          exact ⟨{}, ⟨rfl, scope.emptied, _, rfl, rfl⟩, rfl⟩
        · rintro ⟨account, ⟨-, _, _, hscopes, hlast⟩, hbuckets⟩
          obtain ⟨rfl, rfl⟩ := List.cons.inj hscopes
          have hsame : s' = ⟨supply, store, history, scope.report diagnostic :: outer,
            diagnostics⟩ := ext_emptied hlast hbuckets
          exact ⟨rfl, hsame.symm⟩
  bare {s s' u account} h hs := by
    obtain ⟨-, scope, outer, hscopes, rfl⟩ := h
    rw [WalkState.Bare, hscopes] at hs
    obtain ⟨hscope, houter⟩ := List.forall_mem_cons.1 hs
    exact ⟨List.forall_mem_cons.2 ⟨hscope, houter⟩, by rw [hscopes]; rfl⟩

/-- What an instance contributes once it is looked up what it can use. -/
def Uses (setting : Setting) (node : NodeId) (decl : Decl) (bindings : Substitution) :
    Option TraceSet → WalkState → Option Trace → Account → WalkState → Prop
  | some traces => Asking (bindings.applySet setting.program traces) fun renamed s f account s' =>
      f = renamed.toChoice ∧ account = {} ∧ s' = s
  | none => Asking (setting.program.spannedConstruct node) fun written s f account s' =>
      f = some (.unresolved node) ∧ account = {} ∧ ∃ scope outer, s.scopes = scope :: outer ∧
        s' = { s with scopes := scope.report (unknownCallee decl written.span) :: outer }

theorem makes_ofOption_iff {known f : Option Trace} {account : Account} :
    Makes (.ofOption known) s f account s' ↔ f = known ∧ account = {} ∧ s' = s := by
  constructor
  · rintro ⟨rfl, rfl, rfl⟩
    cases known <;> exact ⟨rfl, by simp [Made.ofOption], rfl⟩
  · rintro ⟨rfl, rfl, rfl⟩
    cases f <;> exact ⟨rfl, by simp [Made.ofOption], rfl⟩

theorem contributes_given (known : Option Trace) :
    Contributes (match known with
      | some t => emit node t
      | none => pure ())
      fun s f account s' => f = known ∧ account = {} ∧ s' = s := by
  cases known with
  | none => exact contributes_nothing
  | some t => exact (contributes_emit node t).congr fun _ _ _ _ => makes_ofOption_iff.symm

theorem contributes_use (found : Option TraceSet) :
    Contributes (match found with
      | some traces => do
          let traces ← liftLookup (bindings.applySet setting.program traces)
          match traces.toChoice with
          | some choice => emit node choice
          | none => pure ()
      | none => do
          let written ← liftLookup (setting.program.spannedConstruct node)
          report (unknownCallee decl written.span)
          emit node (.unresolved node))
      (Uses setting node decl bindings found) := by
  cases found with
  | some traces => exact contributes_asking fun renamed => contributes_given renamed.toChoice
  | none =>
      refine contributes_asking fun written => ?_
      refine ((computes_report _).contribute fun _ => contributes_emit node _).congr
        fun s f account s' => ?_
      constructor
      · rintro ⟨rfl, rfl, scope, outer, hscopes, rfl⟩
        exact ⟨(), {}, _, {}, ⟨rfl, scope, outer, hscopes, rfl⟩, ⟨rfl, by simp, rfl⟩, rfl⟩
      · rintro ⟨-, _, _, _, ⟨rfl, scope, outer, hscopes, rfl⟩, ⟨rfl, rfl, rfl⟩, rfl⟩
        exact ⟨rfl, by simp, scope, outer, hscopes, rfl⟩

theorem contributes_freshCall (h : Realizes visit visits) :
    Contributes (freshCall setting visit node callee decl bindings)
      (Then (Looks setting visits callee decl bindings) (Uses setting node decl bindings)) :=
  (computes_calleeTraces h).contribute contributes_use

/-- An instance of a procedure that is not open goes by what is known about it. -/
theorem rule_fresh_iff (hinstance : setting.program.Instantiates node callee decl bindings)
    (hsplit : splitAt callee s.scopes = none)
    (hbuiltin : decl.body = none → builtin? decl.name = none) {f : Option Trace}
    {account : Account} : Rule setting visits node s f account s' ↔
      Then (Looks setting visits callee decl bindings) (Uses setting node decl bindings)
        s f account s' := by
  constructor
  · intro h
    cases h with
    | planned hnode hplan =>
        obtain ⟨args, hnode', -⟩ := hinstance
        cases hnode.unique hnode'
        cases hplan
    | folded hinstance' hsplit' =>
        obtain ⟨rfl, -, -⟩ := hinstance.unique hinstance'
        rw [hsplit] at hsplit'
        cases hsplit'
    | builtin hinstance' _ hbody hname =>
        obtain ⟨-, rfl, -⟩ := hinstance.unique hinstance'
        rw [hbuiltin hbody] at hname
        cases hname
    | supplied hinstance' _ _ hsupplies happly =>
        obtain ⟨rfl, rfl, rfl⟩ := hinstance.unique hinstance'
        exact ⟨some _, _, _, {}, hsupplies, ⟨_, happly, rfl, rfl, rfl⟩, (Account.add_empty _).symm⟩
    | unresolved hinstance' _ hbody _ hcontract hstore hwritten hscopes =>
        obtain ⟨rfl, rfl, rfl⟩ := hinstance.unique hinstance'
        refine ⟨none, {}, s, {}, ⟨hstore, by simp [hbody, hcontract], rfl, rfl⟩,
          ⟨_, hwritten, rfl, rfl, _, _, hscopes, rfl⟩, rfl⟩
  · rintro ⟨found, here, mid, rest, hlooks, huses, rfl⟩
    cases found with
    | some traces =>
        obtain ⟨renamed, happly, rfl, rfl, rfl⟩ := huses
        rw [Account.add_empty]
        exact .supplied hinstance hsplit hbuiltin hlooks happly
    | none =>
        obtain ⟨hstore, hunknown, rfl, rfl⟩ := hlooks
        obtain ⟨written, hwritten, rfl, rfl, scope, outer, hscopes, rfl⟩ := huses
        obtain ⟨hbody, hcontract⟩ : decl.body = none ∧ decl.contract = none := by
          simpa using hunknown
        exact .unresolved hinstance hsplit hbody (hbuiltin hbody) hcontract hstore hwritten hscopes

theorem rule_builtin_iff (hinstance : setting.program.Instantiates node callee decl bindings)
    (hsplit : splitAt callee s.scopes = none) (hbody : decl.body = none) {known : Option Trace}
    (hbuiltin : builtin? decl.name = some known) {f : Option Trace}
    {account : Account} : Rule setting visits node s f account s' ↔
      f = known ∧ account = {} ∧ s' = s := by
  constructor
  · intro h
    cases h with
    | planned hnode hplan =>
        obtain ⟨args, hnode', -⟩ := hinstance
        cases hnode.unique hnode'
        cases hplan
    | folded hinstance' hsplit' =>
        obtain ⟨rfl, -, -⟩ := hinstance.unique hinstance'
        rw [hsplit] at hsplit'
        cases hsplit'
    | builtin hinstance' _ _ hname =>
        obtain ⟨-, rfl, -⟩ := hinstance.unique hinstance'
        rw [hbuiltin] at hname
        exact ⟨(Option.some.inj hname).symm, rfl, rfl⟩
    | supplied hinstance' _ hfresh =>
        obtain ⟨-, rfl, -⟩ := hinstance.unique hinstance'
        rw [hfresh hbody] at hbuiltin
        cases hbuiltin
    | unresolved hinstance' _ _ hname =>
        obtain ⟨-, rfl, -⟩ := hinstance.unique hinstance'
        rw [hname] at hbuiltin
        cases hbuiltin
  · rintro ⟨rfl, rfl, rfl⟩
    exact .builtin hinstance hsplit hbody hbuiltin

/-- Only what is an instance goes by a rule where a call is written. -/
theorem Rule.exists_instance {args : List Arg} {f : Option Trace} {account : Account}
    (hnode : setting.program.HasNode node (.call callee args))
    (h : Rule setting visits node s f account s') :
    ∃ decl bindings, setting.program.decl callee = .ok decl ∧
      Substitution.pair decl.params args = .ok bindings := by
  have hknown : ∀ {callee' decl bindings},
      setting.program.Instantiates node callee' decl bindings → ∃ decl bindings,
        setting.program.decl callee = .ok decl ∧
          Substitution.pair decl.params args = .ok bindings := by
    rintro callee' decl bindings ⟨args', hnode', hdecl, hpair⟩
    cases hnode.unique hnode'
    exact ⟨decl, bindings, hdecl, hpair⟩
  cases h with
  | planned hnode' hplan =>
      cases hnode.unique hnode'
      cases hplan
  | folded hinstance | builtin hinstance | supplied hinstance | unresolved hinstance =>
      exact hknown hinstance

theorem call_run {args : List Arg} (hdecl : setting.program.decl callee = .ok decl)
    (hpair : Substitution.pair decl.params args = .ok bindings) (s : WalkState) :
    (call setting visit node callee args).run s =
      (match splitAt callee s.scopes with
        | some (inner, own, outer) => recursiveCall setting node callee bindings inner own outer
        | none =>
            match (if decl.body.isNone then builtin? decl.name else none) with
            | some (some fragment) => emit node fragment
            | some none => pure ()
            | none => freshCall setting visit node callee decl bindings).run s := by
  have hlookup : (liftLookup (setting.program.decl callee)).run s = .ok decl s :=
    liftLookup_eq_ok.2 ⟨hdecl, rfl⟩
  unfold call
  rw [if_neg (by rw [Program.containsDecl_of_ok hdecl]; decide)]
  refine (run_bind_of_ok hlookup).trans ?_
  rw [hpair]
  rfl

theorem exists_instance_of_call {args : List Arg}
    (h : (call setting visit node callee args).run s = .ok () s') :
    ∃ decl bindings, setting.program.decl callee = .ok decl ∧
      Substitution.pair decl.params args = .ok bindings := by
  unfold call at h
  dsimp only at h
  split at h
  case isTrue => cases h
  case isFalse =>
    obtain ⟨decl, hdecl, h⟩ := liftLookup_bind_eq_ok.1 h
    split at h
    case h_1 => cases h
    case h_2 bindings hpair => exact ⟨decl, bindings, hdecl, hpair⟩

/-- An instance of a procedure. -/
theorem call_run_iff (h : Realizes visit visits) {args : List Arg}
    (hnode : setting.program.HasNode node (.call callee args)) (hbuckets : Receives s.buckets) :
    (call setting visit node callee args).run s = .ok () s' ↔ ∃ f account,
      Rule setting visits node s.emptied f account s'.emptied ∧
        s'.buckets = contribute f.toList s.buckets := by
  by_cases hknown : ∃ decl bindings, setting.program.decl callee = .ok decl ∧
      Substitution.pair decl.params args = .ok bindings
  case neg =>
    constructor
    · exact fun hrun => absurd (exists_instance_of_call hrun) hknown
    · rintro ⟨f, account, hrule, -⟩
      exact absurd (hrule.exists_instance hnode) hknown
  obtain ⟨decl, bindings, hdecl, hpair⟩ := hknown
  have hinstance : setting.program.Instantiates node callee decl bindings :=
    ⟨args, hnode, hdecl, hpair⟩
  rw [call_run hdecl hpair]
  cases hsplit : splitAt callee s.scopes with
  | some parts => exact folded_iff hinstance hbuckets hsplit
  | none =>
      have hempty : splitAt callee s.emptied.scopes = none := by
        rw [emptied, splitAt_emptied, hsplit]
        rfl
      dsimp only
      by_cases hbuiltin : decl.body = none → builtin? decl.name = none
      · have hnone : (if decl.body.isNone = true then builtin? decl.name else none) = none := by
          split
          case isTrue hbody => exact hbuiltin (by simpa using hbody)
          case isFalse => rfl
        rw [hnone]
        simp only [rule_fresh_iff hinstance hempty hbuiltin]
        exact (contributes_freshCall h).run_iff hbuckets
      · obtain ⟨hbody, hname⟩ := Classical.not_imp.1 hbuiltin
        obtain ⟨known, hname⟩ := Option.ne_none_iff_exists'.1 hname
        simp only [rule_builtin_iff hinstance hempty hbody hname, hbody, Option.isNone_none,
          if_true, hname]
        have hgiven := @contributes_given node known
        cases known <;> exact hgiven.run_iff hbuckets

/-! ## Nodes -/

/-- What is done with a construct. -/
def handle (setting : Setting) (visit : NodeId → Walk Unit) (node : NodeId) : Construct → Walk Unit
  | .skip => emit node .skip
  | .stop => emit node .stop
  | .input chan => do emit node (.event .input (← channel setting chan))
  | .output chan => do emit node (.event .output (← channel setting chan))
  | .assign _ _ => pure ()
  | .compose mode children => compose visit node mode children
  | .replicate mode count body => replicate setting visit node mode count body
  | .loop guard body => loop setting visit node guard body
  | .cond arms => cond setting visit node arms
  | .alt arms => alt setting visit node arms
  | .call callee args => call setting visit node callee args
  | .block _ body => visit body

theorem rule_planned_iff {construct : Construct} (hnode : setting.program.HasNode node construct)
    (hcall : ∀ callee args, construct ≠ .call callee args) {f : Option Trace} {account : Account} :
    Rule setting visits node s f account s' ↔
      Planned setting visits node construct s f account s' := by
  have hother : ∀ {callee decl bindings},
      ¬ setting.program.Instantiates node callee decl bindings := by
    rintro callee decl bindings ⟨args, hnode', -⟩
    exact hcall callee args (hnode.unique hnode')
  constructor
  · intro h
    cases h with
    | planned hnode' hplan hseries hmade =>
        cases hnode.unique hnode'
        exact ⟨_, hplan, _, rfl, _, _, _, _, hseries, hmade, rfl⟩
    | folded hinstance | builtin hinstance | supplied hinstance | unresolved hinstance =>
        exact absurd hinstance hother
  · rintro ⟨_, hplan, plan, rfl, fragments, here, mid, rest, hseries, hmade, rfl⟩
    exact .planned hnode hplan hseries hmade

/-- A walk of the node yields the fragment. -/
def MayYield (visits : Table) (node : NodeId) (f : Option Trace) : Prop :=
  ∃ s account s', visits node s f account s'

theorem Series.mayYield {nodes : List NodeId} {fragments : List (Option Trace)} {account : Account}
    (h : Series visits nodes s fragments account s') :
    List.Forall₂ (MayYield visits) nodes fragments := by
  induction h with
  | nil => exact .nil
  | cons hhere _ ih => exact .cons ⟨_, _, _, hhere⟩ ih

/-- What is no instance yields what its plan makes of what its parts yield. -/
theorem MayYield.planned {construct : Construct} {f : Option Trace}
    (h : MayYield (Rule setting visits) node f) (hnode : setting.program.HasNode node construct)
    (hcall : ∀ callee args, construct ≠ .call callee args) :
    ∃ plan fragments n, construct.plan setting node = .ok (some plan) ∧
      List.Forall₂ (MayYield visits) plan.parts fragments ∧
      f = (plan.make fragments).fragment n := by
  obtain ⟨s, account, s', h⟩ := h
  obtain ⟨_, hplan, plan, rfl, fragments, here, mid, rest, hseries, hmade, rfl⟩ :=
    (rule_planned_iff hnode hcall).1 h
  exact ⟨plan, fragments, mid.minted, hplan, hseries.mayYield, hmade.fragment⟩

theorem step_run {construct : Spanned Construct}
    (hwritten : setting.program.spannedConstruct node = .ok construct) (s : WalkState) :
    (step setting visit node).run s = (handle setting visit node construct.value).run s := by
  have hcontains := Program.contains_of_construct hwritten
  have hlookup : (liftLookup (setting.program.spannedConstruct node)).run s = .ok construct s :=
    liftLookup_eq_ok.2 ⟨hwritten, rfl⟩
  unfold step
  rw [if_neg (by rw [hcontains]; decide)]
  exact run_bind_of_ok hlookup

theorem contributes_planned (h : Realizes visit visits) {construct : Construct}
    (hcall : ∀ callee args, construct ≠ .call callee args) :
    Contributes (handle setting visit node construct) (Planned setting visits node construct) := by
  cases construct with
  | skip | stop =>
      rw [planned_of_pure rfl]
      exact contributes_leaf node _
  | input expr | output expr =>
      rw [planned_of_bind rfl]
      exact contributes_asking fun chan => contributes_leaf node _
  | assign =>
      rw [planned_of_pure rfl]
      exact contributes_skipped
  | compose mode children =>
      rw [planned_of_pure rfl]
      exact contributes_compose h node mode children
  | replicate mode count body =>
      rw [planned_of_bind rfl]
      exact contributes_replicate h node mode count body
  | loop guard body =>
      rw [planned_of_bind rfl]
      exact contributes_loop h node guard body
  | cond arms => exact contributes_cond h node arms
  | alt arms => exact contributes_alt h node arms
  | call callee args => exact absurd rfl (hcall callee args)
  | block locals body =>
      rw [planned_of_pure rfl]
      refine (h body).congr fun s f account s' => follows_wrap_iff.trans ⟨?_, fun hbody => ?_⟩
      · rintro ⟨fragment, here, mid, rest, hbody, hmade, rfl⟩
        obtain ⟨rfl, rfl, rfl⟩ := makes_ofOption_iff.1 hmade
        rwa [Account.add_empty]
      · exact ⟨f, account, s', {}, hbody, makes_ofOption_iff.2 ⟨rfl, rfl, rfl⟩,
          (Account.add_empty _).symm⟩

theorem Rule.keepsBare (h : Realizes visit visits) {f : Option Trace} {account : Account}
    (hrule : Rule setting visits node s f account s') : KeepsBare s s' := by
  cases hrule with
  | planned _ _ hseries hmade =>
      obtain ⟨-, -, rfl⟩ := hmade
      exact (series_keepsBare h hseries).trans fun hs => ⟨hs, rfl⟩
  | folded _ hsplit _ hmarked hatom =>
      intro hs
      obtain ⟨hscopes, -⟩ := splitAt_eq hsplit
      rw [WalkState.Bare, hscopes] at hs
      obtain ⟨hinner, hs⟩ := List.forall_mem_append.1 hs
      obtain ⟨hown, houter⟩ := List.forall_mem_cons.1 hs
      refine ⟨List.forall_mem_append.2 ⟨hinner, List.forall_mem_cons.2 ⟨?_, houter⟩⟩, ?_⟩
      · rw [recursionAtomFrom_buckets hatom, (marked_eq_ok hmarked).2, hown]
      · simp [hscopes]
  | builtin => exact .refl s
  | supplied _ _ _ hsupplies => exact hsupplies.keepsBare h
  | unresolved _ _ _ _ _ _ _ hscopes =>
      intro hs
      rw [WalkState.Bare, hscopes] at hs
      obtain ⟨hscope, houter⟩ := List.forall_mem_cons.1 hs
      exact ⟨List.forall_mem_cons.2 ⟨hscope, houter⟩, by simp [hscopes]⟩

theorem Rule.exists_construct {f : Option Trace} {account : Account}
    (h : Rule setting visits node s f account s') :
    ∃ written, setting.program.spannedConstruct node = .ok written := by
  have hknown : ∀ {callee decl bindings}, setting.program.Instantiates node callee decl bindings →
      ∃ written, setting.program.spannedConstruct node = .ok written := by
    rintro callee decl bindings ⟨args, ⟨written, hwritten, -⟩, -⟩
    exact ⟨written, hwritten⟩
  cases h with
  | planned hnode =>
      obtain ⟨written, hwritten, -⟩ := hnode
      exact ⟨written, hwritten⟩
  | folded hinstance | builtin hinstance | supplied hinstance | unresolved hinstance =>
      exact hknown hinstance

theorem exists_construct_of_step (h : (step setting visit node).run s = .ok () s') :
    ∃ written, setting.program.spannedConstruct node = .ok written := by
  unfold step at h
  dsimp only at h
  split at h
  case isTrue => cases h
  case isFalse =>
    obtain ⟨written, hwritten, -⟩ := liftLookup_bind_eq_ok.1 h
    exact ⟨written, hwritten⟩

theorem step_run_iff (h : Realizes visit visits) (hbuckets : Receives s.buckets) :
    (step setting visit node).run s = .ok () s' ↔ ∃ f account,
      Rule setting visits node s.emptied f account s'.emptied ∧
        s'.buckets = contribute f.toList s.buckets := by
  by_cases hknown : ∃ written, setting.program.spannedConstruct node = .ok written
  case neg =>
    constructor
    · exact fun hrun => absurd (exists_construct_of_step hrun) hknown
    · rintro ⟨f, account, hrule, -⟩
      exact absurd hrule.exists_construct hknown
  obtain ⟨written, hwritten⟩ := hknown
  have hnode : setting.program.HasNode node written.value := ⟨written, hwritten, rfl⟩
  rw [step_run hwritten]
  by_cases hcall : ∃ callee args, written.value = .call callee args
  · obtain ⟨callee, args, hcall⟩ := hcall
    rw [hcall] at hnode ⊢
    exact call_run_iff h hnode hbuckets
  · have hcall' : ∀ callee args, written.value ≠ .call callee args := fun callee args heq =>
      hcall ⟨callee, args, heq⟩
    simp only [rule_planned_iff hnode hcall']
    exact (contributes_planned h hcall').run_iff hbuckets

/-- If the nodes below are walked as the table says, a node is walked by a rule. -/
theorem realizes_step (h : Realizes visit visits) :
    Realizes (step setting visit) (Rule setting visits) := fun _ =>
  ⟨step_run_iff h, Rule.keepsBare h⟩

/-- Walks go by the rules. -/
theorem realizes_walkWithin (depth : Nat) :
    Realizes (walkWithin setting depth) (YieldsWithin setting depth) := by
  induction depth with
  | zero =>
      refine fun node => ⟨fun _ => ⟨fun hrun => absurd hrun throw_ne_ok, ?_⟩, fun h => h.elim⟩
      rintro ⟨f, account, h, -⟩
      exact h.elim
  | succ depth ih => exact realizes_step ih

section Units

variable {unit : ProgramUnit} {traces : TraceSet}

/-! ## Units -/

theorem emptied_of_no_scopes (h : s.scopes = []) : s.emptied = s :=
  emptied_of_bare (by rw [WalkState.Bare, h]; exact List.forall_mem_nil _)

theorem no_scopes_of_buckets (h : s.scopes = []) (hbuckets : s'.buckets = s.buckets) :
    s'.scopes = [] := by
  rw [← List.length_eq_zero_iff, ← length_buckets, hbuckets, length_buckets, h]
  rfl

theorem realizes_walk (setting : Setting) :
    Realizes (walk setting) (YieldsWithin setting (depthBound setting.program)) :=
  realizes_walkWithin (depthBound setting.program)

theorem contains_of_yieldsWithin {depth : Nat} {node : NodeId} {f : Option Trace}
    {account : Account} (h : YieldsWithin setting depth node s f account s') :
    setting.program.containsNode node = true := by
  cases depth with
  | zero => exact h.elim
  | succ depth =>
      obtain ⟨written, hwritten⟩ := Rule.exists_construct h
      exact Program.contains_of_construct hwritten

theorem checkProcess_run_iff {node : NodeId} (hs : s.scopes = []) :
    (checkProcess setting node).run s = .ok traces s' ↔
      ∃ account, UnitYields setting (.process node) s traces account s' := by
  have hrealizes := realizes_walk setting
  have hcollect : Computes (collectSingle setting (walk setting) "process" node node)
    (YieldsWithin setting (depthBound setting.program) node) :=
    computes_collectSingle (hrealizes node) "process" node
  have hself : (s.enter { owner := .process node }).emptied =
      s.enter { owner := .process node } := by
    rw [emptied, enter, hs]
    rfl
  have hbuckets : (s.enter { owner := .process node }).buckets = [[]] := by
    rw [buckets, enter, hs]
    rfl
  have hpush : (pushScope { owner := .process node }).run s =
      .ok () (s.enter { owner := .process node }) := rfl
  constructor
  · intro hrun
    unfold checkProcess at hrun
    dsimp only at hrun
    split at hrun
    case isTrue => cases hrun
    rw [run_bind_of_ok hpush] at hrun
    obtain ⟨fragment, mid, hrun, hrest⟩ := bind_eq_ok.1 hrun
    obtain ⟨account, hvisit, hmid⟩ := (hcollect.run_iff (List.cons_ne_nil _ _)).1 hrun
    obtain ⟨scope, outer, hscopes, hscope, houter⟩ := exists_scope_of_buckets (hmid.trans hbuckets)
    rw [run_bind_of_ok (popScope_run hscopes)] at hrest
    obtain ⟨rfl, rfl⟩ := EStateM.Result.ok.inj hrest
    obtain rfl : outer = [] := List.map_eq_nil_iff.1 houter
    rw [hself, emptied_of_bare (show mid.Bare by
      rw [WalkState.Bare, hscopes]
      exact List.forall_mem_singleton.2 (congrArg Scope.buckets hscope).symm)] at hvisit
    exact ⟨_, .process hvisit hscopes⟩
  · rintro ⟨account, h⟩
    cases h with
    | @process _ _ fragment account scope outer mid hvisit hscopes =>
        have hs' : (s.enter { owner := .process node }).Bare := by
          rw [WalkState.Bare, enter, hs]
          exact List.forall_mem_singleton.2 rfl
        obtain ⟨hbare, hlength⟩ := (hrealizes node).bare hvisit hs'
        have houter : outer = [] := by
          rw [enter, hs, hscopes] at hlength
          exact List.length_eq_zero_iff.1 (Nat.succ.inj hlength)
        have hmid : mid.buckets = [[]] := by
          rw [WalkState.Bare, hscopes] at hbare
          rw [buckets, hscopes, houter, List.map_singleton, hbare scope List.mem_cons_self]
        have hrun := (hcollect.run_iff (List.cons_ne_nil _ _)).2
          ⟨account, by rwa [hself, emptied_of_bare hbare], hmid.trans hbuckets.symm⟩
        unfold checkProcess
        rw [if_neg (by rw [contains_of_yieldsWithin hvisit]; decide)]
        refine (run_bind_of_ok hpush).trans ((run_bind_of_ok hrun).trans ?_)
        exact (run_bind_of_ok (popScope_run hscopes)).trans rfl

theorem checkDecl_run_iff_of_no_scopes {callee : DeclId} {found : ProcTraces} (hs : s.scopes = []) :
    (checkDecl setting (walk setting) callee none).run s = .ok found s' ↔ ∃ account,
      Completes setting (YieldsWithin setting (depthBound setting.program)) callee none s found
        account s' := by
  have hrealizes := realizes_walk setting
  rw [checkDecl_run_iff hrealizes, emptied_of_no_scopes hs]
  constructor
  · rintro ⟨account, hcompletes, hbuckets⟩
    rw [emptied_of_no_scopes (no_scopes_of_buckets hs hbuckets)] at hcompletes
    exact ⟨account, hcompletes⟩
  · rintro ⟨account, hcompletes⟩
    have hbare : s.Bare := by
      rw [WalkState.Bare, hs]
      exact List.forall_mem_nil _
    obtain ⟨-, hlength⟩ := hcompletes.keepsBare hrealizes hbare
    have hs' : s'.scopes = [] := by
      rwa [hs, List.length_nil, List.length_eq_zero_iff] at hlength
    exact ⟨account, by rwa [emptied_of_no_scopes hs'], by rw [buckets, buckets, hs, hs']⟩

theorem checkUnit_run_iff (hs : s.scopes = []) :
    (checkUnit setting unit).run s = .ok traces s' ↔
      ∃ account, UnitYields setting unit s traces account s' := by
  cases unit with
  | process node => exact checkProcess_run_iff hs
  | proc callee =>
      unfold checkUnit
      rw [bind_eq_ok]
      simp only [checkDecl_run_iff_of_no_scopes hs]
      constructor
      · rintro ⟨found, mid, ⟨account, hcompletes⟩, hrun⟩
        obtain ⟨rfl, rfl⟩ := pure_eq_ok.1 hrun
        exact ⟨account, .proc hcompletes⟩
      · rintro ⟨account, h⟩
        cases h with
        | proc hcompletes => exact ⟨_, s', ⟨account, hcompletes⟩, pure_eq_ok.2 ⟨rfl, rfl⟩⟩

end Units

end Walk

/-- A check succeeds exactly if the rules allow its outcome. -/
theorem check_eq_ok_iff {setting : Setting} {unit : ProgramUnit} {session last : Session}
    {outcome : Outcome} : check setting unit session = (.ok outcome, last) ↔ ∃ account state,
      Walk.UnitYields setting unit session.begin outcome.traces account state ∧
        outcome.diagnostics = state.diagnostics ∧ last = .ofWalk state := by
  have hrun : ∀ {traces state}, (Walk.checkUnit setting unit).run session.begin = .ok traces state ↔
      ∃ account, Walk.UnitYields setting unit session.begin traces account state :=
    Walk.checkUnit_run_iff rfl
  unfold check
  constructor
  · intro h
    split at h
    case h_1 traces state hok =>
      obtain ⟨hfirst, rfl⟩ := Prod.mk.inj h
      obtain rfl := Except.ok.inj hfirst
      obtain ⟨account, hyields⟩ := hrun.1 hok
      exact ⟨account, state, hyields, rfl, rfl⟩
    case h_2 => cases (Prod.mk.inj h).1
  · rintro ⟨account, state, hyields, hdiagnostics, rfl⟩
    rw [hrun.2 ⟨account, hyields⟩]
    obtain ⟨traces, diagnostics⟩ := outcome
    cases hdiagnostics
    rfl

end ProcessContracts
