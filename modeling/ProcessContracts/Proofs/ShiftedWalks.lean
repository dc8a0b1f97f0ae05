import ProcessContracts.Compilation
import ProcessContracts.Proofs.CallGraph
import ProcessContracts.Proofs.Realization
import ProcessContracts.Proofs.RenumberedSearches

/-!
# Walks from another supply

A walk only mints atoms and never asks for their numbers. So from a supply that was used more often,
and from traces of callees that are the same up to the numbers of their atoms, it does the same and
comes out renumbered, also where it is given up.
-/

namespace ProcessContracts

open Trace

/-! ## Renumbered states -/

/-- The same finding. What it shows of a computed trace it shows of the renumbered one. -/
structure Diagnostic.Renumbered (program : Program) (f : AtomId → AtomId)
    (diagnostic diagnostic' : Diagnostic) : Prop where
  code : diagnostic'.code = diagnostic.code
  severity : diagnostic'.severity = diagnostic.severity
  message : diagnostic'.message = diagnostic.message
  span : diagnostic'.span = diagnostic.span
  decl : diagnostic'.decl = diagnostic.decl
  help : diagnostic'.help = diagnostic.help ∨ ∃ (t : Trace) (text text' : String),
    t.describe program = .ok text ∧ (t.renumber f).describe program = .ok text' ∧
    diagnostic.help = some ("computed behaviour: " ++ text) ∧
    diagnostic'.help = some ("computed behaviour: " ++ text')

theorem Diagnostic.renumbered_self (program : Program) (f : AtomId → AtomId)
    (diagnostic : Diagnostic) : Diagnostic.Renumbered program f diagnostic diagnostic :=
  ⟨rfl, rfl, rfl, rfl, rfl, .inl rfl⟩

theorem Diagnostic.renumbered_selves (program : Program) (f : AtomId → AtomId)
    (found : List Diagnostic) : List.Forall₂ (Diagnostic.Renumbered program f) found found :=
  List.forall₂_same.2 fun diagnostic _ => diagnostic.renumbered_self program f

/-- A renumbering of atoms that takes those minted after the first ones of one supply to those
minted after the first ones of another, and procedures whose traces it respects. They are closed
under calls. -/
structure Renumbering (program : Program) where
  f : AtomId → AtomId
  injective : f.Injective
  first : Nat
  first' : Nat
  minted : ∀ i, f ⟨first + i⟩ = ⟨first' + i⟩
  known : DeclId → Prop
  closed : ∀ {caller callee}, known caller → program.Calls (.proc caller) callee → known callee

def Bucket.renumber (f : AtomId → AtomId) (bucket : Bucket) : Bucket :=
  ⟨bucket.fragments.map (Trace.renumber f)⟩

namespace Renumbering

variable {program : Program} (r : Renumbering program)

structure Scopes (scope scope' : Scope) : Prop where
  owner : scope'.owner = scope.owner
  interface : scope'.interface = scope.interface
  buckets : scope'.buckets = scope.buckets.map (Bucket.renumber r.f)
  diagnostics : List.Forall₂ (Diagnostic.Renumbered program r.f) scope.diagnostics
    scope'.diagnostics
  recursionAtom : scope'.recursionAtom = scope.recursionAtom.map (Atom.renumber r.f)
  entry : scope'.entry = scope.entry
  approximate : scope'.approximate = scope.approximate

structure States (s s' : WalkState) : Prop where
  supply : Level r.first r.first' s.supply s'.supply
  store : ∀ callee, r.known callee →
    s'.store.get? callee = (s.store.get? callee).map (TraceSet.renumber r.f)
  scopes : List.Forall₂ r.Scopes s.scopes s'.scopes
  diagnostics : List.Forall₂ (Diagnostic.Renumbered program r.f) s.diagnostics s'.diagnostics

/-- The callees of instances in the node are known. -/
def Reaches (node : NodeId) : Prop :=
  ∃ unit, program.Within unit node ∧ ∀ callee, program.Calls unit callee → r.known callee

/-- The walks do the same, and the answer of the second one is a renumbered answer of the first. -/
abbrev Follows {α β : Type} (rel : α → β → Prop) (m : Walk α) (m' : Walk β) : Prop :=
  Alongside r.States rel m m'

/-- The answer of the second walk is the renumbered answer of the first. -/
abbrev Renumbers {α : Type} (g : α → α) (m m' : Walk α) : Prop :=
  Alongside r.States (fun a b => b = g a) m m'

abbrev Repeats {α : Type} (m : Walk α) : Prop := Alongside r.States Eq m m

/-! ## Steps -/

section Steps

open Walk

variable {α β : Type} {setting : Setting} {r : Renumbering setting.program} {s s' : WalkState}
  {own own' : Scope} {t : Trace} {node : NodeId}

theorem repeats_liftLookup (query : Lookup α) : r.Repeats (liftLookup query) := by
  cases query with
  | ok a => exact alongside_pure rfl
  | error fault => exact alongside_throw _

theorem renumbers_liftLookup {g : α → α} {query query' : Lookup α} (h : query' = query.map g) :
    r.Renumbers g (liftLookup query) (liftLookup query') := by
  subst h
  cases query with
  | ok a => exact alongside_pure rfl
  | error fault => exact alongside_throw _

theorem States.innermost (h : r.States s s') : (s.scopes = [] ∧ s'.scopes = []) ∨
    ∃ own outer own' outer', s.scopes = own :: outer ∧ s'.scopes = own' :: outer' ∧
      r.Scopes own own' ∧ List.Forall₂ r.Scopes outer outer' := by
  obtain ⟨-, -, hscopes, -⟩ := h
  generalize s.scopes = scopes, s'.scopes = scopes' at hscopes
  cases hscopes with
  | nil => exact .inl ⟨rfl, rfl⟩
  | cons hown houter => exact .inr ⟨_, _, _, _, rfl, rfl, hown, houter⟩

theorem follows_scope : r.Follows r.Scopes Walk.scope Walk.scope := by
  refine alongside_get fun s s' h => ?_
  obtain ⟨hs, hs'⟩ | ⟨own, outer, own', outer', hs, hs', hown, -⟩ := h.innermost
  · rw [hs, hs']
    exact ⟨rfl, h⟩
  · rw [hs, hs']
    exact ⟨hown, h⟩

theorem follows_setScope (h : r.Scopes own own') : r.Follows Eq (setScope own) (setScope own') :=
  alongside_modify fun _ _ hs => { hs with scopes := .cons h (by
    rcases hs.innermost with ⟨hs, hs'⟩ | ⟨_, _, _, _, hs, hs', -, houter⟩
    · rw [hs, hs']
      exact .nil
    · rw [hs, hs']
      exact houter) }

theorem follows_report (diagnostic : Diagnostic) : r.Repeats (report diagnostic) :=
  follows_scope.bind fun own own' h => follows_setScope { h with
    diagnostics := by
      have howner : own'.decl? = own.decl? := congrArg ProgramUnit.decl? h.owner
      unfold Scope.report
      rw [howner]
      exact List.rel_append h.diagnostics (Diagnostic.renumbered_selves _ _ [_]) }

theorem follows_emit (node : NodeId) (t : Trace) :
    r.Follows Eq (emit node t) (emit node (t.renumber r.f)) := by
  refine follows_scope.bind fun own own' h => ?_
  unfold Scope.emit
  rw [h.buckets]
  cases own.buckets with
  | nil => exact alongside_throw _
  | cons bucket buckets =>
      refine follows_setScope { h with buckets := ?_ }
      simp [Bucket.push, Bucket.renumber]

theorem repeats_openBucket : r.Repeats openBucket :=
  follows_scope.bind fun _ _ h => follows_setScope { h with
    buckets := by simp [Scope.openBucket, Bucket.renumber, h.buckets] }

theorem renumbers_closeBucket (node : NodeId) :
    r.Renumbers (Bucket.renumber r.f) (closeBucket node) (closeBucket node) := by
  refine follows_scope.bind fun own own' h => ?_
  unfold Scope.closeBucket
  rw [h.buckets]
  cases own.buckets with
  | nil => exact alongside_throw _
  | cons bucket buckets =>
      have hrest : r.Scopes { own with buckets }
        { own' with buckets := buckets.map (Bucket.renumber r.f) } := { h with buckets := rfl }
      exact (follows_setScope hrest).bind fun _ _ _ => alongside_pure rfl

theorem renumbers_mint (origin : Origin) :
    r.Renumbers (Atom.renumber r.f) (mint origin) (mint origin) := by
  intro s s' h
  obtain ⟨i, hi, hi'⟩ := h.supply
  refine ⟨?_, { h with supply := ⟨i + 1, congrArg (· + 1) hi, congrArg (· + 1) hi'⟩ }⟩
  exact congrArg (Atom.mk · origin) ((congrArg AtomId.mk hi').trans ((r.minted i).symm.trans
    (congrArg r.f (congrArg AtomId.mk hi.symm))))

theorem follows_addDiagnostics {found found' : List Diagnostic}
    (h : List.Forall₂ (Diagnostic.Renumbered setting.program r.f) found found') :
    r.Follows Eq (addDiagnostics found) (addDiagnostics found') :=
  alongside_modify fun _ _ hs => { hs with diagnostics := List.rel_append hs.diagnostics h }

theorem follows_record (event event' : Event) : r.Follows Eq (record event) (record event') :=
  alongside_modify fun _ _ hs => { hs with }

theorem follows_attach (callee : DeclId) (traces : TraceSet) :
    r.Follows Eq (attach callee traces) (attach callee (traces.renumber r.f)) := by
  refine Alongside.bind (alongside_modify fun s s' hs =>
    { hs with store := fun other hknown => ?_ })
    fun _ _ _ => follows_record _ _
  rw [Ledger.get?_insert, Ledger.get?_insert]
  split
  · rfl
  · exact hs.store other hknown

theorem follows_pushScope (h : r.Scopes own own') : r.Follows Eq (pushScope own) (pushScope own') :=
  alongside_modify fun _ _ hs => { hs with scopes := .cons h hs.scopes }

theorem follows_popScope : r.Follows r.Scopes popScope popScope := by
  refine alongside_get fun s s' h => ?_
  obtain ⟨hs, hs'⟩ | ⟨own, outer, own', outer', hs, hs', hown, houter⟩ := h.innermost
  · rw [hs, hs']
    exact ⟨rfl, h⟩
  · rw [hs, hs']
    exact ⟨hown, { h with scopes := houter }⟩

end Steps

/-! ## Constructs -/

section Constructs

open Walk

variable {setting : Setting} {r : Renumbering setting.program} {visit : NodeId → Walk Unit}
  {body : NodeId} {bodies : List NodeId} (node : NodeId)

omit node in
theorem repeats_visitAll (h : ∀ part ∈ bodies, r.Repeats (visit part)) :
    r.Repeats (visitAll visit bodies) := by
  induction bodies with
  | nil => exact alongside_pure rfl
  | cons part bodies ih =>
      obtain ⟨hpart, hbodies⟩ := List.forall_mem_cons.1 h
      exact hpart.bind fun _ _ _ => ih hbodies

theorem repeats_compose (mode : Mode) (h : ∀ part ∈ bodies, r.Repeats (visit part)) :
    r.Repeats (compose visit node mode bodies) := by
  have hcollect : r.Renumbers (List.map (Trace.renumber r.f)) (collect visit node bodies)
      (collect visit node bodies) :=
    repeats_openBucket.bind fun _ _ _ => (repeats_visitAll h).bind fun _ _ _ =>
      (renumbers_closeBucket node).bind fun bucket _ hbucket => alongside_pure (hbucket ▸ rfl)
  refine hcollect.bind fun ts _ hts => ?_
  have hemit := follows_emit (r := r) node (.comp mode.operator ts)
  rwa [Trace.renumber, renumberAll_eq_map, ← hts] at hemit

variable (h : r.Repeats (visit body))
include h

theorem renumbers_collectSingle (construct : String) :
    r.Renumbers (Option.map (Trace.renumber r.f)) (collectSingle setting visit construct node body)
      (collectSingle setting visit construct node body) := by
  refine repeats_openBucket.bind fun _ _ _ => h.bind fun _ _ _ =>
    (renumbers_closeBucket node).bind fun bucket _ hbucket => ?_
  subst hbucket
  unfold singleFragment Bucket.single Bucket.renumber
  match hfragments : bucket.fragments with
  | [] => exact alongside_pure rfl
  | [t] => exact alongside_pure rfl
  | t :: u :: ts =>
      simp only [List.map_cons, List.length_cons, List.length_map]
      cases setting.options.fragmentPolicy with
      | fatal => exact alongside_throw _
      | report =>
          refine (repeats_liftLookup _).bind fun written _ hwritten => ?_
          subst hwritten
          refine (follows_report _).bind fun _ _ _ => alongside_pure ?_
          simp [Trace.renumber]

theorem repeats_replicate (mode : Mode) (count : ExprId) :
    r.Repeats (replicate setting visit node mode count body) := by
  refine (repeats_liftLookup _).bind fun folded _ hfolded => ?_
  subst hfolded
  split
  · exact alongside_pure rfl
  · refine (renumbers_collectSingle node h _).bind fun fragment _ hfragment => ?_
    subst hfragment
    cases fragment with
    | none => exact alongside_pure rfl
    | some t =>
        dsimp only [Option.map_some]
        cases unrolling setting folded with
        | some n =>
            have hemit := follows_emit (r := r) node (.comp mode.operator (List.replicate n t))
            rwa [Trace.renumber, renumberAll_eq_map, List.map_replicate] at hemit
        | none => exact (renumbers_mint _).bind fun atom _ hatom => hatom ▸ follows_emit node _

theorem repeats_loop (guard : ExprId) : r.Repeats (loop setting visit node guard body) := by
  refine (repeats_liftLookup _).bind fun truth _ htruth => ?_
  subst htruth
  split
  · exact alongside_pure rfl
  · refine (renumbers_collectSingle node h _).bind fun fragment _ hfragment => ?_
    subst hfragment
    cases fragment with
    | none => exact follows_emit node _
    | some t => exact (renumbers_mint _).bind fun atom _ hatom => hatom ▸ follows_emit node _
  · refine (renumbers_collectSingle node h _).bind fun fragment _ hfragment => ?_
    subst hfragment
    rw [getD_renumbered]
    exact (renumbers_mint _).bind fun atom _ hatom => hatom ▸ follows_emit node _

theorem repeats_condOne (guard : ExprId) :
    r.Repeats (condOne setting visit node ⟨guard, body⟩) := by
  refine (repeats_liftLookup _).bind fun truth _ htruth => ?_
  subst htruth
  split
  · exact alongside_pure rfl
  · refine (renumbers_collectSingle node h _).bind fun fragment _ hfragment => ?_
    subst hfragment
    cases fragment with
    | none => exact alongside_pure rfl
    | some t =>
        dsimp only [Option.map_some]
        split
        · exact follows_emit node _
        · exact follows_emit node (.comp .ndet [t, .skip])

theorem renumbers_ready (precondition : Option ExprId) (trigger : Trigger) :
    r.Renumbers (Trace.renumber r.f) (ready setting visit node ⟨precondition, trigger, body⟩)
      (ready setting visit node ⟨precondition, trigger, body⟩) := by
  refine (renumbers_collectSingle node h _).bind fun fragment _ hfragment => ?_
  subst hfragment
  cases trigger with
  | skip => exact alongside_pure (getD_renumbered fragment)
  | input expr =>
      refine (repeats_liftLookup _).bind fun chan _ hchan => ?_
      subst hchan
      cases fragment with
      | none => exact alongside_pure rfl
      | some t => exact alongside_pure rfl

omit h

theorem renumbers_alternatives {arms : List CondArm}
    (h : ∀ arm ∈ arms, r.Repeats (visit arm.body)) :
    r.Renumbers (List.map (Trace.renumber r.f)) (alternatives setting visit node arms)
      (alternatives setting visit node arms) := by
  induction arms with
  | nil => exact alongside_pure rfl
  | cons arm arms ih =>
      obtain ⟨harm, harms⟩ := List.forall_mem_cons.1 h
      refine (repeats_liftLookup _).bind fun truth _ htruth => ?_
      subst htruth
      split
      · exact ih harms
      · refine (renumbers_collectSingle node harm _).bind fun fragment _ hfragment => ?_
        subst hfragment
        rw [getD_renumbered]
        split
        · exact alongside_pure rfl
        · exact (ih harms).bind fun ts _ hts => alongside_pure (hts ▸ rfl)

theorem repeats_cond {arms : List CondArm} (h : ∀ arm ∈ arms, r.Repeats (visit arm.body)) :
    r.Repeats (Walk.cond setting visit node arms) := by
  have hmany : r.Repeats (do
      emit node (Trace.collapse .ndet (← alternatives setting visit node arms))) := by
    refine (renumbers_alternatives node h).bind fun ts _ hts => ?_
    have hemit := follows_emit (r := r) node (Trace.collapse .ndet ts)
    rwa [(keepsOperators_renumber r.f).collapse, ← hts] at hemit
  unfold Walk.cond
  split
  · exact repeats_condOne node (h _ (List.mem_singleton_self _)) _
  · exact hmany

theorem renumbers_choices {arms : List AltArm} (h : ∀ arm ∈ arms, r.Repeats (visit arm.body)) :
    r.Renumbers (List.map (Trace.renumber r.f)) (choices setting visit node arms)
      (choices setting visit node arms) := by
  induction arms with
  | nil => exact alongside_pure rfl
  | cons arm arms ih =>
      obtain ⟨harm, harms⟩ := List.forall_mem_cons.1 h
      have hdisabled : r.Repeats (disabled setting arm) := by
        unfold disabled
        split
        · exact (repeats_liftLookup _).bind fun _ _ htruth => htruth ▸ alongside_pure rfl
        · exact alongside_pure rfl
      refine hdisabled.bind fun off _ hoff => ?_
      subst hoff
      split
      · exact ih harms
      · refine (renumbers_ready node harm _ _).bind fun t _ ht => ?_
        exact (ih harms).bind fun ts _ hts => alongside_pure (ht ▸ hts ▸ rfl)

theorem repeats_alt {arms : List AltArm} (h : ∀ arm ∈ arms, r.Repeats (visit arm.body)) :
    r.Repeats (alt setting visit node arms) := by
  refine (renumbers_choices node h).bind fun ts _ hts => ?_
  subst hts
  cases ts with
  | nil => exact follows_emit node _
  | cons t ts =>
      have hemit := follows_emit (r := r) node (.comp .det (t :: ts))
      rwa [Trace.renumber, renumberAll_eq_map] at hemit

end Constructs

/-! ## Contracts -/

section Contracts

open Walk

variable {setting : Setting} {r : Renumbering setting.program} {own own' : Scope}
  {callee : DeclId} {found found' : List Diagnostic}

/-- Whether a trace can be written out depends on its channels only. -/
theorem describe_renumber (f : AtomId → AtomId) (program : Program) (t : Trace) :
    (∃ text text', t.describe program = .ok text ∧ (t.renumber f).describe program = .ok text') ∨
      ∃ fault, t.describe program = .error fault ∧
        (t.renumber f).describe program = .error fault := by
  unfold describe
  rw [channels_renumber]
  cases t.channels.forM fun chan => discard (chan.describe program) with
  | ok => exact .inl ⟨_, _, rfl, rfl⟩
  | error fault => exact .inr ⟨fault, rfl, rfl⟩

theorem follows_contractDiagnostics (name : String) (approximate : Bool) (computed : Trace)
    (report : RefinementReport) :
    r.Follows (List.Forall₂ (Diagnostic.Renumbered setting.program r.f))
      (liftLookup (contractDiagnostics setting name approximate computed report))
      (liftLookup
        (contractDiagnostics setting name approximate (computed.renumber r.f) report)) := by
  have hsame : ∀ query : Lookup (List Diagnostic),
      r.Follows (List.Forall₂ (Diagnostic.Renumbered setting.program r.f)) (liftLookup query)
        (liftLookup query) := fun query => by
    cases query with
    | ok found => exact alongside_pure (Diagnostic.renumbered_selves _ _ found)
    | error fault => exact alongside_throw _
  unfold contractDiagnostics
  cases report.verdict with
  | refines => exact hsame _
  | inconclusive => exact hsame _
  | violated counterexample =>
      dsimp only
      cases counterexample.describe setting.program with
      | error fault => exact alongside_throw _
      | ok text =>
          obtain ⟨shown, shown', hshown, hshown'⟩ | ⟨fault, hfault, hfault'⟩ :=
            describe_renumber r.f setting.program computed
          · rw [hshown, hshown']
            exact alongside_pure (.cons ⟨rfl, rfl, rfl, rfl, rfl,
              .inr ⟨computed, shown, shown', hshown, hshown', rfl, rfl⟩⟩ .nil)
          · rw [hfault, hfault']
            exact alongside_throw _

theorem renumbers_lower (contract : Contract) :
    r.Renumbers (Except.map (Trace.renumber r.f)) (lower setting callee contract)
      (lower setting callee contract) := by
  refine alongside_get fun s s' h => ?_
  have hlower : Ends (Level r.first r.first') (fun t t' => t' = t.renumber r.f)
      ((contract.lower setting.program callee).run s.supply)
      ((contract.lower setting.program callee).run s'.supply) :=
    Contract.shifts_lower r.minted contract _ _ h.supply
  generalize (contract.lower setting.program callee).run s.supply = result,
    (contract.lower setting.program callee).run s'.supply = result' at hlower
  cases result with
  | ok t supply =>
      cases result' with
      | ok t' supply' => exact ⟨congrArg Except.ok hlower.1, { h with supply := hlower.2 }⟩
      | error => exact hlower.elim
  | error e supply =>
      cases result' with
      | ok => exact hlower.elim
      | error e' supply' =>
          obtain ⟨rfl, hsupply⟩ := hlower
          cases e' with
          | unbound name => exact ⟨rfl, { h with supply := hsupply }⟩
          | fault fault => exact ⟨rfl, h⟩

theorem follows_assess (contract : Contract) (approximate : Bool) (computed : Trace) :
    r.Follows (List.Forall₂ (Diagnostic.Renumbered setting.program r.f))
      (assess setting callee contract approximate computed)
      (assess setting callee contract approximate (computed.renumber r.f)) := by
  refine (repeats_liftLookup _).bind fun name _ hname => ?_
  subst hname
  refine (renumbers_lower contract).bind fun lowered _ hlowered => ?_
  subst hlowered
  cases lowered with
  | error unbound => exact alongside_pure (Diagnostic.renumbered_selves _ _ _)
  | ok spec =>
      dsimp only [Except.map]
      rw [refines_renumber r.injective]
      refine (repeats_liftLookup _).bind fun report _ hreport => ?_
      subst hreport
      exact follows_contractDiagnostics _ _ _ _

theorem Scopes.reported (h : r.Scopes own own')
    (hfound : List.Forall₂ (Diagnostic.Renumbered setting.program r.f) found found') :
    r.Scopes (found.foldl Scope.report own) (found'.foldl Scope.report own') := by
  induction hfound generalizing own own' with
  | nil => exact h
  | @cons diagnostic diagnostic' _ _ hhead _ ih =>
      have howner : own'.decl? = own.decl? := congrArg ProgramUnit.decl? h.owner
      refine ih { h with diagnostics := List.rel_append h.diagnostics (.cons ?_ .nil) }
      exact { hhead with decl := by rw [hhead.decl, howner] }

theorem follows_judge (h : r.Scopes own own') (contract : Spanned Contract) (computed : Trace) :
    r.Follows r.Scopes (judge setting own callee contract computed)
      (judge setting own' callee contract (computed.renumber r.f)) := by
  have happroximate : own'.approximate = own.approximate := h.approximate
  unfold judge
  rw [happroximate]
  refine (follows_assess _ _ _).bind fun found found' hfound => ?_
  have hplaced : List.Forall₂ (Diagnostic.Renumbered setting.program r.f)
      (found.map (Diagnostic.atContract callee contract.span))
      (found'.map (Diagnostic.atContract callee contract.span)) := by
    refine List.forall₂_map_left_iff.2 (List.forall₂_map_right_iff.2
      (hfound.imp fun _ _ hhead => ?_))
    exact { hhead with span := rfl, decl := rfl }
  exact (follows_record _ _).bind fun _ _ _ => alongside_pure (h.reported hplaced)

end Contracts

/-! ## Procedures -/

section Procedures

open Walk

variable {setting : Setting} {r : Renumbering setting.program} {own own' : Scope}
  {inner inner' outer outer' scopes scopes' : List Scope} {callee : DeclId}

theorem tracedBack_renumbered (h : List.Forall₂ r.Scopes inner inner') (actual : ExprId) :
    tracedBack setting.program inner' actual = tracedBack setting.program inner actual := by
  induction h generalizing actual with
  | nil => rfl
  | @cons scope scope' _ _ hhead _ ih =>
      have hargument : scope'.argument? = scope.argument? := by
        funext formal
        unfold Scope.argument?
        rw [hhead.entry]
      unfold tracedBack
      rw [hargument]
      exact congrArg _ (funext fun formal => ih _)

theorem alteredChannels_renumbered (h : List.Forall₂ r.Scopes inner inner')
    (bindings : Substitution) (params : List Param) :
    alteredChannels setting.program inner' bindings params =
      alteredChannels setting.program inner bindings params := by
  have hpasses : passesThrough setting.program inner' = passesThrough setting.program inner := by
    funext formal actual
    unfold passesThrough
    rw [tracedBack_renumbered h]
  induction params with
  | nil => rfl
  | cons param params ih => rw [alteredChannels, alteredChannels, hpasses, ih]

theorem splitAt_renumbered (h : List.Forall₂ r.Scopes scopes scopes') :
    (splitAt callee scopes = none ∧ splitAt callee scopes' = none) ∨
      ∃ inner own outer inner' own' outer', splitAt callee scopes = some (inner, own, outer) ∧
        splitAt callee scopes' = some (inner', own', outer') ∧
        List.Forall₂ r.Scopes inner inner' ∧ r.Scopes own own' ∧
        List.Forall₂ r.Scopes outer outer' := by
  induction h with
  | nil => exact .inl ⟨rfl, rfl⟩
  | @cons scope scope' _ _ hhead hrest ih =>
      have howner : scope'.decl? = scope.decl? := congrArg ProgramUnit.decl? hhead.owner
      rw [splitAt, splitAt, howner]
      by_cases hown : scope.decl? = some callee
      · rw [if_pos hown, if_pos hown]
        exact .inr ⟨_, _, _, _, _, _, rfl, rfl, .nil, hhead, hrest⟩
      · rw [if_neg hown, if_neg hown]
        obtain ⟨hnone, hnone'⟩ | ⟨_, _, _, _, _, _, hsome, hsome', hinner, hparts⟩ := ih
        · rw [hnone, hnone']
          exact .inl ⟨rfl, rfl⟩
        · rw [hsome, hsome']
          exact .inr ⟨_, _, _, _, _, _, rfl, rfl, .cons hhead hinner, hparts⟩

theorem follows_marked (h : r.Scopes own own') (node : NodeId) (decl : Decl)
    (altered : List NameId) :
    r.Follows r.Scopes (liftLookup (marked setting.program node decl altered own))
      (liftLookup (marked setting.program node decl altered own')) := by
  unfold marked
  split
  · exact alongside_pure h
  · cases altered.mapM setting.program.nameText with
    | error fault => exact alongside_throw _
    | ok names =>
        cases setting.program.spannedConstruct node with
        | error fault => exact alongside_throw _
        | ok written =>
            exact alongside_pure { h.reported (Diagnostic.renumbered_selves _ _ [_]) with
              approximate := rfl }

/-- The atom of a procedure is the renumbered one, whether it is minted now or was before. -/
theorem renumbered_recursionAtomFrom (h : r.Scopes own own') {supply supply' : AtomSupply}
    (hsupply : Level r.first r.first' supply supply') (origin : Origin) :
    (own'.recursionAtomFrom supply' origin).1 =
        (own.recursionAtomFrom supply origin).1.renumber r.f ∧
      r.Scopes (own.recursionAtomFrom supply origin).2.1
        (own'.recursionAtomFrom supply' origin).2.1 ∧
      Level r.first r.first' (own.recursionAtomFrom supply origin).2.2
        (own'.recursionAtomFrom supply' origin).2.2 := by
  unfold Scope.recursionAtomFrom
  rw [h.recursionAtom]
  cases own.recursionAtom with
  | some atom => exact ⟨rfl, h, hsupply⟩
  | none =>
      obtain ⟨_⟩ := supply
      obtain ⟨_⟩ := supply'
      obtain ⟨i, rfl, rfl⟩ := hsupply
      have hatom : (⟨⟨r.first' + i⟩, origin⟩ : Atom) = Atom.renumber r.f ⟨⟨r.first + i⟩, origin⟩ :=
        congrArg (Atom.mk · origin) (r.minted i).symm
      exact ⟨hatom, { h with recursionAtom := congrArg some hatom }, i + 1, rfl, rfl⟩

theorem follows_recursiveCall (hinner : List.Forall₂ r.Scopes inner inner')
    (hown : r.Scopes own own')
    (houter : List.Forall₂ r.Scopes outer outer') (node : NodeId) (bindings : Substitution) :
    r.Follows Eq (recursiveCall setting node callee bindings inner own outer)
      (recursiveCall setting node callee bindings inner' own' outer') := by
  refine (repeats_liftLookup _).bind fun decl _ hdecl => ?_
  subst hdecl
  dsimp only
  rw [alteredChannels_renumbered hinner]
  refine (repeats_liftLookup _).bind fun altered _ haltered => ?_
  subst haltered
  refine (follows_marked hown node decl altered).bind fun own own' hown => ?_
  refine alongside_get fun s s' h => ?_
  obtain ⟨hatom, hscope, hsupply⟩ :=
    renumbered_recursionAtomFrom hown h.supply (.recursion callee)
  generalize own.recursionAtomFrom s.supply (.recursion callee) = minted,
    own'.recursionAtomFrom s'.supply (.recursion callee) = minted' at hatom hscope hsupply
  obtain ⟨atom, own, supply⟩ := minted
  obtain ⟨_, own', supply'⟩ := minted'
  subst hatom
  have hstates : r.States { s with supply, scopes := inner ++ own :: outer }
      { s' with supply := supply', scopes := inner' ++ own' :: outer' } :=
    { h with supply := hsupply, scopes := List.rel_append hinner (.cons hscope houter) }
  exact (follows_record _ _).bind (fun _ _ _ => follows_emit node (.ref atom.id)) _ _ hstates

def ProcTraces.renumber (f : AtomId → AtomId) (traces : ProcTraces) : ProcTraces :=
  ⟨traces.computed.renumber f, traces.projected.renumber f⟩

theorem renumbers_declared (decl : Decl) :
    r.Renumbers (ProcTraces.renumber r.f) (declared setting callee decl)
      (declared setting callee decl) := by
  unfold declared
  cases decl.contract with
  | none => exact alongside_pure rfl
  | some contract =>
      refine (renumbers_lower contract.value).bind fun lowered _ hlowered => ?_
      subst hlowered
      cases lowered with
      | ok t => exact (follows_attach callee (.single t)).bind fun _ _ _ => alongside_pure rfl
      | error unbound =>
          exact (follows_addDiagnostics (Diagnostic.renumbered_selves _ _ [_])).bind fun _ _ _ =>
            alongside_pure rfl

variable {visit : NodeId → Walk Unit} (h : ∀ node, r.Reaches node → r.Repeats (visit node))
include h

omit h in
theorem scopes_opened (callee : DeclId) (decl : Decl) (entry : Option Substitution) :
    r.Scopes (.opened callee decl entry) (.opened callee decl entry) := by
  have hadd : ∀ {scope : Scope} (name : NameId), r.Scopes scope scope →
      r.Scopes (scope.addInterface name) (scope.addInterface name) := fun name hscope => by
    unfold Scope.addInterface
    split
    · exact hscope
    · exact { hscope with interface := rfl }
  unfold Scope.opened
  generalize (decl.visibleParams.filter (·.isChannel)).map (·.name) = names
  have hstart : r.Scopes { owner := .proc callee, entry } { owner := .proc callee, entry } :=
    ⟨rfl, rfl, rfl, .nil, rfl, rfl, rfl⟩
  generalize ({ owner := .proc callee, entry } : Scope) = scope at hstart ⊢
  induction names generalizing scope with
  | nil => exact hstart
  | cons name names ih => exact ih _ (hadd name hstart)

omit h in
theorem whole_renumbered (hown : r.Scopes own own') (fragment : Option Trace) :
    whole setting own' (fragment.map (Trace.renumber r.f)) =
      (whole setting own fragment).renumber r.f := by
  unfold whole
  rw [hown.recursionAtom, getD_renumbered, ← finish_renumber r.injective]
  cases own.recursionAtom <;> rfl

omit h in
theorem renumbers_attached (hown : r.Scopes own own') (t projected : Trace) :
    r.Renumbers (ProcTraces.renumber r.f)
      (do
        addDiagnostics own.diagnostics
        attach callee (.single projected)
        pure ⟨.single t, .single projected⟩)
      (do
        addDiagnostics own'.diagnostics
        attach callee (.single (projected.renumber r.f))
        pure ⟨.single (t.renumber r.f), .single (projected.renumber r.f)⟩) :=
  (follows_addDiagnostics hown.diagnostics).bind fun _ _ _ =>
    (follows_attach callee (.single projected)).bind fun _ _ _ => alongside_pure rfl

theorem renumbers_checkDecl (hknown : r.known callee) (entry : Option Substitution) :
    r.Renumbers (ProcTraces.renumber r.f) (checkDecl setting visit callee entry)
      (checkDecl setting visit callee entry) := by
  unfold checkDecl
  split
  · exact alongside_throw _
  cases hdecl : setting.program.decl callee with
  | error fault => exact alongside_throw _
  | ok decl =>
  dsimp only
  rw [show liftLookup (.ok decl) = (pure decl : Walk Decl) from rfl, pure_bind]
  split
  · exact renumbers_declared decl
  case h_2 body hbody =>
    have hreaches : r.Reaches body := ⟨.proc callee, (Program.Root.proc hdecl hbody).within,
      fun _ => r.closed hknown⟩
    refine (follows_pushScope (scopes_opened callee decl entry)).bind fun _ _ _ => ?_
    refine (renumbers_collectSingle body (h body hreaches) _).bind fun fragment _ hfragment => ?_
    subst hfragment
    refine follows_popScope.bind fun own own' hown => ?_
    rw [hown.interface, show finish setting (own'.recursionAtom.elim _ _) =
      (whole setting own fragment).renumber r.f from whole_renumbered hown fragment]
    refine (renumbers_liftLookup (project_renumber r.injective _)).bind
      fun projected _ hprojected => ?_
    subst hprojected
    rw [isClosed_renumber r.injective]
    split
    · split
      · exact (follows_judge hown _ projected).bind fun _ _ hown =>
          renumbers_attached hown (whole setting own fragment) projected
      · exact renumbers_attached hown (whole setting own fragment) projected
    · exact alongside_pure rfl

theorem follows_calleeTraces (hknown : r.known callee) (decl : Decl) (bindings : Substitution) :
    r.Renumbers (Option.map (TraceSet.renumber r.f))
      (calleeTraces setting visit callee decl bindings)
      (calleeTraces setting visit callee decl bindings) := by
  refine alongside_get fun s s' hs => ?_
  rw [hs.store callee hknown]
  cases s.store.get? callee with
  | some traces => exact ⟨rfl, hs⟩
  | none =>
      dsimp only [Option.map_none]
      split
      · refine (renumbers_checkDecl h hknown _).bind (fun traces _ htraces => ?_) _ _ hs
        exact alongside_pure (htraces ▸ rfl)
      · exact ⟨rfl, hs⟩

theorem repeats_freshCall (hknown : r.known callee) (node : NodeId) (decl : Decl)
    (bindings : Substitution) : r.Repeats (freshCall setting visit node callee decl bindings) := by
  refine (follows_calleeTraces h hknown decl bindings).bind fun found _ hfound => ?_
  subst hfound
  cases found with
  | none =>
      refine (repeats_liftLookup _).bind fun written _ hwritten => ?_
      subst hwritten
      exact (follows_report _).bind fun _ _ _ => follows_emit node _
  | some traces =>
      refine (renumbers_liftLookup (bindings.applySet_renumber traces)).bind fun traces _ htraces =>
        ?_
      subst htraces
      rw [TraceSet.toChoice_renumber]
      cases traces.toChoice with
      | none => exact alongside_pure rfl
      | some t => exact follows_emit node t

theorem repeats_call (hknown : r.known callee) (node : NodeId) (args : List Arg) :
    r.Repeats (call setting visit node callee args) := by
  unfold call
  split
  · exact alongside_throw _
  refine (repeats_liftLookup _).bind fun decl _ hdecl => ?_
  subst hdecl
  split
  · exact alongside_throw _
  · refine alongside_get fun s s' hs => ?_
    obtain ⟨hnone, hnone'⟩ | ⟨_, _, _, _, _, _, hsome, hsome', hinner, hown, houter⟩ :=
      @splitAt_renumbered setting r _ _ callee hs.scopes
    · rw [hnone, hnone']
      dsimp only
      split
      case h_1 fragment hbuiltin =>
        have hname : builtin? decl.name = some (some fragment) := by
          split at hbuiltin
          · exact hbuiltin
          · cases hbuiltin
        obtain rfl := eq_stop_of_builtin hname
        exact follows_emit node .stop _ _ hs
      · exact ⟨rfl, hs⟩
      · exact repeats_freshCall h hknown node decl _ _ _ hs
    · rw [hsome, hsome']
      exact follows_recursiveCall hinner hown houter node _ _ _ hs

theorem repeats_handle {node : NodeId} {construct : Construct} (hreaches : r.Reaches node)
    (hnode : setting.program.HasNode node construct) :
    r.Repeats (handle setting visit node construct) := by
  obtain ⟨unit, hwithin, hcalls⟩ := hreaches
  have hparts : ∀ part ∈ construct.children, r.Repeats (visit part) := fun part hpart =>
    h part ⟨unit, hwithin.of_part hnode hpart, hcalls⟩
  cases construct with
  | skip | stop => exact follows_emit node _
  | input expr =>
      exact (repeats_liftLookup _).bind fun chan _ hchan =>
        hchan ▸ follows_emit node (.event .input chan)
  | output expr =>
      exact (repeats_liftLookup _).bind fun chan _ hchan =>
        hchan ▸ follows_emit node (.event .output chan)
  | assign => exact alongside_pure rfl
  | compose mode children => exact repeats_compose node mode hparts
  | replicate mode count body =>
      exact repeats_replicate node (hparts body (List.mem_singleton_self _)) mode count
  | loop guard body => exact repeats_loop node (hparts body (List.mem_singleton_self _)) guard
  | cond arms => exact repeats_cond node fun arm harm => hparts _ (List.mem_map_of_mem harm)
  | alt arms => exact repeats_alt node fun arm harm => hparts _ (List.mem_map_of_mem harm)
  | call callee args => exact repeats_call h (hcalls callee ⟨node, args, hwithin, hnode⟩) node args
  | block locals body => exact hparts body (List.mem_singleton_self _)

theorem repeats_step {node : NodeId} (hreaches : r.Reaches node) :
    r.Repeats (step setting visit node) := by
  cases hwritten : setting.program.spannedConstruct node with
  | ok written =>
      intro s s' hs
      rw [step_run hwritten, step_run hwritten]
      exact repeats_handle h hreaches ⟨written, hwritten, rfl⟩ s s' hs
  | error fault =>
      unfold step
      split
      · exact alongside_throw _
      · rw [hwritten]
        exact alongside_throw _

end Procedures

open Walk in
theorem repeats_walkWithin {setting : Setting} {r : Renumbering setting.program} (depth : Nat)
    {node : NodeId} (hreaches : r.Reaches node) : r.Repeats (walkWithin setting depth node) := by
  induction depth generalizing node with
  | zero => exact alongside_throw _
  | succ depth ih => exact repeats_step (fun _ => ih) hreaches

/-! ## Checks -/

section Checks

variable {program : Program} (r : Renumbering program)

/-- Sessions that are the same but for the numbers of atoms and for what is not known. -/
structure Sessions (session session' : Session) : Prop where
  supply : Level r.first r.first' session.supply session'.supply
  store : ∀ callee, r.known callee →
    session'.store.get? callee = (session.store.get? callee).map (TraceSet.renumber r.f)

/-- The procedures that a unit leads to directly are known, and so is one that is the unit. -/
def Knows (unit : ProgramUnit) : Prop :=
  (∀ callee, unit = .proc callee → r.known callee) ∧
    ∀ callee, program.Calls unit callee → r.known callee

/-- Both checks answer, with related answers, or they fail alike. The sessions stay related. -/
def Checks {α : Type} (rel : α → α → Prop) :
    Except Abort α × Session → Except Abort α × Session → Prop
  | (.ok a, session), (.ok b, session') => rel a b ∧ r.Sessions session session'
  | (.error abort, session), (.error abort', session') =>
      abort' = abort ∧ r.Sessions session session'
  | _, _ => False

structure Outcomes (outcome outcome' : Outcome) : Prop where
  traces : outcome'.traces = outcome.traces.renumber r.f
  diagnostics : List.Forall₂ (Diagnostic.Renumbered program r.f) outcome.diagnostics
    outcome'.diagnostics

structure Reports (report report' : UnitReport) : Prop where
  name : report'.name = report.name
  kind : report'.kind = report.kind
  traceSet : report'.traceSet = report.traceSet.renumber r.f
  diagnostics : List.Forall₂ (Diagnostic.Renumbered program r.f) report.diagnostics
    report'.diagnostics
  checkedOnDemand : report'.checkedOnDemand = report.checkedOnDemand

variable {setting : Setting} {r : Renumbering setting.program} {unit : ProgramUnit}
  {session session' : Session}

open Walk in
theorem renumbers_checkUnit (hknows : r.Knows unit) :
    Alongside r.States (fun traces traces' => traces' = TraceSet.renumber r.f traces)
      (Walk.checkUnit setting unit) (Walk.checkUnit setting unit) := by
  have hwalk : ∀ node, r.Reaches node → r.Repeats (walk setting node) := fun _ =>
    repeats_walkWithin _
  cases unit with
  | proc callee =>
      refine (renumbers_checkDecl hwalk (hknows.1 callee rfl) none).bind fun traces _ htraces => ?_
      exact alongside_pure (htraces ▸ rfl)
  | process node =>
      unfold Walk.checkUnit checkProcess
      dsimp only
      split
      · exact alongside_throw _
      have hstart : r.Scopes { owner := .process node } { owner := .process node } :=
        ⟨rfl, rfl, rfl, .nil, rfl, rfl, rfl⟩
      refine (follows_pushScope hstart).bind fun _ _ _ => ?_
      refine (renumbers_collectSingle node (hwalk node ⟨_, Program.Root.process.within, hknows.2⟩)
        _).bind fun fragment _ hfragment => ?_
      subst hfragment
      refine follows_popScope.bind fun own own' hown => ?_
      refine (follows_addDiagnostics hown.diagnostics).bind fun _ _ _ => alongside_pure ?_
      rw [getD_renumbered, finish_renumber r.injective]
      rfl

theorem checks_check (hknows : r.Knows unit) (h : r.Sessions session session') :
    r.Checks r.Outcomes (check setting unit session)
      (check setting unit session') := by
  have hbegin : r.States session.begin session'.begin := ⟨h.supply, h.store, .nil, .nil⟩
  have hends := renumbers_checkUnit hknows _ _ hbegin
  unfold check
  generalize (Walk.checkUnit setting unit).run session.begin = result,
    (Walk.checkUnit setting unit).run session'.begin = result' at hends
  cases result with
  | ok traces state =>
      cases result' with
      | ok traces' state' => exact ⟨⟨hends.1, hends.2.diagnostics⟩, hends.2.supply, hends.2.store⟩
      | error => exact hends.elim
  | error abort state =>
      cases result' with
      | ok => exact hends.elim
      | error abort' state' => exact ⟨hends.1, hends.2.supply, hends.2.store⟩

/-- Reports are written out of renumbered traces if they are written out of the traces. -/
theorem checks_report (h : r.Sessions session session') (traces : TraceSet)
    {found found' : List Diagnostic}
    (hfound : List.Forall₂ (Diagnostic.Renumbered setting.program r.f) found found')
    (checkedOnDemand : Bool) : r.Checks r.Reports
      (Session.report setting unit traces found checkedOnDemand, session)
      (Session.report setting unit (traces.renumber r.f) found' checkedOnDemand,
        session') := by
  have hwritten : ∀ ts : List Trace,
      (∃ texts texts', ts.mapM (Trace.describe setting.program) = .ok texts ∧
      (ts.map (Trace.renumber r.f)).mapM (Trace.describe setting.program) = .ok texts') ∨
      ∃ fault, ts.mapM (Trace.describe setting.program) = .error fault ∧
        (ts.map (Trace.renumber r.f)).mapM (Trace.describe setting.program) = .error fault := by
    intro ts
    induction ts with
    | nil => exact .inl ⟨[], [], rfl, rfl⟩
    | cons t ts ih =>
        rw [List.map_cons, List.mapM_cons, List.mapM_cons]
        obtain ⟨text, text', htext, htext'⟩ | ⟨fault, hfault, hfault'⟩ :=
          describe_renumber r.f setting.program t
        · rw [htext, htext']
          obtain ⟨texts, texts', htexts, htexts'⟩ | ⟨fault, hfault, hfault'⟩ := ih
          · rw [htexts, htexts']
            exact .inl ⟨_, _, rfl, rfl⟩
          · rw [hfault, hfault']
            exact .inr ⟨fault, rfl, rfl⟩
        · rw [hfault, hfault']
          exact .inr ⟨fault, rfl, rfl⟩
  unfold Session.report UnitReport.make
  obtain ⟨texts, texts', htexts, htexts'⟩ | ⟨fault, hfault, hfault'⟩ := hwritten traces.alternatives
  · rw [htexts, show (traces.renumber r.f).alternatives.mapM _ = _ from htexts']
    exact ⟨⟨rfl, rfl, rfl, hfound, rfl⟩, h⟩
  · rw [hfault, show (traces.renumber r.f).alternatives.mapM _ = _ from hfault']
    exact ⟨rfl, h⟩

theorem checks_checkUnit (hknows : r.Knows unit) (h : r.Sessions session session') :
    r.Checks r.Reports (session.checkUnit setting unit)
      (session'.checkUnit setting unit) := by
  have hstored : unit.decl?.bind session'.store.get? =
      (unit.decl?.bind session.store.get?).map (TraceSet.renumber r.f) := by
    cases unit with
    | proc callee => exact h.store callee (hknows.1 callee rfl)
    | process node => rfl
  unfold Session.checkUnit
  rw [hstored]
  cases unit.decl?.bind session.store.get? with
  | some traces => exact checks_report h traces .nil true
  | none =>
      have hcheck := checks_check hknows h
      dsimp only [Option.map_none]
      generalize check setting unit session = result,
        check setting unit session' = result' at hcheck
      obtain ⟨answer, last⟩ := result
      obtain ⟨answer', last'⟩ := result'
      cases answer with
      | ok outcome =>
          cases answer' with
          | ok outcome' =>
              obtain ⟨⟨htraces, hdiagnostics⟩, hlast⟩ := hcheck
              dsimp only [Except.bind]
              rw [htraces]
              exact checks_report hlast outcome.traces hdiagnostics false
          | error => exact hcheck.elim
      | error abort =>
          cases answer' with
          | ok => exact hcheck.elim
          | error abort' => exact hcheck

end Checks

end Renumbering

end ProcessContracts
