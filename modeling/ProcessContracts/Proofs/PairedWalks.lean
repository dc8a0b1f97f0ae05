import ProcessContracts.Proofs.Buckets
import ProcessContracts.Proofs.Lockstep

/-!
# Whole checks in step

If callers see the same of a finished trace in both settings, then instances, nodes and units are in
step as well. What a unit returns is the one thing that is presented differently. The policy on
surplus fragments presents nothing, so all policies agree.
-/

namespace ProcessContracts

/-- The same setting with another policy on surplus fragments. -/
def Setting.withPolicy (setting : Setting) (policy : FragmentPolicy) : Setting :=
  { setting with options := { setting.options with fragmentPolicy := policy } }

namespace Walk

variable {setting : Setting} {I : Invariant setting} {excused : Abort → Prop} {state : WalkState}
  {depth : Nat} {visit visit' : NodeId → Walk Unit} {simplify : Bool} {policy : FragmentPolicy}
  {callee : DeclId} {decl : Decl} {node : NodeId}

/-- What callers see of a trace is the same in both settings, or cannot be found out in the first
one for a reason that is excused. -/
def Presents (I : Invariant setting) (excused : Abort → Prop) (setting' : Setting) : Prop :=
  ∀ ⦃n : Nat⦄ ⦃frames : List Scope⦄ ⦃t : Trace⦄ (interface : List NameId), I.Fits n frames t →
    project setting' interface (finish setting' t) = project setting interface (finish setting t) ∨
      ∃ fault, project setting interface (finish setting t) = .error fault ∧ excused (.fault fault)

theorem presents_same (I : Invariant setting) (policy : FragmentPolicy) :
    Presents I excused (setting.tuned setting.options.simplify policy) :=
  fun _ _ _ _ _ => .inl rfl

/-- A walk between opening a scope and closing it again, in step with another one. -/
theorem inStep_bracket {α β γ : Type} {new : Scope} {m m' : Walk α} {f : α → Scope → Walk β}
    {f' : α → Scope → Walk γ} {rel : β → γ → Prop} {post : α → WalkState → Prop}
    (hstate : I.Sound state) (hnew : new.buckets = [])
    (hopens : setting.program.Opens state.frames new.frame)
    (hm : I.Sound { state with scopes := new :: state.scopes } →
      I.Keeps { state with scopes := new :: state.scopes } m post ∧
        InStep excused Eq { state with scopes := new :: state.scopes } m m')
    (hf : ∀ a s mid, I.Sound mid →
      I.Holds mid.minted mid.store mid.history (s.frame :: mid.frames) →
      new.frame.Advances state.minted s.frame → post a { mid with scopes := s :: mid.scopes } →
      InStep excused rel mid (f a s) (f' a s)) :
    InStep excused rel state (pushScope new >>= fun _ => m >>= fun a => popScope >>= fun s => f a s)
      (pushScope new >>= fun _ => m' >>= fun a => popScope >>= fun s => f' a s) := by
  obtain ⟨hwalk, hpair⟩ := hm (I.sound_open hstate hnew hopens)
  unfold Invariant.Keeps at hwalk
  unfold InStep at hpair
  cases hrun : m.run { state with scopes := new :: state.scopes } with
  | error abort inside =>
      rw [hrun] at hpair
      rcases hpair with hexcused | hrun'
      · exact .of_excused (bracket_run_error hrun) hexcused
      · rw [InStep, bracket_run_error hrun, bracket_run_error hrun']
        exact .inr rfl
  | ok a inside =>
      rw [hrun] at hwalk hpair
      obtain ⟨hsound, hlater, hpost⟩ := hwalk
      obtain ⟨b, hrun', rfl⟩ := hpair
      obtain ⟨s, mid, rfl, hmid, -, hs, hheld⟩ := I.exists_sound_close hsound hlater
      rw [InStep, bracket_run_ok hrun, bracket_run_ok hrun']
      exact hf a s mid hmid hheld hs hpost

namespace Invariant

/-! ## Procedures -/

section Procedures

variable (hvisit : I.Visits depth visit) (hagrees : Agrees I excused depth visit visit')
  (hpresents : Presents I excused (setting.tuned simplify policy)) (hstate : I.Sound state)
include hvisit hagrees hpresents hstate

theorem inStep_checkDecl (hdecl : setting.program.decl callee = .ok decl)
    (hnew : .proc callee ∉ owners state.frames) {entry : Option Substitution}
    (hentry : ∀ bindings, entry = some bindings →
      ∃ node, setting.program.Instantiates node callee decl bindings)
    (hmay : ∀ body, decl.body = some body →
      I.May depth (.proc callee :: owners state.frames) body) :
    InStep excused (Twins setting (setting.tuned simplify policy) (decl.body.isSome = true)) state
      (checkDecl setting visit callee entry)
      (checkDecl (setting.tuned simplify policy) visit' callee entry) := by
  have hcontains : ¬ (!setting.program.containsDecl callee) = true := by
    rw [Program.containsDecl_of_ok hdecl]
    decide
  unfold checkDecl
  refine (if_neg hcontains).symm ▸ (if_neg hcontains).symm ▸ ?_
  refine .after (keeps_answered hstate hdecl) fun known start _ _ hpost => ?_
  obtain ⟨rfl, rfl⟩ := hpost
  cases hbody : known.body with
  | none =>
      have hother : ∀ traces traces' : ProcTraces, traces = traces' →
          Twins setting (setting.tuned simplify policy) ((none : Option NodeId).isSome = true)
            traces traces' := by
        rintro traces _ rfl
        exact ⟨rfl, fun h => (by cases h), fun _ => rfl⟩
      exact InStep.mono (.refl (declared setting callee known)) hother
  | some body =>
      obtain ⟨interface, hscope⟩ := foldl_addInterface_eq { owner := .proc callee, entry }
        ((known.visibleParams.filter (·.isChannel)).map (·.name))
      have hopens : setting.program.Opens start.frames
          (Scope.frame { owner := .proc callee, interface, entry }) :=
        ⟨rfl, rfl, .inr ⟨callee, known, rfl, hdecl, hnew, hentry⟩⟩
      dsimp only
      rw [hscope]
      refine inStep_bracket hstate rfl hopens (fun hopened =>
        ⟨keeps_collectSingle hvisit hopened rfl "procedure body" body (hmay body hbody),
          inStep_collectSingle hvisit hagrees hopened rfl "procedure body" body (hmay body hbody)⟩)
            ?_
      intro fragment scope mid hmid hheld hadvances hpost
      have hbound := I.bind hheld (fits_getD hpost.2)
      change I.Fits mid.minted mid.frames (scope.recursionAtom.elim
        (fragment.getD .skip) (.fix · (fragment.getD .skip))) at hbound
      generalize (scope.recursionAtom.elim (fragment.getD .skip) (.fix · (fragment.getD .skip))) = t
        at hbound ⊢
      rcases hpresents scope.interface hbound with hsame | ⟨fault, hfault, hexcused⟩
      · rw [hsame]
        refine (InStep.refl _).bind fun projected _ mid heq => ?_
        subst heq
        have htwins : Twins setting (setting.tuned simplify policy) ((some body).isSome = true)
            ⟨.single (finish setting t), .single projected⟩
            ⟨.single (finish (setting.tuned simplify policy) t), .single projected⟩ :=
          ⟨rfl, fun _ => ⟨t, rfl, rfl⟩, fun h => absurd rfl h⟩
        split
        case isFalse => exact .pure htwins
        case isTrue =>
          split
          case h_1 contract _ =>
            refine (InStep.refl (Walk.judge setting scope callee contract projected)).bind
              fun judged _ _ heq => ?_
            subst heq
            exact (InStep.refl _).bind fun _ _ _ _ => (InStep.refl _).bind fun _ _ _ _ =>
              .pure htwins
          case h_2 =>
            refine (InStep.refl (pure scope)).bind fun judged _ _ heq => ?_
            subst heq
            exact (InStep.refl _).bind fun _ _ _ _ => (InStep.refl _).bind fun _ _ _ _ =>
              .pure htwins
      · rw [hfault]
        exact .of_excused rfl hexcused

variable {bindings : Substitution}
  (hinstance : setting.program.Instantiates node callee decl bindings)
  (hnew : .proc callee ∉ owners state.frames) (hmay : I.May (depth + 1) (owners state.frames) node)
include hinstance hnew hmay

theorem inStep_freshCall : InStep excused Eq state
    (freshCall setting visit node callee decl bindings)
    (freshCall (setting.tuned simplify policy) visit' node callee decl bindings) := by
  refine InStep.bind_same (.after (keeps_get hstate) fun current mid _ _ hpost => ?_)
  obtain ⟨rfl, rfl⟩ := hpost
  split
  case h_1 => exact .refl _
  case h_2 =>
    split
    case isFalse => exact .refl _
    case isTrue =>
      have hentry : ∀ other, some bindings = some other →
          ∃ node, setting.program.Instantiates node callee decl other := by
        rintro _ ⟨⟩
        exact ⟨node, hinstance⟩
      refine (inStep_checkDecl hvisit hagrees hpresents hstate hinstance.choose_spec.2.1 hnew hentry
        fun body hbody => I.body hstate.holds hmay hinstance hnew hbody).bind
          fun traces traces' _ htwins => ?_
      rw [htwins.projected]
      exact .refl _

end Procedures

/-! ## Nodes -/

section Nodes

variable (hvisit : I.Visits depth visit) (hagrees : Agrees I excused depth visit visit')
  (hpresents : Presents I excused (setting.tuned simplify policy))
include hvisit hagrees hpresents

theorem inStep_call (hstate : I.Sound state) {args : List Arg}
    (hnode : setting.program.HasNode node (.call callee args))
    (hmay : I.May (depth + 1) (owners state.frames) node) :
    InStep excused Eq state (call setting visit node callee args)
      (call (setting.tuned simplify policy) visit' node callee args) := by
  unfold call
  dsimp only
  by_cases hmissing : (!setting.program.containsDecl callee) = true
  · refine (if_pos hmissing).symm ▸ (if_pos hmissing).symm ▸ ?_
    exact .fail_bind _
  refine (if_neg hmissing).symm ▸ (if_neg hmissing).symm ▸ ?_
  obtain ⟨decl, hdecl⟩ := Program.decl_of_contains (by simpa using hmissing)
  refine .after (keeps_answered hstate hdecl) fun known start _ _ hpost => ?_
  obtain ⟨rfl, rfl⟩ := hpost
  split
  case h_1 => exact .refl _
  case h_2 bindings hpair =>
    have hinstance : setting.program.Instantiates node callee known bindings :=
      ⟨args, hnode, hdecl, hpair⟩
    refine .after (keeps_get hstate) fun current last _ _ hpost => ?_
    obtain ⟨rfl, rfl⟩ := hpost
    split
    case h_1 => exact .refl _
    case h_2 hsplit =>
      split
      case h_1 => exact .refl _
      case h_2 => exact .refl _
      case h_3 =>
        have hnew : .proc callee ∉ owners last.frames := by
          rw [WalkState.frames, owners_frames]
          exact splitAt_eq_none hsplit
        exact inStep_freshCall hvisit hagrees hpresents hstate hinstance hnew hmay

theorem agrees_step : Agrees I excused (depth + 1) (step setting visit)
    (step (setting.tuned simplify policy) visit') := by
  intro state node hstate hbuckets hmay
  unfold step
  dsimp only
  by_cases hmissing : (!setting.program.containsNode node) = true
  · refine (if_pos hmissing).symm ▸ (if_pos hmissing).symm ▸ ?_
    exact .fail_bind _
  refine (if_neg hmissing).symm ▸ (if_neg hmissing).symm ▸ ?_
  obtain ⟨written, hwritten⟩ := Program.construct_of_contains (by simpa using hmissing)
  refine .after (keeps_answered hstate hwritten) fun known start _ _ hpost => ?_
  obtain ⟨rfl, rfl⟩ := hpost
  obtain ⟨construct, span⟩ := known
  have hnode : setting.program.HasNode node construct := ⟨_, hwritten, rfl⟩
  have hasks : I.Asks construct.exprs := fun expr hexpr fault hfault =>
    .query hmay hnode hexpr hfault
  have hparts : ∀ part ∈ construct.children, I.May depth (owners start.frames) part :=
    fun part hpart => I.child hmay hnode hpart
  cases construct with
  | skip => exact .refl _
  | stop => exact .refl _
  | input expr => exact .refl _
  | output expr => exact .refl _
  | assign => exact .refl _
  | compose mode children => exact inStep_compose hvisit hagrees hstate hbuckets node mode hparts
  | replicate mode count body =>
      exact inStep_replicate hvisit hagrees hstate hbuckets node mode hasks
        (hparts body List.mem_cons_self)
  | loop guard body =>
      exact inStep_loop hvisit hagrees hstate hbuckets node hasks (hparts body List.mem_cons_self)
  | cond arms =>
      exact inStep_cond hvisit hagrees hstate hbuckets node hasks fun arm harm =>
        hparts arm.body (List.mem_map_of_mem harm)
  | alt arms =>
      exact inStep_alt hvisit hagrees hstate hbuckets node hasks fun arm harm =>
        hparts arm.body (List.mem_map_of_mem harm)
  | call callee args => exact inStep_call hvisit hagrees hpresents hstate hnode hmay
  | block _ body => exact hagrees hstate hbuckets (hparts body List.mem_cons_self)

end Nodes

/-- Walks of the same depth in both settings are in step. -/
theorem agrees_walkWithin (hpresents : Presents I excused (setting.tuned simplify policy))
    (depth : Nat) : Agrees I excused depth (walkWithin setting depth)
      (walkWithin (setting.tuned simplify policy) depth) := by
  induction depth with
  | zero => exact fun _ _ _ _ _ => .refl _
  | succ depth ih => exact agrees_step (keeps_walkWithin depth) ih hpresents

end Invariant

/-! ## Units -/

/-- A check of a process with another walk of its nodes. -/
def checkProcessWith (setting : Setting) (visit : NodeId → Walk Unit) (node : NodeId) :
    Walk TraceSet := do
  if !setting.program.containsNode node then fail (.unknownNode node)
  pushScope { owner := .process node }
  let fragment ← collectSingle setting visit "process" node node
  addDiagnostics (← popScope).diagnostics
  pure (.single (finish setting (fragment.getD .skip)))

def checkUnitWith (setting : Setting) (visit : NodeId → Walk Unit) : ProgramUnit → Walk TraceSet
  | .proc decl => do pure (← checkDecl setting visit decl none).computed
  | .process node => checkProcessWith setting visit node

end Walk

/-- A check that walks the nodes of the unit with `visit`. -/
def checkWith (setting : Setting) (visit : NodeId → Walk Unit) (unit : ProgramUnit)
    (session : Session) : Except Abort Outcome × Session :=
  match (Walk.checkUnitWith setting visit unit).run session.begin with
  | .ok traces state => (.ok ⟨traces, state.diagnostics⟩, .ofWalk state)
  | .error abort state => (.error abort, .ofWalk state)

namespace Walk

open Invariant

variable {setting : Setting} {I : Invariant setting} {excused : Abort → Prop}
  {visit' : NodeId → Walk Unit} {simplify : Bool} {policy : FragmentPolicy} {session : Session}

/-- What a unit returns in both settings. -/
def Presented (setting setting' : Setting) (unit : ProgramUnit) (traces traces' : TraceSet) :
    Prop :=
  (unit.IsWalked setting.program → ∃ t, traces = .single (finish setting t) ∧
    traces' = .single (finish setting' t)) ∧
  (¬ unit.IsWalked setting.program → traces' = traces)

theorem inStep_checkUnit
    (hagrees : Agrees I excused (depthBound setting.program) (walk setting) visit')
    (hpresents : Presents I excused (setting.tuned simplify policy))
    (hholds : I.Holds session.supply.minted session.store session.history []) {unit : ProgramUnit}
    (hbegins : I.Begins unit) :
    InStep excused (Presented setting (setting.tuned simplify policy) unit) session.begin
      (checkUnit setting unit) (checkUnitWith (setting.tuned simplify policy) visit' unit) := by
  have hstate : I.Sound session.begin := ⟨hholds, trivial⟩
  cases unit with
  | proc callee =>
      cases hcontains : setting.program.containsDecl callee with
      | false =>
          have hmissing : (!setting.program.containsDecl callee) = true := by rw [hcontains]; rfl
          have hfails : InStep excused (fun _ _ => True) session.begin
              (checkDecl setting (walk setting) callee none)
              (checkDecl (setting.tuned simplify policy) visit' callee none) := by
            unfold checkDecl
            refine (if_pos hmissing).symm ▸ (if_pos hmissing).symm ▸ ?_
            exact .fail_bind _
          refine hfails.bind_of_run fun traces _ mid hrun _ => ?_
          unfold checkDecl at hrun
          rw [if_pos hmissing] at hrun
          cases hrun
      | true =>
          obtain ⟨decl, hdecl⟩ := Program.decl_of_contains hcontains
          have hwalked : (ProgramUnit.proc callee).IsWalked setting.program ↔
              decl.body.isSome = true :=
            ⟨fun ⟨other, hother, hbody⟩ => Except.ok.inj (hdecl.symm.trans hother) ▸ hbody,
              fun hbody => ⟨decl, hdecl, hbody⟩⟩
          have hnew : .proc callee ∉ owners session.begin.frames := List.not_mem_nil
          refine (inStep_checkDecl keeps_walk hagrees hpresents hstate hdecl hnew
            (fun _ h => by cases h) fun body hbody => hbegins decl body hdecl hbody).bind
              fun traces traces' _ htwins => .pure ?_
          exact ⟨fun h => htwins.finished (hwalked.1 h), fun h => htwins.other (mt hwalked.2 h)⟩
  | process node =>
      by_cases hmissing : (!setting.program.containsNode node) = true
      · change InStep _ _ _ (checkProcess setting node) (checkProcessWith _ visit' node)
        unfold checkProcess checkProcessWith
        refine (if_pos hmissing).symm ▸ (if_pos hmissing).symm ▸ ?_
        exact .fail_bind _
      have hcontains : setting.program.containsNode node = true := by simpa using hmissing
      change InStep _ _ _ (checkProcess setting node) (checkProcessWith _ visit' node)
      unfold checkProcess checkProcessWith
      refine (if_neg hmissing).symm ▸ (if_neg hmissing).symm ▸ ?_
      have hopens : setting.program.Opens session.begin.frames
          (Scope.frame { owner := .process node }) := ⟨rfl, rfl, .inl ⟨node, rfl, rfl⟩⟩
      refine inStep_bracket hstate rfl hopens (fun hopened =>
        ⟨keeps_collectSingle keeps_walk hopened rfl "process" node (hbegins hcontains),
          inStep_collectSingle keeps_walk hagrees hopened rfl "process" node (hbegins hcontains)⟩)
            ?_
      intro fragment scope mid _ _ _ _
      refine (InStep.refl _).bind fun _ _ _ _ =>
        .pure ⟨fun _ => ⟨_, rfl, rfl⟩, fun h => absurd trivial h⟩

/-- Checks of a unit in both settings end in the same session, with the same diagnostics or the same
failure, unless the first one fails for a reason that is excused. -/
theorem checkWith_inStep {unit : ProgramUnit}
    (h : InStep excused (Presented setting (setting.tuned simplify policy) unit) session.begin
      (checkUnit setting unit) (checkUnitWith (setting.tuned simplify policy) visit' unit)) :
    match check setting unit session with
    | (.ok outcome, last) => ∃ traces',
        checkWith (setting.tuned simplify policy) visit' unit session =
          (.ok ⟨traces', outcome.diagnostics⟩, last) ∧
        Presented setting (setting.tuned simplify policy) unit outcome.traces traces'
    | (.error abort, last) => excused abort ∨
        checkWith (setting.tuned simplify policy) visit' unit session = (.error abort, last) := by
  unfold InStep at h
  unfold check checkWith
  cases hrun : (checkUnit setting unit).run session.begin with
  | ok traces last =>
      rw [hrun] at h
      obtain ⟨traces', hrun', hpresented⟩ := h
      rw [hrun']
      exact ⟨traces', rfl, hpresented⟩
  | error abort last =>
      rw [hrun] at h
      refine h.imp_right fun hrun' => ?_
      rw [hrun']

/-- Where finished traces are presented alike, walks of the nodes that are in step make no
difference to a check. -/
theorem checkWith_eq_check
    (hagrees : Agrees I (fun _ => False) (depthBound setting.program) (walk setting) visit')
    (hholds : I.Holds session.supply.minted session.store session.history []) {unit : ProgramUnit}
    (hbegins : I.Begins unit) :
    checkWith (setting.tuned setting.options.simplify policy) visit' unit session =
      check setting unit session := by
  have hsame := checkWith_inStep (inStep_checkUnit hagrees (presents_same I policy) hholds hbegins)
  generalize check setting unit session = result at hsame ⊢
  obtain ⟨answer, last⟩ := result
  cases answer with
  | error abort => exact hsame.resolve_left id
  | ok outcome =>
      obtain ⟨traces', hcheck, hwalked, hother⟩ := hsame
      have heq : traces' = outcome.traces := by
        by_cases h : unit.IsWalked setting.program
        · obtain ⟨t, ht, ht'⟩ := hwalked h
          exact ht'.trans ht.symm
        · exact hother h
      subst heq
      exact hcheck

/-- A check comes out the same under every policy. -/
theorem check_withPolicy (setting : Setting) (policy : FragmentPolicy) (unit : ProgramUnit)
    (session : Session) :
    check (setting.withPolicy policy) unit session = check setting unit session :=
  checkWith_eq_check
    (agrees_walkWithin (presents_same (anything setting).toInvariant policy) _) trivial
    ((anything setting).begins unit)

end Walk

end ProcessContracts
