import ProcessContracts.Proofs.CallGraph
import ProcessContracts.Proofs.Scoping

/-!
# Unknown behaviour and warnings

An instance of a procedure about which nothing is known stands in a trace as itself and is warned
about in the scope it is written in. The warning is published when the trace of that scope is
attached. A procedure that is dropped takes its warnings along although its trace is used, so they
stay with the trace only where no procedure on a cycle of calls with another one has such an
instance.
-/

namespace ProcessContracts

open Walk WalkState

/-! ## Resolved traces -/

namespace Trace

variable {t : Trace} {op : Operator} {ts : List Trace}

/-- The trace holds no instance of an unknown procedure. -/
def Resolved (t : Trace) : Prop := ∀ node, .unresolved node ∉ t.parts

theorem resolved_comp : (comp op ts).Resolved ↔ ∀ t ∈ ts, t.Resolved := by
  simp only [Resolved, parts, partsAll_eq_flatMap, List.mem_cons, List.mem_flatMap, reduceCtorEq,
    false_or, not_exists, not_and]
  exact ⟨fun h t ht node => h node t ht, fun h node t ht => h t ht node⟩

theorem resolved_fix {binder : Atom} : (fix binder t).Resolved ↔ t.Resolved := by
  simp only [Resolved, parts, List.mem_cons, reduceCtorEq, false_or]

theorem componentwise_resolved : Componentwise Resolved where
  skip node := by simp [parts]
  stop node := by simp [parts]
  comp := resolved_comp

theorem fragmentary_resolved : Fragmentary Resolved where
  toComponentwise := componentwise_resolved
  div node := by simp [parts]
  event direction chan node := by simp [parts]
  again ht := by
    refine resolved_fix.2 (resolved_comp.2 (List.forall_mem_cons.2 ⟨ht, ?_⟩))
    exact List.forall_mem_singleton.2 fun node => by simp [parts]
  repeated ht := by
    refine resolved_fix.2 (resolved_comp.2
      (List.forall_mem_cons.2 ⟨fun node => by simp [parts], ?_⟩))
    refine List.forall_mem_singleton.2 (resolved_comp.2 (List.forall_mem_cons.2 ⟨ht, ?_⟩))
    exact List.forall_mem_singleton.2 fun node => by simp [parts]

theorem Resolved.simplify (h : t.Resolved) : t.simplify.Resolved := by
  induction t with
  | comp op ts ih =>
      exact componentwise_resolved.simplify fun t ht => ih t ht (resolved_comp.1 h t ht)
  | fix binder body ih =>
      rw [Trace.simplify]
      split
      case isTrue => exact resolved_fix.2 (ih (resolved_fix.1 h))
      case isFalse => exact ih (resolved_fix.1 h)
  | _ => exact h

theorem Resolved.hide (h : t.Resolved) (keep : ChanRef → Bool) : (t.hide keep).Resolved := by
  induction t with
  | event direction chan =>
      rw [Trace.hide]
      split
      · exact h
      · exact componentwise_resolved.skip
  | comp op ts ih =>
      rw [Trace.hide, hideAll_eq_map]
      exact resolved_comp.2 (List.forall_mem_map.2 fun t ht => ih t ht (resolved_comp.1 h t ht))
  | fix binder body ih => exact resolved_fix.2 (ih (resolved_fix.1 h))
  | _ => exact h

theorem Resolved.mapChannels (h : t.Resolved) (f : ChanRef → ChanRef) :
    (t.mapChannels f).Resolved := by
  induction t with
  | event direction chan => exact fragmentary_resolved.event direction (f chan)
  | comp op ts ih =>
      rw [Trace.mapChannels, mapChannelsAll_eq_map]
      exact resolved_comp.2 (List.forall_mem_map.2 fun t ht => ih t ht (resolved_comp.1 h t ht))
  | fix binder body ih => exact resolved_fix.2 (ih (resolved_fix.1 h))
  | _ => exact h

end Trace

open Trace

theorem Substitution.resolved_apply {program : Program} {bindings : Substitution} {t u : Trace}
    (h : bindings.apply program t = .ok u) (ht : t.Resolved) : u.Resolved := by
  obtain rfl | ⟨-, rfl⟩ := cases_of_apply h
  · exact ht
  · exact ht.mapChannels _

namespace Contract

variable {program : Program} {decl : DeclId}

/-- A contract names no procedure. -/
theorem Lowered.resolved {binders : Binders} {supply last : AtomSupply} {c : Contract} {t : Trace}
    (h : Lowered program decl binders supply c t last) : t.Resolved := by
  induction h with
  | event direction => exact fragmentary_resolved.event direction _
  | cons _ _ ihhead ihtail =>
      exact resolved_comp.2 (List.forall_mem_cons.2 ⟨ihhead, resolved_comp.1 ihtail⟩)
  | recursion _ _ ih => exact resolved_fix.2 ih
  | _ => exact fun node => by simp [parts, partsAll]

end Contract

/-! ## What is warned about -/

/-- Some of the diagnostics warn that nothing is known about a callee. -/
def Warned (diagnostics : List Diagnostic) : Prop :=
  ∃ diagnostic ∈ diagnostics, diagnostic.code = .unresolvedCallee

theorem Warned.mono {ds ds' : List Diagnostic} (h : Warned ds) (hsub : ds ⊆ ds') : Warned ds' :=
  h.imp fun _ hd => ⟨hsub hd.1, hd.2⟩

/-- Nothing says what the procedure does. -/
def Decl.IsUnknown (decl : Decl) : Prop :=
  decl.body = none ∧ decl.contract = none ∧ builtin? decl.name = none

/-- An instance of an unknown procedure is written in the unit. -/
def Program.CallsUnknown (program : Program) (unit : ProgramUnit) : Prop :=
  ∃ callee decl, program.Calls unit callee ∧ program.decl callee = .ok decl ∧ decl.IsUnknown

/-- No procedure on a cycle of calls with another one has an instance of an unknown procedure. -/
def Program.KeepsWarnings (program : Program) : Prop :=
  ∀ caller, program.CallsUnknown (.proc caller) → ¬ program.Entangled caller

section Walks

variable {setting : Setting} {program : Program} {visits : Table} {earlier : Prop}
  {unit : ProgramUnit} {node : NodeId} {callee : DeclId} {decl : Decl} {s mid s' : WalkState}
  {t u : Trace}

/-- There was a warning before the walk, or one is published. -/
def Said (earlier : Prop) (s : WalkState) : Prop := earlier ∨ Warned s.diagnostics

/-- There was a warning, or the innermost scope holds one. -/
def Noted (earlier : Prop) (s : WalkState) : Prop :=
  Said earlier s ∨ ∃ scope outer, s.scopes = scope :: outer ∧ Warned scope.diagnostics

/-- What is stored is resolved or warned about, and a scope that holds a warning is of a unit with
an instance of an unknown procedure. -/
structure Heard (program : Program) (earlier : Prop) (s : WalkState) : Prop where
  stored : ∀ callee traces, s.store.get? callee = some traces →
    ∀ t ∈ traces.alternatives, t.Resolved ∨ Said earlier s
  scopes : ∀ scope ∈ s.scopes, Warned scope.diagnostics → program.CallsUnknown scope.owner

/-- Every walk keeps its warnings with what it contributes. -/
def Hears (program : Program) (earlier : Prop) (visits : Table) : Prop :=
  ∀ unit node s f account s', visits node s f account s' → Ready program unit node s →
    Heard program earlier s →
      Heard program earlier s' ∧ ∀ t, f = some t → t.Resolved ∨ Noted earlier s'

theorem Said.later (h : Said earlier s) (hs : Proceeds s s') : Said earlier s' :=
  h.imp_right (·.mono hs.published)

theorem Noted.later (h : Noted earlier s) (hs : Proceeds s s') : Noted earlier s' := by
  rcases h with hsaid | ⟨scope, outer, hscopes, hwarned⟩
  · exact .inl (hsaid.later hs)
  · have hboth := hs.scopes
    rw [hscopes] at hboth
    generalize hlast : s'.scopes = last at hboth
    cases hboth with
    | cons hscope _ => exact .inr ⟨_, _, hlast, hwarned.mono hscope.reported⟩

/-- A property of fragments may be excused once and for all. -/
theorem Fragmentary.or {p : Trace → Prop} (hp : Fragmentary p) (excuse : Prop) :
    Fragmentary fun t => p t ∨ excuse := by
  by_cases h : excuse
  · simp only [h, or_true]
    exact ⟨⟨trivial, trivial, by simp⟩, trivial, fun _ _ => trivial, fun _ => trivial,
      fun _ => trivial⟩
  · simp only [h, or_false]
    exact hp

theorem hears_series (hregular : Regular setting.program visits)
    (h : Hears setting.program earlier visits) {nodes : List NodeId}
    {fragments : List (Option Trace)} {account : Account}
    (hseries : Series visits nodes s fragments account s')
    (hready : ∀ node ∈ nodes, Ready setting.program unit node s)
    (hs : Heard setting.program earlier s) : Heard setting.program earlier s' ∧
      ∀ t, some t ∈ fragments → t.Resolved ∨ Noted earlier s' := by
  induction hseries with
  | nil s => exact ⟨hs, fun t ht => nomatch ht⟩
  | @cons _ _ _ _ _ mid _ _ last hnode hrest ih =>
      obtain ⟨hfirst, hnodes⟩ := List.forall_mem_cons.1 hready
      obtain ⟨hmid, -⟩ := hregular _ _ _ _ _ _ hnode hfirst
      have hlater : ∀ node ∈ _, Ready setting.program unit node mid :=
        fun node hnode => (hnodes node hnode).later hmid
      obtain ⟨hheard, hhere⟩ := h _ _ _ _ _ _ hnode hfirst hs
      obtain ⟨hlast, hothers⟩ := ih hlater hheard
      refine ⟨hlast, fun t ht => ?_⟩
      rcases List.mem_cons.1 ht with heq | ht
      · exact (hhere t heq.symm).imp_right (·.later (regular_series hregular hrest hlater).1)
      · exact hothers t ht

theorem Heard.attach (h : Heard program earlier s) (ht : t.Resolved ∨ Said earlier s) :
    Heard program earlier (s.attach callee t) where
  stored := TraceStore.forall_insert h.stored ht callee
  scopes := h.scopes

/-- The same store and scopes, with more diagnostics. -/
theorem Heard.publish (h : Heard program earlier s) (hstore : s'.store = s.store)
    (hscopes : s'.scopes = s.scopes) (hsub : s.diagnostics ⊆ s'.diagnostics) :
    Heard program earlier s' where
  stored other traces hget t ht :=
    (h.stored other traces (hstore ▸ hget) t ht).imp_right (.imp_right (·.mono hsub))
  scopes := hscopes ▸ h.scopes

theorem resolved_whole (setting : Setting) (scope : Scope) {fragment : Option Trace} {excuse : Prop}
    (h : ∀ t, fragment = some t → t.Resolved ∨ excuse) :
    (whole setting scope fragment).Resolved ∨ excuse := by
  refine ((fragmentary_resolved.or excuse).getD h).imp_left fun hbody => ?_
  have hbound : (scope.recursionAtom.elim (fragment.getD .skip)
      (.fix · (fragment.getD .skip))).Resolved := by
    cases scope.recursionAtom with
    | none => exact hbody
    | some atom => exact resolved_fix.2 hbody
  unfold whole finish
  split
  · exact hbound.simplify
  · exact hbound

theorem resolved_project {interface : List NameId} (h : project setting interface t = .ok u)
    (ht : t.Resolved) : u.Resolved := by
  rcases project_eq_ok h with ⟨-, -, rfl⟩ | ⟨-, rfl⟩
  · exact (ht.hide _).simplify
  · exact ht

/-- What a contract check adds to the scope keeps what is there. -/
theorem subset_of_verdict {scope judged : Scope} {noted : WalkState}
    (h : (verdict setting callee decl scope t).run s = .ok judged noted) :
    scope.diagnostics ⊆ judged.diagnostics := by
  rcases verdict_spec h with ⟨-, rfl, -⟩ | ⟨contract, found, -, -, hjudged, -⟩
  · exact List.Subset.refl _
  · rw [hjudged]
    exact List.subset_append_left _ _

/-- Walking a body in a new scope, seen from outside. -/
theorem Heard.outside {scope : Scope} {outer : List Scope} (h : Heard program earlier mid)
    (hscopes : mid.scopes = scope :: outer) :
    Heard program earlier { mid with scopes := outer } where
  stored := h.stored
  scopes other hother := h.scopes other (hscopes ▸ List.mem_cons_of_mem _ hother)

theorem Heard.enter {new : Scope} (h : Heard program earlier s)
    (hnew : new.diagnostics = []) : Heard program earlier (s.enter new) where
  stored := h.stored
  scopes := by
    refine List.forall_mem_cons.2 ⟨fun hwarned => ?_, h.scopes⟩
    obtain ⟨d, hd, -⟩ := hwarned
    rw [hnew] at hd
    cases hd

theorem hears_completes (hkeeps : setting.program.KeepsWarnings)
    (hregular : Regular setting.program visits) (h : Hears setting.program earlier visits)
    {entry : Option Substitution} {traces : ProcTraces} {account : Account}
    (henter : Enterable setting.program callee s) (hs : Heard setting.program earlier s)
    (hcompletes : Completes setting visits callee entry s traces account s') :
    Heard setting.program earlier s' ∧
      (∀ t ∈ traces.computed.alternatives, t.Resolved ∨ Said earlier s') ∧
      ∀ t ∈ traces.projected.alternatives, t.Resolved ∨ Said earlier s' := by
  cases hcompletes with
  | undeclared => exact ⟨hs, List.forall_mem_nil _, List.forall_mem_nil _⟩
  | @declared _ _ _ supply _ _ _ hlower =>
      have ht := (Contract.lowered_of_lower hlower).resolved
      have hminted : Heard setting.program earlier { s with supply } :=
        hs.publish rfl rfl (List.Subset.refl s.diagnostics)
      exact ⟨hminted.attach (.inl ht), List.forall_mem_singleton.2 (.inl ht),
        List.forall_mem_singleton.2 (.inl ht)⟩
  | unbound =>
      exact ⟨hs.publish rfl rfl (List.subset_append_left _ _), List.forall_mem_nil _,
        List.forall_mem_nil _⟩
  | @dropped decl body fragment _ scope outer mid projected hdecl hbody hvisit hscopes hproject
      hopen =>
      have hready := henter.ready hdecl hbody entry
      obtain ⟨hmid, hfragment⟩ := h _ _ _ _ _ _ hvisit hready (hs.enter (opened_diagnostics ..).1)
      have howner : scope.owner = .proc callee :=
        ((hregular _ _ _ _ _ _ hvisit hready).1.outside hscopes).1.owner.trans
          (opened_diagnostics ..).2
      -- A dropped procedure is on a cycle, so there is nothing in its scope to lose.
      have hquiet : ¬ Warned scope.diagnostics := fun hwarned => by
        refine hkeeps callee ?_
          (entangled_of_dropped hregular henter hdecl hbody hvisit hscopes hproject hopen)
        exact howner ▸ hmid.scopes scope (hscopes ▸ List.mem_cons_self) hwarned
      have hwhole : (whole setting scope fragment).Resolved ∨ Said earlier mid := by
        refine resolved_whole setting scope fun t ht => (hfragment t ht).imp_right fun hnoted => ?_
        refine hnoted.resolve_right ?_
        rintro ⟨other, rest, heq, hwarned⟩
        obtain ⟨rfl, -⟩ := List.cons.inj (hscopes.symm.trans heq)
        exact hquiet hwarned
      exact ⟨hmid.outside hscopes, List.forall_mem_singleton.2 hwhole,
        List.forall_mem_singleton.2 (hwhole.imp_left (resolved_project hproject))⟩
  | @attached decl body fragment _ scope outer mid projected judged noted hdecl hbody hvisit hscopes
      hproject _ hverdict =>
      obtain ⟨hmid, hfragment⟩ := h _ _ _ _ _ _ hvisit (henter.ready hdecl hbody entry)
        (hs.enter (opened_diagnostics ..).1)
      have hsaid : Noted earlier mid → Said earlier
          (({ mid with scopes := outer }.after noted).publish judged.diagnostics) := by
        rintro (hsaid | ⟨other, rest, heq, hwarned⟩)
        · exact hsaid.imp_right (·.mono (List.subset_append_left _ _))
        · obtain ⟨rfl, -⟩ := List.cons.inj (hscopes.symm.trans heq)
          exact .inr ((hwarned.mono (subset_of_verdict hverdict)).mono
            (List.subset_append_right _ _))
      have hwhole := resolved_whole setting scope hfragment
      have hlast : Heard setting.program earlier
          (({ mid with scopes := outer }.after noted).publish judged.diagnostics) :=
        (hmid.outside hscopes).publish rfl rfl (List.subset_append_left _ _)
      have hprojected := (hwhole.imp_left (resolved_project hproject)).imp_right hsaid
      exact ⟨hlast.attach hprojected, List.forall_mem_singleton.2 (hwhole.imp_right hsaid),
        List.forall_mem_singleton.2 hprojected⟩

/-- Folding an instance warns of nothing unknown. -/
theorem warned_of_folded {node : NodeId} {altered : List NameId} {own marked own' : Scope}
    {atom : Atom} {supply supply' : AtomSupply} {origin : Origin}
    (hmarked : Walk.marked setting.program node decl altered own = .ok marked)
    (hatom : marked.recursionAtomFrom supply origin = (atom, own', supply'))
    (h : Warned own'.diagnostics) : Warned own.diagnostics := by
  obtain ⟨rfl, -⟩ := recursionAtomFrom_eq hatom
  obtain ⟨-, rfl⟩ | ⟨-, _, hmark, rfl⟩ := cases_of_marked hmarked
  · exact h
  · obtain ⟨d, hd, hcode⟩ := h
    rcases List.mem_append.1 hd with hd | hd
    · exact ⟨d, hd, hcode⟩
    · obtain rfl := List.mem_singleton.1 hd
      cases hmark.symm.trans hcode

theorem hears_rule (hkeeps : setting.program.KeepsWarnings)
    (hregular : Regular setting.program visits) (h : Hears setting.program earlier visits) :
    Hears setting.program earlier (Rule setting visits) := by
  intro unit node s f account s' hrule hready hs
  cases hrule with
  | planned hnode hplan hseries hmade =>
      obtain ⟨hmid, hfragments⟩ := hears_series hregular h hseries
        (fun part hpart => hready.of_part hnode (mem_children_of_plan hplan hpart)) hs
      obtain ⟨rfl, -, rfl⟩ := hmade
      exact ⟨hmid.publish rfl rfl (List.Subset.refl _), fun t ht =>
        (fragmentary_resolved.or _).make hplan hfragments ht⟩
  | folded _ hsplit _ hmarked hatom =>
      obtain ⟨hscopes, howner⟩ := splitAt_eq hsplit
      refine ⟨⟨hs.stored, fun scope hscope hwarned => ?_⟩, fun t ht => ?_⟩
      · have hbefore := hs.scopes
        rw [hscopes] at hbefore
        obtain ⟨hinner, hrest⟩ := List.forall_mem_append.1 hbefore
        obtain ⟨hown, houter⟩ := List.forall_mem_cons.1 hrest
        rcases List.mem_append.1 hscope with hscope | hscope
        · exact hinner scope hscope hwarned
        · rcases List.mem_cons.1 hscope with rfl | hscope
          · rw [(onward_folded hmarked hatom).1.owner]
            exact hown (warned_of_folded hmarked hatom hwarned)
          · exact houter scope hscope hwarned
      · obtain rfl := Option.some.inj ht
        exact .inl fun node => by simp [parts]
  | builtin _ _ _ hname =>
      refine ⟨hs, fun t ht => ?_⟩
      obtain rfl := eq_stop_of_builtin (hname.trans (congrArg some ht))
      exact .inl componentwise_resolved.stop
  | @supplied _ _ _ _ traces _ _ _ hinstance hsplit _ hsupplies happly =>
      obtain ⟨hlast, htraces⟩ : Heard setting.program earlier s' ∧
          ∀ t ∈ traces.alternatives, t.Resolved ∨ Noted earlier s' := by
        cases hsupplies with
        | stored hget => exact ⟨hs, fun t ht => (hs.stored _ _ hget t ht).imp_right .inl⟩
        | demanded _ _ hcompletes =>
            obtain ⟨hlast, -, htraces⟩ := hears_completes hkeeps hregular h
              (hready.enterable hinstance hsplit) hs hcompletes
            exact ⟨hlast, fun t ht => (htraces t ht).imp_right .inl⟩
      refine ⟨hlast, fun t ht => (fragmentary_resolved.or _).toChoice (fun u hu => ?_) ht⟩
      obtain ⟨v, hv, happly⟩ := Substitution.exists_of_mem_applySet happly hu
      exact (htraces v hv).imp_left (Substitution.resolved_apply happly)
  | @unresolved callee decl bindings _ scope outer written hinstance _ hbody hname hcontract _ _
      hscopes =>
      have hwarned : Warned (scope.report (unknownCallee decl written.span)).diagnostics :=
        ⟨_, List.mem_append_right _ (List.mem_singleton_self _), rfl⟩
      refine ⟨⟨hs.stored, ?_⟩, fun t ht => .inr (.inr ⟨_, _, rfl, hwarned⟩)⟩
      have hbefore := hs.scopes
      rw [hscopes] at hbefore
      refine List.forall_mem_cons.2 ⟨fun _ => ?_, (List.forall_mem_cons.1 hbefore).2⟩
      have hunit : scope.owner = unit := by
        have hinnermost := hready.innermost
        rw [hscopes] at hinnermost
        exact Option.some.inj hinnermost
      obtain ⟨args, -, hdecl, -⟩ := id hinstance
      exact ⟨callee, decl, hunit ▸ hready.within.calls hinstance, hdecl, hbody, hcontract, hname⟩

theorem hears_yieldsWithin (hkeeps : setting.program.KeepsWarnings) (earlier : Prop) (depth : Nat) :
    Hears setting.program earlier (YieldsWithin setting depth) := by
  induction depth with
  | zero => exact fun _ _ _ _ _ _ h => h.elim
  | succ depth ih => exact hears_rule hkeeps (regular_yieldsWithin setting depth) ih

end Walks

/-! ## Checks -/

section Checks

variable {program : Program} {options : Options} {unit : ProgramUnit} {session last : Session}
  {outcome : Outcome} {outcomes : List Outcome}

/-- Checks one after the other, each with options of its own, all of which answer. -/
inductive Answered (program : Program) : List Outcome → Session → Prop
  | start : Answered program [] {}
  | check {outcomes : List Outcome} {session last : Session} {outcome : Outcome}
      (options : Options) (unit : ProgramUnit) : Answered program outcomes session →
      check ⟨program, options⟩ unit session = (.ok outcome, last) →
      Answered program (outcomes ++ [outcome]) last

/-- What one check does: what it answers and what is stored is resolved, or there was a warning. -/
theorem heard_check (hkeeps : program.KeepsWarnings) {earlier : Prop} (hclosed : session.Closed)
    (hstored : ∀ callee traces, session.store.get? callee = some traces →
      ∀ t ∈ traces.alternatives, t.Resolved ∨ earlier)
    (h : check ⟨program, options⟩ unit session = (.ok outcome, last)) :
    (∀ t ∈ outcome.traces.alternatives, t.Resolved ∨ earlier ∨ Warned outcome.diagnostics) ∧
      ∀ callee traces, last.store.get? callee = some traces →
        ∀ t ∈ traces.alternatives, t.Resolved ∨ earlier ∨ Warned outcome.diagnostics := by
  obtain ⟨account, state, hyields, hdiagnostics, rfl⟩ := check_eq_ok_iff.1 h
  rw [hdiagnostics]
  have hbegin : Heard program earlier session.begin :=
    ⟨fun callee traces hget t ht => (hstored callee traces hget t ht).imp_right .inl,
      List.forall_mem_nil _⟩
  have hregular := regular_yieldsWithin ⟨program, options⟩ (depthBound program)
  have hhears : Hears program earlier (YieldsWithin ⟨program, options⟩ (depthBound program)) :=
    hears_yieldsWithin hkeeps earlier _
  generalize outcome.traces = traces at hyields
  cases hyields with
  | @proc callee _ _ _ _ hcompletes =>
      have henter : Enterable program callee session.begin :=
        ⟨List.isChain_singleton _, List.nodup_singleton _, hclosed⟩
      obtain ⟨hlast, hcomputed, -⟩ :=
        hears_completes hkeeps hregular hhears henter hbegin hcompletes
      exact ⟨hcomputed, hlast.stored⟩
  | @process node _ fragment _ scope outer mid hvisit hscopes =>
      have hready : Ready program (.process node) node
          (session.begin.enter { owner := .process node }) :=
        ⟨rfl, List.isChain_singleton _, List.nodup_singleton _,
          Program.Root.process.within, hclosed⟩
      obtain ⟨hmid, hfragment⟩ := hhears _ _ _ _ _ _ hvisit hready (hbegin.enter rfl)
      have hsaid : Noted earlier mid → earlier ∨ Warned (mid.diagnostics ++ scope.diagnostics) := by
        rintro (hsaid | ⟨other, rest, heq, hwarned⟩)
        · exact hsaid.imp_right (·.mono (List.subset_append_left _ _))
        · obtain ⟨rfl, -⟩ := List.cons.inj (hscopes.symm.trans heq)
          exact .inr (hwarned.mono (List.subset_append_right _ _))
      have hlast : Heard program earlier
          (WalkState.publish { mid with scopes := outer } scope.diagnostics) :=
        Heard.publish (hmid.outside hscopes) rfl rfl (List.subset_append_left _ _)
      refine ⟨List.forall_mem_singleton.2 ?_, hlast.stored⟩
      exact (resolved_whole ⟨program, options⟩ { owner := .process node }
        hfragment).imp_right hsaid

theorem Answered.heard (hkeeps : program.KeepsWarnings) (h : Answered program outcomes session) :
    session.Closed ∧ ∀ callee traces, session.store.get? callee = some traces →
      ∀ t ∈ traces.alternatives, t.Resolved ∨ ∃ outcome ∈ outcomes, Warned outcome.diagnostics := by
  induction h with
  | start =>
      have hnone : ∀ callee, Ledger.get? ({} : TraceStore) callee = none := fun callee => rfl
      constructor
      all_goals
        intro callee traces hget
        cases (hnone callee).symm.trans hget
  | @check outcomes session last outcome options unit _ hcheck ih =>
      obtain ⟨hclosed, hstored⟩ := ih
      refine ⟨(closed_of_check hclosed hcheck).1, fun callee traces hget t ht => ?_⟩
      refine ((heard_check hkeeps hclosed hstored hcheck).2 callee traces hget t ht).imp_right ?_
      rintro (⟨other, hother, hwarned⟩ | hwarned)
      · exact ⟨other, List.mem_append_left _ hother, hwarned⟩
      · exact ⟨outcome, List.mem_append_right _ (List.mem_singleton_self _), hwarned⟩

/-- Where no procedure on a cycle of calls with another one has an instance of an unknown procedure,
no warning is lost: if a trace that is returned holds such an instance, this check or an earlier one
warned about it. -/
theorem warned_of_unresolved (hkeeps : program.KeepsWarnings)
    (hanswered : Answered program outcomes session)
    (hcheck : check ⟨program, options⟩ unit session = (.ok outcome, last)) {t : Trace}
    (ht : t ∈ outcome.traces.alternatives) {node : NodeId} (hnode : .unresolved node ∈ t.parts) :
    ∃ other ∈ outcomes ++ [outcome], ∃ diagnostic ∈ other.diagnostics,
      diagnostic.code = .unresolvedCallee := by
  obtain ⟨hclosed, hstored⟩ := hanswered.heard hkeeps
  obtain ⟨hreturned, -⟩ := heard_check hkeeps hclosed hstored hcheck
  rcases hreturned t ht with hresolved | ⟨other, hother, hwarned⟩ | hwarned
  · exact absurd hnode (hresolved node)
  · exact ⟨other, List.mem_append_left _ hother, hwarned⟩
  · exact ⟨outcome, List.mem_append_right _ (List.mem_singleton_self _), hwarned⟩

/-- A procedure that calls a library routine without a contract and then itself. -/
def poll : Program where
  name := "poll"
  nodes := #[⟨.compose .seq [⟨1⟩, ⟨2⟩], {}⟩, ⟨.call ⟨1⟩ [], {}⟩, ⟨.call ⟨0⟩ [], {}⟩]
  decls := #[{ name := "poll", body := some ⟨0⟩ }, { name := "library_routine" }]

/-- Only one procedure of the program has a body, so no two call each other. -/
theorem poll_keepsWarnings : poll.KeepsWarnings := by
  have honly : ∀ caller callee, poll.Calls (.proc caller) callee → caller.index = 0 := by
    rintro caller callee ⟨node, args, ⟨root, hroot, -⟩, -⟩
    cases hroot with
    | @proc _ decl body hdecl hbody =>
        obtain ⟨index⟩ := caller
        match index with
        | 0 => rfl
        | 1 =>
            obtain rfl := Except.ok.inj hdecl
            cases hbody
        | n + 2 => cases hdecl
  rintro caller ⟨callee, decl, hcalls, -⟩ ⟨other, hne, -, first, hfirst, -⟩
  have hindex := (honly _ _ hfirst).trans (honly _ _ hcalls).symm
  exact hne (by cases other; cases caller; exact congrArg DeclId.mk hindex)

/-- What the procedure does, with its library routine unknown. -/
def pollTrace : Trace :=
  .fix ⟨⟨0⟩, .recursion ⟨0⟩⟩ (.comp .seq [.unresolved ⟨1⟩, .ref ⟨0⟩])

theorem poll_warned : ∃ outcome last,
    check { program := poll } (.proc ⟨0⟩) {} = (.ok outcome, last) ∧
    pollTrace ∈ outcome.traces.alternatives ∧ .unresolved ⟨1⟩ ∈ pollTrace.parts ∧
    ∃ other ∈ [] ++ [outcome], ∃ diagnostic ∈ other.diagnostics,
      diagnostic.code = .unresolvedCallee := by
  have hrun : (check { program := poll } (.proc ⟨0⟩) {}).1.map Outcome.traces =
      .ok (.single pollTrace) := by cbv
  cases hcheck : check { program := poll } (.proc ⟨0⟩) {} with
  | mk answer last =>
      rw [hcheck] at hrun
      cases answer with
      | error => cases hrun
      | ok outcome =>
          have htraces : outcome.traces = .single pollTrace := Except.ok.inj hrun
          have hmem : pollTrace ∈ outcome.traces.alternatives := by
            rw [htraces]
            exact List.mem_singleton_self _
          have hnode : .unresolved ⟨1⟩ ∈ pollTrace.parts := by simp [pollTrace, parts]
          exact ⟨outcome, last, rfl, hmem, hnode,
            warned_of_unresolved poll_keepsWarnings .start hcheck hmem hnode⟩

/-- Two procedures that call each other. The one called first calls the library routine as well. -/
def retry : Program where
  name := "retry"
  nodes := #[⟨.call ⟨1⟩ [], {}⟩, ⟨.compose .seq [⟨2⟩, ⟨3⟩], {}⟩, ⟨.call ⟨0⟩ [], {}⟩,
    ⟨.call ⟨2⟩ [], {}⟩]
  decls := #[{ name := "retry", body := some ⟨0⟩ }, { name := "attempt", body := some ⟨1⟩ },
    { name := "library_routine" }]

/-- The routine stands in the trace that is returned, and nothing is said about it: the procedure
that calls it was dropped. -/
theorem retry_unwarned : ∃ outcome last,
    check { program := retry } (.proc ⟨0⟩) {} = (.ok outcome, last) ∧
    (∃ t ∈ outcome.traces.alternatives, .unresolved ⟨3⟩ ∈ t.parts) ∧
    ∀ diagnostic ∈ outcome.diagnostics, diagnostic.code ≠ .unresolvedCallee := by
  have hrun : (check { program := retry } (.proc ⟨0⟩) {}).1.map
      (fun outcome => (outcome.traces, outcome.diagnostics)) =
      .ok (⟨[.fix ⟨⟨0⟩, .recursion ⟨0⟩⟩ (.comp .seq [.ref ⟨0⟩, .unresolved ⟨3⟩])]⟩, []) := by cbv
  cases hcheck : check { program := retry } (.proc ⟨0⟩) {} with
  | mk answer last =>
      rw [hcheck] at hrun
      cases answer with
      | error => cases hrun
      | ok outcome =>
          obtain ⟨htraces, hsilent⟩ := Prod.mk.inj (Except.ok.inj hrun)
          refine ⟨outcome, last, rfl, ?_, ?_⟩
          · rw [htraces]
            exact ⟨_, List.mem_singleton_self _, by simp [parts]⟩
          · rw [hsilent]
            exact List.forall_mem_nil _

end Checks

end ProcessContracts
