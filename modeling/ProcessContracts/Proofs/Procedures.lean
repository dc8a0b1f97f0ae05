import ProcessContracts.Proofs.Contributions
import ProcessContracts.Proofs.Instances

/-!
# Walking procedures

A procedure is walked in a scope of its own. When the scope is closed its recursion atom is bound,
so what leaves the scope fits into the scopes outside it; a closed trace is compared with the
contract and attached.
-/

namespace ProcessContracts.Walk

open WalkState

variable {setting : Setting} {scope : Scope} {callee : DeclId} {decl : Decl}

/-! ## Contracts -/

theorem code_mem_alarms (violation : Violation) : violation.code ∈ alarms := by
  cases violation <;> simp [Violation.code, alarms]

theorem contractDiagnostics_spec {name : String} {approximate : Bool} {computed : Trace}
    {report : RefinementReport} {found : List Diagnostic}
    (h : contractDiagnostics setting name approximate computed report = .ok found) :
    (report.verdict = .refines ∧ approximate = false) ∨
      ∃ diagnostic ∈ found, diagnostic.code ∈ alarms := by
  unfold contractDiagnostics at h
  split at h
  case h_1 counterexample _ =>
    obtain ⟨_, -, h⟩ := Lookup.bind_eq_ok.1 h
    obtain ⟨_, -, h⟩ := Lookup.bind_eq_ok.1 h
    obtain rfl := Except.ok.inj h
    exact .inr ⟨_, List.mem_singleton_self _, code_mem_alarms counterexample.violation⟩
  case h_2 =>
    obtain rfl := Except.ok.inj h
    exact .inr ⟨_, List.mem_singleton_self _, by simp [alarms]⟩
  case h_3 hverdict =>
    cases approximate with
    | false => exact .inl ⟨hverdict, rfl⟩
    | true =>
        obtain rfl := Except.ok.inj h
        exact .inr ⟨_, List.mem_singleton_self _, by simp [alarms]⟩

/-- Without an alarm the computed trace refines the lowered contract. -/
def Meets (setting : Setting) (callee : DeclId) (contract : Contract) (computed : Trace) : Prop :=
  ∃ spec supply supply' report,
    (contract.lower setting.program callee).run supply = .ok spec supply' ∧
    spec.freeRefs = [] ∧
    refines setting.program spec computed setting.options.maxRefinementStates = .ok report ∧
    report.verdict = .refines

/-- What is found about an approximation is never nothing. -/
def Judged (setting : Setting) (callee : DeclId) (contract : Contract) (approximate : Bool)
    (computed : Trace) (found : List Diagnostic) : Prop :=
  (Meets setting callee contract computed ∧ approximate = false) ∨
    ∃ diagnostic ∈ found, diagnostic.code ∈ alarms

theorem mem_foldl_report {found : List Diagnostic} {diagnostic : Diagnostic}
    (h : diagnostic ∈ scope.diagnostics ∨ ∃ d ∈ found,
      diagnostic = { d with decl := d.decl <|> scope.decl? }) :
    diagnostic ∈ (found.foldl Scope.report scope).diagnostics := by
  induction found generalizing scope with
  | nil => simpa using h
  | cons d found ih =>
      refine ih ?_
      rcases h with h | ⟨other, hother, rfl⟩
      · exact .inl (List.mem_append_left _ h)
      · rcases List.mem_cons.1 hother with rfl | hother
        · exact .inl (List.mem_append_right _ (List.mem_singleton_self _))
        · exact .inr ⟨other, hother, rfl⟩

/-! ## The scope of a procedure -/

theorem mem_foldl_addInterface {channels : List NameId} {name : NameId} :
    name ∈ (channels.foldl Scope.addInterface scope).interface ↔
      name ∈ scope.interface ∨ name ∈ channels := by
  induction channels generalizing scope with
  | nil => simp
  | cons first channels ih =>
      rw [List.foldl_cons, ih, List.mem_cons, ← or_assoc, Scope.addInterface]
      split
      case isTrue hmem =>
        constructor
        · exact fun h => h.imp_left .inl
        · rintro ((h | rfl) | h)
          · exact .inl h
          · exact .inl hmem
          · exact .inr h
      case isFalse => simp

/-- Only the interface is changed by adding to it. -/
theorem foldl_addInterface_eq (scope : Scope) (channels : List NameId) : ∃ interface,
    channels.foldl Scope.addInterface scope = { scope with interface } := by
  induction channels generalizing scope with
  | nil => exact ⟨scope.interface, rfl⟩
  | cons first channels ih =>
      obtain ⟨interface, h⟩ := ih (scope.addInterface first)
      refine ⟨interface, ?_⟩
      rw [List.foldl_cons, h, Scope.addInterface]
      split
      · rfl
      · rfl

/-! ## Brackets -/

section Brackets

variable {α β : Type} {state inside mid : WalkState} {new s : Scope} {m : Walk α}
  {f : α → Scope → Walk β} {a : α} {abort : Abort}

/-- A walk in a scope of its own that is given up. -/
theorem bracket_run_error (h : m.run { state with scopes := new :: state.scopes } =
      .error abort inside) :
    (pushScope new >>= fun _ => m >>= fun a => popScope >>= fun s => f a s).run state =
      .error abort inside := by
  change EStateM.bind m _ _ = _
  rw [EStateM.bind, show m _ = _ from h]

/-- A walk in a scope of its own goes on outside with what is in the scope at its end. -/
theorem bracket_run_ok (h : m.run { state with scopes := new :: state.scopes } =
      .ok a { mid with scopes := s :: mid.scopes }) :
    (pushScope new >>= fun _ => m >>= fun a => popScope >>= fun s => f a s).run state =
      (f a s).run mid := by
  change EStateM.bind m _ _ = _
  rw [EStateM.bind, show m _ = _ from h]
  rfl

end Brackets

namespace Invariant

variable {α β : Type} {I : Invariant setting} {state last : WalkState} {depth : Nat}
  {visit : NodeId → Walk Unit} {t : Trace}

/-- Giving up in the middle of a walk. -/
theorem keeps_fail_bind {error : CheckError} {f : α → Walk β} {post : β → WalkState → Prop}
    (hstate : I.Sound state) (h : I.Cause (.error error)) : I.Keeps state (fail error >>= f) post :=
  ⟨hstate.holds, h⟩

/-- A query that cannot fail. -/
theorem keeps_answered {look : Lookup α} {a : α} (hstate : I.Sound state) (h : look = .ok a) :
    I.Keeps state (liftLookup look) fun b last => b = a ∧ last = state := by
  subst h
  exact keeps_pure hstate ⟨rfl, rfl⟩

section Contracts

variable {contract : Spanned Contract} (hdecl : setting.program.decl callee = .ok decl)
  (hcontract : decl.contract = some contract)
include hdecl hcontract

theorem keeps_lower (hstate : I.Sound state) :
    I.Keeps state (Walk.lower setting callee contract.value) fun result last =>
      last = { state with supply := last.supply } ∧ state.minted ≤ last.minted ∧
        ∀ t, result = .ok t → I.Fits last.minted last.frames t ∧ t.freeRefs = [] ∧
          ∃ supply supply', (contract.value.lower setting.program callee).run supply =
            .ok t supply' := by
  refine (keeps_get hstate).bind fun current mid _ _ hpost => ?_
  obtain ⟨rfl, rfl⟩ := hpost
  have hset : ∀ supply : AtomSupply, mid.minted ≤ supply.minted →
      I.Sound { mid with supply } ∧ mid.Later { mid with supply } := fun supply hle =>
    ⟨⟨I.mint hle hstate.holds, hstate.tidy.later hle (advances_refl _ _)⟩,
      ⟨hle, advances_refl _ _, no_events rfl, List.prefix_refl _⟩⟩
  split
  case h_1 t supply hrun =>
    have hle := (Contract.lowered_of_lower hrun).minted_le
    obtain ⟨hsound, hlater⟩ := hset supply hle
    have hfits : I.Fits supply.minted mid.frames t := I.lowered hstate.holds hdecl hcontract hrun
    refine ⟨hsound, hlater, rfl, hle, ?_⟩
    rintro _ ⟨⟩
    exact ⟨hfits, Contract.freeRefs_lower hrun, _, _, hrun⟩
  case h_2 name supply hrun =>
    have hle := (Contract.refused_of_lower hrun).minted_le
    obtain ⟨hsound, hlater⟩ := hset supply hle
    refine ⟨hsound, hlater, rfl, hle, ?_⟩
    rintro _ ⟨⟩
  case h_3 fault supply hrun => exact keeps_throw hstate (.lower hdecl hcontract hrun)

theorem keeps_assess (hstate : I.Sound state) (approximate : Bool)
    (ht : I.Fits state.minted state.frames t) :
    I.Keeps state (assess setting callee contract.value approximate t) fun found last =>
      last = { state with supply := last.supply } ∧ state.minted ≤ last.minted ∧
        Judged setting callee contract.value approximate t found := by
  have hname : (setting.program.decl callee).map (·.name) = .ok decl.name := by rw [hdecl]; rfl
  refine (keeps_answered hstate hname).bind fun name mid _ _ hpost => ?_
  obtain ⟨rfl, rfl⟩ := hpost
  refine (keeps_lower hdecl hcontract hstate).bind fun result last hlast hlater hpost => ?_
  obtain ⟨hsame, hle, hresult⟩ := hpost
  cases result with
  | error unbound =>
      refine keeps_pure hlast ⟨hsame, hle, .inr ⟨_, List.mem_singleton_self _, ?_⟩⟩
      simp [unboundVariable, alarms]
  | ok spec =>
      obtain ⟨hspec, hclosed, supply, supply', hlower⟩ := hresult spec rfl
      have hcomputed := fits_later hlater ht
      refine (keeps_liftLookup hlast fun fault hfault => .compare hspec hcomputed hfault).bind
        fun report mid _ _ hpost => ?_
      obtain ⟨hrefines, rfl⟩ := hpost
      refine (keeps_liftLookup hlast fun fault hfault =>
        .describe hspec hcomputed hrefines hfault).mono fun found final _ _ hpost => ?_
      obtain ⟨hfound, rfl⟩ := hpost
      refine ⟨hsame, hle, (contractDiagnostics_spec hfound).imp_left fun ⟨hverdict, happrox⟩ => ?_⟩
      exact ⟨⟨spec, supply, supply', report, hlower, hclosed, hrefines, hverdict⟩, happrox⟩

/-- The outcome of a contract check is recorded and published with the trace. -/
theorem keeps_judge (hstate : I.Sound state)
    (hscope : I.Holds state.minted state.store state.history (scope.frame :: state.frames))
    (ht : I.Fits state.minted state.frames t) (hclosed : t.freeRefs = []) (a : α) :
    I.Keeps state (do
      let judged ← Walk.judge setting scope callee contract t
      addDiagnostics judged.diagnostics
      Walk.attach callee (.single t)
      pure a) fun b last => b = a ∧ last.buckets = state.buckets ∧
        (Meets setting callee contract.value t ∨
          ∃ diagnostic ∈ last.diagnostics,
            diagnostic.decl = some callee ∧ diagnostic.code ∈ alarms) := by
  rw [Walk.judge, bind_assoc]
  refine (keeps_assess hdecl hcontract hstate scope.approximate ht).bind
    fun found mid hmid hlater hpost => ?_
  obtain ⟨hsame, hle, hjudged⟩ := hpost
  generalize hplaced : found.map (Diagnostic.atContract callee contract.span) = placed
  have halarm : (∃ d ∈ found, d.code ∈ alarms) →
      ∃ d ∈ placed, d.decl = some callee ∧ d.code ∈ alarms := fun ⟨d, hd, hcode⟩ =>
    ⟨d.atContract callee contract.span, hplaced ▸ List.mem_map_of_mem hd, rfl, hcode⟩
  have hheld : I.Holds mid.minted mid.store mid.history (scope.frame :: mid.frames) := by
    rw [hsame]
    exact I.mint hle hscope
  have hrecorded : I.Holds mid.minted mid.store
      (mid.history ++ [.judged callee scope.frame.recursionAtom t placed]) mid.frames := by
    refine I.judge hheld fun happrox => halarm (hjudged.resolve_left ?_)
    rintro ⟨-, hexact⟩
    rw [show scope.approximate = true from happrox] at hexact
    cases hexact
  have hreported : placed ⊆ (placed.foldl Scope.report scope).diagnostics := by
    intro d hd
    obtain ⟨e, he, rfl⟩ := List.mem_map.1 (hplaced ▸ hd)
    exact mem_foldl_report (.inr ⟨_, hd, rfl⟩)
  generalize hpublished : mid.diagnostics ++ (placed.foldl Scope.report scope).diagnostics = all
  have hannounced : placed ⊆ all :=
    hpublished ▸ List.subset_append_of_subset_right _ hreported
  obtain ⟨next, hnext⟩ : ∃ next : WalkState, next = { mid with
    history := mid.history ++ [.judged callee scope.recursionAtom t placed], diagnostics := all } :=
    ⟨_, rfl⟩
  have hsound : I.Sound next := by
    rw [hnext]
    exact ⟨hrecorded, hmid.tidy⟩
  have hstep : mid.Later next := by
    rw [hnext]
    refine ⟨Nat.le_refl _, advances_refl _ _, ⟨_, rfl, ?_⟩, hpublished ▸ List.prefix_append _ _⟩
    intro _ _ _ _ hmem
    obtain ⟨-, -, -, rfl⟩ := Event.judged.inj (List.mem_singleton.1 hmem)
    exact hannounced
  refine Keeps.resume (?_ : _ = (Walk.attach callee (.single t) >>= fun _ => pure a).run next)
    hstep ?_
  · subst hnext hplaced hpublished
    rfl
  · refine (keeps_attach hsound (fits_later (hlater.trans hstep) ht) hclosed).bind
      fun _ last hlast _ hpost => keeps_pure hlast ⟨rfl, ?_, hjudged.imp And.left fun hfound => ?_⟩
    · rw [hpost.1, hnext]
      change mid.buckets = state.buckets
      rw [hsame]
      rfl
    · obtain ⟨d, hd, hdecl, hcode⟩ := halarm hfound
      refine ⟨d, ?_, hdecl, hcode⟩
      rw [hpost.2, hnext]
      exact hannounced hd

end Contracts

/-! ## A scope of its own -/

theorem sound_open {new : Scope} (hstate : I.Sound state) (hnew : new.buckets = [])
    (hopens : setting.program.Opens state.frames new.frame) :
    I.Sound { state with scopes := new :: state.scopes } := by
  refine ⟨I.enter hopens hstate.holds, ⟨fun bucket hbucket => ?_, hstate.tidy⟩⟩
  change bucket ∈ new.buckets at hbucket
  rw [hnew] at hbucket
  cases hbucket

/-- Closing the innermost scope. What held of it is still known outside. -/
theorem exists_sound_close {new : Scope} {inside : WalkState} (hsound : I.Sound inside)
    (hlater : WalkState.Later { state with scopes := new :: state.scopes } inside) :
    ∃ s mid, inside = { mid with scopes := s :: mid.scopes } ∧ I.Sound mid ∧ state.Later mid ∧
      new.frame.Advances state.minted s.frame ∧
      I.Holds mid.minted mid.store mid.history (s.frame :: mid.frames) := by
  obtain ⟨supply, store, history, scopes, diagnostics⟩ := inside
  have hframes := hlater.frames
  obtain _ | ⟨s, outer⟩ := scopes
  · cases hframes
  obtain _ | ⟨hs, houter⟩ := hframes
  exact ⟨s, ⟨supply, store, history, outer, diagnostics⟩, rfl,
    ⟨I.leave hsound.holds, hsound.tidy.2⟩,
    ⟨hlater.minted, houter, hlater.history, hlater.diagnostics⟩, hs, hsound.holds⟩

/-- A walk between opening a scope and closing it again. What held of the closed scope is still
known when the walk goes on outside. -/
theorem keeps_bracket {new : Scope} {m : Walk α} {f : α → Scope → Walk β}
    {post : α → WalkState → Prop} {wanted : β → WalkState → Prop} (hstate : I.Sound state)
    (hnew : new.buckets = []) (hopens : setting.program.Opens state.frames new.frame)
    (hm : I.Sound { state with scopes := new :: state.scopes } →
      I.Keeps { state with scopes := new :: state.scopes } m post)
    (hf : ∀ a s mid, I.Sound mid → state.Later mid → new.frame.Advances state.minted s.frame →
      I.Holds mid.minted mid.store mid.history (s.frame :: mid.frames) →
      post a { mid with scopes := s :: mid.scopes } → I.Keeps mid (f a s) wanted) :
    I.Keeps state (pushScope new >>= fun _ => m >>= fun a => popScope >>= fun s => f a s)
      wanted := by
  have hwalk := hm (sound_open hstate hnew hopens)
  unfold Keeps at hwalk
  cases hrun : m.run { state with scopes := new :: state.scopes } with
  | error abort inside =>
      rw [hrun] at hwalk
      rw [Keeps, bracket_run_error hrun]
      exact hwalk
  | ok a inside =>
      rw [hrun] at hwalk
      obtain ⟨hsound, hlater, hpost⟩ := hwalk
      obtain ⟨s, mid, rfl, hmid, hstep, hs, hheld⟩ := exists_sound_close hsound hlater
      exact (hf a s mid hmid hstep hs hheld hpost).resume (bracket_run_ok hrun) hstep

theorem fits_finish (h : I.Fits state.minted state.frames t) :
    I.Fits state.minted state.frames (finish setting t) := by
  unfold finish
  split
  · exact I.simplify h
  · exact h

theorem fits_project {interface : List NameId} {projected : Trace}
    (hproject : Walk.project setting interface t = .ok projected)
    (h : I.Fits state.minted state.frames t) : I.Fits state.minted state.frames projected := by
  rcases project_eq_ok hproject with ⟨-, -, rfl⟩ | ⟨-, rfl⟩
  · exact I.simplify (I.hide _ h)
  · exact h

/-- What is known of a procedure after its body was walked. -/
def Walked (I : Invariant setting) (callee : DeclId) (decl : Decl) (traces : ProcTraces)
    (last : WalkState) : Prop :=
  ∃ t projected interface, traces = ⟨.single t, .single projected⟩ ∧
    I.Fits last.minted last.frames t ∧ I.Fits last.minted last.frames projected ∧
    (∀ name, name ∈ interface ↔ name ∈ (decl.visibleParams.filter (·.isChannel)).map (·.name)) ∧
    Walk.project setting interface t = .ok projected ∧
    (projected.freeRefs = [] → ∀ contract, decl.contract = some contract →
      Meets setting callee contract.value projected ∨ ∃ diagnostic ∈ last.diagnostics,
        diagnostic.decl = some callee ∧ diagnostic.code ∈ alarms)

/-- Diagnostics and a closed trace are published together. -/
theorem keeps_publish (hstate : I.Sound state) (ht : I.Fits state.minted state.frames t)
    (hclosed : t.freeRefs = []) (found : List Diagnostic) (a : α) :
    I.Keeps state (do
      addDiagnostics found
      Walk.attach callee (.single t)
      pure a) fun b last => b = a ∧ last.buckets = state.buckets ∧
        ∀ d ∈ found, d ∈ last.diagnostics := by
  refine (keeps_addDiagnostics hstate found).bind fun _ mid hmid _ hpost => ?_
  obtain rfl := hpost
  refine (keeps_attach hmid ht hclosed).bind fun _ last hlast _ hsame => ?_
  refine keeps_pure hlast ⟨rfl, hsame.1, fun d hd => ?_⟩
  rw [hsame.2]
  exact List.mem_append_right _ hd

section Bodies

variable (hvisit : I.Visits depth visit) (hstate : I.Sound state)
  (hdecl : setting.program.decl callee = .ok decl) (hnew : .proc callee ∉ owners state.frames)
  {entry : Option Substitution}
  (hentry : ∀ bindings, entry = some bindings →
    ∃ node, setting.program.Instantiates node callee decl bindings)
include hvisit hstate hdecl hnew hentry

theorem keeps_checkBody {body : NodeId} (hbody : decl.body = some body)
    (hmay : I.May depth (.proc callee :: owners state.frames) body) :
    I.Keeps state (checkDecl setting visit callee entry) fun traces last =>
      last.buckets = state.buckets ∧ I.Walked callee decl traces last := by
  obtain ⟨interface, hscope⟩ := foldl_addInterface_eq { owner := .proc callee, entry }
    ((decl.visibleParams.filter (·.isChannel)).map (·.name))
  have hinterface : ∀ name, name ∈ interface ↔
      name ∈ (decl.visibleParams.filter (·.isChannel)).map (·.name) := by
    intro name
    have h := @mem_foldl_addInterface { owner := .proc callee, entry }
      ((decl.visibleParams.filter (·.isChannel)).map (·.name)) name
    rw [hscope] at h
    simpa using h
  have hopens : setting.program.Opens state.frames
      (Scope.frame { owner := .proc callee, interface, entry }) :=
    ⟨rfl, rfl, .inr ⟨callee, decl, rfl, hdecl, hnew, hentry⟩⟩
  unfold checkDecl
  rw [if_neg (by rw [Program.containsDecl_of_ok hdecl]; decide)]
  refine (keeps_answered hstate hdecl).bind fun known start _ _ hpost => ?_
  obtain ⟨rfl, rfl⟩ := hpost
  rw [hbody]
  dsimp only
  rw [hscope]
  refine keeps_bracket hstate rfl hopens (fun hopened =>
    keeps_collectSingle hvisit hopened rfl "procedure body" body hmay) ?_
  intro fragment scope mid hmid hlater hadvances hheld hpost
  obtain ⟨hbuckets, hfits⟩ := hpost
  have hsame : mid.buckets = start.buckets := (List.cons.inj hbuckets).2
  have hbound := I.bind hheld (fits_getD hfits)
  have ht : I.Fits mid.minted mid.frames (finish setting (scope.recursionAtom.elim
      (fragment.getD .skip) (.fix · (fragment.getD .skip)))) := fits_finish hbound
  have hshared : ∀ name, name ∈ scope.interface ↔
      name ∈ (known.visibleParams.filter (·.isChannel)).map (·.name) := fun name => by
    rw [show scope.interface = interface from hadvances.interface]
    exact hinterface name
  generalize finish setting (scope.recursionAtom.elim (fragment.getD .skip)
    (.fix · (fragment.getD .skip))) = t at ht
  refine (keeps_liftLookup hmid fun fault hfault => .project ht hfault).bind
    fun projected mid _ _ hpost => ?_
  obtain ⟨hproject, rfl⟩ := hpost
  have hprojected := fits_project hproject ht
  split
  case isFalse hopen =>
    refine keeps_pure hmid ⟨hsame, t, projected, scope.interface, rfl, ht, hprojected, hshared,
      hproject, fun hclosed => absurd (Trace.isClosed_iff.2 hclosed) hopen⟩
  case isTrue hclosed =>
    have hclosed := Trace.isClosed_iff.1 hclosed
    split
    case h_2 hnone =>
      rw [pure_bind]
      refine (keeps_publish hmid hprojected hclosed scope.diagnostics _).mono
        fun traces last hlast hlater hpublished => ?_
      refine ⟨hpublished.2.1.trans hsame, t, projected, scope.interface, hpublished.1,
        fits_later hlater ht, fits_later hlater hprojected, hshared, hproject, ?_⟩
      intro _ contract hcontract
      rw [hnone] at hcontract
      cases hcontract
    case h_1 contract hcontract =>
      refine (keeps_judge hdecl hcontract hmid hheld hprojected hclosed _).mono
        fun traces last hlast hlater hpublished => ?_
      obtain ⟨htraces, hunchanged, hjudged⟩ := hpublished
      refine ⟨hunchanged.trans hsame, t, projected, scope.interface, htraces,
        fits_later hlater ht, fits_later hlater hprojected, hshared, hproject, ?_⟩
      intro _ other hother
      obtain rfl := Option.some.inj (hcontract.symm.trans hother)
      exact hjudged

end Bodies

end Invariant

end ProcessContracts.Walk
