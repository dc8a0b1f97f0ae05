import ProcessContracts.Proofs.Procedures

/-!
# Walking the whole program

Instances fold back onto a scope that is open, or use the trace of a procedure that is walked on
demand. By induction on how deep walks nest, every walk keeps every invariant.
-/

namespace ProcessContracts.Walk

variable {setting : Setting} {inner outer scopes : List Scope} {own own' : Scope} {callee : DeclId}
  {decl : Decl}

/-! ## Open scopes -/

theorem splitAt_eq (h : splitAt callee scopes = some (inner, own, outer)) :
    scopes = inner ++ own :: outer ∧ own.decl? = some callee := by
  induction scopes generalizing inner with
  | nil => cases h
  | cons scope scopes ih =>
      unfold splitAt at h
      split at h
      case isTrue heq =>
        simp only [Option.some.injEq, Prod.mk.injEq] at h
        obtain ⟨rfl, rfl, rfl⟩ := h
        exact ⟨rfl, heq⟩
      case isFalse =>
        obtain ⟨⟨inner', own', outer'⟩, hsplit, h⟩ := Option.map_eq_some_iff.1 h
        simp only [Prod.mk.injEq] at h
        obtain ⟨rfl, rfl, rfl⟩ := h
        obtain ⟨rfl, hdecl⟩ := ih hsplit
        exact ⟨rfl, hdecl⟩

theorem splitAt_eq_none (h : splitAt callee scopes = none) : .proc callee ∉ owners scopes := by
  induction scopes with
  | nil => simp [owners]
  | cons scope scopes ih =>
      unfold splitAt at h
      split at h
      case isTrue => cases h
      case isFalse hne =>
        rw [owners, List.map_cons, List.mem_cons]
        rintro (heq | hmem)
        · refine hne ?_
          rw [Scope.decl?, ← heq]
          rfl
        · exact ih (Option.map_eq_none_iff.1 h) hmem

theorem owners_frames (scopes : List Scope) : owners (scopes.map Scope.frame) = owners scopes := by
  simp [owners, Scope.frame]

/-- The recursion atom of a scope is the one it has, or else a new one. Nothing else changes. -/
theorem recursionAtomFrom_eq {supply supply' : AtomSupply} {origin : Origin} {atom : Atom}
    (h : own.recursionAtomFrom supply origin = (atom, own', supply')) :
    own' = { own with recursionAtom := some atom } ∧
      (own.recursionAtom = some atom ∧ supply' = supply ∨
        own.recursionAtom = none ∧ supply.mint origin = (atom, supply')) := by
  unfold Scope.recursionAtomFrom at h
  split at h
  case h_1 known hsome =>
    obtain ⟨rfl, rfl, rfl⟩ : known = atom ∧ own = own' ∧ supply = supply' := by simpa using h
    exact ⟨by rw [← hsome], .inl ⟨hsome, rfl⟩⟩
  case h_2 hnone =>
    obtain ⟨rfl, rfl, rfl⟩ : _ = atom ∧ _ = own' ∧ _ = supply' := by simpa using h
    exact ⟨rfl, .inr ⟨hnone, rfl⟩⟩

theorem minted_le_recursionAtomFrom {supply supply' : AtomSupply} {origin : Origin} {atom : Atom}
    (h : own.recursionAtomFrom supply origin = (atom, own', supply')) :
    supply.minted ≤ supply'.minted := by
  obtain ⟨-, ⟨-, rfl⟩ | ⟨-, hmint⟩⟩ := recursionAtomFrom_eq h
  · exact Nat.le_refl _
  · obtain ⟨-, rfl⟩ := Prod.ext_iff.1 hmint
    exact Nat.le_succ _

theorem recursionAtomFrom_buckets {supply supply' : AtomSupply} {origin : Origin} {atom : Atom}
    (h : own.recursionAtomFrom supply origin = (atom, own', supply')) :
    own'.buckets = own.buckets := by
  rw [(recursionAtomFrom_eq h).1]

/-- Taking the recursion atom is a matter of the frame. -/
theorem recursionAtomFrom_frame {supply supply' : AtomSupply} {origin : Origin} {atom : Atom}
    (h : own.recursionAtomFrom supply origin = (atom, own', supply')) :
    own.frame.recursionAtomFrom supply origin = (atom, own'.frame, supply') := by
  obtain ⟨rfl, ⟨hsome, rfl⟩ | ⟨hnone, hmint⟩⟩ := recursionAtomFrom_eq h
  · simp [Scope.recursionAtomFrom, Scope.frame, hsome]
  · simp [Scope.recursionAtomFrom, Scope.frame, hnone, hmint]

/-- A new recursion atom is newer than all atoms so far. -/
theorem recursionAtomFrom_spec {supply supply' : AtomSupply} {origin : Origin} {atom : Atom}
    (hdecl : own.decl? ≠ none)
    (h : own.recursionAtomFrom supply origin = (atom, own', supply')) :
    own'.recursionAtom = some atom ∧ own.Advances supply.minted own' := by
  obtain ⟨rfl, ⟨hsome, rfl⟩ | ⟨hnone, hmint⟩⟩ := recursionAtomFrom_eq h
  · exact ⟨rfl, ⟨rfl, rfl, rfl, .inl hsome.symm, id⟩⟩
  · obtain ⟨rfl, -⟩ := Prod.ext_iff.1 hmint
    exact ⟨rfl, ⟨rfl, rfl, rfl, .inr ⟨hnone, hdecl, _, rfl, Nat.le_refl _⟩, id⟩⟩

/-- Whether an instance passes a channel formal through. -/
def passes (program : Program) (entered : List Scope) (bindings : Substitution) (param : Param) :
    Lookup Bool :=
  match bindings.get? param.name with
  | some actual => passesThrough program entered param.name actual
  | none => pure false

theorem alteredChannels_cons {program : Program} {bindings : Substitution} {param : Param}
    {params : List Param} : alteredChannels program inner bindings (param :: params) =
      passes program inner bindings param >>= fun kept =>
        alteredChannels program inner bindings params >>= fun rest =>
          pure (if kept then rest else param.name :: rest) := by
  rw [alteredChannels, passes]
  cases bindings.get? param.name with
  | none => rfl
  | some actual => rfl

/-- Only formals can be altered. -/
theorem mem_alteredChannels {program : Program} {bindings : Substitution} {params : List Param}
    {altered : List NameId} (h : alteredChannels program inner bindings params = .ok altered) :
    ∀ name ∈ altered, ∃ param ∈ params, param.name = name := by
  induction params generalizing altered with
  | nil =>
      obtain rfl := Except.ok.inj h
      simp
  | cons param params ih =>
      rw [alteredChannels_cons] at h
      obtain ⟨kept, -, h⟩ := Lookup.bind_eq_ok.1 h
      obtain ⟨rest, hrest, h⟩ := Lookup.bind_eq_ok.1 h
      obtain rfl := Except.ok.inj h
      have htail : ∀ name ∈ rest, ∃ p ∈ param :: params, p.name = name := fun name hname => by
        obtain ⟨p, hp, heq⟩ := ih hrest name hname
        exact ⟨p, List.mem_cons_of_mem _ hp, heq⟩
      split
      · exact htail
      · exact List.forall_mem_cons.2 ⟨⟨param, List.mem_cons_self, rfl⟩, htail⟩

/-- If any channel is altered, a warning is reported in the scope, and the scope knows that its
trace is an approximation. -/
theorem cases_of_marked {program : Program} {node : NodeId} {altered : List NameId}
    (h : marked program node decl altered own = .ok own') :
    altered.isEmpty = true ∧ own' = own ∨
      ¬ altered.isEmpty = true ∧ ∃ diagnostic : Diagnostic, diagnostic.code = .permutedRecursion ∧
        own' = (own.report diagnostic).markApproximate := by
  unfold marked at h
  split at h
  case isTrue hempty => exact .inl ⟨hempty, (Except.ok.inj h).symm⟩
  case isFalse hsome =>
    obtain ⟨names, -, h⟩ := Lookup.bind_eq_ok.1 h
    obtain ⟨written, -, h⟩ := Lookup.bind_eq_ok.1 h
    exact .inr ⟨hsome, _, rfl, (Except.ok.inj h).symm⟩

theorem marked_eq_ok {program : Program} {node : NodeId} {altered : List NameId}
    (h : marked program node decl altered own = .ok own') :
    own'.frame = (if altered.isEmpty then own.frame else own.frame.markApproximate) ∧
      own'.buckets = own.buckets := by
  obtain ⟨hempty, rfl⟩ | ⟨hsome, _, -, rfl⟩ := cases_of_marked h
  · exact ⟨(if_pos hempty).symm, rfl⟩
  · exact ⟨(if_neg hsome).symm, rfl⟩

/-- Only the name of an altered channel can be missing. -/
theorem marked_eq_error {program : Program} {node : NodeId} {written : Spanned Construct}
    {altered : List NameId} {fault : Fault} (hwritten : program.spannedConstruct node = .ok written)
    (h : marked program node decl altered own = .error fault) :
    ∃ name ∈ altered, program.nameText name = .error fault := by
  unfold marked at h
  split at h
  case isTrue => cases h
  case isFalse =>
    rcases Lookup.bind_eq_error.1 h with h | ⟨names, -, h⟩
    · exact Lookup.exists_error_of_mapM h
    · rw [hwritten] at h
      cases h

namespace Invariant

variable {I : Invariant setting} {state last : WalkState} {depth : Nat}
  {visit : NodeId → Walk Unit}

/-! ## Instances -/

section Recursion

variable {bindings : Substitution} {altered : List NameId}

/-- The last part of a recursive instance: the reference to the atom of the scope. -/
theorem keeps_refer (hstate : I.Sound state) (hbuckets : Receives state.buckets) (node : NodeId)
    (hscopes : state.scopes = inner ++ own :: outer) (hown : own.decl? = some callee)
    (hframe : own'.frame = if altered.isEmpty then own.frame else own.frame.markApproximate)
    (hsame : own'.buckets = own.buckets) :
    I.Keeps state (do
      let current ← get
      let (atom, last, supply) := own'.recursionAtomFrom current.supply (.recursion callee)
      set { current with supply, scopes := inner ++ last :: outer }
      record (.folded callee atom altered)
      emit node (.ref atom.id)) fun _ last => Offers state.buckets last.buckets := by
  refine (keeps_get hstate).bind fun current start _ _ hpost => ?_
  obtain ⟨rfl, rfl⟩ := hpost
  rename' start => state
  cases hfrom : own'.recursionAtomFrom state.supply (.recursion callee) with
  | mk atom rest =>
      obtain ⟨last, supply⟩ := rest
      have hframes := recursionAtomFrom_frame hfrom
      have hmarked : own.frame.Advances state.minted own'.frame ∧
          own'.frame.decl? = some callee := by
        rw [hframe]
        split
        · exact ⟨.refl _ _, hown⟩
        · exact ⟨⟨rfl, rfl, rfl, .inl rfl, fun _ => rfl⟩, hown⟩
      obtain ⟨hatom, hadvances⟩ :=
        recursionAtomFrom_spec (by rw [hmarked.2]; exact Option.some_ne_none _) hframes
      have hle := minted_le_recursionAtomFrom hfrom
      have hstart : state.frames = inner.map Scope.frame ++ own.frame :: outer.map Scope.frame := by
        rw [WalkState.frames, hscopes, List.map_append, List.map_cons]
      -- The state in which the reference is emitted.
      let mid : WalkState := { state with
        supply, scopes := inner ++ last :: outer
        history := state.history ++ [.folded callee atom altered] }
      have hend : mid.frames = inner.map Scope.frame ++ last.frame :: outer.map Scope.frame := by
        rw [WalkState.frames, List.map_append, List.map_cons]
      have hlevel : mid.buckets = state.buckets := by
        rw [WalkState.buckets, WalkState.buckets, hscopes, List.map_append, List.map_append,
          List.map_cons, List.map_cons, recursionAtomFrom_buckets hfrom, hsame]
      have hall : List.Forall₂ (Scope.Advances state.minted) state.frames mid.frames := by
        rw [hstart, hend]
        exact List.rel_append (advances_refl _ _)
          (.cons (hmarked.1.trans (Nat.le_refl _) hadvances) (advances_refl _ _))
      have hfolds : own.frame.Folds callee altered state.minted atom last.frame mid.minted := by
        refine ⟨ProgramUnit.eq_proc_of_decl? hown, ?_⟩
        rw [← hframe]
        exact hframes
      have hholds : I.Holds mid.minted mid.store mid.history mid.frames := by
        rw [hend]
        exact I.fold hfolds (hstart ▸ hstate.holds)
      have hmid : I.Sound mid := ⟨hholds, hlevel ▸ hstate.tidy.later hle hall⟩
      have hlater : state.Later mid :=
        ⟨hle, hall, WalkState.one_event rfl (by rintro _ _ _ _ ⟨⟩), List.prefix_refl _⟩
      have hfits : I.Fits mid.minted mid.frames (.ref atom.id) := by
        rw [hend] at hholds ⊢
        exact I.ref hholds hatom
      have hrun : ∀ m : Walk Unit, EStateM.run (do
          set { state with supply, scopes := inner ++ last :: outer }
          record (.folded callee atom altered)
          m) state = m.run mid := fun m => rfl
      exact (keeps_offer hmid hbuckets hlevel node hfits).resume (hrun _) hlater

theorem keeps_recursiveCall (hstate : I.Sound state) (hbuckets : Receives state.buckets)
    {node : NodeId} (hinstance : setting.program.Instantiates node callee decl bindings)
    (hscopes : state.scopes = inner ++ own :: outer) (hown : own.decl? = some callee) :
    I.Keeps state (recursiveCall setting node callee bindings inner own outer) fun _ last =>
      Offers state.buckets last.buckets := by
  obtain ⟨args, ⟨written, hwritten, -⟩, hdecl, -⟩ := id hinstance
  have hinner : inner.map Scope.frame <+: state.frames := by
    rw [WalkState.frames, hscopes, List.map_append]
    exact List.prefix_append _ _
  refine (keeps_answered hstate hdecl).bind fun known start _ _ hpost => ?_
  obtain ⟨rfl, rfl⟩ := hpost
  refine (keeps_liftLookup hstate fun fault hfault =>
    .altered hstate.holds hinner hinstance hfault).bind fun altered mid _ _ hpost => ?_
  obtain ⟨haltered, rfl⟩ := hpost
  refine (keeps_liftLookup hstate fun fault hfault => ?_).bind fun marked mid _ _ hpost => ?_
  · obtain ⟨name, hname, hmissing⟩ := marked_eq_error hwritten hfault
    obtain ⟨param, hparam, rfl⟩ := mem_alteredChannels haltered name hname
    exact .name hdecl (List.mem_filter.1 (List.mem_filter.1 hparam).1).1 hmissing
  obtain ⟨hmarked, rfl⟩ := hpost
  obtain ⟨hframe, hsame⟩ := marked_eq_ok hmarked
  exact keeps_refer hstate hbuckets node hscopes hown hframe hsame

end Recursion

section Instances

variable (hvisit : I.Visits depth visit) (hstate : I.Sound state)
include hstate

theorem keeps_declared (hdecl : setting.program.decl callee = .ok decl) :
    I.Keeps state (declared setting callee decl) fun traces last =>
      last.buckets = state.buckets ∧ traces.computed = traces.projected ∧
        ∀ t ∈ traces.projected.alternatives, I.Fits last.minted last.frames t := by
  unfold declared
  split
  case h_1 => exact keeps_pure hstate ⟨rfl, rfl, by simp⟩
  case h_2 contract hcontract =>
    refine (keeps_lower hdecl hcontract hstate).bind fun result mid hmid _ hpost => ?_
    obtain ⟨hsame, hle, hresult⟩ := hpost
    have hlevel : mid.buckets = state.buckets := by rw [hsame]; rfl
    split
    case h_1 t =>
      obtain ⟨ht, hclosed, -⟩ := hresult t rfl
      refine (keeps_attach hmid ht hclosed).bind fun _ last hlast hlater hpost => ?_
      exact keeps_pure hlast ⟨hpost.1.trans hlevel, rfl,
        List.forall_mem_singleton.2 (fits_later hlater ht)⟩
    case h_2 =>
      refine (keeps_addDiagnostics hmid _).bind fun _ last hlast _ hpost => ?_
      obtain rfl := hpost
      exact keeps_pure hlast ⟨hlevel, rfl, by simp⟩

include hvisit

/-- What a check of a procedure returns fits into the scopes around it. -/
theorem keeps_checkDecl (hdecl : setting.program.decl callee = .ok decl)
    (hnew : .proc callee ∉ owners state.frames) {entry : Option Substitution}
    (hentry : ∀ bindings, entry = some bindings →
      ∃ node, setting.program.Instantiates node callee decl bindings)
    (hmay : ∀ body, decl.body = some body →
      I.May depth (.proc callee :: owners state.frames) body) :
    I.Keeps state (checkDecl setting visit callee entry) fun traces last =>
      last.buckets = state.buckets ∧
        (∀ t ∈ traces.projected.alternatives, I.Fits last.minted last.frames t) ∧
        (∀ t ∈ traces.computed.alternatives, I.Fits last.minted last.frames t) ∧
        (decl.body.isSome = true → traces.computed.alternatives.length = 1) := by
  cases hbody : decl.body with
  | some body =>
      refine (keeps_checkBody hvisit hstate hdecl hnew hentry hbody (hmay body hbody)).mono
        fun traces last _ _ hpost => ?_
      obtain ⟨hsame, t, projected, interface, rfl, ht, hprojected, -⟩ := hpost
      exact ⟨hsame, List.forall_mem_singleton.2 hprojected, List.forall_mem_singleton.2 ht,
        fun _ => rfl⟩
  | none =>
      unfold checkDecl
      rw [if_neg (by rw [Program.containsDecl_of_ok hdecl]; decide)]
      refine (keeps_answered hstate hdecl).bind fun known start _ _ hpost => ?_
      obtain ⟨rfl, rfl⟩ := hpost
      rw [hbody]
      refine (keeps_declared hstate hdecl).mono fun traces last _ _ hpost => ?_
      obtain ⟨hsame, heq, hfits⟩ := hpost
      exact ⟨hsame, hfits, heq ▸ hfits, fun h => by cases h⟩

variable {bindings : Substitution} {node : NodeId}
  (hinstance : setting.program.Instantiates node callee decl bindings)
  (hnew : .proc callee ∉ owners state.frames) (hmay : I.May (depth + 1) (owners state.frames) node)
include hinstance hnew hmay

theorem keeps_calleeTraces :
    I.Keeps state (calleeTraces setting visit callee decl bindings) fun found last =>
      last.buckets = state.buckets ∧
        ∀ traces ∈ found, ∀ t ∈ traces.alternatives, I.Fits last.minted last.frames t := by
  refine (keeps_get hstate).bind fun current mid _ _ hpost => ?_
  obtain ⟨rfl, rfl⟩ := hpost
  split
  case h_1 traces hget =>
    refine keeps_pure hstate ⟨rfl, ?_⟩
    rintro _ ⟨⟩ t ht
    exact I.stored hstate.holds hget ht
  case h_2 =>
    split
    case isTrue =>
      have hentry : ∀ other, some bindings = some other →
          ∃ node, setting.program.Instantiates node callee decl other := by
        rintro _ ⟨⟩
        exact ⟨node, hinstance⟩
      refine (keeps_checkDecl hvisit hstate hinstance.choose_spec.2.1 hnew hentry
        fun body hbody => I.body hstate.holds hmay hinstance hnew hbody).bind
          fun traces last hlast _ hpost => keeps_pure hlast ⟨hpost.1, ?_⟩
      rintro _ ⟨⟩
      exact hpost.2.1
    case isFalse => exact keeps_pure hstate ⟨rfl, by simp⟩

theorem keeps_freshCall (hbuckets : Receives state.buckets) :
    I.Keeps state (freshCall setting visit node callee decl bindings) fun _ last =>
      Offers state.buckets last.buckets := by
  obtain ⟨args, ⟨written, hwritten, -⟩, -⟩ := id hinstance
  refine (keeps_calleeTraces hvisit hstate hinstance hnew hmay).bind
    fun found mid hmid _ hpost => ?_
  obtain ⟨hsame, hfits⟩ := hpost
  split
  case h_1 traces =>
    refine (keeps_liftLookup hmid fun fault hfault => ?_).bind fun renamed last _ _ hpost => ?_
    · obtain ⟨t, ht, hfault⟩ := Substitution.exists_error_of_applySet hfault
      exact .instantiate (hfits traces rfl t ht) hinstance hfault
    obtain ⟨happly, rfl⟩ := hpost
    have hrenamed : ∀ u ∈ renamed.alternatives, I.Fits last.minted last.frames u := by
      intro u hu
      obtain ⟨t, ht, happly⟩ := Substitution.exists_of_mem_applySet happly hu
      exact I.instantiate hinstance happly (hfits traces rfl t ht)
    split
    case h_1 choice hchoice =>
      refine keeps_offer hmid hbuckets hsame node ?_
      unfold TraceSet.toChoice at hchoice
      split at hchoice
      case h_1 => cases hchoice
      case h_2 t heq =>
        obtain rfl := Option.some.inj hchoice
        exact hrenamed _ (by rw [heq]; exact List.mem_singleton_self _)
      case h_3 =>
        obtain rfl := Option.some.inj hchoice
        exact I.comp .ndet hrenamed
    case h_2 => exact keeps_nothing hmid hsame
  case h_2 =>
    refine (keeps_answered hmid hwritten).bind fun written last _ _ hpost => ?_
    obtain ⟨-, rfl⟩ := hpost
    have hopen : last.scopes ≠ [] := by
      rintro heq
      obtain ⟨bucket, inner, outer, hfull⟩ := hsame ▸ hbuckets
      rw [WalkState.buckets, heq] at hfull
      cases hfull
    refine (keeps_report hmid hopen _).bind fun _ final hfinal _ hpost => ?_
    exact keeps_offer hfinal hbuckets (hpost.trans hsame) node (I.unresolved node)

end Instances

theorem fits_builtin {name : String} {t : Trace} {n : Nat} {frames : List Scope}
    (h : builtin? name = some (some t)) : I.Fits n frames t := by
  unfold builtin? at h
  split at h
  · obtain rfl := Option.some.inj (Option.some.inj h)
    exact I.stop
  · split at h <;> cases h

theorem keeps_call (hvisit : I.Visits depth visit) (hstate : I.Sound state)
    (hbuckets : Receives state.buckets) {node : NodeId} {args : List Arg}
    (hnode : setting.program.HasNode node (.call callee args))
    (hmay : I.May (depth + 1) (owners state.frames) node) :
    I.Keeps state (call setting visit node callee args) fun _ last =>
      Offers state.buckets last.buckets := by
  unfold call
  dsimp only
  split
  case isTrue hmissing =>
    refine keeps_fail_bind hstate (.unknownDecl hmay hnode ?_)
    simpa using hmissing
  case isFalse hcontains =>
    obtain ⟨decl, hdecl⟩ := Program.decl_of_contains (by simpa using hcontains)
    refine (keeps_answered hstate hdecl).bind fun known start _ _ hpost => ?_
    obtain ⟨rfl, rfl⟩ := hpost
    split
    case h_1 mismatch hpair => exact keeps_throw hstate (.arity hmay hnode hdecl hpair)
    case h_2 bindings hpair =>
      have hinstance : setting.program.Instantiates node callee known bindings :=
        ⟨args, hnode, hdecl, hpair⟩
      refine (keeps_get hstate).bind fun current last _ _ hpost => ?_
      obtain ⟨rfl, rfl⟩ := hpost
      split
      case h_1 inner own outer hsplit =>
        obtain ⟨hscopes, hown⟩ := splitAt_eq hsplit
        exact keeps_recursiveCall hstate hbuckets hinstance hscopes hown
      case h_2 hsplit =>
        split
        case h_1 fragment hbuiltin =>
          split at hbuiltin
          case isTrue => exact keeps_offer hstate hbuckets rfl node (fits_builtin hbuiltin)
          case isFalse => cases hbuiltin
        case h_2 => exact keeps_nothing hstate rfl
        case h_3 =>
          have hnew : .proc callee ∉ owners last.frames := by
            rw [WalkState.frames, owners_frames]
            exact splitAt_eq_none hsplit
          exact keeps_freshCall hvisit hstate hinstance hnew hmay hbuckets

/-! ## Nodes -/

theorem keeps_step (hvisit : I.Visits depth visit) : I.Visits (depth + 1) (step setting visit) := by
  intro state node hstate hbuckets hmay
  unfold step
  dsimp only
  split
  case isTrue hmissing =>
    refine keeps_fail_bind hstate (.unknownNode hmay ?_)
    simpa using hmissing
  case isFalse hcontains =>
    obtain ⟨written, hwritten⟩ := Program.construct_of_contains (by simpa using hcontains)
    refine (keeps_answered hstate hwritten).bind fun known start _ _ hpost => ?_
    obtain ⟨rfl, rfl⟩ := hpost
    obtain ⟨construct, span⟩ := known
    have hnode : setting.program.HasNode node construct := ⟨_, hwritten, rfl⟩
    have hasks : I.Asks construct.exprs := fun expr hexpr fault hfault =>
      .query hmay hnode hexpr hfault
    have hparts : ∀ part ∈ construct.children, I.May depth (owners start.frames) part :=
      fun part hpart => I.child hmay hnode hpart
    have hevent : ∀ direction expr, expr ∈ construct.exprs → I.Keeps start (do
        let chan ← channel setting expr
        emit node (.event direction chan)) fun _ last => Offers start.buckets last.buckets := by
      intro direction expr hexpr
      refine (keeps_channel hasks hstate hexpr).bind fun chan last _ _ hpost => ?_
      obtain ⟨hchan, rfl⟩ := hpost
      exact keeps_offer hstate hbuckets rfl node (I.event direction hchan)
    cases construct with
    | skip => exact keeps_offer hstate hbuckets rfl node I.skip
    | stop => exact keeps_offer hstate hbuckets rfl node I.stop
    | input expr => exact hevent .input expr List.mem_cons_self
    | output expr => exact hevent .output expr List.mem_cons_self
    | assign => exact keeps_nothing hstate rfl
    | compose mode children => exact keeps_compose hvisit hstate hbuckets node mode hparts
    | replicate mode count body =>
        exact keeps_replicate hvisit hstate hbuckets node mode hasks
          (hparts body List.mem_cons_self)
    | loop guard body =>
        exact keeps_loop hvisit hstate hbuckets node hasks (hparts body List.mem_cons_self)
    | cond arms =>
        exact keeps_cond hvisit hstate hbuckets node hasks fun arm harm =>
          hparts arm.body (List.mem_map_of_mem harm)
    | alt arms =>
        exact keeps_alt hvisit hstate hbuckets node hasks fun arm harm =>
          hparts arm.body (List.mem_map_of_mem harm)
    | call callee args => exact keeps_call hvisit hstate hbuckets hnode hmay
    | block _ body => exact hvisit hstate hbuckets (hparts body List.mem_cons_self)

/-- Walks that nest at most `depth` deep keep every invariant. -/
theorem keeps_walkWithin (depth : Nat) : I.Visits depth (walkWithin setting depth) := by
  induction depth with
  | zero => exact fun state node hstate _ hmay => keeps_throw hstate (.deep hmay)
  | succ depth ih => exact keeps_step ih

theorem keeps_walk : I.Visits (depthBound setting.program) (walk setting) :=
  keeps_walkWithin (depthBound setting.program)

/-! ## Units -/

/-- The node a unit begins with may be walked as deep as walks can nest. -/
def Begins (I : Invariant setting) : ProgramUnit → Prop
  | .proc callee => ∀ decl body, setting.program.decl callee = .ok decl → decl.body = some body →
      I.May (depthBound setting.program) [.proc callee] body
  | .process node => setting.program.containsNode node = true →
      I.May (depthBound setting.program) [.process node] node

theorem begins_of_may (h : ∀ units node, I.May (depthBound setting.program) units node)
    (unit : ProgramUnit) : I.Begins unit := by
  cases unit with
  | proc callee => exact fun _ body _ _ => h [.proc callee] body
  | process node => exact fun _ => h [.process node] node

theorem keeps_checkProcess (hstate : I.Sound state) (hframes : state.frames = [])
    {node : NodeId} (hcontains : setting.program.containsNode node = true)
    (hbegins : I.Begins (.process node)) :
    I.Keeps state (checkProcess setting node) fun traces last =>
      last.buckets = state.buckets ∧
        ∃ t, traces = .single t ∧ I.Fits last.minted last.frames t := by
  unfold checkProcess
  rw [if_neg (by rw [hcontains]; decide)]
  have hopens : setting.program.Opens state.frames (Scope.frame { owner := .process node }) :=
    ⟨rfl, rfl, .inl ⟨node, rfl, rfl⟩⟩
  have hmay : I.May (depthBound setting.program) (.process node :: owners state.frames) node := by
    rw [hframes]
    exact hbegins hcontains
  refine keeps_bracket hstate rfl hopens (fun hopened =>
    keeps_collectSingle keeps_walk hopened rfl "process" node hmay) ?_
  intro fragment scope mid hmid _ hadvances hheld hpost
  obtain ⟨hbuckets, hfits⟩ := hpost
  have hbound := I.bind hheld (fits_getD hfits)
  rw [hadvances.atom_eq_none rfl rfl] at hbound
  refine (keeps_addDiagnostics hmid _).bind fun _ last hlast _ hpost => ?_
  obtain rfl := hpost
  exact keeps_pure hlast ⟨(List.cons.inj hbuckets).2, _, rfl, fits_finish hbound⟩

end Invariant

theorem StateInvariant.begins (J : StateInvariant setting) (unit : ProgramUnit) :
    J.toInvariant.Begins unit := Invariant.begins_of_may (fun _ _ => trivial) unit

end Walk

open Walk Invariant

variable {setting : Setting} {I : Invariant setting} {unit : ProgramUnit} {session : Session}

/-- Units that are walked: processes, and procedures with a body. -/
def ProgramUnit.IsWalked (program : Program) : ProgramUnit → Prop
  | .proc callee => ∃ decl, program.decl callee = .ok decl ∧ decl.body.isSome = true
  | .process _ => True

/-- The unit is not there at all. -/
inductive ProgramUnit.Missing (program : Program) : ProgramUnit → Abort → Prop
  | proc {callee} : program.containsDecl callee = false →
      Missing program (.proc callee) (.error (.unknownDecl callee))
  | process {node} : program.containsNode node = false →
      Missing program (.process node) (.error (.unknownNode node))

/-- What a check leaves behind, whether it answers or gives up. -/
def Checked (I : Invariant setting) (unit : ProgramUnit) (session : Session) :
    Except Abort Outcome × Session → Prop
  | (.ok outcome, last) => I.Holds last.supply.minted last.store last.history [] ∧
      (∀ t ∈ outcome.traces.alternatives, I.Fits last.supply.minted [] t) ∧
      (unit.IsWalked setting.program → outcome.traces.alternatives.length = 1) ∧
      ∃ new, last.history = session.history ++ new ∧
        WalkState.Announced new outcome.diagnostics
  | (.error abort, last) => (∃ frames, I.Holds last.supply.minted last.store last.history frames) ∧
      (I.Cause abort ∨ unit.Missing setting.program abort)

theorem checked_of_keeps (h : I.Keeps session.begin (checkUnit setting unit) fun traces last =>
      (∀ t ∈ traces.alternatives, I.Fits last.minted last.frames t) ∧
        (unit.IsWalked setting.program → traces.alternatives.length = 1)) :
    Checked I unit session (check setting unit session) := by
  unfold Keeps at h
  unfold check
  split at h
  case h_1 traces last heq =>
    rw [heq]
    obtain ⟨hsound, hlater, hfits, hsingle⟩ := h
    have hframes : last.frames = [] := List.forall₂_nil_left_iff.1 hlater.frames
    have hheld := hsound.holds
    rw [hframes] at hheld hfits
    exact ⟨hheld, hfits, hsingle, hlater.history⟩
  case h_2 abort last heq =>
    rw [heq]
    exact ⟨⟨_, h.1⟩, .inl h.2⟩

theorem checked_of_missing {abort : Abort} (hmissing : unit.Missing setting.program abort)
    (hholds : I.Holds session.supply.minted session.store session.history []) :
    Checked I unit session (check setting unit session) := by
  have hrun : (checkUnit setting unit).run session.begin = .error abort session.begin := by
    cases hmissing with
    | @proc callee h =>
        have hfail : checkDecl setting (walk setting) callee none session.begin =
            .error (.error (.unknownDecl callee)) session.begin := by
          unfold checkDecl
          rw [if_pos (by rw [h]; rfl)]
          rfl
        change EStateM.bind (checkDecl setting (walk setting) callee none) _ session.begin = _
        rw [EStateM.bind, hfail]
    | @process node h =>
        change checkProcess setting node session.begin = _
        unfold checkProcess
        rw [if_pos (by rw [h]; rfl)]
        rfl
  unfold check
  rw [hrun]
  exact ⟨⟨[], hholds⟩, .inr hmissing⟩

/-- A check keeps every invariant, whether it answers or gives up. -/
theorem checked (hholds : I.Holds session.supply.minted session.store session.history [])
    (hbegins : I.Begins unit) : Checked I unit session (check setting unit session) := by
  have hstate : I.Sound session.begin := ⟨hholds, trivial⟩
  cases unit with
  | process node =>
      cases hcontains : setting.program.containsNode node with
      | false => exact checked_of_missing (.process hcontains) hholds
      | true =>
          refine checked_of_keeps ((keeps_checkProcess hstate rfl hcontains hbegins).mono
            fun traces last _ _ hpost => ?_)
          obtain ⟨-, t, rfl, ht⟩ := hpost
          exact ⟨List.forall_mem_singleton.2 ht, fun _ => rfl⟩
  | proc callee =>
      cases hcontains : setting.program.containsDecl callee with
      | false => exact checked_of_missing (.proc hcontains) hholds
      | true =>
          obtain ⟨decl, hdecl⟩ := Program.decl_of_contains hcontains
          have hnew : .proc callee ∉ owners session.begin.frames := List.not_mem_nil
          have hentry : ∀ bindings, (none : Option Substitution) = some bindings →
              ∃ node, setting.program.Instantiates node callee decl bindings :=
            fun bindings h => by cases h
          refine checked_of_keeps ((keeps_checkDecl keeps_walk hstate hdecl hnew hentry
            fun body hbody => hbegins decl body hdecl hbody).bind
              fun traces last hlast _ hpost => keeps_pure hlast ⟨hpost.2.2.1, ?_⟩)
          rintro ⟨other, hother, hbody⟩
          obtain rfl := Except.ok.inj (hdecl.symm.trans hother)
          exact hpost.2.2.2 hbody

end ProcessContracts
