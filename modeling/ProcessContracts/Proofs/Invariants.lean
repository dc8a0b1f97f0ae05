import ProcessContracts.Check
import ProcessContracts.Proofs.Computations
import ProcessContracts.Proofs.Frames

/-!
# Invariants of walks

An invariant says what holds of a state, which traces fit into the open scopes, and which nodes may
be walked how deep. Its fields are the closure conditions, one for each thing a walk does. A walk
that keeps an invariant also keeps the buckets in order, and if it gives up it names a cause.
-/

namespace ProcessContracts

variable {α β : Type}

/-- The expressions a construct is written with. -/
def Construct.exprs : Construct → List ExprId
  | .input chan | .output chan => [chan]
  | .assign target value => [target, value]
  | .replicate _ count _ => [count]
  | .loop guard _ => [guard]
  | .cond arms => arms.map (·.guard)
  | .alt arms => arms.flatMap fun arm => arm.precondition.toList ++
      match arm.trigger with
      | .input chan => [chan]
      | .skip => []
  | .call _ args => args.map (·.expr)
  | .skip | .stop | .compose _ _ | .block _ _ => []

theorem Program.containsDecl_of_ok {program : Program} {callee : DeclId} {decl : Decl}
    (h : program.decl callee = .ok decl) : program.containsDecl callee = true := by
  unfold Program.decl at h
  split at h
  case h_1 heq =>
    obtain ⟨hlt, -⟩ := Array.getElem?_eq_some_iff.1 heq
    exact decide_eq_true hlt
  case h_2 => cases h

theorem Program.decl_of_contains {program : Program} {callee : DeclId}
    (h : program.containsDecl callee = true) : ∃ decl, program.decl callee = .ok decl := by
  have hlt : callee.index < program.decls.size := of_decide_eq_true h
  exact ⟨program.decls[callee.index], by rw [Program.decl, Array.getElem?_eq_getElem hlt]⟩

theorem Program.construct_of_contains {program : Program} {node : NodeId}
    (h : program.containsNode node = true) :
    ∃ written, program.spannedConstruct node = .ok written := by
  have hlt : node.index < program.nodes.size := of_decide_eq_true h
  exact ⟨program.nodes[node.index], by rw [Program.spannedConstruct, Array.getElem?_eq_getElem hlt]⟩

theorem Program.entry_of_construct {program : Program} {node : NodeId} {written : Spanned Construct}
    (h : program.spannedConstruct node = .ok written) :
    program.nodes[node.index]? = some written := by
  unfold Program.spannedConstruct at h
  split at h
  case h_1 heq => exact Except.ok.inj h ▸ heq
  case h_2 => cases h

theorem Program.contains_of_construct {program : Program} {node : NodeId}
    {written : Spanned Construct} (h : program.spannedConstruct node = .ok written) :
    program.containsNode node = true :=
  decide_eq_true (Array.getElem?_eq_some_iff.1 (entry_of_construct h)).1

/-- The construct of a node. -/
def Program.HasNode (program : Program) (node : NodeId) (construct : Construct) : Prop :=
  ∃ written, program.spannedConstruct node = .ok written ∧ written.value = construct

/-- The node is an instance of a procedure, with its arguments bound. -/
def Program.Instantiates (program : Program) (node : NodeId) (callee : DeclId) (decl : Decl)
    (bindings : Substitution) : Prop :=
  ∃ args, program.HasNode node (.call callee args) ∧ program.decl callee = .ok decl ∧
    Substitution.pair decl.params args = .ok bindings

/-- A scope as it is opened around others: for a process, or for a procedure that is checked on its
own or for an instance. -/
structure Program.Opens (program : Program) (frames : List Scope) (scope : Scope) : Prop where
  atom : scope.recursionAtom = none
  approximate : scope.approximate = false
  owner : (∃ node, scope.owner = .process node ∧ scope.entry = none) ∨
    ∃ callee decl, scope.owner = .proc callee ∧ program.decl callee = .ok decl ∧
      .proc callee ∉ owners frames ∧
      ∀ bindings, scope.entry = some bindings →
        ∃ node, program.Instantiates node callee decl bindings

/-- The scope of a procedure after an instance was folded back onto it. -/
def Scope.Folds (callee : DeclId) (altered : List NameId) (n : Nat) (own : Scope) (atom : Atom)
    (own' : Scope) (n' : Nat) : Prop :=
  own.owner = .proc callee ∧
    Scope.recursionAtomFrom (if altered.isEmpty then own else own.markApproximate) ⟨n⟩
      (.recursion callee) = (atom, own', ⟨n'⟩)

/-- What a diagnostic about a contract can say against it. -/
def Walk.alarms : List DiagnosticCode :=
  [.refinementViolation, .divergence, .unconstrained, .inconclusive, .unboundContractVariable]

/-- What is kept by everything a walk does. `Holds` is about the atoms minted, the traces attached,
the events so far and the open scopes; `Fits` about a fragment in the innermost of some scopes; and
`May` about a node that is walked inside some units, with a bound on how deep walks nest there. -/
structure Walk.Invariant (setting : Setting) where
  Holds : Nat → TraceStore → List Event → List Scope → Prop
  Fits : Nat → List Scope → Trace → Prop
  May : Nat → List ProgramUnit → NodeId → Prop
  /- Fragments -/
  later {n n' frames frames' t} : n ≤ n' → List.Forall₂ (Scope.Advances n) frames frames' →
    Fits n frames t → Fits n' frames' t
  skip {n frames} : Fits n frames .skip
  stop {n frames} : Fits n frames .stop
  div {n frames} : Fits n frames .div
  unresolved {n frames} (node : NodeId) : Fits n frames (.unresolved node)
  event {n frames expr chan} (direction : Direction) :
    ChanRef.ofExpr setting.program expr = .ok chan → Fits n frames (.event direction chan)
  comp {n frames ts} (op : Operator) : (∀ t ∈ ts, Fits n frames t) → Fits n frames (.comp op ts)
  loop {n store history frames t} (op : Operator) (origin : Origin) :
    Holds n store history frames → Fits n frames t →
      Fits (n + 1) frames (.fix ⟨⟨n⟩, origin⟩ (.comp op [t, .ref ⟨n⟩]))
  replication {n store history frames t} (op : Operator) (origin : Origin) :
    Holds n store history frames → Fits n frames t →
      Fits (n + 1) frames (.fix ⟨⟨n⟩, origin⟩ (.comp .ndet [.skip, .comp op [t, .ref ⟨n⟩]]))
  ref {n store history inner own outer atom} : Holds n store history (inner ++ own :: outer) →
    own.recursionAtom = some atom → Fits n (inner ++ own :: outer) (.ref atom.id)
  bind {n store history scope frames t} : Holds n store history (scope :: frames) →
    Fits n (scope :: frames) t → Fits n frames (scope.recursionAtom.elim t (.fix · t))
  simplify {n frames t} : Fits n frames t → Fits n frames t.simplify
  hide {n frames t} (keep : ChanRef → Bool) : Fits n frames t → Fits n frames (t.hide keep)
  instantiate {n frames t u node callee decl bindings} :
    setting.program.Instantiates node callee decl bindings →
      bindings.apply setting.program t = .ok u → Fits n frames t → Fits n frames u
  lowered {n n' store history frames callee decl contract t} :
    Holds n store history frames → setting.program.decl callee = .ok decl →
      decl.contract = some contract →
      (contract.value.lower setting.program callee).run ⟨n⟩ = .ok t ⟨n'⟩ → Fits n' frames t
  stored {n store history frames callee traces t} : Holds n store history frames →
    store.get? callee = some traces → t ∈ traces.alternatives → Fits n frames t
  /- States -/
  mint {n n' store history frames} : n ≤ n' → Holds n store history frames →
    Holds n' store history frames
  enter {n store history frames scope} : setting.program.Opens frames scope →
    Holds n store history frames → Holds n store history (scope :: frames)
  leave {n store history scope frames} : Holds n store history (scope :: frames) →
    Holds n store history frames
  fold {n n' store history inner own own' outer callee altered atom} :
    own.Folds callee altered n atom own' n' → Holds n store history (inner ++ own :: outer) →
      Holds n' store (history ++ [.folded callee atom altered]) (inner ++ own' :: outer)
  judge {n store history scope frames callee computed found} :
    Holds n store history (scope :: frames) →
      (scope.approximate = true → ∃ d ∈ found, d.decl = some callee ∧ d.code ∈ alarms) →
      Holds n store (history ++ [.judged callee scope.recursionAtom computed found]) frames
  attach {n store history frames callee t} : Holds n store history frames → Fits n frames t →
    t.freeRefs = [] → Holds n (store.insert callee (.single t))
      (history ++ [.attached callee (.single t)]) frames
  /- Nodes -/
  child {depth units node construct body} : May (depth + 1) units node →
    setting.program.HasNode node construct → body ∈ construct.children → May depth units body
  body {depth n store history frames node callee decl bindings body} :
    Holds n store history frames → May (depth + 1) (owners frames) node →
      setting.program.Instantiates node callee decl bindings → .proc callee ∉ owners frames →
      decl.body = some body → May depth (.proc callee :: owners frames) body

/-- What is kept by everything a walk does, where nothing is said about fragments and nodes. -/
structure Walk.StateInvariant (setting : Setting) where
  Holds : Nat → TraceStore → List Event → List Scope → Prop
  mint {n n' store history frames} : n ≤ n' → Holds n store history frames →
    Holds n' store history frames
  enter {n store history frames scope} : setting.program.Opens frames scope →
    Holds n store history frames → Holds n store history (scope :: frames)
  leave {n store history scope frames} : Holds n store history (scope :: frames) →
    Holds n store history frames
  fold {n n' store history inner own own' outer callee altered atom} :
    own.Folds callee altered n atom own' n' → Holds n store history (inner ++ own :: outer) →
      Holds n' store (history ++ [.folded callee atom altered]) (inner ++ own' :: outer)
  judge {n store history scope frames callee computed found} :
    Holds n store history (scope :: frames) →
      (scope.approximate = true → ∃ d ∈ found, d.decl = some callee ∧ d.code ∈ alarms) →
      Holds n store (history ++ [.judged callee scope.recursionAtom computed found]) frames
  attach {n store history frames callee t} : Holds n store history frames → t.freeRefs = [] →
    Holds n (store.insert callee (.single t)) (history ++ [.attached callee (.single t)]) frames

namespace Walk

open WalkState

variable {setting : Setting}

/-- Every fragment fits, and every node may be walked however deep. -/
def StateInvariant.toInvariant (J : StateInvariant setting) : Invariant setting where
  Holds := J.Holds
  Fits _ _ _ := True
  May _ _ _ := True
  later _ _ _ := trivial
  skip := trivial
  stop := trivial
  div := trivial
  unresolved _ := trivial
  event _ _ := trivial
  comp _ _ := trivial
  loop _ _ _ _ := trivial
  replication _ _ _ _ := trivial
  ref _ _ := trivial
  bind _ _ := trivial
  simplify _ := trivial
  hide _ _ := trivial
  instantiate _ _ _ := trivial
  lowered _ _ _ _ := trivial
  stored _ _ _ := trivial
  mint := J.mint
  enter := J.enter
  leave := J.leave
  fold := J.fold
  judge := J.judge
  attach hholds _ hclosed := J.attach hholds hclosed
  child _ _ _ := trivial
  body _ _ _ _ _ := trivial

namespace Invariant

/-- Why a walk can be given up. -/
inductive Cause (I : Invariant setting) : Abort → Prop
  | deep {units node} : I.May 0 units node → Cause I (.fault (.cyclicProcess node))
  | unknownNode {depth units node} : I.May depth units node →
      setting.program.containsNode node = false → Cause I (.error (.unknownNode node))
  | query {depth units node construct expr fault} : I.May depth units node →
      setting.program.HasNode node construct → expr ∈ construct.exprs →
      setting.program.constantValue expr = .error fault ∨
        ChanRef.ofExpr setting.program expr = .error fault → Cause I (.fault fault)
  | unknownDecl {depth units node callee args} : I.May depth units node →
      setting.program.HasNode node (.call callee args) →
      setting.program.containsDecl callee = false → Cause I (.error (.unknownDecl callee))
  | arity {depth units node callee args decl mismatch} : I.May depth units node →
      setting.program.HasNode node (.call callee args) → setting.program.decl callee = .ok decl →
      Substitution.pair decl.params args = .error mismatch →
      Cause I (.error (.arityMismatch decl.name node mismatch.formals mismatch.actuals))
  | altered {n store history frames inner node callee decl bindings fault} :
      I.Holds n store history frames → inner.map Scope.frame <+: frames →
      setting.program.Instantiates node callee decl bindings →
      alteredChannels setting.program inner bindings (decl.visibleParams.filter (·.isChannel)) =
        .error fault → Cause I (.fault fault)
  | name {callee decl param fault} : setting.program.decl callee = .ok decl →
      param ∈ decl.params → setting.program.nameText param.name = .error fault →
      Cause I (.fault fault)
  | instantiate {n frames node callee decl bindings t fault} : I.Fits n frames t →
      setting.program.Instantiates node callee decl bindings →
      bindings.apply setting.program t = .error fault → Cause I (.fault fault)
  | project {n frames t interface fault} : I.Fits n frames t →
      Walk.project setting interface t = .error fault → Cause I (.fault fault)
  | lower {callee decl contract supply supply' fault} : setting.program.decl callee = .ok decl →
      decl.contract = some contract →
      (contract.value.lower setting.program callee).run supply = .error (.fault fault) supply' →
      Cause I (.fault fault)
  | compare {n frames spec computed limit fault} : I.Fits n frames spec →
      I.Fits n frames computed → refines setting.program spec computed limit = .error fault →
      Cause I (.fault fault)
  | describe {n frames name approximate spec computed limit report fault} : I.Fits n frames spec →
      I.Fits n frames computed → refines setting.program spec computed limit = .ok report →
      contractDiagnostics setting name approximate computed report = .error fault →
      Cause I (.fault fault)

/-- The fragments of every scope fit into it and the scopes outside it. -/
def Tidy (I : Invariant setting) (n : Nat) : List Scope → List (List Bucket) → Prop
  | frame :: outer, buckets :: rest =>
      (∀ bucket ∈ buckets, ∀ t ∈ bucket.fragments, I.Fits n (frame :: outer) t) ∧
        I.Tidy n outer rest
  | _, _ => True

/-- What every state of a walk satisfies. -/
structure Sound (I : Invariant setting) (state : WalkState) : Prop where
  holds : I.Holds state.minted state.store state.history state.frames
  tidy : I.Tidy state.minted state.frames state.buckets

/-- Where the walk succeeds the invariant is kept and the answer is as wanted; where it gives up
there is a cause. -/
def Keeps (I : Invariant setting) (state : WalkState) (m : Walk α) (post : α → WalkState → Prop) :
    Prop :=
  match m.run state with
  | .ok a last => I.Sound last ∧ state.Later last ∧ post a last
  | .error abort last => I.Holds last.minted last.store last.history last.frames ∧ I.Cause abort

variable {I : Invariant setting} {state last : WalkState} {m : Walk α} {post : α → WalkState → Prop}
  {n n' : Nat} {frames frames' : List Scope} {buckets : List (List Bucket)}

theorem Tidy.later (hle : n ≤ n') (hframes : List.Forall₂ (Scope.Advances n) frames frames')
    (h : I.Tidy n frames buckets) : I.Tidy n' frames' buckets := by
  induction hframes generalizing buckets with
  | nil => trivial
  | cons hframe hframes ih =>
      cases buckets with
      | nil => trivial
      | cons bs rest =>
          refine ⟨fun bucket hbucket t ht => ?_, ih h.2⟩
          exact I.later hle (.cons hframe hframes) (h.1 bucket hbucket t ht)

/-! ## Composing walks -/

/-- A walk that has come to a later state goes on from there. -/
theorem Keeps.resume {mid : WalkState} {rest : Walk α} (hrun : m.run state = rest.run mid)
    (hlater : state.Later mid) (h : I.Keeps mid rest post) : I.Keeps state m post := by
  unfold Keeps at h ⊢
  rw [hrun]
  cases hrest : rest.run mid with
  | ok a last =>
      rw [hrest] at h
      exact ⟨h.1, hlater.trans h.2.1, h.2.2⟩
  | error abort last =>
      rw [hrest] at h
      exact h

theorem Keeps.bind {f : α → Walk β} {wanted : β → WalkState → Prop} (h : I.Keeps state m post)
    (hf : ∀ a mid, I.Sound mid → state.Later mid → post a mid → I.Keeps mid (f a) wanted) :
    I.Keeps state (m >>= f) wanted := by
  have hbind : (m >>= f).run state = EStateM.bind m f state := rfl
  unfold Keeps at h
  rw [EStateM.bind] at hbind
  cases hm : m state with
  | error abort mid =>
      rw [EStateM.run, hm] at h
      rw [hm] at hbind
      rw [Keeps, hbind]
      exact h
  | ok a mid =>
      rw [EStateM.run, hm] at h
      rw [hm] at hbind
      exact (hf a mid h.1 h.2.1 h.2.2).resume hbind h.2.1

theorem Keeps.mono {wanted : α → WalkState → Prop} (h : I.Keeps state m post)
    (hpost : ∀ a last, I.Sound last → state.Later last → post a last → wanted a last) :
    I.Keeps state m wanted := by
  unfold Keeps at h ⊢
  split at h
  case h_1 a last _ => exact ⟨h.1, h.2.1, hpost a last h.1 h.2.1 h.2.2⟩
  case h_2 => exact h

theorem keeps_pure {a : α} (hstate : I.Sound state) (h : post a state) :
    I.Keeps state (pure a) post := ⟨hstate, .refl state, h⟩

theorem keeps_throw {abort : Abort} (hstate : I.Sound state) (h : I.Cause abort) :
    I.Keeps state (throw abort) post := ⟨hstate.holds, h⟩

theorem keeps_get (hstate : I.Sound state) :
    I.Keeps state get fun a last => a = state ∧ last = state :=
  ⟨hstate, .refl state, rfl, rfl⟩

/-- A query leaves the state as it is. -/
theorem keeps_liftLookup {look : Lookup α} (hstate : I.Sound state)
    (h : ∀ fault, look = .error fault → I.Cause (.fault fault)) :
    I.Keeps state (liftLookup look) fun a last => look = .ok a ∧ last = state := by
  cases look with
  | ok value => exact keeps_pure hstate ⟨rfl, rfl⟩
  | error fault => exact keeps_throw hstate (h fault rfl)

/-! ## Basic steps -/

theorem keeps_mint (hstate : I.Sound state) (origin : Origin) :
    I.Keeps state (Walk.mint origin) fun atom last => atom = ⟨⟨state.minted⟩, origin⟩ ∧
      last = { state with supply := ⟨state.minted + 1⟩ } := by
  have hle : state.minted ≤ state.minted + 1 := Nat.le_succ _
  refine ⟨⟨I.mint hle hstate.holds, hstate.tidy.later hle (advances_refl _ _)⟩, ?_, rfl, rfl⟩
  exact ⟨hle, advances_refl _ _, no_events rfl, List.prefix_refl _⟩

theorem keeps_addDiagnostics (hstate : I.Sound state) (found : List Diagnostic) :
    I.Keeps state (addDiagnostics found) fun _ last =>
      last = { state with diagnostics := state.diagnostics ++ found } := by
  refine ⟨⟨hstate.holds, hstate.tidy⟩, ?_, rfl⟩
  exact ⟨Nat.le_refl _, advances_refl _ _, no_events rfl, List.prefix_append _ _⟩

/-- Only closed traces that fit are attached. -/
theorem keeps_attach (hstate : I.Sound state) {callee : DeclId} {t : Trace}
    (ht : I.Fits state.minted state.frames t) (hclosed : t.freeRefs = []) :
    I.Keeps state (Walk.attach callee (.single t)) fun _ last =>
      last.buckets = state.buckets ∧ last.diagnostics = state.diagnostics := by
  refine ⟨⟨I.attach hstate.holds ht hclosed, hstate.tidy⟩, ?_, rfl, rfl⟩
  refine ⟨Nat.le_refl _, advances_refl _ _, one_event rfl ?_, List.prefix_refl _⟩
  rintro _ _ _ _ ⟨⟩

/-- What is reported in a scope changes neither its frame nor its buckets. -/
theorem keeps_report (hstate : I.Sound state) (hopen : state.scopes ≠ []) (found : Diagnostic) :
    I.Keeps state (report found) fun _ last => last.buckets = state.buckets := by
  obtain ⟨supply, store, history, scopes, diagnostics⟩ := state
  cases scopes with
  | nil => exact absurd rfl hopen
  | cons scope outer => exact ⟨⟨hstate.holds, hstate.tidy⟩, .of_frames_eq rfl rfl rfl rfl, rfl⟩

theorem keeps_emit (hstate : I.Sound state) (hbuckets : Receives state.buckets) (node : NodeId)
    {t : Trace} (ht : I.Fits state.minted state.frames t) :
    I.Keeps state (emit node t) fun _ last => last.buckets = contribute [t] state.buckets := by
  obtain ⟨supply, store, history, scopes, diagnostics⟩ := state
  obtain ⟨bucket, inner, outer, heq⟩ := hbuckets
  match scopes, heq, hstate with
  | scope :: scopes, heq, hstate =>
      obtain ⟨owner, interface, buckets, found, atom, entry, approximate⟩ := scope
      obtain ⟨rfl, rfl⟩ := List.cons.inj heq
      obtain ⟨hinner, houter⟩ := hstate.tidy
      refine ⟨⟨hstate.holds, fun other hother u hu => ?_, houter⟩,
        .of_frames_eq rfl rfl rfl rfl, rfl⟩
      rcases List.mem_cons.1 hother with rfl | hother
      · rcases List.mem_append.1 hu with hu | hu
        · exact hinner bucket List.mem_cons_self u hu
        · exact List.mem_singleton.1 hu ▸ ht
      · exact hinner other (List.mem_cons_of_mem _ hother) u hu

theorem keeps_openBucket (hstate : I.Sound state) {inner : List Bucket} {outer : List (List Bucket)}
    (hbuckets : state.buckets = inner :: outer) :
    I.Keeps state openBucket fun _ last => last.buckets = ({} :: inner) :: outer := by
  obtain ⟨supply, store, history, scopes, diagnostics⟩ := state
  match scopes, hbuckets, hstate with
  | scope :: scopes, hbuckets, hstate =>
      obtain ⟨rfl, rfl⟩ := List.cons.inj hbuckets
      obtain ⟨hinner, houter⟩ := hstate.tidy
      refine ⟨⟨hstate.holds, ?_, houter⟩, .of_frames_eq rfl rfl rfl rfl, rfl⟩
      exact List.forall_mem_cons.2 ⟨by simp, hinner⟩

theorem keeps_closeBucket (hstate : I.Sound state) (node : NodeId) {bucket : Bucket}
    {inner : List Bucket} {outer : List (List Bucket)}
    (hbuckets : state.buckets = (bucket :: inner) :: outer) :
    I.Keeps state (closeBucket node) fun found last => found = bucket ∧
      last.buckets = inner :: outer ∧
        ∀ t ∈ bucket.fragments, I.Fits last.minted last.frames t := by
  obtain ⟨supply, store, history, scopes, diagnostics⟩ := state
  match scopes, hbuckets, hstate with
  | scope :: scopes, hbuckets, hstate =>
      obtain ⟨owner, interface, buckets, found, atom, entry, approximate⟩ := scope
      obtain ⟨rfl, rfl⟩ := List.cons.inj hbuckets
      obtain ⟨hinner, houter⟩ := hstate.tidy
      refine ⟨⟨hstate.holds, ?_, houter⟩, .of_frames_eq rfl rfl rfl rfl, rfl, rfl, ?_⟩
      · exact fun other hother => hinner other (List.mem_cons_of_mem _ hother)
      · exact hinner bucket List.mem_cons_self

end Invariant

namespace StateInvariant

variable (J : StateInvariant setting)

theorem tidy {n : Nat} {frames : List Scope} {bs : List (List Bucket)} :
    J.toInvariant.Tidy n frames bs := by
  induction frames generalizing bs with
  | nil => trivial
  | cons frame outer ih =>
      cases bs with
      | nil => trivial
      | cons buckets rest => exact ⟨fun _ _ _ _ => trivial, ih⟩

theorem sound {state : WalkState}
    (h : J.Holds state.minted state.store state.history state.frames) :
    J.toInvariant.Sound state := ⟨h, J.tidy⟩

end StateInvariant

end Walk

end ProcessContracts
