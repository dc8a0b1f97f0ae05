import ProcessContracts.Check
import ProcessContracts.Proofs.Invariants
import ProcessContracts.Proofs.Plans

/-!
# What a walk yields

The meaning of a walk without its buckets: a node yields at most one fragment and changes the state.
Beside that a walk keeps an account of the atoms it minted and the diagnostics it published, those
of each procedure it attached apart from its own. There is a rule for each way a node can go; the
index bounds how deep rules nest.
-/

namespace ProcessContracts

/-! ## Accounts -/

/-- Atoms minted and diagnostics published for one purpose. -/
structure Share where
  atoms : List AtomId := []
  published : List Diagnostic := []

def Share.add (a b : Share) : Share := ⟨a.atoms ++ b.atoms, a.published ++ b.published⟩

/-- What a walk did for its own procedure, and what it did for each one that it attached. -/
structure Account where
  own : Share := {}
  attached : List (DeclId × Share) := []

namespace Account

def add (a b : Account) : Account := ⟨a.own.add b.own, a.attached ++ b.attached⟩

@[simp] theorem empty_add (a : Account) : Account.add {} a = a := rfl

@[simp] theorem add_empty (a : Account) : a.add {} = a := by
  simp [add, Share.add]

end Account

/-- The atoms minted from one supply to another. -/
def AtomSupply.upTo (first last : AtomSupply) : List AtomId :=
  (List.range' first.minted (last.minted - first.minted)).map AtomId.mk

def AtomSupply.more (supply : AtomSupply) (n : Nat) : AtomSupply := ⟨supply.minted + n⟩

def Account.minted (first last : AtomSupply) : Account := { own := { atoms := first.upTo last } }

@[simp] theorem AtomSupply.more_zero (supply : AtomSupply) : supply.more 0 = supply := rfl

@[simp] theorem AtomSupply.upTo_self (supply : AtomSupply) : supply.upTo supply = [] := by
  simp [upTo]

@[simp] theorem Account.minted_self (supply : AtomSupply) : Account.minted supply supply = {} := by
  simp [minted]

/-! ## Procedures -/

/-- The scope of a procedure as it is opened. -/
def Scope.opened (callee : DeclId) (decl : Decl) (entry : Option Substitution) : Scope :=
  ((decl.visibleParams.filter (·.isChannel)).map (·.name)).foldl addInterface
    { owner := .proc callee, entry }

def WalkState.enter (state : WalkState) (scope : Scope) : WalkState :=
  { state with scopes := scope :: state.scopes }

/-- The state after a trace is attached. -/
def WalkState.attach (state : WalkState) (callee : DeclId) (t : Trace) : WalkState :=
  { state with
    store := state.store.insert callee (.single t)
    history := state.history ++ [.attached callee (.single t)] }

def WalkState.publish (state : WalkState) (found : List Diagnostic) : WalkState :=
  { state with diagnostics := state.diagnostics ++ found }

/-- The state after a computation that minted atoms and noted events. -/
def WalkState.after (state noted : WalkState) : WalkState :=
  { state with supply := noted.supply, history := state.history ++ noted.history }

namespace Walk

/-- The trace of a procedure whose body contributed the fragment. -/
def whole (setting : Setting) (scope : Scope) (fragment : Option Trace) : Trace :=
  finish setting (scope.recursionAtom.elim (fragment.getD .skip) (.fix · (fragment.getD .skip)))

/-- The scope with the outcome of the contract check, if there is a contract. -/
def verdict (setting : Setting) (callee : DeclId) (decl : Decl) (scope : Scope) (t : Trace) :
    Walk Scope :=
  match decl.contract with
  | some contract => judge setting scope callee contract t
  | none => pure scope

/-- What is made of fragments is the fragment of a construct. -/
structure Makes (made : Made) (state : WalkState) (fragment : Option Trace) (account : Account)
    (last : WalkState) : Prop where
  fragment : fragment = made.fragment state.minted
  account : account = .minted state.supply (state.supply.more made.size)
  last : last = { state with supply := state.supply.more made.size }

/-! ## Rules -/

/-- The fragment and the account of walking a node in a state, and the state it leads to. -/
abbrev Table := NodeId → WalkState → Option Trace → Account → WalkState → Prop

section Rules

variable (setting : Setting) (visits : Table)

/-- Nodes one after the other. -/
inductive Series : List NodeId → WalkState → List (Option Trace) → Account → WalkState → Prop
  | nil (state : WalkState) : Series [] state [] {} state
  | cons {node nodes state fragment here mid fragments rest last} :
      visits node state fragment here mid → Series nodes mid fragments rest last →
      Series (node :: nodes) state (fragment :: fragments) (here.add rest) last

/-- Checking a procedure. -/
inductive Completes (callee : DeclId) (entry : Option Substitution) :
    WalkState → ProcTraces → Account → WalkState → Prop
  /-- Nothing is known about the procedure. -/
  | undeclared {state decl} : setting.program.decl callee = .ok decl → decl.body = none →
      decl.contract = none → Completes callee entry state ⟨{}, {}⟩ {} state
  | declared {state decl contract t supply} : setting.program.decl callee = .ok decl →
      decl.body = none → decl.contract = some contract →
      (contract.value.lower setting.program callee).run state.supply = .ok t supply →
      Completes callee entry state ⟨.single t, .single t⟩
        { attached := [(callee, { atoms := state.supply.upTo supply })] }
        ({ state with supply }.attach callee t)
  /-- The contract of a procedure without a body cannot be lowered. -/
  | unbound {state decl contract name supply} : setting.program.decl callee = .ok decl →
      decl.body = none → decl.contract = some contract →
      (contract.value.lower setting.program callee).run state.supply =
        .error (.unbound name) supply →
      Completes callee entry state ⟨{}, {}⟩
        { own :=
          ⟨state.supply.upTo supply, [(unboundVariable name).atContract callee contract.span]⟩ }
        ({ state with supply }.publish [(unboundVariable name).atContract callee contract.span])
  /-- The trace still refers to a procedure in progress. -/
  | dropped {state decl body fragment account scope outer mid projected} :
      setting.program.decl callee = .ok decl → decl.body = some body →
      visits body (state.enter (.opened callee decl entry)) fragment account mid →
      mid.scopes = scope :: outer →
      project setting scope.interface (whole setting scope fragment) = .ok projected →
      projected.isClosed = false →
      Completes callee entry state ⟨.single (whole setting scope fragment), .single projected⟩
        account { mid with scopes := outer }
  | attached {state decl body fragment account scope outer mid projected judged noted} :
      setting.program.decl callee = .ok decl → decl.body = some body →
      visits body (state.enter (.opened callee decl entry)) fragment account mid →
      mid.scopes = scope :: outer →
      project setting scope.interface (whole setting scope fragment) = .ok projected →
      projected.isClosed = true →
      (verdict setting callee decl scope projected).run { supply := mid.supply } =
        .ok judged noted →
      Completes callee entry state ⟨.single (whole setting scope fragment), .single projected⟩
        { attached := account.attached ++ [(callee,
          account.own.add ⟨mid.supply.upTo noted.supply, judged.diagnostics⟩)] }
        ((({ mid with scopes := outer }.after noted).publish judged.diagnostics).attach
          callee projected)

/-- The traces an instance of a procedure uses that is not being walked. -/
inductive Supplies (callee : DeclId) (decl : Decl) (bindings : Substitution) :
    WalkState → TraceSet → Account → WalkState → Prop
  | stored {state traces} : state.store.get? callee = some traces →
      Supplies callee decl bindings state traces {} state
  | demanded {state traces account last} : state.store.get? callee = none →
      (decl.body.isSome || decl.contract.isSome) = true →
      Completes setting visits callee (some bindings) state traces account last →
      Supplies callee decl bindings state traces.projected account last

/-- Walking a node, given how the nodes below it and the bodies of its callees are walked. -/
inductive Rule : NodeId → WalkState → Option Trace → Account → WalkState → Prop
  | planned {node construct plan state fragments account mid fragment made last} :
      setting.program.HasNode node construct → construct.plan setting node = .ok (some plan) →
      Series visits plan.parts state fragments account mid →
      Makes (plan.make fragments) mid fragment made last →
      Rule node state fragment (account.add made) last
  | folded {node callee decl bindings state inner own marked own' outer altered atom supply} :
      setting.program.Instantiates node callee decl bindings →
      splitAt callee state.scopes = some (inner, own, outer) →
      alteredChannels setting.program inner bindings (decl.visibleParams.filter (·.isChannel)) =
        .ok altered →
      Walk.marked setting.program node decl altered own = .ok marked →
      marked.recursionAtomFrom state.supply (.recursion callee) = (atom, own', supply) →
      Rule node state (some (.ref atom.id)) (.minted state.supply supply)
        { state with
          supply, scopes := inner ++ own' :: outer
          history := state.history ++ [.folded callee atom altered] }
  | builtin {node callee decl bindings state fragment} :
      setting.program.Instantiates node callee decl bindings →
      splitAt callee state.scopes = none → decl.body = none →
      builtin? decl.name = some fragment → Rule node state fragment {} state
  | supplied {node callee decl bindings state traces renamed account last} :
      setting.program.Instantiates node callee decl bindings →
      splitAt callee state.scopes = none → (decl.body = none → builtin? decl.name = none) →
      Supplies setting visits callee decl bindings state traces account last →
      bindings.applySet setting.program traces = .ok renamed →
      Rule node state renamed.toChoice account last
  | unresolved {node callee decl bindings state scope outer written} :
      setting.program.Instantiates node callee decl bindings →
      splitAt callee state.scopes = none → decl.body = none → builtin? decl.name = none →
      decl.contract = none → state.store.get? callee = none →
      setting.program.spannedConstruct node = .ok written → state.scopes = scope :: outer →
      Rule node state (some (.unresolved node)) {}
        { state with scopes := scope.report (unknownCallee decl written.span) :: outer }

end Rules

/-- Walks that nest at most `depth` deep. -/
def YieldsWithin (setting : Setting) : Nat → Table
  | 0 => fun _ _ _ _ _ => False
  | depth + 1 => Rule setting (YieldsWithin setting depth)

/-- Checking a unit. -/
inductive UnitYields (setting : Setting) : ProgramUnit → WalkState → TraceSet → Account →
    WalkState → Prop
  | proc {callee state traces account last} :
      Completes setting (YieldsWithin setting (depthBound setting.program)) callee none state traces
        account last →
      UnitYields setting (.proc callee) state traces.computed account last
  | process {node state fragment account scope outer mid} :
      YieldsWithin setting (depthBound setting.program) node
        (state.enter { owner := .process node }) fragment account mid →
      mid.scopes = scope :: outer →
      UnitYields setting (.process node) state (.single (finish setting (fragment.getD .skip)))
        (account.add { own := { published := scope.diagnostics } })
        ({ mid with scopes := outer }.publish scope.diagnostics)

end Walk

end ProcessContracts
