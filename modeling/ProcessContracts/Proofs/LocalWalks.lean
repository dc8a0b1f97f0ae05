import ProcessContracts.Proofs.Bookkeeping

/-!
# What a node does for its own procedure

Given what its callees do, a node changes nothing but the scope of its own procedure. The rules here
say how, with the traces of callees looked up in a store that is complete. They do not say when a
callee is walked nor which atoms are next, so they are the same in whatever order procedures are
checked. Where no procedure is on a cycle of calls with another one, every walk follows them.
-/

namespace ProcessContracts

/-- The contract can be lowered. Whether it can does not depend on the supply. -/
def Contract.CanLower (program : Program) (callee : DeclId) (contract : Contract) : Prop :=
  ∃ first t last, (contract.lower program callee).run first = .ok t last

/-- Something is known about what the procedure does. -/
def Decl.IsKnown (program : Program) (callee : DeclId) (decl : Decl) : Prop :=
  decl.body.isSome = true ∨
    ∃ contract, decl.contract = some contract ∧ contract.value.CanLower program callee

namespace Decl.IsKnown

variable {program : Program} {callee : DeclId} {decl : Decl}

theorem contract_ne_none (h : decl.IsKnown program callee) (hbody : decl.body = none) :
    decl.contract ≠ none := by
  intro hcontract
  rcases h with hsome | ⟨_, hsome, -⟩
  · rw [hbody] at hsome
    cases hsome
  · cases hcontract.symm.trans hsome

theorem asked (h : decl.IsKnown program callee) :
    (decl.body.isSome || decl.contract.isSome) = true := by
  rcases h with hbody | ⟨contract, hcontract, -⟩
  · rw [hbody, Bool.true_or]
  · rw [hcontract, Option.isSome_some, Bool.or_true]

end Decl.IsKnown

namespace Walk

/-! ## Rules -/

/-- What comes of checking a procedure: its traces are in the store, or nothing is known of it. -/
inductive Obtains (program : Program) (store : TraceStore) (callee : DeclId) (decl : Decl) :
    TraceSet → Share → Prop
  | known {traces} : decl.IsKnown program callee → store.get? callee = some traces →
      Obtains program store callee decl traces {}
  | undeclared : decl.body = none → decl.contract = none → Obtains program store callee decl {} {}
  /-- The contract of a procedure without a body cannot be lowered. -/
  | unbound {contract name supply supply'} : decl.body = none → decl.contract = some contract →
      (contract.value.lower program callee).run supply = .error (.unbound name) supply' →
      Obtains program store callee decl {}
        ⟨supply.upTo supply', [(unboundVariable name).atContract callee contract.span]⟩

/-- The fragment and the share of walking a node in the scope of its procedure, and what becomes of
the scope. -/
abbrev LocalTable := NodeId → Scope → Option Trace → Share → Scope → Prop

section Rules

variable (setting : Setting) (store : TraceStore) (unit : ProgramUnit) (visits : LocalTable)

/-- Nodes one after the other. -/
inductive LocalSeries : List NodeId → Scope → List (Option Trace) → Share → Scope → Prop
  | nil (scope : Scope) : LocalSeries [] scope [] {} scope
  | cons {node nodes scope fragment here mid fragments rest last} :
      visits node scope fragment here mid → LocalSeries nodes mid fragments rest last →
      LocalSeries (node :: nodes) scope (fragment :: fragments) (here.add rest) last

/-- Walking a node of a unit, given how the nodes below it are walked. -/
inductive LocalRule : NodeId → Scope → Option Trace → Share → Scope → Prop
  | planned {node construct plan scope fragments share last} (supply : AtomSupply) :
      setting.program.HasNode node construct → construct.plan setting node = .ok (some plan) →
      LocalSeries visits plan.parts scope fragments share last →
      LocalRule node scope ((plan.make fragments).fragment supply.minted)
        (share.add { atoms := supply.upTo (supply.more (plan.make fragments).size) }) last
  /-- An instance of the procedure itself. -/
  | folded {node callee decl bindings own altered marked supply atom own' supply'} :
      unit = .proc callee → setting.program.Instantiates node callee decl bindings →
      alteredChannels setting.program [] bindings (decl.visibleParams.filter (·.isChannel)) =
        .ok altered →
      Walk.marked setting.program node decl altered own = .ok marked →
      marked.recursionAtomFrom supply (.recursion callee) = (atom, own', supply') →
      LocalRule node own (some (.ref atom.id)) { atoms := supply.upTo supply' } own'
  | builtin {node callee decl bindings scope fragment} :
      unit ≠ .proc callee → setting.program.Instantiates node callee decl bindings →
      decl.body = none → builtin? decl.name = some fragment →
      LocalRule node scope fragment {} scope
  | supplied {node callee decl bindings scope traces share renamed} :
      unit ≠ .proc callee → setting.program.Instantiates node callee decl bindings →
      (decl.body = none → builtin? decl.name = none) →
      (decl.body.isSome || decl.contract.isSome) = true →
      Obtains setting.program store callee decl traces share →
      bindings.applySet setting.program traces = .ok renamed →
      LocalRule node scope renamed.toChoice share scope
  | unresolved {node callee decl bindings scope written} :
      unit ≠ .proc callee → setting.program.Instantiates node callee decl bindings →
      decl.body = none → builtin? decl.name = none → decl.contract = none →
      setting.program.spannedConstruct node = .ok written →
      LocalRule node scope (some (.unresolved node)) {}
        (scope.report (unknownCallee decl written.span))

end Rules

/-- Walks that nest at most `depth` deep inside their procedure. -/
def LocalWithin (setting : Setting) (store : TraceStore) (unit : ProgramUnit) : Nat → LocalTable
  | 0 => fun _ _ _ _ _ => False
  | depth + 1 => LocalRule setting store unit (LocalWithin setting store unit depth)

/-- The part is walked for the node. -/
def HasPart (setting : Setting) (node part : NodeId) : Prop :=
  ∃ construct plan, setting.program.HasNode node construct ∧
    construct.plan setting node = .ok (some plan) ∧ part ∈ plan.parts

/-! ## Stores and depths -/

section Depths

variable {setting : Setting} {store store' : TraceStore} {unit : ProgramUnit}
  {visits visits' : LocalTable} {node part : NodeId} {nodes : List NodeId} {scope last : Scope}
  {fragment : Option Trace} {fragments : List (Option Trace)} {share : Share} {depth : Nat}

theorem Obtains.later {program : Program} {callee : DeclId} {decl : Decl} {traces : TraceSet}
    (hstore : store.StaysIn store') (h : Obtains program store callee decl traces share) :
    Obtains program store' callee decl traces share := by
  cases h with
  | known hknown hget => exact .known hknown (hstore _ _ hget)
  | undeclared hbody hcontract => exact .undeclared hbody hcontract
  | unbound hbody hcontract hlower => exact .unbound hbody hcontract hlower

theorem LocalSeries.imp (hvisits : ∀ part ∈ nodes, ∀ scope fragment share last,
      visits part scope fragment share last → visits' part scope fragment share last)
    (h : LocalSeries visits nodes scope fragments share last) :
    LocalSeries visits' nodes scope fragments share last := by
  induction h with
  | nil scope => exact .nil scope
  | cons hnode _ ih =>
      obtain ⟨hfirst, hnodes⟩ := List.forall_mem_cons.1 hvisits
      exact .cons (hfirst _ _ _ _ hnode) (ih hnodes)

/-- In a store that has more traces, and with walks that do more, the same is done. -/
theorem LocalRule.imp (hstore : store.StaysIn store')
    (hvisits : ∀ part, HasPart setting node part → ∀ scope fragment share last,
      visits part scope fragment share last → visits' part scope fragment share last)
    (h : LocalRule setting store unit visits node scope fragment share last) :
    LocalRule setting store' unit visits' node scope fragment share last := by
  cases h with
  | planned supply hnode hplan hseries =>
      exact .planned supply hnode hplan
        (hseries.imp fun part hpart => hvisits part ⟨_, _, hnode, hplan, hpart⟩)
  | folded hunit hinstance haltered hmarked hatom =>
      exact .folded hunit hinstance haltered hmarked hatom
  | builtin hunit hinstance hbody hname => exact .builtin hunit hinstance hbody hname
  | supplied hunit hinstance hname hasked hobtains happly =>
      exact .supplied hunit hinstance hname hasked (hobtains.later hstore) happly
  | unresolved hunit hinstance hbody hname hcontract hwritten =>
      exact .unresolved hunit hinstance hbody hname hcontract hwritten

theorem LocalWithin.later (hstore : store.StaysIn store')
    (h : LocalWithin setting store unit depth node scope fragment share last) :
    LocalWithin setting store' unit depth node scope fragment share last := by
  induction depth generalizing node scope fragment share last with
  | zero => exact h.elim
  | succ depth ih => exact LocalRule.imp hstore (fun _ _ _ _ _ _ hpart => ih hpart) h

theorem LocalRule.exists_construct
    (h : LocalRule setting store unit visits node scope fragment share last) :
    ∃ construct, setting.program.HasNode node construct := by
  cases h with
  | planned _ hnode => exact ⟨_, hnode⟩
  | folded _ hinstance | builtin _ hinstance | supplied _ hinstance | unresolved _ hinstance =>
      obtain ⟨args, hnode, -⟩ := hinstance
      exact ⟨_, hnode⟩

theorem LocalSeries.exists_visit (h : LocalSeries visits nodes scope fragments share last)
    (hpart : part ∈ nodes) :
    ∃ scope fragment share last, visits part scope fragment share last := by
  induction h with
  | nil => cases hpart
  | cons hnode _ ih =>
      rcases List.mem_cons.1 hpart with rfl | hpart
      · exact ⟨_, _, _, _, hnode⟩
      · exact ih hpart

/-- An instance has no plan. -/
theorem not_instantiates_of_plan {construct : Construct} {plan : Plan}
    (hnode : setting.program.HasNode node construct)
    (hplan : construct.plan setting node = .ok (some plan)) {callee : DeclId} {decl : Decl}
    {bindings : Substitution} : ¬ setting.program.Instantiates node callee decl bindings := by
  rintro ⟨args, hcall, -⟩
  obtain rfl := hnode.unique hcall
  cases hplan

/-- A node with a plan is walked as planned. -/
theorem LocalRule.of_plan {construct : Construct} {plan : Plan}
    (hnode : setting.program.HasNode node construct)
    (hplan : construct.plan setting node = .ok (some plan))
    (h : LocalRule setting store unit visits node scope fragment share last) :
    ∃ (supply : AtomSupply) (fragments : List (Option Trace)) (parts : Share),
      LocalSeries visits plan.parts scope fragments parts last ∧
      fragment = (plan.make fragments).fragment supply.minted ∧
      share = parts.add { atoms := supply.upTo (supply.more (plan.make fragments).size) } := by
  cases h with
  | planned supply hnode' hplan' hseries =>
      obtain rfl := hnode.unique hnode'
      obtain rfl := Option.some.inj (Except.ok.inj (hplan.symm.trans hplan'))
      exact ⟨supply, _, _, hseries, rfl, rfl⟩
  | folded _ hinstance | builtin _ hinstance | supplied _ hinstance | unresolved _ hinstance =>
      exact absurd hinstance (not_instantiates_of_plan hnode hplan)

/-- What is done for an instance. -/
inductive Treatment where
  | folded
  | builtin (fragment : Option Trace)
  | supplied
  | unresolved

/-- The unit and the procedure settle what is done for an instance. -/
def treatment (unit : ProgramUnit) (callee : DeclId) (decl : Decl) : Treatment :=
  if unit = .proc callee then .folded
  else
    match decl.body, builtin? decl.name, decl.contract with
    | some _, _, _ => .supplied
    | none, some fragment, _ => .builtin fragment
    | none, none, some _ => .supplied
    | none, none, none => .unresolved

theorem treatment_of_known {callee : DeclId} {decl : Decl} (hne : unit ≠ .proc callee)
    (hname : decl.body = none → builtin? decl.name = none)
    (hasked : (decl.body.isSome || decl.contract.isSome) = true) :
    treatment unit callee decl = .supplied := by
  rw [treatment, if_neg hne]
  cases hbody : decl.body with
  | some body => rfl
  | none =>
      rw [hbody] at hasked
      rw [hname hbody]
      cases hcontract : decl.contract with
      | some contract => rfl
      | none =>
          rw [hcontract] at hasked
          cases hasked

theorem builtin_of_treatment {callee : DeclId} {decl : Decl} {fragment : Option Trace}
    (h : treatment unit callee decl = .builtin fragment) : builtin? decl.name = some fragment := by
  unfold treatment at h
  split at h
  · cases h
  · split at h
    case h_2 heq =>
      obtain rfl := Treatment.builtin.inj h
      exact heq
    all_goals cases h

/-- The rules for instances exclude each other: which one applies can be told in advance. -/
theorem LocalRule.of_instance {callee : DeclId} {decl : Decl} {bindings : Substitution}
    (hinstance : setting.program.Instantiates node callee decl bindings)
    (h : LocalRule setting store unit visits node scope fragment share last) :
    match treatment unit callee decl with
    | .folded => ∃ altered marked supply atom supply',
        alteredChannels setting.program [] bindings (decl.visibleParams.filter (·.isChannel)) =
          .ok altered ∧
        Walk.marked setting.program node decl altered scope = .ok marked ∧
        marked.recursionAtomFrom supply (.recursion callee) = (atom, last, supply') ∧
        fragment = some (.ref atom.id) ∧ share = { atoms := supply.upTo supply' }
    | .builtin made => fragment = made ∧ share = {} ∧ last = scope
    | .supplied => ∃ traces renamed, Obtains setting.program store callee decl traces share ∧
        bindings.applySet setting.program traces = .ok renamed ∧ fragment = renamed.toChoice ∧
        last = scope
    | .unresolved => ∃ written, setting.program.spannedConstruct node = .ok written ∧
        fragment = some (.unresolved node) ∧ share = {} ∧
        last = scope.report (unknownCallee decl written.span) := by
  cases h with
  | planned _ hnode hplan => exact absurd hinstance (not_instantiates_of_plan hnode hplan)
  | folded hunit hinstance' haltered hmarked hatom =>
      obtain ⟨rfl, rfl, rfl⟩ := hinstance.unique hinstance'
      rw [treatment, if_pos hunit]
      exact ⟨_, _, _, _, _, haltered, hmarked, hatom, rfl, rfl⟩
  | builtin hne hinstance' hbody hname =>
      obtain ⟨rfl, rfl, rfl⟩ := hinstance.unique hinstance'
      rw [treatment, if_neg hne, hbody, hname]
      exact ⟨rfl, rfl, rfl⟩
  | supplied hne hinstance' hname hasked hobtains happly =>
      obtain ⟨rfl, rfl, rfl⟩ := hinstance.unique hinstance'
      rw [treatment_of_known hne hname hasked]
      exact ⟨_, _, hobtains, happly, rfl, rfl⟩
  | unresolved hne hinstance' hbody hname hcontract hwritten =>
      obtain ⟨rfl, rfl, rfl⟩ := hinstance.unique hinstance'
      rw [treatment, if_neg hne, hbody, hname, hcontract]
      exact ⟨_, hwritten, rfl, rfl, rfl⟩

/-- Whatever is walked for a node that is walked is walked. -/
theorem LocalRule.exists_part
    (h : LocalRule setting store unit visits node scope fragment share last)
    (hpart : HasPart setting node part) :
    ∃ scope fragment share last, visits part scope fragment share last := by
  obtain ⟨construct, plan, hnode, hplan, hpart⟩ := hpart
  obtain ⟨_, _, _, hseries, -⟩ := h.of_plan hnode hplan
  exact hseries.exists_visit hpart

/-- A node that is walked is not walked for itself. -/
theorem LocalWithin.not_cyclic
    (h : LocalWithin setting store unit depth node scope fragment share last) :
    ¬ Relation.TransGen (HasPart setting) node node := by
  intro hcycle
  induction depth generalizing node scope fragment share last with
  | zero => exact h
  | succ depth ih =>
      obtain ⟨part, hpart, hback⟩ := Relation.TransGen.head'_iff.1 hcycle
      obtain ⟨_, _, _, _, hvisit⟩ := LocalRule.exists_part h hpart
      exact ih hvisit (Relation.TransGen.tail' hback hpart)

/-- Walks nest as deep as there are nodes: those above a node are all different. -/
theorem LocalWithin.shallow
    (h : LocalWithin setting store unit depth node scope fragment share last) :
    LocalWithin setting store unit setting.program.nodes.size node scope fragment share last := by
  suffices hbelow : ∀ above : List NodeId, above.Nodup →
      (∀ outer ∈ above, outer.index < setting.program.nodes.size) →
      (∀ outer ∈ above, Relation.TransGen (HasPart setting) outer node) →
      LocalWithin setting store unit (setting.program.nodes.size - above.length) node scope fragment
        share last from hbelow [] List.nodup_nil (by simp) (by simp)
  induction depth generalizing node scope fragment share last with
  | zero => exact h.elim
  | succ depth ih =>
      intro above hnodup hrange houter
      obtain ⟨construct, hnode⟩ := LocalRule.exists_construct h
      have hnew : node ∉ above := fun hmem => h.not_cyclic (houter node hmem)
      have hnodup' : (node :: above).Nodup := List.nodup_cons.2 ⟨hnew, hnodup⟩
      have hrange' : ∀ outer ∈ node :: above, outer.index < setting.program.nodes.size := by
        obtain ⟨written, hwritten, -⟩ := hnode
        exact List.forall_mem_cons.2
          ⟨of_decide_eq_true (Program.contains_of_construct hwritten), hrange⟩
      have hroom : (node :: above).length ≤ setting.program.nodes.size := by
        have hindices := StateSet.length_le_of_nodup_lt
          (hnodup'.map fun a b h => show a = b from congrArg NodeId.mk h)
          (List.forall_mem_map.2 hrange')
        rwa [List.length_map] at hindices
      have hsteps : setting.program.nodes.size - above.length =
          setting.program.nodes.size - (node :: above).length + 1 := by
        rw [List.length_cons] at hroom ⊢
        omega
      rw [hsteps]
      refine LocalRule.imp (fun _ _ => id) (fun part hpart _ _ _ _ hvisit => ?_) h
      refine ih hvisit (node :: above) hnodup' hrange' (List.forall_mem_cons.2 ⟨.single hpart, ?_⟩)
      exact fun outer hmem => (houter outer hmem).tail hpart

end Depths

end Walk

end ProcessContracts
