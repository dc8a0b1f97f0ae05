import Mathlib.Data.List.ReduceOption
import ProcessContracts.Proofs.Componentwise
import ProcessContracts.Proofs.Computations
import ProcessContracts.Walk.Constructs

/-!
# Plans of constructs

What a construct is walked for can be read off the program: which of its parts are walked and what
is made of their fragments. Guards, counts and channels are asked in advance. An instance is the one
construct without a plan.
-/

namespace ProcessContracts

/-- What a construct contributes. -/
inductive Made where
  | nothing
  | plain (t : Trace)
  /-- The trace again and again, composed with the next round. -/
  | again (origin : Origin) (op : Operator) (t : Trace)
  /-- The same for any number of rounds. -/
  | repeated (origin : Origin) (op : Operator) (t : Trace)

namespace Made

/-- How many atoms it takes. -/
def size : Made → Nat
  | .nothing | .plain _ => 0
  | .again _ _ _ | .repeated _ _ _ => 1

@[simp] theorem size_nothing : size .nothing = 0 := rfl

@[simp] theorem size_plain (t : Trace) : (plain t).size = 0 := rfl

/-- The fragment, once `n` atoms are minted. -/
def fragment (n : Nat) : Made → Option Trace
  | .nothing => none
  | .plain t => some t
  | .again origin op t => some (.fix ⟨⟨n⟩, origin⟩ (.comp op [t, .ref ⟨n⟩]))
  | .repeated origin op t =>
      some (.fix ⟨⟨n⟩, origin⟩ (.comp .ndet [.skip, .comp op [t, .ref ⟨n⟩]]))

/-- The trace it is made of. -/
def trace? : Made → Option Trace
  | .nothing => none
  | .plain t | .again _ _ t | .repeated _ _ t => some t

def ofOption : Option Trace → Made
  | none => .nothing
  | some t => .plain t

end Made

structure Plan where
  /-- The parts that are walked, in order. -/
  parts : List NodeId := []
  /-- What is made of their fragments. -/
  make : List (Option Trace) → Made

namespace Plan

def skipped : Plan := ⟨[], fun _ => .nothing⟩

def leaf (t : Trace) : Plan := ⟨[], fun _ => .plain t⟩

/-- The plan of a construct with one part. -/
def wrap (part : NodeId) (make : Option Trace → Made) : Plan :=
  ⟨[part], fun fragments => make (fragments.head?.join)⟩

/-- The bodies of the arms that may be taken, and whether the last of them surely is. -/
def taken (setting : Setting) : List CondArm → Lookup (List NodeId × Bool)
  | [] => pure ([], false)
  | arm :: arms => do
      let truth ← setting.program.constantTruth arm.guard
      if truth = some false then taken setting arms
      else if truth = some true then pure ([arm.body], true)
      else do
        let (bodies, sure) ← taken setting arms
        pure (arm.body :: bodies, sure)

/-- The channel an arm of an alternation waits for, if it waits. -/
def awaited (setting : Setting) (arm : AltArm) : Lookup (Option ChanRef) :=
  match arm.trigger with
  | .skip => pure none
  | .input expr => do pure (some (← ChanRef.ofExpr setting.program expr))

def isDisabled (setting : Setting) (arm : AltArm) : Lookup Bool :=
  match arm.precondition with
  | some guard => do pure ((← setting.program.constantTruth guard) = some false)
  | none => pure false

/-- The arms that may be enabled, each with the channel it waits for. -/
def enabled (setting : Setting) : List AltArm → Lookup (List (NodeId × Option ChanRef))
  | [] => pure []
  | arm :: arms => do
      if ← isDisabled setting arm then enabled setting arms
      else do
        let chan ← awaited setting arm
        pure ((arm.body, chan) :: (← enabled setting arms))

/-- What an arm does that waits for a channel. -/
def choice (chan : Option ChanRef) (body : Option Trace) : Trace :=
  match chan, body with
  | none, body => body.getD .skip
  | some chan, some body => .comp .seq [.event .input chan, body]
  | some chan, none => .event .input chan

def choices (arms : List (NodeId × Option ChanRef)) (fragments : List (Option Trace)) :
    List Trace :=
  List.zipWith choice (arms.map (·.2)) fragments

def alternation (arms : List (NodeId × Option ChanRef)) : Plan :=
  ⟨arms.map (·.1), fun fragments =>
    match choices arms fragments with
    | [] => .plain .stop
    | choices => .plain (.comp .det choices)⟩

def replication (setting : Setting) (node : NodeId) (mode : Mode) (body : NodeId)
    (folded : Option Int64) : Plan :=
  if folded.any (·.toInt ≤ 0) then skipped
  else wrap body fun
    | none => .nothing
    | some t =>
        match Walk.unrolling setting folded with
        | some n => .plain (.comp mode.operator (List.replicate n t))
        | none => .repeated (.replication node) mode.operator t

def rounds (node : NodeId) (body : NodeId) (truth : Option Bool) : Plan :=
  match truth with
  | some false => skipped
  | some true => wrap body fun
      | none => .plain .div
      | some t => .again (.loop node) .seq t
  | none => wrap body fun fragment => .again (.loop node) .ndet (fragment.getD .skip)

def condOne (body : NodeId) (truth : Option Bool) : Plan :=
  if truth = some false then skipped
  else wrap body fun
    | none => .nothing
    | some t => if truth = some true then .plain t else .plain (.comp .ndet [t, .skip])

def alternatives (sure : Bool) (fragments : List (Option Trace)) : List Trace :=
  fragments.map (·.getD .skip) ++ if sure then [] else [.skip]

def conditional (arms : List NodeId × Bool) : Plan :=
  ⟨arms.1, fun fragments => .plain (Trace.collapse .ndet (alternatives arms.2 fragments))⟩

end Plan

open Plan in
/-- The plan of a construct that is not an instance. -/
def Construct.plan (setting : Setting) (node : NodeId) : Construct → Lookup (Option Plan)
  | .skip => pure (some (leaf .skip))
  | .stop => pure (some (leaf .stop))
  | .input expr => do
      pure (some (leaf (.event .input (← ChanRef.ofExpr setting.program expr))))
  | .output expr => do
      pure (some (leaf (.event .output (← ChanRef.ofExpr setting.program expr))))
  | .assign _ _ => pure (some skipped)
  | .compose mode children =>
      pure (some ⟨children, fun fragments => .plain (.comp mode.operator fragments.reduceOption)⟩)
  | .replicate mode count body => do
      pure (some (replication setting node mode body (← setting.program.constantValue count)))
  | .loop guard body => do
      pure (some (rounds node body (← setting.program.constantTruth guard)))
  | .cond [arm] => do
      pure (some (condOne arm.body (← setting.program.constantTruth arm.guard)))
  | .cond arms => do pure (some (conditional (← taken setting arms)))
  | .alt arms => do pure (some (alternation (← enabled setting arms)))
  | .call _ _ => pure none
  | .block _ body => pure (some (wrap body Made.ofOption))

/-- Which constructs have which plans. -/
inductive Construct.Planned (setting : Setting) (node : NodeId) : Construct → Plan → Prop where
  | skip : Planned setting node .skip (.leaf .skip)
  | stop : Planned setting node .stop (.leaf .stop)
  | input {expr : ExprId} {chan : ChanRef}
      (hchan : ChanRef.ofExpr setting.program expr = .ok chan) :
      Planned setting node (.input expr) (.leaf (.event .input chan))
  | output {expr : ExprId} {chan : ChanRef}
      (hchan : ChanRef.ofExpr setting.program expr = .ok chan) :
      Planned setting node (.output expr) (.leaf (.event .output chan))
  | assign {target value : ExprId} : Planned setting node (.assign target value) .skipped
  | compose {mode : Mode} {children : List NodeId} :
      Planned setting node (.compose mode children)
        ⟨children, fun fragments => .plain (.comp mode.operator fragments.reduceOption)⟩
  | replicate {mode : Mode} {count : ExprId} {body : NodeId} {folded : Option Int64}
      (hfolded : setting.program.constantValue count = .ok folded) :
      Planned setting node (.replicate mode count body) (.replication setting node mode body folded)
  | loop {guard : ExprId} {body : NodeId} {truth : Option Bool}
      (htruth : setting.program.constantTruth guard = .ok truth) :
      Planned setting node (.loop guard body) (.rounds node body truth)
  | condOne {arm : CondArm} {truth : Option Bool}
      (htruth : setting.program.constantTruth arm.guard = .ok truth) :
      Planned setting node (.cond [arm]) (.condOne arm.body truth)
  | cond {arms : List CondArm} {taken : List NodeId × Bool} (hmany : arms.length ≠ 1)
      (htaken : Plan.taken setting arms = .ok taken) :
      Planned setting node (.cond arms) (.conditional taken)
  | alt {arms : List AltArm} {enabled : List (NodeId × Option ChanRef)}
      (henabled : Plan.enabled setting arms = .ok enabled) :
      Planned setting node (.alt arms) (.alternation enabled)
  | block {locals : List NameId} {body : NodeId} :
      Planned setting node (.block locals body) (.wrap body Made.ofOption)

theorem Construct.planned_of_plan {setting : Setting} {node : NodeId} {construct : Construct}
    {plan : Plan} (h : construct.plan setting node = .ok (some plan)) :
    construct.Planned setting node plan := by
  cases construct with
  | skip =>
      obtain rfl := Option.some.inj (Except.ok.inj h)
      exact .skip
  | stop =>
      obtain rfl := Option.some.inj (Except.ok.inj h)
      exact .stop
  | input expr =>
      obtain ⟨chan, hchan, h⟩ := Lookup.bind_eq_ok.1 h
      obtain rfl := Option.some.inj (Except.ok.inj h)
      exact .input hchan
  | output expr =>
      obtain ⟨chan, hchan, h⟩ := Lookup.bind_eq_ok.1 h
      obtain rfl := Option.some.inj (Except.ok.inj h)
      exact .output hchan
  | assign target value =>
      obtain rfl := Option.some.inj (Except.ok.inj h)
      exact .assign
  | compose mode children =>
      obtain rfl := Option.some.inj (Except.ok.inj h)
      exact .compose
  | replicate mode count body =>
      obtain ⟨folded, hfolded, h⟩ := Lookup.bind_eq_ok.1 h
      obtain rfl := Option.some.inj (Except.ok.inj h)
      exact .replicate hfolded
  | loop guard body =>
      obtain ⟨truth, htruth, h⟩ := Lookup.bind_eq_ok.1 h
      obtain rfl := Option.some.inj (Except.ok.inj h)
      exact .loop htruth
  | cond arms =>
      match arms with
      | [arm] =>
          obtain ⟨truth, htruth, h⟩ := Lookup.bind_eq_ok.1 h
          obtain rfl := Option.some.inj (Except.ok.inj h)
          exact .condOne htruth
      | [] | _ :: _ :: _ =>
          obtain ⟨taken, htaken, h⟩ := Lookup.bind_eq_ok.1 h
          obtain rfl := Option.some.inj (Except.ok.inj h)
          exact .cond (by simp) htaken
  | alt arms =>
      obtain ⟨enabled, henabled, h⟩ := Lookup.bind_eq_ok.1 h
      obtain rfl := Option.some.inj (Except.ok.inj h)
      exact .alt henabled
  | call => cases h
  | block locals body =>
      obtain rfl := Option.some.inj (Except.ok.inj h)
      exact .block

/-! ## What a plan walks -/

section Parts

variable {setting : Setting} {node part : NodeId} {construct : Construct} {plan : Plan}

theorem Plan.body_of_taken {arms : List CondArm} {taken : List NodeId × Bool}
    (h : Plan.taken setting arms = .ok taken) (hpart : part ∈ taken.1) :
    ∃ arm ∈ arms, arm.body = part := by
  induction arms generalizing taken with
  | nil =>
      obtain rfl := Except.ok.inj h
      cases hpart
  | cons arm arms ih =>
      have htail : ∀ {taken}, Plan.taken setting arms = .ok taken → part ∈ taken.1 →
          ∃ other ∈ arm :: arms, other.body = part := fun h hpart =>
        (ih h hpart).imp fun other hother => hother.imp_left (List.mem_cons_of_mem _)
      obtain ⟨truth, -, h⟩ := Lookup.bind_eq_ok.1 h
      split at h
      · exact htail h hpart
      · split at h
        · obtain rfl := Except.ok.inj h
          exact ⟨arm, List.mem_cons_self, (List.mem_singleton.1 hpart).symm⟩
        · obtain ⟨rest, hrest, h⟩ := Lookup.bind_eq_ok.1 h
          obtain rfl := Except.ok.inj h
          rcases List.mem_cons.1 hpart with rfl | hpart
          · exact ⟨arm, List.mem_cons_self, rfl⟩
          · exact htail hrest hpart

theorem Plan.body_of_enabled {arms : List AltArm} {enabled : List (NodeId × Option ChanRef)}
    (h : Plan.enabled setting arms = .ok enabled) (hpart : part ∈ enabled.map (·.1)) :
    ∃ arm ∈ arms, arm.body = part := by
  induction arms generalizing enabled with
  | nil =>
      obtain rfl := Except.ok.inj h
      cases hpart
  | cons arm arms ih =>
      have htail : ∀ {enabled}, Plan.enabled setting arms = .ok enabled →
          part ∈ enabled.map (·.1) → ∃ other ∈ arm :: arms, other.body = part := fun h hpart =>
        (ih h hpart).imp fun other hother => hother.imp_left (List.mem_cons_of_mem _)
      obtain ⟨isDisabled, -, h⟩ := Lookup.bind_eq_ok.1 h
      split at h
      · exact htail h hpart
      · obtain ⟨chan, -, h⟩ := Lookup.bind_eq_ok.1 h
        obtain ⟨rest, hrest, h⟩ := Lookup.bind_eq_ok.1 h
        obtain rfl := Except.ok.inj h
        rcases List.mem_cons.1 hpart with rfl | hpart
        · exact ⟨arm, List.mem_cons_self, rfl⟩
        · exact htail hrest hpart

/-- Only what is written in a construct is walked for it. -/
theorem mem_children_of_plan (h : construct.plan setting node = .ok (some plan))
    (hpart : part ∈ plan.parts) : part ∈ construct.children := by
  have hskipped : part ∉ Plan.skipped.parts := List.not_mem_nil
  cases Construct.planned_of_plan h with
  | skip | stop | input | output | assign => exact absurd hpart hskipped
  | compose | block => exact hpart
  | replicate =>
      unfold Plan.replication at hpart
      split at hpart
      · exact absurd hpart hskipped
      · exact hpart
  | loop =>
      unfold Plan.rounds at hpart
      split at hpart
      · exact absurd hpart hskipped
      · exact hpart
      · exact hpart
  | condOne =>
      unfold Plan.condOne at hpart
      split at hpart
      · exact absurd hpart hskipped
      · exact hpart
  | cond _ htaken =>
      obtain ⟨arm, harm, rfl⟩ := Plan.body_of_taken htaken hpart
      exact List.mem_map_of_mem harm
  | alt henabled =>
      obtain ⟨arm, harm, rfl⟩ := Plan.body_of_enabled henabled hpart
      exact List.mem_map_of_mem harm

/-- What a construct with one part makes is made of the fragment of that part. -/
theorem Plan.exists_of_wrap {make : Option Trace → Made} {fragments : List (Option Trace)}
    {t : Trace} (ht : ((Plan.wrap part make).make fragments).trace? = some t) :
    ∃ fragment, (∀ u, fragment = some u → some u ∈ fragments) ∧
      (make fragment).trace? = some t := by
  refine ⟨_, fun u hu => ?_, ht⟩
  cases fragments with
  | nil => cases hu
  | cons fragment fragments => exact hu ▸ List.mem_cons_self

end Parts

/-! ## What a plan makes -/

/-- A property that goes by components and that a construct's own parts have. -/
structure Fragmentary (p : Trace → Prop) : Prop extends Trace.Componentwise p where
  div : p .div
  event : ∀ direction chan, p (.event direction chan)
  again : ∀ {binder op t}, p t → p (.fix binder (.comp op [t, .ref binder.id]))
  repeated : ∀ {binder op t}, p t →
    p (.fix binder (.comp .ndet [.skip, .comp op [t, .ref binder.id]]))

namespace Fragmentary

variable {p : Trace → Prop} (hp : Fragmentary p)
include hp

theorem fragment {made : Made} (h : ∀ t, made.trace? = some t → p t) {n : Nat} {t : Trace}
    (ht : made.fragment n = some t) : p t := by
  cases made with
  | nothing => cases ht
  | plain u =>
      obtain rfl := Option.some.inj ht
      exact h _ rfl
  | again origin op u =>
      obtain rfl := Option.some.inj ht
      exact hp.again (h _ rfl)
  | repeated origin op u =>
      obtain rfl := Option.some.inj ht
      exact hp.repeated (h _ rfl)

theorem getD {fragment : Option Trace} (h : ∀ t, fragment = some t → p t) :
    p (fragment.getD .skip) := by
  cases fragment with
  | none => exact hp.skip
  | some t => exact h t rfl

theorem toChoice {traces : TraceSet} (h : ∀ t ∈ traces.alternatives, p t) {t : Trace}
    (ht : traces.toChoice = some t) : p t := by
  unfold TraceSet.toChoice at ht
  split at ht
  case h_1 => cases ht
  case h_2 u heq =>
    obtain rfl := Option.some.inj ht
    exact h _ (heq ▸ List.mem_singleton_self _)
  case h_3 => exact Option.some.inj ht ▸ hp.comp.2 h

theorem choice {chan : Option ChanRef} {body : Option Trace} (h : ∀ t, body = some t → p t) :
    p (Plan.choice chan body) := by
  cases chan with
  | none => exact hp.getD h
  | some chan =>
      cases body with
      | none => exact hp.event _ _
      | some t =>
          refine hp.comp.2 (List.forall_mem_cons.2 ⟨hp.event _ _, ?_⟩)
          exact List.forall_mem_singleton.2 (h t rfl)

variable {setting : Setting} {node : NodeId} {fragments : List (Option Trace)}

theorem choices {arms : List (NodeId × Option ChanRef)} (h : ∀ t, some t ∈ fragments → p t) :
    ∀ t ∈ Plan.choices arms fragments, p t := by
  intro t ht
  obtain ⟨chan, hchan, body, hbody, rfl⟩ : ∃ chan ∈ arms.map (·.2), ∃ body ∈ fragments,
      Plan.choice chan body = t := by
    unfold Plan.choices at ht
    rw [← List.map_uncurry_zip_eq_zipWith] at ht
    obtain ⟨⟨chan, body⟩, hmem, rfl⟩ := List.mem_map.1 ht
    exact ⟨chan, (List.of_mem_zip hmem).1, body, (List.of_mem_zip hmem).2, rfl⟩
  exact hp.choice fun u hu => h u (hu ▸ hbody)

theorem alternatives (sure : Bool) (h : ∀ t, some t ∈ fragments → p t) :
    ∀ t ∈ Plan.alternatives sure fragments, p t := by
  intro t ht
  rcases List.mem_append.1 ht with ht | ht
  · obtain ⟨f, hf, rfl⟩ := List.mem_map.1 ht
    exact hp.getD fun u hu => h u (hu ▸ hf)
  · cases sure with
    | true => cases ht
    | false => exact List.mem_singleton.1 ht ▸ hp.skip

section Makes

variable {body : NodeId} {t : Trace} (h : ∀ t, some t ∈ fragments → p t)
include h

theorem replication {mode : Mode} {folded : Option Int64}
    (ht : ((Plan.replication setting node mode body folded).make fragments).trace? = some t) :
    p t := by
  unfold Plan.replication at ht
  split at ht
  · cases ht
  · obtain ⟨fragment, hfragment, ht⟩ := Plan.exists_of_wrap ht
    cases fragment with
    | none => cases ht
    | some inner =>
        have hinner := h inner (hfragment inner rfl)
        dsimp only at ht
        split at ht
        · exact Option.some.inj ht ▸ hp.comp.2 fun u hu => List.eq_of_mem_replicate hu ▸ hinner
        · exact Option.some.inj ht ▸ hinner

theorem rounds {truth : Option Bool}
    (ht : ((Plan.rounds node body truth).make fragments).trace? = some t) : p t := by
  unfold Plan.rounds at ht
  split at ht
  · cases ht
  · obtain ⟨fragment, hfragment, ht⟩ := Plan.exists_of_wrap ht
    cases fragment with
    | none => exact Option.some.inj ht ▸ hp.div
    | some inner => exact Option.some.inj ht ▸ h inner (hfragment inner rfl)
  · obtain ⟨fragment, hfragment, ht⟩ := Plan.exists_of_wrap ht
    exact Option.some.inj ht ▸ hp.getD fun u hu => h u (hfragment u hu)

theorem condOne {truth : Option Bool}
    (ht : ((Plan.condOne body truth).make fragments).trace? = some t) : p t := by
  unfold Plan.condOne at ht
  split at ht
  · cases ht
  · obtain ⟨fragment, hfragment, ht⟩ := Plan.exists_of_wrap ht
    cases fragment with
    | none => cases ht
    | some inner =>
        have hinner := h inner (hfragment inner rfl)
        dsimp only at ht
        split at ht
        · exact Option.some.inj ht ▸ hinner
        · refine Option.some.inj ht ▸ hp.comp.2 (List.forall_mem_cons.2 ⟨hinner, ?_⟩)
          exact List.forall_mem_singleton.2 hp.skip

theorem alternation {arms : List (NodeId × Option ChanRef)}
    (ht : ((Plan.alternation arms).make fragments).trace? = some t) : p t := by
  unfold Plan.alternation at ht
  dsimp only at ht
  split at ht
  · exact Option.some.inj ht ▸ hp.stop
  · exact Option.some.inj ht ▸ hp.comp.2 (hp.choices h)

end Makes

/-- What a construct makes of fragments with the property has the property. -/
theorem make {construct : Construct} {plan : Plan}
    (hplan : construct.plan setting node = .ok (some plan))
    (h : ∀ t, some t ∈ fragments → p t) {n : Nat} {t : Trace}
    (ht : (plan.make fragments).fragment n = some t) : p t := by
  refine hp.fragment (fun u hu => ?_) ht
  cases Construct.planned_of_plan hplan with
  | skip => exact Option.some.inj hu ▸ hp.skip
  | stop => exact Option.some.inj hu ▸ hp.stop
  | input | output => exact Option.some.inj hu ▸ hp.event _ _
  | assign => cases hu
  | compose =>
      exact Option.some.inj hu ▸ hp.comp.2 fun v hv => h v (List.reduceOption_mem_iff.1 hv)
  | replicate => exact hp.replication h hu
  | loop => exact hp.rounds h hu
  | condOne => exact hp.condOne h hu
  | cond => exact Option.some.inj hu ▸ hp.collapse (hp.alternatives _ h)
  | alt => exact hp.alternation h hu
  | block =>
      obtain ⟨fragment, hfragment, hu⟩ := Plan.exists_of_wrap hu
      cases fragment with
      | none => cases hu
      | some inner => exact Option.some.inj hu ▸ h inner (hfragment inner rfl)

end Fragmentary

end ProcessContracts
