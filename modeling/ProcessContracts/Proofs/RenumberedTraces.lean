import ProcessContracts.Proofs.Plans
import ProcessContracts.Proofs.Renumbering
import ProcessContracts.Walk.Calls

/-!
# What is made of renumbered traces

Whatever a walk makes of traces it makes of renumbered ones as well, renumbered: simplified, hidden,
instantiated and composed, traces only tell atoms apart.
-/

namespace ProcessContracts

namespace Trace

variable {f g : AtomId → AtomId} {t u : Trace} {ts : List Trace}

theorem renumber_renumber (f g : AtomId → AtomId) (t : Trace) :
    (t.renumber f).renumber g = t.renumber (g ∘ f) := by
  induction t with
  | comp op ts ih =>
      simp only [renumber, renumberAll_eq_map, List.map_map, comp.injEq, true_and]
      exact List.map_congr_left ih
  | fix binder body ih => simp only [renumber, Atom.renumber, ih, Function.comp_apply]
  | _ => rfl

theorem renumber_id (t : Trace) : t.renumber id = t := by
  induction t with
  | comp op ts ih =>
      rw [renumber, renumberAll_eq_map, List.map_congr_left ih, List.map_id']
  | fix binder body ih => simp only [renumber, Atom.renumber, ih, id_eq]
  | _ => rfl

theorem renumber_injective (hf : f.Injective) : (renumber f).Injective := by
  have : Nonempty AtomId := ⟨⟨0⟩⟩
  obtain ⟨g, hg⟩ := hf.hasLeftInverse
  have hinverse : Function.LeftInverse (renumber g) (renumber f) := fun t => by
    rw [renumber_renumber, hg.comp_eq_id, renumber_id]
  exact hinverse.injective

theorem channels_renumber (f : AtomId → AtomId) (t : Trace) :
    (t.renumber f).channels = t.channels := by
  induction t with
  | comp op ts ih =>
      simp only [renumber, channels, renumberAll_eq_map, channelsAll_eq_flatMap, List.flatMap_map]
      exact List.flatMap_congr ih
  | fix binder body ih => exact ih
  | _ => rfl

theorem freeRefs_renumber (hf : f.Injective) (t : Trace) :
    (t.renumber f).freeRefs = t.freeRefs.map f := by
  induction t with
  | comp op ts ih =>
      simp only [renumber, freeRefs, renumberAll_eq_map, freeRefsAll_eq_flatMap, List.flatMap_map,
        List.map_flatMap]
      exact List.flatMap_congr ih
  | fix binder body ih =>
      rw [renumber, freeRefs, freeRefs, ih, List.filter_map]
      refine congrArg (List.map f) (List.filter_congr fun id _ => ?_)
      simp [Atom.renumber, hf.eq_iff]
  | _ => rfl

theorem refersTo_renumber (hf : f.Injective) (t : Trace) (id : AtomId) :
    (t.renumber f).refersTo (f id) = t.refersTo id := by
  rw [Bool.eq_iff_iff, refersTo_iff, refersTo_iff, freeRefs_renumber hf]
  exact List.mem_map_of_injective hf

theorem isClosed_renumber (hf : f.Injective) (t : Trace) :
    (t.renumber f).isClosed = t.isClosed := by
  rw [isClosed, isClosed, freeRefs_renumber hf, List.isEmpty_map]

/-! ## Simplification -/

theorem endsSequence_renumber (t : Trace) : endsSequence (t.renumber f) = endsSequence t := by
  cases t <;> rfl

theorem splice_renumber (op : Operator) (t : Trace) :
    splice op (t.renumber f) = (splice op t).map (renumber f) := by
  cases t with
  | comp inner ts =>
      rw [renumber, renumberAll_eq_map, splice, splice]
      split
      · rfl
      · rw [List.map_singleton, renumber, renumberAll_eq_map]
  | fix binder body => cases op <;> rfl
  | _ =>
      cases op <;> rfl

theorem through_renumber (ts : List Trace) : through endsSequence (ts.map (renumber f)) =
    (through endsSequence ts).map (renumber f) := by
  induction ts with
  | nil => rfl
  | cons t ts ih =>
      rw [List.map_cons, through, through, endsSequence_renumber, ih]
      split <;> rfl

theorem eraseDups_renumber (hf : f.Injective) (ts : List Trace) :
    (ts.map (renumber f)).eraseDups = ts.eraseDups.map (renumber f) := by
  generalize hn : ts.length = n
  induction n using Nat.strongRecOn generalizing ts with
  | ind n ih =>
      cases ts with
      | nil => rfl
      | cons t ts =>
          have hlen := List.length_filter_le (fun b => !b == t) ts
          rw [List.length_cons] at hn
          rw [List.map_cons, List.eraseDups_cons, List.eraseDups_cons, List.map_cons,
            List.filter_map, ← ih _ (by omega) (ts.filter fun b => !b == t) rfl]
          refine congrArg (fun us => t.renumber f :: (List.map (renumber f) us).eraseDups)
            (List.filter_congr fun u _ => ?_)
          simp [(renumber_injective hf).eq_iff]

theorem prune_renumber (hf : f.Injective) (op : Operator) (ts : List Trace) :
    prune op (ts.map (renumber f)) = (prune op ts).map (renumber f) := by
  cases op with
  | seq => exact through_renumber ts
  | par => rfl
  | det | ndet => exact eraseDups_renumber hf ts

theorem simplify_renumber (hf : f.Injective) (t : Trace) :
    (t.renumber f).simplify = t.simplify.renumber f := by
  induction t with
  | comp op ts ih =>
      have hspliced : ((ts.map (renumber f)).map simplify).flatMap (splice op) =
          ((ts.map simplify).flatMap (splice op)).map (renumber f) := by
        rw [List.map_map, List.flatMap_map, List.flatMap_map, List.map_flatMap]
        refine List.flatMap_congr fun t ht => ?_
        rw [Function.comp_apply, ih t ht, splice_renumber]
      rw [renumber, renumberAll_eq_map, simplify, simplify, simplifyAll_eq_map, simplifyAll_eq_map,
        hspliced, prune_renumber hf, (keepsOperators_renumber f).collapse]
  | fix binder body ih =>
      have hrefers : (body.simplify.renumber f).refersTo (binder.renumber f).id =
          body.simplify.refersTo binder.id := refersTo_renumber hf _ _
      rw [renumber, simplify, simplify, ih, hrefers]
      split <;> rfl
  | _ => rfl

/-! ## Channels -/

theorem hide_renumber (keep : ChanRef → Bool) (t : Trace) :
    (t.renumber f).hide keep = (t.hide keep).renumber f := by
  induction t with
  | event direction chan =>
      rw [renumber, hide]
      · split <;> rfl
      all_goals simp
  | comp op ts ih =>
      simp only [renumber, hide, renumberAll_eq_map, hideAll_eq_map, List.map_map, comp.injEq,
        true_and]
      exact List.map_congr_left ih
  | fix binder body ih => simp only [renumber, hide, ih]
  | _ => rfl

theorem mapChannels_renumber (h : ChanRef → ChanRef) (t : Trace) :
    (t.renumber f).mapChannels h = (t.mapChannels h).renumber f := by
  induction t with
  | comp op ts ih =>
      simp only [renumber, mapChannels, renumberAll_eq_map, mapChannelsAll_eq_map, List.map_map,
        comp.injEq, true_and]
      exact List.map_congr_left ih
  | fix binder body ih => simp only [renumber, mapChannels, ih]
  | _ => rfl

theorem hideUnless_renumber (keep : ChanRef → Lookup Bool) (t : Trace) :
    (t.renumber f).hideUnless keep = (t.hideUnless keep).map (renumber f) := by
  unfold hideUnless
  rw [channels_renumber, hide_renumber]
  cases t.channels.forM fun chan => discard (keep chan) <;> rfl

end Trace

open Trace

section Queries

variable {program : Program} {f : AtomId → AtomId} {t : Trace}

def TraceSet.renumber (f : AtomId → AtomId) (traces : TraceSet) : TraceSet :=
  traces.map (Trace.renumber f)

theorem Substitution.apply_renumber (bindings : Substitution) (t : Trace) :
    bindings.apply program (t.renumber f) = (bindings.apply program t).map (Trace.renumber f) := by
  unfold apply
  split
  · rfl
  · unfold renameChannels
    rw [channels_renumber, mapChannels_renumber]
    cases t.channels.forM fun chan => discard (bindings.redirect program chan) <;> rfl

theorem Lookup.mapM_map {α β : Type} {query : α → Lookup β} {g : α → α} {h : β → β}
    (hquery : ∀ a, query (g a) = (query a).map h) (l : List α) :
    (l.map g).mapM query = (l.mapM query).map (List.map h) := by
  induction l with
  | nil => rfl
  | cons a l ih =>
      rw [List.map_cons, List.mapM_cons, List.mapM_cons, hquery, ih]
      cases query a with
      | error => rfl
      | ok b => cases l.mapM query <;> rfl

theorem Substitution.applySet_renumber (bindings : Substitution) (traces : TraceSet) :
    bindings.applySet program (traces.renumber f) =
      (bindings.applySet program traces).map (TraceSet.renumber f) := by
  unfold applySet TraceSet.renumber TraceSet.map
  rw [Lookup.mapM_map fun t => bindings.apply_renumber t]
  cases traces.alternatives.mapM (bindings.apply program) <;> rfl

theorem TraceSet.toChoice_renumber (traces : TraceSet) :
    (traces.renumber f).toChoice = traces.toChoice.map (Trace.renumber f) := by
  obtain ⟨ts⟩ := traces
  match ts with
  | [] => rfl
  | [t] => rfl
  | t :: u :: ts =>
      simp [TraceSet.renumber, TraceSet.map, toChoice, Trace.renumber]

variable {setting : Setting} {interface : List NameId}

theorem Walk.finish_renumber (hf : f.Injective) (t : Trace) :
    finish setting (t.renumber f) = (finish setting t).renumber f := by
  unfold finish
  split
  · exact simplify_renumber hf t
  · rfl

theorem Walk.project_renumber (hf : f.Injective) (t : Trace) :
    project setting interface (t.renumber f) =
      (project setting interface t).map (Trace.renumber f) := by
  unfold project
  split
  · rw [hideUnless_renumber]
    cases t.hideUnless (ChanRef.isAmong setting.program interface) with
    | error => rfl
    | ok u => exact congrArg Except.ok (simplify_renumber hf u)
  · rfl

end Queries

/-! ## Plans -/

def Made.renumber (f : AtomId → AtomId) : Made → Made
  | .nothing => .nothing
  | .plain t => .plain (t.renumber f)
  | .again origin op t => .again origin op (t.renumber f)
  | .repeated origin op t => .repeated origin op (t.renumber f)

namespace Made

variable {f : AtomId → AtomId}

@[simp] theorem size_renumber (made : Made) : (made.renumber f).size = made.size := by
  cases made <;> rfl

/-- What takes an atom takes another one once it is renumbered. -/
theorem fragment_renumber {made : Made} {n n' : Nat} (h : made.size = 1 → f ⟨n⟩ = ⟨n'⟩) :
    (made.renumber f).fragment n' = (made.fragment n).map (Trace.renumber f) := by
  cases made with
  | nothing | plain => rfl
  | again | repeated =>
      simp [renumber, fragment, Trace.renumber, Atom.renumber, h rfl]

end Made

section Plans

variable {setting : Setting} {node : NodeId} {construct : Construct} {plan : Plan}
  {f : AtomId → AtomId}

/-- Fragments with their atoms renumbered. -/
def renumbered (f : AtomId → AtomId) (fragments : List (Option Trace)) : List (Option Trace) :=
  fragments.map (Option.map (Trace.renumber f))

theorem getD_renumbered (fragment : Option Trace) :
    (fragment.map (Trace.renumber f)).getD .skip = (fragment.getD .skip).renumber f := by
  cases fragment <;> rfl

theorem head_renumbered (fragments : List (Option Trace)) :
    (renumbered f fragments).head?.join = fragments.head?.join.map (Trace.renumber f) := by
  cases fragments <;> rfl

theorem reduceOption_renumbered (fragments : List (Option Trace)) :
    (renumbered f fragments).reduceOption = fragments.reduceOption.map (Trace.renumber f) := by
  induction fragments with
  | nil => rfl
  | cons fragment fragments ih =>
      cases fragment <;> simp_all [renumbered]

theorem choice_renumbered (chan : Option ChanRef) (body : Option Trace) :
    Plan.choice chan (body.map (Trace.renumber f)) = (Plan.choice chan body).renumber f := by
  cases chan <;> cases body <;> simp [Plan.choice, Trace.renumber]

theorem choices_renumbered (arms : List (NodeId × Option ChanRef))
    (fragments : List (Option Trace)) : Plan.choices arms (renumbered f fragments) =
      (Plan.choices arms fragments).map (Trace.renumber f) := by
  unfold Plan.choices renumbered
  rw [List.zipWith_map_right, List.map_zipWith]
  simp only [choice_renumbered]

theorem alternatives_renumbered (sure : Bool) (fragments : List (Option Trace)) :
    Plan.alternatives sure (renumbered f fragments) =
      (Plan.alternatives sure fragments).map (Trace.renumber f) := by
  unfold Plan.alternatives renumbered
  rw [List.map_append, List.map_map, List.map_map]
  congr 1
  · exact List.map_congr_left fun fragment _ => getD_renumbered fragment
  · cases sure <;> rfl

variable (f) in
/-- A plan makes of renumbered fragments what it makes of the fragments, renumbered. -/
theorem make_renumbered (hplan : construct.plan setting node = .ok (some plan))
    (fragments : List (Option Trace)) :
    plan.make (renumbered f fragments) = (plan.make fragments).renumber f := by
  cases Construct.planned_of_plan hplan with
  | skip | stop | input | output | assign => rfl
  | compose =>
      simp only [reduceOption_renumbered, Made.renumber, Trace.renumber, renumberAll_eq_map]
  | @replicate _ _ _ folded =>
      unfold Plan.replication
      split
      · rfl
      · simp only [Plan.wrap, head_renumbered]
        cases fragments.head?.join with
        | none => rfl
        | some t => cases Walk.unrolling setting folded <;> simp [Made.renumber, Trace.renumber]
  | @loop _ _ truth =>
      match truth with
      | some false => rfl
      | some true =>
          simp only [Plan.rounds, Plan.wrap, head_renumbered]
          cases fragments.head?.join <;> rfl
      | none => simp only [Plan.rounds, Plan.wrap, head_renumbered, getD_renumbered, Made.renumber]
  | condOne =>
      unfold Plan.condOne
      split
      · rfl
      · simp only [Plan.wrap, head_renumbered]
        cases fragments.head?.join with
        | none => rfl
        | some t =>
            dsimp only [Option.map_some]
            split <;> rfl
  | cond =>
      simp only [Plan.conditional, Made.renumber, (keepsOperators_renumber f).collapse]
      rw [alternatives_renumbered]
  | @alt _ enabled =>
      simp only [Plan.alternation, choices_renumbered]
      cases Plan.choices enabled fragments with
      | nil => rfl
      | cons t ts => simp [Made.renumber, Trace.renumber]
  | block =>
      simp only [Plan.wrap, head_renumbered]
      cases fragments.head?.join <;> rfl

end Plans

end ProcessContracts
