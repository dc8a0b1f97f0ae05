import ProcessContracts.Proofs.Allowances
import ProcessContracts.Proofs.Realization
import ProcessContracts.Proofs.Totality

/-!
# Learning values

A tree of constructs may be another one in which some guards and counts are known that were not.
What it contributes is covered by what the other one contributes, and where it contributes nothing
the other one may end without doing anything. So knowing more only narrows behaviour.
-/

namespace ProcessContracts

open Trace Walk View

/-! ## Programs with more expressions -/

/-- What the query answers the other one answers as well. -/
def Lookup.KeptBy {α : Type} (x y : Lookup α) : Prop := ∀ ⦃a⦄, x = .ok a → y = .ok a

theorem Lookup.KeptBy.bind {α β : Type} {x y : Lookup α} {f g : α → Lookup β} (h : x.KeptBy y)
    (hnext : ∀ a, (f a).KeptBy (g a)) : (x >>= f).KeptBy (y >>= g) := by
  intro b hb
  obtain ⟨a, ha, hb⟩ := Lookup.bind_eq_ok.1 hb
  exact Lookup.bind_eq_ok.2 ⟨a, h ha, hnext a hb⟩

theorem Lookup.KeptBy.refl {α : Type} (x : Lookup α) : x.KeptBy x := fun _ => id

/-- The program has the expressions of the other one, and perhaps more. -/
def Program.Extends (q p : Program) : Prop := ∃ more, q.exprs = p.exprs ++ more

namespace Program.Extends

variable {p q : Program} (h : q.Extends p)
include h

theorem expr (id : ExprId) : (p.expr id).KeptBy (q.expr id) := by
  obtain ⟨more, hmore⟩ := h
  intro e he
  unfold Program.expr spannedExpr at he ⊢
  split at he
  case h_1 entry hentry =>
    obtain ⟨hlt, hget⟩ := Array.getElem?_eq_some_iff.1 hentry
    have hentry' : q.exprs[id.index]? = some entry := by
      rw [hmore, Array.getElem?_append_left hlt, hentry]
    rw [hentry']
    exact he
  case h_2 => cases he

theorem exprDepth_le : p.exprDepth ≤ q.exprDepth := by
  obtain ⟨more, hmore⟩ := h
  simp [exprDepth, hmore]

theorem stripWithin {depth depth' : Nat} (hle : depth ≤ depth') (id : ExprId) :
    (p.stripWithin depth id).KeptBy (q.stripWithin depth' id) := by
  induction depth generalizing depth' id with
  | zero => nofun
  | succ depth ih =>
      obtain ⟨depth', rfl⟩ := Nat.exists_eq_add_of_le' (by omega : 1 ≤ depth')
      refine (h.expr id).bind fun e => ?_
      split
      · exact ih (by omega) _
      · exact .refl _

theorem strip (id : ExprId) : (p.strip id).KeptBy (q.strip id) := h.stripWithin h.exprDepth_le id

theorem ofExpr (id : ExprId) : (ChanRef.ofExpr p id).KeptBy (ChanRef.ofExpr q id) := by
  refine (h.strip id).bind fun target => (h.expr target).bind fun e => ?_
  split
  · exact (h.strip _).bind fun root => .refl _
  · exact .refl _

theorem constantWithin {depth depth' : Nat} (hle : depth ≤ depth') (id : ExprId) :
    (p.constantWithin depth id).KeptBy (q.constantWithin depth' id) := by
  induction depth generalizing depth' id with
  | zero => nofun
  | succ depth ih =>
      obtain ⟨depth', rfl⟩ := Nat.exists_eq_add_of_le' (by omega : 1 ≤ depth')
      have ih := fun id => ih (by omega : depth ≤ depth') id
      refine (h.expr id).bind fun e => ?_
      split
      · exact .refl _
      · exact .refl _
      · exact .refl _
      · exact .refl _
      · exact .refl _
      · exact ih _
      · exact (ih _).bind fun value => .refl _
      · refine (ih _).bind fun l => ?_
        split
        · exact .refl _
        · exact (ih _).bind fun r => .refl _

theorem constantValue (id : ExprId) : (p.constantValue id).KeptBy (q.constantValue id) :=
  h.constantWithin h.exprDepth_le id

theorem constantTruth (id : ExprId) : (p.constantTruth id).KeptBy (q.constantTruth id) :=
  (h.constantValue id).bind fun _ => .refl _

end Program.Extends

/-! ## Specialised trees -/

/-- What is known of the expression stays known of the one written in its place, or nothing was
known of it and the value of the other one is known. -/
inductive Learns {α : Type} (known known' : ExprId → Lookup (Option α)) (id id' : ExprId) : Prop
  | kept : (known id).KeptBy (known' id') → Learns known known' id id'
  | learned {value : α} : known id = .ok none → known' id' = .ok (some value) →
      Learns known known' id id'

theorem Learns.known {α : Type} {known known' : ExprId → Lookup (Option α)} {id id' : ExprId}
    {x y : Option α} (h : Learns known known' id id') (hx : known id = .ok x)
    (hy : known' id' = .ok y) : y = x ∨ x = none := by
  cases h with
  | kept hkept => exact .inl (Except.ok.inj (hy.symm.trans (hkept hx)))
  | learned hnone => exact .inr (Except.ok.inj (hx.symm.trans hnone))

section Constructs

variable (p q : Program) (related : NodeId → NodeId → Prop)

structure CondArm.Specializes (arm arm' : CondArm) : Prop where
  guard : Learns p.constantTruth q.constantTruth arm.guard arm'.guard
  body : related arm.body arm'.body

/-- Both arms wait for the same channel, or both for none. -/
inductive Trigger.Same : Trigger → Trigger → Prop
  | skip : Same .skip .skip
  | input {chan chan'} : (ChanRef.ofExpr p chan).KeptBy (ChanRef.ofExpr q chan') →
      Same (.input chan) (.input chan')

structure AltArm.Specializes (arm arm' : AltArm) : Prop where
  precondition : Option.Rel (Learns p.constantTruth q.constantTruth) arm.precondition
    arm'.precondition
  trigger : Trigger.Same p q arm.trigger arm'.trigger
  body : related arm.body arm'.body

/-- The second construct is the first one with some guards of conditionals, pre-conditions of
alternations and counts of replications learned, and with related parts. There are no instances. -/
inductive Construct.Specializes : Construct → Construct → Prop
  | skip : Specializes .skip .skip
  | stop : Specializes .stop .stop
  | input {chan chan'} : (ChanRef.ofExpr p chan).KeptBy (ChanRef.ofExpr q chan') →
      Specializes (.input chan) (.input chan')
  | output {chan chan'} : (ChanRef.ofExpr p chan).KeptBy (ChanRef.ofExpr q chan') →
      Specializes (.output chan) (.output chan')
  | assign {target target' value value'} :
      Specializes (.assign target value) (.assign target' value')
  | compose {mode children children'} : List.Forall₂ related children children' →
      Specializes (.compose mode children) (.compose mode children')
  | replicate {mode count count' body body'} :
      Learns p.constantValue q.constantValue count count' → related body body' →
      Specializes (.replicate mode count body) (.replicate mode count' body')
  | loop {guard guard' body body'} : (p.constantTruth guard).KeptBy (q.constantTruth guard') →
      related body body' → Specializes (.loop guard body) (.loop guard' body')
  | cond {arms arms'} : List.Forall₂ (CondArm.Specializes p q related) arms arms' →
      Specializes (.cond arms) (.cond arms')
  | alt {arms arms'} : List.Forall₂ (AltArm.Specializes p q related) arms arms' →
      Specializes (.alt arms) (.alt arms')
  | block {locals locals' body body'} : related body body' →
      Specializes (.block locals body) (.block locals' body')

/-- Each node is related to one that is specialised. -/
def IsSpecialization : Prop := ∀ {node node'}, related node node' → ∃ construct construct',
  p.HasNode node construct ∧ q.HasNode node' construct' ∧
    Construct.Specializes p q related construct construct'

end Constructs

/-! ## Fragments -/

/-- The second fragment does less than the first one. No fragment stands for doing nothing, and a
part that contributes nothing goes on contributing nothing. -/
structure View.Narrows (v : View) (f f' : Option Trace) : Prop where
  absent : f = none → f' = none
  covers : v.Covers (f.getD .skip) (f'.getD .skip)

namespace View

variable {v : View} {t u : Trace} {f f' : Option Trace} {fs fs' : List (Option Trace)}

theorem narrows_some (h : v.Covers t u) : v.Narrows (some t) (some u) := ⟨nofun, h⟩

theorem narrows_none : v.Narrows none none := ⟨fun _ => rfl, .refl fragmentary_complete.skip⟩

theorem narrows_dropped (h : v.Covers t .skip) : v.Narrows (some t) none := ⟨nofun, h⟩

/-- The three ways of doing less. -/
theorem Narrows.ways (h : v.Narrows f f') : (f = none ∧ f' = none) ∨
    (∃ t, f = some t ∧ f' = none ∧ v.Covers t .skip) ∨
      ∃ t u, f = some t ∧ f' = some u ∧ v.Covers t u := by
  cases f with
  | none => exact .inl ⟨rfl, h.absent rfl⟩
  | some t =>
      cases f' with
      | none => exact .inr (.inl ⟨t, rfl, rfl, h.covers⟩)
      | some u => exact .inr (.inr ⟨t, u, rfl, rfl, h.covers⟩)

/-- A part without a fragment counts as one that does nothing. -/
theorem alike_reduceOption (mode : Mode) (as : List Trace) (fs : List (Option Trace)) :
    v.Alike (collapse mode.operator (as ++ fs.map (·.getD .skip)))
      (collapse mode.operator (as ++ fs.reduceOption)) := by
  induction fs generalizing as with
  | nil => exact .refl v _
  | cons f fs ih =>
      cases f with
      | none =>
          have hdrop : v.bare.Condenses
              (collapse mode.operator (as ++ unit mode.operator :: fs.map (·.getD .skip)))
              (collapse mode.operator (as ++ fs.map (·.getD .skip))) := condenses_unit mode.operator
          rw [show unit mode.operator = .skip by cases mode <;> rfl] at hdrop
          exact hdrop.alike.trans (ih as)
      | some t =>
          have hkeep := ih (as ++ [t])
          rwa [List.append_assoc, List.append_assoc] at hkeep

theorem covers_compose (mode : Mode) (h : List.Forall₂ v.Narrows fs fs') :
    v.Covers (.comp mode.operator fs.reduceOption) (.comp mode.operator fs'.reduceOption) := by
  have hboth : ∀ {gs : List (Option Trace)}, (∀ g ∈ gs, (g.getD .skip).Complete) →
      v.Covers (.comp mode.operator gs.reduceOption) (.comp mode.operator (gs.map (·.getD .skip))) ∧
      v.Covers (.comp mode.operator (gs.map (·.getD .skip)))
        (.comp mode.operator gs.reduceOption) := by
    intro gs hgs
    have hfilled : ∀ t ∈ gs.map (·.getD .skip), t.Complete := by simpa using hgs
    have hpresent : ∀ t ∈ gs.reduceOption, t.Complete := fun t ht =>
      hgs (some t) (List.reduceOption_mem_iff.1 ht)
    have hsimple : (collapse mode.operator gs.reduceOption).Complete :=
      fragmentary_complete.collapse hpresent
    have hwrapped := (condenses_collapse (v := v.bare) mode.operator gs.reduceOption).alike
    have hspread := (condenses_collapse (v := v.bare) mode.operator
      (gs.map (·.getD .skip))).alike.trans
      (alike_reduceOption mode [] gs)
    exact ⟨.of_common (fragmentary_complete.comp.2 hpresent) (fragmentary_complete.comp.2 hfilled)
        hsimple hwrapped hspread,
      .of_common (fragmentary_complete.comp.2 hfilled) (fragmentary_complete.comp.2 hpresent)
        hsimple hspread hwrapped⟩
  have hleft : ∀ f ∈ fs, (f.getD .skip).Complete := fun f hf =>
    let ⟨_, _, hnarrows⟩ := exists_related_of_mem h hf
    hnarrows.covers.left
  have hright : ∀ f ∈ fs', (f.getD .skip).Complete := fun f hf =>
    let ⟨_, _, hnarrows⟩ := exists_related_of_mem h.flip hf
    hnarrows.covers.right
  refine ((hboth hleft).1.trans (.comp ?_)).trans (hboth hright).2
  exact List.forall₂_map_left_iff.2 (List.forall₂_map_right_iff.2 (h.imp fun _ _ h => h.covers))

/-! ## What plans make -/

theorem covers_choice (chan : Option ChanRef) (h : v.Narrows f f') :
    v.Covers (Plan.choice chan f) (Plan.choice chan f') := by
  cases chan with
  | none => exact h.covers
  | some chan =>
      have hevent := fragmentary_complete.event .input chan
      have hskip : (Trace.comp .seq [.event .input chan, .skip]).Complete :=
        fragmentary_complete.comp.2 (List.forall_mem_cons.2
          ⟨hevent, List.forall_mem_singleton.2 fragmentary_complete.skip⟩)
      obtain ⟨rfl, rfl⟩ | ⟨t, rfl, rfl, ht⟩ | ⟨t, u, rfl, rfl, ht⟩ := h.ways
      · exact .refl hevent
      · have hend : v.Alike (.comp .seq [.event .input chan, .skip]) (.event .input chan) :=
          alike_reduceOption .seq [.event .input chan] [none]
        exact Covers.trans (.comp (.cons (.refl hevent) (.cons ht .nil)))
          (.of_alike hskip hevent hend)
      · exact .comp (.cons (.refl hevent) (.cons ht .nil))

theorem covers_copies (mode : Mode) (h : v.Covers t u) (m : Nat) :
    v.Covers (.comp mode.operator (List.replicate m t))
      (.comp mode.operator (List.replicate m u)) := by
  refine .comp ?_
  induction m with
  | zero => exact .nil
  | succ m ih => exact .cons h ih

theorem covers_copies_skip (mode : Mode) (h : v.Covers t .skip) (m : Nat) :
    v.Covers (.comp mode.operator (List.replicate m t)) .skip := by
  have hcopies := covers_copies mode h m
  have hempty := alike_reduceOption (v := v) mode [] (List.replicate m none)
  rw [List.map_replicate, List.nil_append, List.nil_append,
    List.reduceOption_replicate_none] at hempty
  have hwrapped := (condenses_collapse (v := v.bare) mode.operator (List.replicate m .skip)).alike
  refine hcopies.trans (.of_alike hcopies.right fragmentary_complete.skip ?_)
  cases mode <;> exact hwrapped.trans hempty

section Making

variable {p q : Program} {options : Options} {P P' : NodeId → Option Trace → Prop}
  {node node' body body' : NodeId} {fragments fragments' : List (Option Trace)} {n n' : Nat}

theorem forall₂_through {related : NodeId → NodeId → Prop} {nodes nodes' : List NodeId}
    {Q : Option Trace → Option Trace → Prop} (h : List.Forall₂ related nodes nodes')
    (hf : List.Forall₂ P nodes fragments) (hf' : List.Forall₂ P' nodes' fragments')
    (hstep : ∀ {part part'}, related part part' → ∀ f f', P part f → P' part' f' → Q f f') :
    List.Forall₂ Q fragments fragments' := by
  induction h generalizing fragments fragments' with
  | nil =>
      obtain rfl := List.forall₂_nil_left_iff.1 hf
      obtain rfl := List.forall₂_nil_left_iff.1 hf'
      exact .nil
  | cons hhead _ ih =>
      obtain ⟨f, fs, hhere, hrest, rfl⟩ := List.forall₂_cons_left_iff.1 hf
      obtain ⟨f', fs', hhere', hrest', rfl⟩ := List.forall₂_cons_left_iff.1 hf'
      exact .cons (hstep hhead f f' hhere hhere') (ih hrest hrest')

theorem fragments_of_wrap (h : List.Forall₂ P [body] fragments) :
    ∃ f, P body f ∧ fragments = [f] := by
  obtain ⟨f, rest, hf, hrest, rfl⟩ := List.forall₂_cons_left_iff.1 h
  exact ⟨f, hf, by rw [List.forall₂_nil_left_iff.1 hrest]⟩

theorem narrows_replication {mode : Mode} {x y : Option Int64} (hxy : y = x ∨ x = none)
    (hparts : List.Forall₂ P (Plan.replication ⟨p, options⟩ node mode body x).parts fragments)
    (hparts' : List.Forall₂ P' (Plan.replication ⟨q, options⟩ node' mode body' y).parts fragments')
    (hcomplete : ∀ f ∈ fragments, (f.getD .skip).Complete)
    (ih : ∀ {f f'}, P body f → P' body' f' → v.Narrows f f') :
    v.Narrows (((Plan.replication ⟨p, options⟩ node mode body x).make fragments).fragment n)
      (((Plan.replication ⟨q, options⟩ node' mode body' y).make fragments').fragment n') := by
  have hskip : ∀ {t}, t.Complete → v.Covers (.fix ⟨⟨n⟩, .replication node⟩
      (.comp .ndet [.skip, .comp mode.operator [t, .ref ⟨n⟩]])) .skip := fun ht =>
    (Covers.repeated_cases ht).1
  unfold Plan.replication at hparts hparts' ⊢
  by_cases hx : x.any (·.toInt ≤ 0) = true
  · obtain rfl : y = x := hxy.resolve_right (by rintro rfl; cases hx)
    rw [if_pos hx, if_pos hx]
    exact narrows_none
  rw [if_neg hx] at hparts ⊢
  obtain ⟨f, hf, rfl⟩ := fragments_of_wrap hparts
  by_cases hy : y.any (·.toInt ≤ 0) = true
  · -- The count was learned, and there is nothing to repeat.
    obtain rfl := hxy.resolve_left (by rintro rfl; exact hx hy)
    rw [if_pos hy]
    cases f with
    | none => exact narrows_none
    | some t => exact narrows_dropped (hskip (hcomplete _ (List.mem_singleton_self _)))
  rw [if_neg hy] at hparts' ⊢
  obtain ⟨f', hf', rfl⟩ := fragments_of_wrap hparts'
  simp only [Plan.wrap, List.head?_cons, Option.join_some]
  obtain ⟨rfl, rfl⟩ | ⟨t, rfl, rfl, ht⟩ | ⟨t, u, rfl, rfl, ht⟩ := (ih hf hf').ways
  · exact narrows_none
  · dsimp only
    cases unrolling ⟨p, options⟩ x with
    | some m => exact narrows_dropped (covers_copies_skip mode ht m)
    | none => exact narrows_dropped (hskip ht.left)
  · dsimp only
    obtain rfl | rfl := hxy
    · rw [show unrolling ⟨q, options⟩ y = unrolling ⟨p, options⟩ y from rfl]
      cases unrolling ⟨p, options⟩ y with
      | some m => exact narrows_some (covers_copies mode ht m)
      | none => exact narrows_some (.fix (isRound_repeated mode.operator) ht)
    · cases unrolling ⟨q, options⟩ y with
      | some m => exact narrows_some (.copies ht m)
      | none => exact narrows_some (.fix (isRound_repeated mode.operator) ht)

theorem narrows_rounds {truth : Option Bool}
    (hparts : List.Forall₂ P (Plan.rounds node body truth).parts fragments)
    (hparts' : List.Forall₂ P' (Plan.rounds node' body' truth).parts fragments')
    (ih : ∀ {f f'}, P body f → P' body' f' → v.Narrows f f') :
    v.Narrows (((Plan.rounds node body truth).make fragments).fragment n)
      (((Plan.rounds node' body' truth).make fragments').fragment n') := by
  match truth with
  | some false => exact narrows_none
  | some true =>
      obtain ⟨f, hf, rfl⟩ := fragments_of_wrap hparts
      obtain ⟨f', hf', rfl⟩ := fragments_of_wrap hparts'
      obtain ⟨rfl, rfl⟩ | ⟨t, rfl, rfl, ht⟩ | ⟨t, u, rfl, rfl, ht⟩ := (ih hf hf').ways
      · exact narrows_some (.refl fragmentary_complete.div)
      · exact narrows_some (.endless ht)
      · exact narrows_some (.fix (isRound_again .seq) ht)
  | none =>
      obtain ⟨f, hf, rfl⟩ := fragments_of_wrap hparts
      obtain ⟨f', hf', rfl⟩ := fragments_of_wrap hparts'
      exact narrows_some (.fix (isRound_again .ndet) (ih hf hf').covers)

theorem narrows_condOne {x y : Option Bool} (hxy : y = x ∨ x = none)
    (hparts : List.Forall₂ P (Plan.condOne body x).parts fragments)
    (hparts' : List.Forall₂ P' (Plan.condOne body' y).parts fragments')
    (hcomplete : ∀ f ∈ fragments, (f.getD .skip).Complete)
    (ih : ∀ {f f'}, P body f → P' body' f' → v.Narrows f f') :
    v.Narrows (((Plan.condOne body x).make fragments).fragment n)
      (((Plan.condOne body' y).make fragments').fragment n') := by
  have hchoices : ∀ {t : Trace}, t.Complete → ∀ c ∈ [t, .skip], c.Complete := fun ht =>
    List.forall_mem_cons.2 ⟨ht, List.forall_mem_singleton.2 fragmentary_complete.skip⟩
  have hskip : ∀ {t : Trace}, t.Complete → v.Covers (.comp .ndet [t, .skip]) .skip := fun ht =>
    .pick (hchoices ht) (List.mem_cons_of_mem _ List.mem_cons_self)
      (.refl fragmentary_complete.skip)
  match x, y with
  | some false, y =>
      obtain rfl : y = some false := hxy.resolve_right nofun
      exact narrows_none
  | some true, y =>
      obtain rfl : y = some true := hxy.resolve_right nofun
      obtain ⟨f, hf, rfl⟩ := fragments_of_wrap hparts
      obtain ⟨f', hf', rfl⟩ := fragments_of_wrap hparts'
      obtain ⟨rfl, rfl⟩ | ⟨t, rfl, rfl, ht⟩ | ⟨t, u, rfl, rfl, ht⟩ := (ih hf hf').ways
      · exact narrows_none
      · exact narrows_dropped ht
      · exact narrows_some ht
  | none, some false =>
      obtain ⟨f, hf, rfl⟩ := fragments_of_wrap hparts
      cases f with
      | none => exact narrows_none
      | some t => exact narrows_dropped (hskip (hcomplete _ (List.mem_singleton_self _)))
  | none, some true =>
      obtain ⟨f, hf, rfl⟩ := fragments_of_wrap hparts
      obtain ⟨f', hf', rfl⟩ := fragments_of_wrap hparts'
      obtain ⟨rfl, rfl⟩ | ⟨t, rfl, rfl, ht⟩ | ⟨t, u, rfl, rfl, ht⟩ := (ih hf hf').ways
      · exact narrows_none
      · exact narrows_dropped (hskip ht.left)
      · exact narrows_some (.pick (hchoices ht.left) List.mem_cons_self ht)
  | none, none =>
      obtain ⟨f, hf, rfl⟩ := fragments_of_wrap hparts
      obtain ⟨f', hf', rfl⟩ := fragments_of_wrap hparts'
      obtain ⟨rfl, rfl⟩ | ⟨t, rfl, rfl, ht⟩ | ⟨t, u, rfl, rfl, ht⟩ := (ih hf hf').ways
      · exact narrows_none
      · exact narrows_dropped (hskip ht.left)
      · exact narrows_some (.comp (.cons ht (.cons (.refl fragmentary_complete.skip) .nil)))

theorem narrows_conditional {taken taken' : List NodeId × Bool}
    (hbodies : ∀ body' ∈ taken'.1, ∃ body ∈ taken.1,
      ∀ f f', P body f → P' body' f' → v.Narrows f f')
    (hsure : taken.2 = true → taken'.2 = true) (hsome : taken'.1 = [] → taken'.2 = false)
    (hparts : List.Forall₂ P taken.1 fragments) (hparts' : List.Forall₂ P' taken'.1 fragments')
    (hcomplete : ∀ f ∈ fragments, (f.getD .skip).Complete) :
    v.Narrows (((Plan.conditional taken).make fragments).fragment n)
      (((Plan.conditional taken').make fragments').fragment n') := by
  have hts : ∀ t ∈ Plan.alternatives taken.2 fragments, t.Complete :=
    fragmentary_complete.alternatives taken.2 fun t ht => hcomplete (some t) ht
  refine narrows_some (.internal hts (fun hnil => ?_) fun u hu => ?_)
  · obtain ⟨hnil, hlast⟩ := List.append_eq_nil_iff.1 hnil
    rw [List.map_eq_nil_iff.1 hnil, List.forall₂_nil_right_iff] at hparts'
    simp [hsome hparts'] at hlast
  rcases List.mem_append.1 hu with hu | hu
  · obtain ⟨f', hf', rfl⟩ := List.mem_map.1 hu
    obtain ⟨body', hbody', hp'⟩ := exists_related_of_mem hparts'.flip hf'
    obtain ⟨body, hbody, hnarrows⟩ := hbodies body' hbody'
    obtain ⟨f, hf, hp⟩ := exists_related_of_mem hparts hbody
    exact ⟨_, List.mem_append_left _ (List.mem_map_of_mem hf), (hnarrows f f' hp hp').covers⟩
  · -- If no arm is surely taken now, none was before.
    have hunsure : taken'.2 = false := by
      by_contra h
      simp [h] at hu
    have hunsure' : taken.2 = false := by
      by_contra h
      exact absurd (hsure (Bool.eq_true_of_not_eq_false h)) (by simp [hunsure])
    obtain rfl : u = .skip := by simpa [hunsure] using hu
    exact ⟨.skip, List.mem_append_right _ (by simp [hunsure']), .refl fragmentary_complete.skip⟩

theorem forall₂_choices {R : NodeId × Option ChanRef → Option Trace → Prop}
    {arms : List (NodeId × Option ChanRef)} (h : List.Forall₂ R arms fragments) :
    List.Forall₂ (fun arm t => ∃ f ∈ fragments, R arm f ∧ Plan.choice arm.2 f = t) arms
      (Plan.choices arms fragments) := by
  induction h with
  | nil => exact .nil
  | cons h _ ih =>
      refine .cons ⟨_, List.mem_cons_self, h, rfl⟩ (ih.imp fun arm t => ?_)
      exact fun ⟨f, hf, hrest⟩ => ⟨f, List.mem_cons_of_mem _ hf, hrest⟩

theorem narrows_alternation {arms arms' : List (NodeId × Option ChanRef)}
    (harms : ∀ arm' ∈ arms', ∃ arm ∈ arms, arm'.2 = arm.2 ∧
      ∀ f f', P arm.1 f → P' arm'.1 f' → v.Narrows f f')
    (hparts : List.Forall₂ P (arms.map (·.1)) fragments)
    (hparts' : List.Forall₂ P' (arms'.map (·.1)) fragments')
    (hcomplete : ∀ f ∈ fragments, (f.getD .skip).Complete) :
    v.Narrows (((Plan.alternation arms).make fragments).fragment n)
      (((Plan.alternation arms').make fragments').fragment n') := by
  rw [List.forall₂_map_left_iff] at hparts hparts'
  have hts : ∀ t ∈ Plan.choices arms fragments, t.Complete :=
    fragmentary_complete.choices fun t ht => hcomplete (some t) ht
  have hcovered : ∀ u ∈ Plan.choices arms' fragments', ∃ t ∈ Plan.choices arms fragments,
      v.Covers t u := by
    intro u hu
    obtain ⟨arm', harm', f', -, hp', rfl⟩ :=
      exists_related_of_mem (forall₂_choices hparts').flip hu
    obtain ⟨arm, harm, hchan, hnarrows⟩ := harms arm' harm'
    obtain ⟨t, ht, f, -, hp, rfl⟩ := exists_related_of_mem (forall₂_choices hparts) harm
    exact ⟨_, ht, hchan ▸ covers_choice arm.2 (hnarrows f f' hp hp')⟩
  simp only [Plan.alternation]
  generalize Plan.choices arms fragments = ts, Plan.choices arms' fragments' = us at hts hcovered
  cases us with
  | nil =>
      cases ts with
      | nil => exact narrows_some (.stop fragmentary_complete.stop)
      | cons t ts => exact narrows_some (.stop (fragmentary_complete.comp.2 hts))
  | cons u us =>
      cases ts with
      | nil =>
          obtain ⟨t, ht, -⟩ := hcovered u List.mem_cons_self
          cases ht
      | cons t ts => exact narrows_some (.external hts hcovered)

end Making

end View

/-! ## Arms -/

section Arms

variable {p q : Program} {related : NodeId → NodeId → Prop} {options : Options}

theorem Plan.nonempty_of_sure {setting : Setting} {arms : List CondArm} {taken : List NodeId × Bool}
    (h : Plan.taken setting arms = .ok taken) (hnil : taken.1 = []) : taken.2 = false := by
  induction arms generalizing taken with
  | nil =>
      obtain rfl := Except.ok.inj h
      rfl
  | cons arm arms ih =>
      obtain ⟨truth, -, h⟩ := Lookup.bind_eq_ok.1 h
      split at h
      · exact ih h hnil
      · split at h
        · obtain rfl := Except.ok.inj h
          cases hnil
        · obtain ⟨rest, -, h⟩ := Lookup.bind_eq_ok.1 h
          obtain rfl := Except.ok.inj h
          cases hnil

/-- An arm that is taken may have been taken, and one that was surely taken still is, if no arm
before it is. -/
theorem taken_specializes {arms arms' : List CondArm}
    (harms : List.Forall₂ (CondArm.Specializes p q related) arms arms')
    {taken taken' : List NodeId × Bool} (h : Plan.taken ⟨p, options⟩ arms = .ok taken)
    (h' : Plan.taken ⟨q, options⟩ arms' = .ok taken') :
    (∀ body' ∈ taken'.1, ∃ body ∈ taken.1, related body body') ∧
      (taken.2 = true → taken'.2 = true) := by
  induction harms generalizing taken taken' with
  | nil =>
      obtain rfl := Except.ok.inj h
      obtain rfl := Except.ok.inj h'
      exact ⟨by simp, id⟩
  | @cons arm arm' arms arms' harm _ ih =>
      obtain ⟨truth, htruth, h⟩ := Lookup.bind_eq_ok.1 h
      obtain ⟨truth', htruth', h'⟩ := Lookup.bind_eq_ok.1 h'
      have hknown := harm.guard.known htruth htruth'
      by_cases hfalse' : truth' = some false
      · rw [if_pos hfalse'] at h'
        -- The second arm is passed over, so the first one was not surely taken.
        have hne : truth ≠ some true := fun htrue => by
          rcases hknown with heq | heq <;> simp_all
        split at h
        · exact ih h h'
        · obtain ⟨rest, hrest, h⟩ := Lookup.bind_eq_ok.1 h
          obtain rfl := Except.ok.inj h
          obtain ⟨hbodies, hsure⟩ := ih hrest h'
          exact ⟨fun body' hbody' => (hbodies body' hbody').imp fun body hbody =>
            ⟨List.mem_cons_of_mem _ hbody.1, hbody.2⟩, hsure⟩
      · rw [if_neg hfalse'] at h'
        have hfalse : truth ≠ some false := fun hfalse => by
          rcases hknown with heq | heq <;> simp_all
        rw [if_neg hfalse] at h
        have hhead : arm.body ∈ taken.1 := by
          split at h
          · obtain rfl := Except.ok.inj h
            exact List.mem_cons_self
          · obtain ⟨rest, -, h⟩ := Lookup.bind_eq_ok.1 h
            obtain rfl := Except.ok.inj h
            exact List.mem_cons_self
        split at h'
        · obtain rfl := Except.ok.inj h'
          refine ⟨fun body' hbody' => ⟨arm.body, hhead, ?_⟩, fun _ => rfl⟩
          exact List.mem_singleton.1 hbody' ▸ harm.body
        case isFalse htrue' =>
          have htrue : truth ≠ some true := fun htrue => by
            rcases hknown with heq | heq <;> simp_all
          rw [if_neg htrue] at h
          obtain ⟨rest, hrest, h⟩ := Lookup.bind_eq_ok.1 h
          obtain ⟨rest', hrest', h'⟩ := Lookup.bind_eq_ok.1 h'
          obtain rfl := Except.ok.inj h
          obtain rfl := Except.ok.inj h'
          obtain ⟨hbodies, hsure⟩ := ih hrest hrest'
          refine ⟨List.forall_mem_cons.2 ⟨⟨_, List.mem_cons_self, harm.body⟩, ?_⟩, hsure⟩
          exact fun body' hbody' => (hbodies body' hbody').imp fun body hbody =>
            ⟨List.mem_cons_of_mem _ hbody.1, hbody.2⟩

theorem disabled_specializes {arm arm' : AltArm}
    (harm : AltArm.Specializes p q related arm arm') {disabled disabled' : Bool}
    (h : Plan.isDisabled ⟨p, options⟩ arm = .ok disabled)
    (h' : Plan.isDisabled ⟨q, options⟩ arm' = .ok disabled') (hdisabled : disabled = true) :
    disabled' = true := by
  obtain ⟨hrel, -, -⟩ := harm
  obtain ⟨precondition, trigger, body⟩ := arm
  obtain ⟨precondition', trigger', body'⟩ := arm'
  cases hrel with
  | none =>
      obtain rfl := Except.ok.inj h
      cases hdisabled
  | @some guard guard' hguard =>
      obtain ⟨truth, htruth, h⟩ := Lookup.bind_eq_ok.1 h
      obtain ⟨truth', htruth', h'⟩ := Lookup.bind_eq_ok.1 h'
      obtain rfl := Except.ok.inj h
      obtain rfl := Except.ok.inj h'
      have hknown := hguard.known htruth htruth'
      rcases hknown with heq | heq <;> simp_all

theorem awaited_specializes {arm arm' : AltArm}
    (harm : AltArm.Specializes p q related arm arm') {chan chan' : Option ChanRef}
    (h : Plan.awaited ⟨p, options⟩ arm = .ok chan)
    (h' : Plan.awaited ⟨q, options⟩ arm' = .ok chan') : chan' = chan := by
  have hkept : (Plan.awaited ⟨p, options⟩ arm).KeptBy (Plan.awaited ⟨q, options⟩ arm') := by
    obtain ⟨-, htrigger, -⟩ := harm
    obtain ⟨precondition, trigger, body⟩ := arm
    obtain ⟨precondition', trigger', body'⟩ := arm'
    cases htrigger with
    | skip => exact .refl _
    | input hkept => exact hkept.bind fun _ => .refl _
  exact Except.ok.inj (h'.symm.trans (hkept h))

theorem enabled_specializes {arms arms' : List AltArm}
    (harms : List.Forall₂ (AltArm.Specializes p q related) arms arms')
    {enabled enabled' : List (NodeId × Option ChanRef)}
    (h : Plan.enabled ⟨p, options⟩ arms = .ok enabled)
    (h' : Plan.enabled ⟨q, options⟩ arms' = .ok enabled') :
    ∀ arm' ∈ enabled', ∃ arm ∈ enabled, arm'.2 = arm.2 ∧ related arm.1 arm'.1 := by
  induction harms generalizing enabled enabled' with
  | nil =>
      obtain rfl := Except.ok.inj h'
      exact List.forall_mem_nil _
  | @cons arm arm' arms arms' harm _ ih =>
      obtain ⟨disabled, hdisabled, h⟩ := Lookup.bind_eq_ok.1 h
      obtain ⟨disabled', hdisabled', h'⟩ := Lookup.bind_eq_ok.1 h'
      have hstays := disabled_specializes harm hdisabled hdisabled'
      split at h'
      · split at h
        · exact ih h h'
        · obtain ⟨chan, -, h⟩ := Lookup.bind_eq_ok.1 h
          obtain ⟨rest, hrest, h⟩ := Lookup.bind_eq_ok.1 h
          obtain rfl := Except.ok.inj h
          exact fun other hother => (ih hrest h' other hother).imp fun _ hsome =>
            ⟨List.mem_cons_of_mem _ hsome.1, hsome.2⟩
      case isFalse hfalse =>
        rw [if_neg fun htrue => hfalse (hstays htrue)] at h
        obtain ⟨chan, hchan, h⟩ := Lookup.bind_eq_ok.1 h
        obtain ⟨rest, hrest, h⟩ := Lookup.bind_eq_ok.1 h
        obtain ⟨chan', hchan', h'⟩ := Lookup.bind_eq_ok.1 h'
        obtain ⟨rest', hrest', h'⟩ := Lookup.bind_eq_ok.1 h'
        obtain rfl := Except.ok.inj h
        obtain rfl := Except.ok.inj h'
        obtain rfl := awaited_specializes harm hchan hchan'
        refine List.forall_mem_cons.2 ⟨⟨_, List.mem_cons_self, rfl, harm.body⟩, ?_⟩
        exact fun other hother => (ih hrest hrest' other hother).imp fun _ hsome =>
          ⟨List.mem_cons_of_mem _ hsome.1, hsome.2⟩

end Arms

/-! ## Trees -/

section Trees

variable {p q : Program} {related : NodeId → NodeId → Prop} {options : Options} {v : View}

theorem Construct.Specializes.ne_call {construct construct' : Construct}
    (h : Construct.Specializes p q related construct construct') :
    (∀ callee args, construct ≠ .call callee args) ∧
      ∀ callee args, construct' ≠ .call callee args := by
  cases h <;> exact ⟨nofun, nofun⟩

/-- What a construct makes of fragments, a specialised one narrows. -/
theorem Construct.Specializes.narrows {construct construct' : Construct}
    (h : Construct.Specializes p q related construct construct') {node node' : NodeId}
    {plan plan' : Plan} (hplan : construct.plan ⟨p, options⟩ node = .ok (some plan))
    (hplan' : construct'.plan ⟨q, options⟩ node' = .ok (some plan'))
    {P P' : NodeId → Option Trace → Prop} {fragments fragments' : List (Option Trace)}
    (hparts : List.Forall₂ P plan.parts fragments)
    (hparts' : List.Forall₂ P' plan'.parts fragments')
    (hcomplete : ∀ f ∈ fragments, (f.getD .skip).Complete)
    (hrelated : ∀ {part part'}, related part part' →
      ∀ f f', P part f → P' part' f' → v.Narrows f f') (n n' : Nat) :
    v.Narrows ((plan.make fragments).fragment n) ((plan'.make fragments').fragment n') := by
  replace hplan := planned_of_plan hplan
  replace hplan' := planned_of_plan hplan'
  cases h with
  | skip =>
      cases hplan
      cases hplan'
      exact narrows_some (.refl fragmentary_complete.skip)
  | stop =>
      cases hplan
      cases hplan'
      exact narrows_some (.refl fragmentary_complete.stop)
  | input hkept =>
      cases hplan with | input hchan =>
      cases hplan' with | input hchan' =>
      obtain rfl := Except.ok.inj (hchan'.symm.trans (hkept hchan))
      exact narrows_some (.refl (fragmentary_complete.event _ _))
  | output hkept =>
      cases hplan with | output hchan =>
      cases hplan' with | output hchan' =>
      obtain rfl := Except.ok.inj (hchan'.symm.trans (hkept hchan))
      exact narrows_some (.refl (fragmentary_complete.event _ _))
  | assign =>
      cases hplan
      cases hplan'
      exact narrows_none
  | @compose mode children children' hchildren =>
      cases hplan
      cases hplan'
      refine narrows_some (covers_compose mode (forall₂_through hchildren hparts hparts' ?_))
      exact fun hchild f f' => hrelated hchild f f'
  | replicate hcount hbody =>
      cases hplan with | replicate hfolded =>
      cases hplan' with | replicate hfolded' =>
      have hknown := hcount.known hfolded hfolded'
      exact narrows_replication hknown hparts hparts' hcomplete (hrelated hbody _ _)
  | loop hguard hbody =>
      cases hplan with | loop htruth =>
      cases hplan' with | loop htruth' =>
      obtain rfl := Except.ok.inj (htruth'.symm.trans (hguard htruth))
      exact narrows_rounds hparts hparts' (hrelated hbody _ _)
  | cond harms =>
      -- One arm alone has a plan of its own, and both sides have as many arms.
      cases hplan with
      | condOne htruth =>
          cases hplan' with
          | condOne htruth' =>
              obtain _ | ⟨harm, -⟩ := harms
              have hknown := harm.guard.known htruth htruth'
              exact narrows_condOne hknown hparts hparts' hcomplete (hrelated harm.body _ _)
          | cond hmany' => exact absurd harms.length_eq.symm hmany'
      | cond hmany htaken =>
          cases hplan' with
          | condOne => exact absurd harms.length_eq hmany
          | cond _ htaken' =>
              obtain ⟨hbodies, hsure⟩ := taken_specializes harms htaken htaken'
              refine narrows_conditional (fun body' hbody' => ?_) hsure
                (Plan.nonempty_of_sure htaken') hparts hparts' hcomplete
              obtain ⟨body, hbody, hrel⟩ := hbodies body' hbody'
              exact ⟨body, hbody, hrelated hrel⟩
  | alt harms =>
      cases hplan with | alt henabled =>
      cases hplan' with | alt henabled' =>
      refine narrows_alternation (fun arm' harm' => ?_) hparts hparts' hcomplete
      obtain ⟨arm, harm, hchan, hbody⟩ := enabled_specializes harms henabled henabled' arm' harm'
      exact ⟨arm, harm, hchan, hrelated hbody⟩
  | block hbody =>
      cases hplan
      cases hplan'
      obtain ⟨f, hf, rfl⟩ := fragments_of_wrap hparts
      obtain ⟨f', hf', rfl⟩ := fragments_of_wrap hparts'
      have hsame : ∀ (body : NodeId) (g : Option Trace) m,
          ((Plan.wrap body Made.ofOption).make [g]).fragment m = g :=
        fun _ g _ => by cases g <;> rfl
      rw [hsame, hsame]
      exact hrelated hbody f f' hf hf'

theorem Construct.Specializes.child {construct construct' : Construct} {part : NodeId}
    (h : Construct.Specializes p q related construct construct')
    (hpart : part ∈ construct.children) :
    ∃ part', related part part' := by
  cases h with
  | skip | stop | input | output | assign => cases hpart
  | compose hchildren =>
      obtain ⟨part', -, hrelated⟩ := exists_related_of_mem hchildren hpart
      exact ⟨part', hrelated⟩
  | replicate _ hbody | loop _ hbody | block hbody => exact ⟨_, List.mem_singleton.1 hpart ▸ hbody⟩
  | cond harms =>
      obtain ⟨arm, harm, rfl⟩ := List.mem_map.1 hpart
      obtain ⟨arm', -, hspecializes⟩ := exists_related_of_mem harms harm
      exact ⟨arm'.body, hspecializes.body⟩
  | alt harms =>
      obtain ⟨arm, harm, rfl⟩ := List.mem_map.1 hpart
      obtain ⟨arm', -, hspecializes⟩ := exists_related_of_mem harms harm
      exact ⟨arm'.body, hspecializes.body⟩

theorem complete_of_related (hspecialization : IsSpecialization p q related) (depth : Nat)
    {node node' : NodeId} (hrelated : related node node') {t : Trace}
    (h : MayYield (YieldsWithin ⟨p, options⟩ depth) node (some t)) : t.Complete := by
  induction depth generalizing node node' t with
  | zero =>
      obtain ⟨_, _, _, h⟩ := h
      exact h.elim
  | succ depth ih =>
      obtain ⟨construct, construct', hnode, -, hspecializes⟩ := hspecialization hrelated
      obtain ⟨plan, fragments, n, hplan, hparts, hmade⟩ := h.planned hnode hspecializes.ne_call.1
      refine fragmentary_complete.make hplan (fun u hu => ?_) hmade.symm
      obtain ⟨part, hpart, hyields⟩ := exists_related_of_mem hparts.flip hu
      obtain ⟨part', hpart'⟩ := hspecializes.child (mem_children_of_plan hplan hpart)
      exact ih hpart' hyields

/-- What a tree contributes, a specialised tree narrows. -/
theorem narrows_of_related (hspecialization : IsSpecialization p q related) (depth depth' : Nat)
    {node node' : NodeId} (hrelated : related node node') {f f' : Option Trace}
    (h : MayYield (YieldsWithin ⟨p, options⟩ depth) node f)
    (h' : MayYield (YieldsWithin ⟨q, options⟩ depth') node' f') : v.Narrows f f' := by
  induction depth generalizing depth' node node' f f' with
  | zero =>
      obtain ⟨_, _, _, h⟩ := h
      exact h.elim
  | succ depth ih =>
      cases depth' with
      | zero =>
          obtain ⟨_, _, _, h'⟩ := h'
          exact h'.elim
      | succ depth' =>
          obtain ⟨construct, construct', hnode, hnode', hspecializes⟩ :=
            hspecialization hrelated
          obtain ⟨hcall, hcall'⟩ := hspecializes.ne_call
          obtain ⟨plan, fragments, n, hplan, hparts, rfl⟩ := h.planned hnode hcall
          obtain ⟨plan', fragments', n', hplan', hparts', rfl⟩ := h'.planned hnode' hcall'
          refine hspecializes.narrows hplan hplan' hparts hparts' ?_
            (fun hpart f f' => ih depth' hpart) n n'
          intro f hf
          refine fragmentary_complete.getD fun t ht => ?_
          obtain ⟨part, hpart, hyields⟩ := exists_related_of_mem hparts.flip hf
          obtain ⟨part', hpart'⟩ := hspecializes.child (mem_children_of_plan hplan hpart)
          exact complete_of_related hspecialization depth hpart' (ht ▸ hyields)

theorem check_process_answers (horder : p.InOrder) {node : NodeId} {written : Spanned Construct}
    (hnode : p.spannedConstruct node = .ok written) {session : Session}
    (hstore : Session.InRange p session) :
    ∃ outcome last, check ⟨p, options⟩ (.process node) session = (.ok outcome, last) := by
  have hlt : node.index < p.nodes.size := of_decide_eq_true (Program.contains_of_construct hnode)
  obtain ⟨outcome, last, hcheck, -⟩ :=
    @check_answers ⟨p, options⟩ (.process node) session horder hlt hstore
  exact ⟨outcome, last, hcheck⟩

theorem freeRefs_finish {t : Trace} (ht : t.freeRefs = []) (setting : Setting) :
    (finish setting t).freeRefs = [] := by
  unfold finish
  split
  · exact freeRefs_simplify ht
  · exact ht

theorem alike_finish {t : Trace} (ht : t.freeRefs = []) (setting : Setting) :
    v.Alike t (finish setting t) := by
  unfold finish
  split
  · exact alike_simplify_of_closed ht
  · exact .refl v t

theorem View.Covers.finish {t u : Trace} (h : v.Covers t u) (setting setting' : Setting) :
    v.bare.Permits (finish setting t) v.bare (finish setting' u) := by
  have ht := h.left.closed
  have hu := h.right.closed
  have hspec : v.bare.Permits (Walk.finish setting t) v.bare u :=
    (alike_finish ht setting).shows_right.permits (freeRefs_finish ht setting) ht h.permits
  exact hspec.of_agree ((alike_finish hu setting').agree hu (freeRefs_finish hu setting')).symm

/-- Where checks of a tree and of a specialised tree answer, the trace of the first one is never
refuted by the other one. In programs that are in order they do answer. -/
theorem unrefuted_of_specialization (hspecialization : IsSpecialization p q related)
    {node node' : NodeId} (hrelated : related node node') (options : Options)
    (session session' : Session) :
    (∀ outcome outcome' last last',
      check ⟨p, options⟩ (.process node) session = (.ok outcome, last) →
      check ⟨q, options⟩ (.process node') session' = (.ok outcome', last') →
      ∃ t t', outcome.traces = .single t ∧ outcome'.traces = .single t' ∧
        ∀ program, Unrefuted program t t') ∧
    (p.InOrder → Session.InRange p session → ∃ outcome last,
      check ⟨p, options⟩ (.process node) session = (.ok outcome, last)) ∧
    (q.InOrder → Session.InRange q session' → ∃ outcome last,
      check ⟨q, options⟩ (.process node') session' = (.ok outcome, last)) := by
  refine ⟨fun outcome outcome' last last' hcheck hcheck' => ?_, fun horder hstore => ?_,
    fun horder hstore => ?_⟩
  · obtain ⟨account, state, hyields, -, -⟩ := check_eq_ok_iff.1 hcheck
    obtain ⟨account', state', hyields', -, -⟩ := check_eq_ok_iff.1 hcheck'
    generalize outcome.traces = traces, outcome'.traces = traces' at hyields hyields' ⊢
    cases hyields with
    | process hwalk =>
    cases hyields' with
    | process hwalk' =>
    refine ⟨_, _, rfl, rfl, fun program => ?_⟩
    have hnarrows := narrows_of_related (v := program.view) hspecialization _ _ hrelated
      ⟨_, _, _, hwalk⟩ ⟨_, _, _, hwalk'⟩
    exact unrefuted_of_permits
      (isClosed_iff.2 (freeRefs_finish hnarrows.covers.left.closed _))
      (isClosed_iff.2 (freeRefs_finish hnarrows.covers.right.closed _))
      (hnarrows.covers.finish _ _)
  · obtain ⟨_, _, ⟨_, hnode, -⟩, -⟩ := hspecialization hrelated
    exact check_process_answers horder hnode hstore
  · obtain ⟨_, _, -, ⟨_, hnode, -⟩, -⟩ := hspecialization hrelated
    exact check_process_answers horder hnode hstore

end Trees

/-! ## A case -/

/-- Reports on one channel if it is asked to, and waits on another one in a number of copies, where
an alternative is to do nothing. Everything depends on the run. -/
def sampler : Program where
  name := "sampler"
  names := #[⟨"report", .channel, {}⟩, ⟨"probe", .channel, {}⟩]
  exprs := #[⟨.runtime, {}⟩, ⟨.name ⟨0⟩, {}⟩, ⟨.name ⟨1⟩, {}⟩]
  nodes := #[⟨.compose .seq [⟨1⟩, ⟨3⟩], {}⟩, ⟨.cond [⟨⟨0⟩, ⟨2⟩⟩], {}⟩, ⟨.output ⟨1⟩, {}⟩,
    ⟨.replicate .par ⟨0⟩ ⟨4⟩, {}⟩, ⟨.alt [⟨none, .input ⟨2⟩, ⟨5⟩⟩, ⟨some ⟨0⟩, .skip, ⟨5⟩⟩], {}⟩,
    ⟨.skip, {}⟩]

/-- The same with the report left out, two copies, and no alternative in them. -/
def settledSampler : Program := { sampler with
  exprs := sampler.exprs ++ #[⟨.bool false, {}⟩, ⟨.int 2, {}⟩]
  nodes := #[⟨.compose .seq [⟨1⟩, ⟨3⟩], {}⟩, ⟨.cond [⟨⟨3⟩, ⟨2⟩⟩], {}⟩, ⟨.output ⟨1⟩, {}⟩,
    ⟨.replicate .par ⟨4⟩ ⟨4⟩, {}⟩, ⟨.alt [⟨none, .input ⟨2⟩, ⟨5⟩⟩, ⟨some ⟨3⟩, .skip, ⟨5⟩⟩], {}⟩,
    ⟨.skip, {}⟩] }

theorem inOrder_sampler : sampler.InOrder ∧ settledSampler.InOrder := by
  constructor
  · refine Program.inOrder_of_ascending ⟨by decide, by decide, by decide, by decide, by decide,
      by decide, by decide, by decide⟩ (by decide) (by decide) fun _ _ _ _ _ hdecl => ?_
    cases hdecl
  · refine Program.inOrder_of_ascending ⟨by decide, by decide, by decide, by decide, by decide,
      by decide, by decide, by decide⟩ (by decide) (by decide) fun _ _ _ _ _ hdecl => ?_
    cases hdecl

theorem sampler_isSpecialization : IsSpecialization sampler settledSampler
    fun node node' => node = node' ∧ node.index < 6 := by
  have hextends : settledSampler.Extends sampler := ⟨_, rfl⟩
  have hguard : Learns sampler.constantTruth settledSampler.constantTruth ⟨0⟩ ⟨3⟩ :=
    .learned (show sampler.constantTruth ⟨0⟩ = .ok none by cbv)
      (show settledSampler.constantTruth ⟨3⟩ = .ok (some false) by cbv)
  have hcount : Learns sampler.constantValue settledSampler.constantValue ⟨0⟩ ⟨4⟩ :=
    .learned (show sampler.constantValue ⟨0⟩ = .ok none by cbv)
      (show settledSampler.constantValue ⟨4⟩ = .ok (some 2) by cbv)
  rintro ⟨index⟩ _ ⟨rfl, (hlt : index < 6)⟩
  have hcases : index = 0 ∨ index = 1 ∨ index = 2 ∨ index = 3 ∨ index = 4 ∨ index = 5 := by omega
  rcases hcases with rfl | rfl | rfl | rfl | rfl | rfl <;>
    refine ⟨_, _, ⟨_, rfl, rfl⟩, ⟨_, rfl, rfl⟩, ?_⟩
  · exact .compose (.cons (by decide) (.cons (by decide) .nil))
  · exact .cond (.cons ⟨hguard, by decide⟩ .nil)
  · exact .output (hextends.ofExpr _)
  · exact .replicate hcount (by decide)
  · exact .alt (.cons ⟨.none, .input (hextends.ofExpr _), by decide⟩
      (.cons ⟨.some hguard, .skip, by decide⟩ .nil))
  · exact .skip

/-- Two waiting copies are among what the program may do. -/
theorem sampler_narrowed : ∃ t outcome last,
    check { program := sampler } (.process ⟨0⟩) {} = (.ok outcome, last) ∧
      outcome.traces = .single t ∧ ∀ program, Unrefuted program t
        (.comp .par [.event .input ⟨⟨2⟩, none⟩, .event .input ⟨⟨2⟩, none⟩]) := by
  obtain ⟨hunrefuted, hanswers, hanswers'⟩ := unrefuted_of_specialization sampler_isSpecialization
    (show (⟨0⟩ : NodeId) = ⟨0⟩ ∧ 0 < 6 by decide) {} {} {}
  obtain ⟨outcome, last, hcheck⟩ := hanswers inOrder_sampler.1 (by intro _ _ h; cases h)
  obtain ⟨outcome', last', hcheck'⟩ := hanswers' inOrder_sampler.2 (by intro _ _ h; cases h)
  obtain ⟨t, t', ht, ht', hall⟩ := hunrefuted _ _ _ _ hcheck hcheck'
  have hsettled : (check { program := settledSampler } (.process ⟨0⟩) {}).1.map Outcome.traces =
      .ok (.single (.comp .par [.event .input ⟨⟨2⟩, none⟩, .event .input ⟨⟨2⟩, none⟩])) := by cbv
  rw [hcheck'] at hsettled
  cases ht'.symm.trans (Except.ok.inj hsettled)
  exact ⟨t, outcome, last, hcheck, ht, hall⟩

end ProcessContracts
