import ProcessContracts.Proofs.Closure
import ProcessContracts.Proofs.Effects
import ProcessContracts.Proofs.FiniteStates
import ProcessContracts.Proofs.Rounds
import ProcessContracts.Proofs.ScopedChecks
import ProcessContracts.Proofs.WiderSearches

/-!
# Searches that are always decided

A search expands states and does nothing else to the space it works on, so what expanding a state
keeps is kept by the whole search, however it ends. In particular the search finds no states but
those that the two traces get to. Where these are finitely many, as they are for tail-recursive
traces, a bound beyond their number is never hit.
-/

namespace ProcessContracts

open Trace

variable {limit : Nat} {program : Program} {states : Set Trace} {α β : Type}

namespace Explore

/-! ## What every end keeps -/

/-- The property is kept, whatever end the computation comes to. -/
def Maintains (inv : Space limit → Prop) (m : Explore limit α) : Prop :=
  ∀ space, inv space → match m.run space with
    | .ok _ last | .error _ last => inv last

/-- The space the computation leaves behind, whatever end it comes to. -/
def endSpace (m : Explore limit α) (space : Space limit) : Space limit :=
  match m.run space with
  | .ok _ last | .error _ last => last

variable {inv : Space limit → Prop} {m : Explore limit α}

theorem Maintains.endSpace (h : Maintains inv m) {space : Space limit} (hspace : inv space) :
    inv (endSpace m space) := by
  have hm := h space hspace
  unfold Explore.endSpace
  cases hrun : m.run space with
  | ok a last =>
      rw [hrun] at hm
      exact hm
  | error halt last =>
      rw [hrun] at hm
      exact hm

theorem maintains_pure (a : α) : Maintains inv (pure a : Explore limit α) := fun _ hspace => hspace

theorem maintains_throw (halt : Halt) : Maintains inv (throw halt : Explore limit α) :=
  fun _ hspace => hspace

theorem Maintains.bind {f : α → Explore limit β} (h : Maintains inv m)
    (hf : ∀ a, Maintains inv (f a)) : Maintains inv (m >>= f) := by
  intro space hspace
  have hm := h space hspace
  change match EStateM.bind m f space with
    | .ok _ last | .error _ last => inv last
  unfold EStateM.bind
  rw [EStateM.run] at hm
  cases hrun : m space with
  | error halt last =>
      rw [hrun] at hm
      exact hm
  | ok a mid =>
      rw [hrun] at hm
      exact hf a mid hm

/-- What is read off the space has the property. -/
theorem maintains_get_bind {f : Space limit → Explore limit α}
    (h : ∀ space, inv space → Maintains inv (f space)) : Maintains inv (get >>= f) :=
  fun space hspace => h space hspace space hspace

theorem maintains_liftLookup (look : Lookup α) :
    Maintains inv (liftLookup look : Explore limit α) := by
  cases look with
  | ok a => exact maintains_pure a
  | error fault => exact maintains_throw _

theorem maintains_forM {f : α → Explore limit PUnit} (h : ∀ a, Maintains inv (f a)) (l : List α) :
    Maintains inv (l.forM f) := by
  induction l with
  | nil => exact maintains_pure _
  | cons a l ih => exact (h a).bind fun _ => ih

section Search

variable (hexpand : ∀ id : Fin limit, Maintains inv (expand program id))
include hexpand

theorem maintains_close (seen : StateSet limit) (stack : List (Fin limit)) :
    Maintains inv (close program seen stack) := by
  induction seen, stack using close.induct with
  | case1 seen =>
      rw [close]
      exact maintains_pure _
  | case2 seen id stack hmem ih =>
      rw [close, dif_pos hmem]
      exact ih
  | case3 seen id stack hnew ih =>
      rw [close, dif_neg hnew]
      exact (hexpand id).bind fun steps => ih steps

theorem maintains_closure (seeds : List (Fin limit)) : Maintains inv (closure program seeds) :=
  maintains_close hexpand _ _

theorem maintains_step (set : StateSet limit) (label : Label) :
    Maintains inv (step program set label) :=
  maintains_get_bind fun _ _ => maintains_closure hexpand _

theorem maintains_follow (reached : Reached limit) (labels : List Label) :
    Maintains inv (follow program reached labels) := by
  induction labels with
  | nil => exact maintains_pure _
  | cons label rest ih =>
      refine (maintains_step hexpand _ _).bind fun spec => ?_
      split
      case isTrue => exact maintains_pure _
      case isFalse =>
        split
        case isTrue => exact ih
        case isFalse =>
          exact (maintains_step hexpand _ _).bind fun _ => ih.bind fun _ => maintains_pure _

theorem maintains_inspect (reached : Reached limit) (tally : Tally) :
    Maintains inv (inspect program reached tally) := by
  refine maintains_get_bind fun space _ => ?_
  split
  case isTrue => exact maintains_pure _
  case isFalse =>
    split
    case isTrue => exact maintains_pure _
    case isFalse =>
      split
      case isTrue => exact maintains_pure _
      case isFalse =>
        exact (maintains_follow hexpand reached _).bind fun _ => maintains_pure _

theorem maintains_search (visited : List (StateSet limit × StateSet limit)) (nodup : visited.Nodup)
    (tally : Tally) (queue : List (Reached limit)) :
    Maintains inv (search program visited nodup tally queue) := by
  induction visited, nodup, tally, queue using search.induct with
  | case1 visited nodup tally =>
      rw [search]
      exact maintains_pure _
  | case2 visited nodup tally reached queue seen ih =>
      rw [search, dif_pos seen]
      exact ih
  | case3 visited nodup tally reached queue new ih =>
      rw [search, dif_neg new]
      refine (maintains_inspect hexpand reached tally).bind fun result => ?_
      cases result with
      | error violation => exact maintains_pure _
      | ok found => exact ih found.1 found.2

end Search

end Explore

/-! ## States from a set -/

/-- All states found so far are in the set. -/
def Space.Within (states : Set Trace) (space : Space limit) : Prop :=
  ∀ (i : Nat) t, space.states[i]? = some t → t ∈ states

/-- A space holds no state twice. -/
theorem Space.Within.size_le {space : Space limit} (h : space.Within states)
    (hfinite : states.Finite) : space.states.size ≤ hfinite.toFinset.card := by
  have hshows : ∀ i : Fin space.states.size,
      space.Shows ⟨i, Nat.lt_of_lt_of_le i.2 space.size_le⟩ space.states[i] := fun i => by
    simp [Space.Shows]
  have hinj : Function.Injective fun i : Fin space.states.size => space.states[i] :=
    fun i j hij => by
      have hj := hshows j
      rw [← show space.states[i] = space.states[j] from hij] at hj
      exact Fin.ext (Fin.mk.inj ((hshows i).inj hj))
  calc space.states.size
      = (Finset.univ.map ⟨_, hinj⟩).card := by rw [Finset.card_map, Finset.card_fin]
    _ ≤ hfinite.toFinset.card := Finset.card_le_card fun t ht => by
        obtain ⟨i, -, rfl⟩ := Finset.mem_map.1 ht
        exact hfinite.mem_toFinset.2 (h i _ (hshows i))

namespace Explore

theorem within_intern {t : Trace} (ht : t ∈ states) :
    Maintains (Space.Within states) (intern t : Explore limit (Fin limit)) := by
  refine maintains_get_bind fun space hspace => ?_
  split
  case h_1 => exact maintains_pure _
  case h_2 hnew =>
    split
    case isFalse => exact maintains_throw _
    case isTrue room =>
      have hpush : (space.push t room hnew).Within states := by
        intro i u hi
        rw [Space.push, Array.getElem?_push] at hi
        split at hi
        case isTrue => exact Option.some.inj hi ▸ ht
        case isFalse => exact hspace i u hi
      have hset : Maintains (Space.Within states)
          (set (space.push t room hnew) : Explore limit PUnit) := fun _ _ => hpush
      exact hset.bind fun _ => maintains_pure _

theorem within_internSteps {steps : List (Move × Trace)}
    (hsteps : ∀ step ∈ steps, step.2.simplify ∈ states) :
    Maintains (Space.Within states)
      (internSteps steps : Explore limit (List (Move × Fin limit))) := by
  induction steps with
  | nil => exact maintains_pure _
  | cons step rest ih =>
      obtain ⟨hnext, hrest⟩ := List.forall_mem_cons.1 hsteps
      exact (within_intern hnext).bind fun _ => (ih hrest).bind fun _ => maintains_pure _

section Steps

variable (hstates : ∀ t ∈ states, ∀ m u, (m, u) ∈ t.moves (ChannelKey.ofRef program) →
  u.simplify ∈ states)
include hstates

theorem within_expand (id : Fin limit) : Maintains (Space.Within states) (expand program id) := by
  refine maintains_get_bind fun space hspace => ?_
  split
  case h_1 => exact maintains_pure _
  case h_2 =>
    split
    case h_1 => exact maintains_pure _
    case h_2 t ht =>
      refine (maintains_forM (fun chan => maintains_liftLookup _) _).bind fun _ => ?_
      refine (within_internSteps fun step hstep => hstates t (hspace _ t ht) _ _ hstep).bind
        fun steps => ?_
      have hrecord : Maintains (Space.Within states) (modify fun space : Space limit =>
          { space with edges := space.edges.insert id.val steps }) := fun _ hspace => hspace
      exact hrecord.bind fun _ => maintains_pure _

theorem within_start {spec imp : Trace} (hspec : spec.simplify ∈ states)
    (himp : imp.simplify ∈ states) : Maintains (Space.Within states)
      (start program spec imp : Explore limit (Reached limit)) :=
  (within_intern himp).bind fun _ => (within_intern hspec).bind fun _ =>
    (maintains_closure (within_expand hstates) _).bind fun _ =>
      (maintains_closure (within_expand hstates) _).bind fun _ => maintains_pure _

end Steps

end Explore

section Runs

variable {spec imp : Trace}

/-- Comparing two traces tells how many states are in the space that the search leaves behind. -/
theorem statesExplored_of_refines {report : RefinementReport}
    (h : refines program spec imp limit = .ok report) : report.statesExplored =
      (Explore.endSpace (do
        Explore.search program [] List.nodup_nil {} [← Explore.start program spec imp])
        ({} : Space limit)).states.size := by
  unfold Explore.endSpace
  obtain ⟨reached, mid, last, hstart, hsearch, hsize⟩ | ⟨last, hrun, rfl⟩ := cases_of_refines h
  · rw [bind_eq_ok.2 ⟨reached, mid, hstart, hsearch⟩]
    exact hsize
  · rw [hrun]

/-- A search finds no states but those of a set that the two traces are in and steps stay in. -/
theorem within_endSpace
    (hstates : ∀ t ∈ states, ∀ m u, (m, u) ∈ t.moves (ChannelKey.ofRef program) →
      u.simplify ∈ states)
    (hspec : spec.simplify ∈ states) (himp : imp.simplify ∈ states) :
    (Explore.endSpace (do
      Explore.search program [] List.nodup_nil {} [← Explore.start program spec imp])
      ({} : Space limit)).Within states :=
  ((Explore.within_start hstates hspec himp).bind fun reached =>
    Explore.maintains_search (Explore.within_expand hstates) [] List.nodup_nil {}
      [reached]).endSpace fun i t hi => by simp at hi

end Runs

/-- A bound beyond the number of states is not hit. -/
theorem conclusive_of_finite {spec imp : Trace} (hfinite : states.Finite)
    (hstates : ∀ t ∈ states, ∀ m u, (m, u) ∈ t.moves (ChannelKey.ofRef program) →
      u.simplify ∈ states)
    (hspec : spec.simplify ∈ states) (himp : imp.simplify ∈ states)
    (hlimit : hfinite.toFinset.card < limit) {report : RefinementReport}
    (h : refines program spec imp limit = .ok report) : report.verdict ≠ .inconclusive := by
  have hwithin := @within_endSpace limit _ _ _ _ hstates hspec himp
  unfold Explore.endSpace at hwithin
  obtain ⟨reached, mid, last, -, hsearch, -⟩ | ⟨last, hrun, rfl⟩ := cases_of_refines h
  · exact Explore.conclusive_of_search hsearch
  · rw [hrun] at hwithin
    have hsize : limit ≤ hfinite.toFinset.card :=
      Explore.size_of_exhausted hrun ▸ hwithin.size_le hfinite
    omega

/-! ## Loops -/

theorem Trace.inTail_seq {id : AtomId} {t : Trace} (h : id ∉ t.freeRefs) :
    InTail id (.comp .seq [t, .ref id]) :=
  have hpair : InTail id (.comp .seq ([t] ++ [.ref id])) :=
    .seq (List.forall_mem_singleton.2 h) .ref
  hpair

theorem Trace.inTail_ndet {id : AtomId} {t u : Trace} (h : id ∉ t.freeRefs) (hu : InTail id u) :
    InTail id (.comp .ndet [t, u]) :=
  .choice (.inr rfl) (List.forall_mem_cons.2 ⟨.absent h, List.forall_mem_singleton.2 hu⟩)

namespace Walk

variable {setting : Setting} {visit : NodeId → Walk Unit} {depth : Nat} {node body : NodeId}
  {s s' mid : WalkState}

/-- What is planned is added, with some fragment of the body. If that is a fixed point, its atom is
new to the fragment of the body, and is referred to at the end only. -/
def AddsTail (plan : Plan) (s s' : WalkState) : Prop :=
  ∃ (part : Option Trace) (n : Nat),
    s'.buckets = contribute ((plan.make [part]).fragment n).toList s.buckets ∧
    (∀ t ∈ part, (⟨n⟩ : AtomId) ∉ t.freeRefs) ∧
    ∀ binder inner, (plan.make [part]).fragment n = some (.fix binder inner) →
      inner.InTail binder.id

theorem buckets_of_emit {t : Trace} (hopen : Receives s.buckets)
    (hrun : (emit node t).run s = .ok () s') : s'.buckets = contribute [t] s.buckets := by
  obtain ⟨last, hemit, -, hbuckets⟩ := emit_run hopen node t
  obtain ⟨-, rfl⟩ := EStateM.Result.ok.inj (hemit.symm.trans hrun)
  exact hbuckets

/-- A fixed point with a fresh binder. -/
theorem buckets_of_mint {origin : Origin} (inner : AtomId → Trace) (hopen : Receives s.buckets)
    (hrun : (mint origin >>= fun atom => emit node (.fix atom (inner atom.id))).run s = .ok () s') :
    s'.buckets = contribute [.fix ⟨⟨s.minted⟩, origin⟩ (inner ⟨s.minted⟩)] s.buckets := by
  obtain ⟨atom, mid, hmint, hrun⟩ := bind_eq_ok.1 hrun
  obtain ⟨rfl, rfl⟩ := Prod.mk.inj (modifyGet_eq_ok.1 hmint)
  exact buckets_of_emit (s := { s with supply := ⟨s.minted + 1⟩ }) hopen hrun

theorem inTail_rounds {truth : Option Bool} {part : Option Trace} {n : Nat} {binder : Atom}
    {inner : Trace} (hfresh : ∀ t ∈ part, (⟨n⟩ : AtomId) ∉ t.freeRefs)
    (h : ((Plan.rounds node body truth).make [part]).fragment n = some (.fix binder inner)) :
    inner.InTail binder.id := by
  match truth, part with
  | some false, _ | some true, none => cases h
  | some true, some t =>
      obtain ⟨rfl, rfl⟩ := Trace.fix.inj (Option.some.inj h)
      exact inTail_seq (hfresh t rfl)
  | none, none =>
      obtain ⟨rfl, rfl⟩ := Trace.fix.inj (Option.some.inj h)
      exact inTail_ndet List.not_mem_nil .ref
  | none, some t =>
      obtain ⟨rfl, rfl⟩ := Trace.fix.inj (Option.some.inj h)
      exact inTail_ndet (hfresh t rfl) .ref

/-- A replication makes so many copies of a fragment, or repeats it as often as it comes to be. -/
theorem made_replication {folded : Option Int64} (h : ¬ folded.any (·.toInt ≤ 0) = true)
    (t : Trace) :
    (∃ n, unrolling setting folded = some n ∧
      (Plan.replication setting node .seq body folded).make [some t] =
        .plain (.comp .seq (List.replicate n t))) ∨
    unrolling setting folded = none ∧
      (Plan.replication setting node .seq body folded).make [some t] =
        .repeated (.replication node) .seq t := by
  rw [Plan.replication, if_neg h]
  cases hcount : unrolling setting folded with
  | some n => exact .inl ⟨n, rfl, rfl⟩
  | none => exact .inr ⟨rfl, rfl⟩

theorem inTail_replication {folded : Option Int64} {part : Option Trace} {n : Nat} {binder : Atom}
    {inner : Trace} (hfresh : ∀ t ∈ part, (⟨n⟩ : AtomId) ∉ t.freeRefs)
    (h : ((Plan.replication setting node .seq body folded).make [part]).fragment n =
      some (.fix binder inner)) : inner.InTail binder.id := by
  by_cases hnone : folded.any (·.toInt ≤ 0) = true
  · rw [Plan.replication, if_pos hnone] at h
    cases h
  cases part with
  | none =>
      rw [Plan.replication, if_neg hnone] at h
      cases h
  | some t =>
      rcases @made_replication setting node body _ hnone t with ⟨n, -, hmade⟩ | ⟨-, hmade⟩
      · rw [hmade] at h
        cases h
      · rw [hmade] at h
        obtain ⟨rfl, rfl⟩ := Trace.fix.inj (Option.some.inj h)
        exact inTail_ndet List.not_mem_nil (inTail_seq (hfresh t rfl))

/-- The atom that is minted next does not occur in the fragment of the body. -/
theorem collectSingle_fresh (hvisit : (scoping setting).Visits depth visit)
    (hs : (scoping setting).Sound s) (hopen : Receives s.buckets) {construct : String}
    {fragment : Option Trace}
    (hrun : (collectSingle setting visit construct node body).run s = .ok fragment mid) :
    mid.buckets = s.buckets ∧ ∀ t ∈ fragment, (⟨mid.minted⟩ : AtomId) ∉ t.freeRefs := by
  have hmay : (scoping setting).May depth (owners s.frames) body := trivial
  have hkeeps := Invariant.keeps_part hvisit hs hopen node construct hmay
  unfold Invariant.Keeps at hkeeps
  rw [hrun] at hkeeps
  obtain ⟨hmid, -, hbuckets, hfits⟩ := hkeeps
  refine ⟨hbuckets, fun t ht hid => Nat.lt_irrefl mid.minted ?_⟩
  exact hmid.holds.1.minted _ ((hfits t ht).mem_bound hid)

theorem loop_addsTail (hvisit : (scoping setting).Visits depth visit)
    (hs : (scoping setting).Sound s) (hopen : Receives s.buckets) {guard : ExprId}
    (hrun : (loop setting visit node guard body).run s = .ok () s') :
    ∃ truth, setting.program.constantTruth guard = .ok truth ∧
      AddsTail (.rounds node body truth) s s' := by
  obtain ⟨truth, htruth, hrun⟩ := liftLookup_bind_eq_ok.1 hrun
  refine ⟨truth, htruth, ?_⟩
  match truth with
  | some false =>
      obtain ⟨-, rfl⟩ := pure_eq_ok.1 hrun
      exact ⟨none, s.minted, (contribute_nil _).symm, nofun, fun _ _ => inTail_rounds nofun⟩
  | some true =>
      obtain ⟨part, mid, hpart, hrun⟩ := bind_eq_ok.1 hrun
      obtain ⟨hbuckets, hfresh⟩ := collectSingle_fresh hvisit hs hopen hpart
      rw [← hbuckets] at hopen
      refine ⟨part, mid.minted, ?_, hfresh, fun _ _ => inTail_rounds hfresh⟩
      rw [← hbuckets]
      match part with
      | none => exact buckets_of_emit hopen hrun
      | some t => exact buckets_of_mint (fun id => .comp .seq [t, .ref id]) hopen hrun
  | none =>
      obtain ⟨part, mid, hpart, hrun⟩ := bind_eq_ok.1 hrun
      obtain ⟨hbuckets, hfresh⟩ := collectSingle_fresh hvisit hs hopen hpart
      rw [← hbuckets] at hopen
      refine ⟨part, mid.minted, ?_, hfresh, fun _ _ => inTail_rounds hfresh⟩
      rw [← hbuckets]
      exact buckets_of_mint (fun id => .comp .ndet [part.getD .skip, .ref id]) hopen hrun

theorem replicate_addsTail (hvisit : (scoping setting).Visits depth visit)
    (hs : (scoping setting).Sound s) (hopen : Receives s.buckets) {count : ExprId}
    (hrun : (replicate setting visit node .seq count body).run s = .ok () s') :
    ∃ folded, setting.program.constantValue count = .ok folded ∧
      AddsTail (.replication setting node .seq body folded) s s' := by
  obtain ⟨folded, hfolded, hrun⟩ := liftLookup_bind_eq_ok.1 hrun
  refine ⟨folded, hfolded, ?_⟩
  have hadds : ∀ {part n}, s'.buckets = contribute
      (((Plan.replication setting node .seq body folded).make [part]).fragment n).toList s.buckets →
      (∀ t ∈ part, (⟨n⟩ : AtomId) ∉ t.freeRefs) →
      AddsTail (.replication setting node .seq body folded) s s' :=
    fun hbuckets hfresh => ⟨_, _, hbuckets, hfresh, fun _ _ => inTail_replication hfresh⟩
  split at hrun
  case isTrue hnone =>
    obtain ⟨-, rfl⟩ := pure_eq_ok.1 hrun
    refine @hadds none s.minted ?_ nofun
    rw [Plan.replication, if_pos hnone]
    exact (contribute_nil _).symm
  case isFalse hsome =>
    obtain ⟨part, mid, hpart, hrun⟩ := bind_eq_ok.1 hrun
    obtain ⟨hbuckets, hfresh⟩ := collectSingle_fresh hvisit hs hopen hpart
    rw [← hbuckets] at hopen
    refine hadds ?_ hfresh
    rw [← hbuckets]
    cases part with
    | none =>
        obtain ⟨-, rfl⟩ := pure_eq_ok.1 hrun
        rw [Plan.replication, if_neg hsome]
        exact (contribute_nil _).symm
    | some t =>
        dsimp only at hrun
        rcases @made_replication setting node body _ hsome t with
          ⟨n, hcount, hmade⟩ | ⟨hcount, hmade⟩
        · rw [hcount] at hrun
          rw [hmade]
          exact buckets_of_emit hopen hrun
        · rw [hcount] at hrun
          rw [hmade]
          exact buckets_of_mint (fun id => .comp .ndet [.skip, .comp .seq [t, .ref id]]) hopen hrun

end Walk

open Walk in
/-- Closed tail-recursive traces get to finitely many states. So from some bound on their comparison
is decided; it has an answer where their channels resolve. In every state that walks keep
well-scoped, loops and sequential replications contribute what is planned for them, and the fixed
points among it are of this kind. -/
theorem tail_recursion_decided :
    (∀ (program : Program) (spec imp : Trace), spec.isClosed = true → spec.TailRecursive →
      imp.isClosed = true → imp.TailRecursive →
        {t | spec.Reaches (ChannelKey.ofRef program) t ∨
          imp.Reaches (ChannelKey.ofRef program) t}.Finite ∧
        ∃ bound, ∀ limit, bound ≤ limit →
          ((∀ chan ∈ spec.channels ++ imp.channels,
              ∃ key, ChannelKey.resolve program chan = .ok key) →
            ∃ report, refines program spec imp limit = .ok report) ∧
          ∀ report, refines program spec imp limit = .ok report →
            report.verdict ≠ .inconclusive) ∧
    ∀ (setting : Setting) (depth : Nat) (node body : NodeId) (expr : ExprId) (s s' : WalkState),
      (scoping setting).Sound s → Receives s.buckets →
      ((loop setting (walkWithin setting depth) node expr body).run s = .ok () s' →
        ∃ truth, setting.program.constantTruth expr = .ok truth ∧
          AddsTail (.rounds node body truth) s s') ∧
      ((replicate setting (walkWithin setting depth) node .seq expr body).run s = .ok () s' →
        ∃ folded, setting.program.constantValue expr = .ok folded ∧
          AddsTail (.replication setting node .seq body folded) s s') := by
  constructor
  · intro program spec imp hspec hspec' himp himp'
    have hfinite : {t | spec.Reaches (ChannelKey.ofRef program) t ∨
        imp.Reaches (ChannelKey.ofRef program) t}.Finite :=
      (hspec'.bounded (isClosed_iff.1 hspec)).finite_reaches.union
        (himp'.bounded (isClosed_iff.1 himp)).finite_reaches
    have hstates : ∀ t ∈ {t | spec.Reaches (ChannelKey.ofRef program) t ∨
        imp.Reaches (ChannelKey.ofRef program) t}, ∀ m u,
          (m, u) ∈ t.moves (ChannelKey.ofRef program) →
            spec.Reaches (ChannelKey.ofRef program) u.simplify ∨
              imp.Reaches (ChannelKey.ofRef program) u.simplify :=
      fun t ht m u hm => ht.imp (.step · hm) (.step · hm)
    exact ⟨hfinite, hfinite.toFinset.card + 1, fun limit hlimit => ⟨exists_report limit,
      fun report => conclusive_of_finite hfinite hstates (.inl .start) (.inr .start) hlimit⟩⟩
  · intro setting depth node body expr s s' hs hopen
    have hvisit : (scoping setting).Visits depth (walkWithin setting depth) :=
      Invariant.keeps_walkWithin depth
    exact ⟨loop_addsTail hvisit hs hopen, replicate_addsTail hvisit hs hopen⟩

/-- Waits for a tick and writes some ticks itself, again and again. The inner loop leaves for the
next round of the outer one. -/
def bursts : Trace :=
  .fix ⟨⟨0⟩, .loop ⟨0⟩⟩ (.comp .seq [.event .input ⟨⟨0⟩, none⟩, .fix ⟨⟨1⟩, .loop ⟨1⟩⟩
    (.comp .ndet [.comp .seq [.event .output ⟨⟨0⟩, none⟩, .ref ⟨1⟩], .ref ⟨0⟩])])

theorem ticking_tailRecursive : ticking.TailRecursive := by
  intro binder body hfix
  obtain ⟨rfl, rfl⟩ : binder = _ ∧ body = _ := by simpa [ticking, parts] using hfix
  exact inTail_seq List.not_mem_nil

theorem bursts_tailRecursive : bursts.TailRecursive := by
  have hwrites : (⟨0⟩ : AtomId) ∉
      (Trace.comp .seq [.event .output ⟨⟨0⟩, none⟩, .ref ⟨1⟩]).freeRefs := by
    simp [freeRefs]
  intro binder body hfix
  obtain ⟨rfl, rfl⟩ | ⟨rfl, rfl⟩ : binder = _ ∧ body = _ ∨ binder = _ ∧ body = _ := by
    simpa [bursts, parts] using hfix
  · have hinner : InTail ⟨0⟩ (.comp .seq ([.event .input ⟨⟨0⟩, none⟩] ++ [.fix ⟨⟨1⟩, .loop ⟨1⟩⟩
        (.comp .ndet [.comp .seq [.event .output ⟨⟨0⟩, none⟩, .ref ⟨1⟩], .ref ⟨0⟩])])) :=
      .seq (List.forall_mem_singleton.2 List.not_mem_nil) (.fix (inTail_ndet hwrites .ref))
    exact hinner
  · exact .choice (.inr rfl) (List.forall_mem_cons.2 ⟨inTail_seq List.not_mem_nil,
      List.forall_mem_singleton.2 (.absent (by simp [freeRefs]))⟩)

/-- Inside of the process after the walk of a replication of its output. -/
def afterCopies : WalkState :=
  { supply := ⟨1⟩, scopes := [{ owner := .process ⟨0⟩, buckets := [⟨[.fix ⟨⟨0⟩, .replication ⟨0⟩⟩
    (.comp .ndet [.skip, .comp .seq [reports, .ref ⟨0⟩]])]⟩] }] }

open Walk in
/-- A composition of two loops against one of them. -/
theorem bursts_decided :
    {t | bursts.Reaches (ChannelKey.ofRef ticker) t ∨
      (Trace.comp .par [bursts, ticking]).Reaches (ChannelKey.ofRef ticker) t}.Finite ∧
    (∃ bound, ∀ limit, bound ≤ limit → ∃ report,
      refines ticker bursts (.comp .par [bursts, ticking]) limit = .ok report ∧
        report.verdict ≠ .inconclusive) ∧
    AddsTail (.rounds ⟨0⟩ ⟨1⟩ none) beforeReports afterReports ∧
    AddsTail (.replication ⟨reporter, {}⟩ ⟨0⟩ .seq ⟨1⟩ none) beforeReports afterCopies := by
  obtain ⟨hdecided, hloops⟩ := tail_recursion_decided
  have himp : (Trace.comp .par [bursts, ticking]).TailRecursive := by
    intro binder body hfix
    rw [parts, partsAll_eq_flatMap] at hfix
    have hcases : .fix binder body ∈ bursts.parts ∨ .fix binder body ∈ ticking.parts := by
      simpa using hfix
    exact hcases.elim (bursts_tailRecursive binder body) (ticking_tailRecursive binder body)
  obtain ⟨hfinite, bound, hbound⟩ := hdecided ticker bursts (.comp .par [bursts, ticking])
    (by decide) bursts_tailRecursive (by decide) himp
  have hstart : (scoping ⟨reporter, {}⟩).Sound beforeReports := by
    refine ⟨⟨⟨by decide, by decide⟩, fun callee traces hget => by cases hget⟩, ?_⟩
    exact ⟨by simp, trivial⟩
  have hopen : Receives beforeReports.buckets := ⟨{}, [], [], rfl⟩
  refine ⟨hfinite, ⟨bound, fun limit hlimit => ?_⟩, ?_, ?_⟩
  · obtain ⟨hanswer, hverdict⟩ := hbound limit hlimit
    obtain ⟨report, hreport⟩ := hanswer fun chan hchan => ⟨⟨.name ⟨0⟩, none⟩, by
      obtain rfl : chan = ⟨⟨0⟩, none⟩ := by
        simpa [bursts, ticking, Trace.channels] using hchan
      rfl⟩
    exact ⟨report, hreport, hverdict report hreport⟩
  · obtain ⟨truth, htruth, hadds⟩ :=
      (hloops ⟨reporter, {}⟩ 1 ⟨0⟩ ⟨1⟩ ⟨0⟩ beforeReports afterReports hstart hopen).1 (by cbv)
    obtain rfl := Except.ok.inj (htruth.symm.trans (by cbv))
    exact hadds
  · obtain ⟨folded, hfolded, hadds⟩ :=
      (hloops ⟨reporter, {}⟩ 1 ⟨0⟩ ⟨1⟩ ⟨0⟩ beforeReports afterCopies hstart hopen).2 (by cbv)
    obtain rfl := Except.ok.inj (hfolded.symm.trans (by cbv))
    exact hadds

end ProcessContracts
