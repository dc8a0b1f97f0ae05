import ProcessContracts.Proofs.Channels
import ProcessContracts.Proofs.Exploration
import ProcessContracts.Proofs.Resolution

/-!
# Searches that meet no fault

Comparing traces whose channels are in range asks only queries that are answered, so a search ends
with a verdict or with the limit on states. The labels of its verdict are in range again.
-/

namespace ProcessContracts

open Lookup Trace

variable {limit : Nat} {program : Program} {α β : Type}

def Move.InRange (program : Program) : Move → Prop
  | .tau => True
  | .visible label => label.InRange program

def Violation.InRange (program : Program) : Violation → Prop
  | .unexpectedStep label => label.InRange program
  | .divergence | .unconstrained => True

def Verdict.InRange (program : Program) : Verdict → Prop
  | .violated counterexample => (∀ label ∈ counterexample.path, label.InRange program) ∧
      counterexample.violation.InRange program
  | .refines | .inconclusive => True

structure RefinementReport.InRange (program : Program) (report : RefinementReport) : Prop where
  verdict : report.verdict.InRange program
  restrictive : ∀ label ∈ report.restrictive, label.InRange program

structure Tally.InRange (program : Program) (tally : Tally) : Prop where
  offered : ∀ label ∈ tally.offered, label.InRange program
  performed : ∀ label ∈ tally.performed, label.InRange program

/-- Everything found so far is in range. -/
structure Space.InRange (program : Program) (space : Space limit) : Prop where
  states : ∀ {i : Nat} {t}, space.states[i]? = some t → t.InRange program
  edges : ∀ {i : Nat} {steps}, space.edges[i]? = some steps →
    ∀ step ∈ steps, step.1.InRange program

theorem Space.InRange.labels {space : Space limit} (h : space.InRange program)
    (set : StateSet limit) : ∀ label ∈ space.labels set, label.InRange program := by
  intro label hlabel
  simp only [Space.labels, List.mem_eraseDups, List.mem_filterMap, List.mem_flatMap] at hlabel
  obtain ⟨⟨m, next⟩, ⟨id, -, hstep⟩, hsome⟩ := hlabel
  cases m with
  | tau => cases hsome
  | visible other =>
      obtain rfl := Option.some.inj hsome
      rw [Space.steps, Std.TreeMap.getD_eq_getD_getElem?] at hstep
      cases hedges : space.edges[id.val]? with
      | none =>
          rw [hedges] at hstep
          cases hstep
      | some steps =>
          rw [hedges] at hstep
          exact h.edges hedges _ hstep

namespace Explore

/-- From a space in range the search meets no fault, and goes on to a space in range with an answer
as wanted. -/
def Searches (program : Program) (m : Explore limit α) (wanted : α → Prop) : Prop :=
  ∀ space, space.InRange program → match m.run space with
    | .ok a last => last.InRange program ∧ wanted a
    | .error halt _ => halt = .exhausted

variable {m : Explore limit α} {wanted : α → Prop} {next : β → Prop}

theorem searches_pure {a : α} (h : wanted a) :
    Searches program (pure a : Explore limit α) wanted := fun _ hspace => ⟨hspace, h⟩

theorem Searches.bind {f : α → Explore limit β} (h : Searches program m wanted)
    (hf : ∀ a, wanted a → Searches program (f a) next) : Searches program (m >>= f) next := by
  intro space hspace
  have hm := h space hspace
  change match EStateM.bind m f space with
    | .ok a last => last.InRange program ∧ next a
    | .error halt _ => halt = .exhausted
  unfold EStateM.bind
  rw [EStateM.run] at hm
  cases hrun : m space with
  | error halt last =>
      rw [hrun] at hm
      exact hm
  | ok a mid =>
      rw [hrun] at hm
      exact hf a hm.2 mid hm.1

theorem searches_exhausted : Searches program (throw .exhausted : Explore limit α) wanted :=
  fun _ _ => rfl

theorem searches_get :
    Searches program (get : Explore limit (Space limit)) (Space.InRange program) :=
  fun _ hspace => ⟨hspace, hspace⟩

theorem searches_set {space : Space limit} (h : space.InRange program) :
    Searches program (set space : Explore limit PUnit) fun _ => True := fun _ _ => ⟨h, trivial⟩

theorem searches_modify {f : Space limit → Space limit}
    (h : ∀ space, space.InRange program → (f space).InRange program) :
    Searches program (modify f : Explore limit PUnit) fun _ => True :=
  fun space hspace => ⟨h space hspace, trivial⟩

theorem searches_liftLookup {look : Lookup α} (h : Answers look wanted) :
    Searches program (liftLookup look : Explore limit α) wanted := by
  obtain ⟨a, rfl, ha⟩ := h
  exact searches_pure ha

theorem searches_forM {f : α → Explore limit PUnit} {l : List α}
    (h : ∀ a ∈ l, Searches program (f a) fun _ => True) :
    Searches program (l.forM f) fun _ => True := by
  induction l with
  | nil => exact searches_pure trivial
  | cons a l ih =>
      obtain ⟨ha, hl⟩ := List.forall_mem_cons.1 h
      exact ha.bind fun _ _ => ih hl

/-! ## Finding states -/

theorem inRange_push {space : Space limit} {t : Trace} (hspace : space.InRange program)
    (ht : t.InRange program) (room : space.states.size < limit) (new : space.find? t = none) :
    (space.push t room new).InRange program where
  states {i u} hi := by
    rw [Space.push, Array.getElem?_push] at hi
    split at hi
    case isTrue => exact Option.some.inj hi ▸ ht
    case isFalse => exact hspace.states hi
  edges := hspace.edges

theorem searches_intern {t : Trace} (ht : t.InRange program) :
    Searches program (intern t : Explore limit (Fin limit)) fun _ => True := by
  refine searches_get.bind fun space hspace => ?_
  split
  case h_1 => exact searches_pure trivial
  case h_2 hnew =>
    split
    case isTrue room =>
      exact (searches_set (inRange_push hspace ht room hnew)).bind fun _ _ => searches_pure trivial
    case isFalse => exact searches_exhausted

theorem searches_internSteps {steps : List (Move × Trace)}
    (hsteps : ∀ step ∈ steps, step.1.InRange program ∧ step.2.InRange program) :
    Searches program (internSteps steps : Explore limit (List (Move × Fin limit))) fun interned =>
      ∀ step ∈ interned, step.1.InRange program := by
  induction steps with
  | nil => exact searches_pure (by simp)
  | cons step rest ih =>
      obtain ⟨⟨hmove, hnext⟩, hrest⟩ := List.forall_mem_cons.1 hsteps
      have hsimple : step.2.simplify.InRange program :=
        fun chan hchan => hnext chan (channels_simplify_subset _ hchan)
      exact (searches_intern hsimple).bind fun id _ => (ih hrest).bind fun ids hids =>
        searches_pure (List.forall_mem_cons.2 ⟨hmove, hids⟩)

variable (h : program.InOrder)
include h

theorem inRange_of_mem_moves {t : Trace} (ht : t.InRange program) :
    ∀ step ∈ t.moves (ChannelKey.ofRef program),
      step.1.InRange program ∧ step.2.InRange program := by
  rintro ⟨m, u⟩ hstep
  refine ⟨?_, fun chan hchan => ht chan (channels_subset_of_mem_moves hstep hchan)⟩
  match m, hstep with
  | .tau, _ => trivial
  | .visible .tick, _ => trivial
  | .visible (.event direction found), hstep =>
      obtain ⟨chan, hchan, rfl⟩ := exists_channel_of_mem_moves hstep
      exact ChannelKey.inRange_ofRef h (ht chan hchan)

theorem searches_expand (id : Fin limit) :
    Searches program (expand program id) fun steps => ∀ step ∈ steps, step.1.InRange program := by
  refine searches_get.bind fun space hspace => ?_
  split
  case h_1 known hknown => exact searches_pure (hspace.edges hknown)
  case h_2 =>
    split
    case h_1 => exact searches_pure (by simp)
    case h_2 t ht =>
      have hrange := hspace.states ht
      refine (searches_forM fun chan hchan => ?_).bind fun _ _ =>
        (searches_internSteps (inRange_of_mem_moves h hrange)).bind fun steps hsteps => ?_
      · have hresolved := ChannelKey.answers_resolve h (hrange chan (activeChannels_subset t hchan))
        obtain ⟨key, hkey, -⟩ := hresolved
        exact searches_liftLookup ⟨⟨⟩, by rw [hkey]; rfl, trivial⟩
      · refine (searches_modify fun space hspace => ?_).bind fun _ _ => searches_pure hsteps
        refine ⟨hspace.states, fun {i known} hi => ?_⟩
        rw [Std.TreeMap.getElem?_insert] at hi
        split at hi
        case isTrue => exact Option.some.inj hi ▸ hsteps
        case isFalse => exact hspace.edges hi

/-! ## Sets of states -/

theorem searches_close (seen : StateSet limit) (stack : List (Fin limit)) :
    Searches program (close program seen stack) fun _ => True := by
  induction seen, stack using close.induct with
  | case1 seen =>
      rw [close]
      exact searches_pure trivial
  | case2 seen id stack hmem ih =>
      rw [close, dif_pos hmem]
      exact ih
  | case3 seen id stack hnew ih =>
      rw [close, dif_neg hnew]
      exact (searches_expand h id).bind fun steps _ => ih steps

theorem searches_closure (seeds : List (Fin limit)) :
    Searches program (closure program seeds) fun _ => True := searches_close h _ _

theorem searches_step (set : StateSet limit) (label : Label) :
    Searches program (step program set label) fun _ => True :=
  searches_get.bind fun _ _ => searches_closure h _

/-! ## Comparing both sides -/

/-- The path to every pair is in range. -/
def PathsInRange (program : Program) (queue : List (Reached limit)) : Prop :=
  ∀ reached ∈ queue, ∀ label ∈ reached.path, label.InRange program

theorem searches_follow {reached : Reached limit} {labels : List Label}
    (hpath : ∀ label ∈ reached.path, label.InRange program)
    (hlabels : ∀ label ∈ labels, label.InRange program) :
    Searches program (follow program reached labels) fun result => match result with
      | .error violation => violation.InRange program
      | .ok next => PathsInRange program next := by
  induction labels with
  | nil => exact searches_pure (by simp [PathsInRange])
  | cons label rest ih =>
      obtain ⟨hlabel, hrest⟩ := List.forall_mem_cons.1 hlabels
      refine (searches_step h _ _).bind fun spec _ => ?_
      split
      case isTrue => exact searches_pure hlabel
      case isFalse =>
        split
        case isTrue => exact ih hrest
        case isFalse =>
          refine (searches_step h _ _).bind fun imp _ => (ih hrest).bind fun result hresult =>
            searches_pure ?_
          cases result with
          | error violation => exact hresult
          | ok next =>
              exact List.forall_mem_cons.2 ⟨List.forall_mem_cons.2 ⟨hlabel, hpath⟩, hresult⟩

omit h in
theorem inRange_add {tally : Tally} {offered performed : List Label}
    (htally : tally.InRange program)
    (hoffered : ∀ label ∈ offered, label.InRange program)
    (hperformed : ∀ label ∈ performed, label.InRange program) :
    (tally.add offered performed).InRange program where
  offered label hlabel := by
    rcases List.mem_append.1 (List.mem_eraseDups.1 hlabel) with hlabel | hlabel
    · exact htally.offered label hlabel
    · exact hoffered label hlabel
  performed label hlabel := by
    rcases List.mem_append.1 (List.mem_eraseDups.1 hlabel) with hlabel | hlabel
    · exact htally.performed label hlabel
    · exact hperformed label hlabel

theorem searches_inspect {reached : Reached limit} {tally : Tally}
    (hpath : ∀ label ∈ reached.path, label.InRange program) (htally : tally.InRange program) :
    Searches program (inspect program reached tally) fun result => match result with
      | .error violation => violation.InRange program
      | .ok (next, tally) => PathsInRange program next ∧ tally.InRange program := by
  refine searches_get.bind fun space hspace => ?_
  split
  case isTrue => exact searches_pure ⟨by simp [PathsInRange], htally⟩
  case isFalse =>
    split
    case isTrue => exact searches_pure trivial
    case isFalse =>
      split
      case isTrue => exact searches_pure trivial
      case isFalse =>
        have hperformed := hspace.labels reached.imp
        refine (searches_follow h hpath hperformed).bind fun result hresult => searches_pure ?_
        cases result with
        | error violation => exact hresult
        | ok next => exact ⟨hresult, inRange_add htally (hspace.labels _) hperformed⟩

theorem searches_search (visited : List (StateSet limit × StateSet limit)) (nodup : visited.Nodup)
    {tally : Tally} {queue : List (Reached limit)} (hqueue : PathsInRange program queue)
    (htally : tally.InRange program) :
    Searches program (search program visited nodup tally queue) fun found =>
      found.1.InRange program ∧ ∀ label ∈ found.2, label.InRange program := by
  induction visited, nodup, tally, queue using search.induct with
  | case1 visited nodup tally =>
      rw [search]
      exact searches_pure ⟨trivial, fun label hlabel =>
        htally.offered label (List.mem_filter.1 hlabel).1⟩
  | case2 visited nodup tally reached queue seen ih =>
      rw [search, dif_pos seen]
      exact ih (List.forall_mem_cons.1 hqueue).2 htally
  | case3 visited nodup tally reached queue new ih =>
      obtain ⟨hpath, hqueue⟩ := List.forall_mem_cons.1 hqueue
      rw [search, dif_neg new]
      refine (searches_inspect h hpath htally).bind fun result hresult => ?_
      cases result with
      | error violation =>
          refine searches_pure ⟨⟨fun label hlabel => ?_, hresult⟩, by simp⟩
          exact hpath label (List.mem_reverse.1 hlabel)
      | ok found =>
          obtain ⟨next, tally⟩ := found
          refine ih next tally (fun reached hreached => ?_) hresult.2
          rcases List.mem_append.1 hreached with hreached | hreached
          · exact hqueue reached hreached
          · exact hresult.1 reached hreached

theorem searches_start {spec imp : Trace} (hspec : spec.InRange program)
    (himp : imp.InRange program) :
    Searches program (start program spec imp : Explore limit (Reached limit)) fun reached =>
      reached.path = [] := by
  have hsimple : ∀ t : Trace, t.InRange program → t.simplify.InRange program :=
    fun t ht chan hchan => ht chan (channels_simplify_subset t hchan)
  exact (searches_intern (hsimple imp himp)).bind fun _ _ =>
    (searches_intern (hsimple spec hspec)).bind fun _ _ =>
      (searches_closure h _).bind fun _ _ => (searches_closure h _).bind fun _ _ =>
        searches_pure rfl

end Explore

/-- Comparing traces in range is always answered. -/
theorem answers_refines (h : program.InOrder) {spec imp : Trace} (hspec : spec.InRange program)
    (himp : imp.InRange program) (limit : Nat) :
    Answers (refines program spec imp limit) (RefinementReport.InRange program) := by
  have hempty : ({} : Space limit).InRange program := by
    constructor
    · intro i t hi
      simp at hi
    · intro i steps hi
      simp at hi
  have hstart : Explore.Searches program (Explore.start program spec imp : Explore limit _)
      fun reached => reached.path = [] := Explore.searches_start h hspec himp
  have htally : Tally.InRange program {} := ⟨by simp, by simp⟩
  have hsearches := hstart.bind fun reached hreached =>
    Explore.searches_search h [] List.nodup_nil
      (List.forall_mem_singleton.2 (by rw [hreached]; simp)) htally
  have hrun := hsearches {} hempty
  unfold refines
  dsimp only
  split at hrun
  case h_1 found last heq =>
    obtain ⟨verdict, restrictive⟩ := found
    rw [heq]
    exact answers_pure ⟨hrun.2.1, hrun.2.2⟩
  case h_2 halt last heq =>
    rw [heq, hrun]
    exact answers_pure ⟨trivial, by simp⟩

end ProcessContracts
