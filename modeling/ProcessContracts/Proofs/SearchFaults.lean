import ProcessContracts.Proofs.Channels
import ProcessContracts.Proofs.Exploration

/-!
# Where the faults of a search come from

A search asks the program for nothing but the channels of the states it expands, and every state is
written with the channels of the two traces that are compared. So a fault that ends it is the fault
of one of these channels.
-/

namespace ProcessContracts

open Trace

variable {limit : Nat} {program : Program} {asked : ChanRef → Prop} {α β : Type}

/-- Every state is written with channels that may be asked for. -/
def Space.Mentions (asked : ChanRef → Prop) (space : Space limit) : Prop :=
  ∀ {i : Nat} {t}, space.states[i]? = some t → ∀ chan ∈ t.channels, asked chan

namespace Explore

/-- A fault of the computation is the fault of a channel that may be asked for. -/
def Blames (program : Program) (asked : ChanRef → Prop) (m : Explore limit α) : Prop :=
  ∀ space, space.Mentions asked → match m.run space with
    | .ok _ last => last.Mentions asked
    | .error .exhausted _ => True
    | .error (.fault fault) _ => ∃ chan, asked chan ∧ ChannelKey.resolve program chan = .error fault

variable {m : Explore limit α}

theorem blames_pure (a : α) : Blames program asked (pure a : Explore limit α) :=
  fun _ hspace => hspace

theorem blames_exhausted : Blames program asked (throw .exhausted : Explore limit α) :=
  fun _ _ => trivial

theorem Blames.bind {f : α → Explore limit β} (h : Blames program asked m)
    (hf : ∀ a, Blames program asked (f a)) : Blames program asked (m >>= f) := by
  intro space hspace
  have hm := h space hspace
  change match EStateM.bind m f space with
    | .ok _ last => last.Mentions asked
    | .error .exhausted _ => True
    | .error (.fault fault) _ => ∃ chan, asked chan ∧ ChannelKey.resolve program chan = .error fault
  unfold EStateM.bind
  rw [EStateM.run] at hm
  cases hrun : m space with
  | error halt last =>
      rw [hrun] at hm
      cases halt <;> exact hm
  | ok a mid =>
      rw [hrun] at hm
      exact hf a mid hm

/-- What is read off the space may depend on the channels of its states. -/
theorem blames_get_bind {f : Space limit → Explore limit α}
    (h : ∀ space, space.Mentions asked → Blames program asked (f space)) :
    Blames program asked (get >>= f) := fun space hspace => h space hspace space hspace

theorem blames_resolve {chan : ChanRef} (h : asked chan) : Blames program asked
    (liftLookup (discard (ChannelKey.resolve program chan)) : Explore limit PUnit) := by
  intro space hspace
  cases hkey : ChannelKey.resolve program chan with
  | ok key => exact hspace
  | error fault => exact ⟨chan, h, hkey⟩

theorem blames_forM {f : α → Explore limit PUnit} {l : List α}
    (h : ∀ a ∈ l, Blames program asked (f a)) : Blames program asked (l.forM f) := by
  induction l with
  | nil => exact blames_pure _
  | cons a l ih =>
      obtain ⟨ha, hl⟩ := List.forall_mem_cons.1 h
      exact ha.bind fun _ => ih hl

/-! ## Finding states -/

theorem blames_intern {t : Trace} (ht : ∀ chan ∈ t.channels, asked chan) :
    Blames program asked (intern t : Explore limit (Fin limit)) := by
  refine blames_get_bind fun space hspace => ?_
  split
  case h_1 => exact blames_pure _
  case h_2 hnew =>
    split
    case isFalse => exact blames_exhausted
    case isTrue room =>
      have hpush : (space.push t room hnew).Mentions asked := by
        intro i u hi
        rw [Space.push, Array.getElem?_push] at hi
        split at hi
        case isTrue => exact Option.some.inj hi ▸ ht
        case isFalse => exact hspace hi
      have hset : Blames program asked (set (space.push t room hnew) : Explore limit PUnit) :=
        fun _ _ => hpush
      exact hset.bind fun _ => blames_pure _

theorem blames_internSteps {steps : List (Move × Trace)}
    (hsteps : ∀ step ∈ steps, ∀ chan ∈ step.2.channels, asked chan) :
    Blames program asked (internSteps steps : Explore limit (List (Move × Fin limit))) := by
  induction steps with
  | nil => exact blames_pure _
  | cons step rest ih =>
      obtain ⟨hnext, hrest⟩ := List.forall_mem_cons.1 hsteps
      have hsimple : ∀ chan ∈ step.2.simplify.channels, asked chan :=
        fun chan hchan => hnext chan (channels_simplify_subset _ hchan)
      exact (blames_intern hsimple).bind fun _ => (ih hrest).bind fun _ => blames_pure _

theorem blames_expand (id : Fin limit) : Blames program asked (expand program id) := by
  refine blames_get_bind fun space hspace => ?_
  split
  case h_1 => exact blames_pure _
  case h_2 =>
    split
    case h_1 => exact blames_pure _
    case h_2 t ht =>
      have hchans := hspace ht
      have hmoves : ∀ step ∈ t.moves (ChannelKey.ofRef program), ∀ chan ∈ step.2.channels,
          asked chan := fun step hstep chan hchan =>
        hchans chan (channels_subset_of_mem_moves hstep hchan)
      refine (blames_forM fun chan hchan => ?_).bind fun _ =>
        (blames_internSteps hmoves).bind fun steps => ?_
      · exact blames_resolve (hchans chan (activeChannels_subset t hchan))
      · have hrecord : Blames program asked (modify fun space : Space limit =>
            { space with edges := space.edges.insert id.val steps }) := fun _ hspace => hspace
        exact hrecord.bind fun _ => blames_pure _

/-! ## Sets of states -/

theorem blames_close (seen : StateSet limit) (stack : List (Fin limit)) :
    Blames program asked (close program seen stack) := by
  induction seen, stack using close.induct with
  | case1 seen =>
      rw [close]
      exact blames_pure _
  | case2 seen id stack hmem ih =>
      rw [close, dif_pos hmem]
      exact ih
  | case3 seen id stack hnew ih =>
      rw [close, dif_neg hnew]
      exact (blames_expand id).bind fun steps => ih steps

theorem blames_closure (seeds : List (Fin limit)) :
    Blames program asked (closure program seeds) := blames_close _ _

theorem blames_step (set : StateSet limit) (label : Label) :
    Blames program asked (step program set label) :=
  blames_get_bind fun _ _ => blames_closure _

/-! ## Comparing both sides -/

theorem blames_follow (reached : Reached limit) (labels : List Label) :
    Blames program asked (follow program reached labels) := by
  induction labels with
  | nil => exact blames_pure _
  | cons label rest ih =>
      refine (blames_step _ _).bind fun spec => ?_
      split
      case isTrue => exact blames_pure _
      case isFalse =>
        split
        case isTrue => exact ih
        case isFalse =>
          exact (blames_step _ _).bind fun _ => ih.bind fun _ => blames_pure _

theorem blames_inspect (reached : Reached limit) (tally : Tally) :
    Blames program asked (inspect program reached tally) := by
  refine blames_get_bind fun space _ => ?_
  split
  case isTrue => exact blames_pure _
  case isFalse =>
    split
    case isTrue => exact blames_pure _
    case isFalse =>
      split
      case isTrue => exact blames_pure _
      case isFalse => exact (blames_follow reached _).bind fun _ => blames_pure _

theorem blames_search (visited : List (StateSet limit × StateSet limit)) (nodup : visited.Nodup)
    (tally : Tally) (queue : List (Reached limit)) :
    Blames program asked (search program visited nodup tally queue) := by
  induction visited, nodup, tally, queue using search.induct with
  | case1 visited nodup tally =>
      rw [search]
      exact blames_pure _
  | case2 visited nodup tally reached queue seen ih =>
      rw [search, dif_pos seen]
      exact ih
  | case3 visited nodup tally reached queue new ih =>
      rw [search, dif_neg new]
      refine (blames_inspect reached tally).bind fun result => ?_
      cases result with
      | error violation => exact blames_pure _
      | ok found => exact ih found.1 found.2

theorem blames_start {spec imp : Trace} (hspec : ∀ chan ∈ spec.channels, asked chan)
    (himp : ∀ chan ∈ imp.channels, asked chan) :
    Blames program asked (start program spec imp : Explore limit (Reached limit)) := by
  have hsimple : ∀ t : Trace, (∀ chan ∈ t.channels, asked chan) →
      ∀ chan ∈ t.simplify.channels, asked chan :=
    fun t ht chan hchan => ht chan (channels_simplify_subset t hchan)
  exact (blames_intern (hsimple imp himp)).bind fun _ =>
    (blames_intern (hsimple spec hspec)).bind fun _ => (blames_closure _).bind fun _ =>
      (blames_closure _).bind fun _ => blames_pure _

end Explore

/-- A comparison without an answer was asked for a channel that does not resolve. -/
theorem exists_unresolved_of_refines {spec imp : Trace} {fault : Fault}
    (h : refines program spec imp limit = .error fault) :
    ∃ chan ∈ spec.channels ++ imp.channels, ChannelKey.resolve program chan = .error fault := by
  have hstart : Explore.Blames program (· ∈ spec.channels ++ imp.channels)
      (Explore.start program spec imp : Explore limit (Reached limit)) :=
    Explore.blames_start (fun _ => List.mem_append_left _) (fun _ => List.mem_append_right _)
  have hrun := (hstart.bind fun reached => Explore.blames_search [] List.nodup_nil {} [reached]) {}
    (fun hi => by simp at hi)
  unfold refines at h
  dsimp only at h
  split at h
  case h_1 => cases h
  case h_2 => cases h
  case h_3 heq =>
    rw [heq] at hrun
    exact Except.error.inj h ▸ hrun

theorem exists_report {spec imp : Trace} (limit : Nat)
    (h : ∀ chan ∈ spec.channels ++ imp.channels, ∃ key, ChannelKey.resolve program chan = .ok key) :
    ∃ report, refines program spec imp limit = .ok report := by
  cases hrun : refines program spec imp limit with
  | ok report => exact ⟨report, rfl⟩
  | error fault =>
      obtain ⟨chan, hchan, hfault⟩ := exists_unresolved_of_refines hrun
      obtain ⟨key, hkey⟩ := h chan hchan
      cases hkey.symm.trans hfault

end ProcessContracts
