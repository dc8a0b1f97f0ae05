import ProcessContracts.Proofs.Closure
import ProcessContracts.Proofs.WiderSearches

/-!
# Sets of states that stay silent forever

Once the states of a set are expanded, the recorded steps between them are their silent steps inside
the set. So sweeping these steps tells whether they can be followed forever without leaving the set.
Neither the numbers of the states nor the order in which they are looked at makes a difference.
-/

namespace ProcessContracts

variable {limit : Nat} {program : Program}

open Trace Explore

variable {space space' : Space limit} {set : StateSet limit} {graph : SilentGraph limit}

/-! ## Expanding the states of a set -/

namespace Explore

open Space

/-- Expanding states one after the other leaves all of them expanded. -/
theorem expandAll_spec {ids : List (Fin limit)} {steps : List (List (Move × Fin limit))}
    (hspace : space.Faithful program) (hids : ∀ id ∈ ids, ∃ t, space.Shows id t)
    (h : (ids.mapM (expand program)).run space = .ok steps space') :
    Explores program space space' ∧ ∀ id ∈ ids, ∃ known, space'.edges[id.val]? = some known := by
  induction ids generalizing space steps with
  | nil =>
      obtain ⟨-, rfl⟩ := pure_eq_ok.1 h
      exact ⟨⟨hspace, .refl _⟩, by simp⟩
  | cons id ids ih =>
      rw [List.mapM_cons] at h
      obtain ⟨known, mid, hexpand, h⟩ := bind_eq_ok.1 h
      obtain ⟨rest, last, hrest, h⟩ := bind_eq_ok.1 h
      obtain ⟨-, rfl⟩ := pure_eq_ok.1 h
      obtain ⟨⟨t, ht⟩, hids⟩ := List.forall_mem_cons.1 hids
      obtain ⟨hmid, hknown⟩ := expand_spec hspace ht hexpand
      obtain ⟨hlast, hall⟩ := ih hmid.faithful
        (fun other hother => (hids other hother).imp fun _ => hmid.grows.states) hrest
      exact ⟨hmid.trans hlast,
        List.forall_mem_cons.2 ⟨⟨known, hlast.grows.edges hknown⟩, hall⟩⟩

theorem expand_known {id : Fin limit} {known : List (Move × Fin limit)}
    (h : space.edges[id.val]? = some known) :
    (expand program id).run space = .ok known space := by
  unfold expand
  refine bind_eq_ok.2 ⟨space, space, rfl, ?_⟩
  rw [h]
  rfl

/-- States that are expanded already are not expanded again. -/
theorem expandAll_known (program : Program) {ids : List (Fin limit)}
    (h : ∀ id ∈ ids, ∃ known, space.edges[id.val]? = some known) :
    ∃ steps, (ids.mapM (expand program)).run space = .ok steps space := by
  induction ids with
  | nil => exact ⟨[], rfl⟩
  | cons id ids ih =>
      obtain ⟨⟨known, hknown⟩, hids⟩ := List.forall_mem_cons.1 h
      obtain ⟨steps, hsteps⟩ := ih hids
      refine ⟨known :: steps, ?_⟩
      rw [List.mapM_cons]
      exact bind_eq_ok.2 ⟨known, space, expand_known hknown,
        bind_eq_ok.2 ⟨steps, space, hsteps, rfl⟩⟩

end Explore

/-! ## Following the silent steps inside a set -/

namespace Space

/-- A silent step leads from the one state of the set to the other. -/
def SlidesWithin (program : Program) (space : Space limit) (set : StateSet limit)
    (id next : Fin limit) : Prop :=
  id ∈ set ∧ next ∈ set ∧ ∃ t u, space.Shows id t ∧ space.Shows next u ∧
    View.Slides (ChannelKey.ofRef program) t u

/-- No silent step leads out of the set. -/
def IsSilentlyClosed (program : Program) (space : Space limit) (set : StateSet limit) : Prop :=
  ∀ id ∈ set, ∀ t u, space.Shows id t → View.Slides (ChannelKey.ofRef program) t u →
    ∃ next ∈ set, space.Shows next u

theorem shows_iff_of_grows {id : Fin limit} {t u : Trace} (hg : space.Grows space')
    (ht : space.Shows id t) : space'.Shows id u ↔ space.Shows id u := by
  constructor
  · intro hu
    obtain rfl : t = u := Option.some.inj ((hg.states ht).symm.trans hu)
    exact ht
  · exact hg.states

theorem slidesWithin_grow (hg : space.Grows space') (hset : ∀ id ∈ set, ∃ t, space.Shows id t) :
    space'.SlidesWithin program set = space.SlidesWithin program set := by
  funext id next
  refine propext (and_congr_right fun hid => and_congr_right fun hnext => ?_)
  obtain ⟨t, ht⟩ := hset id hid
  obtain ⟨u, hu⟩ := hset next hnext
  simp only [shows_iff_of_grows hg ht, shows_iff_of_grows hg hu]

theorem edge_silentGraph {id next : Fin limit} : (space.silentGraph set).Edge id next ↔
    id ∈ set ∧ next ∈ set ∧ next ∈ space.targets [id] .tau := by
  constructor
  · rintro ⟨row, hrow, rfl, hnext⟩
    obtain ⟨hid, heq⟩ := mem_silentGraph.1 hrow
    rw [heq, List.mem_filter, decide_eq_true_iff] at hnext
    exact ⟨hid, hnext.2, hnext.1⟩
  · rintro ⟨hid, hnext, htarget⟩
    exact ⟨(id, (space.targets [id] .tau).filter (· ∈ set)), mem_silentGraph.2 ⟨hid, rfl⟩, rfl,
      List.mem_filter.2 ⟨htarget, decide_eq_true hnext⟩⟩

/-- The recorded steps inside a set of expanded states are the silent steps of their traces. -/
theorem edge_silentGraph_iff (hspace : space.Faithful program)
    (hset : space.Holds set fun t => ∃ id ∈ set, space.Shows id t) {id next : Fin limit} :
    (space.silentGraph set).Edge id next ↔ space.SlidesWithin program set id next := by
  rw [edge_silentGraph]
  refine and_congr_right fun hid => and_congr_right fun hnext => ?_
  obtain ⟨t, ht, -⟩ := hset.sound id hid
  constructor
  · intro htarget
    obtain ⟨u, hu, hslides⟩ := slides_of_mem_targets hspace hset hid ht htarget
    exact ⟨t, u, ht, hu, hslides⟩
  · rintro ⟨t, u, ht, hu, hslides⟩
    obtain ⟨other, hother, hshows⟩ := mem_targets_singleton hspace hset hid ht hslides
    rwa [hshows.inj hu] at hother

/-- A closed set is never left silently, so endless silent runs of its traces are runs inside it. -/
theorem exists_run_within_iff (hclosed : space.IsSilentlyClosed program set) :
    (∃ run : Nat → Fin limit, ∀ i, space.SlidesWithin program set (run i) (run (i + 1))) ↔
      ∃ id ∈ set, ∃ run : Nat → Trace, space.Shows id (run 0) ∧
        ∀ i, View.Slides (ChannelKey.ofRef program) (run i) (run (i + 1)) := by
  constructor
  · rintro ⟨run, hrun⟩
    choose hid hnext t u ht hu hslides using hrun
    refine ⟨run 0, hid 0, t, ht 0, fun i => ?_⟩
    rw [show t (i + 1) = u i from Option.some.inj ((ht (i + 1)).symm.trans (hu i))]
    exact hslides i
  · rintro ⟨id, hid, run, hstart, hrun⟩
    have hshown : ∀ i, ∃ id ∈ set, space.Shows id (run i) := by
      intro i
      induction i with
      | zero => exact ⟨id, hid, hstart⟩
      | succ i ih =>
          obtain ⟨id, hid, hshows⟩ := ih
          exact hclosed id hid _ _ hshows (hrun i)
    choose number hnumber hshows using hshown
    exact ⟨number, fun i => ⟨hnumber i, hnumber (i + 1), _, _, hshows i, hshows (i + 1), hrun i⟩⟩

end Space

open Space

/-- A set that closing answers with is closed, and each of its states is expanded. -/
theorem closure_isSilentlyClosed {seeds : List (Fin limit)} (hspace : space.Faithful program)
    (hseeds : ∀ id ∈ seeds, ∃ t, space.Shows id t)
    (h : (Explore.closure program seeds).run space = .ok set space') :
    Explores program space space' ∧ (∀ id ∈ set, ∃ t, space'.Shows id t) ∧
      (∀ id ∈ set, ∃ known, space'.edges[id.val]? = some known) ∧
      space'.IsSilentlyClosed program set ∧ ∀ id ∈ seeds, id ∈ set := by
  obtain ⟨hexplores, hholds⟩ := closure_spec (p := fun t => ∃ id ∈ seeds, space.Shows id t) hspace
    (fun id hid => (hseeds id hid).imp fun t ht => ⟨ht, id, hid, ht⟩) (fun t ht => ht) h
  refine ⟨hexplores, fun id hid => ?_, hholds.expanded, fun id hid t u ht hu => ?_,
    fun id hid => ?_⟩
  · obtain ⟨t, ht, -⟩ := hholds.sound id hid
    exact ⟨t, ht⟩
  · obtain ⟨r, hr, hleads⟩ := hholds.of_shows hid ht
    obtain ⟨w, hw, rfl⟩ := hu
    exact hholds.complete _ ⟨r, hr, by simpa using hleads.trans (.silent hw (.here _))⟩
  · obtain ⟨t, ht⟩ := hseeds id hid
    obtain ⟨other, hother, hshows⟩ := hholds.complete t ⟨t, ⟨id, hid, ht⟩, .here t⟩
    obtain rfl := hshows.inj (hexplores.grows.states ht)
    exact hother

/-- Once the states of a set are expanded, sweeping the silent steps between them tells whether the
set can run silently forever, in whatever order the states are looked at. -/
theorem endless_silence_decided {steps : List (List (Move × Fin limit))}
    (hspace : space.Faithful program) (hset : ∀ id ∈ set, ∃ t, space.Shows id t)
    (hexpand : (set.ids.mapM (Explore.expand program)).run space = .ok steps space')
    (hgraph : graph.Perm (space'.silentGraph set)) :
    (graph.isCyclic = true ↔
      ∃ run : Nat → Fin limit, ∀ i, space.SlidesWithin program set (run i) (run (i + 1))) ∧
    (graph.isCyclic = true ↔ ∃ id, Relation.TransGen (space.SlidesWithin program set) id id) ∧
    (space.IsSilentlyClosed program set → (graph.isCyclic = true ↔
      ∃ id ∈ set, ∃ run : Nat → Trace, space.Shows id (run 0) ∧
        ∀ i, View.Slides (ChannelKey.ofRef program) (run i) (run (i + 1)))) ∧
    (∃ sweeps ≤ set.ids.length, graph.SettlesIn [] sweeps) ∧
    ((∀ id ∈ set, ∃ known, space.edges[id.val]? = some known) → space' = space) := by
  obtain ⟨hexplores, hknown⟩ := expandAll_spec hspace hset hexpand
  have hholds : space'.Holds set fun t => ∃ id ∈ set, space'.Shows id t :=
    ⟨fun id hid => (hset id hid).imp fun t ht =>
        have ht := hexplores.grows.states ht
        ⟨ht, id, hid, ht⟩,
      fun t ht => ht, hknown⟩
  have hedge : ∀ id next, graph.Edge id next ↔ space.SlidesWithin program set id next := by
    intro id next
    rw [← slidesWithin_grow hexplores.grows hset, ← edge_silentGraph_iff hexplores.faithful hholds]
    simp only [SilentGraph.Edge, hgraph.mem_iff]
  have hkeys : (graph.map Prod.fst).Perm set.ids := by
    rw [← map_fst_silentGraph space' set]
    exact hgraph.map Prod.fst
  have hinside : ∀ id next, graph.Edge id next → next ∈ graph.map Prod.fst := by
    intro id next h
    exact hkeys.mem_iff.2 ((hedge id next).1 h).2.1
  have hruns := SilentGraph.isCyclic_iff_exists_run
    ((hgraph.map Prod.fst).nodup_iff.2 (nodup_silentGraph space' set)) hinside
  simp only [hedge] at hruns
  refine ⟨hruns, hruns.trans exists_run_iff_exists_cycle,
    fun hclosed => hruns.trans (exists_run_within_iff hclosed), ?_, fun hexpanded => ?_⟩
  · obtain ⟨sweeps, hsweeps⟩ := SilentGraph.exists_settlesIn graph List.nodup_nil
    have hlength : graph.length = set.ids.length := by simpa using hkeys.length_eq
    exact ⟨sweeps, hlength ▸ hsweeps.le_length, hsweeps⟩
  · obtain ⟨steps', hsteps'⟩ := expandAll_known program hexpanded
    rw [hexpand] at hsteps'
    cases hsteps'
    rfl

/-- Goes round silently, and may stop at each round. -/
def idling : Trace := .fix ⟨⟨0⟩, .loop ⟨0⟩⟩ (.comp .ndet [.skip, .ref ⟨0⟩])

theorem idling_endless : ∃ (space : Space 4) (set : StateSet 4)
    (steps : List (List (Move × Fin 4))),
    space.Faithful ticker ∧ (∀ id ∈ set, ∃ t, space.Shows id t) ∧
    space.IsSilentlyClosed ticker set ∧
    (set.ids.mapM (Explore.expand ticker)).run space = .ok steps space ∧
    SilentGraph.isCyclic (space.silentGraph set).reverse = true ∧
    ∃ run : Nat → Fin 4, ∀ i, space.SlidesWithin ticker set (run i) (run (i + 1)) := by
  have hrun : (match (do Explore.closure ticker [← Explore.intern idling] :
      Explore 4 (StateSet 4)).run {} with
    | .ok _ _ => true
    | .error _ _ => false) = true := by cbv
  split at hrun
  case h_2 => cases hrun
  case h_1 set space h =>
    obtain ⟨start, mid, hintern, hclosure⟩ := bind_eq_ok.1 h
    obtain ⟨hmid, -, hstart⟩ := intern_spec (faithful_empty ticker) hintern
    obtain ⟨hexplores, hset, hknown, hclosed, hseeds⟩ :=
      closure_isSilentlyClosed hmid.faithful (by simpa using ⟨_, hstart⟩) hclosure
    obtain ⟨steps, hexpand⟩ := expandAll_known ticker hknown
    obtain ⟨hruns, hcycles, -⟩ := endless_silence_decided hexplores.faithful hset hexpand
      (List.reverse_perm (space.silentGraph set))
    -- The loop leads to the choice, which leads back to the loop.
    have hidle : View.Slides (ChannelKey.ofRef ticker) idling (.comp .ndet [.skip, idling]) :=
      ⟨_, List.mem_singleton_self _, rfl⟩
    have hback : View.Slides (ChannelKey.ofRef ticker) (.comp .ndet [.skip, idling]) idling :=
      ⟨idling, List.mem_cons_of_mem _ (List.mem_singleton_self _), rfl⟩
    have hin := hseeds start (List.mem_singleton_self start)
    have hshows := hexplores.grows.states hstart
    obtain ⟨choice, hchoice, hshows'⟩ := hclosed start hin _ _ hshows hidle
    have hcycle : Relation.TransGen (space.SlidesWithin ticker set) start start :=
      .tail (.single ⟨hin, hchoice, _, _, hshows, hshows', hidle⟩)
        ⟨hchoice, hin, _, _, hshows', hshows, hback⟩
    have hcyclic := hcycles.2 ⟨start, hcycle⟩
    exact ⟨space, set, steps, hexplores.faithful, hset, hclosed, hexpand, hcyclic,
      hruns.1 hcyclic⟩

end ProcessContracts
