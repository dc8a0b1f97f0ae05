import ProcessContracts.Proofs.SearchFaults

/-!
# Searches with more room

The bound on states decides how long a search may go on, and nothing else. With more room the same
states are found in the same order, with the same numbers and the same steps between them, until the
smaller bound is hit; a search that ends before that ends in the same way.
-/

namespace ProcessContracts

variable {limit limit' : Nat} {hle : limit ≤ limit'} {program : Program} {α β γ δ : Type}

/-! ## The same numbers below a larger bound -/

namespace StateSet

/-- The set among more states. -/
def widen (hle : limit ≤ limit') (set : StateSet limit) : StateSet limit' where
  ids := set.ids.map (Fin.castLE hle)
  ascending := List.pairwise_map.2 set.ascending

theorem mem_map_castLE {ids : List (Fin limit)} {id : Fin limit} :
    Fin.castLE hle id ∈ ids.map (Fin.castLE hle) ↔ id ∈ ids :=
  List.mem_map_of_injective (Fin.castLE_injective hle)

theorem mem_widen {set : StateSet limit} {id : Fin limit} :
    Fin.castLE hle id ∈ set.widen hle ↔ id ∈ set := mem_map_castLE

theorem widen_injective (hle : limit ≤ limit') : (widen hle).Injective := by
  intro a b h
  refine ext_mem fun id => ?_
  have hwide : Fin.castLE hle id ∈ a.widen hle ↔ Fin.castLE hle id ∈ b.widen hle := by rw [h]
  rwa [mem_widen, mem_widen] at hwide

theorem widen_insert (set : StateSet limit) (id : Fin limit) :
    (set.insert id).widen hle = (set.widen hle).insert (Fin.castLE hle id) := by
  refine ext_mem fun other => ?_
  simp only [mem_insert]
  change other ∈ (set.insert id).ids.map (Fin.castLE hle) ↔ _ ∨ other ∈ set.ids.map (Fin.castLE hle)
  simp only [List.mem_map]
  constructor
  · rintro ⟨old, hold, rfl⟩
    rcases mem_insert.1 hold with rfl | hold
    · exact .inl rfl
    · exact .inr ⟨old, hold, rfl⟩
  · rintro (rfl | ⟨old, hold, rfl⟩)
    · exact ⟨id, mem_insert.2 (.inl rfl), rfl⟩
    · exact ⟨old, mem_insert.2 (.inr hold), rfl⟩

end StateSet

/-- The step among more states. -/
def widenStep (hle : limit ≤ limit') (step : Move × Fin limit) : Move × Fin limit' :=
  (step.1, Fin.castLE hle step.2)

/-- The pair among more states. -/
def Reached.widen (hle : limit ≤ limit') (reached : Reached limit) : Reached limit' :=
  ⟨reached.imp.widen hle, reached.spec.widen hle, reached.path⟩

/-- The same space with more room. -/
structure Space.Widened (hle : limit ≤ limit') (space : Space limit) (space' : Space limit') :
    Prop where
  states : space'.states = space.states
  edges : ∀ i : Nat, space'.edges[i]? = space.edges[i]?.map (List.map (widenStep hle))

namespace SilentGraph

/-- A row of a graph among more states. -/
def widenRow (hle : limit ≤ limit') (row : Fin limit × List (Fin limit)) :
    Fin limit' × List (Fin limit') :=
  (Fin.castLE hle row.1, row.2.map (Fin.castLE hle))

theorem settles_widen {settled : List (Fin limit)} {row : Fin limit × List (Fin limit)} :
    settles (settled.map (Fin.castLE hle)) (widenRow hle row) = settles settled row := by
  rw [Bool.eq_iff_iff, settles_iff, settles_iff]
  simp [widenRow, StateSet.mem_map_castLE]

theorem sweep_widen (settled : List (Fin limit)) (graph : SilentGraph limit) :
    sweep (settled.map (Fin.castLE hle)) (graph.map (widenRow hle)) =
      (sweep settled graph).map (Fin.castLE hle) := by
  induction graph with
  | nil => rfl
  | cons row rows ih =>
      simp only [sweep, List.map_cons, List.foldr_cons] at ih ⊢
      rw [ih, settles_widen]
      split
      · rfl
      · rfl

theorem settle_widen {graph : SilentGraph limit} {settled : List (Fin limit)} (h : settled.Nodup)
    {wide : List (Fin limit')} (h' : wide.Nodup) (hwide : wide = settled.map (Fin.castLE hle)) :
    settle (graph.map (widenRow hle)) wide h' = (settle graph settled h).map (Fin.castLE hle) := by
  have hsweep : ∀ {settled : List (Fin limit)} {wide : List (Fin limit')},
      wide = settled.map (Fin.castLE hle) →
        ((sweep wide (graph.map (widenRow hle))).length = wide.length ↔
          (sweep settled graph).length = settled.length) := by
    rintro settled _ rfl
    rw [sweep_widen, List.length_map, List.length_map]
  induction settled, h using settle.induct graph generalizing wide with
  | case1 settled h hdone =>
      rw [settle, settle.eq_1 graph, if_pos ((hsweep hwide).2 hdone), if_pos hdone]
      exact hwide
  | case2 settled h hmore ih =>
      rw [settle, settle.eq_1 graph, if_neg (mt (hsweep hwide).1 hmore), if_neg hmore]
      exact ih _ (by rw [hwide, sweep_widen])

theorem isCyclic_widen (graph : SilentGraph limit) :
    isCyclic (graph.map (widenRow hle)) = isCyclic graph := by
  have hsettle : settle (graph.map (widenRow hle)) [] List.nodup_nil =
      (settle graph [] List.nodup_nil).map (Fin.castLE hle) := settle_widen _ _ rfl
  rw [isCyclic, isCyclic, hsettle, List.length_map, List.length_map]

end SilentGraph

namespace Space.Widened

variable {space : Space limit} {space' : Space limit'}

theorem find? (h : space.Widened hle space') (t : Trace) :
    space'.find? t = (space.find? t).map (Fin.castLE hle) := by
  refine Option.ext fun id => ?_
  rw [find?_eq_some_iff, h.states, Option.map_eq_some_iff]
  constructor
  · intro hid
    obtain ⟨hlt, -⟩ := Array.getElem?_eq_some_iff.1 hid
    exact ⟨⟨id, Nat.lt_of_lt_of_le hlt space.size_le⟩, find?_eq_some_iff.2 hid, rfl⟩
  · rintro ⟨old, hold, rfl⟩
    exact find?_eq_some_iff.1 hold

theorem steps (h : space.Widened hle space') (id : Fin limit) :
    space'.steps (Fin.castLE hle id) = (space.steps id).map (widenStep hle) := by
  rw [Space.steps, Space.steps, Std.TreeMap.getD_eq_getD_getElem?,
    Std.TreeMap.getD_eq_getD_getElem?]
  rw [Fin.val_castLE, h.edges]
  cases space.edges[id.val]? with
  | none => rfl
  | some steps => rfl

theorem any (h : space.Widened hle space') (set : StateSet limit) (p : Trace → Bool) :
    space'.any (set.widen hle) p = space.any set p := by
  simp only [Space.any, StateSet.widen, List.any_map, h.states]
  rfl

theorem flatMap_steps (h : space.Widened hle space') (ids : List (Fin limit)) :
    (ids.map (Fin.castLE hle)).flatMap space'.steps =
      (ids.flatMap space.steps).map (widenStep hle) := by
  rw [List.flatMap_map, List.map_flatMap]
  exact List.flatMap_congr fun id _ => h.steps id

theorem labels (h : space.Widened hle space') (set : StateSet limit) :
    space'.labels (set.widen hle) = space.labels set := by
  rw [Space.labels, Space.labels, StateSet.widen, h.flatMap_steps, List.filterMap_map]
  refine congrArg _ (List.filterMap_congr fun step _ => ?_)
  obtain ⟨move, id⟩ := step
  cases move <;> rfl

theorem targets (h : space.Widened hle space') (ids : List (Fin limit)) (move : Move) :
    space'.targets (ids.map (Fin.castLE hle)) move =
      (space.targets ids move).map (Fin.castLE hle) := by
  rw [Space.targets, Space.targets, h.flatMap_steps, List.filterMap_map, List.map_filterMap]
  refine List.filterMap_congr fun step _ => ?_
  by_cases hmove : step.1 = move
  · simp [widenStep, hmove]
  · simp [widenStep, hmove]

theorem diverges (h : space.Widened hle space') (set : StateSet limit) :
    space'.diverges (set.widen hle) = space.diverges set := by
  have hgraph : space'.silentGraph (set.widen hle) =
      (space.silentGraph set).map (SilentGraph.widenRow hle) := by
    simp only [Space.silentGraph, StateSet.widen, List.map_map]
    refine List.map_congr_left fun id _ => ?_
    have htargets := h.targets [id] .tau
    rw [List.map_singleton] at htargets
    simp only [Function.comp_apply, SilentGraph.widenRow, htargets, List.filter_map]
    refine congrArg _ (congrArg _ (List.filter_congr fun next _ => ?_))
    exact decide_eq_decide.2 StateSet.mem_widen
  rw [Space.diverges, Space.diverges, h.any, hgraph, SilentGraph.isCyclic_widen]

end Space.Widened

/-! ## Computations with more room -/

namespace Explore

/-- How the ends below two bounds compare. Either the smaller bound was hit and the space is full,
or both ends are the same, with the answer written among more states. -/
def Outlasts (hle : limit ≤ limit') (g : α → β) :
    EStateM.Result Halt (Space limit) α → EStateM.Result Halt (Space limit') β → Prop
  | .error .exhausted space, _ => space.states.size = limit
  | .error (.fault fault) _, .error (.fault fault') _ => fault' = fault
  | .ok a space, .ok b space' => b = g a ∧ space.Widened hle space'
  | _, _ => False

/-- The second computation does with more room what the first one does. -/
def Widens (hle : limit ≤ limit') (g : α → β) (m : Explore limit α) (m' : Explore limit' β) :
    Prop :=
  ∀ space space', space.Widened hle space' → Outlasts hle g (m.run space) (m'.run space')

theorem widens_pure {g : α → β} {a : α} {b : β} (h : b = g a) :
    Widens hle g (pure a) (pure b) := fun _ _ hspace => ⟨h, hspace⟩

theorem Widens.bind {g : α → β} {next : γ → δ} {m : Explore limit α} {m' : Explore limit' β}
    {k : α → Explore limit γ} {k' : β → Explore limit' δ} (h : Widens hle g m m')
    (hk : ∀ a, Widens hle next (k a) (k' (g a))) : Widens hle next (m >>= k) (m' >>= k') := by
  intro space space' hspace
  have hm := h space space' hspace
  change Outlasts hle next (EStateM.bind m k space) (EStateM.bind m' k' space')
  unfold EStateM.run at hm
  unfold EStateM.bind
  cases hrun : m space with
  | ok a mid =>
      cases hrun' : m' space' with
      | ok b mid' =>
          rw [hrun, hrun'] at hm
          obtain ⟨rfl, hmid⟩ := hm
          exact hk a mid mid' hmid
      | error =>
          rw [hrun, hrun'] at hm
          exact hm.elim
  | error halt mid =>
      rw [hrun] at hm
      cases halt with
      | exhausted => exact hm
      | fault fault =>
          cases hrun' : m' space' with
          | ok =>
              rw [hrun'] at hm
              exact hm.elim
          | error halt' =>
              rw [hrun'] at hm
              cases halt' <;> exact hm

/-- Both computations look at the spaces they have. -/
theorem widens_get {g : α → β} {k : Space limit → Explore limit α}
    {k' : Space limit' → Explore limit' β}
    (h : ∀ space space', space.Widened hle space' →
      Outlasts hle g ((k space).run space) ((k' space').run space')) :
    Widens hle g (get >>= k) (get >>= k') := h

theorem widens_liftLookup (look : Lookup α) :
    Widens hle id (liftLookup look : Explore limit α) (liftLookup look) := by
  cases look with
  | ok a => exact widens_pure rfl
  | error fault => exact fun _ _ _ => rfl

theorem widens_forM {query : γ → Explore limit PUnit} {query' : γ → Explore limit' PUnit}
    (h : ∀ c, Widens hle id (query c) (query' c)) (l : List γ) :
    Widens hle id (l.forM query) (l.forM query') := by
  induction l with
  | nil => exact widens_pure rfl
  | cons c l ih => exact (h c).bind fun _ => ih

/-! ## Finding states -/

theorem widens_intern (t : Trace) : Widens hle (Fin.castLE hle) (intern t) (intern t) := by
  refine widens_get fun space space' hspace => ?_
  have hfind := hspace.find? t
  have hsize : space'.states.size = space.states.size := by rw [hspace.states]
  split
  case h_1 id hknown =>
    split
    case h_1 id' hknown' =>
      rw [hknown, hknown'] at hfind
      exact ⟨Option.some.inj hfind, hspace⟩
    case h_2 hnew =>
      rw [hknown, hnew] at hfind
      cases hfind
  case h_2 hnew =>
    split
    case isFalse full => exact Nat.le_antisymm space.size_le (Nat.le_of_not_lt full)
    case isTrue room =>
      split
      case h_1 id' hknown' =>
        rw [hnew, hknown'] at hfind
        cases hfind
      case h_2 =>
        rw [dif_pos (hsize ▸ Nat.lt_of_lt_of_le room hle)]
        refine ⟨Fin.ext hsize, ?_, hspace.edges⟩
        simp only [Space.push, hspace.states]

theorem widens_internSteps (steps : List (Move × Trace)) :
    Widens hle (List.map (widenStep hle)) (internSteps steps) (internSteps steps) := by
  induction steps with
  | nil => exact widens_pure rfl
  | cons step rest ih =>
      exact (widens_intern _).bind fun id => ih.bind fun ids => widens_pure rfl

theorem widens_expand (id : Fin limit) : Widens hle (List.map (widenStep hle))
    (expand program id) (expand program (Fin.castLE hle id)) := by
  refine widens_get fun space space' hspace => ?_
  rw [Fin.val_castLE, hspace.edges, hspace.states]
  cases space.edges[id.val]? with
  | some known => exact ⟨rfl, hspace⟩
  | none =>
      cases space.states[id.val]? with
      | none => exact ⟨rfl, hspace⟩
      | some t =>
          refine Widens.bind (widens_forM (fun chan => widens_liftLookup _) _) (fun _ => ?_)
            space space' hspace
          refine (widens_internSteps _).bind fun steps => ?_
          have hrecord : Widens hle id
              (modify fun space => { space with edges := space.edges.insert id.val steps })
              (modify fun space => { space with
                edges := space.edges.insert id.val (steps.map (widenStep hle)) }) := by
            refine fun space space' hspace => ⟨rfl, hspace.states, fun i => ?_⟩
            simp only [Std.TreeMap.getElem?_insert, hspace.edges]
            split
            · rfl
            · rfl
          exact hrecord.bind fun _ => widens_pure rfl

theorem silent_widen (steps : List (Move × Fin limit)) :
    silent (steps.map (widenStep hle)) = (silent steps).map (Fin.castLE hle) := by
  rw [silent, silent, List.filterMap_map, List.map_filterMap]
  refine List.filterMap_congr fun step _ => ?_
  by_cases hmove : step.1 = .tau
  · simp [widenStep, hmove]
  · simp [widenStep, hmove]

theorem widens_close (seen : StateSet limit) (stack : List (Fin limit)) :
    Widens hle (StateSet.widen hle) (close program seen stack)
      (close program (seen.widen hle) (stack.map (Fin.castLE hle))) := by
  induction seen, stack using close.induct with
  | case1 seen =>
      rw [List.map_nil, close, close]
      exact widens_pure rfl
  | case2 seen id stack hmem ih =>
      rw [List.map_cons, close, close, dif_pos hmem, dif_pos (StateSet.mem_widen.2 hmem)]
      exact ih
  | case3 seen id stack hnew ih =>
      rw [List.map_cons, close, close, dif_neg hnew, dif_neg (mt StateSet.mem_widen.1 hnew)]
      refine (widens_expand id).bind fun steps => ?_
      rw [silent_widen, ← List.map_reverse, ← List.map_append, ← StateSet.widen_insert]
      exact ih steps

theorem widens_closure (seeds : List (Fin limit)) :
    Widens hle (StateSet.widen hle) (closure program seeds)
      (closure program (seeds.map (Fin.castLE hle))) := by
  rw [closure, closure, ← List.map_reverse]
  exact widens_close {} _

theorem widens_step (set : StateSet limit) (label : Label) :
    Widens hle (StateSet.widen hle) (step program set label)
      (step program (set.widen hle) label) := by
  refine widens_get fun space space' hspace => ?_
  have htargets := hspace.targets set.ids (.visible label)
  rw [StateSet.widen, htargets]
  exact widens_closure _ space space' hspace

/-! ## Comparing both sides -/

theorem widens_follow (reached : Reached limit) (labels : List Label) :
    Widens hle (Except.map (List.map (Reached.widen hle))) (follow program reached labels)
      (follow program (reached.widen hle) labels) := by
  induction labels with
  | nil => exact widens_pure rfl
  | cons label rest ih =>
      refine (widens_step _ _).bind fun spec => ?_
      have hempty : (spec.widen hle).isEmpty = spec.isEmpty := List.isEmpty_map
      rw [hempty]
      split
      · exact widens_pure rfl
      · split
        · exact ih
        · refine (widens_step _ _).bind fun imp => ih.bind fun result => widens_pure ?_
          cases result <;> rfl

theorem widens_inspect (reached : Reached limit) (tally : Tally) :
    Widens hle (Except.map (Prod.map (List.map (Reached.widen hle)) id))
      (inspect program reached tally) (inspect program (reached.widen hle) tally) := by
  have hfollow : ∀ (performed : List Label) (tally : Tally), Widens hle
      (Except.map (Prod.map (List.map (Reached.widen hle)) id))
      (do pure ((← follow program reached performed).map (·, tally)))
      (do pure ((← follow program (reached.widen hle) performed).map (·, tally))) :=
    fun performed tally => (widens_follow reached performed).bind fun result => widens_pure (by
      cases result <;> rfl)
  refine widens_get fun space space' hspace => ?_
  simp only [Reached.widen, hspace.any, hspace.diverges, hspace.labels]
  split
  · exact ⟨rfl, hspace⟩
  · split
    · exact ⟨rfl, hspace⟩
    · split
      · exact ⟨rfl, hspace⟩
      · exact hfollow _ _ space space' hspace

/-- The pairs visited so far, among more states. -/
def widenVisited (hle : limit ≤ limit') (visited : List (StateSet limit × StateSet limit)) :
    List (StateSet limit' × StateSet limit') :=
  visited.map (Prod.map (StateSet.widen hle) (StateSet.widen hle))

theorem mem_widenVisited {visited : List (StateSet limit × StateSet limit)}
    {reached : Reached limit} : ((reached.widen hle).imp, (reached.widen hle).spec) ∈
      widenVisited hle visited ↔ (reached.imp, reached.spec) ∈ visited := by
  have hinjective := (StateSet.widen_injective hle).prodMap (StateSet.widen_injective hle)
  exact List.mem_map_of_injective hinjective (a := (reached.imp, reached.spec))

theorem widens_search (visited : List (StateSet limit × StateSet limit)) (nodup : visited.Nodup)
    (nodup' : (widenVisited hle visited).Nodup) (tally : Tally) (queue : List (Reached limit)) :
    Widens hle id (search program visited nodup tally queue)
      (search program (widenVisited hle visited) nodup' tally
        (queue.map (Reached.widen hle))) := by
  induction visited, nodup, tally, queue using search.induct with
  | case1 visited nodup tally =>
      rw [List.map_nil, search, search]
      exact widens_pure rfl
  | case2 visited nodup tally reached queue seen ih =>
      rw [List.map_cons, search, search, dif_pos seen, dif_pos (mem_widenVisited.2 seen)]
      exact ih nodup'
  | case3 visited nodup tally reached queue new ih =>
      rw [List.map_cons, search, search, dif_neg new, dif_neg (mt mem_widenVisited.1 new)]
      refine (widens_inspect reached tally).bind fun result => ?_
      cases result with
      | error violation => exact widens_pure rfl
      | ok found =>
          have hnext := ih found.1 found.2
          rw [List.map_append] at hnext
          exact hnext _

/-- A search that ends by itself has an answer. -/
theorem conclusive_of_search {visited : List (StateSet limit × StateSet limit)}
    {nodup : visited.Nodup} {tally : Tally} {queue : List (Reached limit)}
    {found : Verdict × List Label} {space last : Space limit}
    (h : (search program visited nodup tally queue).run space = .ok found last) :
    found.1 ≠ .inconclusive := by
  induction visited, nodup, tally, queue using search.induct generalizing space with
  | case1 visited nodup tally =>
      rw [search] at h
      obtain ⟨rfl, rfl⟩ := pure_eq_ok.1 h
      exact fun hverdict => by cases hverdict
  | case2 visited nodup tally reached queue seen ih =>
      rw [search, dif_pos seen] at h
      exact ih h
  | case3 visited nodup tally reached queue new ih =>
      rw [search, dif_neg new] at h
      obtain ⟨result, mid, -, h⟩ := bind_eq_ok.1 h
      cases result with
      | error violation =>
          obtain ⟨rfl, rfl⟩ := pure_eq_ok.1 h
          exact fun hverdict => by cases hverdict
      | ok next => exact ih next.1 next.2 h

theorem widens_start (spec imp : Trace) :
    Widens hle (Reached.widen hle) (start program spec imp) (start program spec imp) :=
  (widens_intern _).bind fun impStart => (widens_intern _).bind fun specStart =>
    (widens_closure [impStart]).bind fun _ => (widens_closure [specStart]).bind fun _ =>
      widens_pure rfl

/-- The search from the start of both sides. -/
theorem widens_run (hle : limit ≤ limit') (program : Program) (spec imp : Trace) : Widens hle id
    (start program spec imp >>= fun reached => search program [] List.nodup_nil {} [reached])
    (start program spec imp >>= fun reached => search program [] List.nodup_nil {} [reached]) :=
  (widens_start spec imp).bind fun reached =>
    widens_search [] List.nodup_nil List.nodup_nil {} [reached]

theorem widened_empty : Space.Widened hle {} {} := ⟨rfl, fun i => by simp⟩

/-- A search is given up only where the space is full. -/
theorem size_of_exhausted {spec imp : Trace} {last : Space limit}
    (h : (start program spec imp >>= fun reached =>
      search program [] List.nodup_nil {} [reached]).run {} = .error .exhausted last) :
    last.states.size = limit := by
  have hfull := widens_run (Nat.le_refl limit) program spec imp {} {} widened_empty
  rw [h] at hfull
  exact hfull

end Explore

/-- A search is always answered unless a channel does not resolve. It finds no more states than it
may, and as many where it gives up. Otherwise its report is the same with every larger bound. -/
theorem refines_of_limit (program : Program) (spec imp : Trace) (limit : Nat) :
    ((∀ chan ∈ spec.channels ++ imp.channels, ∃ key, ChannelKey.resolve program chan = .ok key) →
      ∃ report, refines program spec imp limit = .ok report) ∧
    ∀ report, refines program spec imp limit = .ok report →
      report.statesExplored ≤ limit ∧
      (report.verdict = .inconclusive → report.statesExplored = limit) ∧
      (report.verdict ≠ .inconclusive → ∀ limit', limit ≤ limit' →
        refines program spec imp limit' = .ok report) := by
  refine ⟨exists_report limit, fun report h => ?_⟩
  obtain ⟨reached, mid, last, hstart, hsearch, hsize⟩ | ⟨last, hrun, rfl⟩ := cases_of_refines h
  · refine ⟨hsize ▸ last.size_le, fun hnone => absurd hnone (Explore.conclusive_of_search hsearch),
      fun _ limit' hle => ?_⟩
    have hends := Explore.widens_run hle program spec imp {} {} Explore.widened_empty
    rw [bind_eq_ok.2 ⟨reached, mid, hstart, hsearch⟩] at hends
    unfold refines
    dsimp only
    split
    case h_1 heq =>
      rw [heq] at hends
      obtain ⟨hanswer, hlast⟩ := hends
      obtain ⟨rfl, rfl⟩ := Prod.mk.inj hanswer
      rw [hlast.states, ← hsize]
    case h_2 heq =>
      rw [heq] at hends
      exact hends.elim
    case h_3 heq =>
      rw [heq] at hends
      exact hends.elim
  · exact ⟨last.size_le, fun _ => Explore.size_of_exhausted hrun,
      fun hverdict => absurd rfl hverdict⟩

def ticker : Program where
  name := "ticker"
  names := #[⟨"ticks", .channel, {}⟩]
  exprs := #[⟨.name ⟨0⟩, {}⟩]

/-- Writes again and again, in more and more processes. -/
def spawning : Trace :=
  .fix ⟨⟨0⟩, .loop ⟨0⟩⟩ (.comp .par [.event .output ⟨⟨0⟩, none⟩, .ref ⟨0⟩])

/-- Writes again and again. -/
def ticking : Trace :=
  .fix ⟨⟨0⟩, .loop ⟨0⟩⟩ (.comp .seq [.event .output ⟨⟨0⟩, none⟩, .ref ⟨0⟩])

/-- A process without an end of its states is given up at the bound, and one with few states is
decided by every bound from there on. -/
theorem ticker_bounds :
    (∃ report, refines ticker spawning spawning 2 = .ok report ∧
      report.verdict = .inconclusive ∧ report.statesExplored = 2) ∧
    ∀ limit, 2 ≤ limit → refines ticker ticking ticking limit = .ok ⟨.refines, [], 2⟩ := by
  obtain ⟨-, hspawning⟩ := refines_of_limit ticker spawning spawning 2
  obtain ⟨-, hticking⟩ := refines_of_limit ticker ticking ticking 2
  constructor
  · have hrun : refines ticker spawning spawning 2 = .ok ⟨.inconclusive, [], 2⟩ := by cbv
    exact ⟨_, hrun, rfl, (hspawning _ hrun).2.1 rfl⟩
  · have hrun : refines ticker ticking ticking 2 = .ok ⟨.refines, [], 2⟩ := by cbv
    exact (hticking _ hrun).2.2 (by decide)

end ProcessContracts
