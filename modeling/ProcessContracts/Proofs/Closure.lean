import ProcessContracts.Proofs.Exploration

/-!
# Closed sets of states

A closed set holds the traces that its seeds lead to silently, all of them expanded. What is asked
of the set is thereby asked of those traces: what they offer, whether one of them diverges, and
where a visible step goes.
-/

namespace ProcessContracts

open Trace Explore

variable {limit : Nat} {program : Program} {space space' : Space limit} {set set' : StateSet limit}
  {p : Trace → Prop}

namespace Space

/-- The traces of the set are those with the property, and each of them is expanded. -/
structure Holds (space : Space limit) (set : StateSet limit) (p : Trace → Prop) : Prop where
  sound : ∀ id ∈ set, ∃ t, space.Shows id t ∧ p t
  complete : ∀ t, p t → ∃ id ∈ set, space.Shows id t
  expanded : ∀ id ∈ set, ∃ steps, space.edges[id.val]? = some steps

theorem Holds.grow (h : space.Holds set p) (hg : space.Grows space') : space'.Holds set p where
  sound id hid := by
    obtain ⟨t, ht, hp⟩ := h.sound id hid
    exact ⟨t, hg.states ht, hp⟩
  complete t ht := by
    obtain ⟨id, hid, hshows⟩ := h.complete t ht
    exact ⟨id, hid, hg.states hshows⟩
  expanded id hid := by
    obtain ⟨steps, hsteps⟩ := h.expanded id hid
    exact ⟨steps, hg.edges hsteps⟩

theorem Holds.congr {q : Trace → Prop} (h : space.Holds set p) (hpq : ∀ t, p t ↔ q t) :
    space.Holds set q where
  sound id hid := by
    obtain ⟨t, ht, hp⟩ := h.sound id hid
    exact ⟨t, ht, (hpq t).1 hp⟩
  complete t ht := h.complete t ((hpq t).2 ht)
  expanded := h.expanded

theorem Holds.of_shows {id : Fin limit} {t : Trace} (h : space.Holds set p) (hid : id ∈ set)
    (ht : space.Shows id t) : p t := by
  obtain ⟨u, hu, hp⟩ := h.sound id hid
  obtain rfl : t = u := Option.some.inj (ht.symm.trans hu)
  exact hp

/-- The same set holds the same traces. -/
theorem Holds.iff {q : Trace → Prop} (hp : space.Holds set p) (hq : space.Holds set q) (t : Trace) :
    p t ↔ q t := by
  constructor
  · intro h
    obtain ⟨id, hid, ht⟩ := hp.complete t h
    exact hq.of_shows hid ht
  · intro h
    obtain ⟨id, hid, ht⟩ := hq.complete t h
    exact hp.of_shows hid ht

theorem any_iff (h : space.Holds set p) (q : Trace → Bool) :
    space.any set q = true ↔ ∃ t, p t ∧ q t = true := by
  rw [any, List.any_eq_true]
  constructor
  · rintro ⟨id, hid, hq⟩
    obtain ⟨t, ht, hp⟩ := h.sound id hid
    rw [show space.states[id.val]? = some t from ht] at hq
    exact ⟨t, hp, hq⟩
  · rintro ⟨t, hp, hq⟩
    obtain ⟨id, hid, ht⟩ := h.complete t hp
    exact ⟨id, hid, by rw [show space.states[id.val]? = some t from ht]; exact hq⟩

theorem isEmpty_iff (h : space.Holds set p) : set.isEmpty = true ↔ ¬ ∃ t, p t := by
  rw [StateSet.isEmpty, List.isEmpty_iff]
  constructor
  · rintro hnil ⟨t, ht⟩
    obtain ⟨id, hid, -⟩ := h.complete t ht
    rw [StateSet.mem_def, hnil] at hid
    cases hid
  · intro hno
    refine List.eq_nil_iff_forall_not_mem.2 fun id hid => ?_
    obtain ⟨t, -, ht⟩ := h.sound id hid
    exact hno ⟨t, ht⟩

theorem mem_targets {ids : List (Fin limit)} {m : Move} {next : Fin limit} :
    next ∈ space.targets ids m ↔ ∃ id ∈ ids, (m, next) ∈ space.steps id := by
  simp only [targets, List.mem_filterMap, List.mem_flatMap, Option.ite_none_right_eq_some,
    Option.some.injEq, Prod.exists]
  constructor
  · rintro ⟨m', next', ⟨id, hid, hstep⟩, rfl, rfl⟩
    exact ⟨id, hid, hstep⟩
  · rintro ⟨id, hid, hstep⟩
    exact ⟨m, next, ⟨id, hid, hstep⟩, rfl, rfl⟩

/-- The steps out of a set are the moves of its traces. -/
theorem targets_iff (hspace : space.Faithful program) (h : space.Holds set p) {m : Move} :
    (∀ next ∈ space.targets set.ids m, ∃ t u, p t ∧ (m, u) ∈ t.moves (ChannelKey.ofRef program) ∧
      space.Shows next u.simplify) ∧
    ∀ t u, p t → (m, u) ∈ t.moves (ChannelKey.ofRef program) →
      ∃ next ∈ space.targets set.ids m, space.Shows next u.simplify := by
  constructor
  · intro next hnext
    obtain ⟨id, hid, hstep⟩ := mem_targets.1 hnext
    obtain ⟨t, ht, hp⟩ := h.sound id hid
    obtain ⟨steps, hsteps⟩ := h.expanded id hid
    rw [steps_eq hsteps] at hstep
    obtain ⟨u, hu, hshows⟩ := (hspace.mem_steps hsteps ht).1 next hstep
    exact ⟨t, u, hp, hu, hshows⟩
  · intro t u hp hu
    obtain ⟨id, hid, ht⟩ := h.complete t hp
    obtain ⟨steps, hsteps⟩ := h.expanded id hid
    obtain ⟨next, hnext, hshows⟩ := (hspace.mem_steps hsteps ht).2 u hu
    rw [← steps_eq hsteps] at hnext
    exact ⟨next, mem_targets.2 ⟨id, hid, hnext⟩, hshows⟩

theorem mem_labels (hspace : space.Faithful program) (h : space.Holds set p) {l : Label} :
    l ∈ space.labels set ↔
      ∃ t u, p t ∧ (.visible l, u) ∈ t.moves (ChannelKey.ofRef program) := by
  have hmem : l ∈ space.labels set ↔ ∃ next, next ∈ space.targets set.ids (.visible l) := by
    simp only [mem_targets, labels, List.mem_eraseDups, List.mem_filterMap, List.mem_flatMap]
    constructor
    · rintro ⟨⟨m, next⟩, ⟨id, hid, hstep⟩, heq⟩
      cases m with
      | tau => cases heq
      | visible l' =>
          obtain rfl := Option.some.inj heq
          exact ⟨next, id, hid, hstep⟩
    · rintro ⟨next, id, hid, hstep⟩
      exact ⟨(.visible l, next), ⟨id, hid, hstep⟩, rfl⟩
  rw [hmem]
  constructor
  · rintro ⟨next, hnext⟩
    obtain ⟨t, u, hp, hu, -⟩ := (targets_iff hspace h).1 next hnext
    exact ⟨t, u, hp, hu⟩
  · rintro ⟨t, u, hp, hu⟩
    obtain ⟨next, hnext, -⟩ := (targets_iff hspace h).2 t u hp hu
    exact ⟨next, hnext⟩

/-! ## Divergence -/

theorem map_fst_silentGraph (space : Space limit) (set : StateSet limit) :
    (space.silentGraph set).map Prod.fst = set.ids := by
  simp [silentGraph, Function.comp_def]

theorem nodup_silentGraph (space : Space limit) (set : StateSet limit) :
    ((space.silentGraph set).map Prod.fst).Nodup := by
  rw [map_fst_silentGraph]
  exact set.ascending.imp fun hlt => by omega

theorem mem_silentGraph {row : Fin limit × List (Fin limit)} : row ∈ space.silentGraph set ↔
    row.1 ∈ set ∧ row.2 = (space.targets [row.1] .tau).filter (· ∈ set) := by
  rw [silentGraph, List.mem_map]
  constructor
  · rintro ⟨id, hid, rfl⟩
    exact ⟨hid, rfl⟩
  · rintro ⟨hid, hrow⟩
    exact ⟨row.1, hid, by rw [← hrow]⟩

theorem Shows.inj {id id' : Fin limit} {t : Trace} (h : space.Shows id t)
    (h' : space.Shows id' t) : id = id' :=
  Option.some.inj ((find?_eq_some_iff.2 h).symm.trans (find?_eq_some_iff.2 h'))

/-- The silent successors in a closed set are those of the traces. -/
theorem mem_targets_singleton (hspace : space.Faithful program) (h : space.Holds set p)
    {id : Fin limit} {t u : Trace} (hid : id ∈ set) (ht : space.Shows id t)
    (hu : View.Slides (ChannelKey.ofRef program) t u) :
    ∃ next ∈ space.targets [id] .tau, space.Shows next u := by
  obtain ⟨w, hw, rfl⟩ := hu
  obtain ⟨steps, hsteps⟩ := h.expanded id hid
  obtain ⟨next, hnext, hshows⟩ := (hspace.mem_steps hsteps ht).2 w hw
  rw [← steps_eq hsteps] at hnext
  exact ⟨next, mem_targets.2 ⟨id, List.mem_singleton_self id, hnext⟩, hshows⟩

theorem slides_of_mem_targets (hspace : space.Faithful program) (h : space.Holds set p)
    {id next : Fin limit} {t : Trace} (hid : id ∈ set) (ht : space.Shows id t)
    (hnext : next ∈ space.targets [id] .tau) :
    ∃ u, space.Shows next u ∧ View.Slides (ChannelKey.ofRef program) t u := by
  obtain ⟨id', hid', hstep⟩ := mem_targets.1 hnext
  obtain rfl := List.mem_singleton.1 hid'
  obtain ⟨steps, hsteps⟩ := h.expanded id' hid
  rw [steps_eq hsteps] at hstep
  obtain ⟨w, hw, hshows⟩ := (hspace.mem_steps hsteps ht).1 next hstep
  exact ⟨_, hshows, w, hw, rfl⟩

/-- A closed set diverges exactly if one of its traces can slide forever. -/
theorem diverges_iff (hspace : space.Faithful program) (h : space.Holds set p)
    (hclosed : ∀ t u, p t → View.Slides (ChannelKey.ofRef program) t u → p u) :
    space.diverges set = true ↔
      ∃ t, p t ∧ View.SlidesForever (ChannelKey.ofRef program) t := by
  rw [Space.diverges, Bool.or_eq_true, any_iff h,
    SilentGraph.isCyclic_iff (nodup_silentGraph space set), map_fst_silentGraph]
  constructor
  · rintro (⟨t, hp, hd⟩ | ⟨q, htrap, id, hid, hq⟩)
    · exact ⟨t, hp, (· = t), rfl, fun _ heq => .inl (heq ▸ hd)⟩
    · obtain ⟨t, ht, hp⟩ := h.sound id hid
      refine ⟨t, hp, fun t => ∃ id ∈ set, space.Shows id t ∧ q id, ⟨id, hid, ht, hq⟩, ?_⟩
      rintro t ⟨id, hid, ht, hq⟩
      obtain ⟨next, hnext, hq⟩ := htrap (id, (space.targets [id] .tau).filter (· ∈ set))
        (mem_silentGraph.2 ⟨hid, rfl⟩) hq
      rw [List.mem_filter, decide_eq_true_iff] at hnext
      obtain ⟨u, hu, hslides⟩ := slides_of_mem_targets hspace h hid ht hnext.1
      exact .inr ⟨u, hslides, next, hnext.2, hu, hq⟩
  · rintro ⟨t, hp, q, hq, hnext⟩
    by_cases hd : ∃ t, p t ∧ t.diverges = true
    · exact .inl hd
    · refine .inr ⟨fun id => ∃ t, space.Shows id t ∧ q t, ?_, ?_⟩
      · rintro row hrow ⟨t, ht, hq⟩
        obtain ⟨hid, heq⟩ := mem_silentGraph.1 hrow
        have hp := h.of_shows hid ht
        obtain ⟨u, hu, hq⟩ := (hnext t hq).resolve_left fun hdt => hd ⟨t, hp, hdt⟩
        obtain ⟨next, hnext, hshows⟩ := mem_targets_singleton hspace h hid ht hu
        obtain ⟨id, hid', hshows'⟩ := h.complete u (hclosed t u hp hu)
        obtain rfl := hshows.inj hshows'
        have hkept := heq ▸ List.mem_filter.2 ⟨hnext, decide_eq_true hid'⟩
        exact ⟨next, hkept, u, hshows, hq⟩
      · obtain ⟨id, hid, ht⟩ := h.complete t hp
        exact ⟨id, hid, t, ht, hq⟩

end Space

namespace Explore

open Space

/-! ## Closing under silent steps -/

theorem mem_silent {steps : List (Move × Fin limit)} {next : Fin limit} :
    next ∈ silent steps ↔ (.tau, next) ∈ steps := by
  simp only [silent, List.mem_filterMap, Option.ite_none_right_eq_some, Option.some.injEq,
    Prod.exists]
  constructor
  · rintro ⟨m, id, h, rfl, rfl⟩
    exact h
  · intro h
    exact ⟨_, _, h, rfl, rfl⟩

/-- The state is expanded and its silent successors have the property. -/
def Settles (space : Space limit) (id : Fin limit) (q : Fin limit → Prop) : Prop :=
  ∃ steps, space.edges[id.val]? = some steps ∧ ∀ next ∈ silent steps, q next

theorem Settles.grow {id : Fin limit} {q q' : Fin limit → Prop} (hg : space.Grows space')
    (hq : ∀ next, q next → q' next) (h : Settles space id q) : Settles space' id q' := by
  obtain ⟨steps, hsteps, hnext⟩ := h
  exact ⟨steps, hg.edges hsteps, fun next hn => hq next (hnext next hn)⟩

/-- `Reaches program space root id`: silent steps lead from one state to the other. -/
def Reaches (program : Program) (space : Space limit) (root id : Fin limit) : Prop :=
  ∃ r u, space.Shows root r ∧ space.Shows id u ∧ Leads (ChannelKey.ofRef program) r [] u

theorem close_spec {seen : StateSet limit} {stack : List (Fin limit)}
    (hspace : space.Faithful program)
    (hseen : ∀ id ∈ seen, Settles space id fun next => next ∈ seen ∨ next ∈ stack)
    (hstack : ∀ id ∈ stack, ∃ t, space.Shows id t)
    (h : (close program seen stack).run space = .ok set space') :
    Explores program space space' ∧ (∀ id ∈ set, Settles space' id (· ∈ set)) ∧
      (∀ id, id ∈ seen ∨ id ∈ stack → id ∈ set) ∧
      ∀ id ∈ set, id ∈ seen ∨ ∃ root ∈ stack, Reaches program space' root id := by
  induction seen, stack using close.induct generalizing space with
  | case1 seen =>
      rw [close] at h
      obtain ⟨rfl, rfl⟩ := pure_eq_ok.1 h
      refine ⟨⟨hspace, .refl _⟩, fun id hid => ?_, fun id hid => ?_, fun id hid => .inl hid⟩
      · exact (hseen id hid).grow (.refl _) fun next hn => hn.resolve_right (by simp)
      · exact hid.resolve_right (by simp)
  | case2 seen id stack hmem ih =>
      rw [close, dif_pos hmem] at h
      have hkeeps : ∀ next, next ∈ seen ∨ next ∈ id :: stack → next ∈ seen ∨ next ∈ stack := by
        rintro next (hn | hn)
        · exact .inl hn
        · rcases List.mem_cons.1 hn with rfl | hn
          · exact .inl hmem
          · exact .inr hn
      obtain ⟨hexplores, hset, hsub, hreach⟩ := ih hspace
        (fun other hother => (hseen other hother).grow (.refl _) hkeeps)
        (fun other hother => hstack other (List.mem_cons_of_mem _ hother)) h
      refine ⟨hexplores, hset, fun other hother => hsub other (hkeeps other hother),
        fun other hother => ?_⟩
      exact (hreach other hother).imp_right fun ⟨root, hroot, hr⟩ =>
        ⟨root, List.mem_cons_of_mem _ hroot, hr⟩
  | case3 seen id stack hnew ih =>
      rw [close, dif_neg hnew] at h
      obtain ⟨steps, mid, hexpand, h⟩ := bind_eq_ok.1 h
      obtain ⟨t, ht⟩ := hstack id List.mem_cons_self
      obtain ⟨hmid, hsteps⟩ := expand_spec hspace ht hexpand
      have hmem : ∀ next, next ∈ (silent steps).reverse ++ stack ↔
          next ∈ silent steps ∨ next ∈ stack := by simp
      -- What is found stays found, whether it is expanded or still waits.
      have hkeeps : ∀ next, next ∈ seen ∨ next ∈ id :: stack →
          next ∈ seen.insert id ∨ next ∈ (silent steps).reverse ++ stack := by
        rintro next (hn | hn)
        · exact .inl (StateSet.mem_insert.2 (.inr hn))
        · rcases List.mem_cons.1 hn with rfl | hn
          · exact .inl (StateSet.mem_insert.2 (.inl rfl))
          · exact .inr ((hmem next).2 (.inr hn))
      obtain ⟨hexplores, hset, hsub, hreach⟩ := ih steps hmid.faithful
        (fun other hother => by
          rcases StateSet.mem_insert.1 hother with rfl | hother
          · exact ⟨steps, hsteps, fun next hn => .inr ((hmem next).2 (.inl hn))⟩
          · exact (hseen other hother).grow hmid.grows hkeeps)
        (fun other hother => by
          rcases (hmem other).1 hother with hother | hother
          · obtain ⟨u, -, hu⟩ := (hmid.faithful.mem_steps hsteps (hmid.grows.states ht)).1 other
              (mem_silent.1 hother)
            exact ⟨_, hu⟩
          · obtain ⟨u, hu⟩ := hstack other (List.mem_cons_of_mem _ hother)
            exact ⟨u, hmid.grows.states hu⟩) h
      refine ⟨hmid.trans hexplores, hset, fun other hother => hsub other (hkeeps other hother),
        fun other hother => ?_⟩
      have hshows := hexplores.grows.states (hmid.grows.states ht)
      rcases hreach other hother with hother | ⟨root, hroot, hr⟩
      · rcases StateSet.mem_insert.1 hother with rfl | hother
        · exact .inr ⟨other, List.mem_cons_self, t, t, hshows, hshows, .here t⟩
        · exact .inl hother
      · rcases (hmem root).1 hroot with hroot | hroot
        · -- The state was found from a silent successor of the one just expanded.
          obtain ⟨u, hu, hroot'⟩ := (hmid.faithful.mem_steps hsteps (hmid.grows.states ht)).1 root
            (mem_silent.1 hroot)
          obtain ⟨r, w, hshowsr, hw, hleads⟩ := hr
          obtain rfl : r = u.simplify :=
            Option.some.inj (hshowsr.symm.trans (hexplores.grows.states hroot'))
          exact .inr ⟨id, List.mem_cons_self, t, w, hshows, hw, .silent hu hleads⟩
        · exact .inr ⟨root, List.mem_cons_of_mem _ hroot, hr⟩

/-- Closing the states that show some traces gives all that these lead to silently. -/
theorem closure_spec {seeds : List (Fin limit)} (hspace : space.Faithful program)
    (hsound : ∀ id ∈ seeds, ∃ t, space.Shows id t ∧ p t)
    (hcomplete : ∀ t, p t → ∃ id ∈ seeds, space.Shows id t)
    (h : (closure program seeds).run space = .ok set space') :
    Explores program space space' ∧
      space'.Holds set fun u => ∃ t, p t ∧ Leads (ChannelKey.ofRef program) t [] u := by
  obtain ⟨hexplores, hset, hsub, hreach⟩ := close_spec hspace
    (fun id hid => absurd hid List.not_mem_nil)
    (fun id hid => by
      obtain ⟨t, ht, -⟩ := hsound id (List.mem_reverse.1 hid)
      exact ⟨t, ht⟩) h
  refine ⟨hexplores, fun id hid => ?_, fun u hu => ?_, fun id hid => ?_⟩
  · rcases hreach id hid with hid | ⟨root, hroot, r, u, hr, hu, hleads⟩
    · cases hid
    · obtain ⟨t, ht, hp⟩ := hsound root (List.mem_reverse.1 hroot)
      obtain rfl : r = t := Option.some.inj (hr.symm.trans (hexplores.grows.states ht))
      exact ⟨u, hu, r, hp, hleads⟩
  · obtain ⟨t, hp, hleads⟩ := hu
    obtain ⟨id, hid, ht⟩ := hcomplete t hp
    -- Along the silent path every state is in the set.
    have follow : ∀ {t u s}, Leads (ChannelKey.ofRef program) t s u → s = [] →
        (∃ id ∈ set, space'.Shows id t) → ∃ id ∈ set, space'.Shows id u := by
      intro t u s hleads
      induction hleads with
      | here => exact fun _ h => h
      | silent hm _ ih =>
          rintro hs ⟨id, hid, ht⟩
          obtain ⟨steps, hsteps, hnext⟩ := hset id hid
          obtain ⟨next, hstep, hshows⟩ := (hexplores.faithful.mem_steps hsteps ht).2 _ hm
          exact ih hs ⟨next, hnext next (mem_silent.2 hstep), hshows⟩
      | visible => exact fun hs => nomatch hs
    exact follow hleads rfl
      ⟨id, hsub id (.inr (List.mem_reverse.2 hid)), hexplores.grows.states ht⟩
  · obtain ⟨steps, hsteps, -⟩ := hset id hid
    exact ⟨steps, hsteps⟩

/-- Where a visible step goes from the traces of a set, and silent steps after it. -/
theorem step_spec {label : Label} (hspace : space.Faithful program) (hset : space.Holds set p)
    (h : (step program set label).run space = .ok set' space') :
    Explores program space space' ∧ space'.Holds set' fun w => ∃ t u, p t ∧
      (.visible label, u) ∈ t.moves (ChannelKey.ofRef program) ∧
      Leads (ChannelKey.ofRef program) u.simplify [] w := by
  obtain ⟨_, _, hget, h⟩ := bind_eq_ok.1 h
  obtain ⟨rfl, rfl⟩ := get_eq_ok.1 hget
  obtain ⟨hsound, hcomplete⟩ := targets_iff (m := .visible label) hspace hset
  obtain ⟨hexplores, hholds⟩ := closure_spec (p := fun w => ∃ t u, p t ∧
      (.visible label, u) ∈ t.moves (ChannelKey.ofRef program) ∧ w = u.simplify) hspace
    (fun next hnext => by
      obtain ⟨t, u, hp, hu, hshows⟩ := hsound next hnext
      exact ⟨_, hshows, t, u, hp, hu, rfl⟩)
    (fun w ⟨t, u, hp, hu, hw⟩ => hw ▸ hcomplete t u hp hu) h
  refine ⟨hexplores, hholds.congr fun w => ?_⟩
  constructor
  · rintro ⟨_, ⟨t, u, hp, hu, rfl⟩, hleads⟩
    exact ⟨t, u, hp, hu, hleads⟩
  · rintro ⟨t, u, hp, hu, hleads⟩
    exact ⟨_, ⟨t, u, hp, hu, rfl⟩, hleads⟩

end Explore

end ProcessContracts
