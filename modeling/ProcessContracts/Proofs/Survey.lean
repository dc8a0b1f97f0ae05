import ProcessContracts.Proofs.Inspection

/-!
# The search as a whole

The invariant of the search: whatever path both sides take leads to a pair that was inspected, or
goes through one that is still queued. Pairs are queued by the length of their paths, so everything
shorter than the path at the head of the queue is settled.
-/

namespace ProcessContracts

open Trace Explore

variable {limit : Nat} {program : Program} {space space' : Space limit}
  {t u spec imp : Trace} {s p : List Label} {l : Label}

namespace Explore

open Space

/-! ## The invariant -/

/-- Some pair of the list holds what `s` leads to, and was reached by no longer a path. -/
def Covers (program : Program) (space : Space limit) (spec imp : Trace)
    (pairs : List (Reached limit)) (s : List Label) : Prop :=
  ∃ r ∈ pairs, r.path.length ≤ s.length ∧ Tracks program space spec imp r s

/-- What is known of a pair that was inspected: unless the specification accepts anything there,
nothing is wrong and the pairs one step further on are among those found. -/
structure Surveyed (program : Program) (space : Space limit) (spec imp : Trace)
    (log queue : List (Reached limit)) : Prop where
  tracks : ∀ r ∈ log ++ queue, Tracks program space spec imp r r.path.reverse ∧
    program.searched.Takes spec imp r.path.reverse
  start : Covers program space spec imp (log ++ queue) []
  calm : ∀ r ∈ log, program.searched.Clear spec imp r.path.reverse
  further : ∀ r ∈ log, ¬ program.searched.Chaotic spec r.path.reverse → ∀ l, l ≠ .tick →
    program.searched.HasTrace imp (r.path.reverse ++ [l]) →
      Covers program space spec imp (log ++ queue) (r.path.reverse ++ [l])
  past : ∀ r ∈ log, ∀ next ∈ queue, r.path.length ≤ next.path.length
  sorted : queue.Pairwise (·.path.length ≤ ·.path.length)
  spread : ∀ r ∈ queue, ∀ next ∈ queue, next.path.length ≤ r.path.length + 1

variable {log queue : List (Reached limit)} {reached : Reached limit}

theorem Tracks.chaotic_congr (h : Tracks program space spec imp reached s)
    (h' : Tracks program space spec imp reached p) :
    program.searched.Chaotic spec s ↔ program.searched.Chaotic spec p :=
  h.spec.chaotic_iff.symm.trans h'.spec.chaotic_iff

theorem Tracks.hasTrace_congr (hspace : space.Faithful program)
    (h : Tracks program space spec imp reached s) (h' : Tracks program space spec imp reached p) :
    program.searched.HasTrace imp (s ++ [l]) ↔ program.searched.HasTrace imp (p ++ [l]) :=
  (h.imp.mem_labels hspace).symm.trans (h'.imp.mem_labels hspace)

theorem Tracks.happens_congr (hspace : space.Faithful program)
    (h : Tracks program space spec imp reached s)
    (h' : Tracks program space spec imp reached p) (violation : Violation) :
    program.searched.Happens spec imp s violation ↔
      program.searched.Happens spec imp p violation := by
  cases violation with
  | unexpectedStep l =>
      exact and_congr (h.hasTrace_congr hspace h')
        (not_congr ((h.spec.mem_labels hspace).symm.trans (h'.spec.mem_labels hspace)))
  | divergence =>
      exact and_congr ((h.imp.diverges_iff hspace).symm.trans (h'.imp.diverges_iff hspace))
        (not_congr ((h.spec.diverges_iff hspace).symm.trans (h'.spec.diverges_iff hspace)))
  | unconstrained =>
      exact h.imp.unconstrained_iff.symm.trans h'.imp.unconstrained_iff

theorem HoldsAfter.concat_congr {set set' : StateSet limit}
    (h : space.HoldsAfter program set t s) (h' : space.HoldsAfter program set t p)
    (hnext : space.HoldsAfter program set' t (s ++ [l])) :
    space.HoldsAfter program set' t (p ++ [l]) := by
  refine Holds.congr hnext fun w => ?_
  simp only [Leads.concat_iff, Holds.iff h h']

theorem Covers.grow (h : Covers program space spec imp queue s) (hg : space.Grows space') :
    Covers program space' spec imp queue s := by
  obtain ⟨r, hr, hlength, htracks⟩ := h
  exact ⟨r, hr, hlength, htracks.grow hg⟩

theorem Covers.mono {queue' : List (Reached limit)} (h : Covers program space spec imp queue s)
    (hsub : queue ⊆ queue') : Covers program space spec imp queue' s := by
  obtain ⟨r, hr, h⟩ := h
  exact ⟨r, hsub hr, h⟩

/-- Whatever is shorter than the queued paths was inspected. -/
theorem Surveyed.covers (hspace : space.Faithful program)
    (h : Surveyed program space spec imp log queue)
    (hs : program.searched.Takes spec imp s) (htick : Label.tick ∉ s)
    (hshort : ∀ r ∈ queue, s.length < r.path.length) : Covers program space spec imp log s := by
  have hlog : ∀ {s}, (∀ r ∈ queue, s.length < r.path.length) →
      Covers program space spec imp (log ++ queue) s → Covers program space spec imp log s := by
    rintro s hshort ⟨r, hr, hlength, htracks⟩
    refine ⟨r, (List.mem_append.1 hr).resolve_right fun hr => ?_, hlength, htracks⟩
    exact absurd (hshort r hr) (Nat.not_lt.2 hlength)
  induction s using List.reverseRecOn with
  | nil => exact hlog hshort h.start
  | append_singleton s l ih =>
      obtain ⟨hs, hc, hi, -⟩ := Observer.takes_concat_iff.1 hs
      rw [List.mem_append, not_or] at htick
      rw [List.length_append] at hshort
      obtain ⟨r, hr, hlength, htracks⟩ := ih hs htick.1 fun r hr => by
        have := hshort r hr
        omega
      obtain ⟨hown, -⟩ := h.tracks r (List.mem_append_left _ hr)
      obtain ⟨next, hnext, hlength', htracks'⟩ := h.further r hr
        (mt (htracks.chaotic_congr hown).2 hc) l (fun hl => htick.2 (by simp [hl]))
        ((htracks.hasTrace_congr hspace hown).1 hi)
      refine hlog (by simpa using hshort) ⟨next, hnext, ?_, ?_, ?_⟩
      · rw [List.length_append, List.length_reverse] at hlength'
        rw [List.length_append]
        omega
      · exact HoldsAfter.concat_congr hown.imp htracks.imp htracks'.imp
      · exact HoldsAfter.concat_congr hown.spec htracks.spec htracks'.spec

theorem Surveyed.clear (hspace : space.Faithful program)
    (h : Surveyed program space spec imp log queue)
    (hshort : ∀ r ∈ queue, s.length < r.path.length) : program.searched.Clear spec imp s := by
  intro hs hc violation hhappens
  by_cases htick : Label.tick ∈ s
  · exact Observer.not_happens_of_tick htick violation hhappens
  · obtain ⟨r, hr, -, htracks⟩ := h.covers hspace hs htick hshort
    obtain ⟨hown, htakes⟩ := h.tracks r (List.mem_append_left _ hr)
    exact h.calm r hr htakes (mt (htracks.chaotic_congr hown).2 hc) violation
      ((htracks.happens_congr hspace hown violation).1 hhappens)

/-- A pair whose sets were inspected before adds nothing. -/
theorem Surveyed.skip {old : Reached limit}
    (h : Surveyed program space spec imp log (reached :: queue)) (hold : old ∈ log)
    (hsame : old.imp = reached.imp ∧ old.spec = reached.spec) :
    Surveyed program space spec imp log queue := by
  have hsub : log ++ queue ⊆ log ++ reached :: queue := by
    intro r hr
    rcases List.mem_append.1 hr with hr | hr
    · exact List.mem_append_left _ hr
    · exact List.mem_append_right _ (List.mem_cons_of_mem _ hr)
  have hcovers : ∀ {s}, Covers program space spec imp (log ++ reached :: queue) s →
      Covers program space spec imp (log ++ queue) s := by
    rintro s ⟨r, hr, hlength, htracks⟩
    rcases List.mem_append.1 hr with hr | hr
    · exact ⟨r, List.mem_append_left _ hr, hlength, htracks⟩
    · rcases List.mem_cons.1 hr with rfl | hr
      · refine ⟨old, List.mem_append_left _ hold, ?_, ?_, ?_⟩
        · exact Nat.le_trans (h.past old hold r List.mem_cons_self) hlength
        · rw [hsame.1]
          exact htracks.imp
        · rw [hsame.2]
          exact htracks.spec
      · exact ⟨r, List.mem_append_right _ hr, hlength, htracks⟩
  exact {
    tracks := fun r hr => h.tracks r (hsub hr)
    start := hcovers h.start
    calm := h.calm
    further := fun r hr hc l hl hi => hcovers (h.further r hr hc l hl hi)
    past := fun r hr next hnext => h.past r hr next (List.mem_cons_of_mem _ hnext)
    sorted := h.sorted.of_cons
    spread := fun r hr next hnext =>
      h.spread r (List.mem_cons_of_mem _ hr) next (List.mem_cons_of_mem _ hnext) }

/-- A pair without a violation is inspected, and the pairs one step further on are queued. -/
theorem Surveyed.advance {next : List (Reached limit)}
    (h : Surveyed program space spec imp log (reached :: queue)) (hg : space.Grows space')
    (hclear : Cleared program space' spec imp reached reached.path.reverse next) :
    Surveyed program space' spec imp (reached :: log) (queue ++ next) := by
  obtain ⟨-, htakes⟩ := h.tracks reached (by simp)
  have hpath : ∀ r ∈ next, ∃ l, r.path = l :: reached.path ∧
      Tracks program space' spec imp r r.path.reverse ∧
      program.searched.Takes spec imp r.path.reverse := by
    intro r hr
    obtain ⟨hc, l, himp, hpath, htracks⟩ := hclear.sound r hr
    rw [hpath, List.reverse_cons]
    refine ⟨l, rfl, htracks, Observer.takes_concat_iff.2 ⟨htakes, hc, himp, ?_⟩⟩
    by_contra hno
    exact hclear.calm hc (.unexpectedStep l) ⟨himp, hno⟩
  have hlength : ∀ r ∈ next, r.path.length = reached.path.length + 1 := by
    intro r hr
    obtain ⟨l, hpath, -⟩ := hpath r hr
    rw [hpath, List.length_cons]
  have hhead : ∀ r ∈ queue, reached.path.length ≤ r.path.length :=
    (List.pairwise_cons.1 h.sorted).1
  have hfar : ∀ r ∈ queue, r.path.length ≤ reached.path.length + 1 := fun r hr =>
    h.spread reached List.mem_cons_self r (List.mem_cons_of_mem _ hr)
  have hcovers : ∀ {s}, Covers program space spec imp (log ++ reached :: queue) s →
      Covers program space' spec imp (reached :: log ++ (queue ++ next)) s := fun hs =>
    (hs.grow hg).mono fun r hr => by
      simp only [List.mem_append, List.mem_cons] at hr ⊢
      tauto
  constructor
  case tracks =>
    intro r hr
    have hr : r ∈ log ++ reached :: queue ∨ r ∈ next := by
      simp only [List.mem_append, List.mem_cons] at hr ⊢
      tauto
    rcases hr with hr | hr
    · exact ⟨(h.tracks r hr).1.grow hg, (h.tracks r hr).2⟩
    · obtain ⟨-, -, hr⟩ := hpath r hr
      exact hr
  case start => exact hcovers h.start
  case calm => exact List.forall_mem_cons.2 ⟨fun _ => hclear.calm, h.calm⟩
  case further =>
    refine List.forall_mem_cons.2 ⟨fun hc l hl hi => ?_, fun r hr hc l hl hi => ?_⟩
    · obtain ⟨r, hr, hpath, htracks⟩ := hclear.complete hc l hl hi
      exact ⟨r, by simp [hr], by simp [hpath], htracks⟩
    · exact hcovers (h.further r hr hc l hl hi)
  case past =>
    refine List.forall_mem_cons.2 ⟨fun r hr => ?_, fun old hold r hr => ?_⟩
    · rcases List.mem_append.1 hr with hr | hr
      · exact hhead r hr
      · exact hlength r hr ▸ Nat.le_succ _
    · have := h.past old hold reached List.mem_cons_self
      rcases List.mem_append.1 hr with hr | hr
      · exact Nat.le_trans this (hhead r hr)
      · exact hlength r hr ▸ Nat.le_succ_of_le this
  case sorted =>
    refine List.pairwise_append.2 ⟨h.sorted.of_cons, ?_, fun r hr r' hr' => ?_⟩
    · exact List.pairwise_of_forall_mem_list fun r hr r' hr' => by
        rw [hlength r hr, hlength r' hr']
    · rw [hlength r' hr']
      exact hfar r hr
  case spread =>
    have hbounds : ∀ r ∈ queue ++ next, reached.path.length ≤ r.path.length ∧
        r.path.length ≤ reached.path.length + 1 := by
      intro r hr
      rcases List.mem_append.1 hr with hr | hr
      · exact ⟨hhead r hr, hfar r hr⟩
      · rw [hlength r hr]
        exact ⟨Nat.le_succ _, Nat.le_refl _⟩
    intro r hr r' hr'
    exact Nat.le_trans (hbounds r' hr').2 (Nat.succ_le_succ (hbounds r hr).1)

/-- A search starts with nothing inspected. -/
theorem surveyed_start (h : (start program spec imp).run {} = .ok reached space) :
    space.Faithful program ∧ Surveyed program space spec imp [] [reached] := by
  obtain ⟨hexplores, htracks, hpath⟩ := start_spec (Space.faithful_empty program) h
  have hreached : ∀ r ∈ [reached], r = reached := fun r hr => List.mem_singleton.1 hr
  exact ⟨hexplores.faithful, {
    tracks := fun r hr => by
      rw [hreached r hr, hpath]
      exact ⟨htracks, Observer.takes_nil⟩
    start := ⟨reached, by simp, by rw [hpath], htracks⟩
    calm := by simp
    further := by simp
    past := by simp
    sorted := List.pairwise_singleton _ _
    spread := fun r hr next hnext => by
      rw [hreached r hr, hreached next hnext]
      exact Nat.le_succ _ }⟩

theorem search_spec {visited : List (StateSet limit × StateSet limit)} {nodup : visited.Nodup}
    {tally : Tally} {verdict : Verdict} {restrictive : List Label}
    (hspace : space.Faithful program)
    (hsurvey : Surveyed program space spec imp log queue)
    (hvisited : visited = log.map fun r => (r.imp, r.spec))
    (h : (search program visited nodup tally queue).run space = .ok (verdict, restrictive) space') :
    program.searched.Justifies spec imp verdict := by
  induction visited, nodup, tally, queue using search.induct generalizing space log with
  | case1 visited nodup tally =>
      rw [search] at h
      obtain ⟨heq, rfl⟩ := pure_eq_ok.1 h
      obtain ⟨rfl, -⟩ := Prod.mk.inj heq
      exact fun s => hsurvey.clear hspace (by simp)
  | case2 visited nodup tally reached queue hseen ih =>
      rw [search, dif_pos hseen] at h
      rw [hvisited, List.mem_map] at hseen
      obtain ⟨old, hold, hsame⟩ := hseen
      exact ih hspace (hsurvey.skip hold (Prod.mk.inj hsame)) hvisited h
  | case3 visited nodup tally reached queue hnew ih =>
      rw [search, dif_neg hnew] at h
      obtain ⟨result, mid, hinspect, h⟩ := bind_eq_ok.1 h
      obtain ⟨htracks, htakes⟩ := hsurvey.tracks reached (by simp)
      obtain ⟨hexplores, hresult⟩ := inspect_spec hspace htracks hinspect
      cases result with
      | error violation =>
          obtain ⟨heq, rfl⟩ := pure_eq_ok.1 h
          obtain ⟨rfl, -⟩ := Prod.mk.inj heq
          refine ⟨htakes, hresult.1, hresult.2, fun s hs => ?_⟩
          rw [List.length_reverse] at hs
          refine hsurvey.clear hspace (List.forall_mem_cons.2 ⟨hs, fun r hr => ?_⟩)
          exact Nat.lt_of_lt_of_le hs ((List.pairwise_cons.1 hsurvey.sorted).1 r hr)
      | ok found =>
          obtain ⟨next, tally'⟩ := found
          exact ih next tally' hexplores.faithful (hsurvey.advance hexplores.grows hresult)
            (by rw [hvisited, List.map_cons]) h

end Explore

end ProcessContracts
