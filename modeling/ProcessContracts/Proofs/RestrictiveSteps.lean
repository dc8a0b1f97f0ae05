import ProcessContracts.Proofs.NormalForms
import ProcessContracts.Proofs.Refinement

/-!
# Restrictive steps

A finished search tells of the labels that it has met on the side of the specification and not on
the side of the implementation. The pairs at which it counts are those that were inspected while the
specification accepts nothing arbitrary, and they stand for all paths of that kind. What the
implementation performs further on is not counted, so a label that it performs only there is told of
all the same.
-/

namespace ProcessContracts

open Trace Explore

variable {limit : Nat} {program : Program} {space space' : Space limit} {spec imp : Trace}
  {s : List Label} {l : Label}

/-! ## What is offered and what is performed -/

namespace Observer

variable {o o' : Observer}

/-- The specification offers the label after a path of the implementation on which it is settled. -/
def Offers (o : Observer) (spec imp : Trace) (l : Label) : Prop :=
  ∃ s, o.Settled spec s ∧ o.HasTrace imp s ∧ o.HasTrace spec (s ++ [l])

/-- The implementation performs the label where the specification is settled. -/
def Performs (o : Observer) (spec imp : Trace) (l : Label) : Prop :=
  ∃ s, o.Settled spec s ∧ o.HasTrace imp (s ++ [l])

theorem settled_congr (hspec : o.Alike o' spec) : o.Settled spec s ↔ o'.Settled spec s :=
  forall_congr' fun p => imp_congr_right fun _ => not_congr (hspec.chaotic p)

theorem offers_congr (hspec : o.Alike o' spec) (himp : o.Alike o' imp) :
    o.Offers spec imp l ↔ o'.Offers spec imp l :=
  exists_congr fun _ => and_congr (settled_congr hspec)
    (and_congr (himp.traces _) (hspec.traces _))

theorem performs_congr (hspec : o.Alike o' spec) (himp : o.Alike o' imp) :
    o.Performs spec imp l ↔ o'.Performs spec imp l :=
  exists_congr fun _ => and_congr (settled_congr hspec) (himp.traces _)

end Observer

/-! ## The tally of a search -/

namespace Explore

variable {log queue next : List (Reached limit)} {reached : Reached limit}
  {tally tally' : Tally}

/-- The tally holds the labels that either side offers at an inspected pair where the specification
accepts nothing arbitrary. -/
structure Counted (program : Program) (spec imp : Trace) (log : List (Reached limit))
    (tally : Tally) : Prop where
  offered : ∀ l, l ∈ tally.offered ↔ ∃ r ∈ log, ¬ program.searched.Chaotic spec r.path.reverse ∧
    program.searched.HasTrace spec (r.path.reverse ++ [l])
  performed : ∀ l, l ∈ tally.performed ↔ ∃ r ∈ log,
    ¬ program.searched.Chaotic spec r.path.reverse ∧
      program.searched.HasTrace imp (r.path.reverse ++ [l])
  nodup : tally.offered.Nodup

theorem Counted.inspect (hspace : space.Faithful program)
    (hreached : Tracks program space spec imp reached reached.path.reverse)
    (h : Counted program spec imp log tally)
    (hinspect : (inspect program reached tally).run space = .ok (.ok (next, tally')) space') :
    Counted program spec imp (reached :: log) tally' := by
  rw [tally_of_inspect hinspect]
  split
  case isTrue hc =>
    have hc := hreached.spec.chaotic_iff.1 hc
    exact ⟨fun l => by simp [h.offered, hc], fun l => by simp [h.performed, hc], h.nodup⟩
  case isFalse hc =>
    have hc := mt hreached.spec.chaotic_iff.2 hc
    have hoffers := fun l => hreached.spec.mem_labels (l := l) hspace
    have hperforms := fun l => hreached.imp.mem_labels (l := l) hspace
    constructor
    case offered => exact fun l => by simp [Tally.add, h.offered, hoffers, hc, or_comm]
    case performed => exact fun l => by simp [Tally.add, h.performed, hperforms, hc, or_comm]
    case nodup => exact nodup_eraseDups _

theorem counted_search {visited : List (StateSet limit × StateSet limit)} {nodup : visited.Nodup}
    {verdict : Verdict} {restrictive : List Label}
    (hspace : space.Faithful program)
    (hsurvey : Surveyed program space spec imp log queue)
    (hvisited : visited = log.map fun r => (r.imp, r.spec))
    (hcounted : Counted program spec imp log tally)
    (h : (search program visited nodup tally queue).run space = .ok (verdict, restrictive) space')
    (hverdict : verdict = .refines) :
    ∃ log tally, space'.Faithful program ∧ Surveyed program space' spec imp log [] ∧
      Counted program spec imp log tally ∧ restrictive = tally.restrictive := by
  induction visited, nodup, tally, queue using search.induct generalizing space log with
  | case1 visited nodup tally =>
      rw [search] at h
      obtain ⟨heq, rfl⟩ := pure_eq_ok.1 h
      obtain ⟨-, rfl⟩ := Prod.mk.inj heq
      exact ⟨log, tally, hspace, hsurvey, hcounted, rfl⟩
  | case2 visited nodup tally reached queue hseen ih =>
      rw [search, dif_pos hseen] at h
      rw [hvisited, List.mem_map] at hseen
      obtain ⟨old, hold, hsame⟩ := hseen
      exact ih hspace (hsurvey.skip hold (Prod.mk.inj hsame)) hvisited hcounted h
  | case3 visited nodup tally reached queue hnew ih =>
      rw [search, dif_neg hnew] at h
      obtain ⟨result, mid, hinspect, h⟩ := bind_eq_ok.1 h
      obtain ⟨htracks, -⟩ := hsurvey.tracks reached (by simp)
      obtain ⟨hexplores, hresult⟩ := inspect_spec hspace htracks hinspect
      cases result with
      | error violation =>
          obtain ⟨heq, -⟩ := pure_eq_ok.1 h
          obtain ⟨rfl, -⟩ := Prod.mk.inj heq
          cases hverdict
      | ok found =>
          obtain ⟨next, tally'⟩ := found
          exact ih next tally' hexplores.faithful (hsurvey.advance hexplores.grows hresult)
            (by rw [hvisited, List.map_cons]) (hcounted.inspect hspace htracks hinspect) h

/-- When nothing is queued any more, some inspected pair holds what a path of the implementation
leads to on which the specification is settled. -/
theorem Surveyed.exists_tracks (hspace : space.Faithful program)
    (h : Surveyed program space spec imp log []) (hs : program.searched.Settled spec s)
    (himp : program.searched.HasTrace imp s) (htick : Label.tick ∉ s) :
    ∃ r ∈ log, Tracks program space spec imp r s ∧
      Tracks program space spec imp r r.path.reverse ∧
      ¬ program.searched.Chaotic spec r.path.reverse := by
  have htakes := Observer.takes_of_clear (fun p _ => h.clear hspace (by simp)) himp
    fun p hp _ => hs p hp
  obtain ⟨r, hr, -, htracks⟩ := h.covers hspace htakes htick (by simp)
  obtain ⟨hown, -⟩ := h.tracks r (List.mem_append_left _ hr)
  exact ⟨r, hr, htracks, hown, mt (htracks.chaotic_congr hown).2 (hs s (List.prefix_refl s))⟩

/-- The tally of a finished search stands for all paths on which the specification is settled. -/
theorem Counted.mem_offered_iff (hspace : space.Faithful program)
    (hsurvey : Surveyed program space spec imp log []) (h : Counted program spec imp log tally) :
    l ∈ tally.offered ↔ program.searched.Offers spec imp l := by
  rw [h.offered]
  constructor
  · rintro ⟨r, hr, hc, hspec⟩
    obtain ⟨-, htakes⟩ := hsurvey.tracks r (List.mem_append_left _ hr)
    exact ⟨_, htakes.settled hc, htakes.performed, hspec⟩
  · rintro ⟨s, hs, himp, hspec⟩
    have htick : Label.tick ∉ s := fun htick => (program.searched.finished htick).1 l hspec
    obtain ⟨r, hr, htracks, hown, hc⟩ := hsurvey.exists_tracks hspace hs himp htick
    exact ⟨r, hr, hc, (hown.spec.mem_labels hspace).1 ((htracks.spec.mem_labels hspace).2 hspec)⟩

theorem Counted.mem_performed_iff (hspace : space.Faithful program)
    (hsurvey : Surveyed program space spec imp log []) (h : Counted program spec imp log tally) :
    l ∈ tally.performed ↔ program.searched.Performs spec imp l := by
  rw [h.performed]
  constructor
  · rintro ⟨r, hr, hc, himp⟩
    obtain ⟨-, htakes⟩ := hsurvey.tracks r (List.mem_append_left _ hr)
    exact ⟨_, htakes.settled hc, himp⟩
  · rintro ⟨s, hs, himp⟩
    have htick : Label.tick ∉ s := fun htick => (program.searched.finished htick).1 l himp
    obtain ⟨r, hr, htracks, hown, hc⟩ :=
      hsurvey.exists_tracks hspace hs (program.searched.hasTrace_left himp) htick
    exact ⟨r, hr, hc, (htracks.hasTrace_congr hspace hown).1 himp⟩

end Explore

/-! ## The labels a report tells of -/

variable {report : RefinementReport}

/-- What is told of any two traces, on the paths that a search follows. -/
theorem restrictive_searched (h : refines program spec imp limit = .ok report)
    (hverdict : report.verdict = .refines) :
    report.restrictive.Nodup ∧ ∀ l, l ∈ report.restrictive ↔
      program.searched.Offers spec imp l ∧ ¬ program.searched.Performs spec imp l := by
  obtain ⟨reached, mid, last, hstart, hsearch, -⟩ | ⟨last, -, rfl⟩ := cases_of_refines h
  · obtain ⟨hspace, hsurvey⟩ := surveyed_start hstart
    obtain ⟨log, tally, hspace, hsurvey, hcounted, heq⟩ :=
      counted_search hspace hsurvey rfl ⟨by simp, by simp, List.nodup_nil⟩ hsearch hverdict
    rw [heq, Tally.restrictive]
    refine ⟨hcounted.nodup.filter _, fun l => ?_⟩
    simp only [List.mem_filter, decide_eq_true_eq, hcounted.mem_offered_iff hspace hsurvey,
      hcounted.mem_performed_iff hspace hsurvey]
  · cases hverdict

/-- The restrictive steps of a refinement, each told of once, are those that the specification
offers after a path it shares with the implementation and that the implementation performs nowhere,
where only paths count on which the specification is settled. If it is settled on all paths of the
implementation, that is no restriction. -/
theorem mem_restrictive_iff (hspec : spec.isClosed = true) (himp : imp.isClosed = true)
    (h : refines program spec imp limit = .ok report) (hverdict : report.verdict = .refines) :
    report.restrictive.Nodup ∧
    (∀ l, l ∈ report.restrictive ↔
      (∃ s, program.view.Settled spec s ∧ program.view.HasTrace imp s ∧
        program.view.HasTrace spec (s ++ [l])) ∧
      ¬ ∃ s, program.view.Settled spec s ∧ program.view.HasTrace imp (s ++ [l])) ∧
    ((∀ s, program.view.HasTrace imp s → program.view.Settled spec s) → ∀ l,
      l ∈ report.restrictive ↔
        (∃ s, program.view.HasTrace imp s ∧ program.view.HasTrace spec (s ++ [l])) ∧
        ∀ s, ¬ program.view.HasTrace imp (s ++ [l])) := by
  obtain ⟨hnodup, hmem⟩ := restrictive_searched h hverdict
  have hspec : program.searched.Alike program.view.observer spec :=
    alike_searched (isClosed_iff.1 hspec)
  have himp : program.searched.Alike program.view.observer imp :=
    alike_searched (isClosed_iff.1 himp)
  have hmem : ∀ l, l ∈ report.restrictive ↔ program.view.observer.Offers spec imp l ∧
      ¬ program.view.observer.Performs spec imp l := fun l => (hmem l).trans
    (and_congr (Observer.offers_congr hspec himp) (not_congr (Observer.performs_congr hspec himp)))
  refine ⟨hnodup, hmem, fun hsettled l => (hmem l).trans (and_congr ?_ ?_)⟩
  · exact exists_congr fun s => ⟨fun ⟨_, h⟩ => h, fun h => ⟨hsettled s h.1, h⟩⟩
  · rw [← not_exists]
    refine not_congr (exists_congr fun s => ⟨fun ⟨_, h⟩ => h, fun h => ⟨?_, h⟩⟩)
    exact hsettled s (program.view.observer.hasTrace_left h)

/-- A contract that may reply to a request, and accepts anything from then on. -/
def mayReply : Trace := .comp .seq [request, .comp .det [.comp .seq [reply, .chaos], .skip]]

/-- A desk that only reads a request is told that it never replies, and it does not. -/
theorem request_never_replies :
    (∃ s, desk.view.Settled mayReply s ∧ desk.view.HasTrace request s ∧
      desk.view.HasTrace mayReply (s ++ [.event .output ⟨.name ⟨1⟩, none⟩])) ∧
    ¬ ∃ s, desk.view.Settled mayReply s ∧
      desk.view.HasTrace request (s ++ [.event .output ⟨.name ⟨1⟩, none⟩]) := by
  have h : refines desk mayReply request 16 =
      .ok ⟨.refines, [.event .output ⟨.name ⟨1⟩, none⟩], 6⟩ := by cbv
  obtain ⟨-, hmem, -⟩ := mem_restrictive_iff (by decide) (by decide) h rfl
  exact (hmem _).1 List.mem_cons_self

/-- The contract accepts anything once a request came, so the search does not see the reply that
follows the request, and tells that there is none. -/
theorem reply_after_request_restrictive : ∃ report,
    refines desk (.comp .det [reply, .comp .seq [request, .chaos]])
      (.comp .seq [request, reply]) 16 = .ok report ∧ report.verdict = .refines ∧
    .event .output ⟨.name ⟨1⟩, none⟩ ∈ report.restrictive ∧
    desk.view.HasTrace (.comp .seq [request, reply])
      ([.event .input ⟨.name ⟨0⟩, none⟩] ++ [.event .output ⟨.name ⟨1⟩, none⟩]) := by
  have h : refines desk (.comp .det [reply, .comp .seq [request, .chaos]])
      (.comp .seq [request, reply]) 16 =
        .ok ⟨.refines, [.event .output ⟨.name ⟨1⟩, none⟩], 5⟩ := by cbv
  refine ⟨_, h, rfl, List.mem_cons_self, .skip, ?_⟩
  have hrequest : (.visible (.event .input ⟨.name ⟨0⟩, none⟩), .comp .seq [.skip, reply]) ∈
      (Trace.comp .seq [request, reply]).moves desk.view.key := by decide
  exact .step hrequest after_reply

end ProcessContracts
