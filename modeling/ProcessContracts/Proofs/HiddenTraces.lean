import ProcessContracts.Proofs.ContractSoundness

/-!
# Hiding and projection

Putting `skip` in the place of the communication on unwanted channels is deleting it from every weak
trace. An endless run that performs nothing else becomes a silent one: where such a run begins, the
trace with the hidden channels diverges.
-/

namespace ProcessContracts

open Trace View

variable {program : Program} {names : List NameId} {t u hidden : Trace} {s p : List Label}
  {v : View}

/-- Whether the label remains when the channels rooted in the names are kept. -/
def Label.isKept (program : Program) (names : List NameId) : Label → Bool
  | .tick => true
  | .event _ chan => chan.isAmong program names

/-- Some endless run of the trace performs nothing but silent steps and communication on other
channels. -/
def Program.RunsHidden (program : Program) (names : List NameId) (t : Trace) : Prop :=
  ∃ run : Nat → Trace, run 0 = t ∧ ∀ i, ∃ m, (m, run (i + 1)) ∈ (run i).moves program.view.key ∧
    ∀ label, m = .visible label → label.isKept program names = false

/-! ## What is noted on a path -/

namespace Program

theorem noted_viewOf (m : Move) : ((program.viewOf names).noted m).toList =
    (program.view.noted m).toList.filter (Label.isKept program names) := by
  cases m with
  | tau => rfl
  | visible label =>
      cases label with
      | tick => rfl
      | event direction chan =>
          have hseen : program.view.noted (.visible (.event direction chan)) =
              some (.event direction chan) := rfl
          rw [hseen, Option.toList_some, noted_event, viewOf]
          cases hkept : chan.isAmong program names with
          | true => simp [Label.isKept, hkept]
          | false => simp [Label.isKept, hkept]

/-- Who sees only some channels notes what is left when the labels of the others are deleted. -/
theorem after_viewOf_iff : (program.viewOf names).After t p u ↔
    ∃ s, program.view.After t s u ∧ s.filter (Label.isKept program names) = p := by
  constructor
  · intro h
    induction h with
    | here t => exact ⟨[], .here t, rfl⟩
    | @step _ _ _ m _ hm _ ih =>
        obtain ⟨s, h, rfl⟩ := ih
        exact ⟨_, .step hm h, by rw [List.filter_append, noted_viewOf]⟩
  · rintro ⟨s, h, rfl⟩
    induction h with
    | here t => exact .here t
    | @step _ _ _ m _ hm _ ih =>
        rw [List.filter_append, ← noted_viewOf]
        exact .step hm ih

theorem hasTrace_viewOf_iff : (program.viewOf names).HasTrace t p ↔
    ∃ s, program.view.HasTrace t s ∧ s.filter (Label.isKept program names) = p := by
  constructor
  · rintro ⟨u, h⟩
    obtain ⟨s, h, hs⟩ := after_viewOf_iff.1 h
    exact ⟨s, ⟨u, h⟩, hs⟩
  · rintro ⟨s, ⟨u, h⟩, hs⟩
    exact ⟨u, after_viewOf_iff.2 ⟨s, h, hs⟩⟩

theorem noted_viewOf_eq_none_iff (m : Move) : (program.viewOf names).noted m = none ↔
    ∀ label, m = .visible label → label.isKept program names = false := by
  cases m with
  | tau => simp
  | visible label =>
      cases label with
      | tick => simp [Label.isKept]
      | event direction chan => simp [noted_event, viewOf, Label.isKept]

theorem runsHidden_iff : program.RunsHidden names t ↔ (program.viewOf names).RunsSilently t :=
  exists_congr fun _ => and_congr_right fun _ => forall_congr' fun _ => exists_congr fun m =>
    and_congr_right fun _ => (noted_viewOf_eq_none_iff m).symm

theorem diverges_viewOf_iff : (program.viewOf names).Diverges t p ↔
    ∃ s w, program.view.After t s w ∧ s.filter (Label.isKept program names) = p ∧
      (w.diverges = true ∨ program.RunsHidden names w) := by
  constructor
  · rintro ⟨w, h, hd⟩
    obtain ⟨s, h, hs⟩ := after_viewOf_iff.1 h
    exact ⟨s, w, h, hs, hd.imp_right runsHidden_iff.2⟩
  · rintro ⟨s, w, h, hs, hd⟩
    exact ⟨w, after_viewOf_iff.2 ⟨s, h, hs⟩, hd.imp_right runsHidden_iff.1⟩

/-! ## The trace with hidden channels -/

/-- The weak traces of a trace in which all channels but those rooted in the names are hidden are
the weak traces of the trace itself without the labels of these channels. It diverges after `p` just
when the trace, after some weak trace that leaves `p`, diverges or runs forever and performs only
what is hidden. -/
theorem hide_projects (ht : t.isClosed = true)
    (h : t.hideUnless (ChanRef.isAmong program names) = .ok hidden) :
    (∀ p, program.view.HasTrace hidden p ↔
      ∃ s, program.view.HasTrace t s ∧ s.filter (Label.isKept program names) = p) ∧
    ∀ p, program.view.Diverges hidden p ↔
      ∃ s w, program.view.After t s w ∧ s.filter (Label.isKept program names) = p ∧
        (w.diverges = true ∨ program.RunsHidden names w) := by
  obtain ⟨_, hanswers, hhide⟩ := Lookup.bind_eq_ok.1 h
  obtain rfl := Except.ok.inj hhide
  have hkeep := keeping_viewOf (Lookup.answered_of_forM hanswers)
  have ht := isClosed_iff.1 ht
  exact ⟨fun p => (hasTrace_hide_iff ht hkeep).trans hasTrace_viewOf_iff,
    fun p => (diverges_hide_iff ht hkeep).trans diverges_viewOf_iff⟩

/-- Either a request and a reply to it, or requests forever. Without the requests the choice is not
resolved by them any more: there still is the reply, and there is a silent run. -/
theorem requests_hidden : ∃ hidden,
    (Trace.comp .det [.comp .seq [request, reply], requestLoop]).hideUnless
      (ChanRef.isAmong desk [⟨1⟩]) = .ok hidden ∧
    desk.view.HasTrace hidden [.event .output ⟨.name ⟨1⟩, none⟩] ∧
      desk.view.Diverges hidden [] := by
  have hhide : (Trace.comp .det [.comp .seq [request, reply], requestLoop]).hideUnless
      (ChanRef.isAmong desk [⟨1⟩]) = .ok (.comp .det [.comp .seq [.skip, reply],
        .fix ⟨⟨0⟩, .loop ⟨0⟩⟩ (.comp .seq [.skip, .ref ⟨0⟩])]) := by decide
  obtain ⟨htraces, hdiverges⟩ := hide_projects (by decide) hhide
  have hread : (.visible (.event .input ⟨.name ⟨0⟩, none⟩), .comp .seq [.skip, requestLoop]) ∈
      (Trace.comp .seq [request, requestLoop]).moves desk.view.key := by decide
  have hunfold : (.tau, .comp .seq [request, requestLoop]) ∈ requestLoop.moves desk.view.key := by
    decide
  have hagain : (.tau, requestLoop) ∈
      (Trace.comp .seq [.skip, requestLoop]).moves desk.view.key := by decide
  refine ⟨_, hhide, (htraces _).2 ?_, (hdiverges _).2 ?_⟩
  · have hrequest : (.visible (.event .input ⟨.name ⟨0⟩, none⟩), .comp .seq [.skip, reply]) ∈
        (Trace.comp .det [.comp .seq [request, reply], requestLoop]).moves desk.view.key := by
      decide
    exact ⟨_, ⟨_, .step hrequest after_reply⟩, by decide⟩
  · have hstart : (.tau,
          .comp .det [.comp .seq [request, reply], .comp .seq [request, requestLoop]]) ∈
        (Trace.comp .det [.comp .seq [request, reply], requestLoop]).moves desk.view.key := by
      decide
    have hrequest : (.visible (.event .input ⟨.name ⟨0⟩, none⟩), .comp .seq [.skip, requestLoop]) ∈
        (Trace.comp .det [.comp .seq [request, reply], .comp .seq [request, requestLoop]]).moves
          desk.view.key := by decide
    refine ⟨_, _, .step hstart (.step hrequest (.step hagain (.here _))), by decide, .inr ?_⟩
    refine ⟨fun i => match i % 3 with
      | 0 => requestLoop
      | 1 => .comp .seq [request, requestLoop]
      | _ => .comp .seq [.skip, requestLoop], rfl, fun i => ?_⟩
    obtain hi | hi | hi : i % 3 = 0 ∨ i % 3 = 1 ∨ i % 3 = 2 := by omega
    · have hnext : (i + 1) % 3 = 1 := by omega
      simp only [hi, hnext]
      exact ⟨_, hunfold, by simp⟩
    · have hnext : (i + 1) % 3 = 2 := by omega
      simp only [hi, hnext]
      exact ⟨_, hread, fun l hl => by cases hl; decide⟩
    · have hnext : (i + 1) % 3 = 0 := by omega
      simp only [hi, hnext]
      exact ⟨_, hagain, by simp⟩

end Program

end ProcessContracts
