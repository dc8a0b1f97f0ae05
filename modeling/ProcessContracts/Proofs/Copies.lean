import Mathlib.Data.List.Basic
import Mathlib.Data.List.InsertIdx
import ProcessContracts.Proofs.SilentRuns

/-!
# Copies of a trace

A change of traces that keeps their operators moves a composition as it moves the children. Where
the copy takes the steps of the original, up to a change of the channels on the labels, an observer
notes of the copy what is noted of the original, with the channels changed. Different channels may
become one.
-/

namespace ProcessContracts

def Label.relabel (g : ChannelKey → ChannelKey) : Label → Label
  | .tick => .tick
  | .event direction chan => .event direction (g chan)

def Move.relabel (g : ChannelKey → ChannelKey) : Move → Move
  | .tau => .tau
  | .visible label => .visible (label.relabel g)

@[simp] theorem Label.relabel_id (l : Label) : l.relabel id = l := by
  cases l <;> rfl

@[simp] theorem Move.relabel_id (m : Move) : m.relabel id = m := by
  cases m <;> simp [relabel]

namespace Trace

variable {φ : Trace → Trace} {g : ChannelKey → ChannelKey} {key key' : ChanRef → ChannelKey}

structure KeepsOperators (φ : Trace → Trace) : Prop where
  unit : ∀ op, φ (unit op) = unit op
  comp : ∀ op ts, φ (.comp op ts) = .comp op (ts.map φ)

/-- The step of the copy that belongs to a step of the original. -/
def carry (φ : Trace → Trace) (g : ChannelKey → ChannelKey) (step : Move × Trace) : Move × Trace :=
  (step.1.relabel g, φ step.2)

namespace KeepsOperators

variable (hφ : KeepsOperators φ)
include hφ

theorem collapse (op : Operator) (ts : List Trace) :
    φ (collapse op ts) = Trace.collapse op (ts.map φ) := by
  match ts with
  | [] => exact hφ.unit op
  | [t] => rfl
  | t :: u :: ts => exact hφ.comp op (t :: u :: ts)

theorem sequenced (ts : List Trace) (step : Move × Trace) :
    sequenced (ts.map φ) (carry φ g step) = carry φ g (Trace.sequenced ts step) := by
  obtain ⟨m, u⟩ := step
  cases m with
  | tau => simp [Trace.sequenced, carry, Move.relabel, hφ.comp]
  | visible l =>
      cases l with
      | tick => simp [Trace.sequenced, carry, Move.relabel, Label.relabel, hφ.collapse]
      | event => simp [Trace.sequenced, carry, Move.relabel, Label.relabel, hφ.comp]

theorem interleaved (ts : List Trace) (steps : List (List (Move × Trace))) :
    interleaved (ts.map φ) (steps.map (List.map (carry φ g))) =
      (Trace.interleaved ts steps).map (carry φ g) := by
  simp only [Trace.interleaved, List.zipIdx_map, List.flatMap_map, List.map_flatMap]
  refine List.flatMap_congr fun x _ => ?_
  obtain ⟨own, i⟩ := x
  simp only [Prod.map, List.map_map]
  refine List.map_congr_left fun step _ => ?_
  obtain ⟨m, u⟩ := step
  cases m with
  | tau => simp [carry, Move.relabel, hφ.comp, List.map_set]
  | visible l =>
      cases l with
      | tick => simp [carry, Move.relabel, Label.relabel, hφ.collapse, List.eraseIdx_map]
      | event => simp [carry, Move.relabel, Label.relabel, hφ.comp, List.map_set]

theorem chosen (ts : List Trace) (steps : List (List (Move × Trace))) :
    chosen (ts.map φ) (steps.map (List.map (carry φ g))) =
      (Trace.chosen ts steps).map (carry φ g) := by
  simp only [Trace.chosen, List.zipIdx_map, List.flatMap_map, List.map_flatMap]
  refine List.flatMap_congr fun x _ => ?_
  obtain ⟨own, i⟩ := x
  simp only [Prod.map, List.map_map]
  refine List.map_congr_left fun step _ => ?_
  obtain ⟨m, u⟩ := step
  cases m with
  | tau => simp [carry, Move.relabel, hφ.comp, List.map_set]
  | visible l => cases l <;> simp [carry, Move.relabel, Label.relabel]

theorem moves_comp {op : Operator} {ts : List Trace}
    (h : ∀ t ∈ ts, (φ t).moves key' = (t.moves key).map (carry φ g)) :
    (φ (.comp op ts)).moves key' = ((Trace.comp op ts).moves key).map (carry φ g) := by
  have hall : (ts.map φ).map (moves key') = (ts.map (moves key)).map (List.map (carry φ g)) := by
    rw [List.map_map, List.map_map]
    exact List.map_congr_left h
  rw [hφ.comp]
  cases ts with
  | nil =>
      rw [List.map_nil, moves, moves, List.map_singleton, carry, hφ.unit]
      rfl
  | cons c cs =>
      rw [List.map_cons]
      cases op with
      | seq =>
          rw [moves, moves, h c List.mem_cons_self, List.map_map, List.map_map]
          exact List.map_congr_left fun step _ => hφ.sequenced cs step
      | par =>
          simp only [List.map_cons, moves, movesAll_eq_map] at hall ⊢
          rw [← hφ.interleaved, List.map_cons, List.map_cons, ← hall]
      | det =>
          simp only [List.map_cons, moves, movesAll_eq_map] at hall ⊢
          rw [← hφ.chosen, List.map_cons, List.map_cons, ← hall]
      | ndet =>
          rw [moves, moves, ← List.map_cons, List.map_map, List.map_map]
          rfl

theorem active_comp {op : Operator} {ts : List Trace}
    (h : ∀ t ∈ ts, (φ t).active = t.active.map φ) :
    (φ (.comp op ts)).active = (Trace.comp op ts).active.map φ := by
  have hall : (ts.map φ).flatMap active = (ts.flatMap active).map φ := by
    rw [List.flatMap_map, List.map_flatMap]
    exact List.flatMap_congr h
  rw [hφ.comp]
  cases op with
  | seq =>
      cases ts with
      | nil => rfl
      | cons c cs => exact h c List.mem_cons_self
  | par | det => rw [active, active, activeAll_eq_flatMap, activeAll_eq_flatMap, hall]
  | ndet =>
      rw [active, active, List.map_singleton, hφ.comp]
      all_goals simp

end KeepsOperators

theorem any_active {t : Trace} {p : Trace → Bool} (h : (φ t).active = t.active.map φ)
    (hp : ∀ l, p (φ l) = p l) : (φ t).active.any p = t.active.any p := by
  rw [h, List.any_map]
  exact congrArg t.active.any (funext hp)

end Trace

/-! ## What is observed of a copy -/

open Trace

/-- An observer of a trace under `scope`, through `v`, and one of its copy, through `w`, note the
same up to `g`. -/
structure Copies (v w : View) (scope : Trace → Prop) (φ : Trace → Trace)
    (g : ChannelKey → ChannelKey) : Prop where
  stays : ∀ {t u m}, scope t → (m, u) ∈ t.moves v.key → scope u
  moves : ∀ {t}, scope t → (φ t).moves w.key = (t.moves v.key).map (carry φ g)
  noted : ∀ m, w.noted (m.relabel g) = (v.noted m).map (Label.relabel g)
  diverges : ∀ t, (φ t).diverges = t.diverges
  acceptsAnything : ∀ t, (φ t).acceptsAnything = t.acceptsAnything
  unconstrained : ∀ t, (φ t).unconstrained = t.unconstrained

namespace Copies

variable {v w : View} {scope : Trace → Prop} {φ : Trace → Trace} {g : ChannelKey → ChannelKey}
  {t u spec imp : Trace} {s : List Label} (h : Copies v w scope φ g)
include h

theorem mem_moves {m : Move} (ht : scope t) :
    (m, u) ∈ (φ t).moves w.key ↔
      ∃ m' u', m = m'.relabel g ∧ u = φ u' ∧ (m', u') ∈ t.moves v.key := by
  rw [h.moves ht, List.mem_map]
  constructor
  · rintro ⟨⟨m', u'⟩, hu, heq⟩
    obtain ⟨rfl, rfl⟩ := Prod.mk.inj heq
    exact ⟨m', u', rfl, rfl, hu⟩
  · rintro ⟨m', u', rfl, rfl, hu⟩
    exact ⟨(m', u'), hu, rfl⟩

theorem noted_toList (m : Move) :
    (w.noted (m.relabel g)).toList = (v.noted m).toList.map (Label.relabel g) := by
  rw [h.noted]
  cases v.noted m <;> rfl

theorem stays_after (ht : scope t) (hu : v.After t s u) : scope u := by
  induction hu with
  | here => exact ht
  | step hm _ ih => exact ih (h.stays ht hm)

theorem after (ht : scope t) (hu : v.After t s u) :
    w.After (φ t) (s.map (Label.relabel g)) (φ u) := by
  induction hu with
  | here t => exact .here _
  | step hm _ ih =>
      rw [List.map_append, ← h.noted_toList]
      exact .step ((h.mem_moves ht).2 ⟨_, _, rfl, rfl, hm⟩) (ih (h.stays ht hm))

theorem exists_after {c : Trace} (ht : scope t) (hc : w.After (φ t) s c) :
    ∃ s' u, s = s'.map (Label.relabel g) ∧ c = φ u ∧ v.After t s' u := by
  generalize hφt : φ t = start at hc
  induction hc generalizing t with
  | here => exact ⟨[], t, rfl, hφt.symm, .here t⟩
  | step hm _ ih =>
      subst hφt
      obtain ⟨m', next, rfl, rfl, hnext⟩ := (h.mem_moves ht).1 hm
      obtain ⟨s', u, rfl, rfl, hu⟩ := ih (h.stays ht hnext) rfl
      exact ⟨_, u, by rw [List.map_append, h.noted_toList], rfl, .step hnext hu⟩

theorem quiet_iff (ht : scope t) :
    w.Quiet (φ t) u ↔ ∃ u', u = φ u' ∧ v.Quiet t u' := by
  constructor
  · rintro ⟨m, hm, hq⟩
    obtain ⟨m', u', rfl, rfl, hu⟩ := (h.mem_moves ht).1 hm
    rw [h.noted, Option.map_eq_none_iff] at hq
    exact ⟨u', rfl, m', hu, hq⟩
  · rintro ⟨u', rfl, m, hm, hq⟩
    exact ⟨_, (h.mem_moves ht).2 ⟨m, u', rfl, rfl, hm⟩, by rw [h.noted, hq]; rfl⟩

theorem runsSilently_iff (ht : scope t) : w.RunsSilently (φ t) ↔ v.RunsSilently t := by
  rw [View.runsSilently_iff, View.runsSilently_iff, not_iff_not]
  constructor
  · intro hacc
    generalize hφt : φ t = start at hacc
    induction hacc generalizing t with
    | intro start _ ih =>
        subst hφt
        refine .intro _ fun u hu => ?_
        obtain ⟨m, hm, -⟩ := id hu
        exact ih _ ((h.quiet_iff ht).2 ⟨u, rfl, hu⟩) (h.stays ht hm) rfl
  · intro hacc
    induction hacc with
    | intro t _ ih =>
        refine .intro _ fun u hu => ?_
        obtain ⟨u', rfl, hu'⟩ := (h.quiet_iff ht).1 hu
        obtain ⟨m, hm, -⟩ := id hu'
        exact ih u' hu' (h.stays ht hm)

/-- What holds of the originals of all copies is seen after the same paths. -/
theorem exists_after_iff {p q : Trace → Prop} (ht : scope t)
    (hpq : ∀ u, scope u → (q (φ u) ↔ p u)) :
    (∃ c, w.After (φ t) s c ∧ q c) ↔
      ∃ s', s = s'.map (Label.relabel g) ∧ ∃ u, v.After t s' u ∧ p u := by
  constructor
  · rintro ⟨c, hc, hq⟩
    obtain ⟨s', u, rfl, rfl, hu⟩ := h.exists_after ht hc
    exact ⟨s', rfl, u, hu, (hpq u (h.stays_after ht hu)).1 hq⟩
  · rintro ⟨s', rfl, u, hu, hp⟩
    exact ⟨φ u, h.after ht hu, (hpq u (h.stays_after ht hu)).2 hp⟩

theorem hasTrace_iff (ht : scope t) :
    w.HasTrace (φ t) s ↔ ∃ s', s = s'.map (Label.relabel g) ∧ v.HasTrace t s' := by
  simpa only [View.HasTrace, and_true] using
    h.exists_after_iff (p := fun _ => True) (q := fun _ => True) ht fun _ _ => Iff.rfl

theorem diverges_iff (ht : scope t) :
    w.Diverges (φ t) s ↔ ∃ s', s = s'.map (Label.relabel g) ∧ v.Diverges t s' :=
  h.exists_after_iff ht fun u hu => by rw [h.diverges, h.runsSilently_iff hu]

theorem chaotic_iff (ht : scope t) :
    w.Chaotic (φ t) s ↔ ∃ s', s = s'.map (Label.relabel g) ∧ v.Chaotic t s' :=
  h.exists_after_iff ht fun u _ => by rw [h.acceptsAnything]

theorem unconstrained_iff (ht : scope t) :
    w.Unconstrained (φ t) s ↔ ∃ s', s = s'.map (Label.relabel g) ∧ v.Unconstrained t s' :=
  h.exists_after_iff ht fun u _ => by rw [h.unconstrained]

/-- What a copy of the specification is settled after, the specification is. -/
theorem settled (hspec : scope spec) (hs : w.Settled (φ spec) (s.map (Label.relabel g))) :
    v.Settled spec s :=
  fun p hp hchaotic => hs _ (hp.map _) ((h.chaotic_iff hspec).2 ⟨p, rfl, hchaotic⟩)

/-- A copy is allowed what the original is allowed, even if channels become one. -/
theorem permits (hspec : scope spec) (himp : scope imp) (hpermits : v.Permits spec v imp) :
    w.Permits (φ spec) w (φ imp) := by
  constructor
  · intro s hs hbefore
    obtain ⟨s, rfl, htrace⟩ := (h.hasTrace_iff himp).1 hs
    refine (h.hasTrace_iff hspec).2 ⟨s, rfl, hpermits.traces s htrace fun p hp hne hchaotic => ?_⟩
    refine hbefore _ (hp.map _) (fun heq => hne ?_) ((h.chaotic_iff hspec).2 ⟨p, rfl, hchaotic⟩)
    exact hp.eq_of_length (by simpa using congrArg List.length heq)
  · intro s hs hdiverges
    obtain ⟨s, rfl, himp⟩ := (h.diverges_iff himp).1 hdiverges
    exact (h.diverges_iff hspec).2 ⟨s, rfl, hpermits.diverges s (h.settled hspec hs) himp⟩
  · intro s hs hvague
    obtain ⟨s, rfl, himp⟩ := (h.unconstrained_iff himp).1 hvague
    exact hpermits.unconstrained s (h.settled hspec hs) himp

end Copies

end ProcessContracts
