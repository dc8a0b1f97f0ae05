import ProcessContracts.Proofs.Laws
import ProcessContracts.Proofs.Observation

/-!
# The algebra of weak traces

What can be observed of a composition is decided by what can be observed of its children. `InTurn`,
`Shuffles` and `SideBySide` say how, on sets of traces and without a step: one child starts when
the one before it has terminated, parallel children interleave and terminate together, and a choice
is the union of its children. Each law is read off the sightings of the operator.
-/

namespace ProcessContracts

/-- `InTurn behaviours s`: `s` is observed when each behaviour starts once the one before it has
performed `tick`. Only the last `tick` shows. -/
inductive InTurn : List (List Label → Prop) → List Label → Prop
  | exhausted : InTurn [] []
  | finished : InTurn [] [.tick]
  | during {b bs s} : b s → .tick ∉ s → InTurn (b :: bs) s
  | past {b bs p s} : b (p ++ [.tick]) → InTurn bs s → InTurn (b :: bs) (p ++ s)

/-- `Shuffles parts s`: the list `s` consists of the elements of all the parts, each part in its own
order. -/
inductive Shuffles {α : Type} : List (List α) → List α → Prop
  | nil : Shuffles [] []
  | cons {part parts s s'} : Shuffles parts s → Interleaves part s s' → Shuffles (part :: parts) s'

/-- What is observed of behaviours that run side by side: an interleaving of what each one does
before its own `tick`, and `tick` after that if all of them have performed it. -/
inductive SideBySide (behaviours : List (List Label → Prop)) : List Label → Prop
  | running {parts s} : List.Forall₂ (fun b part => b part ∧ .tick ∉ part) behaviours parts →
      Shuffles parts s → SideBySide behaviours s
  | finished {parts s} : List.Forall₂ (fun b part => b (part ++ [.tick])) behaviours parts →
      Shuffles parts s → SideBySide behaviours (s ++ [.tick])

namespace View

open Trace

variable {v : View} {t u : Trace} {ts : List Trace} {s p : List Label}

/-! ## Traces before termination and up to it -/

theorem hasTrace_and_tick_notMem_iff :
    v.HasTrace t s ∧ .tick ∉ s ↔ ∃ n, v.Sees .going t n s := by
  constructor
  · rintro ⟨hs, hfree⟩
    rcases hasTrace_iff.1 hs with h | ⟨p, rfl, -⟩
    · exact h
    · exact absurd (by simp) hfree
  · rintro ⟨n, h⟩
    exact ⟨hasTrace_iff.2 (.inl ⟨n, h⟩), h.tick_notMem⟩

theorem hasTrace_append_tick_iff :
    v.HasTrace t (p ++ [.tick]) ↔ ∃ n, v.Sees .done t n p := by
  constructor
  · intro hs
    rcases hasTrace_iff.1 hs with ⟨n, h⟩ | ⟨q, hq, n, h⟩
    · exact absurd (by simp) h.tick_notMem
    · rw [List.append_cancel_right hq]
      exact ⟨n, h⟩
  · rintro ⟨n, h⟩
    exact hasTrace_iff.2 (.inr ⟨p, rfl, n, h⟩)

theorem Condenses.hasTrace_iff (h : v.Condenses t u) : v.HasTrace t s ↔ v.HasTrace u s := by
  have hsees : ∀ k s, (∃ n, v.Sees k t n s) ↔ ∃ n, v.Sees k u n s := fun k s =>
    ⟨fun ⟨_, hs⟩ => let ⟨m, _, hs⟩ := h.forth hs; ⟨m, hs⟩,
      fun ⟨_, hs⟩ => let ⟨m, _, hs⟩ := h.back hs; ⟨m, hs⟩⟩
  simp only [View.hasTrace_iff, hsees]

/-! ## Leaves -/

theorem hasTrace_skip : v.HasTrace .skip s ↔ s = [] ∨ s = [.tick] := by
  rw [View.hasTrace_iff]
  simp [sees_skip]

theorem hasTrace_comp_nil (op : Operator) :
    v.HasTrace (.comp op []) s ↔ v.HasTrace (unit op) s :=
  (condenses_collapse op []).hasTrace_iff

/-! ## Sequences -/

theorem hasTrace_seq_cons : v.HasTrace (.comp .seq (t :: ts)) s ↔ (v.HasTrace t s ∧ .tick ∉ s) ∨
    ∃ p q, v.HasTrace t (p ++ [.tick]) ∧ v.HasTrace (.comp .seq ts) q ∧ s = p ++ q := by
  simp only [hasTrace_and_tick_notMem_iff, hasTrace_append_tick_iff,
    (condenses_collapse .seq ts).hasTrace_iff]
  constructor
  · intro hs
    rcases View.hasTrace_iff.1 hs with ⟨n, h⟩ | ⟨r, rfl, n, h⟩
    · rcases sees_seq_cons.1 h with ⟨-, h⟩ | ⟨n₁, p, n₂, q, hp, h', -, rfl⟩
      · exact .inl ⟨n, h⟩
      · exact .inr ⟨p, q, ⟨n₁, hp⟩, View.hasTrace_iff.2 (.inl ⟨n₂, h'⟩), rfl⟩
    · rcases sees_seq_cons.1 h with ⟨hk, -⟩ | ⟨n₁, p, n₂, q, hp, h', -, rfl⟩
      · exact absurd rfl hk
      · exact .inr ⟨p, q ++ [.tick], ⟨n₁, hp⟩, View.hasTrace_iff.2 (.inr ⟨q, rfl, n₂, h'⟩),
          List.append_assoc ..⟩
  · rintro (⟨n, h⟩ | ⟨p, q, ⟨n₁, h⟩, hq, rfl⟩)
    · exact View.hasTrace_iff.2 (.inl ⟨n, sees_seq_cons.2 (.inl ⟨by simp, h⟩)⟩)
    · rcases View.hasTrace_iff.1 hq with ⟨n₂, h'⟩ | ⟨r, rfl, n₂, h'⟩
      · exact View.hasTrace_iff.2
          (.inl ⟨n₁ + n₂, sees_seq_cons.2 (.inr ⟨n₁, p, n₂, q, h, h', rfl, rfl⟩)⟩)
      · exact View.hasTrace_iff.2 (.inr ⟨p ++ r, (List.append_assoc ..).symm, n₁ + n₂,
          sees_seq_cons.2 (.inr ⟨n₁, p, n₂, r, h, h', rfl, rfl⟩)⟩)

theorem hasTrace_seq : v.HasTrace (.comp .seq ts) s ↔ InTurn (ts.map v.HasTrace) s := by
  induction ts generalizing s with
  | nil =>
      rw [hasTrace_comp_nil, unit, hasTrace_skip]
      constructor
      · rintro (rfl | rfl)
        · exact .exhausted
        · exact .finished
      · rintro (_ | _)
        · exact .inl rfl
        · exact .inr rfl
  | cons t ts ih =>
      rw [hasTrace_seq_cons, List.map_cons]
      constructor
      · rintro (⟨hs, hfree⟩ | ⟨p, q, hp, hq, rfl⟩)
        · exact .during hs hfree
        · exact .past hp (ih.1 hq)
      · rintro (_ | _ | ⟨hs, hfree⟩ | ⟨hp, hq⟩)
        · exact .inl ⟨hs, hfree⟩
        · exact .inr ⟨_, _, hp, ih.2 hq, rfl⟩

/-! ## Parallel compositions -/

/-- Shares in which no child is looked at for an active component, child by child. -/
theorem exists_parts_of_shares {k : Sight} {n : Nat} (h : Shares v k ts n s)
    (hk : k.IsBystander) : ∃ parts, Shuffles parts s ∧
      List.Forall₂ (fun t part => ∃ i : Sight, i.IsBystander ∧ (k = .done → i = .done) ∧
        ∃ n, v.Sees i t n part) ts parts := by
  induction h with
  | nil => exact ⟨[], .nil, .nil⟩
  | @cons k₁ k₂ k t ts n₁ n₂ s₁ s₂ s hj hsees _ hs ih =>
      have hparts : k₁.IsBystander ∧ k₂.IsBystander ∧ (k = .done → k₁ = .done ∧ k₂ = .done) := by
        cases hj with
        | done => exact ⟨trivial, trivial, fun _ => ⟨rfl, rfl⟩⟩
        | left hne hi => exact ⟨hk, hi, fun e => absurd e hne⟩
        | right hne hi => exact ⟨hi, hk, fun e => absurd e hne⟩
      obtain ⟨hk₁, hk₂, hdone⟩ := hparts
      obtain ⟨parts, hshuffle, hall⟩ := ih hk₂
      refine ⟨s₁ :: parts, .cons hshuffle hs, .cons ⟨k₁, hk₁, fun e => (hdone e).1, n₁, hsees⟩ ?_⟩
      refine hall.imp fun c part ⟨i, hi, hid, hsees⟩ => ⟨i, hi, fun e => hid (hdone e).2, hsees⟩

theorem shares_done_of_parts {parts : List (List Label)}
    (h : List.Forall₂ (fun t part => ∃ n, v.Sees .done t n part) ts parts)
    (hs : Shuffles parts s) : ∃ n, Shares v .done ts n s := by
  induction h generalizing s with
  | nil =>
      cases hs
      exact ⟨0, .nil⟩
  | cons hsees _ ih =>
      cases hs with
      | cons hs hinter =>
          obtain ⟨n₁, hsees⟩ := hsees
          obtain ⟨n₂, hshares⟩ := ih hs
          exact ⟨n₁ + n₂, .cons .done hsees hshares hinter⟩

theorem shares_going_of_parts {parts : List (List Label)}
    (h : List.Forall₂ (fun t part => ∃ n, v.Sees .going t n part) ts parts)
    (hs : Shuffles parts s) (hts : ts ≠ []) : ∃ n, Shares v .going ts n s := by
  induction h generalizing s with
  | nil => exact absurd rfl hts
  | @cons t part ts parts hsees hrest ih =>
      cases hs with
      | cons hs hinter =>
          have hjoins : Joins .going .going .going := .left (by simp) trivial
          obtain ⟨n₁, hsees⟩ := hsees
          by_cases hnil : ts = []
          · subst hnil
            cases hrest
            cases hs
            exact ⟨n₁ + 0, .cons (Joins.done_right .going) hsees .nil hinter⟩
          · obtain ⟨n₂, hshares⟩ := ih hs hnil
            exact ⟨n₁ + n₂, .cons hjoins hsees hshares hinter⟩

theorem sideBySide_of_shares_going {n : Nat} (h : Shares v .going ts n s) :
    SideBySide (ts.map v.HasTrace) s := by
  obtain ⟨parts, hs, hall⟩ := exists_parts_of_shares h trivial
  refine .running (List.forall₂_map_left_iff.2 (hall.imp ?_)) hs
  rintro t part ⟨i, hi, -, n, hsees⟩
  obtain ⟨m, -, hgoing⟩ := hsees.going_of_start List.prefix_rfl
  exact hasTrace_and_tick_notMem_iff.2 ⟨m, hgoing⟩

theorem sideBySide_of_shares_done {n : Nat} (h : Shares v .done ts n s) :
    SideBySide (ts.map v.HasTrace) (s ++ [.tick]) := by
  obtain ⟨parts, hs, hall⟩ := exists_parts_of_shares h trivial
  refine .finished (List.forall₂_map_left_iff.2 (hall.imp ?_)) hs
  rintro t part ⟨i, -, hi, hsees⟩
  rw [hi rfl] at hsees
  exact hasTrace_append_tick_iff.2 hsees

theorem hasTrace_par : v.HasTrace (.comp .par ts) s ↔ SideBySide (ts.map v.HasTrace) s := by
  by_cases hts : ts = []
  · subst hts
    rw [hasTrace_comp_nil, unit, hasTrace_skip]
    constructor
    · rintro (rfl | rfl)
      · exact .running .nil .nil
      · exact .finished (s := []) .nil .nil
    · rintro (⟨hall, hs⟩ | ⟨hall, hs⟩) <;> cases hall <;> cases hs
      · exact .inl rfl
      · exact .inr rfl
  · rw [(condenses_collapse .par ts).hasTrace_iff, View.hasTrace_iff]
    simp only [sees_collapse_par hts]
    constructor
    · rintro (⟨n, h⟩ | ⟨p, rfl, n, h⟩)
      · exact sideBySide_of_shares_going h
      · exact sideBySide_of_shares_done h
    · rintro (⟨hall, hs⟩ | ⟨hall, hs⟩)
      · simp only [List.forall₂_map_left_iff, hasTrace_and_tick_notMem_iff] at hall
        exact .inl (shares_going_of_parts hall hs hts)
      · simp only [List.forall₂_map_left_iff, hasTrace_append_tick_iff] at hall
        exact .inr ⟨_, rfl, shares_done_of_parts hall hs⟩

/-! ## Choices and recursion -/

theorem hasTrace_det (hts : ts ≠ []) :
    v.HasTrace (.comp .det ts) s ↔ ∃ t ∈ ts, v.HasTrace t s := by
  have hsees : ∀ k s, (∃ n, v.Sees k (.comp .det ts) n s) ↔ ∃ t ∈ ts, ∃ n, v.Sees k t n s := by
    intro k s
    simp only [sees_det hts]
    constructor
    · rintro ⟨n, h⟩
      obtain ⟨t, ht, m, -, hsees⟩ := h.exists_child
      exact ⟨t, ht, m, hsees⟩
    · rintro ⟨t, ht, n, h⟩
      exact ⟨n, picks_of_mem ht h⟩
  simp only [View.hasTrace_iff, hsees]
  grind

theorem hasTrace_ndet (hts : ts ≠ []) :
    v.HasTrace (.comp .ndet ts) s ↔ ∃ t ∈ ts, v.HasTrace t s := by
  constructor
  · intro hs
    rcases View.hasTrace_iff.1 hs with ⟨n, h⟩ | ⟨p, rfl, n, h⟩
    · rcases (sees_ndet hts).1 h with ⟨-, -, rfl⟩ | ⟨m, -, t, ht, h⟩
      · obtain ⟨t, rest, rfl⟩ := List.exists_cons_of_ne_nil hts
        exact ⟨t, by simp, t, .here t⟩
      · exact ⟨t, ht, View.hasTrace_iff.2 (.inl ⟨m, h⟩)⟩
    · rcases (sees_ndet hts).1 h with ⟨hk, -⟩ | ⟨m, -, t, ht, h⟩
      · cases hk
      · exact ⟨t, ht, View.hasTrace_iff.2 (.inr ⟨p, rfl, m, h⟩)⟩
  · rintro ⟨t, ht, u, hs⟩
    have hm : (.tau, t) ∈ (Trace.comp .ndet ts).moves v.key := by
      obtain ⟨c, cs, rfl⟩ := List.exists_cons_of_ne_nil hts
      simpa [moves] using ht
    exact ⟨u, by simpa using View.After.step hm hs⟩

/-- A fixed point does what its unfolding does. -/
theorem hasTrace_fix {binder : Atom} {body : Trace} : v.HasTrace (.fix binder body) s ↔
    v.HasTrace (substitute binder.id (.fix binder body) body) s := by
  constructor
  · rintro ⟨u, h⟩
    cases h with
    | here => exact ⟨_, .here _⟩
    | step hm h =>
        simp only [moves, List.mem_singleton, Prod.mk.injEq] at hm
        obtain ⟨rfl, rfl⟩ := hm
        exact ⟨u, by simpa using h⟩
  · rintro ⟨u, h⟩
    have hm : (.tau, substitute binder.id (.fix binder body) body) ∈
        (Trace.fix binder body).moves v.key := by simp [moves]
    exact ⟨u, by simpa using View.After.step hm h⟩

end View

open Trace in
/-- The steps of a trace compute the algebra of traces: sequential composition concatenates,
parallel composition interleaves with a common termination, a choice is a union, an empty
composition is its unit, and a fixed point is its own unfolding. -/
theorem Program.weak_trace_algebra (program : Program) (s : List Label) :
    (∀ ts, program.view.HasTrace (.comp .seq ts) s ↔
      InTurn (ts.map program.view.HasTrace) s) ∧
    (∀ ts, program.view.HasTrace (.comp .par ts) s ↔
      SideBySide (ts.map program.view.HasTrace) s) ∧
    (∀ t ts, program.view.HasTrace (.comp .det (t :: ts)) s ↔
      ∃ c ∈ t :: ts, program.view.HasTrace c s) ∧
    (∀ t ts, program.view.HasTrace (.comp .ndet (t :: ts)) s ↔
      ∃ c ∈ t :: ts, program.view.HasTrace c s) ∧
    (program.view.HasTrace (.comp .seq []) s ↔ program.view.HasTrace .skip s) ∧
    (program.view.HasTrace (.comp .par []) s ↔ program.view.HasTrace .skip s) ∧
    (program.view.HasTrace (.comp .det []) s ↔ program.view.HasTrace .stop s) ∧
    (program.view.HasTrace (.comp .ndet []) s ↔ program.view.HasTrace .stop s) ∧
    ∀ binder body, program.view.HasTrace (.fix binder body) s ↔
      program.view.HasTrace (substitute binder.id (.fix binder body) body) s :=
  ⟨fun _ => View.hasTrace_seq, fun _ => View.hasTrace_par,
    fun t ts => View.hasTrace_det (List.cons_ne_nil t ts),
    fun t ts => View.hasTrace_ndet (List.cons_ne_nil t ts),
    View.hasTrace_comp_nil .seq, View.hasTrace_comp_nil .par, View.hasTrace_comp_nil .det,
    View.hasTrace_comp_nil .ndet, fun _ _ => View.hasTrace_fix⟩

end ProcessContracts
