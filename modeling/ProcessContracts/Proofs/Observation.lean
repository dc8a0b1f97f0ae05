import ProcessContracts.Proofs.Spinning

/-!
# Observations as sightings

Everything that is observed of a closed trace is a sighting: a weak trace one of going on or of
termination, chaos, unconstrained behaviour and divergence one of an active component. After
termination nothing is left to observe.
-/

namespace ProcessContracts

open Trace

namespace Mark

def chaos : Mark := only .chaos trivial

/-- The components that `Trace.unconstrained` looks for. -/
def vague : Mark where
  holds
    | .chaos | .atom _ | .ref _ | .unresolved _ => True
    | _ => False
  lasting {t} h := by cases t <;> simp_all

theorem isFlat_chaos : chaos.IsFlat := by
  rintro binder body h
  cases h

theorem isBasic_chaos : chaos.IsBasic where
  flat := isFlat_chaos
  atom a h := by cases h

theorem isFlat_vague : vague.IsFlat := fun _ _ h => h

theorem acceptsAnything_iff {t : Trace} :
    t.acceptsAnything = true ↔ ∃ l ∈ t.active, chaos.holds l := by
  rw [acceptsAnything, List.any_eq_true]
  refine exists_congr fun l => and_congr_right fun _ => ?_
  cases l <;> simp [chaos, only]

theorem unconstrained_iff {t : Trace} :
    t.unconstrained = true ↔ ∃ l ∈ t.active, vague.holds l := by
  rw [unconstrained, List.any_eq_true]
  refine exists_congr fun l => and_congr_right fun _ => ?_
  cases l <;> simp [vague]

end Mark

namespace View

variable {v : View} {k : Sight} {t u : Trace} {n : Nat} {s p : List Label}

theorem eq_stop_of_tick {key : ChanRef → ChannelKey} (h : (.visible .tick, u) ∈ t.moves key) :
    u = .stop := by
  induction t generalizing u with
  | skip => simpa [moves] using h
  | event => simp [moves] at h
  | comp op ts ih =>
      by_cases hts : ts = []
      · simp [hts, moves_comp_nil] at h
      cases op with
      | seq =>
          obtain ⟨c, cs, rfl⟩ := List.exists_cons_of_ne_nil hts
          obtain ⟨m', t', -, ⟨-, h, -⟩ | ⟨hne, rfl, -⟩⟩ := mem_moves_seq_cons.1 h
          · cases h
          · exact absurd rfl hne
      | par =>
          obtain ⟨as, c, bs, m', t', -, -, ⟨-, h, -⟩ | ⟨hne, rfl, -⟩⟩ := (mem_moves_par hts).1 h
          · cases h
          · exact absurd rfl hne
      | det =>
          obtain ⟨as, c, bs, m', t', rfl, hm, ⟨-, h, -⟩ | ⟨-, rfl, rfl⟩⟩ := (mem_moves_det hts).1 h
          · cases h
          · exact ih c (by simp) hm
      | ndet => simp [moves_ndet hts] at h
  | _ => simp [moves] at h

theorem tick_notMem_noted {m : Move} (h : m ≠ .visible .tick) :
    Label.tick ∉ (v.noted m).toList := by
  cases m with
  | tau => simp
  | visible l =>
      cases l with
      | tick => exact absurd rfl h
      | event direction chan =>
          rw [noted_event]
          split <;> simp

theorem Sees.tick_notMem (h : v.Sees k t n s) : Label.tick ∉ s := by
  induction h with
  | step _ hne _ ih => simp [tick_notMem_noted hne, ih]
  | _ => simp

theorem After.eq_of_stop (h : v.After .stop s u) : s = [] ∧ u = .stop := by
  cases h with
  | here => exact ⟨rfl, rfl⟩
  | step hm _ => simp [moves] at hm

/-- A path notes termination at its end or not at all. -/
theorem After.tick (h : v.After t s u) :
    Label.tick ∉ s ∨ u = .stop ∧ ∃ p, s = p ++ [.tick] ∧ ∃ n, v.Sees .done t n p := by
  induction h with
  | here => exact .inl (by simp)
  | @step t u w m s hm h ih =>
      by_cases hne : m = .visible .tick
      · subst hne
        rw [eq_stop_of_tick hm] at h
        obtain ⟨rfl, rfl⟩ := h.eq_of_stop
        exact .inr ⟨rfl, [], rfl, 1, .done hm⟩
      · have hnote := tick_notMem_noted (v := v) hne
        rcases ih with ih | ⟨rfl, p, rfl, n, hsees⟩
        · exact .inl (by simp [hnote, ih])
        · exact .inr ⟨rfl, (v.noted m).toList ++ p, by simp, n + 1, .step hm hne hsees⟩

theorem Sees.after_tickFree (h : v.After t s u) (hs : Label.tick ∉ s) (hsees : v.Sees k u n p) :
    ∃ m, v.Sees k t m (s ++ p) := by
  induction h with
  | here => exact ⟨n, hsees⟩
  | @step t u w m s hm _ ih =>
      have hne : m ≠ .visible .tick := by
        rintro rfl
        simp at hs
      obtain ⟨i, h⟩ := ih (fun hmem => hs (by simp [hmem])) hsees
      rw [List.append_assoc]
      exact ⟨i + 1, .step hm hne h⟩

theorem Sees.exists_after_going (h : v.Sees .going t n s) : ∃ u, v.After t s u := by
  generalize hk : Sight.going = k at h
  induction h with
  | going t => exact ⟨t, .here t⟩
  | done => cases hk
  | active => cases hk
  | step hm _ _ ih =>
      obtain ⟨u, h⟩ := ih hk
      exact ⟨u, .step hm h⟩

theorem Sees.exists_after_done (h : v.Sees .done t n s) : ∃ u, v.After t (s ++ [.tick]) u := by
  generalize hk : Sight.done = k at h
  induction h with
  | going => cases hk
  | @done t u hm => exact ⟨u, .step hm (.here u)⟩
  | active => cases hk
  | step hm _ _ ih =>
      obtain ⟨u, h⟩ := ih hk
      exact ⟨u, by rw [List.append_assoc]; exact .step hm h⟩

theorem Sees.exists_after_active {mark : Mark} (h : v.Sees (.active mark) t n s) :
    ∃ u, v.After t s u ∧ ∃ l ∈ u.active, mark.holds l := by
  generalize hk : Sight.active mark = k at h
  induction h with
  | going => cases hk
  | done => cases hk
  | @active mark' t l hl hp =>
      cases hk
      exact ⟨t, .here t, l, hl, hp⟩
  | step hm _ _ ih =>
      obtain ⟨u, h, hl⟩ := ih hk
      exact ⟨u, .step hm h, hl⟩

theorem After.freeRefs (h : v.After t s u) (ht : t.freeRefs = []) : u.freeRefs = [] := by
  induction h with
  | here => exact ht
  | step hm _ ih => exact ih (freeRefs_of_mem_moves ht hm)

/-- A component that lasts is seen before termination only. -/
theorem exists_sees_active_iff (mark : Mark) : (∃ n, v.Sees (.active mark) t n s) ↔
    ∃ u, v.After t s u ∧ ∃ n, v.Sees (.active mark) u n [] := by
  constructor
  · rintro ⟨n, h⟩
    obtain ⟨u, hu, l, hl, hp⟩ := h.exists_after_active
    exact ⟨u, hu, 0, .active hl hp⟩
  · rintro ⟨u, hu, n, h⟩
    rcases hu.tick with hs | ⟨rfl, -⟩
    · obtain ⟨m, h⟩ := h.after_tickFree hu hs
      exact ⟨m, by simpa using h⟩
    · obtain ⟨hk, -⟩ := sees_stop.1 h
      cases hk

theorem hasTrace_iff : v.HasTrace t s ↔
    (∃ n, v.Sees .going t n s) ∨ ∃ p, s = p ++ [.tick] ∧ ∃ n, v.Sees .done t n p := by
  constructor
  · rintro ⟨u, hu⟩
    rcases hu.tick with hs | ⟨-, h⟩
    · obtain ⟨n, h⟩ := Sees.after_tickFree hu hs (.going u)
      exact .inl ⟨n, by simpa using h⟩
    · exact .inr h
  · rintro (⟨n, h⟩ | ⟨p, rfl, n, h⟩)
    · exact h.exists_after_going
    · exact h.exists_after_done

theorem active_iff (mark : Mark) : (∃ n, v.Sees (.active mark) t n s) ↔
    ∃ u, v.After t s u ∧ ∃ l ∈ u.active, mark.holds l := by
  rw [exists_sees_active_iff]
  constructor
  · rintro ⟨u, hu, n, h⟩
    obtain ⟨w, hw, h⟩ := h.exists_after_active
    exact ⟨w, by simpa using hu.trans hw, h⟩
  · rintro ⟨u, hu, l, hl, hp⟩
    exact ⟨u, hu, 0, .active hl hp⟩

theorem chaotic_iff : v.Chaotic t s ↔ ∃ n, v.Sees (.active .chaos) t n s := by
  simp only [active_iff, Chaotic, Mark.acceptsAnything_iff]

theorem unconstrained_iff : v.Unconstrained t s ↔ ∃ n, v.Sees (.active .vague) t n s := by
  simp only [active_iff, Unconstrained, Mark.unconstrained_iff]

theorem diverges_iff_sees (ht : t.freeRefs = []) :
    v.Diverges t s ↔ ∃ n, v.Sees (.active v.endless) t n s := by
  rw [diverges_iff, exists_sees_active_iff]
  exact exists_congr fun u => and_congr_right fun hu => not_calmsDown_iff_sees (hu.freeRefs ht)

end View

end ProcessContracts
