import ProcessContracts.Proofs.Behaviour

/-!
# Sightings

A sighting is one thing an observer can report of a trace after some steps: that it still runs,
that it has just terminated, or that a component of a wanted kind is active. `Sees` counts the
steps taken before the sighting, so that two traces can be compared by what they do and by how long
they take. Termination ends a sighting and is no part of its labels.
-/

namespace ProcessContracts

/-- Components that composition neither adds nor drops. -/
@[simp] def Trace.IsLasting : Trace → Prop
  | .skip | .stop | .event _ _ | .comp _ _ => False
  | _ => True

/-- A kind of active component to look out for. -/
structure Mark where
  holds : Trace → Prop
  lasting : ∀ {t}, holds t → t.IsLasting

theorem Mark.not_holds (mark : Mark) {t : Trace} (h : ¬ t.IsLasting) : ¬ mark.holds t :=
  fun holds => h (mark.lasting holds)

namespace Mark

/-- Nothing but `t` itself. -/
def only (t : Trace) (h : t.IsLasting) : Mark where
  holds := (· = t)
  lasting := fun e => e ▸ h

def atom (a : Atom) : Mark := only (.atom a) trivial

/-- The mark that no component has. -/
def never : Mark where
  holds _ := False
  lasting := False.elim

end Mark

inductive Sight where
  | going
  | done
  | active (mark : Mark)

namespace View

/-- `Sees v k t n s`: after `n` steps of `t` on which `s` is noted there is the sight `k`. -/
inductive Sees (v : View) : Sight → Trace → Nat → List Label → Prop
  | going (t : Trace) : Sees v .going t 0 []
  | done {t u : Trace} : (.visible .tick, u) ∈ t.moves v.key → Sees v .done t 1 []
  | active {mark : Mark} {t l : Trace} : l ∈ t.active → mark.holds l → Sees v (.active mark) t 0 []
  | step {k : Sight} {t u : Trace} {m : Move} {n : Nat} {s : List Label} :
      (m, u) ∈ t.moves v.key → m ≠ .visible .tick → Sees v k u n s →
      Sees v k t (n + 1) ((v.noted m).toList ++ s)

variable {v : View} {k : Sight} {t u : Trace} {n : Nat} {s : List Label}

@[simp] theorem noted_tau (v : View) : v.noted .tau = none := rfl

@[simp] theorem noted_tick (v : View) : v.noted (.visible .tick) = some .tick := rfl

theorem noted_event (v : View) (direction : Direction) (chan : ChannelKey) :
    v.noted (.visible (.event direction chan)) =
      if v.hides chan then none else some (.event direction chan) := rfl

theorem Sees.silent (hm : (.tau, u) ∈ t.moves v.key) (h : v.Sees k u n s) :
    v.Sees k t (n + 1) s := .step hm (by simp) h

theorem noted_bare (v : View) (m : Move) : v.bare.noted m = none ↔ m = .tau := by
  cases m with
  | tau => simp
  | visible l => cases l <;> simp [bare, noted]

/-- Sightings of a trace whose only step is silent. -/
theorem sees_of_moves_eq (hmoves : t.moves v.key = [(.tau, u)])
    (hactive : ∀ mark : Mark, ∀ l ∈ t.active, ¬ mark.holds l) :
    v.Sees k t n s ↔ (k = .going ∧ n = 0 ∧ s = []) ∨ ∃ n', n = n' + 1 ∧ v.Sees k u n' s := by
  constructor
  · intro h
    cases h with
    | going => exact .inl ⟨rfl, rfl, rfl⟩
    | done hm => simp [hmoves] at hm
    | active hl hp => exact absurd hp (hactive _ _ hl)
    | step hm _ h =>
        simp only [hmoves, List.mem_singleton, Prod.mk.injEq] at hm
        obtain ⟨rfl, rfl⟩ := hm
        exact .inr ⟨_, rfl, by simpa using h⟩
  · rintro (⟨rfl, rfl, rfl⟩ | ⟨n', rfl, h⟩)
    · exact .going t
    · exact .silent (by simp [hmoves]) h

/-- Sightings of a trace without steps. -/
theorem sees_of_moves_nil (hmoves : t.moves v.key = []) :
    v.Sees k t n s ↔ n = 0 ∧ s = [] ∧
      (k = .going ∨ ∃ mark l, k = .active mark ∧ l ∈ t.active ∧ mark.holds l) := by
  constructor
  · intro h
    cases h with
    | going => simp
    | done hm => simp [hmoves] at hm
    | active hl hp => exact ⟨rfl, rfl, .inr ⟨_, _, rfl, hl, hp⟩⟩
    | step hm _ _ => simp [hmoves] at hm
  · rintro ⟨rfl, rfl, rfl | ⟨mark, l, rfl, hl, hp⟩⟩
    · exact .going t
    · exact .active hl hp

theorem sees_skip : v.Sees k .skip n s ↔ (k = .going ∧ n = 0 ∨ k = .done ∧ n = 1) ∧ s = [] := by
  constructor
  · intro h
    cases h with
    | going => simp
    | done hm => simp
    | active hl hp =>
        simp only [Trace.active, List.mem_singleton] at hl
        exact absurd (hl ▸ hp) (Mark.not_holds _ (by simp))
    | step hm hne _ => simp_all [Trace.moves]
  · rintro ⟨⟨rfl, rfl⟩ | ⟨rfl, rfl⟩, rfl⟩
    · exact .going _
    · exact .done (u := .stop) (by simp [Trace.moves])

theorem sees_stop : v.Sees k .stop n s ↔ k = .going ∧ n = 0 ∧ s = [] := by
  rw [sees_of_moves_nil (by simp [Trace.moves])]
  constructor
  · rintro ⟨rfl, rfl, rfl | ⟨mark, l, rfl, hl, hp⟩⟩
    · exact ⟨rfl, rfl, rfl⟩
    · simp only [Trace.active, List.mem_singleton] at hl
      exact absurd (hl ▸ hp) (mark.not_holds (by simp))
  · rintro ⟨rfl, rfl, rfl⟩
    exact ⟨rfl, rfl, .inl rfl⟩

theorem sees_event {direction : Direction} {chan : ChanRef} :
    v.Sees k (.event direction chan) n s ↔ (k = .going ∧ n = 0 ∧ s = []) ∨
      ∃ n', n = n' + 1 ∧ v.Sees k .skip n' [] ∧
        s = (v.noted (.visible (.event direction (v.key chan)))).toList := by
  constructor
  · intro h
    cases h with
    | going => exact .inl ⟨rfl, rfl, rfl⟩
    | done hm => simp [Trace.moves] at hm
    | active hl hp =>
        simp only [Trace.active, List.mem_singleton] at hl
        exact absurd (hl ▸ hp) (Mark.not_holds _ (by simp))
    | step hm _ h =>
        simp only [Trace.moves, List.mem_singleton, Prod.mk.injEq] at hm
        obtain ⟨rfl, rfl⟩ := hm
        obtain ⟨-, rfl⟩ := sees_skip.1 h
        exact .inr ⟨_, rfl, h, by simp⟩
  · rintro (⟨rfl, rfl, rfl⟩ | ⟨n', rfl, h, rfl⟩)
    · exact .going _
    · have := Sees.step (t := .event direction chan) (m := .visible (.event direction (v.key chan)))
        (by simp [Trace.moves]) (by simp) h
      simpa using this

theorem Sees.of_mark {p q : Mark} (h : v.Sees (.active p) t n s)
    (hpq : ∀ l, p.holds l → q.holds l) : v.Sees (.active q) t n s := by
  generalize hk : Sight.active p = k at h
  induction h with
  | going => cases hk
  | done => cases hk
  | active hl hp =>
      cases hk
      exact .active hl (hpq _ hp)
  | step hm hne _ ih => exact .step hm hne (ih hk)

theorem not_sees_never : ¬ v.Sees (.active .never) t n s := by
  intro h
  generalize hk : Sight.active .never = k at h
  induction h with
  | going => cases hk
  | done => cases hk
  | active _ hp =>
      cases hk
      exact hp
  | step _ _ _ ih => exact ih hk

/-- A trace that shows something after `s` was going on after every part that `s` starts with. -/
theorem Sees.going_of_start (h : v.Sees k t n s) {p : List Label} (hp : p <+: s) :
    ∃ m ≤ n, v.Sees .going t m p := by
  induction h generalizing p with
  | going t => exact ⟨0, Nat.le_refl 0, by rw [List.prefix_nil.1 hp]; exact .going t⟩
  | done _ => exact ⟨0, Nat.zero_le _, by rw [List.prefix_nil.1 hp]; exact .going _⟩
  | active _ _ => exact ⟨0, Nat.zero_le _, by rw [List.prefix_nil.1 hp]; exact .going _⟩
  | @step k t u m n s hm hne _ ih =>
      cases hnote : v.noted m with
      | none =>
          simp only [hnote, Option.toList_none, List.nil_append] at hp
          obtain ⟨i, hi, h⟩ := ih hp
          have := Sees.step hm hne h
          simp only [hnote, Option.toList_none, List.nil_append] at this
          exact ⟨i + 1, by omega, this⟩
      | some l =>
          simp only [hnote, Option.toList_some, List.singleton_append] at hp
          rcases List.prefix_cons_iff.1 hp with rfl | ⟨q, rfl, hq⟩
          · exact ⟨0, Nat.zero_le _, .going t⟩
          · obtain ⟨i, hi, h⟩ := ih hq
            have := Sees.step hm hne h
            simp only [hnote, Option.toList_some, List.singleton_append] at this
            exact ⟨i + 1, by omega, this⟩

end View

end ProcessContracts
