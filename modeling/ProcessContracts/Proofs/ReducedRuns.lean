import ProcessContracts.Proofs.Simplification

/-!
# Runs through simplified states

A search simplifies every state it reaches. `Leads` is a path through such states: it notes what
some path of the trace itself notes, and the states it ends in have the behaviour the trace has
after that.
-/

namespace ProcessContracts

open Trace

/-- `Leads key t s u`: the visible steps `s` lead from `t` to `u`, each state simplified. -/
inductive Leads (key : ChanRef → ChannelKey) : Trace → List Label → Trace → Prop
  | here (t : Trace) : Leads key t [] t
  | silent {t u w : Trace} {s : List Label} :
      (.tau, u) ∈ t.moves key → Leads key u.simplify s w → Leads key t s w
  | visible {t u w : Trace} {l : Label} {s : List Label} :
      (.visible l, u) ∈ t.moves key → Leads key u.simplify s w → Leads key t (l :: s) w

namespace Leads

variable {key : ChanRef → ChannelKey} {t u w : Trace} {l : Label} {s s' : List Label}

theorem trans (h : Leads key t s u) (h' : Leads key u s' w) : Leads key t (s ++ s') w := by
  induction h with
  | here => exact h'
  | silent hm _ ih => exact .silent hm (ih h')
  | visible hm _ ih => exact .visible hm (ih h')

theorem append_iff : Leads key t (s ++ s') w ↔ ∃ u, Leads key t s u ∧ Leads key u s' w := by
  refine ⟨fun h => ?_, fun ⟨u, h, h'⟩ => h.trans h'⟩
  generalize hs : s ++ s' = r at h
  induction h generalizing s with
  | here t =>
      obtain ⟨rfl, rfl⟩ := List.append_eq_nil_iff.1 hs
      exact ⟨t, .here t, .here t⟩
  | silent hm _ ih =>
      obtain ⟨u, h, h'⟩ := ih hs
      exact ⟨u, .silent hm h, h'⟩
  | @visible t _ _ l _ hm h ih =>
      cases s with
      | nil =>
          refine ⟨t, .here t, ?_⟩
          rw [List.nil_append] at hs
          exact hs ▸ .visible hm h
      | cons _ s =>
          obtain ⟨rfl, htail⟩ := List.cons.inj hs
          obtain ⟨u, h, h'⟩ := ih htail
          exact ⟨u, .visible hm h, h'⟩

theorem singleton_iff : Leads key t [l] w ↔
    ∃ u u', Leads key t [] u ∧ (.visible l, u') ∈ u.moves key ∧ Leads key u'.simplify [] w := by
  constructor
  · intro h
    generalize hs : [l] = s at h
    induction h with
    | here => cases hs
    | silent hm _ ih =>
        obtain ⟨u, u', hu, hm', h⟩ := ih hs
        exact ⟨u, u', .silent hm hu, hm', h⟩
    | visible hm h _ =>
        obtain ⟨rfl, rfl⟩ := List.cons.inj hs
        exact ⟨_, _, .here _, hm, h⟩
  · rintro ⟨u, u', hu, hm, h⟩
    exact hu.trans (.visible hm h)

/-- The last visible step of a path, and what follows it silently. -/
theorem concat_iff : Leads key t (s ++ [l]) w ↔
    ∃ u u', Leads key t s u ∧ (.visible l, u') ∈ u.moves key ∧ Leads key u'.simplify [] w := by
  rw [append_iff]
  constructor
  · rintro ⟨u, hu, h⟩
    obtain ⟨u₁, u₂, h₁, hm, h₂⟩ := singleton_iff.1 h
    exact ⟨u₁, u₂, by simpa using hu.trans h₁, hm, h₂⟩
  · rintro ⟨u, u', hu, hm, h⟩
    exact ⟨u, hu, .visible hm h⟩

theorem freeRefs (h : Leads key t s u) (ht : t.freeRefs = []) : u.freeRefs = [] := by
  induction h with
  | here => exact ht
  | silent hm _ ih => exact ih (View.freeRefs_simplify (freeRefs_of_mem_moves ht hm))
  | visible hm _ ih => exact ih (View.freeRefs_simplify (freeRefs_of_mem_moves ht hm))

end Leads

namespace View

variable {v : View} {k : Sight} {t u : Trace} {n : Nat} {s : List Label}

theorem noted_bare_visible (v : View) (l : Label) : v.bare.noted (.visible l) = some l := by
  cases l <;> rfl

/-- Whatever simplification keeps is found again after a path through simplified states. -/
theorem exists_after_of_leads {p : Trace → Prop}
    (hp : ∀ {u s}, u.freeRefs = [] → (∃ w, v.bare.After u.simplify s w ∧ p w) →
      ∃ w, v.bare.After u s w ∧ p w)
    (h : Leads v.key t s u) (ht : t.freeRefs = []) (hu : p u) : ∃ w, v.bare.After t s w ∧ p w := by
  induction h with
  | here t => exact ⟨t, .here t, hu⟩
  | silent hm _ ih =>
      have hclosed := freeRefs_of_mem_moves ht hm
      obtain ⟨w, hw, hpw⟩ := hp hclosed (ih (freeRefs_simplify hclosed) hu)
      exact ⟨w, After.step (v := v.bare) hm hw, hpw⟩
  | @visible t u w l s hm _ ih =>
      have hclosed := freeRefs_of_mem_moves ht hm
      obtain ⟨w, hw, hpw⟩ := hp hclosed (ih (freeRefs_simplify hclosed) hu)
      have := After.step (v := v.bare) hm hw
      rw [noted_bare_visible] at this
      exact ⟨w, this, hpw⟩

/-- `Shown k s r u`: the path `r` to the state `u` makes the sighting `k` after `s`. -/
def Shown : Sight → List Label → List Label → Trace → Prop
  | .going, s, r, _ => r = s
  | .done, s, r, _ => r = s ++ [.tick]
  | .active mark, s, r, u => r = s ∧ ∃ l ∈ u.active, mark.holds l

theorem leads_of_sees (hk : v.Keeps k) (ht : t.freeRefs = []) (h : v.bare.Sees k t n s) :
    ∃ r u, Leads v.key t.simplify r u ∧ Shown k s r u := by
  induction n using Nat.strongRecOn generalizing t s with
  | ind n ih =>
      obtain ⟨m, hm, hsees⟩ := (alike_simplify_of_closed ht).forth hk h
      have hsimple := freeRefs_simplify ht
      clear h ht
      generalize t.simplify = t' at hsees hsimple
      cases hsees with
      | going => exact ⟨[], t', .here t', rfl⟩
      | done hmove => exact ⟨[.tick], _, .visible hmove (.here _), rfl⟩
      | active hl hp => exact ⟨[], t', .here t', rfl, _, hl, hp⟩
      | @step _ _ u m' i s hmove hne hnext =>
          obtain ⟨r, w, hleads, hshown⟩ := ih i (by omega)
            (freeRefs_of_mem_moves hsimple hmove) hnext
          refine ⟨(v.bare.noted m').toList ++ r, w, ?_, ?_⟩
          · cases m' with
            | tau => exact .silent hmove hleads
            | visible l =>
                rw [noted_bare_visible]
                exact .visible hmove hleads
          · cases k with
            | going => exact congrArg _ hshown
            | done =>
                rw [Shown, List.append_assoc]
                exact congrArg _ hshown
            | active mark => exact ⟨congrArg _ hshown.1, hshown.2⟩

theorem leads_active_iff {mark : Mark} (hk : v.Keeps (.active mark)) (ht : t.freeRefs = []) :
    (∃ u, Leads v.key t.simplify s u ∧ ∃ l ∈ u.active, mark.holds l) ↔
      ∃ n, v.bare.Sees (.active mark) t n s := by
  constructor
  · rintro ⟨u, h, hl⟩
    have key : ∀ {u s}, u.freeRefs = [] →
        (∃ w, v.bare.After u.simplify s w ∧ ∃ l ∈ w.active, mark.holds l) →
        ∃ w, v.bare.After u s w ∧ ∃ l ∈ w.active, mark.holds l := by
      intro u s hu h
      rw [← active_iff] at h ⊢
      exact ((alike_simplify_of_closed hu).sees_iff hk).2 h
    rw [active_iff]
    exact key ht (exists_after_of_leads key h (freeRefs_simplify ht) hl)
  · rintro ⟨n, h⟩
    obtain ⟨r, u, hleads, rfl, hl⟩ := leads_of_sees hk ht h
    exact ⟨u, hleads, hl⟩

theorem leads_hasTrace_iff (ht : t.freeRefs = []) :
    (∃ u, Leads v.key t.simplify s u) ↔ v.bare.HasTrace t s := by
  constructor
  · rintro ⟨u, h⟩
    have key : ∀ {u s}, u.freeRefs = [] → (∃ w, v.bare.After u.simplify s w ∧ True) →
        ∃ w, v.bare.After u s w ∧ True := by
      intro u s hu h
      simp only [and_true] at h ⊢
      exact (((alike_simplify_of_closed hu).agree hu (freeRefs_simplify hu)).traces s).2 h
    obtain ⟨w, hw, -⟩ := key ht (exists_after_of_leads key h (freeRefs_simplify ht) trivial)
    exact ⟨w, hw⟩
  · intro h
    rcases hasTrace_iff.1 h with ⟨n, h⟩ | ⟨p, rfl, n, h⟩
    · obtain ⟨r, u, hleads, rfl⟩ := leads_of_sees (k := .going) trivial ht h
      exact ⟨u, hleads⟩
    · obtain ⟨r, u, hleads, rfl⟩ := leads_of_sees (k := .done) trivial ht h
      exact ⟨u, hleads⟩

theorem leads_chaotic_iff (ht : t.freeRefs = []) :
    (∃ u, Leads v.key t.simplify s u ∧ u.acceptsAnything = true) ↔ v.bare.Chaotic t s := by
  simp only [chaotic_iff, Mark.acceptsAnything_iff]
  exact leads_active_iff (.inl Mark.isFlat_chaos) ht

theorem leads_unconstrained_iff (ht : t.freeRefs = []) :
    (∃ u, Leads v.key t.simplify s u ∧ u.unconstrained = true) ↔ v.bare.Unconstrained t s := by
  simp only [unconstrained_iff, Mark.unconstrained_iff]
  exact leads_active_iff (.inl Mark.isFlat_vague) ht

theorem not_calmsDown_simplify_iff (ht : t.freeRefs = []) :
    ¬ v.bare.CalmsDown t.simplify ↔ ¬ v.bare.CalmsDown t := by
  rw [not_calmsDown_iff_sees ht, not_calmsDown_iff_sees (freeRefs_simplify ht)]
  exact ((alike_simplify_of_closed ht).sees_iff (k := .active v.bare.endless) (.inr rfl)).symm

theorem leads_diverges_iff (ht : t.freeRefs = []) :
    (∃ u, Leads v.key t.simplify s u ∧ ¬ v.bare.CalmsDown u) ↔ v.bare.Diverges t s := by
  constructor
  · rintro ⟨u, h, hu⟩
    have key : ∀ {u s}, u.freeRefs = [] →
        (∃ w, v.bare.After u.simplify s w ∧ ¬ v.bare.CalmsDown w) →
        ∃ w, v.bare.After u s w ∧ ¬ v.bare.CalmsDown w := by
      intro u s hu h
      rw [← diverges_iff] at h ⊢
      exact (((alike_simplify_of_closed hu).agree hu (freeRefs_simplify hu)).diverges s).2 h
    exact diverges_iff.2 (key ht (exists_after_of_leads key h (freeRefs_simplify ht) hu))
  · intro h
    obtain ⟨n, h⟩ := (diverges_iff_sees ht).1 h
    obtain ⟨r, u, hleads, rfl, l, hl, hp⟩ :=
      leads_of_sees (k := .active v.bare.endless) (.inr rfl) ht h
    exact ⟨u, hleads, not_calmsDown_of_sees (hleads.freeRefs (freeRefs_simplify ht))
      (.active hl hp)⟩

/-! ## Endless silent runs through simplified states -/

theorem exists_bound {α : Type} {l : List α} {p : α → Nat → Prop}
    (h : ∀ x ∈ l, ∃ bound, ∀ n, p x n → n ≤ bound) : ∃ bound, ∀ x ∈ l, ∀ n, p x n → n ≤ bound := by
  induction l with
  | nil => exact ⟨0, by simp⟩
  | cons x l ih =>
      obtain ⟨b, hb⟩ := h x List.mem_cons_self
      obtain ⟨c, hc⟩ := ih fun x hx => h x (List.mem_cons_of_mem _ hx)
      refine ⟨max b c, fun y hy n hn => ?_⟩
      rcases List.mem_cons.1 hy with rfl | hy
      · exact Nat.le_trans (hb n hn) (Nat.le_max_left b c)
      · exact Nat.le_trans (hc y hy n hn) (Nat.le_max_right b c)

/-- The silent runs of a trace that calms down have bounded length. -/
theorem CalmsDown.bounded (h : v.CalmsDown t) :
    ∃ bound, ∀ n, v.Sees .going t n [] → n ≤ bound := by
  induction h with
  | @intro t _ _ ih =>
      obtain ⟨bound, hbound⟩ := exists_bound (l := t.moves v.key)
        (p := fun step n => v.noted step.1 = none ∧ v.Sees .going step.2 n []) fun step hstep => by
          by_cases hq : v.noted step.1 = none
          · obtain ⟨b, hb⟩ := ih step.2 ⟨step.1, hstep, hq⟩
            exact ⟨b, fun n hn => hb n hn.2⟩
          · exact ⟨0, fun n hn => absurd hn.1 hq⟩
      refine ⟨bound + 1, fun n hn => ?_⟩
      generalize hs : ([] : List Label) = s at hn
      cases hn with
      | going => omega
      | step hm _ h =>
          rw [eq_comm, List.append_eq_nil_iff, Option.toList_eq_nil_iff] at hs
          exact Nat.succ_le_succ (hbound _ hm _ ⟨hs.1, hs.2 ▸ h⟩)

/-- One silent step of simplified states. -/
def Slides (key : ChanRef → ChannelKey) (t u : Trace) : Prop :=
  ∃ w, (.tau, w) ∈ t.moves key ∧ u = w.simplify

/-- A simplified state has no longer silent runs than the state itself, so sliding on forever
exceeds every bound. -/
theorem not_calmsDown_of_slidesForever {p : Trace → Prop}
    (hp : ∀ t, p t → t.diverges = true ∨ ∃ u, Slides v.key t u ∧ p u) (ht : t.freeRefs = [])
    (h : p t) : ¬ v.bare.CalmsDown t := by
  intro hcalm
  obtain ⟨bound, hbound⟩ := hcalm.bounded
  induction bound generalizing t with
  | zero =>
      rcases hp t h with hd | ⟨_, ⟨w, hw, -⟩, -⟩
      · exact absurd hcalm.diverges (by simp [hd])
      · have := hbound 1 (Sees.silent (v := v.bare) hw (.going w))
        omega
  | succ bound ih =>
      rcases hp t h with hd | ⟨_, ⟨w, hw, rfl⟩, hnext⟩
      · exact absurd hcalm.diverges (by simp [hd])
      have hwclosed := freeRefs_of_mem_moves ht hw
      have hwcalm : v.bare.CalmsDown w := hcalm.next ⟨.tau, hw, rfl⟩
      refine ih (freeRefs_simplify hwclosed) hnext
        (not_not.1 (mt (not_calmsDown_simplify_iff hwclosed).1 (not_not.2 hwcalm)))
        fun n hn => ?_
      obtain ⟨m, hm, hsees⟩ := (alike_simplify_of_closed hwclosed).back (k := .going) trivial hn
      have := hbound (m + 1) (Sees.silent (v := v.bare) hw hsees)
      omega

theorem exists_slides (ht : t.freeRefs = []) (h : ¬ v.bare.CalmsDown t)
    (hd : t.diverges = false) : ∃ u, Slides v.key t u ∧ ¬ v.bare.CalmsDown u := by
  rcases not_calmsDown_iff.1 h with hd' | ⟨u, ⟨m, hm, hq⟩, hu⟩
  · rw [hd] at hd'
    cases hd'
  · obtain rfl := (noted_bare v m).1 hq
    exact ⟨u.simplify, ⟨u, hm, rfl⟩,
      (not_calmsDown_simplify_iff (freeRefs_of_mem_moves ht hm)).2 hu⟩

end View

end ProcessContracts
