import ProcessContracts.Proofs.Observation
import ProcessContracts.Proofs.Recurrence
import ProcessContracts.Trace.Channels

/-!
# Hidden channels

Hiding puts `skip` in the place of a communication. What an observer who does not see the channel
notes of a trace is what anybody notes of the trace with the channel hidden: a loop of hidden
communication becomes a loop of silent steps, so it still runs forever.
-/

namespace ProcessContracts

open Filter Trace View

variable {n : Nat} {t : Trace} {keep keep' : ChanRef → Bool} {v : View} {s : List Label}

theorem Trace.freeRefs_hide (keep : ChanRef → Bool) (t : Trace) :
    (t.hide keep).freeRefs = t.freeRefs := by
  induction t with
  | event direction chan =>
      rw [hide]
      split
      · rfl
      · rfl
  | comp op ts ih =>
      simp only [hide, freeRefs, hideAll_eq_map, freeRefsAll_eq_flatMap, List.flatMap_map]
      rw [List.flatMap_def, List.flatMap_def, List.map_congr_left ih]
  | fix binder body ih => simp only [hide, freeRefs, ih]
  | _ => rfl

theorem Trace.hide_none (t : Trace) : t.hide (fun _ => true) = t := by
  induction t with
  | comp op ts ih =>
      rw [hide, hideAll_eq_map, List.map_congr_left ih, List.map_id']
  | fix binder body ih => rw [hide, ih]
  | _ => rfl

/-- The channels of the trace that are kept are those that the view does not hide. -/
def View.Keeping (v : View) (keep : ChanRef → Bool) (t : Trace) : Prop :=
  ∀ chan ∈ t.channels, keep chan = !v.hides (v.key chan)

/-- What is noted of a communication that is hidden unless its channel is kept. -/
def View.shown (v : View) (keep : ChanRef → Bool) (direction : Direction) (chan : ChanRef) :
    Option Label :=
  if keep chan then v.noted (.visible (.event direction (v.key chan))) else none

theorem View.sees_hide_event {k : Sight} {direction : Direction} {chan : ChanRef}
    (h : v.Sees k ((Trace.event direction chan).hide keep) n s) :
    (k = .going ∧ n = 0 ∧ s = []) ∨
      ∃ m ≤ n, v.Sees k .skip m [] ∧ s = (v.shown keep direction chan).toList := by
  rw [hide] at h
  rw [shown]
  cases hkeep : keep chan with
  | true =>
      rw [hkeep] at h
      rcases sees_event.1 h with h | ⟨m, rfl, hskip, rfl⟩
      · exact .inl h
      · exact .inr ⟨m, Nat.le_succ m, hskip, rfl⟩
  | false =>
      rw [hkeep] at h
      obtain rfl := (sees_skip.1 h).2
      exact .inr ⟨n, Nat.le_refl n, h, rfl⟩

theorem View.exists_sees_hide_event {k : Sight} (keep : ChanRef → Bool) (direction : Direction)
    (chan : ChanRef) (h : v.Sees k .skip n []) :
    ∃ m, v.Sees k ((Trace.event direction chan).hide keep) m
      (v.shown keep direction chan).toList := by
  rw [hide, shown]
  cases keep chan with
  | true => exact ⟨n + 1, sees_event.2 (.inr ⟨n, rfl, h, rfl⟩)⟩
  | false => exact ⟨n, h⟩

namespace Gauge

/-- On the left some channels are hidden from view, on the right none is. -/
def concealing (v : View) : Gauge where
  left := v
  right := v.bare
  pace _ _ := True
  marks p q := p.IsFlat ∧ q = p ∨ p = v.endless ∧ q = v.bare.endless
  escape := .never
  pace_refl _ := trivial
  pace_trans _ _ := trivial
  pace_add _ _ := trivial
  idle := .inl fun _ => trivial

/-- On the right some channels are hidden from view, on the left none is. -/
def revealing (v : View) : Gauge where
  left := v.bare
  right := v
  pace _ _ := True
  marks p q := p.IsFlat ∧ q = p ∨ p = v.bare.endless ∧ q = v.endless
  escape := .never
  pace_refl _ := trivial
  pace_trans _ _ := trivial
  pace_add _ _ := trivial
  idle := .inl fun _ => trivial

variable {g : Gauge} {side : Valuation → Valuation → Prop}

/-- What is hidden from the trace and what is hidden from view add up to the same on both sides. -/
def Matches (g : Gauge) (keep keep' : ChanRef → Bool) (t : Trace) : Prop :=
  ∀ chan ∈ t.channels, ∀ direction,
    g.left.shown keep direction chan = g.right.shown keep' direction chan

theorem below_hide_event {direction : Direction} {chan : ChanRef} (hpace : ∀ i j, g.pace i j)
    (h : g.left.shown keep direction chan = g.right.shown keep' direction chan) :
    g.Below n ((Trace.event direction chan).hide keep)
      ((Trace.event direction chan).hide keep') := by
  intro k k' i s hk hi hsees
  rcases sees_hide_event hsees with ⟨rfl, rfl, rfl⟩ | ⟨m, hm, hskip, rfl⟩
  · exact .inl (below_going _ hk)
  · rcases below_skip hk (Nat.le_trans hm hi) hskip with ⟨j, -, hskip⟩ | ⟨p, hp, j, hskip⟩
    · obtain ⟨j', hsees⟩ := exists_sees_hide_event keep' direction chan hskip
      exact .inl ⟨j', hpace _ _, h ▸ hsees⟩
    · rcases sees_skip.1 hskip with ⟨⟨hk, -⟩ | ⟨hk, -⟩, -⟩
      · cases hk
      · cases hk

/-- Hiding compares as soon as it does for every `fix` whose body compares. -/
theorem under_hide_of_fix (hpace : ∀ i j, g.pace i j)
    (hleaf : ∀ p q, g.marks p q → ∀ l : Trace, l.isLeaf = true → p.holds l → q.holds l)
    (hfix : ∀ binder body, g.Matches keep keep' body →
      g.Under side (body.hide keep) (body.hide keep') →
        g.Under side (.fix binder (body.hide keep)) (.fix binder (body.hide keep')))
    (h : g.Matches keep keep' t) : g.Under side (t.hide keep) (t.hide keep') := by
  induction t with
  | ref id => exact under_ref id
  | event direction chan =>
      intro n σ τ _ _ _ _
      rw [instantiate_of_closed σ (freeRefs_hide keep (.event direction chan)),
        instantiate_of_closed τ (freeRefs_hide keep' (.event direction chan))]
      exact below_hide_event hpace (h chan (by simp [channels]) direction)
  | comp op ts ih =>
      rw [hide, hide, hideAll_eq_map, hideAll_eq_map]
      refine under_comp (List.forall₂_map_left_iff.2 (List.forall₂_map_right_iff.2
        (List.forall₂_same.2 fun c hc => ih c hc fun chan hchan => h chan ?_)))
      rw [channels, channelsAll_eq_flatMap]
      exact List.mem_flatMap.2 ⟨c, hc, hchan⟩
  | fix binder body ih => exact hfix binder body h (ih h)
  | skip => exact fun _ _ _ _ _ _ _ => below_skip
  | stop => exact fun _ _ _ _ _ _ _ => below_stop
  | _ =>
      intro n σ τ _ _ _ _
      refine below_of_moves_nil rfl fun p q hpq l hl hp => ?_
      rw [List.mem_singleton.1 hl] at hp
      exact ⟨_, List.mem_singleton_self _, hleaf p q hpq _ rfl hp⟩

theorem under_hide_atomic (hpace : ∀ i j, g.pace i j) (a : Atom)
    (h : g.Matches keep keep' t) :
    (g.atomic a).Under (fun _ _ => True) (t.hide keep) (t.hide keep') := by
  refine under_hide_of_fix (g := g.atomic a) hpace ?_ ?_ h
  · rintro p q ⟨rfl, rfl⟩ l - hl
    exact hl
  · intro binder body _ hbody
    exact under_fix (fun _ _ _ => trivial)
      (fun _ _ _ p q hpq hp => absurd hp (isFlat_of_atomic hpq _ _)) hbody

theorem under_hide (hpace : ∀ i j, g.pace i j) (hescape : g.escape = .never)
    (hmarks : ∀ p q, g.marks p q →
      p.IsFlat ∧ q = p ∨ p = g.left.endless ∧ q = g.right.endless)
    (h : g.Matches keep keep' t) : g.Under g.Abreast (t.hide keep) (t.hide keep') := by
  refine under_hide_of_fix hpace ?_ ?_ h
  · intro p q hpq l hleaf hl
    rcases hmarks p q hpq with ⟨-, rfl⟩ | ⟨rfl, rfl⟩
    · exact hl
    · rcases hl with rfl | ⟨binder, body, rfl, -⟩
      · exact .inl rfl
      · cases hleaf
  · intro binder body h hbody
    refine under_fix_endless (hescape ▸ Mark.isBasic_never) (fun p q hpq => ?_)
      (.of_forall fun a => under_hide_atomic hpace a h) hbody
    exact (hmarks p q hpq).imp_left And.left

/-- A closed trace compares with itself if what is hidden adds up to the same. -/
theorem below_hide (hpace : ∀ i j, g.pace i j) (hescape : g.escape = .never)
    (hmarks : ∀ p q, g.marks p q →
      p.IsFlat ∧ q = p ∨ p = g.left.endless ∧ q = g.right.endless)
    (ht : t.freeRefs = []) (h : g.Matches keep keep' t) :
    g.Below n (t.hide keep) (t.hide keep') := by
  have hσ : Valuation.IsClosed fun _ => .stop := fun _ => rfl
  have h := under_hide hpace hescape hmarks h (n := n) hσ hσ
    (.of_forall fun _ _ _ => below_stop) fun _ => below_stop
  rwa [instantiate_of_closed _ ((freeRefs_hide keep t).trans ht),
    instantiate_of_closed _ ((freeRefs_hide keep' t).trans ht)] at h

end Gauge

namespace View

theorem Keeping.shown (h : v.Keeping keep t) {chan : ChanRef} (hchan : chan ∈ t.channels)
    (direction : Direction) :
    v.shown (fun _ => true) direction chan = v.bare.shown keep direction chan := by
  rw [View.shown, View.shown, h chan hchan, noted_event, noted_event]
  cases hhides : v.hides (v.key chan) with
  | true => rfl
  | false => rfl

theorem sees_hide {k k' : Sight} {i : Nat} (ht : t.freeRefs = [])
    (hkeep : v.Keeping keep t) (hk : (Gauge.concealing v).Answers k k') (h : v.Sees k t i s) :
    ∃ j, v.bare.Sees k' (t.hide keep) j s := by
  have hbelow := Gauge.below_hide (g := Gauge.concealing v) (n := i) (fun _ _ => trivial) rfl
    (fun _ _ h => h) ht fun chan hchan => hkeep.shown hchan
  rw [hide_none] at hbelow
  obtain ⟨j, -, h⟩ := hbelow.answer rfl hk (Nat.le_refl i) h
  exact ⟨j, h⟩

theorem sees_of_hide {k k' : Sight} {i : Nat} (ht : t.freeRefs = [])
    (hkeep : v.Keeping keep t) (hk : (Gauge.revealing v).Answers k k')
    (h : v.bare.Sees k (t.hide keep) i s) : ∃ j, v.Sees k' t j s := by
  have hbelow := Gauge.below_hide (g := Gauge.revealing v) (n := i) (fun _ _ => trivial) rfl
    (fun _ _ h => h) ht fun chan hchan direction => (hkeep.shown hchan direction).symm
  rw [hide_none] at hbelow
  obtain ⟨j, -, h⟩ := hbelow.answer rfl hk (Nat.le_refl i) h
  exact ⟨j, h⟩

theorem hasTrace_hide_iff (ht : t.freeRefs = []) (hkeep : v.Keeping keep t) :
    v.bare.HasTrace (t.hide keep) s ↔ v.HasTrace t s := by
  rw [hasTrace_iff, hasTrace_iff]
  constructor
  · rintro (⟨n, h⟩ | ⟨p, rfl, n, h⟩)
    · exact .inl (sees_of_hide ht hkeep .going h)
    · exact .inr ⟨p, rfl, sees_of_hide ht hkeep .done h⟩
  · rintro (⟨n, h⟩ | ⟨p, rfl, n, h⟩)
    · exact .inl (sees_hide ht hkeep .going h)
    · exact .inr ⟨p, rfl, sees_hide ht hkeep .done h⟩

theorem diverges_hide_iff (ht : t.freeRefs = []) (hkeep : v.Keeping keep t) :
    v.bare.Diverges (t.hide keep) s ↔ v.Diverges t s := by
  rw [diverges_iff_sees ht, diverges_iff_sees ((freeRefs_hide keep t).trans ht)]
  exact ⟨fun ⟨_, h⟩ => sees_of_hide ht hkeep (.active (.inr ⟨rfl, rfl⟩)) h,
    fun ⟨_, h⟩ => sees_hide ht hkeep (.active (.inr ⟨rfl, rfl⟩)) h⟩

theorem unconstrained_hide_iff (ht : t.freeRefs = []) (hkeep : v.Keeping keep t) :
    v.bare.Unconstrained (t.hide keep) s ↔ v.Unconstrained t s := by
  rw [unconstrained_iff, unconstrained_iff]
  exact ⟨fun ⟨_, h⟩ => sees_of_hide ht hkeep (.active (.inl ⟨Mark.isFlat_vague, rfl⟩)) h,
    fun ⟨_, h⟩ => sees_hide ht hkeep (.active (.inl ⟨Mark.isFlat_vague, rfl⟩)) h⟩

/-- What the trace with hidden channels is allowed, the trace is allowed under the view that hides
them. -/
theorem Permits.of_hide {w : View} {spec : Trace} (ht : t.freeRefs = [])
    (hkeep : v.Keeping keep t) (h : w.Permits spec v.bare (t.hide keep)) :
    w.Permits spec v t where
  traces s hs := h.traces s ((hasTrace_hide_iff ht hkeep).2 hs)
  diverges s hsettled hd := h.diverges s hsettled ((diverges_hide_iff ht hkeep).2 hd)
  unconstrained s hsettled hvague :=
    h.unconstrained s hsettled ((unconstrained_hide_iff ht hkeep).2 hvague)

end View

end ProcessContracts
