import Mathlib.Order.WellFounded
import ProcessContracts.Proofs.Choice
import ProcessContracts.Proofs.Parallel
import ProcessContracts.Proofs.Sequence

/-!
# Endless silent runs

A trace calms down if all its silent runs end, and end in a state that does not diverge.
Compositions of traces that calm down do so too, so what never calms down owes it to one of its
components.
-/

namespace ProcessContracts.View

open Trace

/-- A step that is not noted. -/
def Quiet (v : View) (t u : Trace) : Prop := ∃ m, (m, u) ∈ t.moves v.key ∧ v.noted m = none

/-- Every silent run of `t` ends, and no state on it diverges. -/
inductive CalmsDown (v : View) : Trace → Prop
  | intro {t : Trace} : t.diverges = false → (∀ u, v.Quiet t u → CalmsDown v u) → CalmsDown v t

/-- The trace can terminate silently. -/
def Finishes (v : View) (t : Trace) : Prop := ∃ n, v.Sees .done t n []

/-- One trace of a list takes a step, or leaves the list. -/
inductive ListStep (r : Trace → Trace → Prop) : List Trace → List Trace → Prop
  | drop (t ts) : ListStep r ts (t :: ts)
  | head {t u} (ts) : r u t → ListStep r (u :: ts) (t :: ts)
  | tail (t) {ts us} : ListStep r us ts → ListStep r (t :: us) (t :: ts)

variable {v : View} {t u : Trace} {ts us : List Trace}

theorem CalmsDown.diverges (h : v.CalmsDown t) : t.diverges = false := by
  cases h with
  | intro ht _ => exact ht

theorem CalmsDown.next (h : v.CalmsDown t) (hu : v.Quiet t u) : v.CalmsDown u := by
  cases h with
  | intro _ hnext => exact hnext u hu

theorem CalmsDown.acc (h : v.CalmsDown t) : Acc (fun u t => v.Quiet t u) t := by
  induction h with
  | intro _ _ ih => exact .intro _ ih

theorem quiet_tau (h : (.tau, u) ∈ t.moves v.key) : v.Quiet t u := ⟨.tau, h, rfl⟩

theorem ne_tick_of_noted {m : Move} (h : v.noted m = none) : m ≠ .visible .tick := by
  rintro rfl
  cases h

theorem CalmsDown.silent (ht : t.diverges = false)
    (h : ∀ m u, (m, u) ∈ t.moves v.key → v.noted m = none → v.CalmsDown u) : v.CalmsDown t :=
  .intro ht fun u ⟨m, hm, hq⟩ => h m u hm hq

theorem not_calmsDown_iff :
    ¬ v.CalmsDown t ↔ t.diverges = true ∨ ∃ u, v.Quiet t u ∧ ¬ v.CalmsDown u := by
  constructor
  · intro h
    by_contra hno
    rw [not_or, Bool.not_eq_true, not_exists] at hno
    exact h (.intro hno.1 fun u hu => by_contra fun hc => hno.2 u ⟨hu, hc⟩)
  · rintro (h | ⟨u, hu, hc⟩) hcalm
    · rw [hcalm.diverges] at h
      cases h
    · exact hc (hcalm.next hu)

/-! ## What diverges -/

theorem runsSilently_iff : v.RunsSilently t ↔ ¬ Acc (fun u t => v.Quiet t u) t :=
  (not_acc_iff_exists_descending_chain (r := fun u t => v.Quiet t u)).symm

theorem After.quiet {s : List Label} {w : Trace} (hu : v.Quiet t u) (h : v.After u s w) :
    v.After t s w := by
  obtain ⟨m, hm, hq⟩ := hu
  have := After.step hm h
  rwa [hq] at this

theorem calmsDown_of_acc (hacc : Acc (fun u t => v.Quiet t u) t)
    (h : ∀ u, v.After t [] u → u.diverges = false) : v.CalmsDown t := by
  induction hacc with
  | intro t _ ih => exact .intro (h t (.here t)) fun u hu => ih u hu fun w hw => h w (hw.quiet hu)

theorem diverges_iff {s : List Label} :
    v.Diverges t s ↔ ∃ u, v.After t s u ∧ ¬ v.CalmsDown u := by
  constructor
  · rintro ⟨u, hu, h | h⟩
    · exact ⟨u, hu, fun hcalm => by simp [hcalm.diverges] at h⟩
    · exact ⟨u, hu, fun hcalm => runsSilently_iff.1 h hcalm.acc⟩
  · rintro ⟨u, hu, h⟩
    by_cases hw : ∃ w, v.After u [] w ∧ w.diverges = true
    · obtain ⟨w, hw, hd⟩ := hw
      exact ⟨w, by simpa using hu.trans hw, .inl hd⟩
    · refine ⟨u, hu, .inr (runsSilently_iff.2 fun hacc =>
        h (calmsDown_of_acc hacc fun w hw' => ?_))⟩
      exact Bool.eq_false_iff.2 fun hd => hw ⟨w, hw', hd⟩

/-! ## Compositions of traces that calm down -/

theorem calmsDown_of_moves_nil (ht : t.diverges = false) (h : t.moves v.key = []) :
    v.CalmsDown t := .silent ht fun m u hm _ => by simp [h] at hm

theorem calmsDown_skip (v : View) : v.CalmsDown .skip := .silent rfl fun m u hm hq => by
  simp only [moves, List.mem_singleton, Prod.mk.injEq] at hm
  exact absurd hm.1 (ne_tick_of_noted hq)

theorem calmsDown_unit (op : Operator) : v.CalmsDown (unit op) := by
  cases op with
  | seq | par => exact calmsDown_skip v
  | det | ndet => exact calmsDown_of_moves_nil rfl rfl

theorem calmsDown_event (direction : Direction) (chan : ChanRef) :
    v.CalmsDown (.event direction chan) := .silent rfl fun m u hm _ => by
  simp only [moves, List.mem_singleton, Prod.mk.injEq] at hm
  exact hm.2 ▸ calmsDown_skip v

theorem calmsDown_comp_nil (op : Operator) : v.CalmsDown (.comp op []) := by
  refine .silent (by cases op <;> rfl) fun m u hm _ => ?_
  simp only [moves_comp_nil, List.mem_singleton, Prod.mk.injEq] at hm
  exact hm.2 ▸ calmsDown_unit op

theorem calmsDown_fix {binder : Atom} {body : Trace}
    (h : v.CalmsDown (substitute binder.id (.fix binder body) body)) :
    v.CalmsDown (.fix binder body) := .silent rfl fun m u hm _ => by
  simp only [moves, List.mem_singleton, Prod.mk.injEq] at hm
  exact hm.2 ▸ h

theorem Finishes.of_quiet (hq : v.Quiet t u) (h : v.Finishes u) : v.Finishes t := by
  obtain ⟨m, hm, hnote⟩ := hq
  obtain ⟨n, h⟩ := h
  have := Sees.step hm (ne_tick_of_noted hnote) h
  exact ⟨n + 1, by simpa [hnote] using this⟩

theorem calmsDown_seq_cons (ht : v.CalmsDown t)
    (hts : v.Finishes t → v.CalmsDown (collapse .seq ts)) :
    v.CalmsDown (.comp .seq (t :: ts)) := by
  induction ht with
  | @intro t hd _ ih =>
      refine .silent (by simpa [Trace.diverges, active] using hd) fun m u hm hq => ?_
      obtain ⟨m', t', hm', ⟨rfl, rfl, rfl⟩ | ⟨-, rfl, rfl⟩⟩ := mem_moves_seq_cons.1 hm
      · exact hts ⟨1, .done hm'⟩
      · have hq' : v.Quiet t t' := ⟨m, hm', hq⟩
        exact ih t' hq' fun h => hts (h.of_quiet hq')

theorem acc_listStep {r : Trace → Trace → Prop} (h : ∀ t ∈ ts, Acc r t) : Acc (ListStep r) ts := by
  induction ts with
  | nil => exact .intro [] fun us hus => nomatch hus
  | cons t ts ih =>
      have hts := ih fun t ht => h t (List.mem_cons_of_mem _ ht)
      have ht := h t List.mem_cons_self
      clear ih h
      induction ht generalizing ts with
      | intro t _ iht =>
          induction hts with
          | intro ts hacc ihts =>
              refine .intro _ fun us hus => ?_
              cases hus with
              | drop => exact .intro ts hacc
              | head _ hr => exact iht _ hr ts (.intro ts hacc)
              | tail _ hus => exact ihts _ hus

theorem listStep_append {r : Trace → Trace → Prop} {as bs : List Trace} (h : r u t) :
    ListStep r (as ++ u :: bs) (as ++ t :: bs) := by
  induction as with
  | nil => exact .head bs h
  | cons a as ih => exact .tail a ih

theorem listStep_drop (r : Trace → Trace → Prop) (as : List Trace) (t : Trace) (bs : List Trace) :
    ListStep r (as ++ bs) (as ++ t :: bs) := by
  induction as with
  | nil => exact .drop t bs
  | cons a as ih => exact .tail a ih

theorem diverges_comp {op : Operator} (hop : op ≠ .seq) (h : ∀ t ∈ ts, t.diverges = false) :
    (Trace.comp op ts).diverges = false := by
  cases op with
  | seq => exact absurd rfl hop
  | par | det =>
      simp only [Trace.diverges, List.any_eq_false] at h ⊢
      intro l hl
      simp only [active, activeAll_eq_flatMap, List.mem_flatMap] at hl
      obtain ⟨t, ht, hl⟩ := hl
      exact h t ht l hl
  | ndet => rfl

theorem calmsDown_replace {as bs : List Trace} {c c' : Trace}
    (h : ∀ t ∈ as ++ c :: bs, v.CalmsDown t) (hq : v.Quiet c c') :
    ∀ t ∈ as ++ c' :: bs, v.CalmsDown t := by
  intro t ht
  rcases List.mem_append.1 ht with ht | ht
  · exact h t (by simp [ht])
  · rcases List.mem_cons.1 ht with rfl | ht
    · exact (h c (by simp)).next hq
    · exact h t (by simp [ht])

theorem calmsDown_par (h : ∀ t ∈ ts, v.CalmsDown t) : v.CalmsDown (.comp .par ts) := by
  have hacc := acc_listStep fun t ht => (h t ht).acc
  induction hacc with
  | intro ts _ ih =>
      by_cases hts : ts = []
      · exact hts ▸ calmsDown_comp_nil .par
      refine .silent (diverges_comp (by simp) fun t ht => (h t ht).diverges) fun m u hm hq => ?_
      obtain ⟨as, c, bs, m', t', rfl, hm', ⟨rfl, rfl, rfl⟩ | ⟨-, rfl, rfl⟩⟩ :=
        (mem_moves_par hts).1 hm
      · have hrest : ∀ t ∈ as ++ bs, v.CalmsDown t := fun t ht => h t (by
          rcases List.mem_append.1 ht with ht | ht <;> simp [ht])
        have hcomp := ih (as ++ bs) (listStep_drop _ as c bs) hrest
        match hus : as ++ bs with
        | [] => exact calmsDown_skip v
        | [c'] => exact hrest c' (by simp [hus])
        | c₁ :: c₂ :: cs =>
            rw [hus] at hcomp
            exact hcomp
      · have hq' : v.Quiet c t' := ⟨m, hm', hq⟩
        exact ih _ (listStep_append hq') (calmsDown_replace h hq')

theorem calmsDown_det (h : ∀ t ∈ ts, v.CalmsDown t) : v.CalmsDown (.comp .det ts) := by
  have hacc := acc_listStep fun t ht => (h t ht).acc
  induction hacc with
  | intro ts _ ih =>
      by_cases hts : ts = []
      · exact hts ▸ calmsDown_comp_nil .det
      refine .silent (diverges_comp (by simp) fun t ht => (h t ht).diverges) fun m u hm hq => ?_
      obtain ⟨as, c, bs, m', t', rfl, hm', ⟨rfl, rfl, rfl⟩ | ⟨-, rfl, rfl⟩⟩ :=
        (mem_moves_det hts).1 hm
      · have hq' : v.Quiet c t' := quiet_tau hm'
        exact ih _ (listStep_append hq') (calmsDown_replace h hq')
      · exact (h c (by simp)).next ⟨m, hm', hq⟩

theorem calmsDown_ndet (h : ∀ t ∈ ts, v.CalmsDown t) : v.CalmsDown (.comp .ndet ts) := by
  by_cases hts : ts = []
  · exact hts ▸ calmsDown_comp_nil .ndet
  refine .silent rfl fun m u hm _ => ?_
  simp only [moves_ndet hts, List.mem_map, Prod.mk.injEq] at hm
  obtain ⟨t, ht, -, rfl⟩ := hm
  exact h t ht

theorem not_calmsDown_collapse_seq (h : ¬ v.CalmsDown (collapse .seq ts)) :
    ∃ as c bs, ts = as ++ c :: bs ∧ ¬ v.CalmsDown c ∧ ∀ a ∈ as, v.Finishes a := by
  induction ts with
  | nil => exact absurd (calmsDown_skip v) h
  | cons t ts ih =>
      by_cases ht : v.CalmsDown t
      · have hrest : v.Finishes t ∧ ¬ v.CalmsDown (collapse .seq ts) := by
          by_contra hno
          rw [not_and_not_right] at hno
          cases ts with
          | nil => exact h ht
          | cons u ts => exact h (calmsDown_seq_cons ht hno)
        obtain ⟨as, c, bs, rfl, hc, has⟩ := ih hrest.2
        exact ⟨t :: as, c, bs, rfl, hc, List.forall_mem_cons.2 ⟨hrest.1, has⟩⟩
      · exact ⟨[], t, ts, rfl, ht, by simp⟩

/-- A composition runs endlessly because of a child; in a sequence the ones before can finish. -/
theorem not_calmsDown_comp {op : Operator} (h : ¬ v.CalmsDown (.comp op ts)) :
    ∃ as c bs, ts = as ++ c :: bs ∧ ¬ v.CalmsDown c ∧ (op = .seq → ∀ a ∈ as, v.Finishes a) := by
  have child : op ≠ .seq → (∃ c ∈ ts, ¬ v.CalmsDown c) →
      ∃ as c bs, ts = as ++ c :: bs ∧ ¬ v.CalmsDown c ∧ (op = .seq → ∀ a ∈ as, v.Finishes a) := by
    rintro hop ⟨c, hc, hcalm⟩
    obtain ⟨as, bs, hsplit⟩ := List.append_of_mem hc
    exact ⟨as, c, bs, hsplit, hcalm, fun e => absurd e hop⟩
  cases op with
  | seq =>
      have hcollapse : ¬ v.CalmsDown (collapse .seq ts) := by
        match ts with
        | [] => exact absurd (calmsDown_comp_nil .seq) h
        | [t] => exact fun ht => h (calmsDown_seq_cons ht fun _ => calmsDown_skip v)
        | t :: u :: ts => exact h
      obtain ⟨as, c, bs, hsplit, hc, has⟩ := not_calmsDown_collapse_seq hcollapse
      exact ⟨as, c, bs, hsplit, hc, fun _ => has⟩
  | par => exact child (by simp) (by simpa using mt calmsDown_par h)
  | det => exact child (by simp) (by simpa using mt calmsDown_det h)
  | ndet => exact child (by simp) (by simpa using mt calmsDown_ndet h)

end ProcessContracts.View
