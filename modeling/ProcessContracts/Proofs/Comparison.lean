import ProcessContracts.Proofs.Choice
import ProcessContracts.Proofs.Computations
import ProcessContracts.Proofs.Parallel
import ProcessContracts.Proofs.Sequence

/-!
# Comparing traces by their sightings

A gauge says how two traces are looked at, how their step counts have to relate, which active
component on the left has to be answered by which on the right, and which one on the right excuses
everything after it. Composition preserves every such comparison.
-/

namespace ProcessContracts

structure Gauge where
  left : View
  right : View
  pace : Nat → Nat → Prop
  marks : Mark → Mark → Prop
  escape : Mark
  pace_refl : ∀ n, pace n n
  pace_trans : ∀ {a b c}, pace a b → pace b c → pace a c
  pace_add : ∀ {a b c d}, pace a b → pace c d → pace (a + c) (b + d)
  /-- Steps that lead nowhere can be left out, or nothing is hidden and they are steps to count. -/
  idle : (∀ n, pace n 0) ∨ (left.bare = left ∧ right.bare = right)

namespace Gauge

open Trace View

/-- Which sight on the right answers one on the left. -/
inductive Answers (g : Gauge) : Sight → Sight → Prop
  | going : Answers g .going .going
  | done : Answers g .done .done
  | active {p q : Mark} : g.marks p q → Answers g (.active p) (.active q)

/-- At some point of `s` the right side accepts anything. -/
def Excuses (g : Gauge) (u : Trace) (s : List Label) : Prop :=
  ∃ p, p <+: s ∧ ∃ n, g.right.Sees (.active g.escape) u n p

/-- Whatever `t` shows after at most `n` steps is answered by `u` at the right pace, unless it is
excused. -/
def Below (g : Gauge) (n : Nat) (t u : Trace) : Prop :=
  ∀ ⦃k k' i s⦄, g.Answers k k' → i ≤ n → g.left.Sees k t i s →
    (∃ j, g.pace i j ∧ g.right.Sees k' u j s) ∨ g.Excuses u s

variable {g : Gauge} {n : Nat} {t u : Trace} {ts us : List Trace} {s p : List Label}

theorem Answers.done_iff {k k' : Sight} (h : g.Answers k k') : k = .done ↔ k' = .done := by
  cases h with
  | going => simp
  | done => simp
  | active => simp

theorem Below.mono {m : Nat} (h : g.Below n t u) (hm : m ≤ n) : g.Below m t u :=
  fun _ _ _ _ hk hi hsees => h hk (Nat.le_trans hi hm) hsees

theorem Excuses.mono (h : g.Excuses u p) (hp : p <+: s) : g.Excuses u s := by
  obtain ⟨q, hq, h⟩ := h
  exact ⟨q, hq.trans hp, h⟩

theorem Excuses.map (h : g.Excuses u s)
    (f : ∀ n p, g.right.Sees (.active g.escape) u n p →
      ∃ m, g.right.Sees (.active g.escape) t m p) :
    g.Excuses t s := by
  obtain ⟨p, hp, n, h⟩ := h
  exact ⟨p, hp, f n p h⟩

/-- Where nothing is excused there is an answer to every sighting. -/
theorem Below.answer {k k' : Sight} {i : Nat} (h : g.Below n t u) (hescape : g.escape = .never)
    (hk : g.Answers k k') (hi : i ≤ n) (hsees : g.left.Sees k t i s) :
    ∃ j, g.pace i j ∧ g.right.Sees k' u j s := by
  rcases h hk hi hsees with h | ⟨p, -, j, h⟩
  · exact h
  · rw [hescape] at h
    exact absurd h not_sees_never

theorem below_going (u : Trace) {k : Sight} (hk : g.Answers .going k) :
    ∃ j, g.pace 0 j ∧ g.right.Sees k u j [] := by
  cases hk with
  | going => exact ⟨0, g.pace_refl 0, .going u⟩

theorem below_skip : g.Below n .skip .skip := by
  intro k k' i s hk _ h
  obtain ⟨⟨rfl, rfl⟩ | ⟨rfl, rfl⟩, rfl⟩ := sees_skip.1 h
  · exact .inl (below_going .skip hk)
  · cases hk with
    | done => exact .inl ⟨1, g.pace_refl 1, sees_skip.2 ⟨.inr ⟨rfl, rfl⟩, rfl⟩⟩

theorem below_stop : g.Below n .stop .stop := by
  intro k k' i s hk _ h
  obtain ⟨rfl, rfl, rfl⟩ := sees_stop.1 h
  exact .inl (below_going .stop hk)

theorem below_unit (op : Operator) : g.Below n (unit op) (unit op) := by
  cases op with
  | seq | par => exact below_skip
  | det | ndet => exact below_stop

/-- A silent step in front of both sides. -/
theorem Below.silent {t' u' : Trace}
    (ht : ∀ {k i s}, g.left.Sees k t i s → (k = .going ∧ i = 0 ∧ s = []) ∨
      ∃ i', i = i' + 1 ∧ g.left.Sees k t' i' s)
    (hu : ∀ {k i s}, g.right.Sees k u' i s → g.right.Sees k u (i + 1) s)
    (h : g.Below n t' u') : g.Below n t u := by
  intro k k' i s hk hi hsees
  rcases ht hsees with ⟨rfl, rfl, rfl⟩ | ⟨i', rfl, hsees'⟩
  · exact .inl (below_going u hk)
  · rcases h hk (by omega) hsees' with ⟨j, hj, h⟩ | h
    · exact .inl ⟨j + 1, g.pace_add hj (g.pace_refl 1), hu h⟩
    · exact .inr (h.map fun j p h => ⟨j + 1, hu h⟩)

theorem below_comp_nil (op : Operator) : g.Below n (.comp op []) (.comp op []) :=
  Below.silent (fun h => (sees_comp_nil op).1 h)
    (fun h => (sees_comp_nil op).2 (.inr ⟨_, rfl, h⟩)) (below_unit op)

/-! ## Sequences -/

theorem below_seq_cons (h : g.Below n t u) (h' : g.Below n (collapse .seq ts) (collapse .seq us)) :
    g.Below n (.comp .seq (t :: ts)) (.comp .seq (u :: us)) := by
  intro k k' i s hk hi hsees
  have excuse : ∀ {p}, p <+: s → g.Excuses u p → g.Excuses (.comp .seq (u :: us)) s :=
    fun hp he => (he.mono hp).map fun j p h => ⟨j, sees_seq_cons.2 (.inl ⟨by simp, h⟩)⟩
  rcases sees_seq_cons.1 hsees with ⟨hne, ht⟩ | ⟨i₁, s₁, i₂, s₂, ht, hts, rfl, rfl⟩
  · rcases h hk hi ht with ⟨j, hj, h⟩ | h
    · exact .inl ⟨j, hj, sees_seq_cons.2 (.inl ⟨mt hk.done_iff.2 hne, h⟩)⟩
    · exact .inr (excuse List.prefix_rfl h)
  · rcases h .done (by omega) ht with ⟨j₁, hj₁, h₁⟩ | h
    · rcases h' hk (by omega) hts with ⟨j₂, hj₂, h₂⟩ | ⟨p, hp, j₂, h₂⟩
      · exact .inl ⟨j₁ + j₂, g.pace_add hj₁ hj₂,
          sees_seq_cons.2 (.inr ⟨_, _, _, _, h₁, h₂, rfl, rfl⟩)⟩
      · exact .inr ⟨s₁ ++ p, (List.prefix_append_right_inj s₁).2 hp, j₁ + j₂,
          sees_seq_cons.2 (.inr ⟨_, _, _, _, h₁, h₂, rfl, rfl⟩)⟩
    · exact .inr (excuse (List.prefix_append s₁ s₂) h)

theorem below_collapse_seq (h : List.Forall₂ (g.Below n) ts us) :
    g.Below n (collapse .seq ts) (collapse .seq us) := by
  induction h with
  | nil => exact below_skip
  | cons h hs ih =>
      cases hs with
      | nil => exact h
      | cons h' hs' => exact below_seq_cons h ih

/-! ## Parallel compositions -/

theorem Answers.joins {k k' k₁ k₂ : Sight} (hk : g.Answers k k') (hj : Joins k₁ k₂ k) :
    ∃ k₁' k₂', g.Answers k₁ k₁' ∧ g.Answers k₂ k₂' ∧ Joins k₁' k₂' k' := by
  have bystander : ∀ b : Sight, b.IsBystander → g.Answers b b := by
    intro b hb
    cases b with
    | going => exact .going
    | done => exact .done
    | active mark => exact hb.elim
  cases hj with
  | done =>
      cases hk with
      | done => exact ⟨_, _, .done, .done, .done⟩
  | left hne hi => exact ⟨k', _, hk, bystander _ hi, .left (mt hk.done_iff.2 hne) hi⟩
  | right hne hi => exact ⟨_, k', bystander _ hi, hk, .right (mt hk.done_iff.2 hne) hi⟩

/-- A child that shows a component shows it in company as well. -/
theorem shares_active_left {v : View} {mark : Mark} {i j s₁ s₂} {k : Sight}
    (h : v.Sees (.active mark) u i s₁) (h' : Shares v k us j s₂) (hk : k.IsBystander)
    (hs : Interleaves s₁ s₂ s) : Shares v (.active mark) (u :: us) (i + j) s :=
  .cons (.left (by simp) hk) h h' hs

theorem shares_bystander_of_start {v : View} {k : Sight} {j : Nat} (h : Shares v k us j s)
    (hp : p <+: s) : ∃ b i, b.IsBystander ∧ Shares v b us i p := by
  by_cases hus : us = []
  · subst hus
    obtain ⟨rfl, rfl, rfl⟩ := shares_nil.1 h
    exact ⟨.done, 0, trivial, by rw [List.prefix_nil.1 hp]; exact .nil⟩
  · obtain ⟨i, -, h⟩ := ((sees_collapse_par hus).2 h).going_of_start hp
    exact ⟨.going, i, trivial, (sees_collapse_par hus).1 h⟩

theorem shares_below (h : List.Forall₂ (g.Below n) ts us) {k k' i} (hk : g.Answers k k')
    (hi : i ≤ n) (hsees : Shares g.left k ts i s) :
    (∃ j, g.pace i j ∧ Shares g.right k' us j s) ∨
      ∃ p, p <+: s ∧ ∃ j, Shares g.right (.active g.escape) us j p := by
  induction h generalizing k k' i s with
  | nil =>
      obtain ⟨rfl, rfl, rfl⟩ := shares_nil.1 hsees
      cases hk with
      | done => exact .inl ⟨0, g.pace_refl 0, .nil⟩
  | @cons t u ts us h hs ih =>
      obtain ⟨k₁, k₂, i₁, i₂, s₁, s₂, hj, ht, hts, hs, rfl⟩ := shares_cons.1 hsees
      obtain ⟨k₁', k₂', hk₁, hk₂, hj'⟩ := hk.joins hj
      rcases h hk₁ (by omega) ht with ⟨j₁, hj₁, h₁⟩ | ⟨p, hp, j₁, h₁⟩
      · rcases ih hk₂ (by omega) hts with ⟨j₂, hj₂, h₂⟩ | ⟨q, hq, j₂, h₂⟩
        · exact .inl ⟨j₁ + j₂, g.pace_add hj₁ hj₂, .cons hj' h₁ h₂ hs⟩
        · obtain ⟨a, b, ha, hb, hab⟩ := hs.symm.prefix_left hq
          obtain ⟨j, -, h₁⟩ := h₁.going_of_start ha
          exact .inr ⟨b, hb, _, .cons (.right (i := .going) (by simp) trivial) h₁ h₂ hab.symm⟩
      · have hrest : ∃ q k₂' j₂, q <+: s₂ ∧ Shares g.right k₂' us j₂ q ∧
            (q = s₂ ∨ k₂' = .active g.escape) := by
          rcases ih hk₂ (by omega) hts with ⟨j₂, -, h₂⟩ | ⟨q, hq, j₂, h₂⟩
          · exact ⟨s₂, k₂', j₂, List.prefix_rfl, h₂, .inl rfl⟩
          · exact ⟨q, _, j₂, hq, h₂, .inr rfl⟩
        obtain ⟨q, k₂', j₂, hq, h₂, hcase⟩ := hrest
        have first : ∀ {a b}, a <+: q → b <+: s → Interleaves p a b →
            ∃ b, b <+: s ∧ ∃ j, Shares g.right (.active g.escape) (u :: us) j b := by
          intro a b ha hb hab
          obtain ⟨_, j, hi, h₂⟩ := shares_bystander_of_start h₂ ha
          exact ⟨b, hb, _, shares_active_left h₁ h₂ hi hab⟩
        rcases hcase with rfl | rfl
        · obtain ⟨a, b, ha, hb, hab⟩ := hs.prefix_left hp
          exact .inr (first ha hb hab)
        · obtain ⟨b, hb, ⟨a, ha, hab⟩ | ⟨a, ha, hab⟩⟩ := hs.prefixes hp hq
          · exact .inr (first ha hb hab)
          · obtain ⟨j, -, h₁⟩ := h₁.going_of_start ha
            exact .inr ⟨b, hb, _, .cons (.right (i := .going) (by simp) trivial) h₁ h₂ hab⟩

theorem below_collapse_par (h : List.Forall₂ (g.Below n) ts us) :
    g.Below n (collapse .par ts) (collapse .par us) := by
  intro k k' i s hk hi hsees
  cases h with
  | nil => exact below_skip hk hi hsees
  | cons h hs =>
      rw [sees_collapse_par (List.cons_ne_nil _ _)] at hsees
      rcases shares_below (.cons h hs) hk hi hsees with ⟨j, hj, h⟩ | ⟨p, hp, j, h⟩
      · exact .inl ⟨j, hj, (sees_collapse_par (List.cons_ne_nil _ _)).2 h⟩
      · exact .inr ⟨p, hp, j, (sees_collapse_par (List.cons_ne_nil _ _)).2 h⟩

theorem below_par_singleton (h : g.Below n t u) : g.Below n (.comp .par [t]) (.comp .par [u]) := by
  intro k k' i s hk hi hsees
  have excuse : g.Excuses u s → g.Excuses (.comp .par [u]) s :=
    fun h => h.map fun j p h => ⟨j, sees_par_singleton.2 (.inl ⟨by simp, h⟩)⟩
  rcases sees_par_singleton.1 hsees with ⟨hne, ht⟩ | ⟨i₁, i₂, ht, hskip, rfl⟩
  · rcases h hk hi ht with ⟨j, hj, h⟩ | h
    · exact .inl ⟨j, hj, sees_par_singleton.2 (.inl ⟨mt hk.done_iff.2 hne, h⟩)⟩
    · exact .inr (excuse h)
  · rcases h .done (by omega) ht with ⟨j₁, hj₁, h₁⟩ | h
    · rcases below_skip hk (by omega : i₂ ≤ n) hskip with ⟨j₂, hj₂, h₂⟩ | ⟨p, hp, j₂, h₂⟩
      · exact .inl ⟨j₁ + j₂, g.pace_add hj₁ hj₂, sees_par_singleton.2 (.inr ⟨j₁, j₂, h₁, h₂, rfl⟩)⟩
      · obtain ⟨⟨h, -⟩ | ⟨h, -⟩, -⟩ := sees_skip.1 h₂ <;> cases h
    · exact .inr (excuse h)

/-! ## Choices -/

theorem rests_below (h : List.Forall₂ (g.Below n) ts us) {i : Nat} (hi : i ≤ n)
    (hrests : Rests g.left ts i) : (∃ j, g.pace i j ∧ Rests g.right us j) ∨
      ∃ u ∈ us, g.Excuses u [] := by
  rcases g.idle with hidle | ⟨hleft, hright⟩
  · exact .inl ⟨0, hidle i, rests_zero g.right us⟩
  · induction h generalizing i with
    | nil =>
        cases hrests
        exact .inl ⟨0, g.pace_refl 0, .nil⟩
    | cons h _ ih =>
        cases hrests with
        | cons ht hts =>
            rw [hleft] at ht
            rcases h .going (by omega) ht with ⟨j₁, hj₁, h₁⟩ | h
            · rcases ih (by omega) hts with ⟨j₂, hj₂, h₂⟩ | ⟨c, hc, h⟩
              · exact .inl ⟨j₁ + j₂, g.pace_add hj₁ hj₂, .cons (by rwa [hright]) h₂⟩
              · exact .inr ⟨c, List.mem_cons_of_mem _ hc, h⟩
            · exact .inr ⟨_, List.mem_cons_self, h⟩

theorem picks_below (h : List.Forall₂ (g.Below n) ts us) {k k' i} (hk : g.Answers k k')
    (hi : i ≤ n) (hpicks : Picks g.left k ts i s) :
    (∃ j, g.pace i j ∧ Picks g.right k' us j s) ∨ ∃ u ∈ us, g.Excuses u s := by
  induction h generalizing i with
  | nil => cases hpicks
  | @cons t u ts us h hs ih =>
      cases hpicks with
      | here ht hts =>
          rcases h hk (by omega) ht with ⟨j₁, hj₁, h₁⟩ | h
          · rcases rests_below hs (by omega) hts with ⟨j₂, hj₂, h₂⟩ | ⟨c, hc, h⟩
            · exact .inl ⟨j₁ + j₂, g.pace_add hj₁ hj₂, .here h₁ h₂⟩
            · exact .inr ⟨c, List.mem_cons_of_mem _ hc, h.mono List.nil_prefix⟩
          · exact .inr ⟨u, List.mem_cons_self, h⟩
      | @there _ _ i₁ i₂ _ ht hts =>
          rcases ih (by omega) hts with ⟨j₂, hj₂, h₂⟩ | ⟨c, hc, h⟩
          · rcases rests_below (.cons h .nil) (by omega : i₁ + 0 ≤ n) (.cons ht .nil) with
              ⟨j₁, hj₁, h₁⟩ | ⟨c, hc, h⟩
            · cases h₁ with
              | cons h₁ hnil =>
                  cases hnil
                  rw [Nat.add_zero, Nat.add_zero] at hj₁
                  exact .inl ⟨_, g.pace_add hj₁ hj₂, .there h₁ h₂⟩
            · rw [List.mem_singleton.1 hc] at h
              exact .inr ⟨u, List.mem_cons_self, h.mono List.nil_prefix⟩
          · exact .inr ⟨c, List.mem_cons_of_mem _ hc, h⟩

theorem below_det (h : List.Forall₂ (g.Below n) ts us) :
    g.Below n (.comp .det ts) (.comp .det us) := by
  intro k k' i s hk hi hsees
  cases h with
  | nil => exact below_comp_nil .det hk hi hsees
  | cons h hs =>
      rw [sees_det (List.cons_ne_nil _ _)] at hsees
      rcases picks_below (.cons h hs) hk hi hsees with ⟨j, hj, h⟩ | ⟨c, hc, h⟩
      · exact .inl ⟨j, hj, (sees_det (List.cons_ne_nil _ _)).2 h⟩
      · obtain ⟨as, bs, hsplit⟩ := List.append_of_mem hc
        rw [hsplit]
        exact .inr (h.map fun j p h => ⟨j, sees_det_of_sees as bs h⟩)

theorem below_ndet (h : List.Forall₂ (g.Below n) ts us) :
    g.Below n (.comp .ndet ts) (.comp .ndet us) := by
  intro k k' i s hk hi hsees
  by_cases hts : ts = []
  · subst hts
    cases h
    exact below_comp_nil .ndet hk hi hsees
  · rcases (sees_ndet hts).1 hsees with ⟨rfl, rfl, rfl⟩ | ⟨i', rfl, t, ht, hseen⟩
    · exact .inl (below_going _ hk)
    · obtain ⟨u, hu, hbelow⟩ := exists_related_of_mem h ht
      have hus : us ≠ [] := List.ne_nil_of_mem hu
      rcases hbelow hk (by omega) hseen with ⟨j, hj, h⟩ | h
      · exact .inl ⟨j + 1, g.pace_add hj (g.pace_refl 1),
          (sees_ndet hus).2 (.inr ⟨j, rfl, u, hu, h⟩)⟩
      · exact .inr (h.map fun j p h => ⟨j + 1, (sees_ndet hus).2 (.inr ⟨j, rfl, u, hu, h⟩)⟩)

/-! ## All compositions -/

/-- Comparing the children compares the compositions. -/
theorem below_comp {op : Operator} (h : List.Forall₂ (g.Below n) ts us) :
    g.Below n (.comp op ts) (.comp op us) := by
  cases op with
  | seq =>
      cases h with
      | nil => exact below_comp_nil .seq
      | cons h hs => exact below_seq_cons h (below_collapse_seq hs)
  | par =>
      cases h with
      | nil => exact below_comp_nil .par
      | cons h hs =>
          cases hs with
          | nil => exact below_par_singleton h
          | cons h' hs => exact below_collapse_par (.cons h (.cons h' hs))
  | det => exact below_det h
  | ndet => exact below_ndet h

theorem Below.trans {w : Trace} (h : g.Below n t u) (h' : ∀ m, g.Below m u w)
    (hview : g.left = g.right) (hescape : g.escape = .never)
    (hmarks : ∀ {p q}, g.marks p q → g.marks q q) : g.Below n t w := by
  intro k k' i s hk hi hsees
  obtain ⟨j, hj, hsees⟩ := h.answer hescape hk hi hsees
  have hk' : g.Answers k' k' := by
    cases hk with
    | going => exact .going
    | done => exact .done
    | active hpq => exact .active (hmarks hpq)
  obtain ⟨j', hj', h⟩ := (h' j).answer hescape hk' (Nat.le_refl j) (hview ▸ hsees)
  exact .inl ⟨j', g.pace_trans hj hj', h⟩

end Gauge

end ProcessContracts
