import ProcessContracts.Proofs.Choice
import ProcessContracts.Proofs.Parallel
import ProcessContracts.Proofs.Sequence

/-!
# Laws of simplification

Each rewrite of the simplifier keeps every sighting and makes none of them later. `Condenses t u`
says so: what `t` shows, `u` shows after no more steps, and what `u` shows, `t` shows after no
fewer.
-/

namespace ProcessContracts.View

open Trace

structure Condenses (v : View) (t u : Trace) : Prop where
  forth : ∀ {k n s}, v.Sees k t n s → ∃ m ≤ n, v.Sees k u m s
  back : ∀ {k n s}, v.Sees k u n s → ∃ m ≥ n, v.Sees k t m s

variable {v : View} {k : Sight} {t u : Trace} {ts us as bs cs : List Trace} {n : Nat}
  {s : List Label}

theorem Condenses.refl (v : View) (t : Trace) : v.Condenses t t :=
  ⟨fun h => ⟨_, Nat.le_refl _, h⟩, fun h => ⟨_, Nat.le_refl _, h⟩⟩

theorem condenses_of_iff (h : ∀ k n s, v.Sees k t n s ↔ v.Sees k u n s) : v.Condenses t u :=
  ⟨fun hsees => ⟨_, Nat.le_refl _, (h ..).1 hsees⟩, fun hsees => ⟨_, Nat.le_refl _, (h ..).2 hsees⟩⟩

/-! ## Sequences -/

theorem condenses_seq_singleton (t : Trace) : v.Condenses (.comp .seq [t]) t where
  forth hsees := by
    rcases sees_seq_cons.1 hsees with ⟨-, h⟩ | ⟨n₁, s₁, n₂, s₂, h, hskip, rfl, rfl⟩
    · exact ⟨_, Nat.le_refl _, h⟩
    · obtain ⟨⟨rfl, rfl⟩ | ⟨rfl, rfl⟩, rfl⟩ := sees_skip.1 hskip
      · obtain ⟨m, hm, h⟩ := h.going_of_start List.prefix_rfl
        exact ⟨m, hm, by simpa using h⟩
      · exact ⟨n₁, by omega, by simpa using h⟩
  back {k n s} h := by
    by_cases hk : k = .done
    · subst hk
      have hskip : v.Sees .done (collapse .seq []) 1 [] := sees_skip.2 ⟨.inr ⟨rfl, rfl⟩, rfl⟩
      exact ⟨n + 1, by omega, sees_seq_cons.2 (.inr ⟨n, s, 1, [], h, hskip, rfl, by simp⟩)⟩
    · exact ⟨n, Nat.le_refl n, sees_seq_cons.2 (.inl ⟨hk, h⟩)⟩

theorem chain_prepend (h : ∀ {k n s}, Chain v k ts n s → Chain v k us n s) :
    Chain v k (as ++ ts) n s → Chain v k (as ++ us) n s := by
  rw [chain_append, chain_append]
  rintro (has | ⟨n₁, s₁, n₂, s₂, has, hts, rfl, rfl⟩)
  · exact .inl has
  · exact .inr ⟨n₁, s₁, n₂, s₂, has, h hts, rfl, rfl⟩

theorem chain_going_of_done (hne : as ++ bs ≠ []) (h : Chain v .done as n s) :
    ∃ m ≤ n, Chain v .going (as ++ bs) m s := by
  by_cases has : as = []
  · subst has
    obtain ⟨-, rfl, rfl⟩ := chain_nil.1 h
    obtain ⟨b, bs, rfl⟩ := List.exists_cons_of_ne_nil (l := bs) hne
    exact ⟨0, Nat.le_refl 0, .here (by simp) (.going b)⟩
  · obtain ⟨m, hm, h⟩ := ((sees_collapse_seq has).2 h).going_of_start List.prefix_rfl
    exact ⟨m, hm, chain_append.2 (.inl ⟨by simp, (sees_collapse_seq has).1 h⟩)⟩

theorem condenses_seq_skip :
    v.Condenses (collapse .seq (as ++ .skip :: bs)) (collapse .seq (as ++ bs)) := by
  by_cases hne : as ++ bs = []
  · obtain ⟨rfl, rfl⟩ := List.append_eq_nil_iff.1 hne
    exact .refl v .skip
  constructor
  · intro k n s h
    rw [sees_collapse_seq (by simp), chain_append] at h
    simp only [sees_collapse_seq hne]
    rcases h with ⟨hk, h⟩ | ⟨n₁, s₁, n₂, s₂, h, h', rfl, rfl⟩
    · exact ⟨n, Nat.le_refl n, chain_append.2 (.inl ⟨hk, h⟩)⟩
    · rcases chain_cons.1 h' with ⟨hk, hskip⟩ | ⟨n₃, s₃, n₄, s₄, hskip, hbs, rfl, rfl⟩
      · obtain ⟨⟨rfl, rfl⟩ | ⟨rfl, -⟩, rfl⟩ := sees_skip.1 hskip
        · simpa using chain_going_of_done hne h
        · exact absurd rfl hk
      · obtain ⟨-, rfl⟩ := sees_skip.1 hskip
        exact ⟨n₁ + n₄, by omega, chain_append.2 (.inr ⟨_, _, _, _, h, hbs, rfl, rfl⟩)⟩
  · intro k n s h
    rw [sees_collapse_seq hne, chain_append] at h
    simp only [sees_collapse_seq (List.append_ne_nil_of_right_ne_nil as (List.cons_ne_nil _ bs))]
    rcases h with ⟨hk, h⟩ | ⟨n₁, s₁, n₂, s₂, h, hbs, rfl, rfl⟩
    · exact ⟨n, Nat.le_refl n, chain_append.2 (.inl ⟨hk, h⟩)⟩
    · have hskip : v.Sees .done .skip 1 [] := sees_skip.2 ⟨.inr ⟨rfl, rfl⟩, rfl⟩
      exact ⟨n₁ + (1 + n₂), by omega,
        chain_append.2 (.inr ⟨_, _, _, _, h, .past hskip hbs, rfl, by simp⟩)⟩

theorem condenses_seq_nested (h : 2 ≤ cs.length) :
    v.Condenses (collapse .seq (as ++ .comp .seq cs :: bs)) (collapse .seq (as ++ (cs ++ bs))) := by
  have hcs : cs ≠ [] := by
    rintro rfl
    simp at h
  refine condenses_of_iff fun k n s => ?_
  rw [sees_collapse_seq (by simp), sees_collapse_seq (by simp [hcs])]
  have hchain : ∀ {k n s}, Chain v k (.comp .seq cs :: bs) n s ↔ Chain v k (cs ++ bs) n s := by
    intro k n s
    simp only [chain_cons, chain_append, ← collapse_of_two_le h, sees_collapse_seq hcs]
  exact ⟨chain_prepend hchain.1, chain_prepend hchain.2⟩

/-- What follows a child that never terminates is never reached. -/
theorem condenses_seq_end (ht : endsSequence t = true) :
    v.Condenses (collapse .seq (as ++ t :: bs)) (collapse .seq (as ++ [t])) := by
  have hdone : ∀ n s, ¬ v.Sees .done t n s := by
    intro n s h
    have hmoves : t.moves v.key = [] := by cases t <;> simp_all [endsSequence, moves]
    obtain ⟨-, -, h | ⟨_, _, h, -⟩⟩ := (sees_of_moves_nil hmoves).1 h <;> cases h
  refine condenses_of_iff fun k n s => ?_
  rw [sees_collapse_seq (by simp), sees_collapse_seq (by simp)]
  have hchain : ∀ {k n s}, Chain v k (t :: bs) n s ↔ Chain v k [t] n s := by
    intro k n s
    simp [chain_cons, hdone]
  exact ⟨chain_prepend hchain.1, chain_prepend hchain.2⟩

/-! ## Parallel compositions -/

theorem condenses_par_singleton (t : Trace) : v.Condenses (.comp .par [t]) t where
  forth hsees := by
    rcases sees_par_singleton.1 hsees with ⟨-, h⟩ | ⟨n₁, n₂, h, hskip, rfl⟩
    · exact ⟨_, Nat.le_refl _, h⟩
    · obtain ⟨⟨rfl, rfl⟩ | ⟨rfl, rfl⟩, -⟩ := sees_skip.1 hskip
      · exact h.going_of_start List.prefix_rfl
      · exact ⟨n₁, by omega, h⟩
  back {k n s} h := by
    by_cases hk : k = .done
    · subst hk
      exact ⟨n + 1, by omega,
        sees_par_singleton.2 (.inr ⟨n, 1, h, sees_skip.2 ⟨.inr ⟨rfl, rfl⟩, rfl⟩, rfl⟩)⟩
    · exact ⟨n, Nat.le_refl n, sees_par_singleton.2 (.inl ⟨hk, h⟩)⟩

theorem shares_prepend (h : ∀ {k n s}, Shares v k ts n s → Shares v k us n s) :
    Shares v k (as ++ ts) n s → Shares v k (as ++ us) n s := by
  rw [shares_append, shares_append]
  rintro ⟨k₁, k₂, n₁, n₂, s₁, s₂, hj, has, hts, hs, rfl⟩
  exact ⟨k₁, k₂, n₁, n₂, s₁, s₂, hj, has, h hts, hs, rfl⟩

theorem shares_going_of_done (hne : ts ≠ []) (h : Shares v .done ts n s) :
    ∃ m ≤ n, Shares v .going ts m s := by
  obtain ⟨m, hm, h⟩ := ((sees_collapse_par hne).2 h).going_of_start List.prefix_rfl
  exact ⟨m, hm, (sees_collapse_par hne).1 h⟩

theorem shares_skip_cons (h : Shares v k (.skip :: bs) n s) :
    (∃ m ≤ n, Shares v k bs m s) ∨ k = .going ∧ bs = [] ∧ n = 0 ∧ s = [] := by
  obtain ⟨k₁, k₂, n₁, n₂, s₁, s₂, hj, hskip, hbs, hs, rfl⟩ := shares_cons.1 h
  obtain ⟨hfirst, rfl⟩ := sees_skip.1 hskip
  rw [Interleaves.nil_left_iff] at hs
  subst hs
  clear h hskip
  rcases hfirst with ⟨rfl, rfl⟩ | ⟨rfl, rfl⟩
  · cases hj with
    | left hk hi =>
        cases k₂ with
        | going => exact .inl ⟨n₂, by omega, hbs⟩
        | done =>
            by_cases hne : bs = []
            · subst hne
              obtain ⟨-, rfl, rfl⟩ := shares_nil.1 hbs
              exact .inr ⟨rfl, rfl, rfl, rfl⟩
            · obtain ⟨m, hm, h⟩ := shares_going_of_done hne hbs
              exact .inl ⟨m, by omega, h⟩
        | active mark => exact hi.elim
    | right => exact .inl ⟨n₂, by omega, hbs⟩
  · rw [← hj.symm.eq_of_done_right]
    exact .inl ⟨n₂, by omega, hbs⟩

theorem condenses_par_skip :
    v.Condenses (collapse .par (as ++ .skip :: bs)) (collapse .par (as ++ bs)) := by
  by_cases hne : as ++ bs = []
  · obtain ⟨rfl, rfl⟩ := List.append_eq_nil_iff.1 hne
    exact .refl v .skip
  constructor
  · intro k n s h
    rw [sees_collapse_par (by simp)] at h
    simp only [sees_collapse_par hne]
    obtain ⟨k₁, k₂, n₁, n₂, s₁, s₂, hj, has, hbs, hs, rfl⟩ := shares_append.1 h
    rcases shares_skip_cons hbs with ⟨m, hm, hbs⟩ | ⟨rfl, rfl, rfl, rfl⟩
    · exact ⟨n₁ + m, by omega, shares_append.2 ⟨_, _, _, _, _, _, hj, has, hbs, hs, rfl⟩⟩
    · rw [Interleaves.nil_right_iff] at hs
      subst hs
      rw [List.append_nil] at hne ⊢
      cases hj with
      | left => exact ⟨n₁, Nat.le_refl _, has⟩
      | right _ hi =>
          cases k₁ with
          | going => exact ⟨n₁, Nat.le_refl _, has⟩
          | done => exact shares_going_of_done hne has
          | active mark => exact hi.elim
  · intro k n s h
    rw [sees_collapse_par hne] at h
    simp only [sees_collapse_par (List.append_ne_nil_of_right_ne_nil as (List.cons_ne_nil _ bs))]
    obtain ⟨k₁, k₂, n₁, n₂, s₁, s₂, hj, has, hbs, hs, rfl⟩ := shares_append.1 h
    have hskip : v.Sees .done .skip 1 [] := sees_skip.2 ⟨.inr ⟨rfl, rfl⟩, rfl⟩
    exact ⟨n₁ + (1 + n₂), by omega, shares_append.2 ⟨_, _, _, _, _, _, hj, has,
      .cons (Joins.done_right k₂).symm hskip hbs (.nil_left s₂), hs, rfl⟩⟩

theorem condenses_par_nested (h : 2 ≤ cs.length) :
    v.Condenses (collapse .par (as ++ .comp .par cs :: bs)) (collapse .par (as ++ (cs ++ bs))) := by
  have hcs : cs ≠ [] := by
    rintro rfl
    simp at h
  refine condenses_of_iff fun k n s => ?_
  rw [sees_collapse_par (by simp), sees_collapse_par (by simp [hcs])]
  have hshares : ∀ {k n s}, Shares v k (.comp .par cs :: bs) n s ↔ Shares v k (cs ++ bs) n s := by
    intro k n s
    simp only [shares_cons, shares_append, ← collapse_of_two_le h, sees_collapse_par hcs]
  exact ⟨shares_prepend hshares.1, shares_prepend hshares.2⟩

/-! ## External choices -/

theorem Picks.exists_child (h : Picks v k ts n s) : ∃ t ∈ ts, ∃ m ≤ n, v.Sees k t m s := by
  induction h with
  | here h _ => exact ⟨_, List.mem_cons_self, _, by omega, h⟩
  | there _ _ ih =>
      obtain ⟨t, ht, m, hm, h⟩ := ih
      exact ⟨t, List.mem_cons_of_mem _ ht, m, by omega, h⟩

theorem picks_of_mem (ht : t ∈ ts) (h : v.Sees k t n s) : Picks v k ts n s := by
  obtain ⟨as, bs, rfl⟩ := List.append_of_mem ht
  exact picks_of_sees h

theorem Rests.of_sublist (h : Rests v us n) (hsub : us.Sublist ts) : Rests v ts n := by
  induction hsub generalizing n with
  | slnil => exact h
  | cons t _ ih => exact Nat.zero_add n ▸ .cons (.going t) (ih h)
  | cons_cons t _ ih =>
      cases h with
      | cons h h' => exact .cons h (ih h')

theorem Picks.of_sublist (h : Picks v k us n s) (hsub : us.Sublist ts) : Picks v k ts n s := by
  induction hsub generalizing n with
  | slnil => exact h
  | cons t _ ih => exact Nat.zero_add n ▸ .there (.going t) (ih h)
  | cons_cons t hsub ih =>
      cases h with
      | here h h' => exact .here h (h'.of_sublist hsub)
      | there h h' => exact .there h (ih h')

theorem Rests.picks (h : Rests v ts n) (hts : ts ≠ []) : Picks v.bare .going ts n [] := by
  have rests : ∀ {ts n}, Rests v ts n → Rests v.bare ts n := by
    intro ts n h
    induction h with
    | nil => exact .nil
    | cons h _ ih => exact .cons h ih
  cases h with
  | nil => exact absurd rfl hts
  | cons h h' => exact .here h (rests h')

theorem rests_append : Rests v (as ++ bs) n ↔
    ∃ n₁ n₂, Rests v as n₁ ∧ Rests v bs n₂ ∧ n = n₁ + n₂ := by
  induction as generalizing n with
  | nil =>
      constructor
      · intro h
        exact ⟨0, n, .nil, h, (Nat.zero_add n).symm⟩
      · rintro ⟨n₁, n₂, h₁, h₂, rfl⟩
        cases h₁
        simpa using h₂
  | cons a as ih =>
      constructor
      · intro h
        cases h with
        | cons h h' =>
            obtain ⟨n₁, n₂, h₁, h₂, rfl⟩ := ih.1 h'
            exact ⟨_, n₂, .cons h h₁, h₂, by omega⟩
      · rintro ⟨n₁, n₂, h₁, h₂, rfl⟩
        cases h₁ with
        | cons h h' =>
            rw [Nat.add_assoc]
            exact .cons h (ih.2 ⟨_, n₂, h', h₂, rfl⟩)

theorem picks_append : Picks v k (as ++ bs) n s ↔
    (∃ n₁ n₂, Picks v k as n₁ s ∧ Rests v bs n₂ ∧ n = n₁ + n₂) ∨
      ∃ n₁ n₂, Rests v as n₁ ∧ Picks v k bs n₂ s ∧ n = n₁ + n₂ := by
  induction as generalizing n with
  | nil =>
      constructor
      · intro h
        exact .inr ⟨0, n, .nil, h, (Nat.zero_add n).symm⟩
      · rintro (⟨n₁, n₂, h₁, h₂, rfl⟩ | ⟨n₁, n₂, h₁, h₂, rfl⟩)
        · cases h₁
        · cases h₁
          simpa using h₂
  | cons a as ih =>
      constructor
      · intro h
        cases h with
        | here h h' =>
            obtain ⟨n₁, n₂, h₁, h₂, rfl⟩ := rests_append.1 h'
            exact .inl ⟨_, n₂, .here h h₁, h₂, by omega⟩
        | there h h' =>
            rcases ih.1 h' with ⟨n₁, n₂, h₁, h₂, rfl⟩ | ⟨n₁, n₂, h₁, h₂, rfl⟩
            · exact .inl ⟨_, n₂, .there h h₁, h₂, by omega⟩
            · exact .inr ⟨_, n₂, .cons h h₁, h₂, by omega⟩
      · rintro (⟨n₁, n₂, h₁, h₂, rfl⟩ | ⟨n₁, n₂, h₁, h₂, rfl⟩)
        · cases h₁ with
          | here h h' =>
              rw [Nat.add_assoc]
              exact .here h (rests_append.2 ⟨_, n₂, h', h₂, rfl⟩)
          | there h h' =>
              rw [Nat.add_assoc]
              exact .there h (ih.2 (.inl ⟨_, n₂, h', h₂, rfl⟩))
        · cases h₁ with
          | cons h h' =>
              rw [Nat.add_assoc]
              exact .there h (ih.2 (.inr ⟨_, n₂, h', h₂, rfl⟩))

theorem Picks.nested (hcs : cs ≠ []) (h : Picks v k (as ++ (cs ++ bs)) n s) :
    Picks v k (as ++ .comp .det cs :: bs) n s := by
  rcases picks_append.1 h with ⟨n₁, n₂, has, hrest, rfl⟩ | ⟨n₁, n₂, has, hrest, rfl⟩
  · obtain ⟨n₃, n₄, hcs', hbs, rfl⟩ := rests_append.1 hrest
    exact picks_append.2 (.inl ⟨n₁, _, has, .cons ((sees_det hcs).2 (hcs'.picks hcs)) hbs, rfl⟩)
  · refine picks_append.2 (.inr ⟨n₁, n₂, has, ?_, rfl⟩)
    rcases picks_append.1 hrest with ⟨n₃, n₄, hcs', hbs, rfl⟩ | ⟨n₃, n₄, hcs', hbs, rfl⟩
    · exact .here ((sees_det hcs).2 hcs') hbs
    · exact .there ((sees_det hcs).2 (hcs'.picks hcs)) hbs

theorem condenses_det_nested (hcs : cs ≠ []) :
    v.Condenses (collapse .det (as ++ .comp .det cs :: bs)) (collapse .det (as ++ (cs ++ bs))) := by
  constructor
  · intro k n s h
    rw [sees_collapse_det (by simp)] at h
    obtain ⟨t, ht, m, hm, h⟩ := h.exists_child
    simp only [sees_collapse_det (show as ++ (cs ++ bs) ≠ [] by simp [hcs])]
    rcases List.mem_append.1 ht with ht | ht
    · exact ⟨m, hm, picks_of_mem (by simp [ht]) h⟩
    · rcases List.mem_cons.1 ht with rfl | ht
      · obtain ⟨c, hc, m', hm', h⟩ := ((sees_det hcs).1 h).exists_child
        exact ⟨m', by omega, picks_of_mem (by simp [hc]) h⟩
      · exact ⟨m, hm, picks_of_mem (by simp [ht]) h⟩
  · intro k n s h
    rw [sees_collapse_det (by simp [hcs])] at h
    exact ⟨n, Nat.le_refl n, (sees_collapse_det (by simp)).2 (h.nested hcs)⟩

/-! ## Internal choices -/

/-- What it costs to pick one of the children. -/
def pickCost (ts : List Trace) : Nat := if 2 ≤ ts.length then 1 else 0

theorem sees_collapse_ndet (hts : ts ≠ []) : v.Sees k (collapse .ndet ts) n s ↔
    (k = .going ∧ n = 0 ∧ s = []) ∨ ∃ t ∈ ts, ∃ m, n = m + pickCost ts ∧ v.Sees k t m s := by
  match ts with
  | [t] =>
      constructor
      · intro h
        exact .inr ⟨t, List.mem_singleton_self t, n, rfl, h⟩
      · rintro (⟨rfl, rfl, rfl⟩ | ⟨c, hc, m, rfl, h⟩)
        · exact .going _
        · rw [List.mem_singleton.1 hc] at h
          exact h
  | t :: u :: ts =>
      change v.Sees k (.comp .ndet (t :: u :: ts)) n s ↔ _
      rw [sees_ndet hts]
      refine or_congr_right ⟨?_, ?_⟩
      · rintro ⟨m, rfl, c, hc, h⟩
        exact ⟨c, hc, m, by simp [pickCost], h⟩
      · rintro ⟨c, hc, m, rfl, h⟩
        exact ⟨m, by simp [pickCost], c, hc, h⟩

theorem pickCost_mono (h : us.length ≤ ts.length) : pickCost us ≤ pickCost ts := by
  unfold pickCost
  split <;> split <;> omega

theorem condenses_ndet_nested (hcs : 2 ≤ cs.length) :
    v.Condenses (collapse .ndet (as ++ .comp .ndet cs :: bs))
      (collapse .ndet (as ++ (cs ++ bs))) := by
  have hne : cs ≠ [] := List.length_pos_iff.1 (by omega)
  have hcost : pickCost (as ++ (cs ++ bs)) = 1 := if_pos (by simp; omega)
  have hcost' : ∀ c ∈ as ++ bs, pickCost (as ++ .comp .ndet cs :: bs) = 1 := by
    intro c hc
    have := List.length_pos_of_mem hc
    exact if_pos (by simp at this ⊢; omega)
  constructor
  · intro k n s hsees
    simp only [sees_collapse_ndet (show as ++ (cs ++ bs) ≠ [] by simp [hne]), hcost]
    rcases (sees_collapse_ndet (by simp)).1 hsees with ⟨rfl, rfl, rfl⟩ | ⟨c, hc, m, rfl, h⟩
    · exact ⟨0, Nat.le_refl 0, .inl ⟨rfl, rfl, rfl⟩⟩
    · rcases List.mem_cons.1 (List.perm_middle.mem_iff.1 hc) with rfl | hside
      · rcases (sees_ndet hne).1 h with ⟨rfl, rfl, rfl⟩ | ⟨m', rfl, c, hc, h⟩
        · exact ⟨0, by omega, .inl ⟨rfl, rfl, rfl⟩⟩
        · exact ⟨m' + 1, by omega, .inr ⟨c, by simp [hc], m', rfl, h⟩⟩
      · have := hcost' c hside
        refine ⟨m + 1, by omega, .inr ⟨c, ?_, m, rfl, h⟩⟩
        rcases List.mem_append.1 hside with hc | hc <;> simp [hc]
  · intro k n s hsees
    simp only [sees_collapse_ndet (List.append_ne_nil_of_right_ne_nil as (List.cons_ne_nil _ bs))]
    rcases (sees_collapse_ndet (by simp [hne])).1 hsees with ⟨rfl, rfl, rfl⟩ | ⟨c, hc, m, rfl, h⟩
    · exact ⟨0, Nat.le_refl 0, .inl ⟨rfl, rfl, rfl⟩⟩
    · rw [hcost]
      by_cases hcs' : c ∈ cs
      · exact ⟨_, Nat.le_add_right .., .inr ⟨.comp .ndet cs, by simp, m + 1, rfl,
          (sees_ndet hne).2 (.inr ⟨m, rfl, c, hcs', h⟩)⟩⟩
      · have hside : c ∈ as ++ bs := by simpa [hcs'] using hc
        refine ⟨m + 1, Nat.le_refl _, .inr ⟨c, ?_, m, by rw [hcost' c hside], h⟩⟩
        rcases List.mem_append.1 hside with hc | hc <;> simp [hc]

/-! ## All operators -/

theorem sees_going_of_stop (h : v.Sees k .stop n s) (u : Trace) : v.Sees k u 0 s := by
  obtain ⟨rfl, -, rfl⟩ := sees_stop.1 h
  exact .going u

/-- Alternatives that are repeated or can do nothing may be left out. -/
theorem condenses_choice {op : Operator} (hop : op = .det ∨ op = .ndet) (hsub : us.Sublist ts)
    (hleft : ∀ t ∈ ts, t ∈ us ∨ t = .stop) (hus : us ≠ []) :
    v.Condenses (collapse op ts) (collapse op us) := by
  have hts : ts ≠ [] := fun h => hus (List.sublist_nil.1 (h ▸ hsub))
  rcases hop with rfl | rfl
  · constructor
    · intro k n s hsees
      obtain ⟨t, ht, m, hm, h⟩ := ((sees_collapse_det hts).1 hsees).exists_child
      rcases hleft t ht with ht | rfl
      · exact ⟨m, hm, (sees_collapse_det hus).2 (picks_of_mem ht h)⟩
      · exact ⟨0, Nat.zero_le n, sees_going_of_stop h _⟩
    · intro k n s hsees
      have h := (sees_collapse_det hus).1 hsees
      exact ⟨n, Nat.le_refl n, (sees_collapse_det hts).2 (h.of_sublist hsub)⟩
  · have hcost := pickCost_mono hsub.length_le
    constructor
    · intro k n s hsees
      rcases (sees_collapse_ndet hts).1 hsees with ⟨rfl, rfl, rfl⟩ | ⟨t, ht, m, rfl, h⟩
      · exact ⟨0, Nat.le_refl 0, .going _⟩
      · rcases hleft t ht with ht | rfl
        · exact ⟨m + pickCost us, by omega, (sees_collapse_ndet hus).2 (.inr ⟨t, ht, m, rfl, h⟩)⟩
        · exact ⟨0, Nat.zero_le _, sees_going_of_stop h _⟩
    · intro k n s hsees
      rcases (sees_collapse_ndet hus).1 hsees with ⟨rfl, rfl, rfl⟩ | ⟨t, ht, m, rfl, h⟩
      · exact ⟨0, Nat.le_refl 0, .going _⟩
      · exact ⟨m + pickCost ts, by omega,
          (sees_collapse_ndet hts).2 (.inr ⟨t, hsub.subset ht, m, rfl, h⟩)⟩

/-- A unit may be left out. -/
theorem condenses_unit (op : Operator) :
    v.Condenses (collapse op (as ++ unit op :: bs)) (collapse op (as ++ bs)) := by
  have choice : op = .det ∨ op = .ndet → unit op = .stop →
      v.Condenses (collapse op (as ++ unit op :: bs)) (collapse op (as ++ bs)) := by
    intro hop hunit
    by_cases hne : as ++ bs = []
    · obtain ⟨rfl, rfl⟩ := List.append_eq_nil_iff.1 hne
      exact .refl v _
    · refine condenses_choice hop (by simp) (fun t ht => ?_) hne
      rw [← hunit]
      exact (List.mem_cons.1 (List.perm_middle.mem_iff.1 ht)).symm
  cases op with
  | seq => exact condenses_seq_skip
  | par => exact condenses_par_skip
  | det => exact choice (.inl rfl) rfl
  | ndet => exact choice (.inr rfl) rfl

/-- A composition inside one by the same operator may be spread out. -/
theorem condenses_nested (op : Operator) (hcs : 2 ≤ cs.length) :
    v.Condenses (collapse op (as ++ .comp op cs :: bs)) (collapse op (as ++ (cs ++ bs))) := by
  cases op with
  | seq => exact condenses_seq_nested hcs
  | par => exact condenses_par_nested hcs
  | det => exact condenses_det_nested (List.length_pos_iff.1 (by omega))
  | ndet => exact condenses_ndet_nested hcs

/-- The wrapper around fewer than two children may be left out. -/
theorem condenses_collapse (op : Operator) (ts : List Trace) :
    v.Condenses (.comp op ts) (collapse op ts) := by
  match ts with
  | [] =>
      constructor
      · intro k n s hsees
        rcases (sees_comp_nil op).1 hsees with ⟨rfl, rfl, rfl⟩ | ⟨m, rfl, h⟩
        · exact ⟨0, Nat.le_refl 0, .going _⟩
        · exact ⟨m, Nat.le_succ m, h⟩
      · intro k n s h
        exact ⟨n + 1, Nat.le_succ n, (sees_comp_nil op).2 (.inr ⟨n, rfl, h⟩)⟩
  | [t] =>
      cases op with
      | seq => exact condenses_seq_singleton t
      | par => exact condenses_par_singleton t
      | det =>
          refine condenses_of_iff fun k n s => ?_
          rw [sees_det (by simp)]
          exact picks_singleton
      | ndet =>
          constructor
          · intro k n s hsees
            rcases (sees_ndet (by simp)).1 hsees with ⟨rfl, rfl, rfl⟩ | ⟨m, rfl, c, hc, h⟩
            · exact ⟨0, Nat.le_refl 0, .going _⟩
            · exact ⟨m, Nat.le_succ m, List.mem_singleton.1 hc ▸ h⟩
          · intro k n s h
            exact ⟨n + 1, Nat.le_succ n, (sees_ndet (by simp)).2 (.inr ⟨n, rfl, t, by simp, h⟩)⟩
  | t :: u :: ts => exact .refl v _

end ProcessContracts.View
