import ProcessContracts.Proofs.Components
import ProcessContracts.Proofs.Interleaving
import ProcessContracts.Proofs.Sight

/-!
# Sightings of a parallel composition

What a parallel composition shows is shared out among its children: each has a sighting of its own,
their labels are interleaved and their steps added. The composition is done when all children are;
an active component has to be found in one of them.
-/

namespace ProcessContracts

/-- The sight of a child that does not decide what the composition shows. -/
def Sight.IsBystander : Sight → Prop
  | .going | .done => True
  | .active _ => False

/-- `Joins k₁ k₂ k`: two children side by side that show `k₁` and `k₂` show `k` together. -/
inductive Joins : Sight → Sight → Sight → Prop
  | done : Joins .done .done .done
  | left {k i} : k ≠ .done → i.IsBystander → Joins k i k
  | right {k i} : k ≠ .done → i.IsBystander → Joins i k k

theorem Joins.assoc_right {k₁ k₂ k₃ k k' : Sight} (h : Joins k₁ k₂ k') (h' : Joins k' k₃ k) :
    ∃ k'', Joins k₂ k₃ k'' ∧ Joins k₁ k'' k := by
  cases h with
  | done =>
      cases h' with
      | done => exact ⟨_, .done, .done⟩
      | left hk => exact absurd rfl hk
      | right hk hi => exact ⟨_, .right hk trivial, .right hk trivial⟩
  | left hk hi =>
      cases h' with
      | done => exact absurd rfl hk
      | left hk' hi' =>
          cases k₂ with
          | going => exact ⟨.going, .left (by simp) hi', .left hk trivial⟩
          | done =>
              cases k₃ with
              | going => exact ⟨.going, .right (by simp) trivial, .left hk trivial⟩
              | done => exact ⟨.done, .done, .left hk trivial⟩
              | active mark => exact hi'.elim
          | active mark => exact hi.elim
      | right hk' hi' => exact ⟨_, .right hk' hi, .right hk' hi'⟩
  | right hk hi =>
      cases h' with
      | done => exact absurd rfl hk
      | left hk' hi' => exact ⟨_, .left hk hi', .right hk hi⟩
      | right hk' hi' => exact ⟨_, .right hk' hi', .right hk' hi⟩

theorem Joins.symm {k₁ k₂ k : Sight} (h : Joins k₁ k₂ k) : Joins k₂ k₁ k := by
  cases h with
  | done => exact .done
  | left hk hi => exact .right hk hi
  | right hk hi => exact .left hk hi

theorem Joins.assoc_left {k₁ k₂ k₃ k k' : Sight} (h : Joins k₂ k₃ k') (h' : Joins k₁ k' k) :
    ∃ k'', Joins k₁ k₂ k'' ∧ Joins k'' k₃ k := by
  obtain ⟨k'', h₁, h₂⟩ := h.symm.assoc_right h'.symm
  exact ⟨k'', h₁.symm, h₂.symm⟩

theorem Joins.eq_of_done_right {k₁ k : Sight} (h : Joins k₁ .done k) : k₁ = k := by
  cases h with
  | done => rfl
  | left => rfl
  | right hk => exact absurd rfl hk

theorem Joins.done_right (k : Sight) : Joins k .done k := by
  by_cases hk : k = .done
  · exact hk ▸ .done
  · exact .left hk trivial

namespace View

open Trace

inductive Shares (v : View) : Sight → List Trace → Nat → List Label → Prop
  | nil : Shares v .done [] 0 []
  | cons {k₁ k₂ k t ts n₁ n₂ s₁ s₂ s} : Joins k₁ k₂ k → v.Sees k₁ t n₁ s₁ → Shares v k₂ ts n₂ s₂ →
      Interleaves s₁ s₂ s → Shares v k (t :: ts) (n₁ + n₂) s

variable {v : View} {k : Sight} {t : Trace} {ts us : List Trace} {n : Nat} {s : List Label}

theorem shares_nil : Shares v k [] n s ↔ k = .done ∧ n = 0 ∧ s = [] := by
  constructor
  · intro h
    cases h
    exact ⟨rfl, rfl, rfl⟩
  · rintro ⟨rfl, rfl, rfl⟩
    exact .nil

theorem shares_cons : Shares v k (t :: ts) n s ↔ ∃ k₁ k₂ n₁ n₂ s₁ s₂, Joins k₁ k₂ k ∧
    v.Sees k₁ t n₁ s₁ ∧ Shares v k₂ ts n₂ s₂ ∧ Interleaves s₁ s₂ s ∧ n = n₁ + n₂ := by
  constructor
  · intro h
    cases h with
    | cons hj h h' hs => exact ⟨_, _, _, _, _, _, hj, h, h', hs, rfl⟩
  · rintro ⟨k₁, k₂, n₁, n₂, s₁, s₂, hj, h, h', hs, rfl⟩
    exact .cons hj h h' hs

theorem shares_singleton : Shares v k [t] n s ↔ v.Sees k t n s := by
  rw [shares_cons]
  constructor
  · rintro ⟨k₁, k₂, n₁, n₂, s₁, s₂, hj, h, h', hs, rfl⟩
    obtain ⟨rfl, rfl, rfl⟩ := shares_nil.1 h'
    rw [Interleaves.nil_right_iff] at hs
    exact hs ▸ hj.eq_of_done_right ▸ h
  · intro h
    exact ⟨k, .done, n, 0, s, [], .done_right k, h, .nil, .nil_right s, rfl⟩

theorem shares_append : Shares v k (ts ++ us) n s ↔ ∃ k₁ k₂ n₁ n₂ s₁ s₂, Joins k₁ k₂ k ∧
    Shares v k₁ ts n₁ s₁ ∧ Shares v k₂ us n₂ s₂ ∧ Interleaves s₁ s₂ s ∧ n = n₁ + n₂ := by
  induction ts generalizing k n s with
  | nil =>
      constructor
      · intro h
        exact ⟨.done, k, 0, n, [], s, (Joins.done_right k).symm, .nil, h, .nil_left s, by simp⟩
      · rintro ⟨k₁, k₂, n₁, n₂, s₁, s₂, hj, h, h', hs, rfl⟩
        obtain ⟨rfl, rfl, rfl⟩ := shares_nil.1 h
        rw [Interleaves.nil_left_iff] at hs
        simpa [← hs, ← hj.symm.eq_of_done_right] using h'
  | cons t ts ih =>
      rw [List.cons_append, shares_cons]
      constructor
      · rintro ⟨k₁, k₂, n₁, n₂, s₁, s₂, hj, h, h', hs, rfl⟩
        obtain ⟨k₃, k₄, n₃, n₄, s₃, s₄, hj', h₃, h₄, hs', rfl⟩ := ih.1 h'
        obtain ⟨k₅, hj₁, hj₂⟩ := hj'.assoc_left hj
        obtain ⟨s₅, hs₁, hs₂⟩ := hs'.assoc_left hs
        exact ⟨k₅, k₄, n₁ + n₃, n₄, s₅, s₄, hj₂, .cons hj₁ h h₃ hs₁, h₄, hs₂, by omega⟩
      · rintro ⟨k₁, k₂, n₁, n₂, s₁, s₂, hj, h, h', hs, rfl⟩
        obtain ⟨k₃, k₄, n₃, n₄, s₃, s₄, hj', h₃, h₄, hs', rfl⟩ := shares_cons.1 h
        obtain ⟨k₅, hj₁, hj₂⟩ := hj'.assoc_right hj
        obtain ⟨s₅, hs₁, hs₂⟩ := hs'.assoc_right hs
        exact ⟨k₃, k₅, n₃, n₄ + n₂, s₃, s₅, hj₂, h₃,
          ih.2 ⟨_, _, _, _, _, _, hj₁, h₄, h', hs₁, rfl⟩, hs₂, by omega⟩

/-! ## From a run to the shares -/

theorem shares_going (hts : ts ≠ []) : Shares v .going ts 0 [] := by
  induction ts with
  | nil => exact absurd rfl hts
  | cons t ts ih =>
      cases ts with
      | nil => exact shares_singleton.2 (.going t)
      | cons u ts =>
          exact .cons (.left (i := .going) (by simp) trivial) (.going t)
            (ih (List.cons_ne_nil u ts)) .nil

theorem shares_active {mark : Mark} {l : Trace} (ht : t ∈ ts) (hl : l ∈ t.active)
    (hp : mark.holds l) : Shares v (.active mark) ts 0 [] := by
  obtain ⟨as, bs, rfl⟩ := List.append_of_mem ht
  have hbs : ∃ i, i.IsBystander ∧ Shares v i bs 0 [] := by
    cases bs with
    | nil => exact ⟨.done, trivial, .nil⟩
    | cons u bs => exact ⟨.going, trivial, shares_going (List.cons_ne_nil u bs)⟩
  have has : ∃ i, i.IsBystander ∧ Shares v i as 0 [] := by
    cases as with
    | nil => exact ⟨.done, trivial, .nil⟩
    | cons u as => exact ⟨.going, trivial, shares_going (List.cons_ne_nil u as)⟩
  obtain ⟨i, hi, hbs⟩ := hbs
  obtain ⟨j, hj, has⟩ := has
  exact shares_append.2 ⟨j, .active mark, 0, 0, [], [], .right (by simp) hj, has,
    .cons (.left (by simp) hi) (.active hl hp) hbs .nil, .nil, rfl⟩

/-- A step that a child takes leaves the shares of the others as they are. -/
theorem shares_step {as bs : List Trace} {m : Move} {t' : Trace} (hm : (m, t') ∈ t.moves v.key)
    (hne : m ≠ .visible .tick) (h : Shares v k (as ++ t' :: bs) n s) :
    Shares v k (as ++ t :: bs) (n + 1) ((v.noted m).toList ++ s) := by
  obtain ⟨k₁, k₂, n₁, n₂, s₁, s₂, hj, has, hbs, hs, rfl⟩ := shares_append.1 h
  obtain ⟨k₃, k₄, n₃, n₄, s₃, s₄, hj', ht, hbs', hs', rfl⟩ := shares_cons.1 hbs
  exact shares_append.2 ⟨k₁, k₂, n₁, n₃ + 1 + n₄, s₁, _, hj, has,
    .cons hj' (.step hm hne ht) hbs' (hs'.append_left _), hs.append_right _, by omega⟩

theorem shares_tick {as bs : List Trace} {t' : Trace}
    (hm : (.visible .tick, t') ∈ t.moves v.key) (h : Shares v k (as ++ bs) n s) :
    Shares v k (as ++ t :: bs) (n + 1) s := by
  obtain ⟨k₁, k₂, n₁, n₂, s₁, s₂, hj, has, hbs, hs, rfl⟩ := shares_append.1 h
  exact shares_append.2 ⟨k₁, k₂, n₁, 1 + n₂, s₁, s₂, hj, has,
    .cons (Joins.done_right k₂).symm (.done hm) hbs (.nil_left _), hs, by omega⟩

theorem shares_of_sees_par (hts : ts ≠ []) (h : v.Sees k (collapse .par ts) n s) :
    Shares v k ts n s := by
  induction n generalizing ts s with
  | zero =>
      match ts with
      | [t] => exact shares_singleton.2 h
      | t :: u :: ts =>
          cases h with
          | going => exact shares_going hts
          | active hl hp =>
              obtain ⟨c, hc, hl⟩ := mem_active_par.1 hl
              exact shares_active hc hl hp
  | succ n ih =>
      match ts with
      | [t] => exact shares_singleton.2 h
      | t :: u :: ts =>
          cases h with
          | done hm =>
              obtain ⟨as, c, bs, m', t', -, -, ⟨-, h, -⟩ | ⟨hne, rfl, -⟩⟩ :=
                (mem_moves_par hts).1 hm
              · cases h
              · exact absurd rfl hne
          | step hm hne h =>
              obtain ⟨as, c, bs, m', t', hsplit, hm', h'⟩ := (mem_moves_par hts).1 hm
              have hlen := congrArg List.length hsplit
              rw [hsplit]
              obtain ⟨rfl, rfl, rfl⟩ | ⟨hne', rfl, rfl⟩ := h'
              · refine shares_tick hm' (ih (fun hnil => ?_) h)
                simp [List.append_eq_nil_iff.1 hnil] at hlen
              · have hlen' : 2 ≤ (as ++ t' :: bs).length := by simp at hlen ⊢; omega
                refine shares_step hm' hne' (ih (by simp) ?_)
                rwa [collapse_of_two_le hlen']

/-! ## From the shares to a run -/

/-- A step of some child after which the shares have one step less. -/
def SharesNext (v : View) (k : Sight) (ts : List Trace) (n : Nat) (s : List Label) : Prop :=
  ∃ as t bs m t', ts = as ++ t :: bs ∧ (m, t') ∈ t.moves v.key ∧
    (m = .visible .tick ∧ Shares v k (as ++ bs) n s ∨
      m ≠ .visible .tick ∧ ∃ s', s = (v.noted m).toList ++ s' ∧ Shares v k (as ++ t' :: bs) n s')

theorem shares_zero (h : Shares v k ts 0 s) : s = [] ∧ (k = .done ∧ ts = [] ∨ k = .going ∨
    ∃ mark t l, k = .active mark ∧ t ∈ ts ∧ l ∈ t.active ∧ mark.holds l) := by
  induction ts generalizing k s with
  | nil =>
      obtain ⟨rfl, -, rfl⟩ := shares_nil.1 h
      exact ⟨rfl, .inl ⟨rfl, rfl⟩⟩
  | cons t ts ih =>
      obtain ⟨k₁, k₂, n₁, n₂, s₁, s₂, hj, ht, hts, hs, hn⟩ := shares_cons.1 h
      obtain ⟨rfl, rfl⟩ : n₁ = 0 ∧ n₂ = 0 := by omega
      obtain ⟨rfl, h'⟩ := ih hts
      cases ht with
      | going =>
          refine ⟨(Interleaves.nil_left_iff.1 hs).symm, ?_⟩
          rcases h' with ⟨rfl, rfl⟩ | rfl | ⟨mark, c, l, rfl, hc, hl, hp⟩
          · cases hj.eq_of_done_right
            exact .inr (.inl rfl)
          · cases hj <;> exact .inr (.inl rfl)
          · cases hj with
            | left _ hi => exact hi.elim
            | right => exact .inr (.inr ⟨mark, c, l, rfl, List.mem_cons_of_mem t hc, hl, hp⟩)
      | active hl hp =>
          refine ⟨(Interleaves.nil_left_iff.1 hs).symm, ?_⟩
          cases hj with
          | left => exact .inr (.inr ⟨_, t, _, rfl, List.mem_cons_self, hl, hp⟩)
          | right _ hi => exact hi.elim

theorem SharesNext.cons {k₁ k₂ : Sight} {n₁ n₂ : Nat} {s₁ s₂ s₃ : List Label}
    (hj : Joins k₁ k₂ k) (h : v.Sees k₁ t n₁ s₁) (h' : SharesNext v k₂ ts n₂ s₂)
    (hs : ∀ (l : Option Label) (s' : List Label), s₂ = l.toList ++ s' →
      ∃ s'', s₃ = l.toList ++ s'' ∧ Interleaves s₁ s' s'') :
    SharesNext v k (t :: ts) (n₁ + n₂) s₃ := by
  obtain ⟨as, c, bs, m, t', rfl, hm, ⟨rfl, h'⟩ | ⟨hne, s', rfl, h'⟩⟩ := h'
  · obtain ⟨s'', rfl, hs'⟩ := hs none s₂ rfl
    exact ⟨t :: as, c, bs, _, t', rfl, hm, .inl ⟨rfl, .cons hj h h' hs'⟩⟩
  · obtain ⟨s'', rfl, hs'⟩ := hs _ s' rfl
    exact ⟨t :: as, c, bs, _, t', rfl, hm, .inr ⟨hne, s'', rfl, .cons hj h h' hs'⟩⟩

theorem shares_next (h : Shares v k ts n s) : ∀ n', n = n' + 1 → SharesNext v k ts n' s := by
  induction h with
  | nil => rintro n' hn; cases hn
  | @cons k₁ k₂ k t ts n₁ n₂ s₁ s₂ s hj h h' hs ih =>
      -- While the first child rests, or waits for a label that comes later, another one moves.
      have other : ∀ n₂', n₂ = n₂' + 1 → (∀ (l : Option Label) (s' : List Label),
          s₂ = l.toList ++ s' → ∃ s'', s = l.toList ++ s'' ∧ Interleaves s₁ s' s'') →
          SharesNext v k (t :: ts) (n₁ + n₂') s :=
        fun n₂' hn hl => SharesNext.cons hj h (ih n₂' hn) hl
      rintro n' hn
      cases h with
      | going =>
          rw [Interleaves.nil_left_iff] at hs
          subst hs
          exact (Nat.zero_add n' ▸ other n' (by omega) fun l s' hs => ⟨s', hs, .nil_left s'⟩)
      | active =>
          rw [Interleaves.nil_left_iff] at hs
          subst hs
          exact (Nat.zero_add n' ▸ other n' (by omega) fun l s' hs => ⟨s', hs, .nil_left s'⟩)
      | done hm =>
          rw [Interleaves.nil_left_iff] at hs
          obtain rfl := hj.symm.eq_of_done_right
          obtain rfl : n₂ = n' := by omega
          exact ⟨[], t, ts, _, _, rfl, hm, .inl ⟨rfl, hs ▸ h'⟩⟩
      | @step _ _ u m n₁ s₁ hm hne h =>
          obtain rfl : n' = n₁ + n₂ := by omega
          cases hnote : v.noted m with
          | none =>
              simp only [hnote, Option.toList_none, List.nil_append] at hs
              exact ⟨[], t, ts, m, u, rfl, hm, .inr ⟨hne, s, by simp [hnote], .cons hj h h' hs⟩⟩
          | some l =>
              simp only [hnote, Option.toList_some, List.singleton_append] at hs other
              cases hs with
              | left hs =>
                  exact ⟨[], t, ts, m, u, rfl, hm, .inr ⟨hne, _, by simp [hnote], .cons hj h h' hs⟩⟩
              | @right y _ s₂ s hs =>
                  cases n₂ with
                  | zero => cases (shares_zero h').1
                  | succ n₂ =>
                      have := other n₂ rfl fun l' s' hl => by
                        cases l' with
                        | none =>
                            simp only [Option.toList_none, List.nil_append] at hl ⊢
                            exact ⟨_, rfl, hl ▸ .right hs⟩
                        | some l' =>
                            simp only [Option.toList_some, List.singleton_append,
                              List.cons.injEq] at hl ⊢
                            obtain ⟨rfl, rfl⟩ := hl
                            exact ⟨s, ⟨rfl, rfl⟩, hs⟩
                      rwa [show n₁ + (n₂ + 1) = n₁ + 1 + n₂ by omega]

theorem sees_par_of_shares (hts : ts ≠ []) (h : Shares v k ts n s) :
    v.Sees k (collapse .par ts) n s := by
  induction n generalizing ts s with
  | zero =>
      match ts with
      | [t] => exact shares_singleton.1 h
      | t :: u :: ts =>
          obtain ⟨rfl, ⟨-, h⟩ | rfl | ⟨mark, c, l, rfl, hc, hl, hp⟩⟩ := shares_zero h
          · cases h
          · exact .going _
          · exact .active (mem_active_par.2 ⟨c, hc, hl⟩) hp
  | succ n ih =>
      match ts with
      | [t] => exact shares_singleton.1 h
      | t :: u :: ts =>
          obtain ⟨as, c, bs, m, t', hsplit, hm, h'⟩ := shares_next h n rfl
          have hlen := congrArg List.length hsplit
          change v.Sees k (.comp .par (t :: u :: ts)) (n + 1) s
          rcases h' with ⟨rfl, hrest⟩ | ⟨hne, s', rfl, hrest⟩
          · refine .silent ((mem_moves_par hts).2
              ⟨as, c, bs, _, t', hsplit, hm, .inl ⟨rfl, rfl, rfl⟩⟩) (ih (fun hnil => ?_) hrest)
            simp [List.append_eq_nil_iff.1 hnil] at hlen
          · have hlen' : 2 ≤ (as ++ t' :: bs).length := by simp at hlen ⊢; omega
            refine .step ((mem_moves_par hts).2
              ⟨as, c, bs, _, t', hsplit, hm, .inr ⟨hne, rfl, rfl⟩⟩) hne ?_
            rw [← collapse_of_two_le hlen']
            exact ih (by simp) hrest

/-- A wrapper around a single child delays its termination. -/
theorem sees_par_singleton :
    v.Sees k (.comp .par [t]) n s ↔ (k ≠ .done ∧ v.Sees k t n s) ∨
      ∃ n₁ n₂, v.Sees .done t n₁ s ∧ v.Sees k .skip n₂ [] ∧ n = n₁ + n₂ := by
  have hmoves : ∀ t m u, (m, u) ∈ (Trace.comp .par [t]).moves v.key ↔ ∃ m' t',
      (m', t') ∈ t.moves v.key ∧ (m' = .visible .tick ∧ m = .tau ∧ u = .skip ∨
        m' ≠ .visible .tick ∧ m = m' ∧ u = .comp .par [t']) := by
    intro t m u
    rw [mem_moves_par (List.cons_ne_nil t [])]
    constructor
    · rintro ⟨as, c, bs, m', t', hsplit, hm, h⟩
      obtain ⟨rfl, rfl, rfl⟩ : as = [] ∧ t = c ∧ bs = [] := by
        cases as with
        | nil => simpa [eq_comm] using hsplit
        | cons a as => simp at hsplit
      exact ⟨m', t', hm, h⟩
    · rintro ⟨m', t', hm, h⟩
      exact ⟨[], t, [], m', t', rfl, hm, h⟩
  constructor
  · intro h
    generalize hc : Trace.comp .par [t] = c at h
    induction h generalizing t with
    | going => exact .inl ⟨by simp, .going t⟩
    | done hm =>
        subst hc
        obtain ⟨m', t', -, ⟨-, h, -⟩ | ⟨hne, rfl, -⟩⟩ := (hmoves ..).1 hm
        · cases h
        · exact absurd rfl hne
    | active hl hp =>
        subst hc
        exact .inl ⟨by simp, .active (by simpa [mem_active_par] using hl) hp⟩
    | step hm hne h ih =>
        subst hc
        obtain ⟨m', t', hm', ⟨rfl, rfl, rfl⟩ | ⟨hne', rfl, rfl⟩⟩ := (hmoves ..).1 hm
        · have hs := (sees_skip.1 h).2
          subst hs
          exact .inr ⟨1, _, .done hm', h, Nat.add_comm ..⟩
        · rcases ih rfl with ⟨hk, h⟩ | ⟨n₁, n₂, h₁, h₂, rfl⟩
          · exact .inl ⟨hk, .step hm' hne' h⟩
          · exact .inr ⟨n₁ + 1, n₂, .step hm' hne' h₁, h₂, by omega⟩
  · rintro (⟨hk, h⟩ | ⟨n₁, n₂, h, h', rfl⟩)
    · induction h with
      | going t => exact .going _
      | done => exact absurd rfl hk
      | active hl hp => exact .active (by simpa [mem_active_par] using hl) hp
      | step hm hne _ ih => exact .step ((hmoves ..).2 ⟨_, _, hm, .inr ⟨hne, rfl, rfl⟩⟩) hne (ih hk)
    · generalize hd : Sight.done = d at h
      induction h with
      | going t => cases hd
      | active => cases hd
      | done hm =>
          rw [Nat.add_comm]
          exact .silent ((hmoves ..).2 ⟨_, _, hm, .inl ⟨rfl, rfl, rfl⟩⟩) h'
      | step hm hne _ ih =>
          rw [Nat.add_right_comm]
          exact .step ((hmoves ..).2 ⟨_, _, hm, .inr ⟨hne, rfl, rfl⟩⟩) hne (ih hd)

/-- A parallel composition of at least one child, wrapped only if there are more. -/
theorem sees_collapse_par (hts : ts ≠ []) :
    v.Sees k (collapse .par ts) n s ↔ Shares v k ts n s :=
  ⟨shares_of_sees_par hts, sees_par_of_shares hts⟩

end View

end ProcessContracts
