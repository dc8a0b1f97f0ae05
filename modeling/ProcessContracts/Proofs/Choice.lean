import ProcessContracts.Proofs.Components
import ProcessContracts.Proofs.Sight

/-!
# Sightings of choices, empty compositions and fixed points

An external choice shows what one of its children shows. The silent steps of the others still
count: they are taken while the choice is open.
-/

namespace ProcessContracts.View

open Trace

/-- The children take `n` silent steps together and nothing else. -/
inductive Rests (v : View) : List Trace → Nat → Prop
  | nil : Rests v [] 0
  | cons {t ts n n'} : v.bare.Sees .going t n [] → Rests v ts n' → Rests v (t :: ts) (n + n')

/-- One child has a sighting and the others rest. -/
inductive Picks (v : View) : Sight → List Trace → Nat → List Label → Prop
  | here {k t ts n n' s} : v.Sees k t n s → Rests v ts n' → Picks v k (t :: ts) (n + n') s
  | there {k t ts n n' s} : v.bare.Sees .going t n [] → Picks v k ts n' s →
      Picks v k (t :: ts) (n + n') s

variable {v : View} {k : Sight} {t : Trace} {ts us as bs : List Trace} {n n' : Nat} {s : List Label}

theorem rests_zero (v : View) (ts : List Trace) : Rests v ts 0 := by
  induction ts with
  | nil => exact .nil
  | cons t ts ih => exact .cons (.going t) ih

theorem rests_silent {c c' : Trace} (hm : (.tau, c') ∈ c.moves v.key)
    (h : Rests v (as ++ c' :: bs) n) : Rests v (as ++ c :: bs) (n + 1) := by
  induction as generalizing n with
  | nil =>
      cases h with
      | cons h h' =>
          rw [Nat.add_right_comm]
          exact .cons (.silent hm h) h'
  | cons a as ih =>
      cases h with
      | cons h h' =>
          rw [Nat.add_assoc]
          exact .cons h (ih h')

theorem picks_silent {c c' : Trace} (hm : (.tau, c') ∈ c.moves v.key)
    (h : Picks v k (as ++ c' :: bs) n s) : Picks v k (as ++ c :: bs) (n + 1) s := by
  induction as generalizing n with
  | nil =>
      cases h with
      | here h h' =>
          rw [Nat.add_right_comm]
          exact .here (.silent hm h) h'
      | there h h' =>
          rw [Nat.add_right_comm]
          exact .there (.silent hm h) h'
  | cons a as ih =>
      cases h with
      | here h h' =>
          rw [Nat.add_assoc]
          exact .here h (rests_silent hm h')
      | there h h' =>
          rw [Nat.add_assoc]
          exact .there h (ih h')

theorem picks_of_sees (h : v.Sees k t n s) : Picks v k (as ++ t :: bs) n s := by
  induction as with
  | nil => exact .here h (rests_zero v bs)
  | cons a as ih => exact Nat.zero_add n ▸ .there (.going a) ih

theorem sees_det_of_sees (as bs : List Trace) (h : v.Sees k t n s) :
    v.Sees k (.comp .det (as ++ t :: bs)) n s := by
  have hne : ∀ c, as ++ c :: bs ≠ [] := by simp
  induction h with
  | going => exact .going _
  | done hm =>
      exact .done ((mem_moves_det (hne _)).2 ⟨as, _, bs, _, _, rfl, hm, .inr ⟨by simp, rfl, rfl⟩⟩)
  | active hl hp => exact .active (mem_active_det.2 ⟨_, by simp, hl⟩) hp
  | @step _ _ _ m _ _ hm hm' h ih =>
      by_cases htau : m = .tau
      · subst htau
        have hmove := (mem_moves_det (hne _)).2 ⟨as, _, bs, _, _, rfl, hm, .inl ⟨rfl, rfl, rfl⟩⟩
        exact .silent hmove ih
      · exact .step ((mem_moves_det (hne _)).2
          ⟨as, _, bs, _, _, rfl, hm, .inr ⟨htau, rfl, rfl⟩⟩) hm' h

/-- A child can go ahead with its silent steps if nothing depends on where it gets. -/
theorem sees_det_of_rest (h : v.bare.Sees .going t n [])
    (hall : ∀ c, v.Sees k (.comp .det (as ++ c :: bs)) n' s) :
    v.Sees k (.comp .det (as ++ t :: bs)) (n + n') s := by
  generalize hs : ([] : List Label) = s' at h
  generalize hg : Sight.going = g at h
  induction h with
  | going t => rw [Nat.zero_add]; exact hall t
  | done => cases hg
  | active => cases hg
  | step hm _ _ ih =>
      rw [eq_comm, List.append_eq_nil_iff, Option.toList_eq_nil_iff, noted_bare] at hs
      obtain ⟨rfl, rfl⟩ := hs
      rw [Nat.add_right_comm]
      exact .silent ((mem_moves_det (by simp)).2
        ⟨as, _, bs, _, _, rfl, hm, .inl ⟨rfl, rfl, rfl⟩⟩) (ih rfl hg)

theorem sees_det_of_rests (as : List Trace) (h : Rests v ts n)
    (hall : ∀ us, us.length = ts.length → v.Sees k (.comp .det (as ++ us)) n' s) :
    v.Sees k (.comp .det (as ++ ts)) (n + n') s := by
  induction h generalizing as n' with
  | nil => rw [Nat.zero_add]; exact hall [] rfl
  | @cons t ts n₁ n₂ h _ ih =>
      rw [Nat.add_assoc]
      refine sees_det_of_rest h fun c => ?_
      rw [List.append_cons]
      refine ih (as ++ [c]) fun us hus => ?_
      rw [← List.append_cons]
      exact hall (c :: us) (by simp [hus])

theorem sees_det_of_picks (as : List Trace) (h : Picks v k ts n s) :
    v.Sees k (.comp .det (as ++ ts)) n s := by
  induction h generalizing as with
  | @here t ts n n' s h h' =>
      rw [Nat.add_comm, List.append_cons]
      refine sees_det_of_rests (as ++ [t]) h' fun us _ => ?_
      rw [← List.append_cons]
      exact sees_det_of_sees as us h
  | there h _ ih =>
      refine sees_det_of_rest h fun c => ?_
      rw [List.append_cons]
      exact ih (as ++ [c])

theorem sees_det (hts : ts ≠ []) : v.Sees k (.comp .det ts) n s ↔ Picks v k ts n s := by
  refine ⟨fun h => ?_, sees_det_of_picks []⟩
  generalize hc : Trace.comp .det ts = c at h
  induction h generalizing ts with
  | going =>
      obtain ⟨t, ts, rfl⟩ := List.exists_cons_of_ne_nil hts
      exact .here (.going t) (rests_zero v ts)
  | done hm =>
      subst hc
      obtain ⟨as, c, bs, m', t', rfl, hm', ⟨-, h, -⟩ | ⟨-, rfl, -⟩⟩ := (mem_moves_det hts).1 hm
      · cases h
      · exact picks_of_sees (.done hm')
  | active hl hp =>
      subst hc
      obtain ⟨c, hc, hl'⟩ := mem_active_det.1 hl
      obtain ⟨as, bs, rfl⟩ := List.append_of_mem hc
      exact picks_of_sees (.active hl' hp)
  | step hm hne h ih =>
      subst hc
      obtain ⟨as, c, bs, m', t', rfl, hm', ⟨rfl, rfl, rfl⟩ | ⟨-, rfl, rfl⟩⟩ :=
        (mem_moves_det hts).1 hm
      · exact picks_silent hm' (ih (by simp) rfl)
      · exact picks_of_sees (.step hm' hne h)

theorem picks_singleton : Picks v k [t] n s ↔ v.Sees k t n s := by
  constructor
  · intro h
    cases h with
    | here h h' => cases h'; exact h
    | there _ h' => cases h'
  · intro h
    exact .here h .nil

theorem sees_collapse_det (hts : ts ≠ []) :
    v.Sees k (collapse .det ts) n s ↔ Picks v k ts n s := by
  match ts with
  | [t] => exact picks_singleton.symm
  | t :: u :: ts => exact sees_det hts

theorem sees_ndet (hts : ts ≠ []) : v.Sees k (.comp .ndet ts) n s ↔
    (k = .going ∧ n = 0 ∧ s = []) ∨ ∃ n', n = n' + 1 ∧ ∃ t ∈ ts, v.Sees k t n' s := by
  constructor
  · intro h
    cases h with
    | going => exact .inl ⟨rfl, rfl, rfl⟩
    | done hm => simp [moves_ndet hts] at hm
    | active hl hp =>
        simp only [active, List.mem_singleton] at hl
        exact absurd (hl ▸ hp) (Mark.not_holds _ (by simp))
    | step hm _ h =>
        simp only [moves_ndet hts, List.mem_map, Prod.mk.injEq] at hm
        obtain ⟨t, ht, rfl, rfl⟩ := hm
        exact .inr ⟨_, rfl, t, ht, by simpa using h⟩
  · rintro (⟨rfl, rfl, rfl⟩ | ⟨n', rfl, t, ht, h⟩)
    · exact .going _
    · exact .silent (by simp [moves_ndet hts, ht]) h

theorem sees_comp_nil (op : Operator) : v.Sees k (.comp op []) n s ↔
    (k = .going ∧ n = 0 ∧ s = []) ∨ ∃ n', n = n' + 1 ∧ v.Sees k (unit op) n' s := by
  refine sees_of_moves_eq (moves_comp_nil op) fun mark l hl => mark.not_holds ?_
  cases op <;> simp_all [active]

theorem sees_fix {binder : Atom} {body : Trace} : v.Sees k (.fix binder body) n s ↔
    (n = 0 ∧ s = [] ∧
      (k = .going ∨ ∃ mark, k = .active mark ∧ mark.holds (.fix binder body))) ∨
    ∃ n', n = n' + 1 ∧ v.Sees k (substitute binder.id (.fix binder body) body) n' s := by
  constructor
  · intro h
    cases h with
    | going => exact .inl ⟨rfl, rfl, .inl rfl⟩
    | done hm => simp [moves] at hm
    | active hl hp =>
        simp only [active, List.mem_singleton] at hl
        exact .inl ⟨rfl, rfl, .inr ⟨_, rfl, hl ▸ hp⟩⟩
    | step hm _ h =>
        simp only [moves, List.mem_singleton, Prod.mk.injEq] at hm
        obtain ⟨rfl, rfl⟩ := hm
        exact .inr ⟨_, rfl, by simpa using h⟩
  · rintro (⟨rfl, rfl, rfl | ⟨mark, rfl, hp⟩⟩ | ⟨n', rfl, h⟩)
    · exact .going _
    · exact .active (by simp [active]) hp
    · exact .silent (by simp [moves]) h

end ProcessContracts.View
