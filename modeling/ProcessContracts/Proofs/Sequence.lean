import ProcessContracts.Proofs.Components
import ProcessContracts.Proofs.Sight

/-!
# Sightings of a sequence

A sequence shows what its first child shows, and after the termination of that child what the rest
shows. `Chain` says so for the whole list of children.
-/

namespace ProcessContracts.View

open Trace

inductive Chain (v : View) : Sight → List Trace → Nat → List Label → Prop
  | nil : Chain v .done [] 0 []
  | here {k t ts n s} : k ≠ .done → v.Sees k t n s → Chain v k (t :: ts) n s
  | past {k t ts n n' s s'} : v.Sees .done t n s → Chain v k ts n' s' →
      Chain v k (t :: ts) (n + n') (s ++ s')

variable {v : View} {k : Sight} {t : Trace} {ts us : List Trace} {n : Nat} {s : List Label}

theorem sees_seq_cons :
    v.Sees k (.comp .seq (t :: ts)) n s ↔ (k ≠ .done ∧ v.Sees k t n s) ∨
      ∃ n₁ s₁ n₂ s₂, v.Sees .done t n₁ s₁ ∧ v.Sees k (collapse .seq ts) n₂ s₂ ∧
        n = n₁ + n₂ ∧ s = s₁ ++ s₂ := by
  constructor
  · intro h
    generalize hc : Trace.comp .seq (t :: ts) = c at h
    induction h generalizing t with
    | going => exact .inl ⟨by simp, .going t⟩
    | done hm =>
        subst hc
        obtain ⟨m', t', -, ⟨-, h, -⟩ | ⟨hne, rfl, -⟩⟩ := mem_moves_seq_cons.1 hm
        · cases h
        · exact absurd rfl hne
    | active hl hp =>
        subst hc
        exact .inl ⟨by simp, .active (by simpa [active] using hl) hp⟩
    | step hm hne h ih =>
        subst hc
        obtain ⟨m', t', hm', ⟨rfl, rfl, rfl⟩ | ⟨hne', rfl, rfl⟩⟩ := mem_moves_seq_cons.1 hm
        · exact .inr ⟨1, [], _, _, .done hm', h, Nat.add_comm .., by simp⟩
        · rcases ih rfl with ⟨hk, h⟩ | ⟨n₁, s₁, n₂, s₂, h₁, h₂, rfl, rfl⟩
          · exact .inl ⟨hk, .step hm' hne' h⟩
          · exact .inr ⟨n₁ + 1, _, n₂, s₂, .step hm' hne' h₁, h₂, by omega, by simp⟩
  · rintro (⟨hk, h⟩ | ⟨n₁, s₁, n₂, s₂, h, h', rfl, rfl⟩)
    · induction h with
      | going t => exact .going _
      | done => exact absurd rfl hk
      | active hl hp => exact .active (by simpa [active] using hl) hp
      | step hm hne _ ih =>
          exact .step (mem_moves_seq_cons.2 ⟨_, _, hm, .inr ⟨hne, rfl, rfl⟩⟩) hne (ih hk)
    · generalize hd : Sight.done = d at h
      induction h with
      | going t => cases hd
      | active => cases hd
      | done hm =>
          rw [Nat.add_comm]
          exact .silent (mem_moves_seq_cons.2 ⟨_, _, hm, .inl ⟨rfl, rfl, rfl⟩⟩) h'
      | step hm hne _ ih =>
          rw [Nat.add_right_comm, List.append_assoc]
          exact .step (mem_moves_seq_cons.2 ⟨_, _, hm, .inr ⟨hne, rfl, rfl⟩⟩) hne (ih hd)

theorem chain_cons : Chain v k (t :: ts) n s ↔ (k ≠ .done ∧ v.Sees k t n s) ∨
    ∃ n₁ s₁ n₂ s₂, v.Sees .done t n₁ s₁ ∧ Chain v k ts n₂ s₂ ∧ n = n₁ + n₂ ∧ s = s₁ ++ s₂ := by
  constructor
  · intro h
    cases h with
    | here hk h => exact .inl ⟨hk, h⟩
    | past h h' => exact .inr ⟨_, _, _, _, h, h', rfl, rfl⟩
  · rintro (⟨hk, h⟩ | ⟨n₁, s₁, n₂, s₂, h, h', rfl, rfl⟩)
    · exact .here hk h
    · exact .past h h'

theorem chain_nil : Chain v k [] n s ↔ k = .done ∧ n = 0 ∧ s = [] := by
  constructor
  · intro h
    cases h
    exact ⟨rfl, rfl, rfl⟩
  · rintro ⟨rfl, rfl, rfl⟩
    exact .nil

theorem chain_singleton : Chain v k [t] n s ↔ v.Sees k t n s := by
  rw [chain_cons]
  constructor
  · rintro (⟨-, h⟩ | ⟨n₁, s₁, n₂, s₂, h, h', rfl, rfl⟩)
    · exact h
    · obtain ⟨rfl, rfl, rfl⟩ := chain_nil.1 h'
      simpa using h
  · intro h
    by_cases hk : k = .done
    · subst hk
      exact .inr ⟨n, s, 0, [], h, .nil, rfl, by simp⟩
    · exact .inl ⟨hk, h⟩

/-- A sequence of at least one child, wrapped only if there are more. -/
theorem sees_collapse_seq (hts : ts ≠ []) :
    v.Sees k (collapse .seq ts) n s ↔ Chain v k ts n s := by
  induction ts generalizing k n s with
  | nil => exact absurd rfl hts
  | cons t ts ih =>
      cases ts with
      | nil => rw [chain_singleton]; rfl
      | cons u ts =>
          rw [chain_cons]
          change v.Sees k (.comp .seq (t :: u :: ts)) n s ↔ _
          rw [sees_seq_cons]
          simp only [ih (List.cons_ne_nil u ts)]

theorem chain_append : Chain v k (ts ++ us) n s ↔ (k ≠ .done ∧ Chain v k ts n s) ∨
    ∃ n₁ s₁ n₂ s₂, Chain v .done ts n₁ s₁ ∧ Chain v k us n₂ s₂ ∧ n = n₁ + n₂ ∧ s = s₁ ++ s₂ := by
  induction ts generalizing n s with
  | nil =>
      constructor
      · intro h
        exact .inr ⟨0, [], n, s, .nil, h, by simp, rfl⟩
      · rintro (⟨hk, h⟩ | ⟨n₁, s₁, n₂, s₂, h, h', rfl, rfl⟩)
        · exact absurd (chain_nil.1 h).1 hk
        · obtain ⟨-, rfl, rfl⟩ := chain_nil.1 h
          simpa using h'
  | cons t ts ih =>
      rw [List.cons_append, chain_cons, chain_cons]
      constructor
      · rintro (⟨hk, h⟩ | ⟨n₁, s₁, n₂, s₂, h, h', rfl, rfl⟩)
        · exact .inl ⟨hk, .inl ⟨hk, h⟩⟩
        · rcases ih.1 h' with ⟨hk, h'⟩ | ⟨n₃, s₃, n₄, s₄, h₃, h₄, rfl, rfl⟩
          · exact .inl ⟨hk, .inr ⟨_, _, _, _, h, h', rfl, rfl⟩⟩
          · exact .inr ⟨n₁ + n₃, s₁ ++ s₃, n₄, s₄, .past h h₃, h₄, by omega, by simp⟩
      · rintro (⟨hk, ⟨-, h⟩ | ⟨n₁, s₁, n₂, s₂, h, h', rfl, rfl⟩⟩ |
          ⟨n₁, s₁, n₂, s₂, h, h', rfl, rfl⟩)
        · exact .inl ⟨hk, h⟩
        · exact .inr ⟨_, _, _, _, h, ih.2 (.inl ⟨hk, h'⟩), rfl, rfl⟩
        · rcases chain_cons.1 h with ⟨hd, -⟩ | ⟨n₃, s₃, n₄, s₄, h₃, h₄, rfl, rfl⟩
          · exact absurd rfl hd
          · exact .inr ⟨n₃, s₃, n₄ + n₂, s₄ ++ s₂, h₃,
              ih.2 (.inr ⟨_, _, _, _, h₄, h', rfl, rfl⟩), by omega, by simp⟩

end ProcessContracts.View
