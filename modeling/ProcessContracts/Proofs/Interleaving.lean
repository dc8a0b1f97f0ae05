/-!
# Interleavings of two lists

`Interleaves a b c`: the list `c` consists of the elements of `a` and `b`, each in its own order.
-/

namespace ProcessContracts

inductive Interleaves {α : Type} : List α → List α → List α → Prop
  | nil : Interleaves [] [] []
  | left {x a b c} : Interleaves a b c → Interleaves (x :: a) b (x :: c)
  | right {x a b c} : Interleaves a b c → Interleaves a (x :: b) (x :: c)

namespace Interleaves

variable {α : Type} {a b c d e : List α}

theorem symm (h : Interleaves a b c) : Interleaves b a c := by
  induction h with
  | nil => exact .nil
  | left _ ih => exact .right ih
  | right _ ih => exact .left ih

theorem nil_left (a : List α) : Interleaves [] a a := by
  induction a with
  | nil => exact .nil
  | cons x a ih => exact .right ih

theorem nil_right (a : List α) : Interleaves a [] a := (nil_left a).symm

@[simp] theorem nil_left_iff : Interleaves [] a b ↔ a = b := by
  refine ⟨fun h => ?_, fun h => h ▸ nil_left a⟩
  induction a generalizing b with
  | nil => cases h; rfl
  | cons x a ih =>
      cases h with
      | right h => rw [ih h]

@[simp] theorem nil_right_iff : Interleaves a [] b ↔ a = b :=
  ⟨fun h => nil_left_iff.1 h.symm, fun h => h ▸ nil_right a⟩

theorem append_left (x : List α) (h : Interleaves a b c) : Interleaves (x ++ a) b (x ++ c) := by
  induction x with
  | nil => exact h
  | cons y x ih => exact .left ih

theorem append_right (x : List α) (h : Interleaves a b c) : Interleaves a (x ++ b) (x ++ c) :=
  (h.symm.append_left x).symm

/-- Interleaving a list with an interleaving of two others may start with either pair. -/
theorem assoc_right (h : Interleaves a b d) (h' : Interleaves d c e) :
    ∃ f, Interleaves b c f ∧ Interleaves a f e := by
  induction h' generalizing a b with
  | nil =>
      cases h
      exact ⟨[], .nil, .nil⟩
  | left h' ih =>
      cases h with
      | left h =>
          obtain ⟨f, hbc, haf⟩ := ih h
          exact ⟨f, hbc, .left haf⟩
      | right h =>
          obtain ⟨f, hbc, haf⟩ := ih h
          exact ⟨_, .left hbc, .right haf⟩
  | right h' ih =>
      obtain ⟨f, hbc, haf⟩ := ih h
      exact ⟨_, .right hbc, .right haf⟩

theorem assoc_left (h : Interleaves b c d) (h' : Interleaves a d e) :
    ∃ f, Interleaves a b f ∧ Interleaves f c e := by
  obtain ⟨f, hba, hcf⟩ := assoc_right h.symm h'.symm
  exact ⟨f, hba.symm, hcf.symm⟩

/-- Of two parts that the lists start with, one is complete first. -/
theorem prefixes (h : Interleaves a b c) {p q : List α} (hp : p <+: a) (hq : q <+: b) :
    ∃ r, r <+: c ∧
      ((∃ q', q' <+: q ∧ Interleaves p q' r) ∨ ∃ p', p' <+: p ∧ Interleaves p' q r) := by
  induction h generalizing p q with
  | nil =>
      rw [List.prefix_nil.1 hp]
      exact ⟨[], List.prefix_rfl, .inl ⟨[], List.nil_prefix, .nil⟩⟩
  | left h ih =>
      rcases List.prefix_cons_iff.1 hp with rfl | ⟨p, rfl, hp'⟩
      · exact ⟨[], List.nil_prefix, .inl ⟨[], List.nil_prefix, .nil⟩⟩
      · obtain ⟨r, hr, ⟨q', hq', hr'⟩ | ⟨p', hi, hr'⟩⟩ := ih hp' hq
        · exact ⟨_ :: r, List.cons_prefix_cons.2 ⟨rfl, hr⟩, .inl ⟨q', hq', .left hr'⟩⟩
        · exact ⟨_ :: r, List.cons_prefix_cons.2 ⟨rfl, hr⟩,
            .inr ⟨_ :: p', List.cons_prefix_cons.2 ⟨rfl, hi⟩, .left hr'⟩⟩
  | right h ih =>
      rcases List.prefix_cons_iff.1 hq with rfl | ⟨q, rfl, hq'⟩
      · exact ⟨[], List.nil_prefix, .inr ⟨[], List.nil_prefix, .nil⟩⟩
      · obtain ⟨r, hr, ⟨q', hi, hr'⟩ | ⟨p', hp', hr'⟩⟩ := ih hp hq'
        · exact ⟨_ :: r, List.cons_prefix_cons.2 ⟨rfl, hr⟩,
            .inl ⟨_ :: q', List.cons_prefix_cons.2 ⟨rfl, hi⟩, .right hr'⟩⟩
        · exact ⟨_ :: r, List.cons_prefix_cons.2 ⟨rfl, hr⟩, .inr ⟨p', hp', .right hr'⟩⟩

/-- A part that one list starts with is complete after some part of the other. -/
theorem prefix_left (h : Interleaves a b c) {p : List α} (hp : p <+: a) :
    ∃ q r, q <+: b ∧ r <+: c ∧ Interleaves p q r := by
  induction h generalizing p with
  | nil =>
      exact ⟨[], [], List.nil_prefix, List.nil_prefix, by rw [List.prefix_nil.1 hp]; exact .nil⟩
  | left h ih =>
      rcases List.prefix_cons_iff.1 hp with rfl | ⟨p, rfl, hp'⟩
      · exact ⟨[], [], List.nil_prefix, List.nil_prefix, .nil⟩
      · obtain ⟨q, r, hq, hr, h⟩ := ih hp'
        exact ⟨q, _ :: r, hq, List.cons_prefix_cons.2 ⟨rfl, hr⟩, .left h⟩
  | right h ih =>
      obtain ⟨q, r, hq, hr, h⟩ := ih hp
      exact ⟨_ :: q, _ :: r, List.cons_prefix_cons.2 ⟨rfl, hq⟩, List.cons_prefix_cons.2 ⟨rfl, hr⟩,
        .right h⟩

end Interleaves

end ProcessContracts
