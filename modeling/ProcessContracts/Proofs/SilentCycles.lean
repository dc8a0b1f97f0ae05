import Mathlib.Data.Fintype.Pigeonhole
import Mathlib.Data.List.Perm.Subperm
import Mathlib.Order.WellFounded
import ProcessContracts.Refinement.Silence

/-!
# Cycles of silent steps

Sweeping leaves exactly the states over that have a silent successor among the states left over. So
a graph is cyclic if and only if there is a set of its states that can be stayed in forever, which
is to say that its steps can be followed forever. As there are finitely many states, they then come
back to one of them; and there are no more sweeps than states.
-/

namespace ProcessContracts

/-! ## Endless runs -/

section Runs

variable {α : Type} {r : α → α → Prop}

/-- Where the property can always be kept, it can be kept forever. -/
theorem exists_run_of_forall {p : α → Prop} (hstep : ∀ a, p a → ∃ b, r a b ∧ p b) {a : α}
    (ha : p a) : ∃ run : Nat → α, run 0 = a ∧ ∀ i, r (run i) (run (i + 1)) := by
  refine (not_acc_iff_exists_descending_chain (r := fun b a => r a b)).1 fun hacc => ?_
  induction hacc with
  | intro a _ ih =>
      obtain ⟨b, hab, hb⟩ := hstep a ha
      exact ih b hab hb

/-- Among finitely many states an endless run comes back to one of them. -/
theorem exists_run_iff_exists_cycle [Finite α] :
    (∃ run : Nat → α, ∀ i, r (run i) (run (i + 1))) ↔ ∃ a, Relation.TransGen r a a := by
  constructor
  · rintro ⟨run, hrun⟩
    obtain ⟨i, j, hne, heq⟩ := Finite.exists_ne_map_eq_of_infinite run
    wlog hij : i < j generalizing i j
    · exact this j i hne.symm heq.symm (by omega)
    have hcycle : Relation.TransGen r (run i) (run j) :=
      Nat.rel_of_forall_rel_succ_of_lt (Relation.TransGen r) (fun i => .single (hrun i)) hij
    rw [← heq] at hcycle
    exact ⟨run i, hcycle⟩
  · rintro ⟨a, hcycle⟩
    have hround : ∀ b, Relation.TransGen r b a → ∃ c, r b c ∧ Relation.TransGen r c a := by
      intro b hb
      obtain ⟨c, hbc, hca⟩ := Relation.TransGen.head'_iff.1 hb
      exact ⟨c, hbc, .trans_right hca hcycle⟩
    obtain ⟨run, -, hrun⟩ := exists_run_of_forall hround hcycle
    exact ⟨run, hrun⟩

end Runs

namespace SilentGraph

variable {limit : Nat} {graph : SilentGraph limit} {settled : List (Fin limit)} {id : Fin limit}
  {row : Fin limit × List (Fin limit)}

/-- Every state with the property has a successor with the property. -/
def Traps (graph : SilentGraph limit) (p : Fin limit → Prop) : Prop :=
  ∀ row ∈ graph, p row.1 → ∃ other ∈ row.2, p other

theorem sweep_cons : sweep settled (row :: graph) =
    if settles (sweep settled graph) row then row.1 :: sweep settled graph
    else sweep settled graph := rfl

theorem mem_sweep (h : id ∈ sweep settled graph) : id ∈ settled ∨ id ∈ graph.map Prod.fst := by
  induction graph with
  | nil => exact .inl h
  | cons row rows ih =>
      rw [sweep_cons] at h
      rw [List.map_cons, List.mem_cons]
      split at h
      case isTrue =>
        rcases List.mem_cons.1 h with rfl | h
        · exact .inr (.inl rfl)
        · exact (ih h).imp_right .inr
      case isFalse => exact (ih h).imp_right .inr

theorem sweep_subset (h : settled ⊆ graph.map Prod.fst) :
    sweep settled graph ⊆ graph.map Prod.fst := by
  intro id hid
  rcases mem_sweep hid with hid | hid
  · exact h hid
  · exact hid

/-- What can be stayed in forever never settles. -/
theorem not_of_mem_sweep {p : Fin limit → Prop} (htrap : graph.Traps p)
    (hsettled : ∀ id ∈ settled, ¬ p id) (h : id ∈ sweep settled graph) : ¬ p id := by
  induction graph generalizing id with
  | nil => exact hsettled id h
  | cons row rows ih =>
      have hrows : ∀ {id}, id ∈ sweep settled rows → ¬ p id :=
        ih fun row hrow => htrap row (List.mem_cons_of_mem _ hrow)
      rw [sweep_cons] at h
      split at h
      case isTrue hrow =>
        rcases List.mem_cons.1 h with rfl | h
        · intro hp
          obtain ⟨other, hother, hp⟩ := htrap row List.mem_cons_self hp
          exact hrows ((settles_iff.1 hrow).2 other hother) hp
        · exact hrows h
      case isFalse => exact hrows h

/-- When a sweep settles nothing more, whatever is left over has a successor left over. -/
theorem traps_of_length_sweep (h : (sweep settled graph).length = settled.length) :
    sweep settled graph = settled ∧ graph.Traps (· ∉ settled) := by
  induction graph with
  | nil => exact ⟨rfl, fun row hrow => nomatch hrow⟩
  | cons row rows ih =>
      have hle := length_le_sweep settled rows
      rw [sweep_cons] at h ⊢
      split at h
      case isTrue =>
        rw [List.length_cons] at h
        omega
      case isFalse hrow =>
        obtain ⟨heq, htrap⟩ := ih h
        rw [heq] at hrow
        refine ⟨by rw [heq, if_neg hrow], fun other hother hnot => ?_⟩
        rcases List.mem_cons.1 hother with rfl | hother
        · by_contra hno
          refine hrow (settles_iff.2 ⟨hnot, fun next hnext => ?_⟩)
          by_contra hns
          exact hno ⟨next, hnext, hns⟩
        · exact htrap other hother hnot

theorem settle_spec (p : Fin limit → Prop) (htrap : graph.Traps p) (h : settled.Nodup)
    (hkeys : ∀ id ∈ settled, id ∈ graph.map Prod.fst ∧ ¬ p id) :
    (settle graph settled h).Nodup ∧
      (∀ id ∈ settle graph settled h, id ∈ graph.map Prod.fst ∧ ¬ p id) ∧
      graph.Traps (· ∉ settle graph settled h) := by
  induction settled, h using settle.induct graph with
  | case1 settled h hlength =>
      rw [settle, if_pos hlength]
      exact ⟨h, hkeys, (traps_of_length_sweep hlength).2⟩
  | case2 settled h hlength ih =>
      rw [settle, if_neg hlength]
      exact ih fun id hid => ⟨sweep_subset (fun id hid => (hkeys id hid).1) hid,
        not_of_mem_sweep htrap (fun id hid => (hkeys id hid).2) hid⟩

theorem isCyclic_iff (hnodup : (graph.map Prod.fst).Nodup) :
    graph.isCyclic = true ↔ ∃ p, graph.Traps p ∧ ∃ id ∈ graph.map Prod.fst, p id := by
  have hlen : (graph.map Prod.fst).length = graph.length := List.length_map _
  rw [isCyclic, decide_eq_true_iff, ← hlen]
  constructor
  · intro hlength
    have hnone : graph.Traps fun _ => False := fun _ _ h => h.elim
    obtain ⟨-, -, htrap⟩ := settle_spec _ hnone List.nodup_nil (by simp)
    refine ⟨_, htrap, ?_⟩
    by_contra hno
    have hsub : graph.map Prod.fst ⊆ settle graph [] List.nodup_nil := fun id hid => by
      by_contra h
      exact hno ⟨id, hid, h⟩
    have := (hnodup.subperm hsub).length_le
    omega
  · rintro ⟨p, htrap, id, hid, hp⟩
    obtain ⟨hset, hkeys, -⟩ := settle_spec p htrap List.nodup_nil (by simp)
    have hnot : id ∉ settle graph [] List.nodup_nil := fun h => (hkeys id h).2 hp
    have hsub : id :: settle graph [] List.nodup_nil ⊆ graph.map Prod.fst := by
      intro other hother
      rcases List.mem_cons.1 hother with rfl | hother
      · exact hid
      · exact (hkeys other hother).1
    exact ((List.nodup_cons.2 ⟨hnot, hset⟩).subperm hsub).length_le

/-! ## Following the steps of a graph -/

/-- The graph has a step from the one state to the other. -/
def Edge (graph : SilentGraph limit) (id next : Fin limit) : Prop :=
  ∃ row ∈ graph, row.1 = id ∧ next ∈ row.2

theorem exists_edge_of_traps {p : Fin limit → Prop} (htrap : graph.Traps p) {id : Fin limit}
    (hid : id ∈ graph.map Prod.fst) (hp : p id) : ∃ next, graph.Edge id next ∧ p next := by
  obtain ⟨row, hrow, rfl⟩ := List.mem_map.1 hid
  obtain ⟨next, hnext, hp⟩ := htrap row hrow hp
  exact ⟨next, ⟨row, hrow, rfl, hnext⟩, hp⟩

theorem traps_of_run (hnodup : (graph.map Prod.fst).Nodup) {run : Nat → Fin limit}
    (hrun : ∀ i, graph.Edge (run i) (run (i + 1))) : graph.Traps (∃ i, run i = ·) := by
  rintro row hrow ⟨i, hi⟩
  obtain ⟨row', hrow', heq, hnext⟩ := hrun i
  obtain rfl : row' = row := List.inj_on_of_nodup_map hnodup hrow' hrow (heq.trans hi)
  exact ⟨_, hnext, i + 1, rfl⟩

/-- What the sweeps leave over can be stayed in forever, and a state on an endless run is left
over. -/
theorem isCyclic_iff_exists_run (hnodup : (graph.map Prod.fst).Nodup)
    (hinside : ∀ id next, graph.Edge id next → next ∈ graph.map Prod.fst) :
    graph.isCyclic = true ↔ ∃ run : Nat → Fin limit, ∀ i, graph.Edge (run i) (run (i + 1)) := by
  rw [isCyclic_iff hnodup]
  constructor
  · rintro ⟨p, htrap, id, hid, hp⟩
    have hstep : ∀ id, id ∈ graph.map Prod.fst ∧ p id →
        ∃ next, graph.Edge id next ∧ next ∈ graph.map Prod.fst ∧ p next := by
      rintro id ⟨hid, hp⟩
      obtain ⟨next, hedge, hp⟩ := exists_edge_of_traps htrap hid hp
      exact ⟨next, hedge, hinside id next hedge, hp⟩
    obtain ⟨run, -, hrun⟩ := exists_run_of_forall hstep ⟨hid, hp⟩
    exact ⟨run, hrun⟩
  · rintro ⟨run, hrun⟩
    obtain ⟨row, hrow, hfirst, -⟩ := hrun 0
    exact ⟨_, traps_of_run hnodup hrun, run 0, List.mem_map.2 ⟨row, hrow, hfirst⟩, 0, rfl⟩

/-! ## How often a graph is swept -/

/-- What has settled after some sweeps more. -/
def settledAfter (graph : SilentGraph limit) (settled : List (Fin limit)) (sweeps : Nat) :
    List (Fin limit) :=
  (sweep · graph)^[sweeps] settled

/-- Each of the sweeps settles some state more, and the next one would settle none. -/
structure SettlesIn (graph : SilentGraph limit) (settled : List (Fin limit)) (sweeps : Nat) :
    Prop where
  grows : ∀ n < sweeps,
    (graph.settledAfter settled n).length < (graph.settledAfter settled (n + 1)).length
  rests : (graph.settledAfter settled (sweeps + 1)).length =
    (graph.settledAfter settled sweeps).length
  settle_eq : ∀ hnodup, settle graph settled hnodup = graph.settledAfter settled sweeps

theorem SettlesIn.sweep {sweeps : Nat} (hmore : settled.length < (sweep settled graph).length)
    (h : graph.SettlesIn (sweep settled graph) sweeps) : graph.SettlesIn settled (sweeps + 1) where
  grows n hn := by
    cases n with
    | zero => exact hmore
    | succ n => exact h.grows n (Nat.lt_of_succ_lt_succ hn)
  rests := h.rests
  settle_eq hnodup := by
    rw [settle, if_neg (Nat.ne_of_gt hmore)]
    exact h.settle_eq _

theorem exists_settlesIn (graph : SilentGraph limit) (hnodup : settled.Nodup) :
    ∃ sweeps, graph.SettlesIn settled sweeps := by
  induction settled, hnodup using settle.induct graph with
  | case1 settled hnodup hlength =>
      refine ⟨0, fun n hn => absurd hn (Nat.not_lt_zero n), hlength, fun _ => ?_⟩
      rw [settle, if_pos hlength]
      rfl
  | case2 settled hnodup hlength ih =>
      obtain ⟨sweeps, h⟩ := ih
      have hmore := Nat.lt_of_le_of_ne (length_le_sweep settled graph) (Ne.symm hlength)
      exact ⟨sweeps + 1, h.sweep hmore⟩

theorem settledAfter_keys (graph : SilentGraph limit) (n : Nat) :
    (graph.settledAfter [] n).Nodup ∧ graph.settledAfter [] n ⊆ graph.map Prod.fst := by
  induction n with
  | zero => exact ⟨List.nodup_nil, List.nil_subset _⟩
  | succ n ih =>
      rw [settledAfter, Function.iterate_succ_apply']
      exact ⟨nodup_sweep graph ih.1, sweep_subset ih.2⟩

/-- A sweep that is not the last one settles a state, so there are no more of them than states. -/
theorem SettlesIn.le_length {sweeps : Nat} (h : graph.SettlesIn [] sweeps) :
    sweeps ≤ graph.length := by
  have hcount : ∀ n ≤ sweeps, n ≤ (graph.settledAfter [] n).length := by
    intro n hn
    induction n with
    | zero => exact Nat.zero_le _
    | succ n ih =>
        have := h.grows n hn
        have := ih (Nat.le_of_succ_le hn)
        omega
  obtain ⟨hnodup, hkeys⟩ := settledAfter_keys graph sweeps
  calc sweeps ≤ (graph.settledAfter [] sweeps).length := hcount sweeps (Nat.le_refl _)
    _ ≤ (graph.map Prod.fst).length := (hnodup.subperm hkeys).length_le
    _ = graph.length := List.length_map _

end SilentGraph

end ProcessContracts
