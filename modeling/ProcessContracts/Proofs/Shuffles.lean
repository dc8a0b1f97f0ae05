import ProcessContracts.Proofs.FailedUnits
import ProcessContracts.Proofs.Records

/-!
# Renumbering finitely many atoms

Two lists of shares that name the same procedures are matched by a permutation of the atoms that
leaves all later atoms alone. What comparing a trace with its contract says is the same for the
trace with its atoms permuted, from whatever supply the contract is lowered.
-/

namespace ProcessContracts

/-! ## Permutations -/

/-- A permutation of atoms that leaves all from the first ones on alone. -/
structure Shuffle where
  perm : Equiv.Perm AtomId
  first : Nat
  fixed : ∀ id, first ≤ id.index → perm id = id

/-- The second atoms are the images of the first ones, as far as both lists go. -/
def Matches (f : AtomId → AtomId) (ids ids' : List AtomId) : Prop :=
  ∀ (i : Nat) (a b : AtomId), ids[i]? = some a → ids'[i]? = some b → f a = b

namespace Matches

variable {f : AtomId → AtomId} {ids ids' rest rest' : List AtomId}

theorem left (h : Matches f (ids ++ rest) (ids' ++ rest')) : Matches f ids ids' :=
  fun i a b ha hb => h i a b
    (by rw [List.getElem?_append_left (List.getElem?_eq_some_iff.1 ha).1, ha])
    (by rw [List.getElem?_append_left (List.getElem?_eq_some_iff.1 hb).1, hb])

theorem right (h : Matches f (ids ++ rest) (ids' ++ rest')) (hlength : ids'.length = ids.length) :
    Matches f rest rest' := fun i a b ha hb => by
  refine h (ids.length + i) a b ?_ ?_
  · rw [List.getElem?_append_right (Nat.le_add_right _ _), Nat.add_sub_cancel_left, ha]
  · rw [← hlength, List.getElem?_append_right (Nat.le_add_right _ _), Nat.add_sub_cancel_left, hb]

theorem eq_map (h : Matches f ids ids') (hlength : ids'.length = ids.length) :
    ids' = ids.map f := by
  refine List.ext_getElem (by rw [hlength, List.length_map]) fun i hi hi' => ?_
  rw [List.getElem_map]
  rw [List.length_map] at hi'
  exact (h i _ _ (List.getElem?_eq_getElem hi') (List.getElem?_eq_getElem hi)).symm

end Matches

/-- Finitely many pairs that determine each other belong to a permutation. -/
theorem Shuffle.exists_of_pairs (pairs : List (AtomId × AtomId))
    (h : ∀ p ∈ pairs, ∀ q ∈ pairs, p.1 = q.1 ↔ p.2 = q.2) :
    ∃ f : Shuffle, ∀ p ∈ pairs, f.perm p.1 = p.2 := by
  induction pairs with
  | nil => exact ⟨⟨1, 0, fun _ _ => rfl⟩, fun _ hp => nomatch hp⟩
  | cons pair pairs ih =>
      obtain ⟨x, y⟩ := pair
      obtain ⟨f, hf⟩ := ih fun p hp q hq =>
        h p (List.mem_cons_of_mem _ hp) q (List.mem_cons_of_mem _ hq)
      have hapart : ∀ id, f.first ⊔ (f.perm x).index.succ ⊔ y.index.succ ≤ id.index →
          f.first ≤ id.index ∧ id ≠ f.perm x ∧ id ≠ y := fun id hid => by
        rw [sup_le_iff, sup_le_iff] at hid
        refine ⟨hid.1.1, ?_, ?_⟩
        · rintro rfl
          exact Nat.not_succ_le_self _ hid.1.2
        · rintro rfl
          exact Nat.not_succ_le_self _ hid.2
      refine ⟨⟨f.perm.trans (Equiv.swap (f.perm x) y),
        f.first ⊔ (f.perm x).index.succ ⊔ y.index.succ, fun id hid => ?_⟩, ?_⟩
      · obtain ⟨hfirst, hx, hy⟩ := hapart id hid
        rw [Equiv.trans_apply, f.fixed id hfirst, Equiv.swap_apply_of_ne_of_ne hx hy]
      · refine List.forall_mem_cons.2 ⟨Equiv.swap_apply_left _ _, fun p hp => ?_⟩
        have hsame := h p (List.mem_cons_of_mem _ hp) (x, y) List.mem_cons_self
        change Equiv.swap (f.perm x) y (f.perm p.1) = p.2
        by_cases hx : p.1 = x
        · rw [hx, Equiv.swap_apply_left, hsame.1 hx]
        · rw [Equiv.swap_apply_of_ne_of_ne (fun heq => hx (f.perm.injective heq)), hf p hp]
          rw [hf p hp]
          exact fun hy => hx (hsame.2 hy)

/-- In shares without a common atom, an atom has one place. -/
theorem place_unique {κ : Type} {shares : List (κ × Share)}
    (hnodup : (shares.flatMap (·.2.atoms)).Nodup) {p q : κ × Share} (hp : p ∈ shares)
    (hq : q ∈ shares) {i j : Nat} {a : AtomId} (hi : p.2.atoms[i]? = some a)
    (hj : q.2.atoms[j]? = some a) : p = q ∧ i = j := by
  obtain ⟨heach, hapart⟩ := List.nodup_flatMap.1 hnodup
  have heq : p = q := by
    by_contra hne
    have : Std.Symm (Function.onFun List.Disjoint fun p : κ × Share => p.2.atoms) :=
      ⟨fun _ _ h => h.symm⟩
    exact hapart.forall hp hq hne (List.mem_of_getElem? hi) (List.mem_of_getElem? hj)
  subst heq
  have hlt := (List.getElem?_eq_some_iff.1 hi).1
  exact ⟨rfl, (List.getElem?_inj hlt (heach p hp)).1 (hi.trans hj.symm)⟩

/-- Shares of the same owners are matched by one permutation. -/
theorem Shuffle.exists_of_shares {κ : Type} {shares shares' : List (κ × Share)}
    (hkeys : (shares.map (·.1)).Nodup) (hkeys' : (shares'.map (·.1)).Nodup)
    (hnodup : (shares.flatMap (·.2.atoms)).Nodup) (hnodup' : (shares'.flatMap (·.2.atoms)).Nodup) :
    ∃ f : Shuffle, ∀ owner share share', (owner, share) ∈ shares → (owner, share') ∈ shares' →
      Matches f.perm share.atoms share'.atoms := by
  classical
  let pairs := shares.flatMap fun p => shares'.flatMap fun q =>
    if p.1 = q.1 then p.2.atoms.zip q.2.atoms else []
  have hpairs : ∀ {a b}, (a, b) ∈ pairs ↔ ∃ p ∈ shares, ∃ q ∈ shares', p.1 = q.1 ∧
      ∃ i : Nat, p.2.atoms[i]? = some a ∧ q.2.atoms[i]? = some b := by
    intro a b
    simp only [pairs, List.mem_flatMap]
    refine exists_congr fun p => and_congr_right fun _ => exists_congr fun q =>
      and_congr_right fun _ => ?_
    split
    case isTrue heq => simp [heq, List.mem_iff_getElem?, List.getElem?_zip_eq_some]
    case isFalse hne => simp [hne]
  obtain ⟨f, hf⟩ := Shuffle.exists_of_pairs pairs fun (a, b) hab (c, d) hcd => by
    obtain ⟨p, hp, q, hq, hpq, i, ha, hb⟩ := hpairs.1 hab
    obtain ⟨p', hp', q', hq', hpq', j, hc, hd⟩ := hpairs.1 hcd
    constructor
    · rintro rfl
      obtain ⟨rfl, rfl⟩ := place_unique hnodup hp hp' ha hc
      obtain rfl := List.inj_on_of_nodup_map hkeys' hq hq' (hpq.symm.trans hpq')
      exact Option.some.inj (hb.symm.trans hd)
    · rintro rfl
      obtain ⟨rfl, rfl⟩ := place_unique hnodup' hq hq' hb hd
      obtain rfl := List.inj_on_of_nodup_map hkeys hp hp' (hpq.trans hpq'.symm)
      exact Option.some.inj (ha.symm.trans hc)
  exact ⟨f, fun owner share share' hshare hshare' i a b ha hb =>
    hf _ (hpairs.2 ⟨_, hshare, _, hshare', rfl, i, ha, hb⟩)⟩

/-! ## Contracts -/

namespace Contract

variable {program : Program} {callee : DeclId} {contract : Contract} {first last : AtomSupply}

/-- The atoms minted after one supply as those minted after another. -/
def rebase (first first' : AtomSupply) (id : AtomId) : AtomId :=
  ⟨first'.minted + (id.index - first.minted)⟩

theorem rebase_minted (first first' : AtomSupply) (i : Nat) :
    rebase first first' ⟨first.minted + i⟩ = ⟨first'.minted + i⟩ := by
  rw [rebase, Nat.add_sub_cancel_left]

/-- A contract that can be lowered can be from any supply. -/
theorem lower_from {t : Trace} (h : (contract.lower program callee).run first = .ok t last)
    (first' : AtomSupply) {f : AtomId → AtomId}
    (hf : ∀ i, f ⟨first.minted + i⟩ = ⟨first'.minted + i⟩) :
    ∃ last', (contract.lower program callee).run first' = .ok (t.renumber f) last' ∧
      Level first.minted first'.minted last last' := by
  have hshifts : Shifts first.minted first'.minted (Trace.renumber f)
    (contract.lower program callee) (contract.lower program callee) := shifts_lower hf contract
  have hends := hshifts first first' ⟨0, rfl, rfl⟩
  rw [h] at hends
  generalize (contract.lower program callee).run first' = result at hends ⊢
  cases result with
  | ok u last' =>
      obtain ⟨rfl, hlast⟩ := hends
      exact ⟨last', rfl, hlast⟩
  | error => exact hends.elim

theorem lower_unbound_from {name : String}
    (h : (contract.lower program callee).run first = .error (.unbound name) last)
    (first' : AtomSupply) :
    ∃ last', (contract.lower program callee).run first' = .error (.unbound name) last' ∧
      Level first.minted first'.minted last last' := by
  have hshifts : Shifts first.minted first'.minted (Trace.renumber (rebase first first'))
    (contract.lower program callee) (contract.lower program callee) :=
    shifts_lower (rebase_minted first first') contract
  have hends := hshifts first first' ⟨0, rfl, rfl⟩
  rw [h] at hends
  generalize (contract.lower program callee).run first' = result at hends ⊢
  cases result with
  | ok => exact hends.elim
  | error e last' =>
      obtain ⟨rfl, hlast⟩ := hends
      exact ⟨last', rfl, hlast⟩

theorem CanLower.not_unbound {name : String} (h : contract.CanLower program callee)
    (h' : (contract.lower program callee).run first = .error (.unbound name) last) : False := by
  obtain ⟨other, t, last', hlower⟩ := h
  obtain ⟨last'', hlower', -⟩ := lower_unbound_from h' other
  rw [hlower] at hlower'
  cases hlower'

end Contract

theorem Decl.IsKnown.not_unbound {program : Program} {callee : DeclId} {decl : Decl}
    {contract : Spanned Contract} {name : String} {first last : AtomSupply}
    (h : decl.IsKnown program callee) (hbody : decl.body = none)
    (hcontract : decl.contract = some contract)
    (hlower : (contract.value.lower program callee).run first = .error (.unbound name) last) :
    False := by
  rcases h with hsome | ⟨_, hsome, hlowers⟩
  · rw [hbody] at hsome
    cases hsome
  · cases hcontract.symm.trans hsome
    exact hlowers.not_unbound hlower

section Comparisons

variable {program : Program} {callee : DeclId} {contract : Contract}
  {first first' last last' : AtomSupply} {spec spec' t : Trace}

/-- A trace is compared with its contract as after more atoms were minted. -/
theorem refines_after (hlower : (contract.lower program callee).run first = .ok spec last)
    (ht : t.WellScoped first.minted) {n : Nat} (hle : first.minted ≤ n) (limit : Nat) :
    ∃ spec' last', (contract.lower program callee).run ⟨n⟩ = .ok spec' last' ∧
      refines program spec' t limit = refines program spec t limit := by
  obtain ⟨d, rfl⟩ := Nat.exists_eq_add_of_le hle
  have hmoved : ∀ i, Renumbering.shift first.minted d ⟨first.minted + i⟩ =
      ⟨(AtomSupply.mk (first.minted + d)).minted + i⟩ := fun i => by
    rw [Renumbering.shift, if_neg (by dsimp only; omega)]
    exact congrArg AtomId.mk (Nat.add_right_comm first.minted i d)
  obtain ⟨last', hlower', -⟩ := Contract.lower_from hlower ⟨first.minted + d⟩ hmoved
  refine ⟨_, last', hlower', ?_⟩
  have hsame : t.renumber (Renumbering.shift first.minted d) = t :=
    ht.renumber_eq fun id hid => if_pos hid
  rw [← refines_renumber (Renumbering.shift_injective first.minted d) spec t limit, hsame]

/-- Where the contract is lowered, and how the atoms of the trace are numbered, does not matter. -/
theorem Shuffle.refines_eq (f : Shuffle)
    (hlower : (contract.lower program callee).run first = .ok spec last)
    (hlower' : (contract.lower program callee).run first' = .ok spec' last')
    (ht : t.WellScoped first.minted) (ht' : (t.renumber f.perm).WellScoped first'.minted)
    (limit : Nat) :
    refines program spec' (t.renumber f.perm) limit = refines program spec t limit := by
  let n := f.first ⊔ first.minted ⊔ first'.minted
  obtain ⟨top, rest, htop, hspec⟩ := refines_after hlower ht
    (n := n) (le_sup_right.trans le_sup_left) limit
  obtain ⟨top', rest', htop', hspec'⟩ := refines_after hlower' ht' (n := n) le_sup_right limit
  obtain ⟨rfl, rfl⟩ := EStateM.Result.ok.inj (htop.symm.trans htop')
  -- Lowered after all atoms that are moved, the contract is not moved itself.
  have hfixed : ∀ i, f.perm ⟨(AtomSupply.mk n).minted + i⟩ = ⟨(AtomSupply.mk n).minted + i⟩ :=
    fun i => f.fixed _ ((le_sup_left.trans le_sup_left).trans (Nat.le_add_right n i))
  obtain ⟨_, hmoved, -⟩ := Contract.lower_from htop ⟨n⟩ hfixed
  have hsame : top.renumber f.perm = top := (EStateM.Result.ok.inj (hmoved.symm.trans htop)).1
  rw [← hspec', ← hspec, ← refines_renumber f.perm.injective top t limit, hsame]

end Comparisons

end ProcessContracts
