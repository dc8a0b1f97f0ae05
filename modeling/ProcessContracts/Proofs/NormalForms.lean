import ProcessContracts.Proofs.Copies
import ProcessContracts.Proofs.Hiding
import ProcessContracts.Proofs.Simplification

/-!
# Normal forms

A simplified trace is a normal form: no rule applies to it or to a part of it. What is done to the
leaves of a trace may give the rules something to do again, but nothing that they would not have
done anyway: simplifying before does not show in what is simplified afterwards.
-/

namespace ProcessContracts

/-! ## Lists without repetitions -/

section Lists

variable {α β : Type} [DecidableEq α] [DecidableEq β] {as bs xs ys : List α}

theorem eraseDups_filter (p : α → Bool) (xs : List α) :
    (xs.filter p).eraseDups = xs.eraseDups.filter p := by
  generalize hn : xs.length = n
  induction n using Nat.strongRecOn generalizing xs with
  | ind n ih =>
      cases xs with
      | nil => rfl
      | cons x xs =>
          have hlen := List.length_filter_le (fun b => !b == x) xs
          rw [List.length_cons] at hn
          have ih := ih _ (by omega) (xs.filter fun b => !b == x) rfl
          rw [List.eraseDups_cons, List.filter_cons, List.filter_cons]
          split
          case isTrue hx =>
            rw [List.eraseDups_cons, ← ih, List.filter_filter, List.filter_filter]
            simp only [Bool.and_comm]
          case isFalse hx =>
            rw [← ih, List.filter_filter]
            refine congrArg List.eraseDups (List.filter_congr fun b _ => ?_)
            by_cases hb : b = x
            · simp [hb, hx]
            · simp [hb]

theorem nodup_eraseDups (xs : List α) : xs.eraseDups.Nodup := by
  generalize hn : xs.length = n
  induction n using Nat.strongRecOn generalizing xs with
  | ind n ih =>
      cases xs with
      | nil => exact List.nodup_nil
      | cons x xs =>
          have hlen := List.length_filter_le (fun b => !b == x) xs
          rw [List.length_cons] at hn
          rw [List.eraseDups_cons, List.nodup_cons]
          exact ⟨by simp, ih _ (by omega) _ rfl⟩

theorem eraseDups_append_congr (hxs : as.eraseDups = bs.eraseDups)
    (hys : xs.eraseDups = ys.eraseDups) : (as ++ xs).eraseDups = (bs ++ ys).eraseDups := by
  have hmem : ∀ x, x ∈ as ↔ x ∈ bs := fun x => by
    rw [← List.mem_eraseDups, hxs, List.mem_eraseDups]
  have helem : (fun x => !List.elem x as) = fun x => !List.elem x bs := funext fun x => by
    simp [hmem x]
  rw [List.eraseDups_append, List.eraseDups_append, List.removeAll, List.removeAll,
    eraseDups_filter, eraseDups_filter, hxs, hys, helem]

/-- Repetitions come from repetitions. -/
theorem eraseDups_flatMap (g : α → List β) (xs : List α) :
    (xs.eraseDups.flatMap g).eraseDups = (xs.flatMap g).eraseDups := by
  generalize hn : xs.length = n
  induction n using Nat.strongRecOn generalizing xs with
  | ind n ih =>
      cases xs with
      | nil => rfl
      | cons x xs =>
          have hlen := List.length_filter_le (fun b => !b == x) xs
          rw [List.length_cons] at hn
          -- what `x` contributes once more is removed again
          have hrest : ∀ ys : List α, ((ys.filter fun b => !b == x).flatMap g).removeAll (g x) =
              (ys.flatMap g).removeAll (g x) := fun ys => by
            unfold List.removeAll
            induction ys with
            | nil => rfl
            | cons y ys ih =>
                rw [List.filter_cons, List.flatMap_cons, List.filter_append, ← ih]
                split
                case isTrue => rw [List.flatMap_cons, List.filter_append]
                case isFalse hy =>
                  have hsame : y = x := by simpa using hy
                  have hnone : (g x).filter (fun b => !List.elem b (g x)) = [] :=
                    List.filter_eq_nil_iff.2 fun b hb => by simp [hb]
                  rw [hsame, hnone, List.nil_append]
          calc ((x :: xs).eraseDups.flatMap g).eraseDups
              = (g x ++ (xs.filter fun b => !b == x).flatMap g).eraseDups := by
                rw [List.eraseDups_cons, List.flatMap_cons]
                exact eraseDups_append_congr rfl (ih _ (by omega) _ rfl)
            _ = ((x :: xs).flatMap g).eraseDups := by
                rw [List.flatMap_cons, List.eraseDups_append, List.eraseDups_append, hrest]

end Lists

namespace Trace

variable {op : Operator} {t u : Trace} {ts us as bs cs : List Trace} {φ : Trace → Trace}

/-! ## Pruned lists -/

theorem through_append (p : Trace → Bool) (as bs : List Trace) :
    through p (as ++ bs) = through p as ++ if as.any p then [] else through p bs := by
  induction as with
  | nil => rfl
  | cons a as ih =>
      rw [List.cons_append, through, through, ih, List.any_cons]
      cases p a with
      | true => rfl
      | false => rfl

theorem any_through (p : Trace → Bool) (ts : List Trace) : (through p ts).any p = ts.any p := by
  induction ts with
  | nil => rfl
  | cons t ts ih =>
      rw [through]
      split
      case isTrue h => simp [h]
      case isFalse h => simp [h, ih]

theorem through_through (p : Trace → Bool) (ts : List Trace) :
    through p (through p ts) = through p ts := by
  induction ts with
  | nil => rfl
  | cons t ts ih =>
      rw [through]
      split
      case isTrue h => simp [through, h]
      case isFalse h => simp [through, h, ih]

theorem prune_nil (op : Operator) : prune op [] = [] := by
  cases op <;> rfl

theorem prune_singleton (op : Operator) (t : Trace) : prune op [t] = [t] := by
  cases op with
  | seq => simp [prune, through]
  | par => rfl
  | det | ndet => rfl

theorem prune_prune (op : Operator) (ts : List Trace) : prune op (prune op ts) = prune op ts := by
  cases op with
  | seq => exact through_through endsSequence ts
  | par => rfl
  | det | ndet =>
      have h := eraseDups_flatMap (fun t => [t]) ts
      rwa [List.flatMap_singleton', List.flatMap_singleton'] at h

/-- Pruning the parts of a list first makes no difference. -/
theorem prune_append_congr (has : prune op as = prune op bs) (hts : prune op ts = prune op us) :
    prune op (as ++ ts) = prune op (bs ++ us) := by
  cases op with
  | seq =>
      have hany : as.any endsSequence = bs.any endsSequence := by
        rw [← any_through, ← any_through endsSequence bs]
        exact congrArg (List.any · endsSequence) has
      rw [prune, prune] at has hts
      rw [prune, prune, through_append, through_append, hany, has, hts]
  | par => exact congrArg₂ (· ++ ·) has hts
  | det | ndet => exact eraseDups_append_congr has hts

theorem prune_flatMap_congr {α : Type} {f g : α → List Trace} {xs : List α}
    (h : ∀ x ∈ xs, prune op (f x) = prune op (g x)) :
    prune op (xs.flatMap f) = prune op (xs.flatMap g) := by
  induction xs with
  | nil => rfl
  | cons x xs ih =>
      obtain ⟨hx, hxs⟩ := List.forall_mem_cons.1 h
      exact prune_append_congr hx (ih hxs)

/-- Dropping children first makes no difference to what the others contribute, if one that ends a
sequence contributes itself. -/
theorem prune_flatMap_prune {g : Trace → List Trace}
    (h : op = .seq → ∀ t, endsSequence t = true → g t = [t]) (ts : List Trace) :
    prune op ((prune op ts).flatMap g) = prune op (ts.flatMap g) := by
  cases op with
  | seq =>
      induction ts with
      | nil => rfl
      | cons t ts ih =>
          cases ht : endsSequence t with
          | true => simp [prune, through, ht, h rfl t ht]
          | false =>
              have hcons : prune .seq (t :: ts) = t :: prune .seq ts := if_neg (by simp [ht])
              rw [hcons]
              exact prune_append_congr rfl ih
  | par => rfl
  | det | ndet => exact eraseDups_flatMap g ts

/-! ## Normal traces -/

/-- Nothing of the trace can be simplified. -/
inductive Normal : Trace → Prop
  | leaf {t : Trace} : t.isLeaf = true → Normal t
  | comp {op : Operator} {ts : List Trace} : 2 ≤ ts.length → prune op ts = ts →
      (∀ t ∈ ts, splice op t = [t]) → (∀ t ∈ ts, Normal t) → Normal (.comp op ts)
  | fix {binder : Atom} {body : Trace} : binder.id ∈ body.freeRefs → Normal body →
      Normal (.fix binder body)

theorem normal_unit (op : Operator) : Normal (unit op) := by
  cases op <;> exact .leaf rfl

theorem splice_cases (op : Operator) (t : Trace) :
    (∃ ts, t = .comp op ts ∧ splice op t = ts) ∨ t = unit op ∧ splice op t = [] ∨
      splice op t = [t] := by
  cases t with
  | comp inner ts =>
      rw [splice]
      split
      case isTrue h => exact .inl ⟨ts, by rw [h], rfl⟩
      case isFalse => exact .inr (.inr rfl)
  | _ =>
      unfold splice
      dsimp only
      split
      case isTrue h => exact .inr (.inl ⟨View.eq_unit_of_vanishes h, rfl⟩)
      case isFalse => exact .inr (.inr rfl)

/-- The children a normal trace stands for are normal, and stand for themselves. -/
theorem Normal.splice (h : Normal t) (hu : u ∈ Trace.splice op t) :
    Normal u ∧ Trace.splice op u = [u] := by
  rcases splice_cases op t with ⟨ts, rfl, heq⟩ | ⟨-, heq⟩ | heq
  · rw [heq] at hu
    cases h with
    | leaf hleaf => cases hleaf
    | comp _ _ hplain hts => exact ⟨hts u hu, hplain u hu⟩
  · rw [heq] at hu
    cases hu
  · rw [heq] at hu
    obtain rfl := List.mem_singleton.1 hu
    exact ⟨h, heq⟩

theorem normal_collapse (hpruned : prune op ts = ts)
    (hts : ∀ t ∈ ts, Normal t ∧ splice op t = [t]) : Normal (collapse op ts) := by
  match ts with
  | [] => exact normal_unit op
  | [t] => exact (hts t List.mem_cons_self).1
  | t :: u :: ts =>
      exact .comp (Nat.le_add_left 2 ts.length) hpruned (fun t ht => (hts t ht).2)
        fun t ht => (hts t ht).1

theorem normal_simplify (t : Trace) : Normal t.simplify := by
  induction t with
  | comp op ts ih =>
      rw [simplify, simplifyAll_eq_map]
      refine normal_collapse (prune_prune op _) fun u hu => ?_
      obtain ⟨c, hc, hu⟩ := List.mem_flatMap.1 (mem_of_mem_prune hu)
      obtain ⟨t, ht, rfl⟩ := List.mem_map.1 hc
      exact (ih t ht).splice hu
  | fix binder body ih =>
      rw [simplify]
      split
      case isTrue h => exact .fix (refersTo_iff.1 h) ih
      case isFalse => exact ih
  | _ => exact .leaf rfl

/-- A normal trace is the composition of the children it stands for. -/
theorem Normal.collapse_splice (h : Normal t) (op : Operator) :
    collapse op (prune op (Trace.splice op t)) = t := by
  rcases splice_cases op t with ⟨ts, rfl, heq⟩ | ⟨rfl, heq⟩ | heq
  · cases h with
    | leaf hleaf => cases hleaf
    | comp hlength hpruned _ _ =>
        rw [heq, hpruned]
        match ts with
        | _ :: _ :: _ => rfl
  · rw [heq, prune_nil]
    rfl
  · rw [heq, prune_singleton]
    rfl

/-- What a composition of children that stand for themselves stands for. Only an internal choice
without an alternative stands for something else. -/
theorem splice_collapse (hts : ∀ t ∈ ts, splice op t = [t]) (hne : op = .ndet → ts ≠ []) :
    splice op (collapse op ts) = ts := by
  match ts with
  | [] =>
      cases op with
      | ndet => exact absurd rfl (hne rfl)
      | _ => rfl
  | [t] => exact hts t List.mem_cons_self
  | t :: u :: ts =>
      rw [collapse, splice, if_pos rfl]
      all_goals simp

/-! ## Simplifying what was simplified before -/

/-- What the simplified children of a composition stand for. -/
def spread (op : Operator) (t : Trace) : List Trace := splice op t.simplify

theorem simplify_comp (op : Operator) (ts : List Trace) :
    (Trace.comp op ts).simplify = collapse op (prune op (ts.flatMap (spread op))) := by
  rw [simplify, simplifyAll_eq_map, List.flatMap_map]
  rfl

theorem simplify_unit (op : Operator) : (unit op).simplify = unit op := by
  cases op <;> rfl

theorem simplify_collapse (op : Operator) (ts : List Trace) :
    (collapse op ts).simplify = (Trace.comp op ts).simplify := by
  match ts with
  | [] =>
      rw [simplify_comp, List.flatMap_nil, prune_nil]
      exact simplify_unit op
  | [t] =>
      rw [simplify_comp, List.flatMap_singleton]
      exact ((normal_simplify t).collapse_splice op).symm
  | t :: u :: ts => rfl

theorem prune_ne_nil (h : ts ≠ []) : prune op ts ≠ [] := by
  obtain ⟨t, ts, rfl⟩ := List.exists_cons_of_ne_nil h
  cases op with
  | seq =>
      rw [prune, through]
      split <;> exact List.cons_ne_nil _ _
  | par => exact h
  | det | ndet =>
      rw [prune, List.eraseDups_cons]
      exact List.cons_ne_nil _ _

theorem spread_ndet_ne_nil (t : Trace) : spread .ndet t ≠ [] := by
  have hnormal := normal_simplify t
  rw [spread]
  rcases splice_cases .ndet t.simplify with ⟨ts, heq, hsplice⟩ | ⟨heq, hsplice⟩ | hsplice
  · rw [heq] at hnormal
    cases hnormal with
    | leaf hleaf => cases hleaf
    | comp hlength _ _ _ =>
        rw [hsplice]
        rintro rfl
        cases hlength
  · rw [heq] at hsplice
    cases hsplice
  · rw [hsplice]
    exact List.cons_ne_nil _ _

theorem spread_comp (h : op ≠ .ndet) (ts : List Trace) :
    spread op (.comp op ts) = prune op (ts.flatMap (spread op)) := by
  have hplain : ∀ u ∈ prune op (ts.flatMap (spread op)), splice op u = [u] := fun u hu => by
    obtain ⟨t, -, hu⟩ := List.mem_flatMap.1 (mem_of_mem_prune hu)
    exact ((normal_simplify t).splice hu).2
  rw [spread, simplify_comp, splice_collapse hplain fun hop => absurd hop h]

/-- A composition inside one of the same operator is one with its children in place. -/
theorem simplify_nested (h : op ≠ .ndet) (as bs cs : List Trace) :
    (Trace.comp op (as ++ .comp op cs :: bs)).simplify =
      (Trace.comp op (as ++ (cs ++ bs))).simplify := by
  have hinner : prune op (spread op (.comp op cs)) = prune op (cs.flatMap (spread op)) := by
    rw [spread_comp h, prune_prune]
  simp only [simplify_comp, List.flatMap_append, List.flatMap_cons]
  rw [prune_append_congr rfl (prune_append_congr hinner rfl)]

/-- Only what the children are when they are simplified matters. -/
theorem simplify_comp_congr (h : ts.map simplify = us.map simplify) :
    (Trace.comp op ts).simplify = (Trace.comp op us).simplify := by
  rw [simplify, simplify, simplifyAll_eq_map, simplifyAll_eq_map, h]

namespace KeepsOperators

variable (hφ : KeepsOperators φ)
include hφ

/-- Splicing a normal child first makes no difference. -/
theorem prune_splice (h : Normal t) :
    prune op ((splice op t).flatMap fun u => spread op (φ u)) = prune op (spread op (φ t)) := by
  rcases splice_cases op t with ⟨ts, rfl, heq⟩ | ⟨rfl, heq⟩ | heq
  · cases h with
    | leaf hleaf => cases hleaf
    | comp hlength _ _ _ =>
        have hplain : ∀ u ∈ prune op (ts.flatMap fun u => spread op (φ u)), splice op u = [u] :=
          fun u hu => by
            obtain ⟨c, -, hu⟩ := List.mem_flatMap.1 (mem_of_mem_prune hu)
            exact ((normal_simplify (φ c)).splice hu).2
        have hne : op = .ndet → prune op (ts.flatMap fun u => spread op (φ u)) ≠ [] := by
          rintro rfl
          obtain ⟨u, us, rfl⟩ := List.exists_cons_of_length_pos
            (Nat.lt_of_lt_of_le Nat.zero_lt_two hlength)
          exact prune_ne_nil (List.append_ne_nil_of_left_ne_nil (spread_ndet_ne_nil (φ u)) _)
        rw [heq, hφ.comp, spread, simplify_comp, List.flatMap_map, splice_collapse hplain hne,
          prune_prune]
  · rw [heq, hφ.unit, spread, simplify_unit, heq, List.flatMap_nil]
  · rw [heq, List.flatMap_singleton]

/-- A composition may be simplified before a change of its leaves if its children may, and if what
ends a sequence stays. -/
theorem simplify_comp (hends : ∀ t, endsSequence t = true → φ t = t)
    (h : ∀ t ∈ ts, (φ t.simplify).simplify = (φ t).simplify) :
    (φ (Trace.comp op ts).simplify).simplify = (φ (.comp op ts)).simplify := by
  have hspread : ∀ t ∈ ts, prune op ((spread op t).flatMap fun u => spread op (φ u)) =
      prune op (spread op (φ t)) := fun t ht => by
    rw [spread, hφ.prune_splice (normal_simplify t), spread, h t ht, spread]
  have hstays : op = .seq → ∀ t, endsSequence t = true → spread op (φ t) = [t] := by
    rintro rfl t ht
    rw [hends t ht]
    cases t with
    | stop | div | chaos => rfl
    | _ => cases ht
  rw [Trace.simplify_comp, hφ.collapse, simplify_collapse, hφ.comp, Trace.simplify_comp,
    Trace.simplify_comp, List.flatMap_map, List.flatMap_map, prune_flatMap_prune hstays,
    List.flatMap_assoc, prune_flatMap_congr hspread]

end KeepsOperators

/-- Changes of leaves that leave the rules alone: units, what ends a sequence and binders stay, and
no reference is made to anything else. -/
structure Reshapes (φ : Trace → Trace) : Prop extends KeepsOperators φ where
  ends : ∀ t, endsSequence t = true → φ t = t
  fix : ∀ binder body, φ (.fix binder body) = .fix binder (φ body)
  freeRefs : ∀ t, (φ t).freeRefs ⊆ t.freeRefs

theorem Reshapes.simplify_simplify (hφ : Reshapes φ) (t : Trace) :
    (φ t.simplify).simplify = (φ t).simplify := by
  induction t with
  | comp op ts ih => exact hφ.toKeepsOperators.simplify_comp hφ.ends ih
  | fix binder body ih =>
      rw [simplify]
      split
      case isTrue => rw [hφ.fix, hφ.fix, simplify, simplify, ih]
      case isFalse h =>
        have hfree : (φ body).simplify.refersTo binder.id = false := by
          rw [← ih, ← Bool.not_eq_true, refersTo_iff]
          exact fun hmem => h (refersTo_iff.2
            (hφ.freeRefs _ (View.freeRefs_simplify_subset _ hmem)))
        rw [hφ.fix, simplify, ih, hfree]
        rfl
  | _ => rfl

theorem Normal.simplify_eq (h : Normal t) : t.simplify = t := by
  induction h with
  | @leaf t hleaf =>
      cases t with
      | comp | fix => cases hleaf
      | _ => rfl
  | @comp op ts hlength hpruned hplain _ ih =>
      have hspread : ts.flatMap (spread op) = ts := by
        rw [List.flatMap_congr fun t ht => by rw [spread, ih t ht, hplain t ht]]
        exact List.flatMap_singleton' ts
      rw [simplify_comp, hspread, hpruned, collapse_of_two_le hlength]
  | fix hbinder _ ih => rw [simplify, ih, if_pos (refersTo_iff.2 hbinder)]

theorem simplify_simplify (t : Trace) : t.simplify.simplify = t.simplify :=
  (normal_simplify t).simplify_eq

theorem Normal.spread_eq (h : Normal t) (op : Operator) : spread op t = Trace.splice op t := by
  rw [spread, h.simplify_eq]

theorem flatMap_spread_eq (h : ∀ t ∈ ts, Normal t ∧ splice op t = [t]) :
    ts.flatMap (spread op) = ts := by
  rw [List.flatMap_congr fun t ht => ((h t ht).1.spread_eq op).trans (h t ht).2]
  exact List.flatMap_singleton' ts

theorem reshapes_hide (keep : ChanRef → Bool) : Reshapes (hide keep) where
  unit op := by cases op <;> rfl
  comp op ts := by rw [hide, hideAll_eq_map]
  ends t ht := by
    cases t with
    | stop | div | chaos => rfl
    | _ => cases ht
  fix _ _ := rfl
  freeRefs t := by rw [freeRefs_hide]; exact List.Subset.refl _

/-! ## Instances of what was simplified before -/

theorem keepsOperators_instantiate (σ : Valuation) : KeepsOperators (instantiate σ) where
  unit := View.instantiate_unit σ
  comp op ts := by rw [instantiate, instantiateAll_eq_map]

/-- What is put in for references may bring back a binder that was dropped, if it refers to the
binder. -/
theorem simplify_instantiate (t : Trace) {σ : Valuation} (hσ : σ.IsLocal) :
    (t.simplify.instantiate σ).simplify = (t.instantiate σ).simplify := by
  induction t generalizing σ with
  | comp op ts ih =>
      exact (keepsOperators_instantiate σ).simplify_comp
        (fun _ => View.endsSequence_instantiate) fun t ht => ih t ht hσ
  | fix binder body ih =>
      rw [simplify]
      split
      case isTrue => rw [instantiate, instantiate, simplify, simplify, ih (hσ.under binder)]
      case isFalse h =>
        have hunbound : binder.id ∉ body.simplify.freeRefs := fun hid => h (refersTo_iff.2 hid)
        have hunder : (body.instantiate (σ.under binder)).simplify =
            (body.simplify.instantiate σ).simplify := by
          rw [← ih (hσ.under binder)]
          refine congrArg simplify (instantiate_congr fun id hid => ?_)
          exact Valuation.set_of_ne _ _ fun heq => hunbound (heq ▸ hid)
        have hfree : binder.id ∉ (body.simplify.instantiate σ).simplify.freeRefs := fun hid => by
          obtain ⟨other, hother, hid⟩ :=
            mem_freeRefs_instantiate (View.freeRefs_simplify_subset _ hid)
          exact hunbound (hσ other _ hid ▸ hother)
        rw [instantiate, simplify, hunder, if_neg (mt refersTo_iff.1 hfree)]
  | _ => rfl

end Trace

end ProcessContracts
