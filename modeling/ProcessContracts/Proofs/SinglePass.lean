import ProcessContracts.Proofs.Channels
import ProcessContracts.Proofs.NormalForms
import ProcessContracts.Proofs.Scoping

/-!
# One pass of simplification

One pass from the leaves up leaves nothing for a second one, wherever one looks into the trace: what
a rule makes of the children is spliced into the parent in the same pass. So it makes no difference
whether a trace, and what is put into it for a reference, were simplified before.
-/

namespace ProcessContracts.Trace

variable {op : Operator} {t : Trace} {ts us : List Trace}

/-! ## Reduced traces -/

/-- The operator of a composition. -/
def operator? : Trace → Option Operator
  | .comp op _ => some op
  | _ => none

/-- No rule applies to the trace as it is. Rules may still apply to its parts. -/
def IsReduced : Trace → Prop
  | .comp op ts => 2 ≤ ts.length ∧ (∀ t ∈ ts, t.operator? ≠ some op) ∧
      match op with
      | .seq => .skip ∉ ts ∧ ∀ t ∈ ts.dropLast, t ≠ .stop ∧ t ≠ .div ∧ t ≠ .chaos
      | .par => .skip ∉ ts
      | .det => .stop ∉ ts ∧ ts.Nodup
      | .ndet => ts.Nodup
  | .fix binder body => binder.id ∈ body.freeAtoms
  | _ => True

theorem splice_eq_self_iff :
    splice op t = [t] ↔ t.operator? ≠ some op ∧ vanishes op t = false := by
  cases t with
  | comp inner ts =>
      have hvanishes : vanishes op (.comp inner ts) = false := by cases op <;> rfl
      rw [splice, operator?, hvanishes]
      split
      case isTrue h =>
        -- a composition is not its own only child
        have hne : ts ≠ [.comp inner ts] := fun heq => by
          have hsize := congrArg sizeAll heq
          simp only [sizeAll, size] at hsize
          omega
        simp [h ▸ hne, h]
      case isFalse h => simp [h]
  | _ =>
      simp only [splice, operator?]
      split <;> simp_all

theorem forall_not_vanishes_iff (hop : op ≠ .ndet) :
    (∀ t ∈ ts, vanishes op t = false) ↔ unit op ∉ ts := by
  constructor
  · intro h hmem
    have hunit := h _ hmem
    cases op with
    | ndet => exact hop rfl
    | _ => cases hunit
  · intro h t ht
    refine Bool.eq_false_iff.2 fun hvanishes => h ?_
    exact View.eq_unit_of_vanishes hvanishes ▸ ht

theorem through_eq_self_iff {p : Trace → Bool} :
    through p ts = ts ↔ ∀ t ∈ ts.dropLast, p t = false := by
  induction ts with
  | nil => simp [through]
  | cons t ts ih =>
      cases ts with
      | nil => simp [through]
      | cons u us =>
          rw [through, List.dropLast_cons_cons, List.forall_mem_cons, ← ih]
          split
          case isTrue h => simp [h]
          case isFalse h => simp [h]

theorem endsSequence_eq_false_iff :
    endsSequence t = false ↔ t ≠ .stop ∧ t ≠ .div ∧ t ≠ .chaos := by
  cases t <;> simp [endsSequence]

theorem eraseDups_eq_self_iff : ts.eraseDups = ts ↔ ts.Nodup := by
  constructor
  · exact fun h => h ▸ nodup_eraseDups ts
  · intro h
    induction ts with
    | nil => rfl
    | cons t ts ih =>
        obtain ⟨hnew, hts⟩ := List.nodup_cons.1 h
        have hothers : ts.filter (fun u => !u == t) = ts := by
          refine List.filter_eq_self.2 fun u hu => ?_
          have hne : u ≠ t := fun heq => hnew (heq ▸ hu)
          simpa using hne
        rw [List.eraseDups_cons, hothers, ih hts]

/-- The rules for a composition leave it alone if its children stand for themselves. -/
theorem isReduced_comp : (Trace.comp op ts).IsReduced ↔
    2 ≤ ts.length ∧ prune op ts = ts ∧ ∀ t ∈ ts, splice op t = [t] := by
  have hsplice : (∀ t ∈ ts, splice op t = [t]) ↔
      (∀ t ∈ ts, t.operator? ≠ some op) ∧ ∀ t ∈ ts, vanishes op t = false := by
    simp only [splice_eq_self_iff]
    exact forall₂_and
  unfold IsReduced
  rw [hsplice]
  refine and_congr_right fun _ => ?_
  rw [and_left_comm]
  refine and_congr_right fun _ => ?_
  cases op with
  | seq =>
      have hunit : (∀ t ∈ ts, vanishes .seq t = false) ↔ .skip ∉ ts :=
        forall_not_vanishes_iff (by decide)
      rw [hunit, prune, through_eq_self_iff]
      simp only [endsSequence_eq_false_iff]
      exact and_comm
  | par =>
      have hunit : (∀ t ∈ ts, vanishes .par t = false) ↔ .skip ∉ ts :=
        forall_not_vanishes_iff (by decide)
      rw [hunit, prune, eq_self, true_and]
  | det =>
      have hunit : (∀ t ∈ ts, vanishes .det t = false) ↔ .stop ∉ ts :=
        forall_not_vanishes_iff (by decide)
      rw [hunit, prune, eraseDups_eq_self_iff]
      exact and_comm
  | ndet =>
      have hnone : ∀ t ∈ ts, vanishes .ndet t = false := fun _ _ => rfl
      rw [prune, eraseDups_eq_self_iff, and_iff_left hnone]

theorem forall_mem_parts_comp {p : Trace → Prop} :
    (∀ part ∈ (Trace.comp op ts).parts, p part) ↔
      p (.comp op ts) ∧ ∀ t ∈ ts, ∀ part ∈ t.parts, p part := by
  rw [parts, partsAll_eq_flatMap, List.forall_mem_cons]
  refine and_congr_right fun _ => ?_
  simp only [List.mem_flatMap]
  constructor
  · exact fun h t ht part hpart => h part ⟨t, ht, hpart⟩
  · rintro h part ⟨t, ht, hpart⟩
    exact h t ht part hpart

/-- A trace is normal if no rule applies to any part of it. -/
theorem normal_iff : Normal t ↔ ∀ part ∈ t.parts, part.IsReduced := by
  induction t with
  | comp op ts ih =>
      rw [forall_mem_parts_comp, isReduced_comp, ← forall₂_congr ih]
      constructor
      · intro h
        cases h with
        | leaf hleaf => cases hleaf
        | comp hlength hpruned hplain hts => exact ⟨⟨hlength, hpruned, hplain⟩, hts⟩
      · rintro ⟨⟨hlength, hpruned, hplain⟩, hts⟩
        exact .comp hlength hpruned hplain hts
  | fix binder body ih =>
      rw [parts, List.forall_mem_cons, ← ih, IsReduced, mem_freeAtoms]
      constructor
      · intro h
        cases h with
        | leaf hleaf => cases hleaf
        | fix hbinder hbody => exact ⟨hbinder, hbody⟩
      · rintro ⟨hbinder, hbody⟩
        exact .fix hbinder hbody
  | _ =>
      refine ⟨fun _ part hpart => ?_, fun _ => .leaf rfl⟩
      rw [List.mem_singleton.1 hpart]
      exact True.intro

theorem simplify_eq_self_iff : t.simplify = t ↔ Normal t :=
  ⟨fun h => h ▸ normal_simplify t, Normal.simplify_eq⟩

/-! ## Size -/

theorem sizeAll_append (ts us : List Trace) : sizeAll (ts ++ us) = sizeAll ts + sizeAll us := by
  induction ts with
  | nil => exact (Nat.zero_add _).symm
  | cons t ts ih => rw [List.cons_append, sizeAll, sizeAll, ih, Nat.add_assoc]

theorem sizeAll_le_of_sublist (h : ts.Sublist us) : sizeAll ts ≤ sizeAll us := by
  induction h with
  | slnil => exact Nat.le_refl _
  | cons t _ ih => exact ih.trans (Nat.le_add_left _ _)
  | cons_cons t _ ih => exact Nat.add_le_add_left ih _

theorem prune_sublist (op : Operator) (ts : List Trace) : (prune op ts).Sublist ts := by
  cases op with
  | seq =>
      rw [prune]
      rcases through_cases endsSequence ts with h | ⟨as, u, bs, rfl, -, h⟩
      · rw [h]
      · rw [h]
        exact (List.singleton_sublist.2 List.mem_cons_self).append_left as
  | par => exact List.Sublist.refl ts
  | det | ndet => exact View.sublist_eraseDups ts

theorem sizeAll_splice_le (op : Operator) (t : Trace) : sizeAll (splice op t) ≤ t.size := by
  rcases splice_cases op t with ⟨ts, rfl, heq⟩ | ⟨-, heq⟩ | heq
  · rw [heq, size]
    exact Nat.le_succ _
  · rw [heq]
    exact Nat.zero_le _
  · rw [heq]
    exact Nat.le_refl _

theorem sizeAll_flatMap_le {f : Trace → List Trace} (h : ∀ t ∈ ts, sizeAll (f t) ≤ t.size) :
    sizeAll (ts.flatMap f) ≤ sizeAll ts := by
  induction ts with
  | nil => exact Nat.le_refl _
  | cons t ts ih =>
      obtain ⟨ht, hts⟩ := List.forall_mem_cons.1 h
      rw [List.flatMap_cons, sizeAll_append, sizeAll]
      exact Nat.add_le_add ht (ih hts)

theorem size_collapse_le (op : Operator) (ts : List Trace) :
    (collapse op ts).size ≤ sizeAll ts + 1 := by
  match ts with
  | [] => cases op <;> exact Nat.le_refl _
  | [t] => exact Nat.le_succ _
  | t :: u :: ts => exact Nat.le_refl _

theorem size_simplify_le (t : Trace) : t.simplify.size ≤ t.size := by
  induction t with
  | comp op ts ih =>
      rw [simplify_comp, size]
      refine (size_collapse_le _ _).trans (Nat.succ_le_succ ?_)
      exact (sizeAll_le_of_sublist (prune_sublist op _)).trans
        (sizeAll_flatMap_le fun t ht => (sizeAll_splice_le op _).trans (ih t ht))
  | fix binder body ih =>
      rw [simplify]
      split
      · exact Nat.succ_le_succ ih
      · exact ih.trans (Nat.le_succ _)
  | _ => exact Nat.le_refl _

/-- Simplifying leads to a normal form in one pass, changes nothing that is one already, and brings
in no reference, no channel and no node. -/
theorem simplify_reaches_normal_form (t : Trace) :
    (∀ part ∈ t.simplify.parts, part.IsReduced) ∧
      (t.simplify = t ↔ ∀ part ∈ t.parts, part.IsReduced) ∧
      t.simplify.simplify = t.simplify ∧ t.simplify.freeAtoms ⊆ t.freeAtoms ∧
      t.simplify.channels ⊆ t.channels ∧ t.simplify.size ≤ t.size := by
  refine ⟨normal_iff.1 (normal_simplify t), simplify_eq_self_iff.trans normal_iff,
    simplify_simplify t, fun id hid => ?_, channels_simplify_subset t, size_simplify_le t⟩
  rw [mem_freeAtoms] at hid ⊢
  exact View.freeRefs_simplify_subset t hid

/-! ## Substitution -/

/-- Valuations that simplify alike give instances that simplify alike. -/
theorem simplify_instantiate_congr {σ τ : Valuation} (h : ∀ id, (σ id).simplify = (τ id).simplify)
    (t : Trace) : (t.instantiate σ).simplify = (t.instantiate τ).simplify := by
  induction t generalizing σ τ with
  | ref id => exact h id
  | comp op ts ih =>
      simp only [instantiate, instantiateAll_eq_map]
      refine simplify_comp_congr ?_
      rw [List.map_map, List.map_map]
      exact List.map_congr_left fun t ht => ih t ht h
  | fix binder body ih =>
      -- both valuations keep the binder, so the bodies refer to it alike
      have hunder : ∀ id,
          (σ.under binder id).simplify = (τ.under binder id).simplify := fun id => by
        by_cases hid : id = binder.id
        · simp only [Valuation.under, hid, Valuation.set_self]
        · simp only [Valuation.under, Valuation.set_of_ne _ _ hid, h id]
      rw [instantiate, instantiate, simplify, simplify, ih hunder]
  | _ => rfl

theorem isLocal_set_ref {id : AtomId} {r : Trace} (hr : r.freeRefs = []) :
    (Valuation.set .ref id r).IsLocal := by
  intro other free hfree
  by_cases hother : other = id
  · rw [hother, Valuation.set_self, hr] at hfree
    cases hfree
  · rw [Valuation.set_of_ne _ _ hother] at hfree
    exact List.mem_singleton.1 hfree

/-- What is put together from simplified traces simplifies to the same trace. -/
theorem simplify_substitute {r : Trace} (hr : r.isClosed = true) (id : AtomId) (t : Trace) :
    (substitute id r t).simplify = (substitute id r.simplify t.simplify).simplify := by
  have hclosed : r.simplify.freeRefs = [] := View.freeRefs_simplify (isClosed_iff.1 hr)
  have hsame : ∀ other, (Valuation.set .ref id r other).simplify =
      (Valuation.set .ref id r.simplify other).simplify := fun other => by
    by_cases hother : other = id
    · rw [hother, Valuation.set_self, Valuation.set_self, simplify_simplify]
    · rw [Valuation.set_of_ne _ _ hother, Valuation.set_of_ne _ _ hother]
  rw [substitute_eq_instantiate_ref, substitute_eq_instantiate_ref,
    simplify_instantiate_congr hsame, simplify_instantiate t (isLocal_set_ref hclosed)]

/-- Two references to the same trace, the second before a reference to a binder around it. -/
def handover : Trace :=
  .comp .det [.ref ⟨0⟩, .fix ⟨⟨1⟩, .loop ⟨0⟩⟩ (.comp .seq [.ref ⟨0⟩, .ref ⟨1⟩]),
    .event .input ⟨⟨0⟩, none⟩]

/-- Ends after one communication. -/
def farewell : Trace := .comp .det [.stop, .comp .seq [.event .output ⟨⟨0⟩, none⟩, .stop]]

/-- What is put in first ends the sequence before the bound reference, so the binder goes, and both
alternatives turn out to be the same. -/
theorem simplify_handover :
    (substitute ⟨0⟩ farewell handover).simplify =
        (substitute ⟨0⟩ farewell.simplify handover.simplify).simplify ∧
      (substitute ⟨0⟩ farewell handover).simplify =
        .comp .det [farewell.simplify, .event .input ⟨⟨0⟩, none⟩] :=
  ⟨simplify_substitute rfl ⟨0⟩ handover, by decide⟩

end ProcessContracts.Trace
