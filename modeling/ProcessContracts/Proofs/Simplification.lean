import ProcessContracts.Proofs.Laws
import ProcessContracts.Proofs.Observation
import ProcessContracts.Proofs.Recurrence

/-!
# Simplification keeps the behaviour

A simplified trace shows what the trace shows, after no more steps, and shows nothing else. The
rewrites are applied under binders too, so this is said of all instances of a trace: a `fix` is
compared with the simplified one as soon as all instances of the bodies are.
-/

namespace ProcessContracts

open Trace

namespace View

/-- The right side shows everything after no more steps. -/
def fewer (v : View) : Gauge where
  left := v.bare
  right := v.bare
  pace i j := j ≤ i
  marks p q := p = q ∧ (p.IsFlat ∨ p = v.bare.endless)
  escape := .never
  pace_refl := Nat.le_refl
  pace_trans h h' := Nat.le_trans h' h
  pace_add h h' := Nat.add_le_add h h'
  idle := .inl Nat.zero_le

/-- The right side shows everything after no fewer steps. -/
def more (v : View) : Gauge where
  left := v.bare
  right := v.bare
  pace i j := i ≤ j
  marks p q := p = q ∧ (p.IsFlat ∨ p = v.bare.endless)
  escape := .never
  pace_refl := Nat.le_refl
  pace_trans h h' := Nat.le_trans h h'
  pace_add h h' := Nat.add_le_add h h'
  idle := .inr ⟨rfl, rfl⟩

theorem isSteady_fewer (v : View) : v.fewer.IsSteady := ⟨rfl, rfl, Iff.rfl⟩

theorem isSteady_more (v : View) : v.more.IsSteady := ⟨rfl, rfl, Iff.rfl⟩

/-- Both traces show the same, the second one after no more steps. -/
structure Alike (v : View) (t u : Trace) : Prop where
  fewer : ∀ n, v.fewer.Below n t u
  more : ∀ n, v.more.Below n u t

variable {v : View} {t u w : Trace} {ts us as bs cs : List Trace} {σ : Valuation} {op : Operator}
  {binder : Atom} {body : Trace}

theorem Alike.refl (v : View) (t : Trace) : v.Alike t t :=
  ⟨fun _ => v.isSteady_fewer.below_refl, fun _ => v.isSteady_more.below_refl⟩

theorem Alike.trans (h : v.Alike t u) (h' : v.Alike u w) : v.Alike t w :=
  ⟨fun n => v.isSteady_fewer.trans (h.fewer n) h'.fewer,
    fun n => v.isSteady_more.trans (h'.more n) h.more⟩

theorem Condenses.alike (h : v.bare.Condenses t u) : v.Alike t u where
  fewer n k k' i s hk _ hsees := by
    obtain ⟨j, hj, h⟩ := h.forth hsees
    refine .inl ⟨j, hj, ?_⟩
    cases hk with
    | active hpq => exact hpq.1 ▸ h
    | _ => exact h
  more n k k' i s hk _ hsees := by
    obtain ⟨j, hj, h⟩ := h.back hsees
    refine .inl ⟨j, hj, ?_⟩
    cases hk with
    | active hpq => exact hpq.1 ▸ h
    | _ => exact h

theorem Alike.comp (h : List.Forall₂ v.Alike ts us) :
    v.Alike (.comp op ts) (.comp op us) where
  fewer n := Gauge.below_comp (h.imp fun _ _ h => h.fewer n)
  more n := Gauge.below_comp (h.flip.imp fun _ _ h => h.more n)

theorem Alike.collapse (h : List.Forall₂ v.Alike ts us) :
    v.Alike (collapse op ts) (collapse op us) := by
  cases h with
  | nil => exact .refl v _
  | cons h hs =>
      cases hs with
      | nil => exact h
      | cons h' hs => exact .comp (.cons h (.cons h' hs))

theorem Alike.collapse_child (h : v.Alike t u) :
    v.Alike (Trace.collapse op (as ++ t :: bs)) (Trace.collapse op (as ++ u :: bs)) := by
  have hsame : ∀ cs : List Trace, List.Forall₂ v.Alike cs cs := fun cs =>
    List.forall₂_same.2 fun c _ => .refl v c
  exact .collapse (List.rel_append (hsame as) (.cons h (hsame bs)))

/-! ## The rewrites -/

theorem instantiate_unit (σ : Valuation) (op : Operator) : (unit op).instantiate σ = unit op := by
  cases op <;> rfl

theorem instantiate_collapse (σ : Valuation) (op : Operator) (ts : List Trace) :
    (Trace.collapse op ts).instantiate σ = Trace.collapse op (ts.map (instantiate σ)) := by
  match ts with
  | [] => exact instantiate_unit σ op
  | [t] => rfl
  | t :: u :: ts => simp [Trace.collapse, instantiate]

theorem alike_nested (op : Operator) (as bs cs : List Trace) :
    v.Alike (Trace.collapse op (as ++ .comp op cs :: bs))
      (Trace.collapse op (as ++ (cs ++ bs))) := by
  by_cases hcs : 2 ≤ cs.length
  · exact (condenses_nested op hcs).alike
  · have hwrapper : v.Alike (.comp op cs) (Trace.collapse op cs) := (condenses_collapse op cs).alike
    refine hwrapper.collapse_child.trans ?_
    match cs, hcs with
    | [], _ => exact (condenses_unit op).alike
    | [c], _ => exact .refl v _
    | c :: c' :: cs, hcs => exact absurd (by simp) hcs

theorem eq_unit_of_vanishes (h : vanishes op t = true) : t = unit op := by
  cases op <;> cases t <;> simp_all [vanishes, unit]

theorem alike_splice (op : Operator) (as bs : List Trace) (c : Trace) :
    v.Alike (Trace.collapse op (as ++ c.instantiate σ :: bs))
      (Trace.collapse op (as ++ ((splice op c).map (instantiate σ) ++ bs))) := by
  have leaf : v.Alike (Trace.collapse op (as ++ c.instantiate σ :: bs)) (Trace.collapse op
      (as ++ ((if vanishes op c then [] else [c]).map (instantiate σ) ++ bs))) := by
    split
    case isTrue h =>
      rw [eq_unit_of_vanishes h, instantiate_unit]
      exact (condenses_unit op).alike
    case isFalse => exact .refl v _
  cases c with
  | comp inner cs =>
      by_cases h : inner = op
      · rw [h]
        simpa [splice, instantiate] using alike_nested op as bs _
      · simpa [splice, h] using Alike.refl v _
  | _ => exact leaf

theorem alike_flatMap_splice (op : Operator) (as cs : List Trace) :
    v.Alike (Trace.collapse op (as ++ cs.map (instantiate σ)))
      (Trace.collapse op (as ++ (cs.flatMap (splice op)).map (instantiate σ))) := by
  induction cs generalizing as with
  | nil => exact .refl v _
  | cons c cs ih =>
      rw [List.flatMap_cons, List.map_cons, List.map_append]
      refine (alike_splice op as _ c).trans ?_
      rw [← List.append_assoc, ← List.append_assoc]
      exact ih _

theorem sublist_eraseDups (ts : List Trace) : ts.eraseDups.Sublist ts := by
  generalize hn : ts.length = n
  induction n using Nat.strongRecOn generalizing ts with
  | ind n ih =>
      cases ts with
      | nil => exact .slnil
      | cons t ts =>
          rw [List.eraseDups_cons]
          have hlen := List.length_filter_le (fun b => !b == t) ts
          refine .cons_cons t (.trans (ih _ ?_ _ rfl) List.filter_sublist)
          rw [List.length_cons] at hn
          omega

theorem endsSequence_instantiate (h : endsSequence t = true) : t.instantiate σ = t := by
  cases t <;> simp_all [endsSequence, instantiate]

theorem alike_prune (op : Operator) (ts : List Trace) :
    v.Alike (Trace.collapse op (ts.map (instantiate σ)))
      (Trace.collapse op ((prune op ts).map (instantiate σ))) := by
  have choice : op = .det ∨ op = .ndet → v.Alike (Trace.collapse op (ts.map (instantiate σ)))
      (Trace.collapse op (ts.eraseDups.map (instantiate σ))) := by
    intro hop
    by_cases hts : ts = []
    · subst hts
      exact .refl v _
    · refine Condenses.alike (condenses_choice hop ((sublist_eraseDups ts).map _) ?_ ?_)
      · intro t ht
        obtain ⟨c, hc, rfl⟩ := List.mem_map.1 ht
        exact .inl (List.mem_map_of_mem (List.mem_eraseDups.2 hc))
      · obtain ⟨t, ts, rfl⟩ := List.exists_cons_of_ne_nil hts
        rw [List.eraseDups_cons]
        simp
  cases op with
  | seq =>
      rw [prune]
      rcases through_cases endsSequence ts with h | ⟨as, t, bs, rfl, ht, h⟩
      · rw [h]
        exact .refl v _
      · rw [h]
        simp only [List.map_append, List.map_cons, List.map_nil, endsSequence_instantiate ht]
        exact (condenses_seq_end ht).alike
  | par => exact .refl v _
  | det => exact choice (.inl rfl)
  | ndet => exact choice (.inr rfl)

theorem alike_unwrap (hσ : σ.IsClosed) (h : binder.id ∉ body.freeRefs) :
    v.Alike ((Trace.fix binder body).instantiate σ) (body.instantiate σ) := by
  have hbody : body.instantiate (σ.set binder.id ((Trace.fix binder body).instantiate σ)) =
      body.instantiate σ := instantiate_congr fun id hid =>
    Valuation.set_of_ne _ _ fun e => h (e ▸ hid)
  have hspins : ¬ v.bare.endless.holds ((Trace.fix binder body).instantiate σ) := by
    rintro (hdiv | hspins)
    · cases hdiv
    · refine not_spins_of_notMem (freeRefs_instantiate hσ (.fix binder body)) (fun hid => ?_) hspins
      obtain ⟨other, hother, hid⟩ := mem_freeRefs_instantiate hid
      by_cases hb : other = binder.id
      · exact h (hb ▸ hother)
      · rw [Valuation.under, Valuation.set_of_ne _ _ hb, hσ other] at hid
        cases hid
  constructor
  · intro n k k' i s hk _ hsees
    rcases (sees_fix_instantiate hσ binder body).1 hsees with ⟨rfl, rfl, rfl | ⟨p, rfl, hp⟩⟩ |
      ⟨i', rfl, hsees'⟩
    · exact .inl (Gauge.below_going _ hk)
    · cases hk with
      | active hpq =>
          obtain ⟨rfl, hflat | rfl⟩ := hpq
          · exact absurd hp (hflat _ _)
          · exact absurd hp hspins
    · refine .inl ⟨i', Nat.le_succ i', ?_⟩
      rw [hbody] at hsees'
      cases hk with
      | active hpq => exact hpq.1 ▸ hsees'
      | _ => exact hsees'
  · intro n k k' i s hk _ hsees
    refine .inl ⟨i + 1, Nat.le_succ i, (sees_fix_instantiate hσ binder body).2 (.inr ⟨i, rfl, ?_⟩)⟩
    rw [hbody]
    cases hk with
    | active hpq => exact hpq.1 ▸ hsees
    | _ => exact hsees

theorem Alike.fix (hσ : σ.IsClosed) {body' : Trace}
    (h : ∀ τ : Valuation, τ.IsClosed → v.Alike (body.instantiate τ) (body'.instantiate τ)) :
    v.Alike ((Trace.fix binder body).instantiate σ) ((Trace.fix binder body').instantiate σ) where
  fewer _ := v.isSteady_fewer.below_fix hσ fun τ hτ => (h τ hτ).fewer
  more _ := v.isSteady_more.below_fix hσ fun τ hτ => (h τ hτ).more

/-- Every instance of a trace behaves like that of the simplified trace. -/
theorem alike_simplify (t : Trace) (hσ : σ.IsClosed) :
    v.Alike (t.instantiate σ) (t.simplify.instantiate σ) := by
  induction t generalizing σ with
  | comp op ts ih =>
      simp only [simplify, simplifyAll_eq_map, instantiate_collapse]
      have hchildren : v.Alike ((Trace.comp op ts).instantiate σ)
          (.comp op ((ts.map simplify).map (instantiate σ))) := by
        simp only [instantiate, instantiateAll_eq_map]
        refine .comp ?_
        rw [List.map_map, List.forall₂_map_left_iff, List.forall₂_map_right_iff]
        exact List.forall₂_same.2 fun c hc => ih c hc hσ
      refine hchildren.trans ((condenses_collapse op _).alike.trans ?_)
      exact (alike_flatMap_splice op [] (ts.map simplify)).trans (alike_prune op _)
  | fix binder body ih =>
      have hbody : v.Alike ((Trace.fix binder body).instantiate σ)
          ((Trace.fix binder body.simplify).instantiate σ) := .fix hσ fun τ hτ => ih hτ
      simp only [simplify]
      split
      case isTrue => exact hbody
      case isFalse h => exact hbody.trans (alike_unwrap hσ fun hid => h (refersTo_iff.2 hid))
  | _ => exact .refl v _

/-! ## What is observed -/

/-- The sightings that simplification keeps. -/
def Keeps (v : View) : Sight → Prop
  | .active mark => mark.IsFlat ∨ mark = v.bare.endless
  | _ => True

theorem Alike.forth {k : Sight} {n : Nat} {s : List Label} (h : v.Alike t u) (hk : v.Keeps k)
    (hsees : v.bare.Sees k t n s) : ∃ m ≤ n, v.bare.Sees k u m s := by
  refine (h.fewer n).answer rfl ?_ (Nat.le_refl n) hsees
  cases k with
  | going => exact .going
  | done => exact .done
  | active mark => exact .active ⟨rfl, hk⟩

theorem Alike.back {k : Sight} {n : Nat} {s : List Label} (h : v.Alike t u) (hk : v.Keeps k)
    (hsees : v.bare.Sees k u n s) : ∃ m ≥ n, v.bare.Sees k t m s := by
  refine (h.more n).answer rfl ?_ (Nat.le_refl n) hsees
  cases k with
  | going => exact .going
  | done => exact .done
  | active mark => exact .active ⟨rfl, hk⟩

theorem Alike.sees_iff {k : Sight} {s : List Label} (h : v.Alike t u) (hk : v.Keeps k) :
    (∃ n, v.bare.Sees k t n s) ↔ ∃ n, v.bare.Sees k u n s := by
  constructor
  · rintro ⟨n, hsees⟩
    obtain ⟨m, -, hsees⟩ := h.forth hk hsees
    exact ⟨m, hsees⟩
  · rintro ⟨n, hsees⟩
    obtain ⟨m, -, hsees⟩ := h.back hk hsees
    exact ⟨m, hsees⟩

/-- The sights that observations are made of. -/
inductive Watches (v : View) : Sight → Prop
  | going : Watches v .going
  | done : Watches v .done
  | chaos : Watches v (.active .chaos)
  | vague : Watches v (.active .vague)
  | endless : Watches v (.active v.bare.endless)

theorem Watches.keeps {k : Sight} (hk : v.Watches k) : v.Keeps k := by
  cases hk with
  | going | done => trivial
  | chaos => exact .inl Mark.isFlat_chaos
  | vague => exact .inl Mark.isFlat_vague
  | endless => exact .inr rfl

/-- All that is observed of `u` is observed of `t` as well. -/
def Shows (v : View) (t u : Trace) : Prop :=
  ∀ ⦃k⦄, v.Watches k → ∀ ⦃n s⦄, v.bare.Sees k u n s → ∃ m, v.bare.Sees k t m s

theorem Alike.shows_right (h : v.Alike t u) : v.Shows u t := fun _ hk _ _ hsees =>
  h.sees_iff hk.keeps |>.1 ⟨_, hsees⟩

theorem Alike.shows_left (h : v.Alike t u) : v.Shows t u := fun _ hk _ _ hsees =>
  h.sees_iff hk.keeps |>.2 ⟨_, hsees⟩

namespace Shows

variable {s : List Label}

theorem sees (h : v.Shows t u) {k : Sight} (hk : v.Watches k) (hsees : ∃ n, v.bare.Sees k u n s) :
    ∃ n, v.bare.Sees k t n s := by
  obtain ⟨n, hsees⟩ := hsees
  exact h hk hsees

theorem hasTrace (h : v.Shows t u) (hu : v.bare.HasTrace u s) : v.bare.HasTrace t s := by
  rw [hasTrace_iff] at hu ⊢
  rcases hu with hu | ⟨p, rfl, hu⟩
  · exact .inl (h.sees .going hu)
  · exact .inr ⟨p, rfl, h.sees .done hu⟩

theorem diverges (h : v.Shows t u) (ht : t.freeRefs = []) (hu : u.freeRefs = [])
    (hd : v.bare.Diverges u s) : v.bare.Diverges t s := by
  rw [diverges_iff_sees ht]
  rw [diverges_iff_sees hu] at hd
  exact h.sees .endless hd

theorem chaotic (h : v.Shows t u) (hu : v.bare.Chaotic u s) : v.bare.Chaotic t s := by
  rw [chaotic_iff] at hu ⊢
  exact h.sees .chaos hu

theorem unconstrained (h : v.Shows t u) (hu : v.bare.Unconstrained u s) :
    v.bare.Unconstrained t s := by
  rw [unconstrained_iff] at hu ⊢
  exact h.sees .vague hu

theorem agree (h : v.Shows t u) (h' : v.Shows u t) (ht : t.freeRefs = []) (hu : u.freeRefs = []) :
    v.bare.Agree t u where
  traces _ := ⟨h'.hasTrace, h.hasTrace⟩
  diverges _ := ⟨h'.diverges hu ht, h.diverges ht hu⟩
  chaotic _ := ⟨h'.chaotic, h.chaotic⟩
  unconstrained _ := ⟨h'.unconstrained, h.unconstrained⟩

end Shows

theorem Alike.agree (h : v.Alike t u) (ht : t.freeRefs = []) (hu : u.freeRefs = []) :
    v.bare.Agree t u := h.shows_left.agree h.shows_right ht hu

/-! ## Closed traces -/

theorem freeRefs_simplify_subset (t : Trace) : t.simplify.freeRefs ⊆ t.freeRefs := by
  induction t with
  | comp op ts ih =>
      have hp := componentwise_freeRefs (Trace.comp op ts).freeRefs
      exact hp.simplify fun t ht => List.Subset.trans (ih t ht)
        (hp.comp.1 (List.Subset.refl _) t ht)
  | fix binder body ih =>
      intro id h
      simp only [simplify] at h
      split at h
      case isTrue =>
        obtain ⟨hid, hne⟩ := mem_freeRefs_fix.1 h
        exact mem_freeRefs_fix.2 ⟨ih hid, hne⟩
      case isFalse hno =>
        exact mem_freeRefs_fix.2 ⟨ih h, fun e => hno (refersTo_iff.2 (e ▸ h))⟩
  | _ => exact List.Subset.refl _

theorem freeRefs_simplify (ht : t.freeRefs = []) : t.simplify.freeRefs = [] :=
  List.subset_nil.1 (ht ▸ freeRefs_simplify_subset t)

theorem alike_simplify_of_closed (ht : t.freeRefs = []) : v.Alike t t.simplify := by
  have h : v.Alike (t.instantiate fun _ => .stop) (t.simplify.instantiate fun _ => .stop) :=
    alike_simplify t fun _ => rfl
  rwa [instantiate_of_closed _ ht, instantiate_of_closed _ (freeRefs_simplify ht)] at h

end View

/-- Simplifying a closed trace changes nothing that can be observed of it. -/
theorem Program.agree_simplify (program : Program) {t : Trace} (ht : t.isClosed = true) :
    program.view.Agree t t.simplify :=
  have hclosed := isClosed_iff.1 ht
  (View.alike_simplify_of_closed (v := program.view) hclosed).agree hclosed
    (View.freeRefs_simplify hclosed)

/-- Merging repeated alternatives of a loop and dropping one that can do nothing. -/
theorem Program.agree_repeated_alternatives :
    (Program.view { name := "loop" }).Agree
      (.fix ⟨⟨0⟩, .loop ⟨0⟩⟩ (.comp .det [.comp .seq [.event .input ⟨⟨0⟩, none⟩, .skip, .ref ⟨0⟩],
        .comp .seq [.event .input ⟨⟨0⟩, none⟩, .ref ⟨0⟩], .stop]))
      (.fix ⟨⟨0⟩, .loop ⟨0⟩⟩ (.comp .seq [.event .input ⟨⟨0⟩, none⟩, .ref ⟨0⟩])) :=
  Program.agree_simplify { name := "loop" } (t := .fix ⟨⟨0⟩, .loop ⟨0⟩⟩ (.comp .det
    [.comp .seq [.event .input ⟨⟨0⟩, none⟩, .skip, .ref ⟨0⟩],
      .comp .seq [.event .input ⟨⟨0⟩, none⟩, .ref ⟨0⟩], .stop])) (by decide)

end ProcessContracts
