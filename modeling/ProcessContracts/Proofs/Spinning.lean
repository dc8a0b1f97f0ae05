import Mathlib.Data.List.Basic
import Mathlib.Order.Filter.Cofinite
import ProcessContracts.Proofs.SilentRuns
import ProcessContracts.Proofs.Unfolding

/-!
# Spinning

What makes a closed trace run silently forever is a `fix` whose body silently gets to the point
where it refers to the `fix` again. An atom that occurs nowhere else, put in for the references,
makes that visible. Such a `fix` spins, and a trace does not calm down exactly if it gets silently
to `div` or to a spinning `fix`. Divergence is thereby a sighting like any other.
-/

namespace ProcessContracts

open Filter Trace

instance : Infinite Atom :=
  Infinite.of_injective (fun n => (⟨⟨n⟩, .loop ⟨0⟩⟩ : Atom)) fun _ _ h => by simpa using h

theorem Trace.eventually_atom_notMem (ts : List Trace) :
    ∀ᶠ a in cofinite, Trace.atom a ∉ ts := by
  have hfinite : {a | Trace.atom a ∈ ts}.Finite :=
    (List.finite_toSet ts).preimage fun a _ b _ h => Trace.atom.inj h
  simpa [Filter.eventually_cofinite] using hfinite

theorem Gauge.idle_always {left right : View} :
    (∀ _ : Nat, True) ∨ (left.bare = left ∧ right.bare = right) := .inl fun _ => trivial

/-- The gauge that counts no steps and asks for `q` in answer to `p`. -/
def Gauge.loose (v : View) (p q escape : Mark) : Gauge where
  left := v
  right := v
  pace _ _ := True
  marks p' q' := p' = p ∧ q' = q
  escape := escape
  pace_refl _ := trivial
  pace_trans _ _ := trivial
  pace_add _ _ := trivial
  idle := idle_always

namespace View

/-- The body of the `fix` gets silently to a reference to the `fix`. -/
def Spins (v : View) (t : Trace) : Prop :=
  ∃ binder body, t = .fix binder body ∧ ∀ᶠ a in cofinite,
    ∃ n, v.Sees (.active (.atom a)) (substitute binder.id (.atom a) body) n []

/-- The trace gets silently to a reference to `id`. -/
def Wakes (v : View) (id : AtomId) (t : Trace) (σ : Valuation) : Prop :=
  ∀ᶠ a in cofinite, ∃ n, v.Sees (.active (.atom a)) (t.instantiate (σ.set id (.atom a))) n []

/-- The components that never calm down by themselves. -/
def endless (v : View) : Mark where
  holds t := t = .div ∨ v.Spins t
  lasting := by
    rintro t (rfl | ⟨binder, body, rfl, -⟩)
    · exact trivial
    · exact trivial

variable {v : View} {t u x : Trace} {ts : List Trace} {σ : Valuation} {binder : Atom} {body : Trace}

theorem spins_instantiate (hσ : σ.IsClosed) :
    v.Spins ((Trace.fix binder body).instantiate σ) ↔ v.Wakes binder.id body σ := by
  have hsubst : ∀ a, substitute binder.id (.atom a) (body.instantiate (σ.under binder)) =
      body.instantiate (σ.set binder.id (.atom a)) := fun a =>
    substitute_instantiate body fun other _ => by simp [hσ other]
  constructor
  · rintro ⟨b, c, heq, h⟩
    simp only [instantiate, Trace.fix.injEq] at heq
    obtain ⟨rfl, rfl⟩ := heq
    simpa only [hsubst, Wakes] using h
  · intro h
    exact ⟨binder, _, rfl, by simpa only [hsubst, Wakes] using h⟩

/-! ## Components and what hosts them -/

/-- `Hosts t x`: what `x` does silently, `t` does too. -/
inductive Hosts : Trace → Trace → Prop
  | here (t : Trace) : Hosts t t
  | head {t x : Trace} {ts : List Trace} : Hosts t x → Hosts (.comp .seq (t :: ts)) x
  | par {t x : Trace} {as bs : List Trace} : Hosts t x → Hosts (.comp .par (as ++ t :: bs)) x
  | det {t x : Trace} {as bs : List Trace} : Hosts t x → Hosts (.comp .det (as ++ t :: bs)) x

theorem hosts_of_mem_active {l : Trace} (h : l ∈ t.active) : Hosts t l := by
  induction t with
  | comp op ts ih =>
      cases op with
      | seq =>
          cases ts with
          | nil => simp [active] at h
          | cons t ts => exact .head (ih t List.mem_cons_self (by simpa [active] using h))
      | par =>
          obtain ⟨c, hc, hl⟩ := mem_active_par.1 h
          obtain ⟨as, bs, rfl⟩ := List.append_of_mem hc
          exact .par (ih c hc hl)
      | det =>
          obtain ⟨c, hc, hl⟩ := mem_active_det.1 h
          obtain ⟨as, bs, rfl⟩ := List.append_of_mem hc
          exact .det (ih c hc hl)
      | ndet =>
          rw [active, List.mem_singleton] at h
          · exact h ▸ .here _
          all_goals simp
  | _ =>
      rw [active, List.mem_singleton] at h
      · exact h ▸ .here _
      all_goals simp

theorem Hosts.mem_active {l : Trace} (h : Hosts t x) (hl : l ∈ x.active) : l ∈ t.active := by
  induction h with
  | here => exact hl
  | head _ ih => simpa [active] using ih hl
  | par _ ih => exact mem_active_par.2 ⟨_, by simp, ih hl⟩
  | det _ ih => exact mem_active_det.2 ⟨_, by simp, ih hl⟩

theorem Hosts.quiet (h : Hosts t x) (hx : v.Quiet x u) : ∃ t', v.Quiet t t' ∧ Hosts t' u := by
  induction h with
  | here => exact ⟨u, hx, .here u⟩
  | head _ ih =>
      obtain ⟨t', ⟨m, hm, hq⟩, hhosts⟩ := ih hx
      exact ⟨_, ⟨m, mem_moves_seq_cons.2 ⟨m, t', hm, .inr ⟨ne_tick_of_noted hq, rfl, rfl⟩⟩, hq⟩,
        .head hhosts⟩
  | par _ ih =>
      obtain ⟨t', ⟨m, hm, hq⟩, hhosts⟩ := ih hx
      exact ⟨_, ⟨m, (mem_moves_par (by simp)).2
        ⟨_, _, _, m, t', rfl, hm, .inr ⟨ne_tick_of_noted hq, rfl, rfl⟩⟩, hq⟩, .par hhosts⟩
  | det _ ih =>
      obtain ⟨t', ⟨m, hm, hq⟩, hhosts⟩ := ih hx
      by_cases hm' : m = .tau
      · subst hm'
        exact ⟨_, quiet_tau ((mem_moves_det (by simp)).2
          ⟨_, _, _, _, t', rfl, hm, .inl ⟨rfl, rfl, rfl⟩⟩), .det hhosts⟩
      · exact ⟨t', ⟨m, (mem_moves_det (by simp)).2
          ⟨_, _, _, m, t', rfl, hm, .inr ⟨hm', rfl, rfl⟩⟩, hq⟩, hhosts⟩

theorem Sees.of_quiet {k : Sight} {n : Nat} {s : List Label} (hu : v.Quiet t u)
    (h : v.Sees k u n s) : v.Sees k t (n + 1) s := by
  obtain ⟨m, hm, hq⟩ := hu
  have := Sees.step hm (ne_tick_of_noted hq) h
  rwa [hq] at this

/-- A sighting after silent steps is there already or begins with one of them. -/
theorem Sees.cases_silent {mark : Mark} {n : Nat} (h : v.Sees (.active mark) t n []) :
    (n = 0 ∧ ∃ l ∈ t.active, mark.holds l) ∨
      ∃ u m, v.Quiet t u ∧ n = m + 1 ∧ v.Sees (.active mark) u m [] := by
  generalize hs : ([] : List Label) = s at h
  cases h with
  | active hl hp => exact .inl ⟨rfl, _, hl, hp⟩
  | step hm _ h =>
      rw [eq_comm, List.append_eq_nil_iff, Option.toList_eq_nil_iff] at hs
      obtain ⟨hq, rfl⟩ := hs
      exact .inr ⟨_, _, ⟨_, hm, hq⟩, rfl, by simpa [hq] using h⟩

theorem Hosts.sees {mark : Mark} {n : Nat} (h : Hosts t x)
    (hx : v.Sees (.active mark) x n []) : v.Sees (.active mark) t n [] := by
  induction n generalizing t x with
  | zero =>
      rcases hx.cases_silent with ⟨-, l, hl, hp⟩ | ⟨u, m, -, hm, -⟩
      · exact .active (h.mem_active hl) hp
      · omega
  | succ n ih =>
      rcases hx.cases_silent with ⟨hn, -⟩ | ⟨u, m, hu, hm, hsees⟩
      · omega
      · obtain rfl : n = m := by omega
        obtain ⟨t', ht', hhosts⟩ := h.quiet hu
        exact .of_quiet ht' (ih hhosts hsees)

/-! ## What spins never calms down -/

theorem Hosts.calmsDown (h : Hosts t x) (ht : v.CalmsDown t) : v.CalmsDown x := by
  induction ht generalizing x with
  | @intro t hd _ ih =>
      refine .intro ?_ fun u hu => ?_
      · rw [Trace.diverges, List.any_eq_false] at hd ⊢
        exact fun l hl => hd l (h.mem_active hl)
      · obtain ⟨t', ht', hhosts⟩ := h.quiet hu
        exact ih t' ht' hhosts

/-- Silently the `fix` becomes active again and again. -/
theorem Spins.returns (hclosed : t.freeRefs = []) (h : v.Spins t) (ht : t.IsLasting) :
    ∃ u n, v.Quiet t u ∧ v.Sees (.active (.only t ht)) u n [] := by
  obtain ⟨binder, body, rfl, h⟩ := h
  obtain ⟨a, ⟨n, h⟩, hfresh⟩ := (h.and (eventually_atom_notMem body.leaves)).exists
  have hσ : Valuation.IsClosed fun _ => .stop := fun _ => rfl
  rw [substitute_eq_instantiate hclosed] at h
  have hbelow := Gauge.under_self
    (g := .loose v (.atom a) (.only (.fix binder body) ht) .never) (t := body) rfl
    (by rintro p q ⟨rfl, -⟩ b c hb; cases hb)
    (by rintro l hl p q ⟨rfl, -⟩ rfl; exact absurd hl hfresh)
    (n := n) (hσ.set binder.id (t := .atom a) rfl) (hσ.set binder.id hclosed) trivial
    (Gauge.below_set binder.id
      (Gauge.below_of_moves_nil rfl fun p q hpq l hl hp => by
        obtain ⟨-, rfl⟩ := hpq
        exact ⟨_, List.mem_singleton_self _, rfl⟩)
      fun _ => Gauge.below_stop)
  obtain ⟨m, -, h⟩ := hbelow.answer rfl (.active ⟨rfl, rfl⟩) (Nat.le_refl n) h
  rw [← substitute_eq_instantiate hclosed] at h
  exact ⟨_, m, quiet_tau (by simp [moves]), h⟩

theorem Spins.not_calmsDown (hclosed : t.freeRefs = []) (h : v.Spins t) : ¬ v.CalmsDown t := by
  have ht : t.IsLasting := by
    obtain ⟨binder, body, rfl, -⟩ := h
    exact trivial
  obtain ⟨t', m, ht', hreturn⟩ := h.returns hclosed ht
  have key : ∀ u, v.CalmsDown u → ∀ n, ¬ v.Sees (.active (.only t ht)) u n [] := by
    intro u hu
    induction hu with
    | @intro u _ _ ih =>
        intro n hsees
        rcases hsees.cases_silent with ⟨-, l, hl, hlt⟩ | ⟨w, m, hw, -, hsees⟩
        · rw [show l = t from hlt] at hl
          obtain ⟨u', hu', hhosts⟩ := (hosts_of_mem_active hl).quiet ht'
          exact ih u' hu' m (hhosts.sees hreturn)
        · exact ih w hw m hsees
  exact fun hcalm => key t hcalm (m + 1) (.of_quiet ht' hreturn)

theorem not_calmsDown_of_sees {n : Nat} (hclosed : t.freeRefs = [])
    (h : v.Sees (.active v.endless) t n []) : ¬ v.CalmsDown t := by
  induction n generalizing t with
  | zero =>
      rcases h.cases_silent with ⟨-, l, hl, rfl | hspins⟩ | ⟨u, m, -, hm, -⟩
      · intro hcalm
        have hdiv := List.any_eq_false.1 hcalm.diverges _ hl
        simp at hdiv
      · exact fun hcalm => hspins.not_calmsDown (freeRefs_of_mem_active hclosed hl)
          ((hosts_of_mem_active hl).calmsDown hcalm)
      · omega
  | succ n ih =>
      rcases h.cases_silent with ⟨hn, -⟩ | ⟨u, m, hu, hm, hsees⟩
      · omega
      · obtain rfl : n = m := by omega
        obtain ⟨_, hstep, -⟩ := id hu
        exact fun hcalm => ih (freeRefs_of_mem_moves hclosed hstep) hsees (hcalm.next hu)

/-! ## What never calms down gets to a component that spins -/

theorem chain_of_finishes {k : Sight} {as bs : List Trace} {n : Nat} {s : List Label}
    (has : ∀ a ∈ as, v.Finishes a) (h : Chain v k bs n s) : ∃ m, Chain v k (as ++ bs) m s := by
  induction as with
  | nil => exact ⟨n, h⟩
  | cons a as ih =>
      obtain ⟨i, hfirst⟩ := has a List.mem_cons_self
      obtain ⟨m, hrest⟩ := ih fun a ha => has a (List.mem_cons_of_mem _ ha)
      exact ⟨i + m, .past hfirst hrest⟩

/-- What a child gets to silently, the composition gets to as well if the child's turn comes. -/
theorem sees_comp_of_child {op : Operator} {as : List Trace} (bs : List Trace) {mark : Mark}
    {n : Nat} (has : op = .seq → ∀ a ∈ as, v.Finishes a) (h : v.Sees (.active mark) t n []) :
    ∃ m, v.Sees (.active mark) (.comp op (as ++ t :: bs)) m [] := by
  cases op with
  | seq =>
      cases as with
      | nil => exact ⟨n, sees_seq_cons.2 (.inl ⟨by simp, h⟩)⟩
      | cons a as =>
          have hrest : Chain v (.active mark) (t :: bs) n [] := .here (by simp) h
          obtain ⟨m, hchain⟩ := chain_of_finishes (has rfl) hrest
          rw [List.cons_append] at hchain ⊢
          rw [← collapse_of_two_le (by simp; omega)]
          exact ⟨m, (sees_collapse_seq (by simp)).2 hchain⟩
  | par => exact ⟨n, (Hosts.par (.here t)).sees h⟩
  | det => exact ⟨n, (Hosts.det (.here t)).sees h⟩
  | ndet => exact ⟨n + 1, (sees_ndet (by simp)).2 (.inr ⟨n, rfl, t, by simp, h⟩)⟩

/-- The gauge that excuses everything after the atom put in for some reference. -/
def upTo (v : View) (a : Atom) : Gauge := .loose v (.atom a) (.atom a) (.atom a)

theorem below_upTo_set {a : Atom} {n : Nat} (σ : Valuation) (id other : AtomId) :
    (v.upTo a).Below n (σ other) (σ.set id (.atom a) other) := by
  by_cases hid : other = id
  · subst hid
    rw [Valuation.set_self]
    intro _ _ _ _ _ _ _
    exact .inr ⟨[], List.nil_prefix, 0, .active (List.mem_singleton_self _) rfl⟩
  · rw [Valuation.set_of_ne _ _ hid]
    exact Gauge.below_refl rfl (by rintro p q ⟨rfl, rfl⟩ l hl; exact hl)

theorem under_upTo {a : Atom} (t : Trace) :
    (v.upTo a).Under (fun _ _ => True) t t :=
  Gauge.under_self rfl (by rintro p q ⟨rfl, -⟩ b c hb; cases hb)
    (by rintro l - p q ⟨rfl, rfl⟩ hl; exact hl)

theorem exists_sees_of_below_upTo {a : Atom} {n i : Nat} (h : (v.upTo a).Below n t u)
    (hi : i ≤ n) (hsees : v.Sees (.active (.atom a)) t i []) :
    ∃ j, v.Sees (.active (.atom a)) u j [] := by
  rcases h (.active ⟨rfl, rfl⟩) hi hsees with ⟨j, -, h⟩ | ⟨p, hp, j, h⟩
  · exact ⟨j, h⟩
  · rw [List.prefix_nil.1 hp] at h
    exact ⟨j, h⟩

theorem Wakes.comp {op : Operator} {as bs : List Trace} {id : AtomId} (hσ : σ.IsClosed)
    (has : op = .seq → ∀ a ∈ as, v.Finishes (a.instantiate σ)) (h : v.Wakes id t σ) :
    v.Wakes id (.comp op (as ++ t :: bs)) σ := by
  filter_upwards [h] with a ⟨n, hsees⟩
  have hatom : v.Sees (.active (.atom a)) (.atom a) 0 [] := .active (List.mem_singleton_self _) rfl
  have has' : op = .seq → ∀ c ∈ as.map (instantiate σ), v.Finishes c := by simpa using has
  obtain ⟨m, hcomp⟩ := sees_comp_of_child (bs.map (instantiate σ)) has' hatom
  have hself : ∀ c : Trace, (v.upTo a).Below m (c.instantiate σ)
      (c.instantiate (σ.set id (.atom a))) := fun c =>
    under_upTo c hσ (hσ.set id rfl) trivial (below_upTo_set σ id)
  have hchild : (v.upTo a).Below m (.atom a) (t.instantiate (σ.set id (.atom a))) := by
    intro k k' i s hk hi h
    obtain ⟨rfl, rfl, rfl | ⟨p, l, rfl, -, -⟩⟩ := (sees_of_moves_nil rfl).1 h
    · exact .inl (Gauge.below_going _ hk)
    · cases hk with
      | active hpq =>
          obtain ⟨rfl, rfl⟩ := hpq
          exact .inl ⟨n, trivial, hsees⟩
  have hsame : ∀ cs : List Trace, List.Forall₂ ((v.upTo a).Below m) (cs.map (instantiate σ))
      (cs.map (instantiate (σ.set id (.atom a)))) := fun cs =>
    List.forall₂_map_left_iff.2 (List.forall₂_map_right_iff.2
      (List.forall₂_same.2 fun c _ => hself c))
  refine exists_sees_of_below_upTo ?_ (Nat.le_refl m) hcomp
  simp only [instantiate, instantiateAll_eq_map, List.map_append, List.map_cons]
  exact Gauge.below_comp (List.rel_append (hsame as) (.cons hchild (hsame bs)))

theorem Wakes.fix {id : AtomId} (hσ : σ.IsClosed) (hid : id ≠ binder.id)
    (h : v.Wakes id body (σ.set binder.id ((Trace.fix binder body).instantiate σ))) :
    v.Wakes id (.fix binder body) σ := by
  filter_upwards [h] with a ⟨n, hsees⟩
  have hset : (σ.set id (.atom a)).IsClosed := hσ.set id rfl
  have hfix := under_upTo (v := v) (a := a) (n := n) (.fix binder body) hσ hset trivial
    (below_upTo_set σ id)
  rw [Valuation.set_comm _ hid.symm] at hsees
  have hbody := under_upTo (v := v) (a := a) (n := n) body
    (hset.set binder.id (freeRefs_instantiate hσ (.fix binder body)))
    (hset.set binder.id (freeRefs_instantiate hset (.fix binder body))) trivial
    (Gauge.below_set binder.id hfix fun _ =>
      Gauge.below_refl rfl (by rintro p q ⟨rfl, rfl⟩ l hl; exact hl))
  obtain ⟨m, h⟩ := exists_sees_of_below_upTo hbody (Nat.le_refl n) hsees
  exact ⟨m + 1, (sees_fix_instantiate hset binder body).2 (.inr ⟨m, rfl, h⟩)⟩

theorem wakes_or_sees_endless (t : Trace) (hσ : σ.IsClosed) (h : ¬ v.CalmsDown (t.instantiate σ)) :
    (∃ id ∈ t.freeRefs, ¬ v.CalmsDown (σ id) ∧ v.Wakes id t σ) ∨
      ∃ n, v.Sees (.active v.endless) (t.instantiate σ) n [] := by
  induction t generalizing σ with
  | skip => exact absurd (calmsDown_skip v) h
  | div => exact .inr ⟨0, .active (List.mem_singleton_self _) (.inl rfl)⟩
  | event direction chan => exact absurd (calmsDown_event direction chan) h
  | ref id =>
      refine .inl ⟨id, by simp [freeRefs], h, .of_forall fun a => ⟨0, ?_⟩⟩
      simpa [instantiate] using Sees.active (List.mem_singleton_self (Trace.atom a)) rfl
  | comp op ts ih =>
      simp only [instantiate, instantiateAll_eq_map] at h ⊢
      obtain ⟨as', c', bs', hsplit, hc, has⟩ := not_calmsDown_comp h
      obtain ⟨as, rest, rfl, rfl, hrest⟩ := List.map_eq_append_iff.1 hsplit
      obtain ⟨c, bs, rfl, rfl, rfl⟩ := List.map_eq_cons_iff.1 hrest
      have hmem : c ∈ as ++ c :: bs := by simp
      rcases ih c hmem hσ hc with ⟨id, hid, hcalm, hwakes⟩ | ⟨n, hsees⟩
      · refine .inl ⟨id, mem_freeRefs_comp.2 ⟨c, hmem, hid⟩, hcalm,
          hwakes.comp hσ fun hop a ha => ?_⟩
        exact has hop _ (List.mem_map_of_mem ha)
      · rw [List.map_append, List.map_cons]
        exact .inr (sees_comp_of_child _ has hsees)
  | fix binder body ih =>
      have hfix := freeRefs_instantiate hσ (.fix binder body)
      have hbody : ¬ v.CalmsDown
          (body.instantiate (σ.set binder.id ((Trace.fix binder body).instantiate σ))) := by
        rw [← unfold_instantiate hσ binder body]
        exact fun hcalm => h (calmsDown_fix hcalm)
      have later : ∀ {n}, v.Sees (.active v.endless) (body.instantiate (σ.set binder.id
          ((Trace.fix binder body).instantiate σ))) n [] →
          v.Sees (.active v.endless) ((Trace.fix binder body).instantiate σ) (n + 1) [] :=
        fun hsees => (sees_fix_instantiate hσ binder body).2 (.inr ⟨_, rfl, hsees⟩)
      rcases ih (hσ.set binder.id hfix) hbody with ⟨id, hid, hcalm, hwakes⟩ | ⟨n, hsees⟩
      · by_cases hb : id = binder.id
        · -- The body refers to the `fix` itself, which thereby spins.
          subst hb
          rw [Wakes] at hwakes
          simp only [Valuation.set_set] at hwakes
          exact .inr ⟨0, .active (List.mem_singleton_self _)
            (.inr ((spins_instantiate hσ).2 hwakes))⟩
        · rw [Valuation.set_of_ne _ _ hb] at hcalm
          exact .inl ⟨id, mem_freeRefs_fix.2 ⟨hid, hb⟩, hcalm, hwakes.fix hσ hb⟩
      · exact .inr ⟨n + 1, later hsees⟩
  | _ => exact absurd (calmsDown_of_moves_nil rfl rfl) h

theorem not_calmsDown_iff_sees (ht : t.freeRefs = []) :
    ¬ v.CalmsDown t ↔ ∃ n, v.Sees (.active v.endless) t n [] := by
  refine ⟨fun h => ?_, fun ⟨n, h⟩ => not_calmsDown_of_sees ht h⟩
  rw [← instantiate_of_closed (fun _ => .stop) ht] at h ⊢
  rcases wakes_or_sees_endless t (fun _ => rfl) h with ⟨id, hid, -⟩ | h
  · rw [ht] at hid
    cases hid
  · exact h

theorem not_sees_atom {a : Atom} {n : Nat} {s : List Label} (ht : t.freeRefs = [])
    (ha : Trace.atom a ∉ t.leaves) : ¬ v.Sees (.active (.atom a)) t n s := by
  intro h
  have hσ : Valuation.IsClosed fun _ => .stop := fun _ => rfl
  have hself := Gauge.under_self (g := .loose v (.atom a) .never .never) (t := t) rfl
    (by rintro p q ⟨rfl, -⟩ b c hb; cases hb)
    (by rintro l hl p q ⟨rfl, -⟩ rfl; exact absurd hl ha)
    (n := n) hσ hσ trivial fun _ => Gauge.below_stop
  rw [instantiate_of_closed _ ht] at hself
  obtain ⟨m, -, h⟩ := hself.answer rfl (.active ⟨rfl, rfl⟩) (Nat.le_refl n) h
  exact not_sees_never h

/-- A `fix` without a reference to itself does not spin. -/
theorem not_spins_of_notMem (ht : (Trace.fix binder body).freeRefs = [])
    (h : binder.id ∉ body.freeRefs) : ¬ v.Spins (.fix binder body) := by
  rintro ⟨b, c, heq, hspins⟩
  obtain ⟨rfl, rfl⟩ := Trace.fix.inj heq
  have hbody : body.freeRefs = [] := by
    refine List.eq_nil_iff_forall_not_mem.2 fun id hid => ?_
    have := mem_freeRefs_fix.2 ⟨hid, fun e => h (e ▸ hid)⟩
    rw [ht] at this
    cases this
  obtain ⟨a, ⟨n, hsees⟩, ha⟩ := (hspins.and (eventually_atom_notMem body.leaves)).exists
  rw [substitute_of_not_mem h] at hsees
  exact not_sees_atom hbody ha hsees

end View

end ProcessContracts
