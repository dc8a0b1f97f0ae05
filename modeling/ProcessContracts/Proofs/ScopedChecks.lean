import Mathlib
import ProcessContracts.Proofs.Scoping

/-!
# Checks keep traces well-scoped

Whatever a program's procedures call, a check leaves only well-scoped traces in the store, and the
behaviour it computes is well-scoped.
-/

namespace ProcessContracts

open Trace

variable {n n' : Nat} {store : TraceStore} {frames frames' : List Scope} {t : Trace}

/-- Stored traces are closed and bind no atom that stands for a procedure in progress. -/
def Walk.ScopedStore (n : Nat) (store : TraceStore) (frames : List Scope) : Prop :=
  ∀ callee traces, store.get? callee = some traces → ∀ t ∈ traces.alternatives,
    t.freeRefs = [] ∧ t.Scoped n (openAtoms frames)

namespace Walk.ScopedStore

theorem later (h : ScopedStore n store frames) (hle : n ≤ n')
    (hsub : openAtoms frames ⊆ openAtoms frames')
    (hnew : ∀ id ∈ openAtoms frames', id ∈ openAtoms frames ∨ n ≤ id.index) :
    ScopedStore n' store frames' := fun callee traces hget t ht =>
  ⟨(h callee traces hget t ht).1, (h callee traces hget t ht).2.later hle hsub hnew⟩

/-- A closed trace is scoped below fewer binders as well. -/
theorem restrict (h : ScopedStore n store frames') (hsub : openAtoms frames ⊆ openAtoms frames') :
    ScopedStore n store frames := fun callee traces hget t ht => by
  obtain ⟨hclosed, hscoped⟩ := h callee traces hget t ht
  refine ⟨hclosed, hscoped.restrict hsub fun id hid => ?_⟩
  rw [hclosed] at hid
  cases hid

theorem attach (h : ScopedStore n store frames) (hclosed : t.freeRefs = [])
    (ht : t.Scoped n (openAtoms frames)) (callee : DeclId) :
    ScopedStore n (store.insert callee (.single t)) frames :=
  TraceStore.forall_insert h ⟨hclosed, ht⟩ callee

end Walk.ScopedStore

open Walk

/-- A fresh binder around a body that refers to it. -/
theorem scoped_fresh (hold : ∀ id ∈ openAtoms frames, id.index < n)
    (ht : t.Scoped n (openAtoms frames)) (origin : Origin) {body : Trace}
    (hbody : ∀ bound, t.Scoped (n + 1) (⟨n⟩ :: bound) → body.Scoped (n + 1) (⟨n⟩ :: bound)) :
    (Trace.fix ⟨⟨n⟩, origin⟩ body).Scoped (n + 1) (openAtoms frames) := by
  refine ⟨Nat.lt_succ_self n, fun hmem => Nat.lt_irrefl n (hold _ hmem), hbody _ ?_⟩
  refine ht.later (Nat.le_succ n) (List.subset_cons_self _ _) fun id hid => ?_
  rcases List.mem_cons.1 hid with rfl | hid
  · exact .inr (Nat.le_refl n)
  · exact .inl hid

/-- The invariant that fragments are scoped below the atoms of the open scopes. -/
def Walk.scoping (setting : Setting) : Invariant setting where
  Holds n store _ frames := Distinct n frames ∧ ScopedStore n store frames
  Fits n frames t := t.Scoped n (openAtoms frames)
  May _ _ _ := True
  later hle hframes ht :=
    ht.later hle (openAtoms_subset hframes) fun _ hid => mem_openAtoms_of_advances hframes hid
  skip := trivial
  stop := trivial
  div := trivial
  unresolved _ := trivial
  event _ _ := trivial
  comp _ hts := scoped_comp.2 hts
  loop op origin hholds ht := scoped_fresh hholds.1.minted ht origin fun bound ht => by
    exact scoped_comp.2 (by simpa using ⟨ht, List.mem_cons_self⟩)
  replication op origin hholds ht := scoped_fresh hholds.1.minted ht origin fun bound ht => by
    refine scoped_comp.2 (List.forall_mem_cons.2 ⟨trivial, List.forall_mem_singleton.2 ?_⟩)
    exact scoped_comp.2 (by simpa using ⟨ht, List.mem_cons_self⟩)
  ref _ hatom := mem_openAtoms.2 ⟨_, List.mem_append_right _ List.mem_cons_self, _, hatom, rfl⟩
  bind {n store history scope frames t} hholds ht := by
    obtain ⟨⟨hnodup, hminted⟩, -⟩ := hholds
    cases hatom : scope.recursionAtom with
    | none =>
        rw [openAtoms_cons_none hatom] at ht
        exact ht
    | some a =>
        rw [openAtoms_cons_some hatom] at ht hnodup hminted
        exact ⟨hminted _ List.mem_cons_self, (List.nodup_cons.1 hnodup).1, ht⟩
  simplify ht := ht.simplify
  hide keep ht := ht.hide keep
  instantiate _ happly ht := Substitution.scoped_apply happly ht
  lowered hholds _ _ hrun :=
    (Contract.lowered_of_lower hrun).scoped hholds.1.minted (List.forall_mem_nil _)
  stored hholds hget ht := (hholds.2 _ _ hget _ ht).2
  mint hle hholds := ⟨hholds.1.mint hle, hholds.2.later hle (List.Subset.refl _) fun _ => .inl⟩
  enter hopens hholds := by
    refine ⟨hholds.1.enter hopens.atom, ?_⟩
    rw [ScopedStore, openAtoms_cons_none hopens.atom]
    exact hholds.2
  leave hholds := ⟨hholds.1.leave, hholds.2.restrict (List.subset_append_right _ _)⟩
  fold {n n' store history inner own own' outer callee altered atom} hfolds hholds :=
    ⟨hholds.1.fold hfolds, hholds.2.later hfolds.minted_le
      (openAtoms_subset (hfolds.advances inner outer)) fun _ hid =>
        mem_openAtoms_of_advances (hfolds.advances inner outer) hid⟩
  judge hholds _ := ⟨hholds.1.leave, hholds.2.restrict (List.subset_append_right _ _)⟩
  attach hholds ht hclosed := ⟨hholds.1, hholds.2.attach hclosed ht _⟩
  child _ _ _ := trivial
  body _ _ _ _ _ := trivial

/-- Stored traces are well-scoped below the atoms minted so far. -/
def Session.WellScoped (session : Session) : Prop :=
  ∀ callee traces, session.store.get? callee = some traces → ∀ t ∈ traces.alternatives,
    t.WellScoped session.supply.minted

theorem Session.WellScoped.holds {session : Session} (h : session.WellScoped) (setting : Setting) :
    (scoping setting).Holds session.supply.minted session.store session.history [] := by
  refine ⟨.nil _, fun callee traces hget t ht => ?_⟩
  have hscoped := h callee traces hget t ht
  refine ⟨List.eq_nil_iff_forall_not_mem.2 fun id hid => ?_, hscoped.scoped⟩
  have hmem := mem_freeAtoms.2 hid
  rw [hscoped.closed] at hmem
  cases hmem

theorem Session.wellScoped_of_holds {setting : Setting} {session : Session} {frames : List Scope}
    (h : (scoping setting).Holds session.supply.minted session.store session.history frames) :
    session.WellScoped := fun callee traces hget t ht =>
  ((h.2.restrict (List.nil_subset _) : ScopedStore _ _ []) callee traces hget t ht).2.wellScoped

/-- A check leaves a well-scoped store well-scoped, also when it gives up, and the behaviour it
answers with is well-scoped and refers to minted atoms only. -/
theorem check_wellScoped (setting : Setting) (unit : ProgramUnit) (session : Session)
    (h : session.WellScoped) :
    (check setting unit session).2.WellScoped ∧
      ∀ outcome, (check setting unit session).1 = .ok outcome →
        ∀ t ∈ outcome.traces.alternatives,
          t.WellScoped (check setting unit session).2.supply.minted ∧
            ∀ id, .ref id ∈ t.parts → id.index < (check setting unit session).2.supply.minted := by
  have hbegins : (scoping setting).Begins unit := Invariant.begins_of_may (fun _ _ => trivial) unit
  have hchecked := checked (h.holds setting) hbegins
  generalize check setting unit session = result at hchecked ⊢
  obtain ⟨answer, last⟩ := result
  cases answer with
  | ok outcome =>
      obtain ⟨hholds, hfits, -⟩ := hchecked
      refine ⟨Session.wellScoped_of_holds hholds, ?_⟩
      rintro _ ⟨⟩ t ht
      exact ⟨(hfits t ht).wellScoped, fun id hid => (hfits t ht).references hid⟩
  | error abort =>
      obtain ⟨⟨frames, hholds⟩, -⟩ := hchecked
      refine ⟨Session.wellScoped_of_holds hholds, ?_⟩
      rintro _ ⟨⟩

/-- Two procedures that call each other, one of them for every output the other reads. -/
def exchange : Program where
  name := "exchange"
  names := #[⟨"c", .param ⟨0⟩ 0 false, {}⟩, ⟨"e", .param ⟨1⟩ 0 false, {}⟩]
  exprs := #[⟨.name ⟨0⟩, {}⟩, ⟨.name ⟨1⟩, {}⟩]
  nodes := #[⟨.compose .seq [⟨1⟩, ⟨2⟩], {}⟩, ⟨.output ⟨0⟩, {}⟩, ⟨.call ⟨1⟩ [⟨⟨0⟩, false⟩], {}⟩,
    ⟨.compose .seq [⟨4⟩, ⟨5⟩], {}⟩, ⟨.input ⟨1⟩, {}⟩, ⟨.call ⟨0⟩ [⟨⟨1⟩, false⟩], {}⟩]
  decls := #[{ name := "ping", params := [⟨⟨0⟩, true, false⟩], body := some ⟨0⟩ },
    { name := "pong", params := [⟨⟨1⟩, true, false⟩], body := some ⟨3⟩ },
    { name := "log" }]

/-- A session in which the last procedure has been checked already. -/
def exchangeLogged : Session where
  supply := ⟨1⟩
  store := Ledger.insert {} ⟨2⟩ (.single (.fix ⟨⟨0⟩, .contract ⟨2⟩⟩
    (.comp .seq [.event .output ⟨⟨1⟩, none⟩, .ref ⟨0⟩])))

theorem exchange_wellScoped : exchangeLogged.WellScoped ∧
    (check { program := exchange } (.proc ⟨0⟩) exchangeLogged).2.WellScoped ∧
    (Trace.fix ⟨⟨1⟩, .recursion ⟨0⟩⟩ (.comp .seq [.event .output ⟨⟨0⟩, none⟩,
      .event .input ⟨⟨0⟩, none⟩, .ref ⟨1⟩])).WellScoped 2 := by
  have hlogged : exchangeLogged.WellScoped := by
    intro callee traces hget t ht
    rw [exchangeLogged, Ledger.get?_insert] at hget
    split at hget
    case isFalse => cases hget
    case isTrue =>
      obtain rfl := Option.some.inj hget
      obtain rfl := List.mem_singleton.1 ht
      refine Scoped.wellScoped ⟨Nat.zero_lt_one, List.not_mem_nil, ?_⟩
      simp [Scoped]
  have hcheck : (check { program := exchange } (.proc ⟨0⟩) exchangeLogged).1 =
      .ok ⟨.single (.fix ⟨⟨1⟩, .recursion ⟨0⟩⟩ (.comp .seq [.event .output ⟨⟨0⟩, none⟩,
        .event .input ⟨⟨0⟩, none⟩, .ref ⟨1⟩])), []⟩ := by cbv
  have hminted :
      (check { program := exchange } (.proc ⟨0⟩) exchangeLogged).2.supply.minted = 2 := by
    cbv
  have hwalked := check_wellScoped { program := exchange } (.proc ⟨0⟩) exchangeLogged hlogged
  rw [hminted] at hwalked
  exact ⟨hlogged, hwalked.1, (hwalked.2 _ hcheck _ (List.mem_singleton_self _)).1⟩

end ProcessContracts
