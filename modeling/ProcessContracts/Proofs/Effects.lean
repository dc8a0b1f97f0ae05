import ProcessContracts.Proofs.Walks
import ProcessContracts.Proofs.Yields

/-!
# Effects of a walk

A rule says when a computation succeeds, what it answers and what becomes of the state. The buckets
play no part in a rule: a computation leaves them alone, or it adds a fragment to the innermost one.
What holds of the steps of a walk holds of their sequence.
-/

namespace ProcessContracts

/-! ## States without their buckets -/

def Scope.emptied (scope : Scope) : Scope := { scope with buckets := [] }

namespace WalkState

variable {state last : WalkState} {bs : List (List Bucket)}

def emptied (state : WalkState) : WalkState :=
  { state with scopes := state.scopes.map Scope.emptied }

/-- No bucket is open. -/
def Bare (state : WalkState) : Prop := ∀ scope ∈ state.scopes, scope.buckets = []

/-- The state with other buckets. -/
def filled (state : WalkState) (bs : List (List Bucket)) : WalkState :=
  { state with
    scopes := List.zipWith (fun scope buckets => { scope with buckets }) state.scopes bs }

theorem bare_emptied (state : WalkState) : state.emptied.Bare :=
  List.forall_mem_map.2 fun _ _ => rfl

theorem emptied_of_bare (h : state.Bare) : state.emptied = state := by
  obtain ⟨supply, store, history, scopes, diagnostics⟩ := state
  have hscopes : scopes.map Scope.emptied = scopes := by
    refine (List.map_congr_left fun scope hscope => ?_).trans (List.map_id scopes)
    rw [Scope.emptied, ← h scope hscope]
    rfl
  rw [emptied, hscopes]

theorem length_buckets (state : WalkState) : state.buckets.length = state.scopes.length :=
  List.length_map _

theorem length_emptied (state : WalkState) : state.emptied.scopes.length = state.scopes.length :=
  List.length_map _

theorem emptied_filled (h : bs.length = state.scopes.length) :
    (state.filled bs).emptied = state.emptied := by
  obtain ⟨supply, store, history, scopes, diagnostics⟩ := state
  simp only [emptied, filled, mk.injEq, true_and, and_true]
  induction scopes generalizing bs with
  | nil => rfl
  | cons scope scopes ih =>
      obtain _ | ⟨b, bs⟩ := bs
      · cases h
      · exact congrArg (List.cons _) (ih (Nat.succ.inj h))

theorem buckets_filled (h : bs.length = state.scopes.length) : (state.filled bs).buckets = bs := by
  obtain ⟨supply, store, history, scopes, diagnostics⟩ := state
  simp only [buckets, filled]
  induction scopes generalizing bs with
  | nil => exact (List.length_eq_zero_iff.1 h).symm
  | cons scope scopes ih =>
      obtain _ | ⟨b, bs⟩ := bs
      · cases h
      · exact congrArg (List.cons _) (ih (Nat.succ.inj h))

/-- A state is what it is without its buckets and the buckets. -/
theorem ext_emptied (h : state.emptied = last.emptied) (hbuckets : state.buckets = last.buckets) :
    state = last := by
  obtain ⟨supply, store, history, scopes, diagnostics⟩ := state
  obtain ⟨supply', store', history', scopes', diagnostics'⟩ := last
  simp only [emptied, mk.injEq] at h
  obtain ⟨rfl, rfl, rfl, hscopes, rfl⟩ := h
  congr 1
  change scopes.map (·.buckets) = scopes'.map (·.buckets) at hbuckets
  induction scopes generalizing scopes' with
  | nil => exact (List.map_eq_nil_iff.1 hscopes.symm).symm
  | cons scope scopes ih =>
      match scopes', hscopes, hbuckets with
      | scope' :: scopes', hscopes, hbuckets =>
          obtain ⟨hscope, hscopes⟩ := List.cons.inj hscopes
          obtain ⟨hbucket, hbuckets⟩ := List.cons.inj hbuckets
          obtain rfl := ih scopes' hscopes hbuckets
          obtain ⟨owner, interface, buckets, found, atom, entry, approximate⟩ := scope
          obtain ⟨owner', interface', buckets', found', atom', entry', approximate'⟩ := scope'
          simp only [Scope.emptied, Scope.mk.injEq] at hscope hbucket
          simp [hscope, hbucket]

/-- A bare state with buckets as they are wanted. -/
theorem exists_filled (hbare : state.Bare) (bs : List (List Bucket))
    (h : bs.length = state.scopes.length) :
    ∃ full : WalkState, full.emptied = state ∧ full.buckets = bs :=
  ⟨state.filled bs, (emptied_filled h).trans (emptied_of_bare hbare), buckets_filled h⟩

end WalkState

theorem length_contribute (ts : List Trace) (bs : List (List Bucket)) :
    (contribute ts bs).length = bs.length := by
  unfold contribute
  split <;> rfl

namespace Walk

open WalkState

variable {α β : Type} {setting : Setting} {s s' : WalkState}

/-- Keeps the state bare and the scopes in place. -/
def KeepsBare (s s' : WalkState) : Prop := s.Bare → s'.Bare ∧ s'.scopes.length = s.scopes.length

theorem KeepsBare.refl (s : WalkState) : KeepsBare s s := fun h => ⟨h, rfl⟩

theorem KeepsBare.trans {mid : WalkState} (h : KeepsBare s mid) (h' : KeepsBare mid s') :
    KeepsBare s s' := fun hs =>
  ⟨(h' (h hs).1).1, (h' (h hs).1).2.trans (h hs).2⟩

/-- The computation succeeds as the rule says and leaves the buckets alone. -/
structure Computes (m : Walk α) (rule : WalkState → α → Account → WalkState → Prop) : Prop where
  run_iff {s s' : WalkState} {a : α} : s.scopes ≠ [] → (m.run s = .ok a s' ↔
    ∃ account, rule s.emptied a account s'.emptied ∧ s'.buckets = s.buckets)
  bare {s s' : WalkState} {a : α} {account : Account} : rule s a account s' → KeepsBare s s'

/-- The computation succeeds as the rule says and adds the fragment to the innermost bucket. -/
structure Contributes (m : Walk Unit)
    (rule : WalkState → Option Trace → Account → WalkState → Prop) : Prop where
  run_iff {s s' : WalkState} : Receives s.buckets → (m.run s = .ok () s' ↔ ∃ fragment account,
    rule s.emptied fragment account s'.emptied ∧ s'.buckets = contribute fragment.toList s.buckets)
  bare {s s' : WalkState} {fragment : Option Trace} {account : Account} :
    rule s fragment account s' → KeepsBare s s'

/-- Every node is walked as the table says. -/
def Realizes (visit : NodeId → Walk Unit) (visits : Table) : Prop :=
  ∀ node, Contributes (visit node) (visits node)

theorem Receives.scopes_ne_nil (h : Receives s.buckets) : s.scopes ≠ [] := by
  obtain ⟨bucket, inner, outer, heq⟩ := h
  rintro hnil
  rw [buckets, hnil] at heq
  cases heq

theorem scopes_ne_nil_of_buckets (h : s.scopes ≠ []) (hbuckets : s'.buckets = s.buckets) :
    s'.scopes ≠ [] := by
  rw [← List.length_pos_iff] at h ⊢
  rwa [← length_buckets, hbuckets, length_buckets]

section Combinators

variable {m : Walk α} {rule : WalkState → α → Account → WalkState → Prop}

theorem Computes.congr {rule' : WalkState → α → Account → WalkState → Prop} (h : Computes m rule)
    (heq : ∀ s a account s', rule' s a account s' ↔ rule s a account s') : Computes m rule' := by
  obtain rfl : rule' = rule := by
    funext s a account s'
    exact propext (heq s a account s')
  exact h

theorem Contributes.congr {m : Walk Unit}
    {rule rule' : WalkState → Option Trace → Account → WalkState → Prop} (h : Contributes m rule)
    (heq : ∀ s f account s', rule' s f account s' ↔ rule s f account s') : Contributes m rule' := by
  obtain rfl : rule' = rule := by
    funext s f account s'
    exact propext (heq s f account s')
  exact h

/-- One rule after the other. -/
def Then (rule : WalkState → α → Account → WalkState → Prop)
    (next : α → WalkState → β → Account → WalkState → Prop) (s : WalkState) (b : β)
    (account : Account) (s' : WalkState) : Prop :=
  ∃ a here mid rest, rule s a here mid ∧ next a mid b rest s' ∧ account = here.add rest

theorem Then.keepsBare {next : α → WalkState → β → Account → WalkState → Prop} {b : β}
    {account : Account} (hrule : ∀ {s a account s'}, rule s a account s' → KeepsBare s s')
    (hnext : ∀ a {s b account s'}, next a s b account s' → KeepsBare s s')
    (h : Then rule next s b account s') : KeepsBare s s' := by
  obtain ⟨a, here, mid, rest, hhere, hrest, -⟩ := h
  exact (hrule hhere).trans (hnext a hrest)

theorem Computes.bind {k : α → Walk β} {next : α → WalkState → β → Account → WalkState → Prop}
    (hm : Computes m rule) (hk : ∀ a, Computes (k a) (next a)) :
    Computes (m >>= k) (Then rule next) where
  run_iff {s s' b} hopen := by
    rw [bind_eq_ok]
    constructor
    · rintro ⟨a, mid, hrun, hrest⟩
      obtain ⟨here, hhere, hmid⟩ := (hm.run_iff hopen).1 hrun
      obtain ⟨rest, hrest, hlast⟩ := ((hk a).run_iff (scopes_ne_nil_of_buckets hopen hmid)).1 hrest
      exact ⟨_, ⟨a, here, _, rest, hhere, hrest, rfl⟩, hlast.trans hmid⟩
    · rintro ⟨account, ⟨a, here, mid, rest, hhere, hrest, rfl⟩, hlast⟩
      obtain ⟨hbare, hlength⟩ := hm.bare hhere (bare_emptied s)
      obtain ⟨full, rfl, hfull⟩ := exists_filled hbare s.buckets (by
        rw [hlength, length_buckets, length_emptied])
      refine ⟨a, full, (hm.run_iff hopen).2 ⟨here, hhere, hfull⟩, ?_⟩
      exact ((hk a).run_iff (scopes_ne_nil_of_buckets hopen hfull)).2
        ⟨rest, hrest, hlast.trans hfull.symm⟩
  bare h := h.keepsBare hm.bare fun a => (hk a).bare

theorem Computes.contribute {k : α → Walk Unit}
    {next : α → WalkState → Option Trace → Account → WalkState → Prop} (hm : Computes m rule)
    (hk : ∀ a, Contributes (k a) (next a)) : Contributes (m >>= k) (Then rule next) where
  run_iff {s s'} hbuckets := by
    rw [bind_eq_ok]
    have hopen := Receives.scopes_ne_nil hbuckets
    constructor
    · rintro ⟨a, mid, hrun, hrest⟩
      obtain ⟨here, hhere, hmid⟩ := (hm.run_iff hopen).1 hrun
      obtain ⟨f, rest, hrest, hlast⟩ := ((hk a).run_iff (hmid ▸ hbuckets)).1 hrest
      exact ⟨f, _, ⟨a, here, _, rest, hhere, hrest, rfl⟩, hmid ▸ hlast⟩
    · rintro ⟨f, account, ⟨a, here, mid, rest, hhere, hrest, rfl⟩, hlast⟩
      obtain ⟨hbare, hlength⟩ := hm.bare hhere (bare_emptied s)
      obtain ⟨full, rfl, hfull⟩ := exists_filled hbare s.buckets (by
        rw [hlength, length_buckets, length_emptied])
      refine ⟨a, full, (hm.run_iff hopen).2 ⟨here, hhere, hfull⟩, ?_⟩
      exact ((hk a).run_iff (hfull ▸ hbuckets)).2 ⟨f, rest, hrest, hfull ▸ hlast⟩
  bare h := h.keepsBare hm.bare fun a => (hk a).bare

theorem computes_pure (a : α) :
    Computes (pure a) fun s b account s' => a = b ∧ account = {} ∧ s' = s where
  run_iff {s s' b} _ := by
    rw [pure_eq_ok]
    constructor
    · rintro ⟨rfl, rfl⟩
      exact ⟨{}, ⟨rfl, rfl, rfl⟩, rfl⟩
    · rintro ⟨account, ⟨rfl, -, hs⟩, hbuckets⟩
      exact ⟨rfl, (ext_emptied hs hbuckets).symm⟩
  bare h := by
    obtain ⟨-, -, rfl⟩ := h
    exact .refl _

theorem contributes_nothing :
    Contributes (pure ()) fun s f account s' => f = none ∧ account = {} ∧ s' = s where
  run_iff {s s'} _ := by
    rw [pure_eq_ok]
    constructor
    · rintro ⟨-, rfl⟩
      exact ⟨none, {}, ⟨rfl, rfl, rfl⟩, (contribute_nil _).symm⟩
    · rintro ⟨f, account, ⟨rfl, -, hs⟩, hbuckets⟩
      exact ⟨rfl, (ext_emptied hs (hbuckets.trans (contribute_nil _))).symm⟩
  bare h := by
    obtain ⟨-, -, rfl⟩ := h
    exact .refl _

theorem liftLookup_eq_ok {query : Lookup α} {a : α} :
    (liftLookup query).run s = .ok a s' ↔ query = .ok a ∧ s = s' := by
  cases query with
  | ok value => exact pure_eq_ok.trans (and_congr_left fun _ => ⟨congrArg _, Except.ok.inj⟩)
  | error fault =>
      constructor
      · exact fun h => absurd h throw_ne_ok
      · rintro ⟨h, -⟩
        cases h

theorem liftLookup_bind_eq_ok {query : Lookup α} {k : α → Walk β} {b : β} :
    (liftLookup query >>= k).run s = .ok b s' ↔ ∃ a, query = .ok a ∧ (k a).run s = .ok b s' := by
  rw [bind_eq_ok]
  constructor
  · rintro ⟨a, mid, hquery, hk⟩
    obtain ⟨ha, rfl⟩ := liftLookup_eq_ok.1 hquery
    exact ⟨a, ha, hk⟩
  · rintro ⟨a, ha, hk⟩
    exact ⟨a, s, liftLookup_eq_ok.2 ⟨ha, rfl⟩, hk⟩

theorem computes_liftLookup (query : Lookup α) :
    Computes (liftLookup query) fun s a account s' => query = .ok a ∧ account = {} ∧ s' = s where
  run_iff {s s' a} _ := by
    rw [liftLookup_eq_ok]
    constructor
    · rintro ⟨rfl, rfl⟩
      exact ⟨{}, ⟨rfl, rfl, rfl⟩, rfl⟩
    · rintro ⟨account, ⟨h, -, hs⟩, hbuckets⟩
      exact ⟨h, (ext_emptied hs hbuckets).symm⟩
  bare h := by
    obtain ⟨-, -, rfl⟩ := h
    exact .refl _

/-- A rule that a query has to answer first. -/
def Asking (query : Lookup α) (next : α → WalkState → β → Account → WalkState → Prop)
    (s : WalkState) (b : β) (account : Account) (s' : WalkState) : Prop :=
  ∃ a, query = .ok a ∧ next a s b account s'

theorem then_answered_iff {query : Lookup α}
    {next : α → WalkState → β → Account → WalkState → Prop} {b : β} {account : Account} :
    Asking query next s b account s' ↔
      Then (fun s a account s' => query = .ok a ∧ account = {} ∧ s' = s) next s b account s' := by
  constructor
  · rintro ⟨a, ha, h⟩
    exact ⟨a, {}, s, account, ⟨ha, rfl, rfl⟩, h, rfl⟩
  · rintro ⟨a, _, _, rest, ⟨ha, rfl, rfl⟩, h, rfl⟩
    exact ⟨a, ha, h⟩

theorem computes_asking {query : Lookup α} {k : α → Walk β}
    {next : α → WalkState → β → Account → WalkState → Prop} (hk : ∀ a, Computes (k a) (next a)) :
    Computes (liftLookup query >>= k) (Asking query next) :=
  ((computes_liftLookup query).bind hk).congr fun _ _ _ _ => then_answered_iff

theorem contributes_asking {query : Lookup α} {k : α → Walk Unit}
    {next : α → WalkState → Option Trace → Account → WalkState → Prop}
    (hk : ∀ a, Contributes (k a) (next a)) :
    Contributes (liftLookup query >>= k) (Asking query next) :=
  ((computes_liftLookup query).contribute hk).congr fun _ _ _ _ => then_answered_iff

end Combinators

variable {visit : NodeId → Walk Unit} {visits : Table} {node body : NodeId}

/-! ## Buckets -/

theorem emit_run {s : WalkState} (h : Receives s.buckets) (node : NodeId) (t : Trace) :
    ∃ s', (emit node t).run s = .ok () s' ∧ s'.emptied = s.emptied ∧
      s'.buckets = contribute [t] s.buckets := by
  obtain ⟨supply, store, history, scopes, diagnostics⟩ := s
  obtain ⟨bucket, inner, outer, heq⟩ := h
  match scopes, heq with
  | scope :: scopes, heq =>
      obtain ⟨owner, interface, buckets, found, atom, entry, approximate⟩ := scope
      obtain ⟨rfl, rfl⟩ := List.cons.inj heq
      exact ⟨_, rfl, rfl, rfl⟩

theorem openBucket_run {s : WalkState} {inner : List Bucket} {outer : List (List Bucket)}
    (h : s.buckets = inner :: outer) :
    ∃ s', openBucket.run s = .ok () s' ∧ s'.emptied = s.emptied ∧
      s'.buckets = ({} :: inner) :: outer := by
  obtain ⟨supply, store, history, scopes, diagnostics⟩ := s
  match scopes, h with
  | scope :: scopes, h =>
      obtain ⟨rfl, rfl⟩ := List.cons.inj h
      exact ⟨_, rfl, rfl, rfl⟩

theorem closeBucket_run {s : WalkState} {bucket : Bucket} {inner : List Bucket}
    {outer : List (List Bucket)} (h : s.buckets = (bucket :: inner) :: outer) (node : NodeId) :
    ∃ s', (closeBucket node).run s = .ok bucket s' ∧ s'.emptied = s.emptied ∧
      s'.buckets = inner :: outer := by
  obtain ⟨supply, store, history, scopes, diagnostics⟩ := s
  match scopes, h with
  | scope :: scopes, h =>
      obtain ⟨owner, interface, buckets, found, atom, entry, approximate⟩ := scope
      obtain ⟨rfl, rfl⟩ := List.cons.inj h
      exact ⟨_, rfl, rfl, rfl⟩

/-- A computation whose outcome is known succeeds with that outcome only. -/
theorem ok_iff_of_run {α : Type} {m : Walk α} {s mid s' : WalkState} {a b : α}
    (h : m.run s = .ok a mid) : m.run s = .ok b s' ↔ a = b ∧ mid = s' := by
  rw [h, EStateM.Result.ok.injEq]

theorem contributes_emit (node : NodeId) (t : Trace) :
    Contributes (emit node t) (Makes (.plain t)) where
  run_iff {s s'} h := by
    obtain ⟨mid, hrun, hmid, hbuckets⟩ := emit_run h node t
    rw [ok_iff_of_run hrun]
    constructor
    · rintro ⟨-, rfl⟩
      exact ⟨some t, {}, ⟨rfl, by simp, hmid⟩, hbuckets⟩
    · rintro ⟨_, _, ⟨rfl, rfl, hlast⟩, hs⟩
      exact ⟨rfl, ext_emptied (hmid.trans hlast.symm) (hbuckets.trans hs.symm)⟩
  bare h := by
    obtain ⟨-, -, rfl⟩ := h
    exact .refl _

theorem contributes_pure : Contributes (pure ()) (Makes .nothing) :=
  contributes_nothing.congr fun s f account s' => by
    constructor
    · rintro ⟨rfl, rfl, rfl⟩
      exact ⟨rfl, by simp, rfl⟩
    · rintro ⟨rfl, rfl, rfl⟩
      exact ⟨rfl, by simp, rfl⟩

theorem computes_mint (origin : Origin) : Computes (mint origin) fun s atom account s' =>
    atom = ⟨⟨s.minted⟩, origin⟩ ∧ account = .minted s.supply (s.supply.more 1) ∧
      s' = { s with supply := s.supply.more 1 } where
  run_iff {s s' atom} _ := by
    change EStateM.Result.ok (⟨⟨s.minted⟩, origin⟩ : Atom)
      { s with supply := s.supply.more 1 } = _ ↔ _
    rw [EStateM.Result.ok.injEq]
    constructor
    · rintro ⟨rfl, rfl⟩
      exact ⟨_, ⟨rfl, rfl, rfl⟩, rfl⟩
    · rintro ⟨_, ⟨rfl, rfl, hlast⟩, hbuckets⟩
      have hsame : s' = { s with supply := s.supply.more 1 } := ext_emptied hlast hbuckets
      exact ⟨rfl, hsame.symm⟩
  bare h hs := by
    obtain ⟨-, -, rfl⟩ := h
    exact ⟨hs, rfl⟩

/-! ## Parts -/

theorem run_bind_of_ok {α β : Type} {m : Walk α} {k : α → Walk β} {s mid : WalkState} {a : α}
    (h : m.run s = .ok a mid) : (m >>= k).run s = (k a).run mid := by
  change EStateM.bind m k s = _
  rw [EStateM.bind, show m s = _ from h]
  rfl

theorem bind_unit_eq_ok {β : Type} {m : Walk Unit} {k : Unit → Walk β} {s s' : WalkState} {b : β} :
    (m >>= k).run s = .ok b s' ↔ ∃ mid, m.run s = .ok () mid ∧ (k ()).run mid = .ok b s' :=
  bind_eq_ok.trans ⟨fun ⟨_, mid, h⟩ => ⟨mid, h⟩, fun ⟨mid, h⟩ => ⟨(), mid, h⟩⟩

theorem single_toList (fragment : Option Trace) :
    (⟨fragment.toList⟩ : Bucket).single = .ok fragment := by
  cases fragment <;> rfl

theorem reduceOption_cons (fragment : Option Trace) (fragments : List (Option Trace)) :
    (fragment :: fragments).reduceOption = fragment.toList ++ fragments.reduceOption := by
  cases fragment <;> rfl

/-- What is added to a bucket of its own is what is taken out of it. -/
theorem gather_run_iff {α : Type} {m : Walk Unit} {k : Bucket → Walk α} {s s' : WalkState} {a : α}
    (rule : WalkState → List Trace → Account → WalkState → Prop)
    (hm : ∀ {s s'}, Receives s.buckets → (m.run s = .ok () s' ↔ ∃ ts account,
      rule s.emptied ts account s'.emptied ∧ s'.buckets = contribute ts s.buckets))
    (hbare : ∀ {s s' ts account}, rule s ts account s' → KeepsBare s s') (hopen : s.scopes ≠ []) :
    (openBucket >>= fun _ => m >>= fun _ => closeBucket node >>= k).run s = .ok a s' ↔
      ∃ ts account closed, rule s.emptied ts account closed.emptied ∧ closed.buckets = s.buckets ∧
        (k ⟨ts⟩).run closed = .ok a s' := by
  obtain ⟨inner, outer, heq⟩ : ∃ inner outer, s.buckets = inner :: outer :=
    List.exists_cons_of_ne_nil fun hnil => hopen (List.map_eq_nil_iff.1 hnil)
  obtain ⟨mid, hrun, hmid, hbuckets⟩ := openBucket_run heq
  have hreceives : Receives mid.buckets := ⟨_, _, _, hbuckets⟩
  have hfill : ∀ ts : List Trace, contribute ts mid.buckets = (⟨ts⟩ :: inner) :: outer :=
    fun ts => by rw [hbuckets]; rfl
  rw [run_bind_of_ok hrun, bind_unit_eq_ok]
  simp only [hm hreceives]
  constructor
  · rintro ⟨full, ⟨ts, account, hrule, hfull⟩, hrest⟩
    obtain ⟨closed, hclosed, hsame, hlast⟩ := closeBucket_run (hfull.trans (hfill ts)) node
    rw [run_bind_of_ok hclosed] at hrest
    exact ⟨ts, account, closed, by rwa [hsame, ← hmid], hlast.trans heq.symm, hrest⟩
  · rintro ⟨ts, account, closed, hrule, hlast, hrest⟩
    rw [← hmid] at hrule
    obtain ⟨hempty, hlength⟩ := hbare hrule (bare_emptied mid)
    obtain ⟨full, hsame, hfull⟩ := exists_filled hempty (contribute ts mid.buckets) (by
      rw [length_contribute, length_buckets, hlength, length_emptied])
    obtain ⟨closed', hclosed, hsame', hrest'⟩ := closeBucket_run (hfull.trans (hfill ts)) node
    obtain rfl : closed' = closed :=
      ext_emptied (hsame'.trans hsame) (hrest'.trans (heq.symm.trans hlast.symm))
    exact ⟨full, ⟨ts, account, hsame ▸ hrule, hfull⟩, by rwa [run_bind_of_ok hclosed]⟩

theorem computes_collectSingle (h : Contributes (visit body) (visits body)) (construct : String)
    (node : NodeId) : Computes (collectSingle setting visit construct node body) (visits body) where
  run_iff {s s' fragment} hopen := by
    let rule : WalkState → List Trace → Account → WalkState → Prop := fun s ts account s' =>
      ∃ f : Option Trace, ts = f.toList ∧ visits body s f account s'
    have hm : ∀ {s s'}, Receives s.buckets → ((visit body).run s = .ok () s' ↔ ∃ ts account,
        rule s.emptied ts account s'.emptied ∧ s'.buckets = contribute ts s.buckets) :=
        fun hbuckets => by
      rw [h.run_iff hbuckets]
      constructor
      · rintro ⟨f, account, hvisit, hlast⟩
        exact ⟨_, account, ⟨f, rfl, hvisit⟩, hlast⟩
      · rintro ⟨_, account, ⟨f, rfl, hvisit⟩, hlast⟩
        exact ⟨f, account, hvisit, hlast⟩
    refine (gather_run_iff rule hm (fun ⟨_, _, hvisit⟩ => h.bare hvisit) hopen).trans ?_
    constructor
    · rintro ⟨_, account, closed, ⟨f, rfl, hvisit⟩, hclosed, hsingle⟩
      rw [singleFragment, single_toList] at hsingle
      obtain ⟨rfl, rfl⟩ := pure_eq_ok.1 hsingle
      exact ⟨account, hvisit, hclosed⟩
    · rintro ⟨account, hvisit, hlast⟩
      refine ⟨_, account, s', ⟨fragment, rfl, hvisit⟩, hlast, ?_⟩
      rw [singleFragment, single_toList]
      exact pure_eq_ok.2 ⟨rfl, rfl⟩
  bare := h.bare

theorem series_nil_iff {s s' : WalkState} {fragments : List (Option Trace)} {account : Account} :
    Series visits [] s fragments account s' ↔ fragments = [] ∧ account = {} ∧ s' = s := by
  constructor
  · rintro ⟨⟩
    exact ⟨rfl, rfl, rfl⟩
  · rintro ⟨rfl, rfl, rfl⟩
    exact .nil _

theorem series_cons_iff {nodes : List NodeId} {s s' : WalkState}
    {fragments : List (Option Trace)} {account : Account} :
    Series visits (node :: nodes) s fragments account s' ↔
      ∃ f here mid rest account', visits node s f here mid ∧
        Series visits nodes mid rest account' s' ∧
        fragments = f :: rest ∧ account = here.add account' := by
  constructor
  · intro h
    cases h with
    | cons hnode hrest => exact ⟨_, _, _, _, _, hnode, hrest, rfl, rfl⟩
  · rintro ⟨f, here, mid, rest, account', hnode, hrest, rfl, rfl⟩
    exact .cons hnode hrest

/-- The bodies are walked and their fragments put together. -/
def Gathers {α : Type} (visits : Table) (bodies : List NodeId) (put : List (Option Trace) → α)
    (s : WalkState) (a : α) (account : Account) (s' : WalkState) : Prop :=
  ∃ fragments, Series visits bodies s fragments account s' ∧ a = put fragments

theorem gathers_nil {α : Type} (put : List (Option Trace) → α) : Gathers visits [] put =
    fun s a account s' => put [] = a ∧ account = {} ∧ s' = s := by
  funext s a account s'
  refine propext ⟨?_, ?_⟩
  · rintro ⟨fs, hseries, rfl⟩
    obtain ⟨rfl, rfl, rfl⟩ := series_nil_iff.1 hseries
    exact ⟨rfl, rfl, rfl⟩
  · rintro ⟨rfl, rfl, rfl⟩
    exact ⟨[], .nil _, rfl⟩

theorem gathers_cons {α : Type} (body : NodeId) (bodies : List NodeId)
    (put : List (Option Trace) → α) : Gathers visits (body :: bodies) put =
      Then (visits body) fun f => Gathers visits bodies fun fs => put (f :: fs) := by
  funext s a account s'
  refine propext ⟨?_, ?_⟩
  · rintro ⟨fs, hseries, rfl⟩
    obtain ⟨f, here, mid, rest, account', hbody, hrest, rfl, rfl⟩ := series_cons_iff.1 hseries
    exact ⟨f, here, mid, account', hbody, ⟨rest, hrest, rfl⟩, rfl⟩
  · rintro ⟨f, here, mid, account', hbody, ⟨rest, hrest, rfl⟩, rfl⟩
    exact ⟨f :: rest, .cons hbody hrest, rfl⟩

theorem series_keepsBare (h : Realizes visit visits) {nodes : List NodeId} {s s' : WalkState}
    {fragments : List (Option Trace)} {account : Account}
    (hseries : Series visits nodes s fragments account s') : KeepsBare s s' := by
  induction hseries with
  | nil s => exact .refl s
  | cons hnode _ ih => exact ((h _).bare hnode).trans ih

theorem visitAll_run_iff (h : Realizes visit visits) {nodes : List NodeId} {s s' : WalkState}
    (hbuckets : Receives s.buckets) : (visitAll visit nodes).run s = .ok () s' ↔
      ∃ fragments account, Series visits nodes s.emptied fragments account s'.emptied ∧
        s'.buckets = contribute fragments.reduceOption s.buckets := by
  induction nodes generalizing s with
  | nil =>
      rw [visitAll, pure_eq_ok]
      simp only [series_nil_iff]
      constructor
      · rintro ⟨-, rfl⟩
        exact ⟨[], {}, ⟨rfl, rfl, rfl⟩, (contribute_nil _).symm⟩
      · rintro ⟨_, _, ⟨rfl, -, hlast⟩, hs⟩
        exact ⟨trivial, (ext_emptied hlast (hs.trans (contribute_nil _))).symm⟩
  | cons node nodes ih =>
      rw [visitAll, bind_unit_eq_ok]
      simp only [(h node).run_iff hbuckets, series_cons_iff]
      constructor
      · rintro ⟨mid, ⟨f, here, hnode, hmid⟩, hrest⟩
        obtain ⟨rest, account, hrest, hlast⟩ := (ih (hmid ▸ hbuckets.contribute _)).1 hrest
        refine ⟨_, _, ⟨f, here, _, rest, account, hnode, hrest, rfl, rfl⟩, ?_⟩
        rw [hlast, hmid, contribute_contribute, reduceOption_cons]
      · rintro ⟨_, _, ⟨f, here, mid, rest, account, hnode, hrest, rfl, rfl⟩, hlast⟩
        obtain ⟨hbare, hlength⟩ := (h node).bare hnode (bare_emptied s)
        obtain ⟨full, rfl, hfull⟩ := exists_filled hbare (contribute f.toList s.buckets) (by
          rw [length_contribute, length_buckets, hlength, length_emptied])
        refine ⟨full, ⟨f, here, hnode, hfull⟩, ?_⟩
        refine (ih (hfull ▸ hbuckets.contribute _)).2 ⟨rest, account, hrest, ?_⟩
        rw [hlast, hfull, contribute_contribute, reduceOption_cons]

theorem computes_collect (h : Realizes visit visits) (node : NodeId) (children : List NodeId) :
    Computes (collect visit node children) (Gathers visits children List.reduceOption) where
  run_iff {s s' ts} hopen := by
    let rule : WalkState → List Trace → Account → WalkState → Prop := fun s ts account s' =>
      ∃ fragments, ts = fragments.reduceOption ∧ Series visits children s fragments account s'
    have hm : ∀ {s s'}, Receives s.buckets →
        ((visitAll visit children).run s = .ok () s' ↔ ∃ ts account,
          rule s.emptied ts account s'.emptied ∧ s'.buckets = contribute ts s.buckets) :=
        fun hbuckets => by
      rw [visitAll_run_iff h hbuckets]
      constructor
      · rintro ⟨fragments, account, hseries, hlast⟩
        exact ⟨_, account, ⟨fragments, rfl, hseries⟩, hlast⟩
      · rintro ⟨_, account, ⟨fragments, rfl, hseries⟩, hlast⟩
        exact ⟨fragments, account, hseries, hlast⟩
    refine (gather_run_iff rule hm (fun ⟨_, _, hseries⟩ =>
      series_keepsBare h hseries) hopen).trans ?_
    constructor
    · rintro ⟨_, account, closed, ⟨fragments, rfl, hseries⟩, hclosed, hts⟩
      obtain ⟨rfl, rfl⟩ := pure_eq_ok.1 hts
      exact ⟨account, ⟨fragments, hseries, rfl⟩, hclosed⟩
    · rintro ⟨account, ⟨fragments, hseries, rfl⟩, hlast⟩
      exact ⟨_, account, s', ⟨fragments, rfl, hseries⟩, hlast, pure_eq_ok.2 ⟨rfl, rfl⟩⟩
  bare h' := by
    obtain ⟨fs, hseries, -⟩ := h'
    exact series_keepsBare h hseries

end Walk

end ProcessContracts
