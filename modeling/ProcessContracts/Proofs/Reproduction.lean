import ProcessContracts.Proofs.Totality
import ProcessContracts.Proofs.Twins

/-!
# Walks that can be done again

What was walked once can be walked again from any other state in which walks go on: a callee is in
the store, or it is walked again itself, and it has the same traces as the first time. The depth
that is allowed suffices, since inside a procedure walks only go down its nodes.
-/

namespace ProcessContracts

open Walk WalkState

/-! ## Atoms of a walk -/

section Books

variable {records : Records} {s s' : WalkState} {account : Account}

theorem mem_upTo {first last : AtomSupply} {id : AtomId} (h : id ∈ first.upTo last) :
    first.minted ≤ id.index ∧ id.index < last.minted := by
  obtain ⟨i, hi, rfl⟩ := List.mem_map.1 h
  obtain ⟨hfirst, hlast⟩ := List.mem_range'_1.1 hi
  dsimp only
  omega

/-- New atoms are none of those that were minted before. -/
theorem Books.nodup_own (h : Books s account s') (hnodup : records.atoms.Nodup)
    (hminted : ∀ id ∈ records.atoms, id.index < s.minted) :
    (Records.atoms (records ++ account.attached) ++ account.own.atoms).Nodup := by
  have hwalk : (records.atoms ++ account.atoms).Nodup := by
    refine hnodup.append (h.atoms.nodup_iff.2 (AtomSupply.nodup_upTo _ _)) fun id hold hnew => ?_
    exact absurd (hminted id hold) (Nat.not_lt.2 (mem_upTo (h.atoms.subset hnew)).1)
  rw [Records.atoms_append, List.append_assoc]
  exact (List.perm_append_comm.append_left _).nodup_iff.2 hwalk

theorem Books.minted_attached (h : Books s account s')
    (hminted : ∀ id ∈ records.atoms, id.index < s.minted) :
    ∀ id ∈ Records.atoms (records ++ account.attached), id.index < s'.minted := by
  intro id hid
  rw [Records.atoms_append] at hid
  rcases List.mem_append.1 hid with hid | hid
  · exact Nat.lt_of_lt_of_le (hminted id hid) h.minted_le
  · exact (mem_upTo (h.atoms.subset (List.mem_append_right _ hid))).2

end Books

namespace Walk

variable {setting : Setting} {unit : ProgramUnit} {node : NodeId} {callee : DeclId} {decl : Decl}
  {records recorded : Records} {store : TraceStore} {s mid s' : WalkState} {own : Scope}
  {outer : List Scope} {fragment : Option Trace} {account : Account} {depth : Nat}

/-! ## States in which walks go on -/

/-- What holds of a state in which walks go on. -/
structure Poised (setting : Setting) (records : Records) (s : WalkState) : Prop where
  sober : Sober setting s
  once : Once setting.program (owners s.scopes)
  recorded : Recorded setting records s.store
  nodup : records.atoms.Nodup
  minted : ∀ id ∈ records.atoms, id.index < s.minted

/-- The atoms of a walk are none of those that have a share. -/
theorem Poised.nodup_own (h : Poised setting records s) (hbooks : Books s account s') :
    (Records.atoms (records ++ account.attached) ++ account.own.atoms).Nodup :=
  hbooks.nodup_own h.nodup h.minted

theorem Poised.nodup_attached (h : Poised setting records s) (hbooks : Books s account s') :
    (Records.atoms (records ++ account.attached)).Nodup :=
  (List.nodup_append.1 (h.nodup_own hbooks)).1

theorem Poised.minted_attached (h : Poised setting records s) (hbooks : Books s account s') :
    ∀ id ∈ Records.atoms (records ++ account.attached), id.index < s'.minted :=
  hbooks.minted_attached h.minted

theorem Poised.after (huntangled : setting.program.Untangled) (h : Poised setting records s)
    (hready : Ready setting.program unit node s)
    (hyields : YieldsWithin setting depth node s fragment account s') :
    Poised setting (records ++ account.attached) s' := by
  obtain ⟨own, outer, hscopes, -⟩ := hready.exists_scope
  have hbooks := books_yieldsWithin setting depth _ _ _ _ _ _ hyields hready
  have howners := owners_of_onward
    (regular_yieldsWithin setting depth _ _ _ _ _ _ hyields hready).1.scopes
  obtain ⟨-, -, -, hrecorded⟩ :=
    recorded_yieldsWithin huntangled depth hyields hready h.sober h.recorded hscopes
  exact ⟨(h.sober.after hready hyields).1, howners ▸ h.once, hrecorded, h.nodup_attached hbooks,
    h.minted_attached hbooks⟩

theorem Poised.enter (h : Poised setting records s) (henter : Enterable setting.program callee s)
    (hdecl : setting.program.decl callee = .ok decl) {entry : Option Substitution}
    (hentry : ∀ bindings, entry = some bindings →
      ∃ node, setting.program.Instantiates node callee decl bindings) :
    Poised setting records (s.enter (.opened callee decl entry)) where
  sober := h.sober.enter henter hdecl hentry
  once := by
    change Once setting.program ((Scope.opened callee decl entry).owner :: owners s.scopes)
    rw [(opened_diagnostics callee decl entry).2]
    exact h.once.cons_proc hdecl (List.nodup_cons.1 henter.nodup).1
  recorded := h.recorded
  nodup := h.nodup
  minted := h.minted

/-- Two stores have the same traces of the procedures they share, up to a permutation that matches
the work for something else as well. -/
theorem exists_sameTraces {store' : TraceStore} (share share' : Share)
    (h : Recorded setting records store) (hnodup : (records.atoms ++ share.atoms).Nodup)
    (h' : Recorded setting recorded store') (hnodup' : (recorded.atoms ++ share'.atoms).Nodup) :
    ∃ f : Shuffle, SameTraces f.perm store store' ∧ Matches f.perm share.atoms share'.atoms := by
  obtain ⟨f, hf, hown⟩ := @Records.exists_match _ _ Unit [((), share)] [((), share')] h.keys_nodup
    h'.keys_nodup (List.nodup_singleton _) (List.nodup_singleton _) (by simpa using hnodup)
    (by simpa using hnodup')
  exact ⟨f, (h.twin h' hf).1, hown () share share' List.mem_cons_self List.mem_cons_self⟩

/-! ## Local rules that can be followed -/

/-- How deep walks of the nodes of a procedure have to go besides. -/
def room (program : Program) (s : WalkState) : Nat :=
  program.nodes.size * (program.decls.size - (procs (owners s.scopes)).length)

/-- The procedure can be checked wherever walks go on, and only known ones are attached. -/
def Reproducible (setting : Setting) (known : DeclId → Prop) (callee : DeclId) : Prop :=
  ∀ {decl records s depth entry}, setting.program.decl callee = .ok decl →
    Enterable setting.program callee s → Poised setting records s →
    (∀ bindings, entry = some bindings →
      ∃ node, setting.program.Instantiates node callee decl bindings) →
    room setting.program s ≤ depth → ∃ traces account s',
      Completes setting (YieldsWithin setting depth) callee entry s traces account s' ∧
        ∀ other ∈ account.procs, known other

/-- A node that is walked by the local rules can be walked in every state, if deep enough. -/
def Followed (setting : Setting) (store : TraceStore) (unit : ProgramUnit) (known : DeclId → Prop)
    (inside : Nat) : Prop :=
  ∀ {node own fragment share own' records s depth},
    LocalWithin setting store unit inside node own fragment share own' →
    Ready setting.program unit node s → Poised setting records s →
    inside + room setting.program s ≤ depth → ∃ fragment account s',
      YieldsWithin setting depth node s fragment account s' ∧ ∀ other ∈ account.procs, known other

theorem room_of_onward (h : List.Forall₂ Onward s.scopes s'.scopes) (program : Program) :
    room program s' = room program s := by
  rw [room, room, owners_of_onward h]

theorem exists_marked {program : Program} {altered : List NameId} {marked : Scope}
    (h : Walk.marked program node decl altered own = .ok marked) (other : Scope) :
    ∃ marked', Walk.marked program node decl altered other = .ok marked' := by
  unfold Walk.marked at h ⊢
  split at h
  case isTrue hnone => exact ⟨other, if_pos hnone⟩
  case isFalse hsome =>
    obtain ⟨names, hnames, h⟩ := Lookup.bind_eq_ok.1 h
    obtain ⟨written, hwritten, -⟩ := Lookup.bind_eq_ok.1 h
    rw [if_neg hsome, hnames, hwritten]
    exact ⟨_, rfl⟩

section Followed

variable {known : DeclId → Prop} {inside : Nat} (huntangled : setting.program.Untangled)

include huntangled

theorem followed_series (hfollowed : Followed setting store unit known inside) {nodes : List NodeId}
    {fragments : List (Option Trace)} {share : Share} {own' : Scope}
    (h : LocalSeries (LocalWithin setting store unit inside) nodes own fragments share own')
    (hready : ∀ node ∈ nodes, Ready setting.program unit node s)
    (hpoised : Poised setting records s)
    (hdepth : inside + room setting.program s ≤ depth) : ∃ fragments account s',
      Series (YieldsWithin setting depth) nodes s fragments account s' ∧
        ∀ other ∈ account.procs, known other := by
  induction h generalizing s records with
  | nil => exact ⟨_, _, _, .nil s, fun _ hmem => nomatch hmem⟩
  | cons hnode _ ih =>
      obtain ⟨hfirst, hnodes⟩ := List.forall_mem_cons.1 hready
      obtain ⟨fragment, here, mid, hvisit, hhere⟩ := hfollowed hnode hfirst hpoised hdepth
      have hmid := (regular_yieldsWithin setting depth _ _ _ _ _ _ hvisit hfirst).1
      obtain ⟨fragments, rest, s', hseries, hrest⟩ := ih
        (fun node hnode => (hnodes node hnode).later hmid) (hpoised.after huntangled hfirst hvisit)
        (room_of_onward hmid.scopes setting.program ▸ hdepth)
      refine ⟨_, _, s', .cons hvisit hseries, fun other hmem => ?_⟩
      rw [Account.procs_add] at hmem
      rcases List.mem_append.1 hmem with hmem | hmem
      · exact hhere other hmem
      · exact hrest other hmem

variable (hrecorded : Recorded setting recorded store) (hnodup : recorded.atoms.Nodup)
  (hcallees : ∀ callee, store.get? callee ≠ none → Reproducible setting known callee)
include hrecorded hnodup hcallees

/-- What an instance obtained of its callee it can obtain again. -/
theorem exists_supplies {bindings : Substitution} {traces renamed : TraceSet} {share : Share}
    (hobtains : Obtains setting.program store callee decl traces share)
    (hasked : (decl.body.isSome || decl.contract.isSome) = true)
    (happly : bindings.applySet setting.program traces = .ok renamed)
    (hinstance : setting.program.Instantiates node callee decl bindings)
    (henter : Enterable setting.program callee s) (hpoised : Poised setting records s)
    (hdepth : room setting.program s ≤ depth) : ∃ traces account s' renamed,
      Supplies setting (YieldsWithin setting depth) callee decl bindings s traces account s' ∧
        bindings.applySet setting.program traces = .ok renamed ∧
        ∀ other ∈ account.procs, known other := by
  have hdecl : setting.program.decl callee = .ok decl := hinstance.choose_spec.2.1
  cases hobtains with
  | known hknown hget =>
      obtain ⟨traces', account, s', hsupplies, hprocs⟩ : ∃ traces account s',
          Supplies setting (YieldsWithin setting depth) callee decl bindings s traces account s' ∧
            ∀ other ∈ account.procs, known other := by
        cases hstored : s.store.get? callee with
        | some traces' => exact ⟨traces', {}, s, .stored hstored, fun _ hmem => nomatch hmem⟩
        | none =>
            obtain ⟨traces', account, s', hcompletes, hprocs⟩ :=
              hcallees callee (hget ▸ Option.some_ne_none traces) hdecl henter hpoised
                (fun _ heq => Option.some.inj heq ▸ ⟨node, hinstance⟩) hdepth
            exact ⟨_, account, s', .demanded hstored hasked hcompletes, hprocs⟩
      obtain ⟨-, -, hobtains', hrecorded'⟩ :=
        recorded_supplies huntangled hsupplies henter hinstance
        hpoised.sober hpoised.recorded
      have hbooks := books_supplies (books_yieldsWithin setting depth)
        (regular_yieldsWithin setting depth) henter hsupplies
      obtain ⟨f, hf, -⟩ := exists_sameTraces {} {} hrecorded (by rwa [List.append_nil]) hrecorded'
        (by rw [List.append_nil]; exact hpoised.nodup_attached hbooks)
      obtain ⟨rfl, -⟩ :=
        (Obtains.known hknown hget).twin hf hobtains' fun _ _ _ hnone => nomatch hnone
      exact ⟨_, account, s', renamed.renumber f.perm, hsupplies,
        by rw [Substitution.applySet_renumber, happly]; rfl, hprocs⟩
  | undeclared hbody hcontract =>
      rw [hbody, hcontract] at hasked
      cases hasked
  | unbound hbody hcontract hlower =>
      have hfresh : s.store.get? callee = none := by
        rw [Option.eq_none_iff_forall_ne_some]
        exact fun traces hget =>
          (hpoised.recorded.isKnown hget hdecl).not_unbound hbody hcontract hlower
      obtain ⟨_, hlower', -⟩ := Contract.lower_unbound_from hlower s.supply
      exact ⟨_, _, _, renamed, .demanded hfresh hasked (.unbound hdecl hbody hcontract hlower'),
        happly, fun _ hmem => nomatch hmem⟩

theorem followed_rule (hfollowed : Followed setting store unit known inside) :
    Followed setting store unit known (inside + 1) := by
  intro node own fragment share own' records s depth h hready hpoised hdepth
  obtain ⟨depth, rfl⟩ := Nat.exists_eq_add_of_lt (Nat.lt_of_lt_of_le (Nat.succ_pos _)
    ((Nat.le_add_right _ _).trans hdepth))
  rw [Nat.zero_add] at hdepth ⊢
  have hinside : inside + room setting.program s ≤ depth := by omega
  have hnone : ∀ other ∈ (Account.procs {}), known other := fun _ hmem => nomatch hmem
  cases h with
  | planned supply hnode hplan hseries =>
      obtain ⟨fragments, account, mid, hseries', hprocs⟩ := followed_series huntangled hfollowed
        hseries (fun part hpart => hready.of_part hnode (mem_children_of_plan hplan hpart)) hpoised
          hinside
      refine ⟨_, _, _, .planned hnode hplan hseries' ⟨rfl, rfl, rfl⟩, fun other hmem => ?_⟩
      rw [Account.procs_add] at hmem
      exact hprocs other ((List.mem_append.1 hmem).resolve_right List.not_mem_nil)
  | folded hunit hinstance haltered hmarked _ =>
      obtain ⟨own, outer, hsplit⟩ := hready.split_self hunit
      obtain ⟨marked, hmarked'⟩ := exists_marked hmarked own
      exact ⟨_, _, _, .folded hinstance hsplit haltered hmarked' rfl, hnone⟩
  | builtin hne hinstance hbody hname =>
      exact ⟨_, _, _, .builtin hinstance (hready.closed_of_ne huntangled hinstance hne) hbody hname,
        hnone⟩
  | supplied hne hinstance hname hasked hobtains happly =>
      have hsplit := hready.closed_of_ne huntangled hinstance hne
      obtain ⟨_, _, _, _, hsupplies, happly', hprocs⟩ := exists_supplies huntangled hrecorded hnodup
        hcallees hobtains hasked happly hinstance (hready.enterable hinstance hsplit) hpoised
        ((Nat.le_add_left _ _).trans hinside)
      exact ⟨_, _, _, .supplied hinstance hsplit hname hsupplies happly', hprocs⟩
  | unresolved hne hinstance hbody hname hcontract hwritten =>
      obtain ⟨own, outer, hscopes, -⟩ := hready.exists_scope
      have hsplit := hready.closed_of_ne huntangled hinstance hne
      refine ⟨_, _, _, .unresolved hinstance hsplit hbody hname hcontract ?_ hwritten hscopes,
        hnone⟩
      rw [Option.eq_none_iff_forall_ne_some]
      intro traces hget
      have hknown := hpoised.recorded.isKnown hget hinstance.choose_spec.2.1
      exact hknown.contract_ne_none hbody hcontract

theorem followed_localWithin (inside : Nat) : Followed setting store unit known inside := by
  induction inside with
  | zero => exact fun h => h.elim
  | succ inside ih => exact followed_rule huntangled hrecorded hnodup hcallees ih

end Followed

/-! ## Procedures -/

section Procedures

variable {known : DeclId → Prop} {t : Trace} {share : Share} {entry : Option Substitution}
  {body : NodeId}

/-- Walking the body of a procedure, with another one open, there is room for the rest. -/
theorem room_of_enter (hpoised : Poised setting records s)
    (henter : Enterable setting.program callee s) (hdecl : setting.program.decl callee = .ok decl)
    (entry : Option Substitution) : setting.program.nodes.size +
      room setting.program (s.enter (.opened callee decl entry)) = room setting.program s := by
  have hlt := hpoised.once.length_lt hdecl (List.nodup_cons.1 henter.nodup).1
  have howners : owners (s.enter (.opened callee decl entry)).scopes =
      .proc callee :: owners s.scopes :=
    congrArg (· :: owners s.scopes) (opened_diagnostics callee decl entry).2
  have hrest : setting.program.decls.size - (procs (owners s.scopes)).length =
      setting.program.decls.size - ((procs (owners s.scopes)).length + 1) + 1 := by omega
  rw [room, room, howners, procs_cons_proc, List.length_cons, hrest, Nat.mul_succ, Nat.add_comm]

variable (huntangled : setting.program.Untangled)
include huntangled

/-- A procedure that was attached once can be attached again. -/
theorem Attaches.reproducible (hrecorded : Recorded setting recorded store)
    (hattaches : Attaches setting store callee t share)
    (hnodup : (recorded.atoms ++ share.atoms).Nodup) (hknown : known callee)
    (hcallees : ∀ other, store.get? other ≠ none → Reproducible setting known other) :
    Reproducible setting known callee := by
  have hbefore := (List.nodup_append.1 hnodup).1
  intro decl records s depth entry hdecl henter hpoised hentry hroom
  cases hattaches with
  | declared hdecl' hbody hcontract hlower =>
      cases hdecl.symm.trans hdecl'
      obtain ⟨_, hlower', -⟩ :=
        Contract.lower_from hlower s.supply (Contract.rebase_minted _ s.supply)
      exact ⟨_, _, _, .declared hdecl hbody hcontract hlower', List.forall_mem_singleton.2 hknown⟩
  | @walked _ _ _ _ written done _ _ _ _ _ hdecl' hbody hlocal hproject hclosed hscoped hverdict =>
      cases hdecl.symm.trans hdecl'
      have hready := henter.ready hdecl hbody entry
      have hopened := hpoised.enter henter hdecl hentry
      obtain ⟨fragment', account, mid, hvisit, hprocs⟩ := followed_localWithin huntangled hrecorded
        hbefore hcallees _ hlocal.shallow hready hopened
        ((room_of_enter hpoised henter hdecl entry).le.trans hroom)
      obtain ⟨own', hscopes, hlocal', hrecorded'⟩ := recorded_yieldsWithin huntangled depth hvisit
        hready hopened.sober hopened.recorded rfl
      have hbooks := books_yieldsWithin setting depth _ _ _ _ _ _ hvisit hready
      obtain ⟨hmid, hfragment⟩ := hopened.sober.after hready hvisit
      obtain ⟨f, hsame, hown⟩ := exists_sameTraces done account.own hrecorded
        (hnodup.sublist ((List.sublist_append_left _ _).append_left _)) hrecorded'
        (hopened.nodup_own hbooks)
      obtain ⟨rfl, -, hscope⟩ := LocalWithin.twin hsame _ _ _ hlocal hlocal'
        (Scope.twin_opened callee decl _ entry) hown
      have hproject' : project setting own'.interface
          (whole setting own' (written.map (Trace.renumber f.perm))) = .ok (t.renumber f.perm) := by
        rw [hscope.whole f.perm.injective, hscope.interface, Walk.project_renumber f.perm.injective,
          hproject]
        rfl
      have hclosed' : (t.renumber f.perm).isClosed = true :=
        (Trace.isClosed_renumber f.perm.injective t).trans hclosed
      obtain ⟨judged', _, hverdict', -⟩ := f.verdict_twin hscope hverdict hscoped
        (hmid.projected hfragment hscopes hproject' hclosed')
      refine ⟨_, _, _, .attached hdecl hbody hvisit hscopes hproject' hclosed' hverdict',
        fun other hmem => ?_⟩
      rw [Account.procs, List.map_append] at hmem
      rcases List.mem_append.1 hmem with hmem | hmem
      · exact hprocs other hmem
      · exact List.mem_singleton.1 hmem ▸ hknown

/-- Every procedure in a store can be attached again. -/
theorem Recorded.reproducible (h : Recorded setting recorded store) (hnodup : recorded.atoms.Nodup)
    (hknown : ∀ other, store.get? other ≠ none → known other) :
    ∀ callee, store.get? callee ≠ none → Reproducible setting known callee := by
  induction h with
  | nil => exact fun _ hget => absurd rfl hget
  | @attach recorded store other t share hrecorded _ hattaches ih =>
      rw [Records.atoms_append] at hnodup
      have hother : (store.insert other (.single t)).get? other ≠ none := by
        rw [Ledger.get?_insert, if_pos rfl]
        exact Option.some_ne_none _
      have hcallees := ih (List.nodup_append.1 hnodup).1 fun c hc => hknown c fun hnone => by
        rw [Ledger.get?_insert] at hnone
        split at hnone
        · cases hnone
        · exact hc hnone
      intro callee hget
      by_cases hsame : callee = other
      · subst hsame
        exact hattaches.reproducible huntangled hrecorded (by simpa [Records.atoms] using hnodup)
          (hknown _ hother) hcallees
      · rw [Ledger.get?_insert, if_neg hsame] at hget
        exact hcallees callee hget

end Procedures

end Walk

end ProcessContracts
