import ProcessContracts.Proofs.QuietSteps
import ProcessContracts.Proofs.Reproduction

/-!
# Walks that are given up

A walk that is given up keeps the traces it attached. Each of them was attached when the walk of its
procedure was complete. So what is stored of a region has its records, whether walks go on to the
end or not.
-/

namespace ProcessContracts

open Walk WalkState

namespace Walk

variable {α β : Type} {setting : Setting} {inside : DeclId → Bool} {records : Records}
  {unit : ProgramUnit} {node body : NodeId} {callee : DeclId} {decl : Decl}
  {bindings : Substitution} {s mid s' : WalkState} {fragment : Option Trace} {account : Account}
  {depth : Nat}

/-! ## Stocks -/

/-- The records of what is stored of a region. No atom has two purposes, and none is still to be
minted. -/
structure Stock (setting : Setting) (inside : DeclId → Bool) (records : Records) (s : WalkState) :
    Prop where
  recorded : Recorded setting records (s.store.within inside)
  nodup : records.atoms.Nodup
  minted : ∀ id ∈ records.atoms, id.index < s.minted

def Stocked (setting : Setting) (inside : DeclId → Bool) (s : WalkState) : Prop :=
  ∃ records, Stock setting inside records s

theorem Stock.keep (h : Stock setting inside records s) (hstore : s'.store = s.store)
    (hle : s.minted ≤ s'.minted) : Stock setting inside records s' :=
  ⟨hstore ▸ h.recorded, h.nodup, fun id hid => Nat.lt_of_lt_of_le (h.minted id hid) hle⟩

theorem Stocked.keep (h : Stocked setting inside s) (hstore : s'.store = s.store)
    (hsupply : s'.supply = s.supply) : Stocked setting inside s' := by
  obtain ⟨records, h⟩ := h
  exact ⟨records, h.keep hstore (Nat.le_of_eq (congrArg AtomSupply.minted hsupply.symm))⟩

/-- What a walk attached joins the stock. -/
theorem Stock.after (h : Stock setting inside records s) (hbooks : Books s account s')
    (hrecorded : Recorded setting (records ++ Records.within inside account.attached)
      (s'.store.within inside)) :
    Stock setting inside (records ++ Records.within inside account.attached) s' := by
  have hsub : (Records.atoms (records ++ Records.within inside account.attached)).Sublist
      (Records.atoms (records ++ account.attached)) :=
    (List.filter_sublist.append_left records).flatMap _
  have hnodup := hbooks.nodup_own h.nodup h.minted
  exact ⟨hrecorded, (List.nodup_append.1 hnodup).1.sublist hsub,
    fun id hid => hbooks.minted_attached h.minted id (hsub.subset hid)⟩

/-! ## Steps that attach nothing -/

/-- The store is the same later on. -/
def Spares (s s' : WalkState) : Prop := s'.store = s.store ∧ s.minted ≤ s'.minted

/-- Whatever comes of the computation, it leaves the store alone. -/
def Modest (m : Walk α) : Prop := ∀ s, ComesTo s m (fun _ => Spares s) fun _ => Spares s

theorem Passes.spares (h : Passes s s') : Spares s s' := ⟨h.store, h.minted⟩

theorem Spares.trans (h : Spares s mid) (h' : Spares mid s') : Spares s s' :=
  ⟨h'.1.trans h.1, h.2.trans h'.2⟩

theorem Modest.bind {m : Walk α} {k : α → Walk β} (hm : Modest m) (hk : ∀ a, Modest (k a)) :
    Modest (m >>= k) := fun s =>
  (hm s).bind fun a mid _ hmid => (hk a mid).imp (fun _ _ _ => hmid.trans) fun _ _ => hmid.trans

theorem Quiet.modest {m : Walk α} (h : Quiet m) : Modest m := fun s =>
  (h s).imp (fun _ _ _ hdone => hdone.1.spares) fun _ _ => Passes.spares

/-- Closing a scope attaches nothing either. -/
theorem modest_popScope : Modest popScope := by
  rintro ⟨supply, store, history, _ | ⟨own, outer⟩, diagnostics⟩ <;> exact ⟨rfl, Nat.le_refl _⟩

/-! ## What computations leave behind -/

/-- Where the computation succeeds it ends as wanted; where it is given up the state is stocked. -/
abbrev Leaves (setting : Setting) (inside : DeclId → Bool) (s : WalkState) (m : Walk α)
    (wanted : α → WalkState → Prop) : Prop := ComesTo s m wanted fun _ => Stocked setting inside

section Leaving

variable {m : Walk α} {wanted : α → WalkState → Prop}

theorem Leaves.bind {k : α → Walk β} {next : β → WalkState → Prop}
    (hm : Leaves setting inside s m wanted)
    (hk : ∀ a mid, wanted a mid → Leaves setting inside mid (k a) next) :
    Leaves setting inside s (m >>= k) next :=
  ComesTo.bind hm fun a mid _ => hk a mid

/-- It is enough that a stocked state is left where the computation is given up. -/
theorem leaves_of_trivial (h : Leaves setting inside s m fun _ _ => True)
    (hok : ∀ a s', m.run s = .ok a s' → wanted a s') : Leaves setting inside s m wanted :=
  h.imp (fun a s' hrun _ => hok a s' hrun) fun _ _ => id

theorem Leaves.trivial (h : Leaves setting inside s m wanted) :
    Leaves setting inside s m fun _ _ => True := h.imp (fun _ _ _ _ => True.intro) fun _ _ => id

theorem Stocked.spared (h : Stocked setting inside s) (hspares : Spares s s') :
    Stocked setting inside s' := by
  obtain ⟨records, h⟩ := h
  exact ⟨records, h.keep hspares.1 hspares.2⟩

theorem leaves_of_modest (h : Stocked setting inside s) (hm : Modest m) :
    Leaves setting inside s m fun _ => Stocked setting inside :=
  (hm s).imp (fun _ _ _ => h.spared) fun _ _ => h.spared

theorem leaves_of_quietFrom (h : Stocked setting inside s) (hm : QuietFrom s m) :
    Leaves setting inside s m fun _ => Stocked setting inside :=
  ComesTo.imp hm (fun _ _ _ hdone => h.spared hdone.1.spares) fun _ _ hdone => h.spared hdone.spares

theorem leaves_of_quiet (h : Stocked setting inside s) (hm : Quiet m) :
    Leaves setting inside s m fun _ => Stocked setting inside :=
  leaves_of_quietFrom h (hm s)

theorem leaves_liftLookup (h : Stocked setting inside s) (query : Lookup α) :
    Leaves setting inside s (liftLookup query) fun a s' => query = .ok a ∧ s' = s := by
  cases query with
  | ok a => exact ⟨rfl, rfl⟩
  | error fault => exact h

end Leaving

/-! ## States in which a unit is walked -/

/-- What holds of a state in which the nodes of a unit are walked. -/
structure Going (setting : Setting) (inside : DeclId → Bool) (unit : ProgramUnit) (s : WalkState) :
    Prop where
  ready : ∀ {node}, setting.program.Within unit node → Ready setting.program unit node s.emptied
  sober : Sober setting s.emptied
  stocked : Stocked setting inside s

theorem Going.of_emptied (h : Going setting inside unit s) (hsame : s'.emptied = s.emptied) :
    Going setting inside unit s' := by
  exact ⟨fun hwithin => hsame ▸ h.ready hwithin, hsame ▸ h.sober,
    h.stocked.keep (congrArg WalkState.store hsame :) (congrArg WalkState.supply hsame :)⟩

variable (hregion : setting.program.Region inside)

include hregion in
theorem Going.after (h : Going setting inside unit s) (hwithin : setting.program.Within unit node)
    (hyields : YieldsWithin setting depth node s.emptied fragment account s'.emptied) :
    Going setting inside unit s' := by
  obtain ⟨records, hstock⟩ := h.stocked
  have hready := h.ready hwithin
  have hproceeds := (regular_yieldsWithin setting depth _ _ _ _ _ _ hyields hready).1
  have hbooks : Books s.emptied account s'.emptied :=
    books_yieldsWithin setting depth _ _ _ _ _ _ hyields hready
  have hempty : Stock setting inside records s.emptied :=
    ⟨hstock.recorded, hstock.nodup, hstock.minted⟩
  have hrecorded :=
    (kept_yieldsWithin hregion depth hyields hready h.sober hempty.recorded).1
  have hlast := hempty.after hbooks hrecorded
  exact ⟨fun hwithin => (h.ready hwithin).later hproceeds, (h.sober.after hready hyields).1,
    _, hlast.recorded, hlast.nodup, hlast.minted⟩

/-- Walking a node of a unit goes on with the unit or leaves a stocked state. -/
def Careful (setting : Setting) (inside : DeclId → Bool) (visit : NodeId → Walk Unit) : Prop :=
  ∀ {unit node s}, setting.program.Within unit node → Going setting inside unit s →
    Receives s.buckets → Leaves setting inside s (visit node) fun _ s' =>
      Going setting inside unit s' ∧ ∃ ts, s'.buckets = contribute ts s.buckets

/-- A bucket is opened, and the unit goes on. -/
theorem leaves_openBucket (hgoing : Going setting inside unit s) (hopen : s.scopes ≠ []) :
    Leaves setting inside s openBucket fun _ s' =>
      Going setting inside unit s' ∧ Receives s'.buckets := by
  obtain ⟨inner, outer, heq⟩ : ∃ inner outer, s.buckets = inner :: outer :=
    List.exists_cons_of_ne_nil fun hnil => hopen (List.map_eq_nil_iff.1 hnil)
  obtain ⟨mid, hrun, hmid, hbuckets⟩ := openBucket_run heq
  unfold Leaves ComesTo
  rw [hrun]
  exact ⟨hgoing.of_emptied hmid, _, _, _, hbuckets⟩

section Parts

variable (hcareful : Careful setting inside (walkWithin setting depth))
include hcareful

theorem leaves_visitAll {nodes : List NodeId} (hgoing : Going setting inside unit s)
    (hbuckets : Receives s.buckets)
    (hwithin : ∀ node ∈ nodes, setting.program.Within unit node) :
    Leaves setting inside s (visitAll (walkWithin setting depth) nodes)
      fun _ => Stocked setting inside := by
  induction nodes generalizing s with
  | nil => exact leaves_of_quiet hgoing.stocked (quiet_pure _)
  | cons node nodes ih =>
      obtain ⟨hnode, hnodes⟩ := List.forall_mem_cons.1 hwithin
      refine (hcareful hnode hgoing hbuckets).bind fun _ mid ⟨hmid, ts, hts⟩ => ?_
      exact ih hmid (hts ▸ hbuckets.contribute ts) hnodes

theorem leaves_collect (hgoing : Going setting inside unit s) (hopen : s.scopes ≠ [])
    (node : NodeId) {children : List NodeId}
    (hwithin : ∀ child ∈ children, setting.program.Within unit child) :
    Leaves setting inside s (collect (walkWithin setting depth) node children)
      fun _ => Stocked setting inside := by
  refine (leaves_openBucket hgoing hopen).bind fun _ mid ⟨hmid, hbuckets⟩ => ?_
  refine (leaves_visitAll hcareful hmid hbuckets hwithin).bind fun _ mid hmid => ?_
  exact leaves_of_quiet hmid ((quiet_closeBucket node).bind fun _ => quiet_pure _)

include hregion in
/-- The fragment of a part is collected, and the unit goes on in the same buckets. -/
theorem leaves_part (hgoing : Going setting inside unit s) (hopen : s.scopes ≠ [])
    (construct : String) (node : NodeId) (hwithin : setting.program.Within unit body) :
    Leaves setting inside s
      (collectSingle setting (walkWithin setting depth) construct node body) fun _ s' =>
        Going setting inside unit s' ∧ s'.buckets = s.buckets := by
  refine leaves_of_trivial ?_ fun fragment last hrun => ?_
  · refine (leaves_openBucket hgoing hopen).bind fun _ mid ⟨hmid, hbuckets⟩ => ?_
    refine (hcareful hwithin hmid hbuckets).bind fun _ mid ⟨hmid, _⟩ => ?_
    exact (leaves_of_quiet hmid.stocked ((quiet_closeBucket node).bind fun _ =>
      quiet_singleFragment _ _ _)).trivial
  · have hcomputes : Computes (collectSingle setting (walkWithin setting depth) construct node body)
        (YieldsWithin setting depth body) :=
      computes_collectSingle (realizes_walkWithin depth body) construct node
    obtain ⟨account, hyields, hbuckets⟩ := (hcomputes.run_iff hopen).1 hrun
    exact ⟨hgoing.after hregion hwithin hyields, hbuckets⟩

include hregion in
/-- What comes after a part attaches nothing. -/
theorem leaves_part_bind (hgoing : Going setting inside unit s) (hopen : s.scopes ≠ [])
    (construct : String) (node : NodeId) (hwithin : setting.program.Within unit body)
    {k : Option Trace → Walk α} (hk : ∀ fragment, Modest (k fragment)) :
    Leaves setting inside s
      (collectSingle setting (walkWithin setting depth) construct node body >>= k)
      fun _ => Stocked setting inside :=
  (leaves_part hregion hcareful hgoing hopen construct node hwithin).bind
    fun fragment _ ⟨hmid, _⟩ => leaves_of_modest hmid.stocked (hk fragment)

end Parts

/-! ## Constructs -/

section Constructs

variable (hcareful : Careful setting inside (walkWithin setting depth))
  (hgoing : Going setting inside unit s) (hopen : s.scopes ≠ []) (node : NodeId)
include hregion hcareful hgoing hopen

theorem leaves_replicate (mode : Mode) (count : ExprId)
    (hwithin : setting.program.Within unit body) :
    Leaves setting inside s (replicate setting (walkWithin setting depth) node mode count body)
      fun _ => Stocked setting inside := by
  refine (leaves_liftLookup hgoing.stocked _).bind fun folded mid ⟨_, heq⟩ => ?_
  subst heq
  split
  · exact leaves_of_quiet hgoing.stocked (quiet_pure _)
  · refine leaves_part_bind hregion hcareful hgoing hopen _ node hwithin fun fragment =>
      Quiet.modest ?_
    split
    · exact quiet_pure _
    · split
      · exact quiet_emit _ _
      · exact (quiet_mint _).bind fun _ => quiet_emit _ _

theorem leaves_loop (guard : ExprId) (hwithin : setting.program.Within unit body) :
    Leaves setting inside s (Walk.loop setting (walkWithin setting depth) node guard body)
      fun _ => Stocked setting inside := by
  refine (leaves_liftLookup hgoing.stocked _).bind fun truth mid ⟨_, heq⟩ => ?_
  subst heq
  split
  · exact leaves_of_quiet hgoing.stocked (quiet_pure _)
  · refine leaves_part_bind hregion hcareful hgoing hopen _ node hwithin fun fragment =>
      Quiet.modest ?_
    split
    · exact quiet_emit _ _
    · exact (quiet_mint _).bind fun _ => quiet_emit _ _
  · exact leaves_part_bind hregion hcareful hgoing hopen _ node hwithin fun fragment =>
      ((quiet_mint _).bind fun _ => quiet_emit _ _).modest

theorem leaves_alternatives {arms : List CondArm}
    (hwithin : ∀ arm ∈ arms, setting.program.Within unit arm.body) :
    Leaves setting inside s (alternatives setting (walkWithin setting depth) node arms)
      fun _ => Stocked setting inside := by
  induction arms generalizing s with
  | nil => exact leaves_of_quiet hgoing.stocked (quiet_pure _)
  | cons arm arms ih =>
      obtain ⟨harm, harms⟩ := List.forall_mem_cons.1 hwithin
      refine (leaves_liftLookup hgoing.stocked _).bind fun truth mid ⟨_, heq⟩ => ?_
      subst heq
      split
      · exact ih hgoing hopen harms
      · refine (leaves_part hregion hcareful hgoing hopen _ node harm).bind
          fun fragment mid ⟨hmid, hbuckets⟩ => ?_
        split
        · exact leaves_of_quiet hmid.stocked (quiet_pure _)
        · refine (ih hmid (scopes_ne_nil_of_buckets hopen hbuckets) harms).bind
            fun _ last hlast => ?_
          exact leaves_of_quiet hlast (quiet_pure _)

theorem leaves_cond {arms : List CondArm}
    (hwithin : ∀ arm ∈ arms, setting.program.Within unit arm.body) :
    Leaves setting inside s (cond setting (walkWithin setting depth) node arms)
      fun _ => Stocked setting inside := by
  unfold cond
  split
  case h_1 arm =>
    refine (leaves_liftLookup hgoing.stocked _).bind fun truth mid ⟨_, heq⟩ => ?_
    subst heq
    split
    · exact leaves_of_quiet hgoing.stocked (quiet_pure _)
    · refine leaves_part_bind hregion hcareful hgoing hopen _ node
        (hwithin arm List.mem_cons_self) fun fragment => Quiet.modest ?_
      split
      · exact quiet_pure _
      · split <;> exact quiet_emit _ _
  case h_2 =>
    refine (leaves_alternatives hregion hcareful hgoing hopen node hwithin).bind
      fun _ mid hmid => ?_
    exact leaves_of_quiet hmid (quiet_emit _ _)

theorem leaves_ready {arm : AltArm} (hwithin : setting.program.Within unit arm.body) :
    Leaves setting inside s (ready setting (walkWithin setting depth) node arm) fun _ s' =>
      Going setting inside unit s' ∧ s'.scopes ≠ [] := by
  refine (leaves_part hregion hcareful hgoing hopen _ node hwithin).bind
    fun body mid ⟨hmid, hbuckets⟩ => ?_
  have hdone : Going setting inside unit mid ∧ mid.scopes ≠ [] :=
    ⟨hmid, scopes_ne_nil_of_buckets hopen hbuckets⟩
  split
  · exact hdone
  · refine (leaves_liftLookup hmid.stocked _).bind fun chan last ⟨_, heq⟩ => ?_
    subst heq
    split <;> exact hdone

theorem leaves_choices {arms : List AltArm}
    (hwithin : ∀ arm ∈ arms, setting.program.Within unit arm.body) :
    Leaves setting inside s (choices setting (walkWithin setting depth) node arms)
      fun _ => Stocked setting inside := by
  induction arms generalizing s with
  | nil => exact leaves_of_quiet hgoing.stocked (quiet_pure _)
  | cons arm arms ih =>
      obtain ⟨harm, harms⟩ := List.forall_mem_cons.1 hwithin
      have hdisabled : Leaves setting inside s (disabled setting arm) fun _ s' => s' = s := by
        unfold disabled
        split
        · exact (leaves_liftLookup hgoing.stocked _).bind fun _ _ ⟨_, heq⟩ => heq
        · exact (rfl : s = s)
      refine hdisabled.bind fun off mid heq => ?_
      subst heq
      split
      · exact ih hgoing hopen harms
      · refine (leaves_ready hregion hcareful hgoing hopen node harm).bind
          fun choice mid ⟨hmid, hopen'⟩ => ?_
        refine (ih hmid hopen' harms).bind fun _ last hlast => ?_
        exact leaves_of_quiet hlast (quiet_pure _)

theorem leaves_alt {arms : List AltArm}
    (hwithin : ∀ arm ∈ arms, setting.program.Within unit arm.body) :
    Leaves setting inside s (alt setting (walkWithin setting depth) node arms)
      fun _ => Stocked setting inside := by
  refine (leaves_choices hregion hcareful hgoing hopen node hwithin).bind fun _ mid hmid => ?_
  split <;> exact leaves_of_quiet hmid (quiet_emit _ _)

end Constructs

/-! ## Procedures -/

section Procedures

variable (hcareful : Careful setting inside (walkWithin setting depth))
include hregion

/-- A procedure that is checked leaves its traces and those of its callees with their records. -/
theorem stocked_completes {entry : Option Substitution} {traces : ProcTraces}
    (henter : Enterable setting.program callee s) (hfresh : s.store.get? callee = none)
    (hentry : ∀ decl bindings, setting.program.decl callee = .ok decl → entry = some bindings →
      ∃ node, setting.program.Instantiates node callee decl bindings)
    (hsober : Sober setting s) (hstocked : Stocked setting inside s)
    (hcompletes : Completes setting (YieldsWithin setting depth) callee entry s traces account s') :
    Stocked setting inside s' := by
  obtain ⟨records, hstock⟩ := hstocked
  obtain ⟨decl, hdecl⟩ : ∃ decl, setting.program.decl callee = .ok decl := by
    cases hcompletes <;> exact ⟨_, ‹_›⟩
  have hbooks := books_completes (books_yieldsWithin setting depth)
    (regular_yieldsWithin setting depth) henter hfresh hcompletes
  have hrecorded := (kept_completes (kept_yieldsWithin hregion depth) hregion hcompletes henter
    hfresh hdecl (fun bindings => hentry decl bindings hdecl) hsober hstock.recorded).1
  exact ⟨_, hstock.after hbooks hrecorded⟩

include hcareful

theorem leaves_body {entry : Option Substitution}
    (henter : Enterable setting.program callee s.emptied)
    (hdecl : setting.program.decl callee = .ok decl) (hbody : decl.body = some body)
    (hentry : ∀ bindings, entry = some bindings →
      ∃ node, setting.program.Instantiates node callee decl bindings)
    (hsober : Sober setting s.emptied) (hstocked : Stocked setting inside s) :
    Leaves setting inside s (checkDecl setting (walkWithin setting depth) callee entry)
      fun _ _ => True := by
  have hgoing : Going setting inside (.proc callee) (s.enter (.opened callee decl entry)) := by
    have hready := henter.ready hdecl hbody entry
    have hsober := hsober.enter henter hdecl hentry
    rw [← emptied_enter] at hready hsober
    exact ⟨fun hwithin => ⟨hready.innermost, hready.linked, hready.nodup, hwithin, hready.closed⟩,
      hsober, hstocked.keep rfl rfl⟩
  unfold Leaves ComesTo
  rw [checkDecl_eq hdecl hbody]
  change Leaves setting inside s _ fun _ _ => True
  have hpush : Leaves setting inside s (pushScope (.opened callee decl entry)) fun _ s' =>
      s' = s.enter (.opened callee decl entry) := rfl
  refine hpush.bind fun _ mid heq => ?_
  subst heq
  refine (leaves_part hregion hcareful hgoing (List.cons_ne_nil _ _) _ _
    (Program.Root.proc hdecl hbody).within).bind fun fragment mid ⟨hmid, _⟩ => ?_
  refine (leaves_of_modest hmid.stocked modest_popScope).bind fun scope mid hmid => ?_
  refine (leaves_of_quiet hmid (quiet_liftLookup _)).bind fun projected mid hmid => ?_
  split
  · refine (leaves_of_quiet hmid (quiet_verdict _ _ _ _)).bind fun judged mid _ => ?_
    exact True.intro
  · exact True.intro

theorem leaves_checkDecl {entry : Option Substitution}
    (henter : Enterable setting.program callee s.emptied) (hfresh : s.store.get? callee = none)
    (hentry : ∀ decl bindings, setting.program.decl callee = .ok decl → entry = some bindings →
      ∃ node, setting.program.Instantiates node callee decl bindings)
    (hsober : Sober setting s.emptied) (hstocked : Stocked setting inside s) :
    Leaves setting inside s (checkDecl setting (walkWithin setting depth) callee entry)
      fun _ => Stocked setting inside := by
  refine leaves_of_trivial ?_ fun traces last hrun => ?_
  · cases hdecl : setting.program.decl callee with
    | error fault =>
        unfold checkDecl
        split
        · exact (leaves_of_quiet hstocked (quiet_throw _)).trivial
        · refine (leaves_liftLookup hstocked _).bind fun decl mid ⟨hok, _⟩ => ?_
          cases hdecl.symm.trans hok
    | ok decl =>
        cases hbody : decl.body with
        | some body =>
            exact leaves_body hregion hcareful henter hdecl hbody
              (fun bindings => hentry decl bindings hdecl) hsober hstocked
        | none =>
            unfold checkDecl
            rw [if_neg (by rw [Program.containsDecl_of_ok hdecl]; decide)]
            refine (leaves_liftLookup hstocked _).bind fun found mid ⟨hok, heq⟩ => ?_
            cases hdecl.symm.trans hok
            subst heq
            rw [hbody]
            change Leaves setting inside mid (declared setting callee decl) fun _ _ => True
            unfold declared
            split
            · exact True.intro
            · refine (leaves_of_quiet hstocked (quiet_lower _ _)).bind fun lowered mid _ => ?_
              cases lowered <;> exact True.intro
  · obtain ⟨account, hcompletes, -⟩ := (checkDecl_run_iff (realizes_walkWithin depth)).1 hrun
    have hlast := stocked_completes hregion henter hfresh hentry hsober (hstocked.keep rfl rfl)
      hcompletes
    exact hlast.keep rfl rfl

theorem leaves_calleeTraces (hgoing : Going setting inside unit s)
    (hwithin : setting.program.Within unit node)
    (hinstance : setting.program.Instantiates node callee decl bindings)
    (hsplit : splitAt callee s.scopes = none) :
    Leaves setting inside s
      (calleeTraces setting (walkWithin setting depth) callee decl bindings)
      fun _ => Stocked setting inside := by
  refine ComesTo.get_bind ?_
  split
  · exact hgoing.stocked
  · rename_i hfresh
    split
    · have hclosed : splitAt callee s.emptied.scopes = none := by
        rw [emptied, splitAt_emptied, hsplit]
        rfl
      have henter := (hgoing.ready hwithin).enterable hinstance hclosed
      refine (leaves_checkDecl hregion hcareful henter hfresh (fun decl' bindings' hdecl heq => ?_)
        hgoing.sober hgoing.stocked).bind fun traces last hlast => hlast
      cases heq
      cases hinstance.choose_spec.2.1.symm.trans hdecl
      exact ⟨node, hinstance⟩
    · exact hgoing.stocked

theorem leaves_freshCall (hgoing : Going setting inside unit s)
    (hwithin : setting.program.Within unit node)
    (hinstance : setting.program.Instantiates node callee decl bindings)
    (hsplit : splitAt callee s.scopes = none) :
    Leaves setting inside s
      (freshCall setting (walkWithin setting depth) node callee decl bindings)
      fun _ => Stocked setting inside := by
  refine (leaves_calleeTraces hregion hcareful hgoing hwithin hinstance hsplit).bind
    fun traces mid hmid => ?_
  split
  · refine (leaves_of_quiet hmid (quiet_liftLookup _)).bind fun renamed mid hmid => ?_
    split
    · exact leaves_of_quiet hmid (quiet_emit _ _)
    · exact hmid
  · exact leaves_of_quiet hmid ((quiet_liftLookup _).bind fun _ =>
      (quiet_report _).bind fun _ => quiet_emit _ _)

theorem leaves_call (hgoing : Going setting inside unit s)
    (hwithin : setting.program.Within unit node) {args : List Arg}
    (hnode : setting.program.HasNode node (.call callee args)) :
    Leaves setting inside s (call setting (walkWithin setting depth) node callee args)
      fun _ => Stocked setting inside := by
  unfold call
  split
  · exact leaves_of_quiet hgoing.stocked (quiet_throw _)
  · refine (leaves_liftLookup hgoing.stocked _).bind fun decl mid ⟨hdecl, heq⟩ => ?_
    subst heq
    split
    · exact leaves_of_quiet hgoing.stocked (quiet_throw _)
    · rename_i bindings hpair
      refine ComesTo.get_bind ?_
      split
      · rename_i hsplit
        exact leaves_of_quietFrom hgoing.stocked
          (quietFrom_recursiveCall (splitAt_eq hsplit).1 node bindings)
      · rename_i hsplit
        split
        · exact leaves_of_quiet hgoing.stocked (quiet_emit _ _)
        · exact hgoing.stocked
        · exact leaves_freshCall hregion hcareful hgoing hwithin ⟨args, hnode, hdecl, hpair⟩ hsplit

end Procedures

/-! ## Nodes -/

include hregion in
theorem leaves_step (hcareful : Careful setting inside (walkWithin setting depth))
    (hgoing : Going setting inside unit s) (hbuckets : Receives s.buckets)
    (hwithin : setting.program.Within unit node) :
    Leaves setting inside s (step setting (walkWithin setting depth) node) fun _ _ => True := by
  have hopen := Receives.scopes_ne_nil hbuckets
  unfold step
  split
  · exact (leaves_of_quiet hgoing.stocked (quiet_throw _)).trivial
  · refine (leaves_liftLookup hgoing.stocked _).bind fun written mid ⟨hwritten, heq⟩ => ?_
    subst heq
    have hpart : ∀ {part}, part ∈ written.value.children → setting.program.Within unit part :=
      fun hpart => hwithin.of_part ⟨written, hwritten, rfl⟩ hpart
    have hnode : setting.program.HasNode node written.value := ⟨written, hwritten, rfl⟩
    have hdone : ∀ {m : Walk Unit}, Leaves setting inside mid m (fun _ => Stocked setting inside) →
        Leaves setting inside mid m fun _ _ => True := Leaves.trivial
    generalize written.value = construct at hpart hnode
    cases construct with
    | skip | stop => exact hdone (leaves_of_quiet hgoing.stocked (quiet_emit _ _))
    | input chan | output chan =>
        exact hdone (leaves_of_quiet hgoing.stocked
          ((quiet_liftLookup _).bind fun _ => quiet_emit _ _))
    | assign => exact hdone (leaves_of_quiet hgoing.stocked (quiet_pure _))
    | compose mode children =>
        refine hdone ((leaves_collect hcareful hgoing hopen node fun child hchild =>
          hpart hchild).bind fun ts last hlast => ?_)
        exact leaves_of_quiet hlast (quiet_emit _ _)
    | replicate mode count body =>
        exact hdone (leaves_replicate hregion hcareful hgoing hopen node mode count
          (hpart (List.mem_singleton_self body)))
    | loop guard body =>
        exact hdone (leaves_loop hregion hcareful hgoing hopen node guard
          (hpart (List.mem_singleton_self body)))
    | cond arms =>
        exact hdone (leaves_cond hregion hcareful hgoing hopen node fun arm harm =>
          hpart (List.mem_map_of_mem harm))
    | alt arms =>
        exact hdone (leaves_alt hregion hcareful hgoing hopen node fun arm harm =>
          hpart (List.mem_map_of_mem harm))
    | call callee args => exact hdone (leaves_call hregion hcareful hgoing hwithin hnode)
    | block locals body =>
        exact (hcareful (hpart (List.mem_singleton_self body)) hgoing hbuckets).trivial

include hregion in
/-- What walks do where they succeed is known: it is enough to look at where they are given up. -/
theorem careful_walkWithin (depth : Nat) : Careful setting inside (walkWithin setting depth) := by
  induction depth with
  | zero => exact fun _ hgoing _ => hgoing.stocked
  | succ depth ih =>
      intro unit node s hwithin hgoing hbuckets
      refine leaves_of_trivial (leaves_step hregion ih hgoing hbuckets hwithin) fun _ s' hrun => ?_
      obtain ⟨fragment, account, hyields, hlast⟩ :=
        ((realizes_walkWithin (depth + 1) node).run_iff hbuckets).1 hrun
      exact ⟨hgoing.after hregion hwithin hyields, _, hlast⟩

end Walk

end ProcessContracts
