import ProcessContracts.Proofs.ScopedChecks
import ProcessContracts.Proofs.ShiftedWalks

/-!
# What accounts add up to

The account of a walk lists every atom it minted and every diagnostic it published, each one once,
and the procedures it attached in the order in which they came into the store. None of these was
there before or open during the walk.
-/

namespace ProcessContracts

open Walk WalkState

/-! ## Invariants of rules -/

section Invariants

variable {setting : Setting} {I : Invariant setting} {s s' : WalkState} {bs : List (List Bucket)}
  {depth : Nat} {node : NodeId} {fragment : Option Trace} {account : Account}

theorem WalkState.frames_filled (h : bs.length = s.scopes.length) :
    (s.filled bs).frames = s.frames := by
  have hframes : ∀ state : WalkState, state.emptied.frames = state.frames := fun state => by
    rw [frames, emptied, List.map_map]
    rfl
  rw [← hframes, emptied_filled h, hframes]

theorem Walk.Invariant.tidy_of_empty {n : Nat} {frames : List Scope}
    (h : ∀ buckets ∈ bs, ∀ bucket ∈ buckets, bucket.fragments = []) : I.Tidy n frames bs := by
  induction bs generalizing frames with
  | nil => cases frames <;> trivial
  | cons buckets rest ih =>
      obtain ⟨hbuckets, hrest⟩ := List.forall_mem_cons.1 h
      cases frames with
      | nil => trivial
      | cons frame outer =>
          refine ⟨fun bucket hbucket t ht => ?_, ih hrest⟩
          rw [hbuckets bucket hbucket] at ht
          cases ht

/-- What walks keep is kept by the rules. -/
theorem Walk.Invariant.kept (h : YieldsWithin setting depth node s fragment account s')
    (hbare : s.Bare) (hopen : s.scopes ≠ [])
    (hholds : I.Holds s.minted s.store s.history s.frames)
    (hmay : I.May depth (owners s.frames) node) :
    I.Holds s'.minted s'.store s'.history s'.frames ∧ s.Later s' ∧
      ∀ t, fragment = some t → I.Fits s'.minted s'.frames t := by
  have hcontributes := @realizes_walkWithin setting depth node
  obtain ⟨hbare', hlength⟩ := hcontributes.bare h hbare
  obtain ⟨own, outer, hscopes⟩ := List.exists_cons_of_ne_nil hopen
  have hbs : ([({} : Bucket)] :: outer.map fun _ => []).length = s.scopes.length := by
    rw [hscopes, List.length_cons, List.length_cons, List.length_map]
  generalize hfirst : [({} : Bucket)] :: outer.map (fun _ => ([] : List Bucket)) = bs at hbs
  have hbs' : (contribute fragment.toList bs).length = s'.scopes.length := by
    rw [length_contribute, hbs, hlength]
  have hrun : (walkWithin setting depth node).run (s.filled bs) =
      .ok () (s'.filled (contribute fragment.toList bs)) := by
    refine (hcontributes.run_iff ?_).2 ⟨fragment, account, ?_, ?_⟩
    · exact ⟨{}, [], outer.map fun _ => [], by rw [buckets_filled hbs, hfirst]⟩
    · rwa [emptied_filled hbs, emptied_filled hbs', emptied_of_bare hbare, emptied_of_bare hbare']
    · rw [buckets_filled hbs, buckets_filled hbs']
  have hsound : I.Sound (s.filled bs) := by
    refine ⟨?_, ?_⟩
    · rw [frames_filled hbs]
      exact hholds
    · rw [buckets_filled hbs, ← hfirst]
      refine I.tidy_of_empty (List.forall_mem_cons.2 ⟨by simp, ?_⟩)
      simp
  have hkeeps := keeps_walkWithin (I := I) depth hsound
    ⟨{}, [], outer.map fun _ => [], by rw [buckets_filled hbs, hfirst]⟩
    (by rw [frames_filled hbs]; exact hmay)
  rw [Invariant.Keeps, hrun] at hkeeps
  obtain ⟨⟨hholds', htidy⟩, hlater, -⟩ := hkeeps
  rw [frames_filled hbs'] at hholds'
  refine ⟨hholds', ⟨hlater.minted, ?_, hlater.history, hlater.diagnostics⟩, fun t ht => ?_⟩
  · have hframes := hlater.frames
    rwa [frames_filled hbs, frames_filled hbs'] at hframes
  · rw [buckets_filled hbs', frames_filled hbs', ht, ← hfirst] at htidy
    obtain ⟨own', outer', hscopes'⟩ : ∃ own' outer', s'.frames = own' :: outer' := by
      refine List.exists_cons_of_ne_nil fun hnone => ?_
      rw [frames, List.map_eq_nil_iff] at hnone
      rw [hnone, hscopes] at hlength
      cases hlength
    rw [hscopes'] at htidy ⊢
    exact htidy.1 _ List.mem_cons_self t (List.mem_singleton_self t)

end Invariants

/-! ## Sums -/

/-- The atoms minted for any purpose. -/
def Account.atoms (account : Account) : List AtomId :=
  account.own.atoms ++ account.attached.flatMap (·.2.atoms)

/-- The diagnostics published for any purpose. -/
def Account.published (account : Account) : List Diagnostic :=
  account.own.published ++ account.attached.flatMap (·.2.published)

/-- The procedures attached. -/
def Account.procs (account : Account) : List DeclId := account.attached.map (·.1)

theorem Account.atoms_add (a b : Account) : (a.add b).atoms.Perm (a.atoms ++ b.atoms) := by
  simp only [Account.atoms, Account.add, Share.add, List.flatMap_append, List.append_assoc]
  exact (List.perm_append_comm_assoc _ _ _).append_left _

theorem Account.published_add (a b : Account) :
    (a.add b).published.Perm (a.published ++ b.published) := by
  simp only [Account.published, Account.add, Share.add, List.flatMap_append, List.append_assoc]
  exact (List.perm_append_comm_assoc _ _ _).append_left _

theorem Account.procs_add (a b : Account) : (a.add b).procs = a.procs ++ b.procs :=
  List.map_append

theorem AtomSupply.upTo_append {first mid last : AtomSupply} (h : first.minted ≤ mid.minted)
    (h' : mid.minted ≤ last.minted) : first.upTo mid ++ mid.upTo last = first.upTo last := by
  have hmid : mid.minted = first.minted + (mid.minted - first.minted) := by omega
  have hlast : last.minted - first.minted =
      (mid.minted - first.minted) + (last.minted - mid.minted) := by omega
  rw [upTo, upTo, upTo, ← List.map_append, hlast, ← List.range'_append_1, ← hmid]

theorem AtomSupply.nodup_upTo (first last : AtomSupply) : (first.upTo last).Nodup :=
  (List.nodup_range').map fun _ _ h => AtomId.mk.inj h

theorem AtomSupply.length_upTo (first last : AtomSupply) :
    (first.upTo last).length = last.minted - first.minted := by
  rw [upTo, List.length_map, List.length_range']

/-- What was stored stays as it is. -/
def TraceStore.StaysIn (store later : TraceStore) : Prop :=
  ∀ callee traces, store.get? callee = some traces → later.get? callee = some traces

/-- What the account of a walk says about the states before and after it. -/
structure Books (s : WalkState) (account : Account) (s' : WalkState) : Prop where
  minted_le : s.minted ≤ s'.minted
  atoms : account.atoms.Perm (s.supply.upTo s'.supply)
  published : s'.diagnostics.Perm (s.diagnostics ++ account.published)
  keys : s'.store.keys = s.store.keys ++ account.procs
  kept : s.store.StaysIn s'.store
  apart : ∀ callee ∈ account.procs, .proc callee ∉ owners s.scopes

section Books

variable {setting : Setting} {visits : Table} {s mid s' : WalkState} {a b account : Account}
  {callee : DeclId} {decl : Decl} {unit : ProgramUnit} {node : NodeId}

theorem Books.refl (s : WalkState) : Books s {} s where
  minted_le := Nat.le_refl _
  atoms := by simp [Account.atoms]
  published := by simp [Account.published]
  keys := (List.append_nil _).symm
  kept _ _ := id
  apart _ h := nomatch h

theorem Books.trans (h : Books s a mid) (howners : owners mid.scopes = owners s.scopes)
    (h' : Books mid b s') : Books s (a.add b) s' where
  minted_le := Nat.le_trans h.minted_le h'.minted_le
  atoms := by
    rw [← AtomSupply.upTo_append h.minted_le h'.minted_le]
    exact (a.atoms_add b).trans (h.atoms.append h'.atoms)
  published := by
    refine h'.published.trans ((h.published.append_right _).trans ?_)
    rw [List.append_assoc]
    exact (a.published_add b).symm.append_left _
  keys := by rw [h'.keys, h.keys, Account.procs_add, List.append_assoc]
  kept callee traces hget := h'.kept _ _ (h.kept _ _ hget)
  apart callee hcallee := by
    rw [Account.procs_add] at hcallee
    rcases List.mem_append.1 hcallee with hcallee | hcallee
    · exact h.apart callee hcallee
    · exact howners ▸ h'.apart callee hcallee

/-- Atoms are minted and diagnostics published for the walk's own procedure. -/
theorem Books.own {supply : AtomSupply} {found : List Diagnostic} (hle : s.minted ≤ supply.minted)
    (hsupply : s'.supply = supply) (hstore : s'.store = s.store)
    (hfound : s'.diagnostics = s.diagnostics ++ found) :
    Books s { own := ⟨s.supply.upTo supply, found⟩ } s' where
  minted_le := by
    change s.minted ≤ s'.supply.minted
    rwa [hsupply]
  atoms := by simp [Account.atoms, hsupply]
  published := by simp [Account.published, hfound]
  keys := by simp [Account.procs, hstore]
  kept _ _ hget := hstore ▸ hget
  apart _ h := nomatch h

theorem Ledger.seek_eq_none_iff {κ α : Type} [DecidableEq κ] {key : κ} {entries : List (κ × α)} :
    seek key entries = none ↔ key ∉ entries.map (·.1) := by
  induction entries with
  | nil => simp [seek]
  | cons entry rest ih =>
      rw [seek, List.map_cons, List.mem_cons, not_or]
      split
      case isTrue h => simp [h]
      case isFalse h => simp [ih, Ne.symm h]

theorem Ledger.get?_eq_none_iff {κ α : Type} [DecidableEq κ] {ledger : Ledger κ α} {key : κ} :
    ledger.get? key = none ↔ key ∉ ledger.keys := seek_eq_none_iff

/-- A procedure that is attached comes last into the store, and what was done for the walk's own
procedure was done for it. -/
theorem Books.attach (h : Books s account mid) (hfresh : s.store.get? callee = none)
    (hother : callee ∉ account.procs) (hclosed : .proc callee ∉ owners s.scopes) (t : Trace) :
    Books s { attached := account.attached ++ [(callee, account.own)] } (mid.attach callee t) where
  minted_le := h.minted_le
  atoms := by
    refine List.Perm.trans ?_ h.atoms
    simpa [Account.atoms] using List.perm_append_comm
  published := by
    refine h.published.trans (List.Perm.append_left _ ?_)
    simpa [Account.published] using List.perm_append_comm
  keys := by
    have hnew : callee ∉ mid.store.keys := by
      rw [h.keys, List.mem_append]
      exact not_or.2 ⟨Ledger.get?_eq_none_iff.1 hfresh, hother⟩
    change (mid.store.insert callee _).keys = _
    rw [Ledger.keys_insert, if_neg hnew, h.keys, List.append_assoc]
    simp [Account.procs]
  kept other traces hget := by
    change (mid.store.insert callee _).get? other = _
    rw [Ledger.get?_insert, if_neg, h.kept other traces hget]
    rintro rfl
    rw [hfresh] at hget
    cases hget
  apart other hother := by
    simp only [Account.procs, List.map_append, List.map_cons, List.map_nil, List.mem_append,
      List.mem_singleton] at hother
    rcases hother with hother | rfl
    · exact h.apart other hother
    · exact hclosed

/-- What is walked in a scope of its own, seen from outside. -/
theorem Books.outside {new : Scope} (h : Books (s.enter new) account mid) (outer : List Scope) :
    Books s account { mid with scopes := outer } where
  minted_le := h.minted_le
  atoms := h.atoms
  published := h.published
  keys := h.keys
  kept := h.kept
  apart callee hcallee hmem := h.apart callee hcallee (List.mem_cons_of_mem _ hmem)

end Books

/-! ## Contract checks -/

namespace Walk

section Verdicts

variable {setting : Setting} {callee : DeclId} {decl : Decl} {scope judged : Scope} {t : Trace}
  {contract : Contract} {approximate : Bool} {found : List Diagnostic} {s s' : WalkState}

theorem minted_le_assess
    (h : (assess setting callee contract approximate t).run s = .ok found s') :
    s.minted ≤ s'.minted := by
  unfold assess at h
  obtain ⟨name, -, h⟩ := liftLookup_bind_eq_ok.1 h
  obtain ⟨spec, mid, hlower, h⟩ := bind_eq_ok.1 h
  have hmid : s.minted ≤ mid.minted := by
    rw [lower_run] at hlower
    split at hlower
    case h_1 hrun =>
      obtain ⟨-, rfl⟩ := EStateM.Result.ok.inj hlower
      exact (Contract.lowered_of_lower hrun).minted_le
    case h_2 hrun =>
      obtain ⟨-, rfl⟩ := EStateM.Result.ok.inj hlower
      exact (Contract.refused_of_lower hrun).minted_le
    case h_3 => cases hlower
  cases spec with
  | error unbound =>
      obtain ⟨-, rfl⟩ := pure_eq_ok.1 h
      exact hmid
  | ok spec =>
      obtain ⟨report, -, h⟩ := liftLookup_bind_eq_ok.1 h
      obtain ⟨-, rfl⟩ := liftLookup_eq_ok.1 h
      exact hmid

/-- What is found about the contract is reported after what was reported before. -/
theorem verdict_eq_ok : (verdict setting callee decl scope t).run s = .ok judged s' ↔
    (decl.contract = none ∧ judged = scope ∧ s' = s) ∨ ∃ contract found mid,
      decl.contract = some contract ∧
      (assess setting callee contract.value scope.approximate t).run s = .ok found mid ∧
      judged = (found.map (Diagnostic.atContract callee contract.span)).foldl Scope.report scope ∧
      s' = { mid with history := mid.history ++ [.judged callee scope.recursionAtom t
        (found.map (Diagnostic.atContract callee contract.span))] } := by
  unfold verdict
  cases decl.contract with
  | none =>
      rw [pure_eq_ok]
      simp [eq_comm]
  | some contract =>
      unfold judge
      rw [bind_eq_ok]
      constructor
      · rintro ⟨found, mid, hassess, h⟩
        obtain ⟨rfl, rfl⟩ := EStateM.Result.ok.inj h
        exact .inr ⟨contract, found, mid, rfl, hassess, rfl, rfl⟩
      · rintro (⟨hnone, -⟩ | ⟨_, found, mid, ⟨⟩, hassess, rfl, rfl⟩)
        · cases hnone
        · exact ⟨found, mid, hassess, rfl⟩

theorem minted_le_verdict (h : (verdict setting callee decl scope t).run s = .ok judged s') :
    s.minted ≤ s'.minted := by
  rcases verdict_eq_ok.1 h with ⟨-, -, rfl⟩ | ⟨_, _, _, -, hassess, -, rfl⟩
  · exact Nat.le_refl _
  · exact (minted_le_assess hassess :)

end Verdicts

/-! ## Walks -/

section Rules

variable {setting : Setting} {program : Program} {visits : Table} {unit : ProgramUnit}
  {node : NodeId} {callee : DeclId} {s mid s' : WalkState} {account : Account}

/-- Every walk keeps its books. -/
def Accounted (program : Program) (visits : Table) : Prop :=
  ∀ unit node s f account s', visits node s f account s' → Ready program unit node s →
    Books s account s'

theorem books_series (h : Accounted program visits) (hregular : Regular program visits)
    {nodes : List NodeId} {fragments : List (Option Trace)}
    (hseries : Series visits nodes s fragments account s')
    (hready : ∀ node ∈ nodes, Ready program unit node s) : Books s account s' := by
  induction hseries with
  | nil s => exact .refl s
  | cons hnode _ ih =>
      obtain ⟨hfirst, hnodes⟩ := List.forall_mem_cons.1 hready
      obtain ⟨hmid, -⟩ := hregular _ _ _ _ _ _ hnode hfirst
      exact (h _ _ _ _ _ _ hnode hfirst).trans (owners_of_onward hmid.scopes)
        (ih fun node hnode => (hnodes node hnode).later hmid)

theorem books_completes (h : Accounted setting.program visits)
    (hregular : Regular setting.program visits) {entry : Option Substitution} {traces : ProcTraces}
    (henter : Enterable setting.program callee s) (hfresh : s.store.get? callee = none)
    (hcompletes : Completes setting visits callee entry s traces account s') :
    Books s account s' := by
  have hclosed : .proc callee ∉ owners s.scopes := (List.nodup_cons.1 henter.nodup).1
  cases hcompletes with
  | undeclared => exact .refl s
  | @declared _ _ t supply _ _ _ hlower =>
      have hminted : Books s { own := ⟨s.supply.upTo supply, []⟩ } { s with supply } :=
        .own ((Contract.lowered_of_lower hlower).minted_le) rfl rfl (List.append_nil _).symm
      exact hminted.attach hfresh List.not_mem_nil hclosed t
  | unbound _ _ _ hlower => exact .own (Contract.refused_of_lower hlower).minted_le rfl rfl rfl
  | dropped hdecl hbody hvisit hscopes =>
      exact (h _ _ _ _ _ _ hvisit (henter.ready hdecl hbody entry)).outside _
  | @attached decl body fragment account scope outer mid projected judged noted hdecl hbody hvisit
      hscopes _ _ hverdict =>
      have hready := henter.ready hdecl hbody entry
      have hbody := h _ _ _ _ _ _ hvisit hready
      have howners : owners outer = owners s.scopes := by
        have hmid := owners_of_onward (hregular _ _ _ _ _ _ hvisit hready).1.scopes
        rw [hscopes] at hmid
        exact (List.cons.inj hmid).2
      have hother : callee ∉ account.procs := fun hmem => by
        refine hbody.apart callee hmem ?_
        rw [← (opened_diagnostics callee decl entry).2]
        exact List.mem_cons_self
      have hle : mid.minted ≤
          (({ mid with scopes := outer }.after noted).publish judged.diagnostics).minted :=
        (minted_le_verdict hverdict :)
      have hjudged : Books s
          (account.add { own := ⟨mid.supply.upTo noted.supply, judged.diagnostics⟩ })
          (({ mid with scopes := outer }.after noted).publish judged.diagnostics) :=
        (hbody.outside outer).trans howners (.own hle rfl rfl rfl)
      have hattached : (account.add
          { own := ⟨mid.supply.upTo noted.supply, judged.diagnostics⟩ }).attached =
            account.attached := List.append_nil _
      have hlast := hjudged.attach hfresh (by rwa [Account.procs, hattached]) hclosed projected
      rwa [hattached] at hlast

theorem books_supplies (h : Accounted setting.program visits)
    (hregular : Regular setting.program visits) {decl : Decl} {bindings : Substitution}
    {traces : TraceSet} (henter : Enterable setting.program callee s)
    (hsupplies : Supplies setting visits callee decl bindings s traces account s') :
    Books s account s' := by
  cases hsupplies with
  | stored => exact .refl s
  | demanded hfresh _ hcompletes => exact books_completes h hregular henter hfresh hcompletes

theorem books_rule (h : Accounted setting.program visits)
    (hregular : Regular setting.program visits) :
    Accounted setting.program (Rule setting visits) := by
  intro unit node s f account s' hrule hready
  cases hrule with
  | planned hnode hplan hseries hmade =>
      have hparts := fun part (hpart : part ∈ _) =>
        hready.of_part hnode (mem_children_of_plan hplan hpart)
      obtain ⟨-, rfl, rfl⟩ := hmade
      have howners := owners_of_onward (regular_series hregular hseries hparts).1.scopes
      refine (books_series h hregular hseries hparts).trans howners ?_
      exact .own (Nat.le_add_right _ _) rfl rfl (List.append_nil _).symm
  | folded hinstance hsplit _ hmarked hatom =>
      exact Books.own (minted_le_recursionAtomFrom hatom) rfl rfl (List.append_nil _).symm
  | builtin => exact .refl s
  | supplied hinstance hsplit _ hsupplies =>
      exact books_supplies h hregular (hready.enterable hinstance hsplit) hsupplies
  | unresolved =>
      have hsame : ∀ scopes, Books s { own := ⟨s.supply.upTo s.supply, []⟩ } { s with scopes } :=
        fun _ => .own (Nat.le_refl _) rfl rfl (List.append_nil _).symm
      rw [AtomSupply.upTo_self] at hsame
      exact hsame _

theorem books_yieldsWithin (setting : Setting) (depth : Nat) :
    Accounted setting.program (YieldsWithin setting depth) := by
  induction depth with
  | zero => exact fun _ _ _ _ _ _ h => h.elim
  | succ depth ih => exact books_rule ih (regular_yieldsWithin setting depth)

/-- A procedure that is checked on its own. -/
theorem enterable_of_no_scopes {program : Program} (hscopes : s.scopes = [])
    (hclosed : (Session.ofWalk s).Closed) : Enterable program callee s where
  linked := by
    rw [hscopes]
    exact .singleton _
  nodup := by
    rw [hscopes]
    exact List.nodup_singleton _
  closed := hclosed

/-- A process that is checked on its own. -/
theorem ready_process {program : Program} (hscopes : s.scopes = [])
    (hclosed : (Session.ofWalk s).Closed) (node : NodeId) :
    Ready program (.process node) node (s.enter { owner := .process node }) := by
  have howners : owners (s.enter { owner := .process node }).scopes = [.process node] := by
    rw [enter, hscopes]
    rfl
  exact ⟨by rw [howners]; rfl, howners ▸ .singleton _, howners ▸ List.nodup_singleton _,
    Program.Root.process.within, hclosed⟩

theorem books_unitYields {traces : TraceSet} (hscopes : s.scopes = [])
    (hclosed : (Session.ofWalk s).Closed)
    (hfresh : ∀ callee, unit = .proc callee → s.store.get? callee = none)
    (h : UnitYields setting unit s traces account s') : Books s account s' := by
  have hwalk := books_yieldsWithin setting (depthBound setting.program)
  have hregular := regular_yieldsWithin setting (depthBound setting.program)
  cases h with
  | proc hcompletes =>
      exact books_completes hwalk hregular (enterable_of_no_scopes hscopes hclosed) (hfresh _ rfl)
        hcompletes
  | @process node _ fragment account scope outer mid hvisit hmid =>
      have hready := @ready_process _ setting.program hscopes hclosed node
      have howners := owners_of_onward (hregular _ _ _ _ _ _ hvisit hready).1.scopes
      rw [hmid] at howners
      have hbody := (hwalk _ _ _ _ _ _ hvisit hready).outside outer
      refine hbody.trans (List.cons.inj howners).2 ?_
      have hpublished : Books { mid with scopes := outer }
          { own := ⟨mid.supply.upTo mid.supply, scope.diagnostics⟩ }
          ({ mid with scopes := outer }.publish scope.diagnostics) :=
        .own (Nat.le_refl _) rfl rfl rfl
      rwa [AtomSupply.upTo_self] at hpublished

end Rules

end Walk

end ProcessContracts
