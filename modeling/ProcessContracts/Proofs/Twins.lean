import ProcessContracts.Proofs.Shuffles

/-!
# Walks that do the same

Given the same traces of callees, up to a permutation of atoms, a node does the same for its own
procedure, if the permutation takes the atoms that one walk mints to those that the other one mints.
So two stores have the same trace of a procedure they share, up to a permutation that takes the
atoms of each share to those of its twin.
-/

namespace ProcessContracts

open Walk Trace

/-! ## Twins -/

/-- The same scope, up to the numbers of atoms and whatever the scope was opened for. -/
structure Scope.Twin (program : Program) (f : AtomId → AtomId) (scope scope' : Scope) : Prop where
  owner : scope'.owner = scope.owner
  interface : scope'.interface = scope.interface
  diagnostics : List.Forall₂ (Diagnostic.Renumbered program f) scope.diagnostics scope'.diagnostics
  recursionAtom : scope'.recursionAtom = scope.recursionAtom.map (Atom.renumber f)
  approximate : scope'.approximate = scope.approximate

/-- The same work. -/
structure Share.Twin (program : Program) (f : AtomId → AtomId) (share share' : Share) : Prop where
  atoms : share'.atoms = share.atoms.map f
  published : List.Forall₂ (Diagnostic.Renumbered program f) share.published share'.published

section Twins

variable {program : Program} {f : AtomId → AtomId} {scope scope' : Scope} {a a' b b' : Share}
  {first first' last last' : AtomSupply} {found found' : List Diagnostic}

theorem Share.twin_empty : Share.Twin program f {} {} := ⟨rfl, .nil⟩

theorem Share.Twin.length_eq (h : a.Twin program f a') : a'.atoms.length = a.atoms.length := by
  rw [h.atoms, List.length_map]

theorem Share.Twin.add (ha : a.Twin program f a') (hb : b.Twin program f b') :
    (a.add b).Twin program f (a'.add b') :=
  ⟨by rw [Share.add, Share.add, ha.atoms, hb.atoms, List.map_append],
    List.rel_append ha.published hb.published⟩

/-- As many atoms were minted. -/
theorem length_upTo_of_level (h : Level first.minted first'.minted last last') :
    (first'.upTo last').length = (first.upTo last).length := by
  obtain ⟨i, hlast, hlast'⟩ := h
  rw [AtomSupply.length_upTo, AtomSupply.length_upTo, hlast, hlast', Nat.add_sub_cancel_left,
    Nat.add_sub_cancel_left]

theorem Share.twin_of_level (h : Level first.minted first'.minted last last')
    (hmatches : Matches f (first.upTo last) (first'.upTo last'))
    (hfound : List.Forall₂ (Diagnostic.Renumbered program f) found found') :
    Share.Twin program f ⟨first.upTo last, found⟩ ⟨first'.upTo last', found'⟩ :=
  ⟨hmatches.eq_map (length_upTo_of_level h), hfound⟩

theorem Scope.Twin.reported (h : scope.Twin program f scope')
    (hfound : List.Forall₂ (Diagnostic.Renumbered program f) found found') :
    (found.foldl Scope.report scope).Twin program f (found'.foldl Scope.report scope') := by
  induction hfound generalizing scope scope' with
  | nil => exact h
  | @cons diagnostic diagnostic' _ _ hhead _ ih =>
      have howner : scope'.decl? = scope.decl? := congrArg ProgramUnit.decl? h.owner
      refine ih { h with diagnostics := List.rel_append h.diagnostics (.cons ?_ .nil) }
      exact { hhead with decl := by rw [hhead.decl, howner] }

theorem Scope.Twin.report (h : scope.Twin program f scope') (diagnostic : Diagnostic) :
    (scope.report diagnostic).Twin program f (scope'.report diagnostic) :=
  h.reported (Diagnostic.renumbered_selves program f [diagnostic])

theorem Scope.twin_start (owner : ProgramUnit) (interface : List NameId)
    (entry entry' : Option Substitution) :
    Scope.Twin program f { owner, interface, entry } { owner, interface, entry := entry' } :=
  ⟨rfl, rfl, .nil, rfl, rfl⟩

theorem Scope.twin_opened (callee : DeclId) (decl : Decl) (entry entry' : Option Substitution) :
    (Scope.opened callee decl entry).Twin program f (.opened callee decl entry') := by
  unfold Scope.opened
  generalize (decl.visibleParams.filter (·.isChannel)).map (·.name) = names
  have hstart : Scope.Twin program f { owner := .proc callee, entry }
    { owner := .proc callee, entry := entry' } := Scope.twin_start (.proc callee) [] entry entry'
  generalize ({ owner := .proc callee, entry } : Scope) = scope,
    ({ owner := .proc callee, entry := entry' } : Scope) = scope' at hstart
  induction names generalizing scope scope' with
  | nil => exact hstart
  | cons name names ih =>
      refine ih _ _ ?_
      unfold Scope.addInterface
      rw [hstart.interface]
      split
      · exact hstart
      · exact { hstart with interface := rfl }

theorem Scope.Twin.marked (h : scope.Twin program f scope') {node : NodeId} {decl : Decl}
    {altered : List NameId} {own : Scope}
    (hmarked : Walk.marked program node decl altered scope = .ok own) :
    ∃ own', Walk.marked program node decl altered scope' = .ok own' ∧ own.Twin program f own' := by
  unfold Walk.marked at hmarked ⊢
  split at hmarked
  case isTrue hnone =>
    obtain rfl := Except.ok.inj hmarked
    exact ⟨scope', if_pos hnone, h⟩
  case isFalse hsome =>
    obtain ⟨names, hnames, hmarked⟩ := Lookup.bind_eq_ok.1 hmarked
    obtain ⟨written, hwritten, hmarked⟩ := Lookup.bind_eq_ok.1 hmarked
    obtain rfl := Except.ok.inj hmarked
    rw [if_neg hsome, hnames, hwritten]
    exact ⟨_, rfl, { h.report _ with approximate := rfl }⟩

/-- The atom of a procedure is matched, whether it is minted now or was before. -/
theorem Scope.Twin.recursionAtomFrom (h : scope.Twin program f scope') {origin : Origin}
    {atom atom' : Atom} {own own' : Scope}
    (hatom : scope.recursionAtomFrom first origin = (atom, own, last))
    (hatom' : scope'.recursionAtomFrom first' origin = (atom', own', last'))
    (hmatches : Matches f (first.upTo last) (first'.upTo last')) :
    atom'.id = f atom.id ∧ own.Twin program f own' ∧
      Level first.minted first'.minted last last' := by
  obtain ⟨rfl, ⟨hsome, rfl⟩ | ⟨hnone, hmint⟩⟩ := recursionAtomFrom_eq hatom
  · have hsome' := h.recursionAtom
    rw [hsome] at hsome'
    obtain ⟨rfl, ⟨hknown, rfl⟩ | ⟨hnone, -⟩⟩ := recursionAtomFrom_eq hatom'
    · obtain rfl : atom' = atom.renumber f := Option.some.inj (hknown.symm.trans hsome')
      exact ⟨rfl, { h with recursionAtom := rfl }, 0, rfl, rfl⟩
    · cases hnone.symm.trans hsome'
  · have hnone' := h.recursionAtom
    rw [hnone] at hnone'
    obtain ⟨rfl, ⟨hknown, -⟩ | ⟨-, hmint'⟩⟩ := recursionAtomFrom_eq hatom'
    · cases hknown.symm.trans hnone'
    · obtain ⟨n⟩ := first
      obtain ⟨n'⟩ := first'
      obtain ⟨rfl, rfl⟩ := Prod.ext_iff.1 hmint
      obtain ⟨rfl, rfl⟩ := Prod.ext_iff.1 hmint'
      have hid : f ⟨n⟩ = ⟨n'⟩ :=
        hmatches 0 _ _ (by simp [AtomSupply.upTo, AtomSupply.mint])
          (by simp [AtomSupply.upTo, AtomSupply.mint])
      refine ⟨hid.symm, { h with recursionAtom := ?_ }, 1, rfl, rfl⟩
      exact congrArg (fun id => some (⟨id, origin⟩ : Atom)) hid.symm

theorem Scope.Twin.whole {setting : Setting} (hf : f.Injective) (h : scope.Twin program f scope')
    (fragment : Option Trace) : Walk.whole setting scope' (fragment.map (Trace.renumber f)) =
      (Walk.whole setting scope fragment).renumber f := by
  unfold Walk.whole
  rw [h.recursionAtom, getD_renumbered, ← finish_renumber hf]
  cases scope.recursionAtom <;> rfl

end Twins

/-! ## Verdicts -/

section Verdicts

variable {setting : Setting} {f : Shuffle} {callee : DeclId} {decl : Decl}
  {scope scope' judged : Scope} {t : Trace} {contract : Contract} {approximate : Bool}
  {found : List Diagnostic}
  {supply supply' : AtomSupply} {mid : WalkState}

/-- Any permutation of finitely many atoms is a renumbering that keeps to the supply. -/
def Shuffle.renumbering (f : Shuffle) (program : Program) : Renumbering program where
  f := f.perm
  injective := f.perm.injective
  first := f.first
  first' := f.first
  minted _ := f.fixed _ (Nat.le_add_right _ _)
  known _ := False
  closed h _ := h

theorem Shuffle.contractDiagnostics_twin (f : Shuffle) {name : String} {report : RefinementReport}
    (h : contractDiagnostics setting name approximate t report = .ok found) :
    ∃ found', contractDiagnostics setting name approximate (t.renumber f.perm) report = .ok found' ∧
      List.Forall₂ (Diagnostic.Renumbered setting.program f.perm) found found' := by
  have hstates : (f.renumbering setting.program).States { supply := ⟨f.first⟩ }
      { supply := ⟨f.first⟩ } := ⟨⟨0, rfl, rfl⟩, fun _ h => h.elim, .nil, .nil⟩
  have hends := Renumbering.follows_contractDiagnostics name approximate t report _ _ hstates
  rw [h] at hends
  change Ends _ _ _ ((liftLookup (contractDiagnostics setting name approximate (t.renumber f.perm)
    report)).run _) at hends
  cases hfound : contractDiagnostics setting name approximate (t.renumber f.perm) report with
  | ok found' =>
      rw [hfound] at hends
      exact ⟨found', rfl, hends.1⟩
  | error fault =>
      rw [hfound] at hends
      exact hends.elim

theorem Shuffle.assess_twin (f : Shuffle)
    (h : (assess setting callee contract approximate t).run { supply } = .ok found mid)
    (ht : t.WellScoped supply.minted) (ht' : (t.renumber f.perm).WellScoped supply'.minted) :
    ∃ found' mid',
      (assess setting callee contract approximate (t.renumber f.perm)).run { supply := supply' } =
        .ok found' mid' ∧
      List.Forall₂ (Diagnostic.Renumbered setting.program f.perm) found found' ∧
      Level supply.minted supply'.minted mid.supply mid'.supply := by
  unfold assess at h ⊢
  obtain ⟨name, hname, h⟩ := liftLookup_bind_eq_ok.1 h
  obtain ⟨lowered, between, hlower, h⟩ := bind_eq_ok.1 h
  rw [lower_run] at hlower
  split at hlower
  case h_1 spec last hrun =>
    obtain ⟨rfl, rfl⟩ := EStateM.Result.ok.inj hlower
    obtain ⟨report, hreport, h⟩ := liftLookup_bind_eq_ok.1 h
    obtain ⟨hfound, rfl⟩ := liftLookup_eq_ok.1 h
    obtain ⟨last', hrun', hlevel⟩ :=
      Contract.lower_from hrun supply' (Contract.rebase_minted supply supply')
    obtain ⟨found', hfound', htwin⟩ := f.contractDiagnostics_twin hfound
    refine ⟨found', { supply := last' }, ?_, htwin, hlevel⟩
    refine liftLookup_bind_eq_ok.2
      ⟨name, hname, bind_eq_ok.2 ⟨.ok _, _, by rw [lower_run, hrun'], ?_⟩⟩
    refine liftLookup_bind_eq_ok.2 ⟨report, ?_, liftLookup_eq_ok.2 ⟨hfound', rfl⟩⟩
    rw [f.refines_eq hrun hrun' ht ht', hreport]
  case h_2 unbound last hrun =>
    obtain ⟨rfl, rfl⟩ := EStateM.Result.ok.inj hlower
    obtain ⟨rfl, rfl⟩ := pure_eq_ok.1 h
    obtain ⟨last', hrun', hlevel⟩ := Contract.lower_unbound_from hrun supply'
    refine ⟨_, { supply := last' }, ?_, Diagnostic.renumbered_selves _ _ _, hlevel⟩
    exact liftLookup_bind_eq_ok.2
      ⟨name, hname, bind_eq_ok.2 ⟨.error unbound, _, by rw [lower_run, hrun'], rfl⟩⟩
  case h_3 => cases hlower

/-- A procedure is judged alike. -/
theorem Shuffle.verdict_twin (f : Shuffle) (hscope : scope.Twin setting.program f.perm scope')
    (h : (verdict setting callee decl scope t).run { supply } = .ok judged mid)
    (ht : t.WellScoped supply.minted) (ht' : (t.renumber f.perm).WellScoped supply'.minted) :
    ∃ judged' mid',
      (verdict setting callee decl scope' (t.renumber f.perm)).run { supply := supply' } =
        .ok judged' mid' ∧
      judged.Twin setting.program f.perm judged' ∧
      Level supply.minted supply'.minted mid.supply mid'.supply := by
  rcases verdict_eq_ok.1 h with
    ⟨hnone, rfl, rfl⟩ | ⟨contract, found, between, hsome, hassess, rfl, rfl⟩
  · exact ⟨scope', _, verdict_eq_ok.2 (.inl ⟨hnone, rfl, rfl⟩), hscope, 0, rfl, rfl⟩
  · obtain ⟨found', between', hassess', hfound, hlevel⟩ := f.assess_twin hassess ht ht'
    rw [← hscope.approximate] at hassess'
    refine ⟨_, _, verdict_eq_ok.2 (.inr ⟨contract, found', between', hsome, hassess', rfl, rfl⟩),
      hscope.reported ?_, hlevel⟩
    refine List.forall₂_map_left_iff.2
      (List.forall₂_map_right_iff.2 (hfound.imp fun _ _ hhead => ?_))
    exact { hhead with span := rfl, decl := rfl }

end Verdicts

/-! ## Local walks -/

namespace Walk

section Locals

variable {setting : Setting} {f : AtomId → AtomId} {store store' : TraceStore} {unit : ProgramUnit}
  {visits visits' : LocalTable} {node : NodeId} {callee : DeclId} {decl : Decl}

/-- The stores have the same traces, up to the numbers of atoms, where both have any. -/
def SameTraces (f : AtomId → AtomId) (store store' : TraceStore) : Prop :=
  ∀ callee traces traces', store.get? callee = some traces → store'.get? callee = some traces' →
    traces' = traces.renumber f

theorem Obtains.twin (hstores : SameTraces f store store') {traces traces' : TraceSet}
    {share share' : Share} (h : Obtains setting.program store callee decl traces share)
    (h' : Obtains setting.program store' callee decl traces' share')
    (hmatches : Matches f share.atoms share'.atoms) :
    traces' = traces.renumber f ∧ share.Twin setting.program f share' := by
  cases h with
  | known hknown hget =>
      cases h' with
      | known _ hget' => exact ⟨hstores _ _ _ hget hget', Share.twin_empty⟩
      | undeclared hbody hcontract => exact absurd hcontract (hknown.contract_ne_none hbody)
      | unbound hbody hcontract hlower => exact (hknown.not_unbound hbody hcontract hlower).elim
  | undeclared hbody hcontract =>
      cases h' with
      | known hknown => exact absurd hcontract (hknown.contract_ne_none hbody)
      | undeclared => exact ⟨rfl, Share.twin_empty⟩
      | unbound _ hcontract' => cases hcontract.symm.trans hcontract'
  | unbound hbody hcontract hlower =>
      cases h' with
      | known hknown => exact (hknown.not_unbound hbody hcontract hlower).elim
      | undeclared _ hcontract' => cases hcontract.symm.trans hcontract'
      | @unbound _ _ first' _ _ hcontract' hlower' =>
          cases hcontract.symm.trans hcontract'
          obtain ⟨_, hlower'', hlevel⟩ := Contract.lower_unbound_from hlower first'
          rw [hlower'] at hlower''
          obtain ⟨⟨⟩, rfl⟩ := EStateM.Result.error.inj hlower''
          exact ⟨rfl, Share.twin_of_level hlevel hmatches (Diagnostic.renumbered_selves _ _ _)⟩

/-- Two walks of a node do the same. -/
def AreTwins (setting : Setting) (f : AtomId → AtomId) (visits visits' : LocalTable)
    (node : NodeId) : Prop :=
  ∀ {scope scope' fragment fragment' share share' last last'},
    visits node scope fragment share last → visits' node scope' fragment' share' last' →
    scope.Twin setting.program f scope' → Matches f share.atoms share'.atoms →
    fragment' = fragment.map (Trace.renumber f) ∧ share.Twin setting.program f share' ∧
      last.Twin setting.program f last'

theorem LocalSeries.twin {nodes : List NodeId}
    (hvisits : ∀ node, AreTwins setting f visits visits' node)
    {scope scope' last last' : Scope} {fragments fragments' : List (Option Trace)}
    {share share' : Share} (h : LocalSeries visits nodes scope fragments share last)
    (h' : LocalSeries visits' nodes scope' fragments' share' last')
    (hscope : scope.Twin setting.program f scope') (hmatches : Matches f share.atoms share'.atoms) :
    fragments' = renumbered f fragments ∧ share.Twin setting.program f share' ∧
      last.Twin setting.program f last' := by
  induction h generalizing scope' fragments' share' with
  | nil =>
      cases h'
      exact ⟨rfl, Share.twin_empty, hscope⟩
  | cons hnode _ ih =>
      cases h' with
      | cons hnode' hrest' =>
          obtain ⟨rfl, hhere, hmid⟩ := hvisits _ hnode hnode' hscope hmatches.left
          obtain ⟨rfl, hrest, hlast⟩ := ih hrest' hmid (hmatches.right hhere.length_eq)
          exact ⟨rfl, hhere.add hrest, hlast⟩

theorem upTo_more (supply : AtomSupply) (n : Nat) :
    supply.upTo (supply.more n) = (List.range' supply.minted n).map AtomId.mk := by
  rw [AtomSupply.upTo, AtomSupply.more, Nat.add_sub_cancel_left]

/-- What is done for an instance does not depend on the atoms minted before. -/
theorem LocalRule.twin_of_instance (hstores : SameTraces f store store')
    {bindings : Substitution} (hinstance : setting.program.Instantiates node callee decl bindings) :
    AreTwins setting f (LocalRule setting store unit visits)
      (LocalRule setting store' unit visits') node := by
  intro scope scope' fragment fragment' share share' last last' h h' hscope hmatches
  have hdone := h.of_instance hinstance
  have hdone' := h'.of_instance hinstance
  cases htreatment : treatment unit callee decl with
  | folded =>
      rw [htreatment] at hdone hdone'
      obtain ⟨altered, marked, supply, atom, supplied, haltered, hmarked, hatom, rfl, rfl⟩ := hdone
      obtain ⟨_, _, _, atom', _, haltered', hmarked', hatom', rfl, rfl⟩ := hdone'
      obtain rfl := Except.ok.inj (haltered.symm.trans haltered')
      obtain ⟨_, hmarked'', hown⟩ := hscope.marked hmarked
      obtain rfl := Except.ok.inj (hmarked'.symm.trans hmarked'')
      obtain ⟨hid, hlast, hlevel⟩ := hown.recursionAtomFrom hatom hatom' hmatches
      exact ⟨congrArg (fun id => some (Trace.ref id)) hid,
        Share.twin_of_level hlevel hmatches .nil, hlast⟩
  | builtin made =>
      rw [htreatment] at hdone hdone'
      obtain ⟨rfl, rfl, rfl⟩ := hdone
      obtain ⟨rfl, rfl, rfl⟩ := hdone'
      refine ⟨?_, Share.twin_empty, hscope⟩
      cases fragment' with
      | none => rfl
      | some t =>
          obtain rfl := eq_stop_of_builtin (builtin_of_treatment htreatment)
          rfl
  | supplied =>
      rw [htreatment] at hdone hdone'
      obtain ⟨traces, renamed, hobtains, happly, rfl, rfl⟩ := hdone
      obtain ⟨_, _, hobtains', happly', rfl, rfl⟩ := hdone'
      obtain ⟨rfl, hshare⟩ := hobtains.twin hstores hobtains' hmatches
      rw [Substitution.applySet_renumber, happly] at happly'
      obtain rfl := Except.ok.inj happly'
      exact ⟨TraceSet.toChoice_renumber _, hshare, hscope⟩
  | unresolved =>
      rw [htreatment] at hdone hdone'
      obtain ⟨written, hwritten, rfl, rfl, rfl⟩ := hdone
      obtain ⟨_, hwritten', rfl, rfl, rfl⟩ := hdone'
      obtain rfl := Except.ok.inj (hwritten.symm.trans hwritten')
      exact ⟨rfl, Share.twin_empty, hscope.report _⟩

theorem LocalRule.twin (hstores : SameTraces f store store')
    (hvisits : ∀ node, AreTwins setting f visits visits' node) (node : NodeId) :
    AreTwins setting f (LocalRule setting store unit visits)
      (LocalRule setting store' unit visits') node := by
  intro scope scope' fragment fragment' share share' last last' h h' hscope hmatches
  have hrule := h
  cases h with
  | planned supply hnode hplan hseries =>
      obtain ⟨supply', fragments', parts', hseries', rfl, rfl⟩ := h'.of_plan hnode hplan
      obtain ⟨rfl, hshare, hlast⟩ := hseries.twin hvisits hseries' hscope hmatches.left
      have hmade := hmatches.right hshare.length_eq
      rw [make_renumbered f hplan, Made.size_renumber] at hmade ⊢
      refine ⟨Made.fragment_renumber fun hone => ?_,
        hshare.add (Share.twin_of_level ⟨_, rfl, rfl⟩ hmade .nil), hlast⟩
      rw [hone, upTo_more, upTo_more] at hmade
      exact hmade 0 _ _ rfl rfl
  | folded _ hinstance | builtin _ hinstance | supplied _ hinstance | unresolved _ hinstance =>
      exact LocalRule.twin_of_instance hstores hinstance hrule h' hscope hmatches

/-- Walks of a node in twin scopes do the same. -/
theorem LocalWithin.twin (hstores : SameTraces f store store') (depth depth' : Nat)
    (node : NodeId) :
    AreTwins setting f (LocalWithin setting store unit depth)
      (LocalWithin setting store' unit depth') node := by
  induction depth generalizing depth' node with
  | zero => exact fun h => h.elim
  | succ depth ih =>
      cases depth' with
      | zero => exact fun _ h => h.elim
      | succ depth' => exact LocalRule.twin hstores (fun node => ih depth' node) node

end Locals

/-! ## Stores -/

section Stores

variable {setting : Setting} {f : Shuffle} {store store' : TraceStore} {records records' : Records}
  {callee : DeclId} {t t' : Trace} {share share' : Share}

/-- A procedure is attached with the same trace, and the same was done for it. -/
theorem Attaches.twin (hstores : SameTraces f.perm store store')
    (h : Attaches setting store callee t share) (h' : Attaches setting store' callee t' share')
    (hmatches : Matches f.perm share.atoms share'.atoms) :
    t' = t.renumber f.perm ∧ share.Twin setting.program f.perm share' := by
  cases h with
  | @declared decl contract first _ last hdecl hbody hcontract hlower =>
      cases h' with
      | @declared _ _ first' _ last' hdecl' _ hcontract' hlower' =>
          cases hdecl.symm.trans hdecl'
          cases hcontract.symm.trans hcontract'
          -- Where the permutation is not told by the atoms of the contract, it goes on with them.
          let g : AtomId → AtomId := fun id =>
            if id.index < last.minted then f.perm id else Contract.rebase first first' id
          have hle := (Contract.lowered_of_lower hlower).minted_le
          have hle' := (Contract.lowered_of_lower hlower').minted_le
          obtain ⟨_, hrebased, hlevel⟩ :=
            Contract.lower_from hlower first' (Contract.rebase_minted first first')
          obtain ⟨-, rfl⟩ := EStateM.Result.ok.inj (hlower'.symm.trans hrebased)
          have hg : ∀ i, g ⟨first.minted + i⟩ = ⟨first'.minted + i⟩ := fun i => by
            dsimp only [g]
            split
            case isTrue hlt =>
              obtain ⟨k, hlast, hlast'⟩ := hlevel
              refine hmatches i _ _ ?_ ?_ <;>
                · rw [AtomSupply.upTo, List.getElem?_map, List.getElem?_range' (by omega)]
                  simp
            case isFalse => exact Contract.rebase_minted first first' i
          obtain ⟨_, hlower'', -⟩ := Contract.lower_from hlower first' hg
          obtain ⟨rfl, -⟩ := EStateM.Result.ok.inj (hlower'.symm.trans hlower'')
          refine ⟨?_, Share.twin_of_level hlevel hmatches .nil⟩
          have hscoped : Scoped last.minted [] _ := Contract.scoped_lower hlower
          exact hscoped.renumber_congr (fun id hid => if_pos hid) (by simp)
      | walked hdecl' hbody' =>
          cases hdecl.symm.trans hdecl'
          cases hbody.symm.trans hbody'
  | walked hdecl hbody hlocal hproject hclosed hscoped hverdict =>
      cases h' with
      | declared hdecl' hbody' =>
          cases hdecl.symm.trans hdecl'
          cases hbody.symm.trans hbody'
      | walked hdecl' hbody' hlocal' hproject' hclosed' hscoped' hverdict' =>
          cases hdecl.symm.trans hdecl'
          cases hbody.symm.trans hbody'
          obtain ⟨rfl, hshare, hscope⟩ := LocalWithin.twin hstores _ _ _ hlocal hlocal'
            (Scope.twin_opened callee _ _ _) hmatches.left
          rw [hscope.whole f.perm.injective, hscope.interface, project_renumber f.perm.injective,
            hproject] at hproject'
          obtain rfl := Except.ok.inj hproject'
          obtain ⟨_, _, hverdict'', hjudged, hlevel⟩ :=
            f.verdict_twin hscope hverdict hscoped hscoped'
          obtain ⟨rfl, rfl⟩ := EStateM.Result.ok.inj (hverdict'.symm.trans hverdict'')
          exact ⟨rfl, hshare.add (Share.twin_of_level hlevel (hmatches.right hshare.length_eq)
            hjudged.diagnostics)⟩

/-- The permutation takes the atoms of each share to those of its twin. -/
def Records.Match (f : Shuffle) (records records' : Records) : Prop :=
  ∀ callee share share', (callee, share) ∈ records → (callee, share') ∈ records' →
    Matches f.perm share.atoms share'.atoms

/-- There is such a permutation, which matches other shares by their owners as well. -/
theorem Records.exists_match {ι : Type} {own own' : List (ι × Share)}
    (hkeys : (records.map (·.1)).Nodup) (hkeys' : (records'.map (·.1)).Nodup)
    (howners : (own.map (·.1)).Nodup) (howners' : (own'.map (·.1)).Nodup)
    (hnodup : (records.atoms ++ own.flatMap (·.2.atoms)).Nodup)
    (hnodup' : (records'.atoms ++ own'.flatMap (·.2.atoms)).Nodup) :
    ∃ f : Shuffle, records.Match f records' ∧ ∀ owner share share', (owner, share) ∈ own →
      (owner, share') ∈ own' → Matches f.perm share.atoms share'.atoms := by
  let all (records : Records) (own : List (ι × Share)) : List ((DeclId ⊕ ι) × Share) :=
    records.map (Prod.map .inl id) ++ own.map (Prod.map .inr id)
  have hall : ∀ {records : Records} {own : List (ι × Share)}, (records.map (·.1)).Nodup →
      (own.map (·.1)).Nodup → ((all records own).map (·.1)).Nodup := by
    intro records own hkeys howners
    have hinl := hkeys.map (Sum.inl_injective (β := ι))
    have hinr := howners.map (Sum.inr_injective (α := DeclId))
    simp only [all, List.map_append, List.map_map] at hinl hinr ⊢
    refine hinl.append hinr fun key hl hr => ?_
    obtain ⟨_, -, rfl⟩ := List.mem_map.1 hl
    obtain ⟨_, -, heq⟩ := List.mem_map.1 hr
    cases heq
  have hatoms : ∀ (records : Records) (own : List (ι × Share)),
      (all records own).flatMap (·.2.atoms) = records.atoms ++ own.flatMap (·.2.atoms) := by
    intro records own
    simp only [all, List.flatMap_append, List.flatMap_map]
    rfl
  obtain ⟨f, hf⟩ := Shuffle.exists_of_shares (hall hkeys howners) (hall hkeys' howners')
    (hatoms _ _ ▸ hnodup) (hatoms _ _ ▸ hnodup')
  refine ⟨f, fun callee share share' hmem hmem' => hf (.inl callee) share share' ?_ ?_,
    fun owner share share' hmem hmem' => hf (.inr owner) share share' ?_ ?_⟩
  · exact List.mem_append_left _ (List.mem_map.2 ⟨_, hmem, rfl⟩)
  · exact List.mem_append_left _ (List.mem_map.2 ⟨_, hmem', rfl⟩)
  · exact List.mem_append_right _ (List.mem_map.2 ⟨_, hmem, rfl⟩)
  · exact List.mem_append_right _ (List.mem_map.2 ⟨_, hmem', rfl⟩)

/-- Two stores have the same traces of the procedures they share, and the same was done for them.
Each procedure was attached to a store in which its callees have the same traces. -/
theorem Recorded.twin (h : Recorded setting records store) (h' : Recorded setting records' store')
    (hmatch : records.Match f records') : SameTraces f.perm store store' ∧
      ∀ callee share share', (callee, share) ∈ records → (callee, share') ∈ records' →
        share.Twin setting.program f.perm share' := by
  induction h with
  | nil => exact ⟨fun _ _ _ hget => (nomatch hget), fun _ _ _ hmem => nomatch hmem⟩
  | @attach records store callee t share _ _ hattaches ih =>
      obtain ⟨hsame, hshares⟩ :=
        ih fun other a b ha hb => hmatch other a b (List.mem_append_left _ ha) hb
      have hcallee : ∀ {share'}, (callee, share') ∈ records' →
          store'.get? callee = some (.single (t.renumber f.perm)) ∧
            share.Twin setting.program f.perm share' := fun {share'} hmem => by
        obtain ⟨before, _, hbefore, hget, hattaches'⟩ := h'.attaches hmem
        obtain ⟨rfl, htwin⟩ := hattaches.twin
          (fun other traces traces' hget hget' =>
            hsame other traces traces' hget (hbefore _ _ hget'))
          hattaches' (hmatch callee share share' (List.mem_append_right _ List.mem_cons_self) hmem)
        exact ⟨hget, htwin⟩
      constructor
      · intro other traces traces' hget hget'
        rw [Ledger.get?_insert] at hget
        split at hget
        case isTrue heq =>
          subst heq
          obtain ⟨_, hmem⟩ := h'.exists_share hget'
          obtain rfl := Option.some.inj hget
          exact Option.some.inj (hget'.symm.trans (hcallee hmem).1)
        case isFalse => exact hsame other traces traces' hget hget'
      · intro other a b ha hb
        rcases List.mem_append.1 ha with ha | ha
        · exact hshares other a b ha hb
        · obtain ⟨rfl, rfl⟩ := Prod.mk.inj (List.mem_singleton.1 ha)
          exact (hcallee hb).2

end Stores

end Walk

end ProcessContracts
