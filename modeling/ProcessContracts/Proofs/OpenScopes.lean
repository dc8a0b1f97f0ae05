import ProcessContracts.Proofs.Walks

/-!
# Fragments in open scopes

The free references of a fragment are to procedures whose scope is still open, and a trace that is
attached has none.
-/

namespace ProcessContracts

variable {scopes scopes' : List Scope} {t : Trace} {n n' : Nat}

/-- The atoms that stand for procedures in progress. -/
def openAtoms (scopes : List Scope) : List AtomId :=
  scopes.flatMap fun scope => (scope.recursionAtom.map (·.id)).toList

theorem openAtoms_cons_some {scope : Scope} {atom : Atom} (h : scope.recursionAtom = some atom) :
    openAtoms (scope :: scopes) = atom.id :: openAtoms scopes := by
  simp [openAtoms, h]

theorem openAtoms_cons_none {scope : Scope} (h : scope.recursionAtom = none) :
    openAtoms (scope :: scopes) = openAtoms scopes := by
  simp [openAtoms, h]

theorem mem_openAtoms {id : AtomId} : id ∈ openAtoms scopes ↔
    ∃ scope ∈ scopes, ∃ atom, scope.recursionAtom = some atom ∧ atom.id = id := by
  simp [openAtoms]

/-- Atoms that are new among the open ones are newer than the first `n` ones. -/
theorem mem_openAtoms_of_advances (h : List.Forall₂ (Scope.Advances n) scopes scopes') {id : AtomId}
    (hid : id ∈ openAtoms scopes') : id ∈ openAtoms scopes ∨ n ≤ id.index := by
  induction h with
  | nil => cases hid
  | @cons s s' rest rest' hs _ ih =>
      have htail : id ∈ openAtoms rest' → id ∈ openAtoms (s :: rest) ∨ n ≤ id.index := fun hid =>
        (ih hid).imp_left (List.mem_append_right _)
      rcases hs.atom with heq | ⟨-, -, a, ha, hnew⟩
      · cases hatom : s.recursionAtom with
        | none =>
            rw [openAtoms_cons_none (heq.trans hatom)] at hid
            exact htail hid
        | some a =>
            rw [openAtoms_cons_some (heq.trans hatom), List.mem_cons] at hid
            rw [openAtoms_cons_some hatom]
            rcases hid with rfl | hid
            · exact .inl List.mem_cons_self
            · exact (ih hid).imp_left (List.mem_cons_of_mem _)
      · rw [openAtoms_cons_some ha, List.mem_cons] at hid
        rcases hid with rfl | hid
        · exact .inr hnew
        · exact htail hid

theorem openAtoms_subset (h : List.Forall₂ (Scope.Advances n) scopes scopes') :
    openAtoms scopes ⊆ openAtoms scopes' := by
  induction h with
  | nil => exact List.Subset.refl _
  | @cons s s' rest rest' hs _ ih =>
      cases hatom : s.recursionAtom with
      | none =>
          rw [openAtoms_cons_none hatom]
          exact List.Subset.trans ih (List.subset_append_right _ _)
      | some a =>
          rcases hs.atom with heq | ⟨hnone, -⟩
          · rw [openAtoms_cons_some hatom, openAtoms_cons_some (heq.trans hatom)]
            exact List.cons_subset_cons _ ih
          · rw [hatom] at hnone
            cases hnone

theorem openAtoms_append (inner outer : List Scope) :
    openAtoms (inner ++ outer) = openAtoms inner ++ openAtoms outer := List.flatMap_append

/-- Folding an instance back marks the scope where the channels are altered, and gives it an atom
if it has none. -/
theorem Scope.Folds.spec {callee : DeclId} {altered : List NameId} {own own' : Scope} {atom : Atom}
    (h : own.Folds callee altered n atom own' n') :
    own' = { own with
      recursionAtom := some atom, approximate := own.approximate || !altered.isEmpty } ∧
      (own.recursionAtom = some atom ∧ n' = n ∨
        own.recursionAtom = none ∧ atom.id = ⟨n⟩ ∧ n' = n + 1) := by
  obtain ⟨-, h⟩ := h
  have hmarked : (if altered.isEmpty then own else own.markApproximate) =
      { own with approximate := own.approximate || !altered.isEmpty } := by
    split
    case isTrue hempty => simp [hempty]
    case isFalse hsome => simp [Scope.markApproximate, hsome]
  rw [hmarked, Scope.recursionAtomFrom] at h
  split at h
  case h_1 known hatom =>
    obtain ⟨rfl, rfl, hsupply⟩ : known = atom ∧ _ = own' ∧ _ = _ := by simpa using h
    refine ⟨by rw [← hatom], .inl ⟨hatom, hsupply.symm⟩⟩
  case h_2 hnone =>
    obtain ⟨rfl, rfl, hsupply⟩ : _ = atom ∧ _ = own' ∧ _ = _ := by
      simpa [AtomSupply.mint] using h
    exact ⟨rfl, .inr ⟨hnone, rfl, hsupply.symm⟩⟩

theorem Scope.Folds.minted_le {callee : DeclId} {altered : List NameId} {own own' : Scope}
    {atom : Atom} (h : own.Folds callee altered n atom own' n') : n ≤ n' := by
  rcases h.spec.2 with ⟨-, rfl⟩ | ⟨-, -, rfl⟩
  · exact Nat.le_refl _
  · exact Nat.le_succ n

theorem Scope.Folds.advances {callee : DeclId} {altered : List NameId} {own own' : Scope}
    {atom : Atom} (h : own.Folds callee altered n atom own' n') (inner outer : List Scope) :
    List.Forall₂ (Scope.Advances n) (inner ++ own :: outer) (inner ++ own' :: outer) := by
  have hadvances : own.Advances n own' := by
    have howner : own.decl? ≠ none := by
      rw [Scope.decl?, h.1]
      rintro ⟨⟩
    obtain ⟨rfl, hatom⟩ := h.spec
    refine ⟨rfl, rfl, rfl, ?_, fun happrox => by simp [happrox]⟩
    rcases hatom with ⟨hsome, -⟩ | ⟨hnone, hid, -⟩
    · exact .inl hsome.symm
    · exact .inr ⟨hnone, howner, atom, rfl, by rw [hid]⟩
  exact List.rel_append (advances_refl _ _) (.cons hadvances (advances_refl _ _))

/-- Open atoms belong to one scope each, and all of them were minted. -/
structure Distinct (n : Nat) (scopes : List Scope) : Prop where
  nodup : (openAtoms scopes).Nodup
  minted : ∀ id ∈ openAtoms scopes, id.index < n

namespace Distinct

variable {scope own own' : Scope} {inner outer : List Scope} {callee : DeclId}
  {altered : List NameId} {atom : Atom}

theorem nil (n : Nat) : Distinct n [] := ⟨List.nodup_nil, by simp [openAtoms]⟩

theorem mint (hle : n ≤ n') (h : Distinct n scopes) : Distinct n' scopes :=
  ⟨h.nodup, fun id hid => Nat.lt_of_lt_of_le (h.minted id hid) hle⟩

theorem enter (hatom : scope.recursionAtom = none) (h : Distinct n scopes) :
    Distinct n (scope :: scopes) := by
  constructor
  · rw [openAtoms_cons_none hatom]
    exact h.nodup
  · rw [openAtoms_cons_none hatom]
    exact h.minted

theorem leave (h : Distinct n (scope :: scopes)) : Distinct n scopes :=
  ⟨h.nodup.sublist (List.sublist_append_right _ _),
    fun id hid => h.minted id (List.mem_append_right _ hid)⟩

theorem fold (hfolds : own.Folds callee altered n atom own' n')
    (h : Distinct n (inner ++ own :: outer)) : Distinct n' (inner ++ own' :: outer) := by
  obtain ⟨rfl, hatom⟩ := hfolds.spec
  obtain ⟨hnodup, hminted⟩ := h
  rcases hatom with ⟨hsome, rfl⟩ | ⟨hnone, hid, rfl⟩
  · rw [openAtoms_append, openAtoms_cons_some hsome] at hnodup hminted
    constructor
    · rw [openAtoms_append, openAtoms_cons_some rfl]
      exact hnodup
    · rw [openAtoms_append, openAtoms_cons_some rfl]
      exact hminted
  · rw [openAtoms_append, openAtoms_cons_none hnone] at hnodup hminted
    have hnew : atom.id ∉ openAtoms inner ++ openAtoms outer := fun hmem => by
      have hlt := hminted _ hmem
      rw [hid] at hlt
      exact Nat.lt_irrefl n hlt
    constructor
    · rw [openAtoms_append, openAtoms_cons_some rfl]
      exact List.nodup_middle.2 (List.nodup_cons.2 ⟨hnew, hnodup⟩)
    · rw [openAtoms_append, openAtoms_cons_some rfl]
      intro id hmem
      rcases List.mem_cons.1 (List.perm_middle.mem_iff.1 hmem) with rfl | hmem
      · rw [hid]
        exact Nat.lt_succ_self n
      · exact Nat.lt_succ_of_lt (hminted id hmem)

end Distinct

/-- The trace refers to procedures in progress only. -/
def Confined (scopes : List Scope) (t : Trace) : Prop := ∀ id ∈ t.freeRefs, id ∈ openAtoms scopes

theorem confined_of_closed (h : t.freeRefs = []) : Confined scopes t := by
  rw [Confined, h]
  simp

theorem confined_comp {op : Operator} {ts : List Trace} (h : ∀ t ∈ ts, Confined scopes t) :
    Confined scopes (.comp op ts) := by
  intro id hid
  obtain ⟨t, ht, hid⟩ := Trace.mem_freeRefs_comp.1 hid
  exact h t ht id hid

/-- Below a binder the references to it are allowed as well. -/
theorem confined_fix {binder : Atom}
    (h : ∀ id ∈ t.freeRefs, id ≠ binder.id → id ∈ openAtoms scopes) :
    Confined scopes (.fix binder t) := by
  intro id hid
  obtain ⟨hid, hne⟩ := Trace.mem_freeRefs_fix.1 hid
  exact h id hid hne

/-- Binding the recursion atom of a scope leaves the references to the scopes outside it. -/
theorem confined_outside {scope : Scope} (h : Confined (scope :: scopes) t) :
    Confined scopes (scope.recursionAtom.elim t (.fix · t)) := by
  cases hatom : scope.recursionAtom with
  | none =>
      rw [Confined, openAtoms_cons_none hatom] at h
      exact h
  | some a =>
      rw [Confined, openAtoms_cons_some hatom] at h
      exact confined_fix fun id hid hne => (List.mem_cons.1 (h id hid)).resolve_left hne

namespace Walk

variable {setting : Setting} {visit : NodeId → Walk Unit} {session : Session} {callee : DeclId}
  {decl : Decl} {traces : ProcTraces} {last : WalkState}

/-- The invariant that fragments are confined and attached traces closed. -/
def confinement (setting : Setting) : Invariant setting where
  Holds _ store _ _ := ∀ callee traces, store.get? callee = some traces →
    ∀ t ∈ traces.alternatives, t.freeRefs = []
  Fits _ frames t := Confined frames t
  May _ _ _ := True
  later _ hframes ht := fun id hid => openAtoms_subset hframes (ht id hid)
  skip := confined_of_closed rfl
  stop := confined_of_closed rfl
  div := confined_of_closed rfl
  unresolved _ := confined_of_closed rfl
  event _ _ := confined_of_closed rfl
  comp _ hts := confined_comp hts
  loop op origin _ ht := confined_fix fun id hid hne => by
    refine ht id ?_
    simpa [Trace.freeRefs, hne] using hid
  replication op origin _ ht := confined_fix fun id hid hne => by
    refine ht id ?_
    simpa [Trace.freeRefs, hne] using hid
  ref _ hatom id hid := by
    rw [List.mem_singleton.1 hid]
    exact mem_openAtoms.2 ⟨_, List.mem_append_right _ List.mem_cons_self, _, hatom, rfl⟩
  bind _ ht := confined_outside ht
  simplify ht id hid := ht id (View.freeRefs_simplify_subset _ hid)
  hide keep ht id hid := ht id (Trace.freeRefs_hide keep _ ▸ hid)
  instantiate _ happly ht id hid := ht id (Substitution.freeRefs_apply happly ▸ hid)
  lowered _ _ _ hrun := confined_of_closed (Contract.freeRefs_lower hrun)
  stored hholds hget ht := confined_of_closed (hholds _ _ hget _ ht)
  mint _ hholds := hholds
  enter _ hholds := hholds
  leave hholds := hholds
  fold _ hholds := hholds
  judge hholds _ := hholds
  attach hholds _ hclosed := TraceStore.forall_insert hholds hclosed _
  child _ _ _ := trivial
  body _ _ _ _ _ := trivial

/-- Walking from a state of confined fragments keeps them confined. -/
abbrev SafeVisit (setting : Setting) (visit : NodeId → Walk Unit) : Prop :=
  ∃ depth, (confinement setting).Visits depth visit

theorem safe_walk : SafeVisit setting (walk setting) := ⟨_, Invariant.keeps_walk⟩

/-- What is known of a procedure that is checked on its own. -/
theorem safe_checkBody {body : NodeId} (hvisit : SafeVisit setting visit)
    (hstate : (confinement setting).Sound session.begin)
    (hdecl : setting.program.decl callee = .ok decl) (hbody : decl.body = some body)
    (hrun : (checkDecl setting visit callee none).run session.begin = .ok traces last) :
    session.begin.Later last ∧ ∃ t projected interface,
      traces = ⟨.single t, .single projected⟩ ∧ Confined last.scopes t ∧
      (∀ name, name ∈ interface ↔
        name ∈ (decl.visibleParams.filter (·.isChannel)).map (·.name)) ∧
      project setting interface t = .ok projected ∧
      (projected.freeRefs = [] → ∀ contract, decl.contract = some contract →
        Meets setting callee contract.value projected ∨ ∃ diagnostic ∈ last.diagnostics,
          diagnostic.decl = some callee ∧ diagnostic.code ∈ alarms) := by
  obtain ⟨depth, hvisit⟩ := hvisit
  have hentry : ∀ bindings, (none : Option Substitution) = some bindings →
      ∃ node, setting.program.Instantiates node callee decl bindings := fun _ h => by cases h
  have hkeeps := Invariant.keeps_checkBody hvisit hstate hdecl List.not_mem_nil hentry hbody trivial
  unfold Invariant.Keeps at hkeeps
  rw [hrun] at hkeeps
  obtain ⟨-, hlater, -, t, projected, interface, htraces, ht, -, hinterface, hproject, hjudged⟩ :=
    hkeeps
  refine ⟨hlater, t, projected, interface, htraces, ?_, hinterface, hproject, hjudged⟩
  have hframes : last.frames = [] := List.forall₂_nil_left_iff.1 hlater.frames
  rw [List.map_eq_nil_iff.1 hframes]
  rw [hframes] at ht
  exact ht

end Walk

end ProcessContracts
