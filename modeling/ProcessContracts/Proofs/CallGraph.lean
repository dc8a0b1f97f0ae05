import ProcessContracts.Proofs.Judgements
import ProcessContracts.Proofs.WellFormed

/-!
# Who calls whom

Open scopes are linked by calls, from the outermost inwards, and a fragment refers to procedures in
progress that its own procedure leads to by calls. So a trace that cannot be attached yet is that of
a procedure on a cycle of calls with another one.
-/

namespace ProcessContracts

namespace Program

variable {program : Program} {unit : ProgramUnit} {node part : NodeId} {callee mid : DeclId}
  {decl : Decl} {body : NodeId}

/-- The node that walking a unit starts from. -/
inductive Root (program : Program) : ProgramUnit → NodeId → Prop
  | proc {callee : DeclId} {decl : Decl} {body : NodeId} : program.decl callee = .ok decl →
      decl.body = some body → Root program (.proc callee) body
  | process {node : NodeId} : Root program (.process node) node

/-- The node is written in the unit. -/
def Within (program : Program) (unit : ProgramUnit) (node : NodeId) : Prop :=
  ∃ root, program.Root unit root ∧ Relation.ReflTransGen program.Part root node

/-- An instance of the procedure is written in the unit. -/
def Calls (program : Program) (unit : ProgramUnit) (callee : DeclId) : Prop :=
  ∃ node args, program.Within unit node ∧ program.HasNode node (.call callee args)

/-- Calls lead from the unit to the procedure. -/
def Leads (program : Program) (unit : ProgramUnit) (callee : DeclId) : Prop :=
  ∃ first, program.Calls unit first ∧
    Relation.ReflTransGen (fun caller callee => program.Calls (.proc caller) callee) first callee

/-- The procedure is on a cycle of calls with another one. -/
def Entangled (program : Program) (callee : DeclId) : Prop :=
  ∃ other, other ≠ callee ∧ program.Leads (.proc callee) other ∧
    program.Leads (.proc other) callee

theorem Within.of_part {construct : Construct} (h : program.Within unit node)
    (hnode : program.HasNode node construct) (hpart : part ∈ construct.children) :
    program.Within unit part := by
  obtain ⟨root, hroot, hreach⟩ := h
  obtain ⟨written, hwritten, rfl⟩ := hnode
  exact ⟨root, hroot, hreach.tail ⟨_, entry_of_construct hwritten, hpart⟩⟩

theorem Root.within (h : program.Root unit node) : program.Within unit node := ⟨node, h, .refl⟩

theorem Within.calls (h : program.Within unit node) {bindings : Substitution}
    (hinstance : program.Instantiates node callee decl bindings) : program.Calls unit callee := by
  obtain ⟨args, hnode, -⟩ := hinstance
  exact ⟨node, args, h, hnode⟩

theorem Calls.leads (h : program.Calls unit callee) : program.Leads unit callee :=
  ⟨callee, h, .refl⟩

theorem Leads.trans (h : program.Leads unit mid) (h' : program.Leads (.proc mid) callee) :
    program.Leads unit callee := by
  obtain ⟨first, hfirst, hmid⟩ := h
  obtain ⟨next, hnext, hlast⟩ := h'
  exact ⟨first, hfirst, hmid.trans (.head hnext hlast)⟩

section Bounded

variable {bound : Nat}

/-- A unit is written before the bound if it starts there and the parts of nodes there are there
too. -/
theorem Within.index_lt (h : program.Within unit node)
    (hroot : ∀ root, program.Root unit root → root.index < bound)
    (hparts : ∀ i < bound, ∀ written ∈ program.nodes[i]?, ∀ part ∈ written.value.children,
      part.index < bound) : node.index < bound := by
  obtain ⟨root, hstart, hreach⟩ := h
  induction hreach with
  | refl => exact hroot root hstart
  | tail _ hpart ih =>
      obtain ⟨written, hentry, hmem⟩ := hpart
      exact hparts _ ih written hentry _ hmem

/-- What a unit calls is called in a node before the bound. -/
theorem Calls.exists_written (h : program.Calls unit callee)
    (hroot : ∀ root, program.Root unit root → root.index < bound)
    (hparts : ∀ i < bound, ∀ written ∈ program.nodes[i]?, ∀ part ∈ written.value.children,
      part.index < bound) :
    ∃ i < bound, ∃ written ∈ program.nodes[i]?, callee ∈ written.value.callees := by
  obtain ⟨node, args, hwithin, written, hwritten, hcall⟩ := h
  refine ⟨node.index, hwithin.index_lt hroot hparts, written, entry_of_construct hwritten, ?_⟩
  rw [hcall]
  exact List.mem_singleton_self _

/-- Where procedures before the bound instantiate no later ones, calls from them lead to no later
ones either. -/
theorem Leads.index_le (h : ∀ caller callee, caller.index < bound →
      program.Calls (.proc caller) callee → callee.index ≤ caller.index) (hmid : mid.index < bound)
    (hleads : program.Leads (.proc mid) callee) : callee.index ≤ mid.index := by
  obtain ⟨first, hfirst, hrest⟩ := hleads
  induction hrest with
  | refl => exact h _ _ hmid hfirst
  | tail _ hcalls ih => exact (h _ _ (ih.trans_lt hmid) hcalls).trans ih

/-- Procedures before the bound that instantiate no later ones are on no cycle of calls with
others. -/
theorem not_entangled_of_calls (h : ∀ caller callee, caller.index < bound →
      program.Calls (.proc caller) callee → callee.index ≤ caller.index)
    (hcallee : callee.index < bound) : ¬ program.Entangled callee := by
  rintro ⟨other, hother, hforth, hback⟩
  have hle := hforth.index_le h hcallee
  have hindex : other.index = callee.index := hle.antisymm (hback.index_le h (hle.trans_lt hcallee))
  cases other
  cases callee
  exact hother (congrArg DeclId.mk hindex)

/-- A procedure that no other one instantiates is on no cycle of calls with others. -/
theorem not_entangled_of_uncalled (h : ∀ caller, ¬ program.Calls (.proc caller) callee) :
    ¬ program.Entangled callee := by
  rintro ⟨other, -, -, first, hfirst, hrest⟩
  rcases hrest.cases_tail with rfl | ⟨last, -, hcalls⟩
  · exact h other hfirst
  · exact h last hcalls

end Bounded

end Program

namespace Walk

open WalkState

variable {setting : Setting} {program : Program} {visits : Table} {unit : ProgramUnit}
  {node part : NodeId} {callee : DeclId} {decl : Decl} {s mid s' : WalkState}
  {scopes scopes' : List Scope} {t : Trace}

/-! ## Linked scopes -/

/-- Each open scope but the outermost is of a procedure that is called in the scope around it. -/
def Linked (program : Program) : List ProgramUnit → Prop :=
  List.IsChain fun inner outer => ∃ callee, inner = .proc callee ∧ program.Calls outer callee

/-- What holds of a state in which a node of a unit is walked. -/
structure Ready (program : Program) (unit : ProgramUnit) (node : NodeId) (s : WalkState) :
    Prop where
  innermost : (owners s.scopes).head? = some unit
  linked : Linked program (owners s.scopes)
  nodup : (owners s.scopes).Nodup
  within : program.Within unit node
  closed : (Session.ofWalk s).Closed

/-- What holds of a state in which a procedure is checked. -/
structure Enterable (program : Program) (callee : DeclId) (s : WalkState) : Prop where
  linked : Linked program (.proc callee :: owners s.scopes)
  nodup : (ProgramUnit.proc callee :: owners s.scopes).Nodup
  closed : (Session.ofWalk s).Closed

/-- The same scope later on. -/
structure Onward (scope scope' : Scope) : Prop where
  owner : scope'.owner = scope.owner
  atom : ∀ atom, scope.recursionAtom = some atom → scope'.recursionAtom = some atom
  reported : scope.diagnostics ⊆ scope'.diagnostics

/-- The same walk later on: what is stored stays closed. -/
structure Proceeds (s s' : WalkState) : Prop where
  scopes : List.Forall₂ Onward s.scopes s'.scopes
  closed : (Session.ofWalk s).Closed → (Session.ofWalk s').Closed
  published : s.diagnostics ⊆ s'.diagnostics

theorem Onward.refl (scope : Scope) : Onward scope scope := ⟨rfl, fun _ => id, List.Subset.refl _⟩

theorem Onward.trans {scope scope' scope'' : Scope} (h : Onward scope scope')
    (h' : Onward scope' scope'') : Onward scope scope'' :=
  ⟨h'.owner.trans h.owner, fun atom hatom => h'.atom atom (h.atom atom hatom),
    List.Subset.trans h.reported h'.reported⟩

theorem onward_refl (scopes : List Scope) : List.Forall₂ Onward scopes scopes :=
  List.forall₂_same.2 fun scope _ => .refl scope

theorem onward_trans {scopes'' : List Scope} (h : List.Forall₂ Onward scopes scopes')
    (h' : List.Forall₂ Onward scopes' scopes'') : List.Forall₂ Onward scopes scopes'' := by
  induction h generalizing scopes'' with
  | nil =>
      cases h'
      exact .nil
  | cons h _ ih =>
      cases h' with
      | cons h' hrest => exact .cons (h.trans h') (ih hrest)

theorem owners_of_onward (h : List.Forall₂ Onward scopes scopes') :
    owners scopes' = owners scopes := by
  induction h with
  | nil => rfl
  | cons h _ ih => exact congrArg₂ List.cons h.owner ih

theorem Proceeds.refl (s : WalkState) : Proceeds s s := ⟨onward_refl _, id, List.Subset.refl _⟩

theorem Proceeds.trans (h : Proceeds s mid) (h' : Proceeds mid s') : Proceeds s s' :=
  ⟨onward_trans h.scopes h'.scopes, fun hclosed => h'.closed (h.closed hclosed),
    List.Subset.trans h.published h'.published⟩

theorem Ready.later (h : Ready program unit node s) (hs : Proceeds s s') :
    Ready program unit node s' := by
  have howners := owners_of_onward hs.scopes
  exact ⟨howners ▸ h.innermost, howners ▸ h.linked, howners ▸ h.nodup, h.within, hs.closed h.closed⟩

theorem Ready.of_part {construct : Construct} (h : Ready program unit node s)
    (hnode : program.HasNode node construct) (hpart : part ∈ construct.children) :
    Ready program unit part s :=
  ⟨h.innermost, h.linked, h.nodup, h.within.of_part hnode hpart, h.closed⟩

/-- The callee of an instance that is not open can be checked. -/
theorem Ready.enterable {bindings : Substitution} (h : Ready program unit node s)
    (hinstance : program.Instantiates node callee decl bindings)
    (hsplit : splitAt callee s.scopes = none) : Enterable program callee s where
  linked := by
    obtain ⟨outer, howners⟩ := List.head?_eq_some_iff.1 h.innermost
    have hlinked := h.linked
    rw [Linked, howners] at hlinked ⊢
    exact List.isChain_cons_cons.2 ⟨⟨callee, rfl, h.within.calls hinstance⟩, hlinked⟩
  nodup := List.nodup_cons.2 ⟨splitAt_eq_none hsplit, h.nodup⟩
  closed := h.closed

/-- In a new scope the body of the procedure can be walked. -/
theorem Enterable.ready {body : NodeId} (h : Enterable program callee s)
    (hdecl : program.decl callee = .ok decl) (hbody : decl.body = some body)
    (entry : Option Substitution) :
    Ready program (.proc callee) body (s.enter (.opened callee decl entry)) := by
  have howners : owners (s.enter (.opened callee decl entry)).scopes =
      .proc callee :: owners s.scopes :=
    congrArg (· :: owners s.scopes) (opened_diagnostics callee decl entry).2
  exact ⟨by rw [howners]; rfl, howners ▸ h.linked, howners ▸ h.nodup,
    (Program.Root.proc hdecl hbody).within, h.closed⟩

/-- Calls lead to the innermost scope from each scope around it. -/
theorem leads_of_linked {outer : List ProgramUnit} (h : Linked program (.proc callee :: outer))
    (hunit : unit ∈ outer) : program.Leads unit callee := by
  induction outer generalizing callee with
  | nil => cases hunit
  | cons next outer ih =>
      obtain ⟨⟨_, heq, hcalls⟩, hrest⟩ := List.isChain_cons_cons.1 h
      cases heq
      rcases List.mem_cons.1 hunit with rfl | hinner
      · exact hcalls.leads
      · cases outer with
        | nil => cases hinner
        | cons second outer =>
            obtain ⟨⟨middle, rfl, -⟩, -⟩ := List.isChain_cons_cons.1 hrest
            exact (ih hrest hinner).trans hcalls.leads

/-! ## References -/

/-- The free references of a trace are to procedures in progress that calls lead to. -/
def Refers (program : Program) (unit : ProgramUnit) (scopes : List Scope) (t : Trace) : Prop :=
  ∀ id ∈ t.freeRefs, ∃ scope ∈ scopes, ∃ atom callee, scope.recursionAtom = some atom ∧
    atom.id = id ∧ scope.owner = .proc callee ∧ program.Leads unit callee

theorem refers_of_closed (h : t.freeRefs = []) : Refers program unit scopes t := fun id hid => by
  rw [h] at hid
  cases hid

theorem Refers.of_subset {u : Trace} (h : Refers program unit scopes t)
    (hsub : ∀ id ∈ u.freeRefs, id ∈ t.freeRefs) : Refers program unit scopes u :=
  fun id hid => h id (hsub id hid)

theorem Refers.later (h : Refers program unit scopes t)
    (hscopes : List.Forall₂ Onward scopes scopes') : Refers program unit scopes' t := by
  intro id hid
  obtain ⟨scope, hscope, atom, callee, hatom, hid, howner, hleads⟩ := h id hid
  obtain ⟨scope', hscope', honward⟩ := exists_related_of_mem hscopes hscope
  exact ⟨scope', hscope', atom, callee, honward.atom atom hatom, hid, honward.owner.trans howner,
    hleads⟩

/-- Calls lead on from a procedure that is called. -/
theorem Refers.of_calls (h : Refers program (.proc callee) scopes t)
    (hcalls : program.Calls unit callee) : Refers program unit scopes t := by
  intro id hid
  obtain ⟨scope, hscope, atom, other, hatom, hid, howner, hleads⟩ := h id hid
  exact ⟨scope, hscope, atom, other, hatom, hid, howner, hcalls.leads.trans hleads⟩

theorem fragmentary_refers (program : Program) (unit : ProgramUnit) (scopes : List Scope) :
    Fragmentary (Refers program unit scopes) := by
  refine ⟨⟨refers_of_closed rfl, refers_of_closed rfl, ?_⟩, refers_of_closed rfl,
    fun _ _ => refers_of_closed rfl, ?_, ?_⟩
  · intro op ts
    constructor
    · exact fun h t ht => h.of_subset fun id hid => Trace.mem_freeRefs_comp.2 ⟨t, ht, hid⟩
    · intro h id hid
      obtain ⟨t, ht, hid⟩ := Trace.mem_freeRefs_comp.1 hid
      exact h t ht id hid
  · exact fun ht => ht.of_subset fun id hid => by
      obtain ⟨hid, hne⟩ := Trace.mem_freeRefs_fix.1 hid
      simpa [Trace.freeRefs, hne] using hid
  · exact fun ht => ht.of_subset fun id hid => by
      obtain ⟨hid, hne⟩ := Trace.mem_freeRefs_fix.1 hid
      simpa [Trace.freeRefs, hne] using hid

/-! ## Regular walks -/

/-- Every walk goes on with its state and refers to what its unit leads to. -/
def Regular (program : Program) (visits : Table) : Prop :=
  ∀ unit node s f account s', visits node s f account s' → Ready program unit node s →
    Proceeds s s' ∧ ∀ t, f = some t → Refers program unit s'.scopes t

theorem proceeds_of_same (hscopes : s'.scopes = s.scopes) (hstore : s'.store = s.store)
    (hpublished : s.diagnostics ⊆ s'.diagnostics) : Proceeds s s' where
  scopes := hscopes ▸ onward_refl _
  closed hclosed := by
    rw [Session.Closed, Session.ofWalk, hstore]
    exact hclosed
  published := hpublished

theorem proceeds_attach (s : WalkState) (callee : DeclId) (ht : t.freeRefs = []) :
    Proceeds s (s.attach callee t) where
  scopes := onward_refl _
  closed hclosed := TraceStore.forall_insert hclosed ht callee
  published := List.Subset.refl _

theorem regular_series (h : Regular program visits) {nodes : List NodeId}
    {fragments : List (Option Trace)} {account : Account}
    (hseries : Series visits nodes s fragments account s')
    (hready : ∀ node ∈ nodes, Ready program unit node s) :
    Proceeds s s' ∧ ∀ t, some t ∈ fragments → Refers program unit s'.scopes t := by
  induction hseries with
  | nil s => exact ⟨.refl s, fun t ht => nomatch ht⟩
  | cons hnode _ ih =>
      obtain ⟨hfirst, hnodes⟩ := List.forall_mem_cons.1 hready
      obtain ⟨hmid, hhere⟩ := h _ _ _ _ _ _ hnode hfirst
      obtain ⟨hlast, hrest⟩ := ih fun node hnode => (hnodes node hnode).later hmid
      refine ⟨hmid.trans hlast, fun t ht => ?_⟩
      rcases List.mem_cons.1 ht with heq | ht
      · exact (hhere t heq.symm).later hlast.scopes
      · exact hrest t ht

/-- Walking a body in a new scope, seen from outside. -/
theorem Proceeds.outside {new scope : Scope} {outer : List Scope}
    (hscopes : mid.scopes = scope :: outer) (h : Proceeds (s.enter new) mid) :
    Onward new scope ∧ Proceeds s { mid with scopes := outer } := by
  have hboth := h.scopes
  rw [hscopes] at hboth
  cases hboth with
  | cons hscope houter => exact ⟨hscope, houter, h.closed, h.published⟩

/-- Binding the atom of a procedure leaves the references to the scopes outside it. -/
theorem Refers.outside {scope : Scope} {outer : List Scope} {fragment : Option Trace}
    (h : ∀ t, fragment = some t → Refers program unit (scope :: outer) t) :
    Refers program unit outer (whole setting scope fragment) := by
  have hbody := (fragmentary_refers program unit (scope :: outer)).getD h
  have hbound : Refers program unit outer
      (scope.recursionAtom.elim (fragment.getD .skip) (.fix · (fragment.getD .skip))) := by
    intro id hid
    cases hatom : scope.recursionAtom with
    | none =>
        rw [hatom] at hid
        obtain ⟨other, hother, atom, callee, hsome, hrest⟩ := hbody id hid
        rcases List.mem_cons.1 hother with rfl | hother
        · rw [hatom] at hsome
          cases hsome
        · exact ⟨other, hother, atom, callee, hsome, hrest⟩
    | some own =>
        rw [hatom] at hid
        obtain ⟨hid, hne⟩ := Trace.mem_freeRefs_fix.1 hid
        obtain ⟨other, hother, atom, callee, hsome, heq, hrest⟩ := hbody id hid
        rcases List.mem_cons.1 hother with rfl | hother
        · rw [hatom] at hsome
          obtain rfl := Option.some.inj hsome
          exact absurd heq.symm hne
        · exact ⟨other, hother, atom, callee, hsome, heq, hrest⟩
  unfold whole finish
  split
  · exact hbound.of_subset fun id hid => View.freeRefs_simplify_subset _ hid
  · exact hbound

theorem regular_completes (h : Regular setting.program visits) {entry : Option Substitution}
    {traces : ProcTraces} {account : Account} (henter : Enterable setting.program callee s)
    (hcompletes : Completes setting visits callee entry s traces account s') :
    Proceeds s s' ∧ ∀ t ∈ traces.projected.alternatives,
      Refers setting.program (.proc callee) s'.scopes t := by
  cases hcompletes with
  | undeclared => exact ⟨.refl s, List.forall_mem_nil _⟩
  | @declared _ _ _ supply _ _ _ hlower =>
      have hclosed := Contract.freeRefs_lower hlower
      have hminted : Proceeds s { s with supply } := proceeds_of_same rfl rfl (List.Subset.refl _)
      exact ⟨hminted.trans (proceeds_attach _ callee hclosed),
        List.forall_mem_singleton.2 (refers_of_closed hclosed)⟩
  | unbound =>
      exact ⟨proceeds_of_same rfl rfl (List.subset_append_left _ _), List.forall_mem_nil _⟩
  | dropped hdecl hbody hvisit hscopes hproject =>
      obtain ⟨hmid, hfragment⟩ := h _ _ _ _ _ _ hvisit (henter.ready hdecl hbody entry)
      rw [hscopes] at hfragment
      refine ⟨(hmid.outside hscopes).2, List.forall_mem_singleton.2 ?_⟩
      exact (Refers.outside hfragment).of_subset fun id hid => mem_freeRefs_of_project hproject hid
  | attached hdecl hbody hvisit hscopes hproject hclosed =>
      obtain ⟨hmid, -⟩ := h _ _ _ _ _ _ hvisit (henter.ready hdecl hbody entry)
      have hclosed := Trace.isClosed_iff.1 hclosed
      refine ⟨?_, List.forall_mem_singleton.2 (refers_of_closed hclosed)⟩
      refine ((hmid.outside hscopes).2.trans ?_).trans (proceeds_attach _ callee hclosed)
      exact proceeds_of_same rfl rfl (List.subset_append_left _ _)

/-- A procedure that is dropped refers to one that is open, and they call each other. -/
theorem entangled_of_dropped (h : Regular setting.program visits) {body : NodeId}
    {entry : Option Substitution} {fragment : Option Trace} {account : Account} {scope : Scope}
    {outer : List Scope} {projected : Trace} (henter : Enterable setting.program callee s)
    (hdecl : setting.program.decl callee = .ok decl) (hbody : decl.body = some body)
    (hvisit : visits body (s.enter (.opened callee decl entry)) fragment account mid)
    (hscopes : mid.scopes = scope :: outer)
    (hproject : project setting scope.interface (whole setting scope fragment) = .ok projected)
    (hopen : projected.isClosed = false) : setting.program.Entangled callee := by
  obtain ⟨hmid, hfragment⟩ := h _ _ _ _ _ _ hvisit (henter.ready hdecl hbody entry)
  rw [hscopes] at hfragment
  obtain ⟨id, hid⟩ : ∃ id, id ∈ projected.freeRefs := by
    refine List.exists_mem_of_ne_nil _ fun hnone => ?_
    rw [Trace.isClosed_iff.2 hnone] at hopen
    cases hopen
  obtain ⟨other, hother, atom, caller, -, -, howner, hleads⟩ :=
    Refers.outside hfragment id (mem_freeRefs_of_project hproject hid)
  have hmem : ProgramUnit.proc caller ∈ owners s.scopes := by
    rw [← owners_of_onward (hmid.outside hscopes).2.scopes, ← howner]
    exact List.mem_map_of_mem hother
  refine ⟨caller, ?_, hleads, leads_of_linked henter.linked hmem⟩
  rintro rfl
  exact (List.nodup_cons.1 henter.nodup).1 hmem

theorem onward_folded {own marked own' : Scope} {altered : List NameId} {atom : Atom}
    {supply supply' : AtomSupply} {origin : Origin}
    (hmarked : Walk.marked program node decl altered own = .ok marked)
    (hatom : marked.recursionAtomFrom supply origin = (atom, own', supply')) :
    Onward own own' ∧ own'.recursionAtom = some atom := by
  have hfirst : Onward own marked := by
    obtain ⟨-, rfl⟩ | ⟨-, _, -, rfl⟩ := cases_of_marked hmarked
    · exact .refl _
    · exact ⟨rfl, fun _ => id, List.subset_append_left _ _⟩
  obtain ⟨rfl, ⟨hknown, -⟩ | ⟨hnone, -⟩⟩ := recursionAtomFrom_eq hatom
  · exact ⟨hfirst.trans ⟨rfl, fun _ h => hknown.symm.trans h, List.Subset.refl _⟩, rfl⟩
  · refine ⟨hfirst.trans ⟨rfl, fun _ h => ?_, List.Subset.refl _⟩, rfl⟩
    rw [hnone] at h
    cases h

theorem eq_stop_of_builtin {name : String} (h : builtin? name = some (some t)) : t = .stop := by
  unfold builtin? at h
  split at h
  · exact (Option.some.inj (Option.some.inj h)).symm
  · split at h <;> cases h

theorem regular_rule (h : Regular setting.program visits) :
    Regular setting.program (Rule setting visits) := by
  intro unit node s f account s' hrule hready
  cases hrule with
  | planned hnode hplan hseries hmade =>
      obtain ⟨hmid, hfragments⟩ := regular_series h hseries fun part hpart =>
        hready.of_part hnode (mem_children_of_plan hplan hpart)
      obtain ⟨rfl, -, rfl⟩ := hmade
      refine ⟨hmid.trans (proceeds_of_same rfl rfl (List.Subset.refl _)), fun t ht => ?_⟩
      exact (fragmentary_refers setting.program unit _).make hplan hfragments ht
  | folded hinstance hsplit _ hmarked hatom =>
      obtain ⟨hscopes, howner⟩ := splitAt_eq hsplit
      obtain ⟨hown, hsome⟩ := onward_folded hmarked hatom
      refine ⟨⟨?_, id, List.Subset.refl _⟩, fun t ht => ?_⟩
      · rw [hscopes]
        exact List.rel_append (onward_refl _) (.cons hown (onward_refl _))
      · obtain rfl := Option.some.inj ht
        intro id hid
        obtain rfl := List.mem_singleton.1 hid
        exact ⟨_, List.mem_append_right _ List.mem_cons_self, _, _, hsome, rfl,
          hown.owner.trans (ProgramUnit.eq_proc_of_decl? howner),
          (hready.within.calls hinstance).leads⟩
  | builtin _ _ _ hname =>
      refine ⟨.refl s, fun t ht => ?_⟩
      obtain rfl := eq_stop_of_builtin (hname.trans (congrArg some ht))
      exact refers_of_closed rfl
  | supplied hinstance hsplit _ hsupplies happly =>
      obtain ⟨hlast, htraces⟩ : Proceeds s s' ∧
          ∀ t ∈ _, Refers setting.program unit s'.scopes t := by
        cases hsupplies with
        | stored hget =>
            exact ⟨.refl s, fun t ht => refers_of_closed (hready.closed _ _ hget t ht)⟩
        | demanded _ _ hcompletes =>
            obtain ⟨hlast, htraces⟩ :=
              regular_completes h (hready.enterable hinstance hsplit) hcompletes
            exact ⟨hlast, fun t ht => (htraces t ht).of_calls (hready.within.calls hinstance)⟩
      refine ⟨hlast, fun t ht => ?_⟩
      refine (fragmentary_refers setting.program unit _).toChoice (fun u hu => ?_) ht
      obtain ⟨v, hv, happly⟩ := Substitution.exists_of_mem_applySet happly hu
      exact (htraces v hv).of_subset fun id hid => Substitution.freeRefs_apply happly ▸ hid
  | unresolved _ _ _ _ _ _ _ hscopes =>
      refine ⟨⟨?_, id, List.Subset.refl _⟩, fun t ht => ?_⟩
      · rw [hscopes]
        exact .cons ⟨rfl, fun _ => id, List.subset_append_left _ _⟩ (onward_refl _)
      · obtain rfl := Option.some.inj ht
        exact refers_of_closed rfl

theorem regular_yieldsWithin (setting : Setting) (depth : Nat) :
    Regular setting.program (YieldsWithin setting depth) := by
  induction depth with
  | zero => exact fun _ _ _ _ _ _ h => h.elim
  | succ depth ih => exact regular_rule ih

end Walk

end ProcessContracts
