import ProcessContracts.Proofs.LocalWalks

/-!
# Where stored traces come from

In a region of a program, which calls do not leave and in which no procedure is on a cycle of calls
with another one, a procedure in the store was walked by the local rules, with the procedures that
were attached before it. The records of a walk list the procedures in the order in which they were
attached, each with its share of the work. Where there are no such cycles the whole program is a
region.
-/

namespace ProcessContracts

open Walk WalkState

/-- No procedure is on a cycle of calls with another one. -/
def Program.Untangled (program : Program) : Prop := ∀ callee, ¬ program.Entangled callee

/-- Calls do not lead out of the region, and no procedure in it is on a cycle of calls with another
one. -/
structure Program.Region (program : Program) (inside : DeclId → Bool) : Prop where
  calls : ∀ {caller callee}, inside caller = true → program.Calls (.proc caller) callee →
    inside callee = true
  untangled : ∀ {callee}, inside callee = true → ¬ program.Entangled callee

/-- The unit and all that it instantiates are in the region. A process is in it by itself. -/
structure Program.Includes (program : Program) (inside : DeclId → Bool) (unit : ProgramUnit) :
    Prop where
  proc : ∀ callee, unit = .proc callee → inside callee = true
  calls : ∀ callee, program.Calls unit callee → inside callee = true

theorem Program.Untangled.region {program : Program} (h : program.Untangled) :
    program.Region fun _ => true := ⟨fun _ _ => rfl, fun _ => h _⟩

theorem Program.includes_all (program : Program) (unit : ProgramUnit) :
    program.Includes (fun _ => true) unit := ⟨fun _ _ => rfl, fun _ _ => rfl⟩

theorem Program.Region.includes {program : Program} {inside : DeclId → Bool} {callee : DeclId}
    (h : program.Region inside) (hcallee : inside callee = true) :
    program.Includes inside (.proc callee) :=
  ⟨fun _ heq => ProgramUnit.proc.inj heq ▸ hcallee, fun _ => h.calls hcallee⟩

/-! ## Stores of a region -/

namespace Ledger

variable {κ α : Type} {inside : κ → Bool} {ledger : Ledger κ α} {key : κ} {value : α}

/-- The entries with keys in the region. -/
def within (inside : κ → Bool) (ledger : Ledger κ α) : Ledger κ α where
  entries := ledger.entries.filter (inside ·.1)
  keys_nodup := ledger.keys_nodup.sublist (List.filter_sublist.map _)

theorem within_all : ledger.within (fun _ => true) = ledger := by
  simp [within]

variable [DecidableEq κ]

theorem get?_within (hkey : inside key = true) :
    (ledger.within inside).get? key = ledger.get? key := by
  unfold get? within
  dsimp only
  induction ledger.entries with
  | nil => rfl
  | cons entry rest ih =>
      rw [List.filter_cons]
      by_cases heq : entry.1 = key
      · rw [heq, if_pos hkey, seek, seek, if_pos heq, if_pos heq]
      · rw [seek, if_neg heq, ← ih]
        split
        · rw [seek, if_neg heq]
        · rfl

theorem inside_of_get?_within (h : (ledger.within inside).get? key = some value) :
    inside key = true := by
  have hkey : key ∈ (ledger.within inside).keys := by
    by_contra hkey
    rw [get?_eq_none_iff.2 hkey] at h
    cases h
  obtain ⟨entry, hentry, rfl⟩ := List.mem_map.1 hkey
  exact (List.mem_filter.1 hentry).2

theorem filter_enter (entries : List (κ × α)) : (enter key value entries).filter (inside ·.1) =
    if inside key then enter key value (entries.filter (inside ·.1))
    else entries.filter (inside ·.1) := by
  induction entries with
  | nil => cases hkey : inside key <;> simp [enter, hkey]
  | cons entry rest ih =>
      by_cases heq : entry.1 = key
      · cases hkey : inside key <;> simp [enter, heq, hkey]
      · cases hkey : inside key <;> cases hentry : inside entry.1 <;>
          simp [enter, heq, hkey, hentry, ih]

omit [DecidableEq κ] in
theorem ext_entries {other : Ledger κ α} (h : ledger.entries = other.entries) : ledger = other := by
  cases ledger
  cases other
  cases h
  rfl

theorem within_insert (hkey : inside key = true) :
    (ledger.insert key value).within inside = (ledger.within inside).insert key value :=
  ext_entries ((filter_enter ledger.entries).trans (if_pos hkey))

theorem within_insert_of_outside (hkey : inside key = false) :
    (ledger.insert key value).within inside = ledger.within inside :=
  ext_entries ((filter_enter ledger.entries).trans (if_neg (by simp [hkey])))

end Ledger

namespace Walk

variable {setting : Setting} {program : Program} {unit : ProgramUnit} {node : NodeId}
  {callee : DeclId} {decl : Decl} {bindings : Substitution} {s mid s' : WalkState}
  {own : Scope} {inner outer : List Scope} {fragment : Option Trace} {account : Account}
  {depth : Nat}

/-! ## Instances of open procedures -/

/-- The only open procedure that is instantiated is the one that is walked. -/
theorem Ready.innermost_of_open (huntangled : ∀ caller, unit = .proc caller →
      ¬ program.Entangled caller) (h : Ready program unit node s)
    (hinstance : program.Instantiates node callee decl bindings)
    (hsplit : splitAt callee s.scopes = some (inner, own, outer)) :
    inner = [] ∧ unit = .proc callee := by
  obtain ⟨hscopes, howner⟩ := splitAt_eq hsplit
  have howner := ProgramUnit.eq_proc_of_decl? howner
  obtain ⟨innermost, linked, nodup, within, -⟩ := h
  rw [hscopes, owners, List.map_append, List.map_cons, howner] at innermost linked nodup
  cases inner with
  | nil => exact ⟨rfl, (Option.some.inj innermost).symm⟩
  | cons first inner =>
      obtain rfl := Option.some.inj innermost
      -- The scopes between the two are linked by calls, and the innermost one closes the cycle.
      have hbetween : ProgramUnit.proc callee ∈
          inner.map (·.owner) ++ .proc callee :: outer.map (·.owner) :=
        List.mem_append_right _ List.mem_cons_self
      obtain ⟨caller, hcaller⟩ : ∃ caller, first.owner = .proc caller := by
        cases inner with
        | nil => exact (List.isChain_cons_cons.1 linked).1.imp fun _ h => h.1
        | cons => exact (List.isChain_cons_cons.1 linked).1.imp fun _ h => h.1
      rw [List.map_cons, List.cons_append, hcaller] at linked nodup
      have hcalls : program.Calls (.proc caller) callee :=
        hcaller ▸ Program.Within.calls within hinstance
      refine absurd ?_ (huntangled caller hcaller)
      refine ⟨callee, ?_, hcalls.leads, leads_of_linked linked hbetween⟩
      rintro rfl
      exact (List.nodup_cons.1 nodup).1 hbetween

theorem Ready.ne_of_closed (h : Ready program unit node s)
    (hsplit : splitAt callee s.scopes = none) : unit ≠ .proc callee := by
  rintro rfl
  obtain ⟨outer, howners⟩ := List.head?_eq_some_iff.1 h.innermost
  exact splitAt_eq_none hsplit (howners ▸ List.mem_cons_self)

theorem Ready.closed_of_ne (huntangled : program.Untangled) (h : Ready program unit node s)
    (hinstance : program.Instantiates node callee decl bindings) (hne : unit ≠ .proc callee) :
    splitAt callee s.scopes = none := by
  cases hsplit : splitAt callee s.scopes with
  | none => rfl
  | some parts =>
      obtain ⟨inner, own, outer⟩ := parts
      exact absurd (h.innermost_of_open (fun caller _ => huntangled caller) hinstance hsplit).2 hne

/-- The scope of the unit is the innermost one. -/
theorem Ready.exists_scope (h : Ready program unit node s) :
    ∃ own outer, s.scopes = own :: outer ∧ own.owner = unit := by
  obtain ⟨outer, howners⟩ := List.head?_eq_some_iff.1 h.innermost
  cases hscopes : s.scopes with
  | nil =>
      rw [hscopes] at howners
      cases howners
  | cons own rest =>
      rw [hscopes] at howners
      exact ⟨own, rest, rfl, (List.cons.inj howners).1⟩

theorem Ready.split_self (h : Ready program unit node s) (hunit : unit = .proc callee) :
    ∃ own outer, splitAt callee s.scopes = some ([], own, outer) := by
  obtain ⟨own, outer, hscopes, howner⟩ := h.exists_scope
  refine ⟨own, outer, ?_⟩
  rw [hscopes, splitAt, if_pos]
  rw [Scope.decl?, howner, hunit]
  rfl

/-! ## Well-scoped walks -/

/-- No bucket is open, and what is stored is well-scoped. -/
structure Sober (setting : Setting) (s : WalkState) : Prop where
  bare : s.Bare
  holds : (scoping setting).Holds s.minted s.store s.history s.frames

theorem Sober.after (h : Sober setting s) (hready : Ready setting.program unit node s)
    (hyields : YieldsWithin setting depth node s fragment account s') :
    Sober setting s' ∧ ∀ t, fragment = some t → t.Scoped s'.minted (openAtoms s'.frames) := by
  obtain ⟨own, outer, hscopes, -⟩ := hready.exists_scope
  have hopen : s.scopes ≠ [] := hscopes ▸ List.cons_ne_nil _ _
  obtain ⟨hholds, -, hfits⟩ := (scoping setting).kept hyields h.bare hopen h.holds trivial
  exact ⟨⟨(@realizes_walkWithin setting depth node).bare hyields h.bare |>.1, hholds⟩, hfits⟩

theorem Sober.enter (h : Sober setting s) (henter : Enterable setting.program callee s)
    (hdecl : setting.program.decl callee = .ok decl) {entry : Option Substitution}
    (hentry : ∀ bindings, entry = some bindings →
      ∃ node, setting.program.Instantiates node callee decl bindings) :
    Sober setting (s.enter (.opened callee decl entry)) where
  bare := List.forall_mem_cons.2 ⟨Scope.buckets_opened callee decl entry, h.bare⟩
  holds := by
    obtain ⟨interface, hopened⟩ := foldl_addInterface_eq { owner := .proc callee, entry }
      ((decl.visibleParams.filter (·.isChannel)).map (·.name))
    have hnew : .proc callee ∉ owners s.frames := by
      have howners : owners s.frames = owners s.scopes := by simp [owners, frames, Scope.frame]
      exact howners ▸ (List.nodup_cons.1 henter.nodup).1
    change (scoping setting).Holds s.minted s.store s.history
      (Scope.frame (.opened callee decl entry) :: s.frames)
    unfold Scope.opened
    rw [hopened]
    exact (scoping setting).enter ⟨rfl, rfl, .inr ⟨callee, decl, rfl, hdecl, hnew, hentry⟩⟩ h.holds

/-- What callers see of a procedure is well-scoped. -/
theorem Sober.projected (h : Sober setting mid) {scope : Scope} {projected : Trace}
    (hfragment : ∀ t, fragment = some t → t.Scoped mid.minted (openAtoms mid.frames))
    (hscopes : mid.scopes = scope :: outer)
    (hproject : project setting scope.interface (whole setting scope fragment) = .ok projected)
    (hclosed : projected.isClosed = true) : projected.WellScoped mid.minted := by
  have hframes : mid.frames = scope.frame :: outer.map Scope.frame := by rw [frames, hscopes]; rfl
  have hscoped := h.holds
  have hbody : ((fragment.getD .skip)).Scoped mid.minted (openAtoms mid.frames) := by
    cases fragment with
    | none => trivial
    | some t => exact hfragment t rfl
  rw [hframes] at hscoped hbody
  have hbound := (scoping setting).bind hscoped hbody
  let rest : WalkState := { mid with scopes := outer }
  have hwhole : (scoping setting).Fits rest.minted rest.frames (whole setting scope fragment) :=
    Invariant.fits_finish hbound
  have hfits : (scoping setting).Fits rest.minted rest.frames projected :=
    Invariant.fits_project hproject hwhole
  refine Trace.Scoped.wellScoped (Trace.Scoped.restrict hfits (List.nil_subset _) fun id hid => ?_)
  rw [Trace.isClosed_iff.1 hclosed] at hid
  cases hid

/-! ## Records -/

/-- How a procedure comes into a store, and the share of the work that was done for it. -/
inductive Attaches (setting : Setting) (store : TraceStore) (callee : DeclId) : Trace → Share → Prop
  | declared {decl contract first t last} : setting.program.decl callee = .ok decl →
      decl.body = none → decl.contract = some contract →
      (contract.value.lower setting.program callee).run first = .ok t last →
      Attaches setting store callee t { atoms := first.upTo last }
  | walked {decl body entry depth fragment share scope t supply judged noted} :
      setting.program.decl callee = .ok decl → decl.body = some body →
      LocalWithin setting store (.proc callee) depth body (.opened callee decl entry) fragment share
        scope →
      project setting scope.interface (whole setting scope fragment) = .ok t → t.isClosed = true →
      t.WellScoped supply.minted →
      (verdict setting callee decl scope t).run { supply } = .ok judged noted →
      Attaches setting store callee t (share.add ⟨supply.upTo noted.supply, judged.diagnostics⟩)

/-- Procedures with their shares, in the order in which they came into the store. -/
abbrev Records := List (DeclId × Share)

inductive Recorded (setting : Setting) : Records → TraceStore → Prop
  | nil : Recorded setting [] {}
  | attach {records store callee t share} : Recorded setting records store →
      store.get? callee = none → Attaches setting store callee t share →
      Recorded setting (records ++ [(callee, share)]) (store.insert callee (.single t))

/-- The atoms of all shares. -/
def Records.atoms (records : Records) : List AtomId := records.flatMap (·.2.atoms)

theorem Records.atoms_append (records records' : Records) :
    Records.atoms (records ++ records') = records.atoms ++ records'.atoms := List.flatMap_append

variable {records : Records} {store : TraceStore} {traces : TraceSet} {share : Share} {t : Trace}

theorem Attaches.isKnown (h : Attaches setting store callee t share) :
    ∃ decl, setting.program.decl callee = .ok decl ∧ decl.IsKnown setting.program callee := by
  cases h with
  | declared hdecl _ hcontract hlower => exact ⟨_, hdecl, .inr ⟨_, hcontract, _, _, _, hlower⟩⟩
  | walked hdecl hbody => exact ⟨_, hdecl, .inl (by rw [hbody]; rfl)⟩

theorem staysIn_insert (hfresh : store.get? callee = none) (traces : TraceSet) :
    store.StaysIn (store.insert callee traces) := by
  intro other found hget
  rw [Ledger.get?_insert, if_neg, hget]
  rintro rfl
  rw [hfresh] at hget
  cases hget

/-- A procedure with a record was attached to a part of the store. -/
theorem Recorded.attaches (h : Recorded setting records store) (hmem : (callee, share) ∈ records) :
    ∃ before t, before.StaysIn store ∧ store.get? callee = some (.single t) ∧
      Attaches setting before callee t share := by
  induction h with
  | nil => cases hmem
  | @attach records store other t _ _ hfresh hattaches ih =>
      have hstays := staysIn_insert hfresh (.single t)
      rcases List.mem_append.1 hmem with hmem | hmem
      · obtain ⟨before, u, hbefore, hget, hfound⟩ := ih hmem
        exact ⟨before, u, fun c ts hc => hstays c ts (hbefore c ts hc), hstays _ _ hget, hfound⟩
      · obtain ⟨rfl, rfl⟩ := Prod.mk.inj (List.mem_singleton.1 hmem)
        exact ⟨store, t, hstays, (Ledger.get?_insert _ _ _ _).trans (if_pos rfl), hattaches⟩

theorem Recorded.keys (h : Recorded setting records store) :
    store.keys = records.map (·.1) := by
  induction h with
  | nil => rfl
  | attach _ hfresh _ ih =>
      rw [Ledger.keys_insert, if_neg (Ledger.get?_eq_none_iff.1 hfresh), ih, List.map_append]
      rfl

theorem Recorded.keys_nodup (h : Recorded setting records store) : (records.map (·.1)).Nodup :=
  h.keys ▸ store.keys_nodup

/-- A procedure in the store has a record. -/
theorem Recorded.exists_share (h : Recorded setting records store)
    (hget : store.get? callee = some traces) : ∃ share, (callee, share) ∈ records := by
  have hkey : callee ∈ store.keys := by
    by_contra hkey
    rw [Ledger.get?_eq_none_iff.2 hkey] at hget
    cases hget
  rw [h.keys] at hkey
  obtain ⟨⟨_, share⟩, hmem, rfl⟩ := List.mem_map.1 hkey
  exact ⟨share, hmem⟩

theorem Recorded.isKnown (h : Recorded setting records store)
    (hget : store.get? callee = some traces) (hdecl : setting.program.decl callee = .ok decl) :
    decl.IsKnown setting.program callee := by
  obtain ⟨_, hmem⟩ := h.exists_share hget
  obtain ⟨_, _, -, -, hattaches⟩ := h.attaches hmem
  obtain ⟨_, hdecl', hknown⟩ := hattaches.isKnown
  cases hdecl.symm.trans hdecl'
  exact hknown

/-! ## Records of a region -/

/-- The records of procedures in the region. -/
def Records.within (inside : DeclId → Bool) (records : Records) : Records :=
  records.filter (inside ·.1)

variable {inside : DeclId → Bool}

theorem Records.within_all (records : Records) : records.within (fun _ => true) = records :=
  List.filter_true _

theorem Records.within_append (records records' : Records) :
    Records.within inside (records ++ records') = records.within inside ++ records'.within inside :=
  List.filter_append _ _

theorem staysIn_within {store' : TraceStore} (h : store.StaysIn store') :
    TraceStore.StaysIn (store.within inside) (store'.within inside) := by
  intro other traces hget
  have hother : inside other = true := Ledger.inside_of_get?_within hget
  rw [Ledger.get?_within hother] at hget ⊢
  exact h other traces hget

/-- Where nothing is attached the records stay. -/
theorem Recorded.unchanged (h : Recorded setting records store) :
    Recorded setting (records ++ Records.within inside []) store := by
  rwa [Records.within, List.filter_nil, List.append_nil]

/-! ## Walks are recorded -/

/-- Walks of this depth keep records of the procedures in the region. Units that are included in it
they walk by the local rules. -/
def Records.Kept (setting : Setting) (inside : DeclId → Bool) (depth : Nat) : Prop :=
  ∀ {unit node s fragment account s' records},
    YieldsWithin setting depth node s fragment account s' → Ready setting.program unit node s →
    Sober setting s → Recorded setting records (s.store.within inside) →
    Recorded setting (records ++ Records.within inside account.attached) (s'.store.within inside) ∧
    ∀ {own outer}, setting.program.Includes inside unit → s.scopes = own :: outer →
      ∃ own', s'.scopes = own' :: outer ∧
        LocalWithin setting (s'.store.within inside) unit depth node own fragment account.own own'

/-- A procedure is not attached while its body is walked. -/
theorem fresh_of_visit {body : NodeId} {entry : Option Substitution}
    (hready : Ready setting.program (.proc callee) body (s.enter (.opened callee decl entry)))
    (hfresh : s.store.get? callee = none)
    (hvisit : YieldsWithin setting depth body (s.enter (.opened callee decl entry)) fragment account
      mid) : mid.store.get? callee = none := by
  have hbooks := books_yieldsWithin setting depth _ _ _ _ _ _ hvisit hready
  rw [Ledger.get?_eq_none_iff, hbooks.keys, List.mem_append]
  refine not_or.2 ⟨Ledger.get?_eq_none_iff.1 hfresh, fun hmem => hbooks.apart callee hmem ?_⟩
  rw [← (opened_diagnostics callee decl entry).2]
  exact List.mem_cons_self

section Kept

variable (hkept : Records.Kept setting inside depth) (hregion : setting.program.Region inside)

include hkept in
theorem kept_series {nodes : List NodeId} {fragments : List (Option Trace)}
    (hseries : Series (YieldsWithin setting depth) nodes s fragments account s')
    (hready : ∀ node ∈ nodes, Ready setting.program unit node s) (hsober : Sober setting s)
    (hrecorded : Recorded setting records (s.store.within inside)) :
    Recorded setting (records ++ Records.within inside account.attached) (s'.store.within inside) ∧
    ∀ {own outer}, setting.program.Includes inside unit → s.scopes = own :: outer →
      ∃ own', s'.scopes = own' :: outer ∧
        LocalSeries (LocalWithin setting (s'.store.within inside) unit depth) nodes own fragments
          account.own own' := by
  induction hseries generalizing records with
  | nil s => exact ⟨hrecorded.unchanged, fun _ hscopes => ⟨_, hscopes, .nil _⟩⟩
  | @cons node nodes s _ here mid _ rest last hnode hrest ih =>
      obtain ⟨hfirst, hnodes⟩ := List.forall_mem_cons.1 hready
      have hmid := (regular_yieldsWithin setting depth _ _ _ _ _ _ hnode hfirst).1
      have hlater := fun node hnode => (hnodes node hnode).later hmid
      obtain ⟨hrecorded', hlocal⟩ := hkept hnode hfirst hsober hrecorded
      obtain ⟨hlast, hlocals⟩ := ih hlater (hsober.after hfirst hnode).1 hrecorded'
      have hbooks := books_series (books_yieldsWithin setting depth)
        (regular_yieldsWithin setting depth) hrest hlater
      refine ⟨?_, fun hincludes hscopes => ?_⟩
      · rwa [List.append_assoc, ← Records.within_append] at hlast
      · obtain ⟨own', hscopes', hnode⟩ := hlocal hincludes hscopes
        obtain ⟨own'', hscopes'', hseries⟩ := hlocals hincludes hscopes'
        exact ⟨own'', hscopes'', .cons (hnode.later (staysIn_within hbooks.kept)) hseries⟩

include hkept hregion

theorem kept_completes {entry : Option Substitution} {traces : ProcTraces}
    (hcompletes : Completes setting (YieldsWithin setting depth) callee entry s traces account s')
    (henter : Enterable setting.program callee s) (hfresh : s.store.get? callee = none)
    (hdecl : setting.program.decl callee = .ok decl)
    (hentry : ∀ bindings, entry = some bindings →
      ∃ node, setting.program.Instantiates node callee decl bindings)
    (hsober : Sober setting s) (hrecorded : Recorded setting records (s.store.within inside)) :
    Recorded setting (records ++ Records.within inside account.attached) (s'.store.within inside) ∧
    (inside callee = true → s'.scopes = s.scopes ∧
      Obtains setting.program (s'.store.within inside) callee decl traces.projected
        account.own) := by
  have hregular := regular_yieldsWithin setting depth
  -- What is attached is recorded if it is in the region.
  have hattach : ∀ {before : Records} {store : TraceStore} {t : Trace} {share : Share},
      Recorded setting before (store.within inside) → store.get? callee = none →
      (inside callee = true → Attaches setting (store.within inside) callee t share) →
      Recorded setting (before ++ Records.within inside [(callee, share)])
        ((store.insert callee (.single t)).within inside) := by
    intro before store t share hbefore hnew hattaches
    cases hcallee : inside callee with
    | true =>
        rw [Ledger.within_insert hcallee, Records.within,
          List.filter_cons_of_pos (by exact hcallee)]
        exact hbefore.attach ((Ledger.get?_within hcallee).trans hnew) (hattaches hcallee)
    | false =>
        rw [Ledger.within_insert_of_outside hcallee, Records.within,
          List.filter_cons_of_neg (by simp [hcallee]), List.filter_nil, List.append_nil]
        exact hbefore
  cases hcompletes with
  | undeclared hdecl' hbody hcontract =>
      cases hdecl.symm.trans hdecl'
      exact ⟨hrecorded.unchanged, fun _ => ⟨rfl, .undeclared hbody hcontract⟩⟩
  | declared hdecl' hbody hcontract hlower =>
      cases hdecl.symm.trans hdecl'
      refine ⟨hattach hrecorded hfresh fun _ => .declared hdecl hbody hcontract hlower,
        fun hcallee => ⟨rfl, .known (.inr ⟨_, hcontract, _, _, _, hlower⟩) ?_⟩⟩
      exact (Ledger.get?_within hcallee).trans ((Ledger.get?_insert _ _ _ _).trans (if_pos rfl))
  | unbound hdecl' hbody hcontract hlower =>
      cases hdecl.symm.trans hdecl'
      exact ⟨hrecorded.unchanged, fun _ => ⟨rfl, .unbound hbody hcontract hlower⟩⟩
  | dropped hdecl' hbody hvisit hscopes hproject hopen =>
      cases hdecl.symm.trans hdecl'
      have hready := henter.ready hdecl hbody entry
      refine ⟨(hkept hvisit hready (hsober.enter henter hdecl hentry) hrecorded).1,
        fun hcallee => absurd ?_ (hregion.untangled hcallee)⟩
      exact entangled_of_dropped hregular henter hdecl' hbody hvisit hscopes hproject hopen
  | @attached _ body fragment account scope outer mid projected judged noted hdecl' hbody hvisit
      hscopes hproject hclosed hverdict =>
      cases hdecl.symm.trans hdecl'
      have hready := henter.ready hdecl hbody entry
      have hopened := hsober.enter henter hdecl hentry
      obtain ⟨hbefore, hlocal⟩ := hkept hvisit hready hopened hrecorded
      have hinner : inside callee = true → outer = s.scopes ∧
          LocalWithin setting (mid.store.within inside) (.proc callee) depth body
            (.opened callee decl entry) fragment account.own scope := fun hcallee => by
        obtain ⟨own', hscopes', hlocal⟩ := hlocal (hregion.includes hcallee) rfl
        obtain ⟨rfl, rfl⟩ := List.cons.inj (hscopes.symm.trans hscopes')
        exact ⟨rfl, hlocal⟩
      obtain ⟨hmid, hfragment⟩ := hopened.after hready hvisit
      have hnew := fresh_of_visit hready hfresh hvisit
      refine ⟨?_, fun hcallee => ⟨(hinner hcallee).1, .known (.inl (by rw [hbody]; rfl)) ?_⟩⟩
      · rw [Records.within_append, ← List.append_assoc]
        exact hattach hbefore hnew fun hcallee => .walked hdecl hbody (hinner hcallee).2 hproject
          hclosed (hmid.projected hfragment hscopes hproject hclosed) hverdict
      · exact (Ledger.get?_within hcallee).trans ((Ledger.get?_insert _ _ _ _).trans (if_pos rfl))

theorem kept_supplies {traces : TraceSet}
    (hsupplies : Supplies setting (YieldsWithin setting depth) callee decl bindings s traces account
      s')
    (henter : Enterable setting.program callee s)
    (hinstance : setting.program.Instantiates node callee decl bindings)
    (hsober : Sober setting s) (hrecorded : Recorded setting records (s.store.within inside)) :
    Recorded setting (records ++ Records.within inside account.attached) (s'.store.within inside) ∧
    (inside callee = true → s'.scopes = s.scopes ∧
      (decl.body.isSome || decl.contract.isSome) = true ∧
      Obtains setting.program (s'.store.within inside) callee decl traces account.own) := by
  have hdecl : setting.program.decl callee = .ok decl := hinstance.choose_spec.2.1
  cases hsupplies with
  | stored hget =>
      refine ⟨hrecorded.unchanged, fun hcallee => ?_⟩
      have hget := (Ledger.get?_within hcallee).trans hget
      have hknown := hrecorded.isKnown hget hdecl
      exact ⟨rfl, hknown.asked, .known hknown hget⟩
  | demanded hfresh hasked hcompletes =>
      obtain ⟨hrecorded', hlocal⟩ := kept_completes hkept hregion hcompletes henter hfresh hdecl
        (fun _ heq => Option.some.inj heq ▸ ⟨node, hinstance⟩) hsober hrecorded
      refine ⟨hrecorded', fun hcallee => ?_⟩
      obtain ⟨hscopes, hobtains⟩ := hlocal hcallee
      exact ⟨hscopes, hasked, hobtains⟩

theorem kept_rule : Records.Kept setting inside (depth + 1) := by
  intro unit node s fragment account s' records hrule hready hsober hrecorded
  cases hrule with
  | planned hnode hplan hseries hmakes =>
      obtain ⟨hrecorded', hlocals⟩ := kept_series hkept hseries
        (fun part hpart => hready.of_part hnode (mem_children_of_plan hplan hpart)) hsober hrecorded
      obtain ⟨rfl, rfl, rfl⟩ := hmakes
      rw [← List.append_nil (Account.attached _)] at hrecorded'
      refine ⟨hrecorded', fun hincludes hscopes => ?_⟩
      obtain ⟨own', hscopes', hlocal⟩ := hlocals hincludes hscopes
      exact ⟨own', hscopes', .planned _ hnode hplan hlocal⟩
  | folded hinstance hsplit haltered hmarked hatom =>
      refine ⟨hrecorded.unchanged, fun hincludes hscopes => ?_⟩
      obtain ⟨rfl, hunit⟩ := hready.innermost_of_open
        (fun caller heq => hregion.untangled (hincludes.proc caller heq)) hinstance hsplit
      obtain ⟨rfl, rfl⟩ := List.cons.inj (hscopes.symm.trans (splitAt_eq hsplit).1)
      exact ⟨_, rfl, .folded hunit hinstance haltered hmarked hatom⟩
  | builtin hinstance hsplit hbody hname =>
      exact ⟨hrecorded.unchanged, fun _ hscopes =>
        ⟨_, hscopes, .builtin (hready.ne_of_closed hsplit) hinstance hbody hname⟩⟩
  | supplied hinstance hsplit hname hsupplies happly =>
      obtain ⟨hrecorded', hlocal⟩ := kept_supplies hkept hregion hsupplies
        (hready.enterable hinstance hsplit) hinstance hsober hrecorded
      refine ⟨hrecorded', fun hincludes hscopes => ?_⟩
      obtain ⟨hscopes', hasked, hobtains⟩ :=
        hlocal (hincludes.calls _ (hready.within.calls hinstance))
      exact ⟨_, hscopes'.trans hscopes, .supplied (hready.ne_of_closed hsplit) hinstance hname
        hasked hobtains happly⟩
  | unresolved hinstance hsplit hbody hname hcontract _ hwritten hscopes' =>
      refine ⟨hrecorded.unchanged, fun _ hscopes => ?_⟩
      obtain ⟨rfl, rfl⟩ := List.cons.inj (hscopes.symm.trans hscopes')
      exact ⟨_, rfl, .unresolved (hready.ne_of_closed hsplit) hinstance hbody hname hcontract
        hwritten⟩

end Kept

theorem kept_yieldsWithin (hregion : setting.program.Region inside) (depth : Nat) :
    Records.Kept setting inside depth := by
  induction depth with
  | zero => exact fun h => h.elim
  | succ depth ih => exact kept_rule ih hregion

section Untangled

variable (huntangled : setting.program.Untangled)
include huntangled

theorem recorded_yieldsWithin (depth : Nat) {fragment : Option Trace}
    (hyields : YieldsWithin setting depth node s fragment account s')
    (hready : Ready setting.program unit node s) (hsober : Sober setting s)
    (hrecorded : Recorded setting records s.store) (hscopes : s.scopes = own :: outer) :
    ∃ own', s'.scopes = own' :: outer ∧
      LocalWithin setting s'.store unit depth node own fragment account.own own' ∧
      Recorded setting (records ++ account.attached) s'.store := by
  obtain ⟨hrecorded', hlocal⟩ := kept_yieldsWithin huntangled.region depth hyields hready hsober
    (by rwa [Ledger.within_all])
  obtain ⟨own', hscopes', hlocal⟩ := hlocal (setting.program.includes_all unit) hscopes
  rw [Ledger.within_all] at hrecorded' hlocal
  rw [Records.within_all] at hrecorded'
  exact ⟨own', hscopes', hlocal, hrecorded'⟩

theorem recorded_completes {entry : Option Substitution} {traces : ProcTraces}
    (hcompletes : Completes setting (YieldsWithin setting depth) callee entry s traces account s')
    (henter : Enterable setting.program callee s) (hfresh : s.store.get? callee = none)
    (hdecl : setting.program.decl callee = .ok decl)
    (hentry : ∀ bindings, entry = some bindings →
      ∃ node, setting.program.Instantiates node callee decl bindings)
    (hsober : Sober setting s) (hrecorded : Recorded setting records s.store) :
    s'.scopes = s.scopes ∧
      Obtains setting.program s'.store callee decl traces.projected account.own ∧
      Recorded setting (records ++ account.attached) s'.store := by
  obtain ⟨hrecorded', hlocal⟩ := kept_completes (kept_yieldsWithin huntangled.region depth)
    huntangled.region hcompletes henter hfresh hdecl hentry hsober (by rwa [Ledger.within_all])
  obtain ⟨hscopes, hobtains⟩ := hlocal rfl
  rw [Ledger.within_all] at hrecorded' hobtains
  rw [Records.within_all] at hrecorded'
  exact ⟨hscopes, hobtains, hrecorded'⟩

theorem recorded_supplies {traces : TraceSet}
    (hsupplies : Supplies setting (YieldsWithin setting depth) callee decl bindings s traces account
      s')
    (henter : Enterable setting.program callee s)
    (hinstance : setting.program.Instantiates node callee decl bindings)
    (hsober : Sober setting s) (hrecorded : Recorded setting records s.store) :
    s'.scopes = s.scopes ∧ (decl.body.isSome || decl.contract.isSome) = true ∧
      Obtains setting.program s'.store callee decl traces account.own ∧
      Recorded setting (records ++ account.attached) s'.store := by
  obtain ⟨hrecorded', hlocal⟩ := kept_supplies (kept_yieldsWithin huntangled.region depth)
    huntangled.region hsupplies henter hinstance hsober (by rwa [Ledger.within_all])
  obtain ⟨hscopes, hasked, hobtains⟩ := hlocal rfl
  rw [Ledger.within_all] at hrecorded' hobtains
  rw [Records.within_all] at hrecorded'
  exact ⟨hscopes, hasked, hobtains, hrecorded'⟩

end Untangled

end Walk

end ProcessContracts
