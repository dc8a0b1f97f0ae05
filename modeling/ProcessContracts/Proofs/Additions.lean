import ProcessContracts.Proofs.Bookkeeping
import ProcessContracts.Proofs.QuietSteps

/-!
# What a check adds to the store

A procedure is attached when its walk is complete, by the walk that opened its scope. No procedure
is walked whose scope is open or whose traces are stored, so what is attached on the way comes
behind all that is stored already. Only the unit that is checked may have been there before.
-/

namespace ProcessContracts

open Walk WalkState

/-! ## Entries of a store -/

namespace Ledger

variable {κ α : Type} [DecidableEq κ] {key : κ} {entries : List (κ × α)}

theorem enter_of_new (h : key ∉ entries.map (·.1)) (value : α) :
    enter key value entries = entries ++ [(key, value)] := by
  induction entries with
  | nil => rfl
  | cons entry rest ih =>
      obtain ⟨hne, hrest⟩ := not_or.1 (mt List.mem_cons.2 h)
      rw [enter, if_neg (Ne.symm hne), ih hrest, List.cons_append]

/-- A key that is there keeps its place. -/
theorem enter_append (h : key ∈ entries.map (·.1)) (value : α) (more : List (κ × α)) :
    enter key value (entries ++ more) = enter key value entries ++ more := by
  induction entries with
  | nil => cases h
  | cons entry rest ih =>
      rw [List.cons_append, enter, enter]
      split
      case isTrue => rfl
      case isFalse hne => rw [ih ((List.mem_cons.1 h).resolve_left (Ne.symm hne)), List.cons_append]

theorem forall₂_enter (h : key ∈ entries.map (·.1)) (value : α) :
    List.Forall₂ (fun before after => after.1 = before.1 ∧ (before.1 ≠ key → after.2 = before.2))
      entries (enter key value entries) := by
  induction entries with
  | nil => cases h
  | cons entry rest ih =>
      rw [enter]
      split
      case isTrue heq =>
        exact .cons ⟨heq.symm, fun hne => absurd heq hne⟩
          (List.forall₂_same.2 fun _ _ => ⟨rfl, fun _ => rfl⟩)
      case isFalse hne =>
        exact .cons ⟨rfl, fun _ => rfl⟩ (ih ((List.mem_cons.1 h).resolve_left (Ne.symm hne)))

end Ledger

/-- Where no key comes twice, an entry is the only one of its key. -/
theorem filter_key_eq {κ α : Type} [DecidableEq κ] {entries : List (κ × α)}
    (hnodup : (entries.map (·.1)).Nodup) {entry : κ × α} (h : entry ∈ entries) :
    entries.filter (fun other => other.1 = entry.1) = [entry] := by
  induction entries with
  | nil => cases h
  | cons first rest ih =>
      obtain ⟨hnew, hrest⟩ := List.nodup_cons.1 hnodup
      rw [List.filter_cons]
      rcases List.mem_cons.1 h with rfl | h
      · rw [if_pos (decide_eq_true rfl), List.cons.injEq, List.filter_eq_nil_iff]
        refine ⟨rfl, fun other hother => ?_⟩
        have hne : other.1 ≠ entry.1 := fun heq => hnew (List.mem_map.2 ⟨other, hother, heq⟩)
        simpa using hne
      · have hne : first.1 ≠ entry.1 := fun heq => hnew (List.mem_map.2 ⟨entry, h, heq.symm⟩)
        rw [if_neg (by simpa using hne), ih hrest h]

/-! ## Additions -/

/-- Something is known about what the procedure does: it has a body or a contract. -/
def Program.Known (program : Program) (callee : DeclId) : Prop :=
  ∃ decl, program.decl callee = .ok decl ∧ (decl.body.isSome || decl.contract.isSome) = true

namespace Walk

variable {α β : Type} {program : Program} {setting : Setting} {unit : ProgramUnit}
  {units : List ProgramUnit} {node body : NodeId} {callee : DeclId} {decl : Decl}
  {s mid s' : WalkState} {visit : NodeId → Walk Unit}

/-- A later state in which the unit or procedures that it leads to are attached, but none that is
listed. They come behind what was stored before. -/
structure Adds (program : Program) (unit : ProgramUnit) (units : List ProgramUnit)
    (s s' : WalkState) : Prop where
  minted : s.minted ≤ s'.minted
  attached : ∃ events, s'.history = s.history ++ events ∧
    s'.store.entries = s.store.entries ++ attachments events ∧
    ∀ entry ∈ attachments events, .proc entry.1 ∉ units ∧ program.Known entry.1 ∧
      (unit = .proc entry.1 ∨ program.Leads unit entry.1)

theorem Passes.adds (h : Passes s s') : Adds program unit units s s' := by
  obtain ⟨events, hhistory, hnone⟩ := h.history
  refine ⟨h.minted, events, hhistory, ?_, fun entry hentry => ?_⟩
  · rw [h.store, hnone, List.append_nil]
  · rw [hnone] at hentry
    cases hentry

theorem Adds.refl (s : WalkState) : Adds program unit units s s := (Passes.refl s).adds

theorem Adds.trans (h : Adds program unit units s mid) (h' : Adds program unit units mid s') :
    Adds program unit units s s' := by
  obtain ⟨events, hhistory, hstore, hmay⟩ := h.attached
  obtain ⟨later, hhistory', hstore', hmay'⟩ := h'.attached
  refine ⟨h.minted.trans h'.minted, events ++ later, ?_, ?_, ?_⟩
  · rw [hhistory', hhistory, List.append_assoc]
  · rw [hstore', hstore, attachments_append, List.append_assoc]
  · rw [attachments_append]
    exact List.forall_mem_append.2 ⟨hmay, hmay'⟩

theorem Adds.of_subset {fewer : List ProgramUnit} (h : Adds program unit units s s')
    (hsub : fewer ⊆ units) : Adds program unit fewer s s' := by
  obtain ⟨events, hhistory, hstore, hmay⟩ := h.attached
  exact ⟨h.minted, events, hhistory, hstore, fun entry hentry =>
    ⟨fun hmem => (hmay entry hentry).1 (hsub hmem), (hmay entry hentry).2⟩⟩

/-- What a callee adds is added by its caller. -/
theorem Adds.of_callee (h : Adds program (.proc callee) units s s')
    (hcalls : program.Calls unit callee) : Adds program unit units s s' := by
  obtain ⟨events, hhistory, hstore, hmay⟩ := h.attached
  refine ⟨h.minted, events, hhistory, hstore, fun entry hentry => ?_⟩
  obtain ⟨hout, hknown, hreached⟩ := hmay entry hentry
  refine ⟨hout, hknown, .inr ?_⟩
  rcases hreached with heq | hleads
  · obtain rfl := ProgramUnit.proc.inj heq
    exact hcalls.leads
  · exact hcalls.leads.trans hleads

/-- From the state the computation adds what the unit leads to, and leaves what is open open. -/
abbrev AddingFrom (program : Program) (unit : ProgramUnit) (s : WalkState) (m : Walk α) : Prop :=
  ComesTo s m
    (fun _ s' => Adds program unit (owners s.scopes) s s' ∧ owners s'.scopes = owners s.scopes)
    fun _ => Adds program unit (owners s.scopes) s

/-- Whatever comes of the computation, it only adds what the unit leads to. -/
def Adding (program : Program) (unit : ProgramUnit) (m : Walk α) : Prop :=
  ∀ s, AddingFrom program unit s m

theorem AddingFrom.bind {m : Walk α} {k : α → Walk β} (hm : AddingFrom program unit s m)
    (hk : ∀ a, Adding program unit (k a)) : AddingFrom program unit s (m >>= k) :=
  ComesTo.bind hm fun a mid _ ⟨hmid, howners⟩ => (hk a mid).imp
    (fun _ _ _ ⟨hlast, hsame⟩ => ⟨hmid.trans (howners ▸ hlast), hsame.trans howners⟩)
    fun _ _ hlast => hmid.trans (howners ▸ hlast)

theorem Adding.bind {m : Walk α} {k : α → Walk β} (hm : Adding program unit m)
    (hk : ∀ a, Adding program unit (k a)) : Adding program unit (m >>= k) :=
  fun s => (hm s).bind hk

theorem QuietFrom.adding {m : Walk α} (h : QuietFrom s m) : AddingFrom program unit s m :=
  ComesTo.imp h (fun _ _ _ ⟨hpasses, howners⟩ => ⟨hpasses.adds, howners⟩) fun _ _ h => h.adds

theorem Quiet.adding {m : Walk α} (h : Quiet m) : Adding program unit m := fun s => (h s).adding

/-! ## Constructs -/

theorem adding_visitAll {nodes : List NodeId}
    (h : ∀ node ∈ nodes, Adding program unit (visit node)) :
    Adding program unit (visitAll visit nodes) := by
  induction nodes with
  | nil => exact (quiet_pure _).adding
  | cons node nodes ih =>
      obtain ⟨hnode, hnodes⟩ := List.forall_mem_cons.1 h
      exact hnode.bind fun _ => ih hnodes

theorem adding_collect {children : List NodeId}
    (h : ∀ child ∈ children, Adding program unit (visit child)) (node : NodeId) :
    Adding program unit (collect visit node children) :=
  quiet_openBucket.adding.bind fun _ => (adding_visitAll h).bind fun _ =>
    ((quiet_closeBucket node).bind fun _ => quiet_pure _).adding

theorem adding_collectSingle (h : Adding program unit (visit body)) (construct : String)
    (node : NodeId) : Adding program unit (collectSingle setting visit construct node body) :=
  quiet_openBucket.adding.bind fun _ => h.bind fun _ =>
    ((quiet_closeBucket node).bind fun _ => quiet_singleFragment _ _ _).adding

/-- What comes after a part attaches nothing. -/
theorem adding_part_bind (h : Adding program unit (visit body)) {construct : String}
    {k : Option Trace → Walk α} (hk : ∀ fragment, Quiet (k fragment)) :
    Adding program unit (collectSingle setting visit construct node body >>= k) :=
  (adding_collectSingle h construct node).bind fun fragment => (hk fragment).adding

theorem adding_replicate (h : Adding program unit (visit body)) (mode : Mode) (count : ExprId) :
    Adding program unit (replicate setting visit node mode count body) := by
  refine (quiet_liftLookup _).adding.bind fun folded => ?_
  split
  · exact (quiet_pure _).adding
  · refine adding_part_bind h fun fragment => ?_
    split
    · exact quiet_pure _
    · split
      · exact quiet_emit _ _
      · exact (quiet_mint _).bind fun _ => quiet_emit _ _

theorem adding_loop (h : Adding program unit (visit body)) (guard : ExprId) :
    Adding program unit (loop setting visit node guard body) := by
  refine (quiet_liftLookup _).adding.bind fun truth => ?_
  split
  · exact (quiet_pure _).adding
  · refine adding_part_bind h fun fragment => ?_
    split
    · exact quiet_emit _ _
    · exact (quiet_mint _).bind fun _ => quiet_emit _ _
  · exact adding_part_bind h fun fragment => (quiet_mint _).bind fun _ => quiet_emit _ _

theorem adding_alternatives {arms : List CondArm}
    (h : ∀ arm ∈ arms, Adding program unit (visit arm.body)) :
    Adding program unit (alternatives setting visit node arms) := by
  induction arms with
  | nil => exact (quiet_pure _).adding
  | cons arm arms ih =>
      obtain ⟨harm, harms⟩ := List.forall_mem_cons.1 h
      refine (quiet_liftLookup _).adding.bind fun truth => ?_
      split
      · exact ih harms
      · refine (adding_collectSingle harm _ node).bind fun fragment => ?_
        split
        · exact (quiet_pure _).adding
        · exact (ih harms).bind fun _ => (quiet_pure _).adding

theorem adding_cond {arms : List CondArm}
    (h : ∀ arm ∈ arms, Adding program unit (visit arm.body)) :
    Adding program unit (cond setting visit node arms) := by
  unfold cond
  split
  case h_1 arm =>
    refine (quiet_liftLookup _).adding.bind fun truth => ?_
    split
    · exact (quiet_pure _).adding
    · refine adding_part_bind (h arm List.mem_cons_self) fun fragment => ?_
      split
      · exact quiet_pure _
      · split <;> exact quiet_emit _ _
  case h_2 => exact (adding_alternatives h).bind fun _ => (quiet_emit _ _).adding

theorem adding_ready {arm : AltArm} (h : Adding program unit (visit arm.body)) :
    Adding program unit (ready setting visit node arm) := by
  refine adding_part_bind h fun body => ?_
  split
  · exact quiet_pure _
  · refine (quiet_liftLookup _).bind fun chan => ?_
    split <;> exact quiet_pure _

theorem quiet_disabled (arm : AltArm) : Quiet (disabled setting arm) := by
  unfold disabled
  split
  · exact (quiet_liftLookup _).bind fun _ => quiet_pure _
  · exact quiet_pure _

theorem adding_choices {arms : List AltArm}
    (h : ∀ arm ∈ arms, Adding program unit (visit arm.body)) :
    Adding program unit (choices setting visit node arms) := by
  induction arms with
  | nil => exact (quiet_pure _).adding
  | cons arm arms ih =>
      obtain ⟨harm, harms⟩ := List.forall_mem_cons.1 h
      refine (quiet_disabled arm).adding.bind fun off => ?_
      split
      · exact ih harms
      · exact (adding_ready harm).bind fun _ => (ih harms).bind fun _ => (quiet_pure _).adding

theorem adding_alt {arms : List AltArm} (h : ∀ arm ∈ arms, Adding program unit (visit arm.body)) :
    Adding program unit (alt setting visit node arms) := by
  refine (adding_choices h).bind fun ts => ?_
  split <;> exact (quiet_emit _ _).adding

/-! ## Procedures -/

/-- What is walked in a scope of its own is added to what is there outside. -/
theorem comesTo_bracket {new : Scope} {m : Walk α} {k : α → Scope → Walk β}
    {wanted : β → WalkState → Prop} {allowed : Abort → WalkState → Prop}
    (hm : AddingFrom program unit (s.enter new) m)
    (hk : ∀ a scope last, Adds program unit (new.owner :: owners s.scopes) s last →
      owners last.scopes = owners s.scopes → ComesTo last (k a scope) wanted allowed)
    (hgiven : ∀ e s', Adds program unit (new.owner :: owners s.scopes) s s' → allowed e s') :
    ComesTo s (pushScope new >>= fun _ => m >>= fun a => popScope >>= fun scope => k a scope)
      wanted allowed := by
  have hinside : ∀ {s'}, Adds program unit (owners (s.enter new).scopes) (s.enter new) s' →
      Adds program unit (new.owner :: owners s.scopes) s s' := fun h => ⟨h.minted, h.attached⟩
  have hpush : ComesTo s (pushScope new) (fun _ s' => s' = s.enter new) allowed := rfl
  refine hpush.bind fun _ mid _ heq => ?_
  subst heq
  refine (hm.imp (fun _ _ _ => id) fun e s' h => hgiven e s' (hinside h)).bind
    fun a mid _ ⟨hmid, howners⟩ => ?_
  obtain ⟨scope, outer, hscopes⟩ : ∃ scope outer, mid.scopes = scope :: outer :=
    List.exists_cons_of_ne_nil fun hnone => by rw [hnone] at howners; cases howners
  have hpop : ComesTo mid popScope (fun own s' => s' = { mid with scopes := outer }) allowed := by
    unfold ComesTo
    rw [popScope_run hscopes]
  refine hpop.bind fun own last _ heq => ?_
  subst heq
  rw [hscopes] at howners
  exact hk a own _ ⟨hmid.minted, (hinside hmid).attached⟩ (List.cons.inj howners).2

/-- A later state in the middle of checking a procedure, outside the scope of the procedure. -/
def Underway (program : Program) (callee : DeclId) (s mid : WalkState) : Prop :=
  Adds program (.proc callee) (.proc callee :: owners s.scopes) s mid ∧
    owners mid.scopes = owners s.scopes

/-- The traces of the procedure itself are attached last, if at all. -/
def Delivers (program : Program) (callee : DeclId) (s s' : WalkState) : Prop :=
  ∃ mid, Underway program callee s mid ∧
    (s' = mid ∨ program.Known callee ∧ ∃ t, s' = mid.attach callee t)

/-- Checking the procedure comes to an end at which its traces are attached last; where it is given
up they are not attached. -/
abbrev DeliveringFrom (program : Program) (callee : DeclId) (s mid : WalkState) (m : Walk α) :
    Prop :=
  ComesTo mid m (fun _ => Delivers program callee s)
    fun _ => Adds program (.proc callee) (.proc callee :: owners s.scopes) s

theorem underway_refl (s : WalkState) : Underway program callee s s := ⟨.refl s, rfl⟩

theorem Underway.bind {m : Walk α} {k : α → Walk β} (h : Underway program callee s mid)
    (hm : Quiet m)
    (hk : ∀ a last, Underway program callee s last → DeliveringFrom program callee s last (k a)) :
    DeliveringFrom program callee s mid (m >>= k) := by
  have hstep : ComesTo mid m (fun _ => Underway program callee s)
      fun _ => Adds program (.proc callee) (.proc callee :: owners s.scopes) s :=
    (hm mid).imp (fun _ _ _ ⟨hpasses, howners⟩ => ⟨h.1.trans hpasses.adds, howners.trans h.2⟩)
      fun _ _ hpasses => h.1.trans hpasses.adds
  exact hstep.bind fun a last _ => hk a last

theorem Underway.delivers (h : Underway program callee s mid) : Delivers program callee s mid :=
  ⟨mid, h, .inl rfl⟩

theorem Underway.attach (h : Underway program callee s mid) (hknown : program.Known callee)
    (t : Trace) : Delivers program callee s (mid.attach callee t) :=
  ⟨mid, h, .inr ⟨hknown, t, rfl⟩⟩

theorem delivers_conclude (h : Underway program callee s mid) (hknown : program.Known callee)
    (scope : Scope) (t : Trace) :
    DeliveringFrom program callee s mid (conclude setting callee decl scope t) := by
  refine h.bind (quiet_liftLookup _) fun projected last hlast => ?_
  split
  · refine hlast.bind (quiet_verdict _ _ _ _) fun judged last hlast => ?_
    exact hlast.bind (quiet_addDiagnostics _) fun _ last hlast => hlast.attach hknown projected
  · exact hlast.delivers

theorem delivers_declared (hdecl : program.decl callee = .ok decl) (s : WalkState) :
    DeliveringFrom program callee s s (declared setting callee decl) := by
  unfold declared
  split
  case h_1 => exact (underway_refl s).delivers
  case h_2 contract hcontract =>
    refine (underway_refl s).bind (quiet_lower _ _) fun lowered last hlast => ?_
    cases lowered with
    | ok t => exact hlast.attach ⟨decl, hdecl, by simp [hcontract]⟩ t
    | error unbound =>
        exact hlast.bind (quiet_addDiagnostics _) fun _ last hlast => hlast.delivers

/-- Where no procedure but those that are called is attached in walking the body, none is in
checking the procedure. -/
theorem delivers_checkDecl (hvisit : ∀ node, setting.program.Within (.proc callee) node →
      Adding setting.program (.proc callee) (visit node))
    (entry : Option Substitution) (s : WalkState) :
    DeliveringFrom setting.program callee s s (checkDecl setting visit callee entry) := by
  cases hdecl : setting.program.decl callee with
  | error fault =>
      unfold checkDecl
      split
      · exact Adds.refl s
      · rw [hdecl]
        exact Adds.refl s
  | ok decl =>
      cases hbody : decl.body with
      | none =>
          unfold checkDecl
          rw [if_neg (by rw [Program.containsDecl_of_ok hdecl]; decide)]
          refine comesTo_liftLookup_bind (fun _ => Adds.refl s) fun found hfound => ?_
          cases hdecl.symm.trans hfound
          rw [hbody]
          exact delivers_declared hdecl s
      | some body =>
          have hknown : setting.program.Known callee := ⟨decl, hdecl, by simp [hbody]⟩
          unfold DeliveringFrom ComesTo
          rw [checkDecl_eq hdecl hbody]
          change DeliveringFrom setting.program callee s s _
          have hwithin := (Program.Root.proc hdecl hbody).within
          have howner := (opened_diagnostics callee decl entry).2
          refine comesTo_bracket (adding_collectSingle (hvisit body hwithin) _ _ _)
            (fun fragment scope last hlast howners => ?_) fun _ s' h => ?_
          · exact delivers_conclude ⟨howner ▸ hlast, howners⟩ hknown scope _
          · exact howner ▸ h

/-- A procedure whose traces are not stored comes last into the store. -/
theorem Delivers.adds (h : Delivers program callee s s') (hfresh : s.store.get? callee = none)
    (hclosed : .proc callee ∉ units) (hsub : units ⊆ owners s.scopes) :
    Adds program (.proc callee) units s s' := by
  obtain ⟨mid, ⟨hmid, -⟩, hlast⟩ := h
  have hunder := hmid.of_subset fun _ h => List.mem_cons_of_mem (.proc callee) (hsub h)
  rcases hlast with rfl | ⟨hknown, t, rfl⟩
  · exact hunder
  · refine hunder.trans ⟨Nat.le_refl _, [.attached callee (.single t)], rfl, ?_, ?_⟩
    · obtain ⟨events, -, hstore, hmay⟩ := hmid.attached
      -- its traces were not stored at first, and its scope was open all the while
      refine Ledger.enter_of_new ?_ _
      rw [hstore, List.map_append, List.mem_append]
      refine not_or.2 ⟨Ledger.get?_eq_none_iff.1 hfresh, fun hmem => ?_⟩
      obtain ⟨entry, hentry, rfl⟩ := List.mem_map.1 hmem
      exact (hmay entry hentry).1 List.mem_cons_self
    · exact List.forall_mem_singleton.2 ⟨hclosed, hknown, .inl rfl⟩

theorem Delivers.owners_eq (h : Delivers program callee s s') :
    owners s'.scopes = owners s.scopes := by
  obtain ⟨mid, ⟨-, howners⟩, rfl | ⟨-, t, rfl⟩⟩ := h <;> exact howners

section Calls

variable (hvisit : ∀ unit node, setting.program.Within unit node →
  Adding setting.program unit (visit node))
include hvisit

theorem adding_freshCall (hcalls : setting.program.Calls unit callee)
    (hclosed : .proc callee ∉ owners s.scopes) (node : NodeId) (decl : Decl)
    (bindings : Substitution) :
    AddingFrom setting.program unit s (freshCall setting visit node callee decl bindings) := by
  have htraces : AddingFrom setting.program unit s
      (calleeTraces setting visit callee decl bindings) := by
    refine ComesTo.get_bind ?_
    split
    case h_1 => exact (quiet_pure _).adding s
    case h_2 hfresh =>
      split
      case isTrue =>
        have hchecked := delivers_checkDecl (hvisit (.proc callee)) (some bindings) s
        have hadds : AddingFrom setting.program unit s
            (checkDecl setting visit callee (some bindings)) :=
          hchecked.imp (fun _ _ _ h =>
              ⟨(h.adds hfresh hclosed (List.Subset.refl _)).of_callee hcalls, h.owners_eq⟩)
            fun _ _ h => (h.of_subset (List.subset_cons_self _ _)).of_callee hcalls
        exact hadds.bind fun _ => (quiet_pure _).adding
      case isFalse => exact (quiet_pure _).adding s
  refine htraces.bind fun traces => ?_
  split
  · refine ((quiet_liftLookup _).bind fun renamed => ?_).adding
    split
    · exact quiet_emit _ _
    · exact quiet_pure _
  · exact ((quiet_liftLookup _).bind fun _ => (quiet_report _).bind fun _ => quiet_emit _ _).adding

theorem adding_call (hcalls : setting.program.Calls unit callee) (node : NodeId)
    (args : List Arg) : Adding setting.program unit (call setting visit node callee args) := by
  unfold call
  split
  · exact (quiet_throw _).adding
  · refine (quiet_liftLookup _).adding.bind fun decl => ?_
    split
    · exact (quiet_throw _).adding
    · rename_i bindings hpair
      refine fun s => ComesTo.get_bind ?_
      split
      case h_1 hsplit =>
        exact (quietFrom_recursiveCall (splitAt_eq hsplit).1 node bindings).adding
      case h_2 hsplit =>
        split
        · exact (quiet_emit _ _).adding s
        · exact (quiet_pure _).adding s
        · exact adding_freshCall hvisit hcalls (splitAt_eq_none hsplit) node decl bindings

/-! ## Nodes -/

theorem adding_step (hwithin : setting.program.Within unit node) :
    Adding setting.program unit (step setting visit node) := by
  intro s
  unfold step
  split
  · exact (quiet_throw _).adding s
  · refine comesTo_liftLookup_bind (fun _ => Adds.refl s) fun written hwritten => ?_
    have hnode : setting.program.HasNode node written.value := ⟨written, hwritten, rfl⟩
    have hpart : ∀ {part}, part ∈ written.value.children →
        Adding setting.program unit (visit part) := fun hpart =>
      hvisit unit _ (hwithin.of_part hnode hpart)
    generalize written.value = construct at hpart hnode
    refine (?_ : Adding setting.program unit _) s
    cases construct with
    | skip | stop => exact (quiet_emit _ _).adding
    | input chan | output chan =>
        exact ((quiet_liftLookup _).bind fun _ => quiet_emit _ _).adding
    | assign => exact (quiet_pure _).adding
    | compose mode children =>
        exact (adding_collect (fun child hchild => hpart hchild) node).bind fun ts =>
          (quiet_emit _ _).adding
    | replicate mode count body =>
        exact adding_replicate (hpart (List.mem_singleton_self body)) mode count
    | loop guard body => exact adding_loop (hpart (List.mem_singleton_self body)) guard
    | cond arms => exact adding_cond fun arm harm => hpart (List.mem_map_of_mem harm)
    | alt arms => exact adding_alt fun arm harm => hpart (List.mem_map_of_mem harm)
    | call callee args => exact adding_call hvisit ⟨node, args, hwithin, hnode⟩ node args
    | block locals body => exact hpart (List.mem_singleton_self body)

end Calls

/-- Walking a node of a unit attaches nothing but what the unit leads to. -/
theorem adding_walkWithin (depth : Nat) : ∀ unit node, setting.program.Within unit node →
    Adding setting.program unit (walkWithin setting depth node) := by
  -- the unit is not fixed: one level down a node may be in the body of a callee
  induction depth with
  | zero => exact fun _ _ _ => (quiet_throw _).adding
  | succ depth ih => exact fun _ _ hwithin => adding_step ih hwithin

/-! ## Checks -/

/-- The same entries in the same order, but for the traces of the unit itself. -/
def KeepsOthers (unit : ProgramUnit) (before after : List (DeclId × TraceSet)) : Prop :=
  List.Forall₂ (fun entry entry' => entry'.1 = entry.1 ∧
    (unit ≠ .proc entry.1 → entry'.2 = entry.2)) before after

/-- The entries come behind those that were there before, and each of them was attached by exactly
one of the events. -/
structure Extends (program : Program) (unit : ProgramUnit) (s s' : WalkState) : Prop where
  minted : s.minted ≤ s'.minted
  stored : ∃ kept added events, s'.store.entries = kept ++ added ∧
    KeepsOthers unit s.store.entries kept ∧ s'.history = s.history ++ events ∧
    ∀ entry ∈ added, program.Known entry.1 ∧
      (unit = .proc entry.1 ∨ program.Leads unit entry.1) ∧
      (attachments events).filter (fun other => other.1 = entry.1) = [entry]

theorem keepsOthers_refl (unit : ProgramUnit) (entries : List (DeclId × TraceSet)) :
    KeepsOthers unit entries entries :=
  List.forall₂_same.2 fun _ _ => ⟨rfl, fun _ => rfl⟩

theorem nodup_attachments {events : List Event}
    (hstore : s'.store.entries = s.store.entries ++ attachments events) :
    ((attachments events).map (·.1)).Nodup := by
  have hkeys := s'.store.keys_nodup
  rw [hstore, List.map_append] at hkeys
  exact (List.nodup_append.1 hkeys).2.1

theorem Adds.extends (h : Adds program unit units s s') : Extends program unit s s' := by
  obtain ⟨events, hhistory, hstore, hmay⟩ := h.attached
  exact ⟨h.minted, s.store.entries, attachments events, events, hstore, keepsOthers_refl _ _,
    hhistory, fun entry hentry => ⟨(hmay entry hentry).2.1, (hmay entry hentry).2.2,
      filter_key_eq (nodup_attachments hstore) hentry⟩⟩

/-- The traces of a procedure that is stored already are replaced where they are. -/
theorem Delivers.extends_of_stored (h : Delivers program callee s s')
    (hstored : callee ∈ s.store.keys) : Extends program (.proc callee) s s' := by
  obtain ⟨mid, ⟨hmid, -⟩, rfl | ⟨hknown, t, rfl⟩⟩ := h
  · exact hmid.extends
  · obtain ⟨events, hhistory, hstore, hmay⟩ := hmid.attached
    refine ⟨hmid.minted, Ledger.enter callee (.single t) s.store.entries, attachments events,
      events ++ [.attached callee (.single t)], ?_, ?_, ?_, fun entry hentry => ?_⟩
    · change Ledger.enter callee _ mid.store.entries = _
      rw [hstore, Ledger.enter_append hstored]
    · refine (Ledger.forall₂_enter hstored _).imp fun before after hkept => ⟨hkept.1, fun hne => ?_⟩
      exact hkept.2 fun heq => hne (congrArg ProgramUnit.proc heq.symm)
    · change mid.history ++ _ = _
      rw [hhistory, List.append_assoc]
    · obtain ⟨hout, hknown, hreached⟩ := hmay entry hentry
      have hother : callee ≠ entry.1 := fun heq =>
        hout (heq ▸ List.mem_cons_self)
      have hlast : (attachments [.attached callee (.single t)]).filter
          (fun other => other.1 = entry.1) = [] := by
        simpa [attachments] using hother
      -- the event for the procedure itself is not one for the entry
      refine ⟨hknown, hreached, ?_⟩
      rw [attachments_append, List.filter_append, hlast, List.append_nil,
        filter_key_eq (nodup_attachments hstore) hentry]

theorem Delivers.extends (h : Delivers program callee s s') :
    Extends program (.proc callee) s s' := by
  by_cases hstored : callee ∈ s.store.keys
  · exact h.extends_of_stored hstored
  · exact (h.adds (Ledger.get?_eq_none_iff.2 hstored) List.not_mem_nil
      (List.nil_subset _)).extends

theorem extends_checkUnit (setting : Setting) (unit : ProgramUnit) (s : WalkState) :
    ComesTo s (checkUnit setting unit) (fun _ => Extends setting.program unit s)
      fun _ => Extends setting.program unit s := by
  have hvisit := @adding_walkWithin setting (depthBound setting.program)
  cases unit with
  | proc callee =>
      have hchecked := delivers_checkDecl (hvisit (.proc callee)) none s
      exact (hchecked.imp (fun _ _ _ h => h.extends) fun _ _ h => h.extends).bind
        fun _ mid _ hmid => hmid
  | process node =>
      unfold checkUnit checkProcess
      dsimp only
      split
      · exact (Adds.refl s : Adds setting.program (.process node) [] s s).extends
      · refine comesTo_bracket (adding_collectSingle
          (hvisit _ node Program.Root.process.within) _ _ _)
          (fun fragment scope last hlast _ => ?_) fun _ _ h => h.extends
        have hrest : Quiet (do
            addDiagnostics scope.diagnostics
            pure (TraceSet.single (finish setting (fragment.getD .skip)))) :=
          (quiet_addDiagnostics _).bind fun _ => quiet_pure _
        exact (hrest last).imp (fun _ _ _ h => (hlast.trans h.1.adds).extends)
          fun _ _ h => (hlast.trans h.adds).extends

end Walk

/-- A check only adds to what is stored, whether it succeeds or not. What was stored keeps its place
and, if it is not of the unit itself, its traces. What is added is known of a procedure that the
unit is or leads to, and was attached once. -/
theorem check_only_adds (setting : Setting) (unit : ProgramUnit) (session : Session) :
    session.supply.minted ≤ (check setting unit session).2.supply.minted ∧
    ∃ kept added events, (check setting unit session).2.store.entries = kept ++ added ∧
      KeepsOthers unit session.store.entries kept ∧
      (check setting unit session).2.history = session.history ++ events ∧
      ∀ entry ∈ added, setting.program.Known entry.1 ∧
        (unit = .proc entry.1 ∨ setting.program.Leads unit entry.1) ∧
        (attachments events).filter (fun other => other.1 = entry.1) = [entry] := by
  have hextends := extends_checkUnit setting unit session.begin
  unfold check
  cases hrun : (checkUnit setting unit).run session.begin with
  | ok traces state =>
      obtain ⟨hle, hstored⟩ := hextends.of_ok hrun
      exact ⟨hle, hstored⟩
  | error abort state =>
      obtain ⟨hle, hstored⟩ := hextends.of_error hrun
      exact ⟨hle, hstored⟩

end ProcessContracts
