import ProcessContracts.Proofs.Judgements

/-!
# Steps that attach nothing

Most of what a walk does mints atoms, notes events and changes the open scopes, and leaves the store
alone. Only a procedure that is complete is attached.
-/

namespace ProcessContracts

open Walk WalkState

/-- What was attached, in order. -/
def attachments (events : List Event) : List (DeclId × TraceSet) :=
  events.filterMap fun
    | .attached decl traces => some (decl, traces)
    | _ => none

theorem attachments_append (events later : List Event) :
    attachments (events ++ later) = attachments events ++ attachments later :=
  List.filterMap_append

theorem Scope.owner_of_emit {scope scope' : Scope} {t : Trace} (h : scope.emit t = some scope') :
    scope'.owner = scope.owner := by
  unfold Scope.emit at h
  split at h
  · cases h
  · rw [← Option.some.inj h]

theorem Scope.owner_of_closeBucket {scope scope' : Scope} {bucket : Bucket}
    (h : scope.closeBucket = some (bucket, scope')) : scope'.owner = scope.owner := by
  unfold Scope.closeBucket at h
  split at h
  · cases h
  · rw [← (Prod.mk.inj (Option.some.inj h)).2]

namespace Walk

variable {α β : Type} {setting : Setting} {s mid s' : WalkState} {own own' : Scope}

/-- A later state in which nothing more is attached. -/
structure Passes (s s' : WalkState) : Prop where
  minted : s.minted ≤ s'.minted
  store : s'.store = s.store
  history : ∃ events, s'.history = s.history ++ events ∧ attachments events = []

theorem Passes.of_eq (hle : s.minted ≤ s'.minted) (hstore : s'.store = s.store)
    (hhistory : s'.history = s.history) : Passes s s' :=
  ⟨hle, hstore, [], hhistory.trans (List.append_nil _).symm, rfl⟩

theorem Passes.refl (s : WalkState) : Passes s s := .of_eq (Nat.le_refl _) rfl rfl

theorem Passes.trans (h : Passes s mid) (h' : Passes mid s') : Passes s s' := by
  obtain ⟨events, hhistory, hnone⟩ := h.history
  obtain ⟨later, hhistory', hnone'⟩ := h'.history
  refine ⟨h.minted.trans h'.minted, h'.store.trans h.store, events ++ later, ?_, ?_⟩
  · rw [hhistory', hhistory, List.append_assoc]
  · rw [attachments_append, hnone, hnone', List.append_nil]

/-- From the state the computation attaches nothing, and the open scopes keep their owners. -/
abbrev QuietFrom (s : WalkState) (m : Walk α) : Prop :=
  ComesTo s m (fun _ s' => Passes s s' ∧ owners s'.scopes = owners s.scopes) fun _ => Passes s

/-- Whatever comes of the computation, it attaches nothing. -/
def Quiet (m : Walk α) : Prop := ∀ s, QuietFrom s m

theorem QuietFrom.bind {m : Walk α} {k : α → Walk β} (hm : QuietFrom s m)
    (hk : ∀ a mid, m.run s = .ok a mid → QuietFrom mid (k a)) : QuietFrom s (m >>= k) :=
  ComesTo.bind hm fun a mid hrun ⟨hmid, howners⟩ => (hk a mid hrun).imp
    (fun _ _ _ ⟨hlast, hsame⟩ => ⟨hmid.trans hlast, hsame.trans howners⟩)
    fun _ _ => hmid.trans

theorem Quiet.bind {m : Walk α} {k : α → Walk β} (hm : Quiet m) (hk : ∀ a, Quiet (k a)) :
    Quiet (m >>= k) := fun s => (hm s).bind fun a mid _ => hk a mid

theorem quiet_pure (a : α) : Quiet (pure a) := fun s => ⟨.refl s, rfl⟩

theorem quiet_throw (abort : Abort) : Quiet (throw abort : Walk α) := fun s => .refl s

theorem quiet_liftLookup (query : Lookup α) : Quiet (liftLookup query) := by
  cases query with
  | ok a => exact quiet_pure a
  | error fault => exact quiet_throw _

/-- A query leaves the state as it is, whether it is answered or not. -/
theorem comesTo_liftLookup_bind {query : Lookup α} {k : α → Walk β} {wanted : β → WalkState → Prop}
    {allowed : Abort → WalkState → Prop} (hgiven : ∀ e, allowed e s)
    (hk : ∀ a, query = .ok a → ComesTo s (k a) wanted allowed) :
    ComesTo s (liftLookup query >>= k) wanted allowed := by
  cases query with
  | ok a => exact hk a rfl
  | error fault => exact hgiven _

theorem quiet_mint (origin : Origin) : Quiet (mint origin) := fun _ =>
  ⟨.of_eq (Nat.le_succ _) rfl rfl, rfl⟩

theorem quiet_addDiagnostics (found : List Diagnostic) : Quiet (addDiagnostics found) := fun _ =>
  ⟨.of_eq (Nat.le_refl _) rfl rfl, rfl⟩

theorem quiet_record {event : Event} (h : attachments [event] = []) : Quiet (record event) :=
  fun _ => ⟨⟨Nat.le_refl _, rfl, [event], rfl, h⟩, rfl⟩

/-! ## Scopes -/

/-- What is done in the innermost scope fails without one. -/
theorem quiet_scope_bind {k : Scope → Walk α}
    (hk : ∀ own s, s.scopes.head? = some own → QuietFrom s (k own)) : Quiet (scope >>= k) := by
  rintro ⟨supply, store, history, _ | ⟨own, outer⟩, diagnostics⟩
  · exact Passes.refl _
  · exact hk own ⟨supply, store, history, own :: outer, diagnostics⟩ rfl

theorem quietFrom_setScope (h : s.scopes.head? = some own) (howner : own'.owner = own.owner) :
    QuietFrom s (setScope own') := by
  obtain ⟨outer, hscopes⟩ := List.head?_eq_some_iff.1 h
  refine ⟨.of_eq (Nat.le_refl _) rfl rfl, ?_⟩
  change own'.owner :: owners s.scopes.tail = _
  rw [hscopes, howner]
  rfl

theorem quiet_report (diagnostic : Diagnostic) : Quiet (report diagnostic) :=
  quiet_scope_bind fun _ _ h => quietFrom_setScope h rfl

theorem quiet_openBucket : Quiet openBucket :=
  quiet_scope_bind fun _ _ h => quietFrom_setScope h rfl

theorem quiet_emit (node : NodeId) (t : Trace) : Quiet (emit node t) :=
  quiet_scope_bind fun own s h => by
    cases hemit : own.emit t with
    | some own' => exact quietFrom_setScope h (Scope.owner_of_emit hemit)
    | none => exact quiet_throw _ s

theorem quiet_closeBucket (node : NodeId) : Quiet (closeBucket node) :=
  quiet_scope_bind fun own s h => by
    cases hclose : own.closeBucket with
    | some closed =>
        exact (quietFrom_setScope h (Scope.owner_of_closeBucket hclose)).bind
          fun _ mid _ => quiet_pure _ mid
    | none => exact quiet_throw _ s

theorem quiet_singleFragment (construct : String) (node : NodeId) (bucket : Bucket) :
    Quiet (singleFragment setting construct node bucket) := by
  unfold singleFragment
  split
  · exact quiet_pure _
  · split
    · exact quiet_throw _
    · exact (quiet_liftLookup _).bind fun _ => (quiet_report _).bind fun _ => quiet_pure _

/-! ## Contracts and recursive instances -/

theorem quiet_lower (callee : DeclId) (contract : Contract) :
    Quiet (lower setting callee contract) := by
  intro s
  unfold QuietFrom ComesTo
  rw [lower_run]
  cases hrun : (contract.lower setting.program callee).run s.supply with
  | ok t supply => exact ⟨.of_eq (Contract.lowered_of_lower hrun).minted_le rfl rfl, rfl⟩
  | error e supply =>
      cases e with
      | unbound name => exact ⟨.of_eq (Contract.refused_of_lower hrun).minted_le rfl rfl, rfl⟩
      | fault fault => exact Passes.refl s

theorem quiet_verdict (callee : DeclId) (decl : Decl) (scope : Scope) (t : Trace) :
    Quiet (verdict setting callee decl scope t) := by
  unfold verdict
  split
  case h_2 => exact quiet_pure scope
  case h_1 contract =>
    refine Quiet.bind ?_ fun found => (quiet_record rfl).bind fun _ => quiet_pure _
    refine (quiet_liftLookup _).bind fun name => (quiet_lower callee _).bind fun spec => ?_
    cases spec with
    | error unbound => exact quiet_pure _
    | ok spec => exact (quiet_liftLookup _).bind fun report => quiet_liftLookup _

/-- The scope an instance is folded back onto is put back among the others. -/
theorem quietFrom_recursiveCall {callee : DeclId} {inner outer : List Scope}
    (hscopes : s.scopes = inner ++ own :: outer) (node : NodeId) (bindings : Substitution) :
    QuietFrom s (recursiveCall setting node callee bindings inner own outer) := by
  have hgiven : ∀ _ : Abort, Passes s s := fun _ => .refl s
  refine comesTo_liftLookup_bind hgiven fun decl _ => ?_
  refine comesTo_liftLookup_bind hgiven fun altered _ => ?_
  refine comesTo_liftLookup_bind hgiven fun own' hmarked => ?_
  refine ComesTo.get_bind ?_
  have howner : own'.owner = own.owner := (@marked_spec callee _ _ _ _ _ _ hmarked).1
  cases hfrom : own'.recursionAtomFrom s.supply (.recursion callee) with
  | mk atom rest =>
      obtain ⟨own'', supply⟩ := rest
      have hle : s.minted ≤ supply.minted := minted_le_recursionAtomFrom hfrom
      obtain ⟨rfl, -⟩ := recursionAtomFrom_eq hfrom
      have hset : QuietFrom s
          (set { s with
            supply, scopes := inner ++ { own' with recursionAtom := some atom } :: outer } :
            Walk PUnit) := by
        refine ⟨.of_eq hle rfl rfl, ?_⟩
        rw [hscopes, owners, owners, List.map_append, List.map_append, List.map_cons, List.map_cons,
          howner]
      exact hset.bind fun _ last _ =>
        ((quiet_record rfl).bind fun _ => quiet_emit _ _) last

end Walk

end ProcessContracts
