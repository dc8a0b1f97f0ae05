import ProcessContracts.Proofs.AnsweredInstances
import ProcessContracts.Proofs.RenamedChannels

/-!
# Arguments by position

Formals and arguments are paired in order, the hidden ones of either side left out. An instance
keeps the trace and everything in it but the references: one that names a formal becomes what the
argument at the place of that formal stands for, and any other one stays.
-/

namespace ProcessContracts

/-! ## Traces that differ in their references -/

namespace Trace

variable {r r' r'' : ChanRef → ChanRef → Prop} {t u v : Trace} {f : ChanRef → ChanRef}

/-- Traces of one form: the same operators, binders and leaves. References in the same place are
related. -/
inductive Matches (r : ChanRef → ChanRef → Prop) : Trace → Trace → Prop
  | leaf {t : Trace} : t.isLeaf = true → t.channels = [] → Matches r t t
  | event {direction : Direction} {chan chan' : ChanRef} : r chan chan' →
      Matches r (.event direction chan) (.event direction chan')
  | comp {op : Operator} {ts us : List Trace} : List.Forall₂ (Matches r) ts us →
      Matches r (.comp op ts) (.comp op us)
  | fix {binder : Atom} {body body' : Trace} : Matches r body body' →
      Matches r (.fix binder body) (.fix binder body')

/-- The relation of the references may be replaced on the references there are. -/
theorem Matches.imp (h : t.Matches r u)
    (himp : ∀ c ∈ t.channels, ∀ d, r c d → r' c d) : t.Matches r' u := by
  induction t generalizing u with
  | comp op ts ih =>
      cases h with
      | leaf hleaf => cases hleaf
      | comp hchildren =>
          have himp' : ∀ t ∈ ts, ∀ c ∈ t.channels, ∀ d, r c d → r' c d := fun t ht c hc =>
            himp c (mem_channels_comp.2 ⟨t, ht, hc⟩)
          refine .comp ?_
          clear himp
          induction hchildren with
          | nil => exact .nil
          | cons hchild _ ihall =>
              exact .cons (ih _ List.mem_cons_self hchild (himp' _ List.mem_cons_self))
                (ihall (fun t ht => ih t (List.mem_cons_of_mem _ ht))
                  fun t ht => himp' t (List.mem_cons_of_mem _ ht))
  | fix binder body ih =>
      cases h with
      | leaf hleaf => cases hleaf
      | fix hbody => exact .fix (ih hbody himp)
  | event direction chan =>
      cases h with
      | leaf _ hnone => cases hnone
      | event hchan => exact .event (himp _ (List.mem_singleton_self _) _ hchan)
  | _ =>
      cases h with
      | leaf hleaf hnone => exact .leaf hleaf hnone

/-- Matching traces in turn. -/
theorem Matches.trans (h : t.Matches r u) (h' : u.Matches r' v)
    (hr : ∀ c d e, r c d → r' d e → r'' c e) : t.Matches r'' v := by
  induction t generalizing u v with
  | comp op ts ih =>
      cases h with
      | leaf hleaf => cases hleaf
      | comp hfirst =>
          cases h' with
          | leaf hleaf => cases hleaf
          | @comp _ _ vs hsecond =>
              refine .comp ?_
              induction hfirst generalizing vs with
              | nil =>
                  cases hsecond
                  exact .nil
              | cons hchild _ ihall =>
                  cases hsecond with
                  | cons hchild' hrest =>
                      exact .cons (ih _ List.mem_cons_self hchild hchild')
                        (ihall (fun t ht => ih t (List.mem_cons_of_mem _ ht)) hrest)
  | fix binder body ih =>
      cases h with
      | leaf hleaf => cases hleaf
      | fix hfirst =>
          cases h' with
          | leaf hleaf => cases hleaf
          | fix hsecond => exact .fix (ih hfirst hsecond)
  | event direction chan =>
      cases h with
      | leaf _ hnone => cases hnone
      | event hfirst =>
          cases h' with
          | leaf _ hnone => cases hnone
          | event hsecond => exact .event (hr _ _ _ hfirst hsecond)
  | _ =>
      cases h
      cases h'
      exact .leaf ‹_› ‹_›

/-- Related references take the same place in the order of all references. -/
theorem Matches.channels (h : Matches r t u) : List.Forall₂ r t.channels u.channels := by
  induction t generalizing u with
  | event direction chan =>
      cases h with
      | leaf _ hnone => cases hnone
      | event hchan => exact .cons hchan .nil
  | comp op ts ih =>
      cases h with
      | leaf hleaf => cases hleaf
      | comp hchildren =>
          rw [Trace.channels, Trace.channels, channelsAll_eq_flatMap, channelsAll_eq_flatMap]
          induction hchildren with
          | nil => exact .nil
          | cons hchild _ ihall =>
              exact List.rel_append (ih _ List.mem_cons_self hchild)
                (ihall fun t ht => ih t (List.mem_cons_of_mem _ ht))
  | fix binder body ih =>
      cases h with
      | leaf hleaf => cases hleaf
      | fix hbody =>
          rw [Trace.channels, Trace.channels]
          exact ih hbody
  | _ =>
      cases h
      exact .nil

theorem matches_mapChannels (h : ∀ chan ∈ t.channels, r chan (f chan)) :
    t.Matches r (t.mapChannels f) := by
  induction t with
  | event direction chan => exact .event (h chan (List.mem_singleton_self _))
  | comp op ts ih =>
      rw [mapChannels, mapChannelsAll_eq_map]
      refine .comp (List.forall₂_map_right_iff.2 (List.forall₂_same.2 fun t ht => ?_))
      exact ih t ht fun chan hchan => h chan (mem_channels_comp.2 ⟨t, ht, hchan⟩)
  | fix binder body ih => exact .fix (ih h)
  | _ => exact .leaf rfl rfl

theorem Matches.refl (h : ∀ chan ∈ t.channels, r chan chan) : t.Matches r t := by
  induction t with
  | event direction chan => exact .event (h chan (List.mem_singleton_self _))
  | comp op ts ih =>
      exact .comp (List.forall₂_same.2 fun t ht =>
        ih t ht fun chan hchan => h chan (mem_channels_comp.2 ⟨t, ht, hchan⟩))
  | fix binder body ih => exact .fix (ih h)
  | _ => exact .leaf rfl rfl

/-- Traces of one form with the same references are the same. -/
theorem Matches.eq (h : Matches r t u) (heq : ∀ c d, r c d → d = c) : u = t := by
  induction t generalizing u with
  | comp op ts ih =>
      cases h with
      | leaf => rfl
      | comp hchildren =>
          refine congrArg (Trace.comp op) ?_
          induction hchildren with
          | nil => rfl
          | cons hchild _ ihall =>
              rw [ih _ List.mem_cons_self hchild,
                ihall fun t ht => ih t (List.mem_cons_of_mem _ ht)]
  | fix binder body ih =>
      cases h with
      | leaf => rfl
      | fix hbody => rw [ih hbody]
  | event direction chan =>
      cases h with
      | leaf => rfl
      | event hchan => rw [heq _ _ hchan]
  | _ =>
      cases h
      rfl

end Trace

/-! ## The last entry of a key -/

namespace Ledger

variable {κ α : Type} [DecidableEq κ] {key : κ} {value : α}

theorem get?_foldl_of_not_mem {pairs : List (κ × α)} (h : key ∉ pairs.map (·.1))
    (start : Ledger κ α) :
    (pairs.foldl (fun ledger pair => ledger.insert pair.1 pair.2) start).get? key =
      start.get? key := by
  induction pairs generalizing start with
  | nil => rfl
  | cons pair pairs ih =>
      rw [List.map_cons, List.mem_cons, not_or] at h
      rw [List.foldl_cons, ih h.2, get?_insert, if_neg h.1]

/-- A key has the value it is entered with last. -/
theorem get?_ofList_of_last {before after : List (κ × α)} (h : key ∉ after.map (·.1)) :
    (ofList (before ++ (key, value) :: after)).get? key = some value := by
  rw [ofList, List.foldl_append, List.foldl_cons, get?_foldl_of_not_mem h, get?_insert, if_pos rfl]

end Ledger

/-! ## Arguments in the places of formals -/

namespace Substitution

variable {program : Program} {bindings : Substitution} {formals : List NameId}
  {actuals : List ExprId} {formal : NameId} {actual : ExprId} {chan chan' chan'' : ChanRef}

/-- What a reference to a formal becomes with the argument put in. -/
inductive Puts (program : Program) (formal : NameId) (actual : ExprId) : ChanRef → ChanRef → Prop
  /-- A formal passed through as itself leaves the reference alone. -/
  | through {chan : ChanRef} : program.resolveName actual = .ok (some formal) →
      Puts program formal actual chan chan
  /-- An element of an array brings its own subscript. -/
  | element {root core base root' index : ExprId} : program.strip actual = .ok core →
      program.expr core = .ok (.subscript base index) → program.strip base = .ok root' →
      Puts program formal actual ⟨root, none⟩ ⟨root', some index⟩
  /-- Any other argument, or any argument where a subscript is written already. -/
  | plain {root core : ExprId} {index : Option ExprId} {found : Option NameId} {e : Expr} :
      program.resolveName actual = .ok found → found ≠ some formal →
      program.strip actual = .ok core → program.expr core = .ok e →
      (index = none → ∀ base own, e ≠ .subscript base own) →
      Puts program formal actual ⟨root, index⟩ ⟨core, index⟩

/-- A reference that names a formal takes the argument in the place of that formal; one that names
none stays. A formal that is listed again takes the argument of its last place. -/
structure Positional (program : Program) (formals : List NameId) (actuals : List ExprId)
    (chan chan' : ChanRef) : Prop where
  formal : ∀ i formal actual, formals[i]? = some formal → formal ∉ formals.drop (i + 1) →
    actuals[i]? = some actual → program.resolveName chan.root = .ok (some formal) →
      Puts program formal actual chan chan'
  other : (∀ formal ∈ formals, program.resolveName chan.root ≠ .ok (some formal)) → chan' = chan

theorem puts_of_redirect (hroot : program.resolveName chan.root = .ok (some formal))
    (hget : bindings.get? formal = some actual)
    (h : redirect program bindings chan = .ok chan') : Puts program formal actual chan chan' := by
  obtain ⟨root, index⟩ := chan
  obtain ⟨found, hfound, h⟩ := Lookup.bind_eq_ok.1 h
  obtain rfl := Except.ok.inj (hfound.symm.trans hroot)
  dsimp only at h
  rw [hget] at h
  obtain ⟨core, hcore, h⟩ := Lookup.bind_eq_ok.1 h
  obtain ⟨known, hknown, h⟩ := Lookup.bind_eq_ok.1 h
  rw [Program.resolveName_strip hcore] at hknown
  split at h
  case isTrue hself =>
    obtain rfl := Except.ok.inj h
    exact .through (hknown.trans (congrArg Except.ok hself))
  case isFalse hne =>
    obtain ⟨e, hexpr, h⟩ := Lookup.bind_eq_ok.1 h
    split at h
    case h_1 =>
      obtain ⟨root', hbase, h⟩ := Lookup.bind_eq_ok.1 h
      obtain rfl := Except.ok.inj h
      exact .element hcore hexpr hbase
    case h_2 hplain =>
      obtain rfl := Except.ok.inj h
      exact .plain hknown hne hcore hexpr fun hnone base own he => hplain base own he hnone

/-- A reference stays where its root names nothing that is bound, or a formal passed through. -/
theorem redirect_eq_self (hkept : ∀ formal actual, bindings.get? formal = some actual →
      program.resolveName chan.root = .ok (some formal) →
        program.resolveName actual = .ok (some formal))
    (h : redirect program bindings chan = .ok chan') : chan' = chan := by
  obtain ⟨found, hfound, h⟩ := Lookup.bind_eq_ok.1 h
  split at h
  case h_1 => exact (Except.ok.inj h).symm
  case h_2 formal =>
    split at h
    case h_1 => exact (Except.ok.inj h).symm
    case h_2 actual hget =>
      obtain ⟨core, hcore, h⟩ := Lookup.bind_eq_ok.1 h
      have hself := hkept formal actual hget hfound
      rw [← Program.resolveName_strip hcore] at hself
      rw [hself] at h
      obtain ⟨_, ⟨⟩, h⟩ := Lookup.bind_eq_ok.1 h
      rw [if_pos rfl] at h
      exact (Except.ok.inj h).symm

/-- What holds of each redirection holds of each reference in an instance. -/
theorem matches_apply {r : ChanRef → ChanRef → Prop}
    (hr : ∀ chan chan', redirect program bindings chan = .ok chan' → r chan chan')
    (hrefl : bindings.isEmpty = true → ∀ chan, r chan chan) {t t' : Trace}
    (h : bindings.apply program t = .ok t') : t.Matches r t' := by
  cases hempty : bindings.isEmpty with
  | true =>
      rw [apply, if_pos hempty] at h
      obtain rfl := Except.ok.inj h
      exact Trace.Matches.refl fun chan _ => hrefl hempty chan
  | false =>
      obtain ⟨rfl, hanswered⟩ := apply_eq_ok h hempty
      refine Trace.matches_mapChannels fun chan hchan => ?_
      obtain ⟨chan', hredirect⟩ := hanswered chan hchan
      rw [hredirect, Lookup.getD_ok]
      exact hr chan chan' hredirect

/-- An instance is answered if each of its references is. -/
theorem exists_apply {t : Trace}
    (h : ∀ chan ∈ t.channels, ∃ chan', redirect program bindings chan = .ok chan') :
    ∃ u, bindings.apply program t = .ok u ∧
      t.Matches (fun c d => redirect program bindings c = .ok d) u := by
  unfold apply
  split
  case isTrue hempty =>
    refine ⟨t, rfl, .refl fun chan hchan => ?_⟩
    obtain ⟨chan', hredirect⟩ := h chan hchan
    have hnone : ∀ name, bindings.get? name = none := fun name => by
      rw [Ledger.get?, List.isEmpty_iff.1 hempty]
      rfl
    have hself : chan' = chan := redirect_eq_self (fun name actual hget => by
      rw [hnone name] at hget
      cases hget) hredirect
    rw [hredirect, hself]
  case isFalse =>
    have hanswers : Lookup.Answers (t.renameChannels (redirect program bindings)) fun u =>
        t.Matches (fun c d => redirect program bindings c = .ok d) u := by
      have heach : ∀ chan ∈ t.channels,
          Lookup.Answers (redirect program bindings chan) fun _ => True := fun chan hchan =>
        (h chan hchan).imp fun _ hredirect => ⟨hredirect, trivial⟩
      refine (Lookup.answers_forM heach).bind fun _ _ =>
        Lookup.answers_pure (Trace.matches_mapChannels fun chan hchan => ?_)
      obtain ⟨chan', hredirect⟩ := h chan hchan
      rw [hredirect, Lookup.getD_ok]
    exact hanswers

variable {formals : List NameId} {actuals : List ExprId}

/-- The pairing of a place enters the argument there for the formal there. -/
theorem get?_ofList_zip {i : Nat} (hformal : formals[i]? = some formal)
    (hlast : formal ∉ formals.drop (i + 1)) (hactual : actuals[i]? = some actual) :
    (Ledger.ofList (formals.zip actuals)).get? formal = some actual := by
  have hpair : (formals.zip actuals)[i]? = some (formal, actual) :=
    List.getElem?_zip_eq_some.2 ⟨hformal, hactual⟩
  obtain ⟨hlt, heq⟩ := List.getElem?_eq_some_iff.1 hpair
  rw [← List.take_append_drop i (formals.zip actuals), List.drop_eq_getElem_cons hlt, heq]
  refine Ledger.get?_ofList_of_last fun hmem => hlast ?_
  obtain ⟨later, hlater, rfl⟩ := List.mem_map.1 hmem
  rw [List.zip, List.drop_zipWith] at hlater
  exact (List.of_mem_zip hlater).1

theorem positional_of_redirect
    (h : redirect program (Ledger.ofList (formals.zip actuals)) chan = .ok chan') :
    Positional program formals actuals chan chan' where
  formal _ _ _ hformal hlast hactual hroot :=
    puts_of_redirect hroot (get?_ofList_zip hformal hlast hactual) h
  other hnone := redirect_eq_self (fun formal _ hget hroot =>
    absurd hroot (hnone formal (List.of_mem_zip (Ledger.mem_of_get?_ofList hget)).1)) h

/-- Without bindings there is no place to look at. -/
theorem positional_refl (hempty : (Ledger.ofList (formals.zip actuals)).isEmpty = true)
    (chan : ChanRef) : Positional program formals actuals chan chan where
  formal _ _ _ hformal hlast hactual _ := by
    have hget := get?_ofList_zip hformal hlast hactual
    rw [Ledger.get?, List.isEmpty_iff.1 hempty] at hget
    cases hget
  other _ := rfl

variable {callee : DeclId} {decl : Decl} {args : List Arg} {t t' : Trace}

/-- The arguments that are written, in order. -/
def visibleActuals (args : List Arg) : List ExprId := (args.filter (!·.hidden)).map (·.expr)

/-- The names arguments are written for, in order. -/
def visibleFormals (decl : Decl) : List NameId := decl.visibleParams.map (·.name)

theorem forCall_eq (hdecl : program.decl callee = .ok decl) : forCall program callee args =
    .ok (if (visibleFormals decl).length = (visibleActuals args).length then
      .ok (Ledger.ofList ((visibleFormals decl).zip (visibleActuals args)))
      else .error ⟨(visibleFormals decl).length, (visibleActuals args).length⟩) := by
  rw [forCall, hdecl]
  rfl

/-- An instance is formed where as many arguments are written as there are visible formals. It
gives a trace of the form of the callee, each reference replaced by the argument in the place of
the formal it names, and the callee's own trace if every formal is its own argument. -/
theorem instance_by_position (hdecl : program.decl callee = .ok decl) (args : List Arg) :
    ((∃ bindings, forCall program callee args = .ok (.ok bindings)) ↔
      (visibleFormals decl).length = (visibleActuals args).length) ∧
    ∀ bindings, forCall program callee args = .ok (.ok bindings) →
      (program.InOrder → (∀ actual ∈ visibleActuals args, program.InExprs actual) →
        ∀ t : Trace, t.InRange program → ∃ t', bindings.apply program t = .ok t') ∧
      ∀ t t', bindings.apply program t = .ok t' →
        t.Matches (Positional program (visibleFormals decl) (visibleActuals args)) t' ∧
        List.Forall₂ (Positional program (visibleFormals decl) (visibleActuals args))
          t.channels t'.channels ∧
        ((∀ place ∈ (visibleFormals decl).zip (visibleActuals args),
          program.resolveName place.2 = .ok (some place.1)) → t' = t) := by
  rw [forCall_eq hdecl]
  by_cases hlength : (visibleFormals decl).length = (visibleActuals args).length
  case neg => simp [hlength]
  case pos =>
    rw [if_pos hlength]
    refine ⟨iff_of_true ⟨_, rfl⟩ hlength, fun bindings hbindings => ?_⟩
    obtain rfl := Except.ok.inj (Except.ok.inj hbindings)
    constructor
    · intro horder hactuals t ht
      have hrange : InRange program
          (Ledger.ofList ((visibleFormals decl).zip (visibleActuals args))) :=
        fun formal actual hget =>
          hactuals actual (List.of_mem_zip (Ledger.mem_of_get?_ofList hget)).2
      obtain ⟨t', happly, -⟩ := answers_apply horder hrange ht
      exact ⟨t', happly⟩
    · intro t t' happly
      have hmatches := matches_apply (fun _ _ => positional_of_redirect) positional_refl happly
      refine ⟨hmatches, hmatches.channels, fun hself => ?_⟩
      have hsame : t.Matches (fun c d => d = c) t' :=
        matches_apply (fun chan chan' => redirect_eq_self fun formal actual hget _ =>
          hself _ (Ledger.mem_of_get?_ofList hget)) (fun _ _ => rfl) happly
      exact hsame.eq fun _ _ heq => heq

/-- A procedure with a hidden parameter before each of its two channels. It reads from an element
of an array of lines, and passes on to its own output. -/
def relay : Program where
  name := "relay"
  names := #[⟨"size", .param ⟨0⟩ 0 true, {}⟩, ⟨"source", .param ⟨0⟩ 1 false, {}⟩,
    ⟨"width", .param ⟨0⟩ 2 true, {}⟩, ⟨"sink", .param ⟨0⟩ 3 false, {}⟩, ⟨"lines", .channel, {}⟩]
  exprs := #[⟨.name ⟨1⟩, {}⟩, ⟨.name ⟨3⟩, {}⟩, ⟨.decorated ⟨3⟩ .paren, {}⟩,
    ⟨.subscript ⟨4⟩ ⟨5⟩, {}⟩, ⟨.name ⟨4⟩, {}⟩, ⟨.int 3, {}⟩, ⟨.name ⟨0⟩, {}⟩]
  decls := #[
    { name := "relay", params := [⟨⟨0⟩, false, true⟩, ⟨⟨1⟩, true, false⟩, ⟨⟨2⟩, false, true⟩,
        ⟨⟨3⟩, true, false⟩] }]

def relayArgs : List Arg := [⟨⟨2⟩, false⟩, ⟨⟨5⟩, true⟩, ⟨⟨1⟩, false⟩]

/-- Reads, and writes on a channel and on an element of it, again and again. -/
def relayTrace : Trace :=
  .fix ⟨⟨0⟩, .loop ⟨0⟩⟩ (.comp .seq [.event .input ⟨⟨0⟩, none⟩, .event .output ⟨⟨1⟩, none⟩,
    .event .output ⟨⟨0⟩, some ⟨5⟩⟩, .event .input ⟨⟨6⟩, none⟩, .ref ⟨0⟩])

theorem relay_inOrder : relay.InOrder := by
  refine Program.inOrder_of_ascending ⟨by decide, by decide, by decide, by decide, by decide,
    by decide, by decide, by decide⟩ (by decide) (by decide) fun node callee args decl hnode _ => ?_
  obtain ⟨written, hmem, -⟩ := Program.mem_of_hasNode hnode
  simp [relay] at hmem

theorem relayTrace_inRange : relayTrace.InRange relay := by
  have hrange : ∀ chan ∈ relayTrace.channels,
      relay.InExprs chan.root ∧ ∀ id ∈ chan.index, relay.InExprs id := by decide
  exact fun chan hchan => ⟨(hrange chan hchan).1, (hrange chan hchan).2⟩

theorem relayTrace_placed : ∃ bindings t',
    forCall relay ⟨0⟩ relayArgs = .ok (.ok bindings) ∧
    bindings.apply relay relayTrace = .ok t' ∧
    relayTrace.Matches (Positional relay [⟨1⟩, ⟨3⟩] [⟨2⟩, ⟨1⟩]) t' ∧
    t'.channels = [⟨⟨4⟩, some ⟨5⟩⟩, ⟨⟨1⟩, none⟩, ⟨⟨3⟩, some ⟨5⟩⟩, ⟨⟨6⟩, none⟩] := by
  obtain ⟨hforms, hplaces⟩ :=
    instance_by_position (show relay.decl ⟨0⟩ = .ok _ from rfl) relayArgs
  obtain ⟨bindings, hcall⟩ := hforms.2 rfl
  obtain ⟨hreturns, hfits⟩ := hplaces bindings hcall
  obtain ⟨t', happly⟩ := hreturns relay_inOrder (by decide) relayTrace relayTrace_inRange
  refine ⟨bindings, t', hcall, happly, (hfits _ _ happly).1, ?_⟩
  obtain rfl := Except.ok.inj (Except.ok.inj hcall)
  obtain rfl := Except.ok.inj happly
  rfl

end Substitution

end ProcessContracts
