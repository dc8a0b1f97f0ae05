import ProcessContracts.Proofs.PositionalInstances
import ProcessContracts.Proofs.Realization

/-!
# Instances that may be folded

An instance of a procedure in progress is folded onto the procedure's own atom. What the instance
does is the procedure's trace with its arguments put in, and then the arguments of every instance
that was entered since, from the innermost outwards. The test of the channels follows a name through
the same arguments. Where it finds no channel altered, each reference to a channel of the procedure
ends up with the key it began with.
-/

namespace ProcessContracts

namespace Substitution

variable {program : Program} {bindings : Substitution} {name origin : NameId} {chan : ChanRef}

/-- A reference whose root is a name follows the argument of the name, if that denotes a name as
well, and keeps its subscript. -/
theorem exists_redirect (hroot : program.resolveName chan.root = .ok (some name))
    (hnext : program.resolveName ((bindings.get? name).getD chan.root) = .ok (some origin)) :
    ∃ chan', redirect program bindings chan = .ok chan' ∧
      program.resolveName chan'.root = .ok (some origin) ∧ chan'.index = chan.index := by
  unfold redirect
  rw [hroot]
  cases hget : bindings.get? name with
  | none =>
      rw [hget] at hnext
      exact ⟨chan, by simp [hget, bind, Except.bind, pure, Except.pure], hnext, rfl⟩
  | some actual =>
      rw [hget, Option.getD_some] at hnext
      obtain ⟨core, hcore, hexpr⟩ := Lookup.bind_eq_ok.1 hnext
      have hknown : program.resolveName core = .ok (some origin) :=
        (Program.resolveName_strip hcore).trans hnext
      by_cases hself : origin = name
      · refine ⟨chan, ?_, hself ▸ hroot, rfl⟩
        simp [hget, hcore, hknown, hself, bind, Except.bind, pure, Except.pure]
      · refine ⟨⟨core, chan.index⟩, ?_, hknown, rfl⟩
        obtain ⟨entry, hentry, hname⟩ := Lookup.bind_eq_ok.1 hexpr
        obtain rfl : entry = .name origin := by
          cases entry with
          | name other => rw [Option.some.inj (Except.ok.inj hname)]
          | _ => cases Except.ok.inj hname
        simp [hget, hcore, hknown, hself, target, hentry, bind, Except.bind, pure, Except.pure]

end Substitution

namespace Walk

open ChannelKey Substitution

variable {program : Program} {setting : Setting} {visit : NodeId → Walk Unit} {scope : Scope}
  {inner outer : List Scope} {own : Scope} {callee : DeclId} {bindings : Substitution}
  {name formal : NameId} {actual e e' : ExprId} {chan chan' : ChanRef} {t : Trace}

/-- The trace with the arguments of the instances that opened the `entered` scopes put in, from the
innermost outwards. A scope that no instance opened has no arguments. -/
def putBack (program : Program) : List Scope → Trace → Lookup Trace
  | [], t => pure t
  | scope :: entered, t => do
      putBack program entered (← (scope.entry.getD {}).apply program t)

/-- The name an expression stands for, once traced back. -/
def originOf (program : Program) (entered : List Scope) (e : ExprId) : Lookup (Option NameId) := do
  program.resolveName (← tracedBack program entered e)

theorem originOf_cons : originOf program (scope :: inner) e = program.resolveName e >>=
    fun formal => originOf program inner ((formal.bind scope.argument?).getD e) := by
  simp only [originOf, tracedBack, bind_assoc]

/-- Only the name an expression denotes is traced back. -/
theorem originOf_congr (h : program.resolveName e = program.resolveName e') :
    originOf program inner e = originOf program inner e' := by
  induction inner generalizing e e' with
  | nil => exact h
  | cons scope inner ih =>
      rw [originOf_cons, originOf_cons, h]
      refine bind_congr fun formal => ?_
      cases formal.bind scope.argument? with
      | none => exact ih h
      | some actual => rfl

/-- What is traced back to a name denotes a name. -/
theorem exists_name_of_originOf (h : originOf program inner e = .ok (some formal)) :
    ∃ name, program.resolveName e = .ok (some name) := by
  induction inner generalizing e with
  | nil => exact ⟨formal, h⟩
  | cons scope inner ih =>
      rw [originOf_cons] at h
      obtain ⟨found, hfound, h⟩ := Lookup.bind_eq_ok.1 h
      cases found with
      | none => exact ih h
      | some name => exact ⟨name, hfound⟩

/-- The argument of a name goes on from where its scope was opened. -/
theorem originOf_entered (h : originOf program (scope :: inner) e = .ok (some formal)) :
    ∃ name, program.resolveName e = .ok (some name) ∧
      originOf program inner (((scope.entry.getD {}).get? name).getD e) = .ok (some formal) := by
  obtain ⟨name, hname⟩ := exists_name_of_originOf h
  have hargument : (some name).bind scope.argument? = (scope.entry.getD {}).get? name := by
    rw [Option.bind_some, Scope.argument?]
    cases scope.entry with
    | none => rfl
    | some bindings => rfl
  rw [originOf_cons, hname] at h
  exact ⟨name, hname, hargument ▸ h⟩

/-! ## Putting arguments in -/

/-- Putting the arguments of one instance in leaves the rest of the way back. -/
theorem exists_apply_back (h : ∀ chan ∈ t.channels, ∃ name formal,
      program.resolveName chan.root = .ok (some name) ∧
        originOf program inner ((bindings.get? name).getD chan.root) = .ok (some formal)) :
    ∃ u, bindings.apply program t = .ok u ∧ t.Matches (fun c d => ∀ name formal,
      program.resolveName c.root = .ok (some name) →
        originOf program inner ((bindings.get? name).getD c.root) = .ok (some formal) →
          originOf program inner d.root = .ok (some formal) ∧ d.index = c.index) u := by
  have hstep : ∀ chan name formal, program.resolveName chan.root = .ok (some name) →
      originOf program inner ((bindings.get? name).getD chan.root) = .ok (some formal) →
        ∃ chan', redirect program bindings chan = .ok chan' ∧
          originOf program inner chan'.root = .ok (some formal) ∧ chan'.index = chan.index := by
    intro chan name formal hroot horigin
    obtain ⟨next, hnext⟩ := exists_name_of_originOf horigin
    obtain ⟨chan', hredirect, hroot', hindex⟩ := exists_redirect hroot hnext
    exact ⟨chan', hredirect, (originOf_congr (hroot'.trans hnext.symm)).trans horigin, hindex⟩
  have hroots : ∀ chan ∈ t.channels, ∃ chan', redirect program bindings chan = .ok chan' :=
    fun chan hchan => by
      obtain ⟨name, formal, hroot, horigin⟩ := h chan hchan
      obtain ⟨chan', hredirect, -⟩ := hstep chan name formal hroot horigin
      exact ⟨chan', hredirect⟩
  obtain ⟨u, happly, hmatches⟩ := exists_apply hroots
  refine ⟨u, happly, hmatches.imp fun c _ d hredirect name formal hroot horigin => ?_⟩
  obtain ⟨d', hredirect', hd⟩ := hstep c name formal hroot horigin
  obtain rfl := Except.ok.inj (hredirect.symm.trans hredirect')
  exact hd

/-- The arguments of the entered scopes lead every reference back to its origin. -/
theorem exists_putBack (h : ∀ chan ∈ t.channels, ∃ formal,
      originOf program inner chan.root = .ok (some formal)) :
    ∃ u, putBack program inner t = .ok u ∧ t.Matches (fun c d => ∀ formal,
      originOf program inner c.root = .ok (some formal) →
        program.resolveName d.root = .ok (some formal) ∧ d.index = c.index) u := by
  induction inner generalizing t with
  | nil => exact ⟨t, rfl, .refl fun chan _ formal hformal => ⟨hformal, rfl⟩⟩
  | cons scope inner ih =>
      have hentered : ∀ chan ∈ t.channels, ∃ name formal,
          program.resolveName chan.root = .ok (some name) ∧ originOf program inner
            (((scope.entry.getD {}).get? name).getD chan.root) = .ok (some formal) :=
        fun chan hchan => by
          obtain ⟨formal, hformal⟩ := h chan hchan
          obtain ⟨name, hname, horigin⟩ := originOf_entered hformal
          exact ⟨name, formal, hname, horigin⟩
      obtain ⟨mid, hmid, hmatches⟩ := exists_apply_back hentered
      have hroots : ∀ chan ∈ mid.channels, ∃ formal,
          originOf program inner chan.root = .ok (some formal) := fun d hd => by
        obtain ⟨c, hc, hcd⟩ := exists_related_of_mem hmatches.channels.flip hd
        obtain ⟨formal, hformal⟩ := h c hc
        obtain ⟨name, hname, horigin⟩ := originOf_entered hformal
        exact ⟨formal, (hcd name formal hname horigin).1⟩
      obtain ⟨u, hu, hrest⟩ := ih hroots
      refine ⟨u, Lookup.bind_eq_ok.2 ⟨mid, hmid, hu⟩, hmatches.trans hrest ?_⟩
      intro c d e hd he formal hformal
      obtain ⟨name, hname, horigin⟩ := originOf_entered hformal
      obtain ⟨horigin, hindex⟩ := hd name formal hname horigin
      obtain ⟨hroot, hindex'⟩ := he formal horigin
      exact ⟨hroot, hindex'.trans hindex⟩

/-! ## Instances that are folded -/

/-- Where no channel is altered, each is passed through. -/
theorem origin_of_alteredChannels {params : List Param}
    (h : alteredChannels program inner bindings params = .ok []) :
    ∀ param ∈ params, ∃ actual, bindings.get? param.name = some actual ∧
      originOf program inner actual = .ok (some param.name) := by
  induction params with
  | nil => simp
  | cons param params ih =>
      rw [alteredChannels_cons] at h
      obtain ⟨kept, hkept, h⟩ := Lookup.bind_eq_ok.1 h
      obtain ⟨rest, hrest, h⟩ := Lookup.bind_eq_ok.1 h
      have hnone := Except.ok.inj h
      cases kept with
      | false => cases hnone
      | true =>
          obtain rfl : rest = [] := hnone
          refine List.forall_mem_cons.2 ⟨?_, ih hrest⟩
          unfold passes at hkept
          split at hkept
          case h_2 => cases hkept
          case h_1 actual hget =>
            obtain ⟨origin, horigin, hkept⟩ := Lookup.bind_eq_ok.1 hkept
            obtain ⟨found, hfound, hkept⟩ := Lookup.bind_eq_ok.1 hkept
            refine ⟨actual, hget, Lookup.bind_eq_ok.2 ⟨origin, horigin, ?_⟩⟩
            rw [hfound, of_decide_eq_true (Except.ok.inj hkept)]

/-- Two references of one meaning. -/
def SameKey (program : Program) (chan chan' : ChanRef) : Prop :=
  resolve program chan' = resolve program chan

theorem sameKey_of_resolveName (hroot : program.resolveName chan.root = .ok (some formal))
    (hroot' : program.resolveName chan'.root = .ok (some formal))
    (hindex : chan'.index = chan.index) : SameKey program chan chan' := by
  simp only [SameKey, resolve, resolveRoot, hroot, hroot', hindex]
  rfl

/-- Putting the arguments of an instance in that alters no channel, and then those of the entered
scopes, gives every reference to one of the channels its own key back. -/
theorem exists_unaltered {params : List Param}
    (haltered : alteredChannels program inner bindings params = .ok [])
    (ht : ∀ chan ∈ t.channels, ∃ param ∈ params,
      program.resolveName chan.root = .ok (some param.name)) :
    ∃ u, (bindings.apply program t >>= putBack program inner) = .ok u ∧
      t.Matches (SameKey program) u := by
  have hformals : ∀ chan ∈ t.channels, ∃ formal,
      program.resolveName chan.root = .ok (some formal) ∧
        originOf program inner ((bindings.get? formal).getD chan.root) = .ok (some formal) :=
    fun chan hchan => by
      obtain ⟨param, hparam, hroot⟩ := ht chan hchan
      obtain ⟨actual, hget, horigin⟩ := origin_of_alteredChannels haltered param hparam
      refine ⟨param.name, hroot, ?_⟩
      rw [hget]
      exact horigin
  obtain ⟨mid, hmid, hmatches⟩ := exists_apply_back fun chan hchan => by
    obtain ⟨formal, hroot, horigin⟩ := hformals chan hchan
    exact ⟨formal, formal, hroot, horigin⟩
  obtain ⟨u, hu, hrest⟩ := exists_putBack (t := mid) fun d hd => by
    obtain ⟨c, hc, hcd⟩ := exists_related_of_mem hmatches.channels.flip hd
    obtain ⟨formal, hroot, horigin⟩ := hformals c hc
    exact ⟨formal, (hcd formal formal hroot horigin).1⟩
  refine ⟨u, Lookup.bind_eq_ok.2 ⟨mid, hmid, hu⟩, ?_⟩
  have hboth : t.Matches (fun c d => ∀ formal, program.resolveName c.root = .ok (some formal) →
      originOf program inner ((bindings.get? formal).getD c.root) = .ok (some formal) →
        SameKey program c d) u := by
    refine hmatches.trans hrest fun c d e hd he formal hroot horigin => ?_
    obtain ⟨horigin', hindex⟩ := hd formal formal hroot horigin
    obtain ⟨hroot', hindex'⟩ := he formal horigin'
    exact sameKey_of_resolveName hroot hroot' (hindex'.trans hindex)
  refine hboth.imp fun c hc d hd => ?_
  obtain ⟨formal, hroot, horigin⟩ := hformals c hc
  exact hd formal hroot horigin

/-- Adding a fragment is not an event. -/
theorem history_emit {node : NodeId} {fragment : Trace} {s s' : WalkState}
    (h : (emit node fragment).run s = .ok () s') : s'.history = s.history := by
  obtain ⟨supply, store, history, scopes, diagnostics⟩ := s
  match scopes with
  | [] => cases h
  | ⟨_, _, [], _, _, _, _⟩ :: _ => cases h
  | ⟨_, _, _ :: _, _, _, _, _⟩ :: _ =>
      cases h
      rfl

theorem splitAt_append (hown : own.decl? = some callee)
    (hinner : ∀ scope ∈ inner, scope.decl? ≠ some callee) :
    splitAt callee (inner ++ own :: outer) = some (inner, own, outer) := by
  induction inner with
  | nil => rw [List.nil_append, splitAt, if_pos hown]
  | cons scope inner ih =>
      obtain ⟨hscope, hinner⟩ := List.forall_mem_cons.1 hinner
      rw [List.cons_append, splitAt, if_neg hscope, ih hinner]
      rfl

/-- A call of an open procedure is folded onto it. -/
theorem folded_of_call {node : NodeId} {args : List Arg} {s s' : WalkState}
    (h : (call setting visit node callee args).run s = .ok () s')
    (hscopes : s.scopes = inner ++ own :: outer) (hown : own.decl? = some callee)
    (hinner : ∀ scope ∈ inner, scope.decl? ≠ some callee) :
    ∃ decl bindings atom altered, setting.program.decl callee = .ok decl ∧
      pair decl.params args = .ok bindings ∧
      alteredChannels setting.program inner bindings
        (decl.visibleParams.filter (·.isChannel)) = .ok altered ∧
      s'.history = s.history ++ [.folded callee atom altered] := by
  obtain ⟨decl, bindings, hdecl, hpair⟩ := exists_instance_of_call h
  rw [call_run hdecl hpair, hscopes, splitAt_append hown hinner] at h
  obtain ⟨decl', hdecl', h⟩ := liftLookup_bind_eq_ok.1 h
  obtain rfl := Except.ok.inj (hdecl.symm.trans hdecl')
  obtain ⟨altered, haltered, h⟩ := liftLookup_bind_eq_ok.1 h
  obtain ⟨own', -, h⟩ := liftLookup_bind_eq_ok.1 h
  exact ⟨decl, bindings, _, altered, hdecl, hpair, haltered, history_emit h⟩

/-- Folding an instance loses nothing where the check finds no channel altered: the arguments of the
instance and of all instances that were entered since the procedure was opened, put into a trace on
the channels of the procedure, give a trace of the same form on the same channels. -/
theorem folded_instance_unaltered {node : NodeId} {args : List Arg} {s s' : WalkState}
    (h : (call setting visit node callee args).run s = .ok () s')
    (hscopes : s.scopes = inner ++ own :: outer) (hown : own.decl? = some callee)
    (hinner : ∀ scope ∈ inner, scope.decl? ≠ some callee) :
    ∃ decl bindings atom altered, setting.program.decl callee = .ok decl ∧
      forCall setting.program callee args = .ok (.ok bindings) ∧
      alteredChannels setting.program inner bindings
        (decl.visibleParams.filter (·.isChannel)) = .ok altered ∧
      s'.history = s.history ++ [.folded callee atom altered] ∧
      (altered = [] → ∀ t : Trace,
        (∀ chan ∈ t.channels, ∃ param ∈ decl.visibleParams, param.isChannel = true ∧
          setting.program.resolveName chan.root = .ok (some param.name)) →
        ∃ u, (bindings.apply setting.program t >>= putBack setting.program inner) = .ok u ∧
          t.Matches (SameKey setting.program) u) := by
  obtain ⟨decl, bindings, atom, altered, hdecl, hpair, haltered, hhistory⟩ :=
    folded_of_call h hscopes hown hinner
  refine ⟨decl, bindings, atom, altered, hdecl, ?_, haltered, hhistory, ?_⟩
  · rw [forCall, hdecl]
    exact congrArg Except.ok hpair
  · rintro rfl t ht
    refine exists_unaltered haltered fun chan hchan => ?_
    obtain ⟨param, hparam, hchannel, hroot⟩ := ht chan hchan
    exact ⟨param, List.mem_filter.2 ⟨hparam, hchannel⟩, hroot⟩

/-- Two procedures that call each other, each with the two channels in the other order. -/
def duplex : Program where
  name := "duplex"
  names := #[⟨"left", .param ⟨0⟩ 0 false, {}⟩, ⟨"right", .param ⟨0⟩ 1 false, {}⟩,
    ⟨"back", .param ⟨1⟩ 0 false, {}⟩, ⟨"forth", .param ⟨1⟩ 1 false, {}⟩]
  exprs := #[⟨.name ⟨0⟩, {}⟩, ⟨.name ⟨1⟩, {}⟩, ⟨.name ⟨2⟩, {}⟩, ⟨.name ⟨3⟩, {}⟩,
    ⟨.decorated ⟨3⟩ .paren, {}⟩]
  nodes := #[⟨.call ⟨1⟩ [⟨⟨1⟩, false⟩, ⟨⟨0⟩, false⟩], {}⟩,
    ⟨.call ⟨0⟩ [⟨⟨4⟩, false⟩, ⟨⟨2⟩, false⟩], {}⟩]
  decls := #[
    { name := "serve", params := [⟨⟨0⟩, true, false⟩, ⟨⟨1⟩, true, false⟩], body := some ⟨0⟩ },
    { name := "turn", params := [⟨⟨2⟩, true, false⟩, ⟨⟨3⟩, true, false⟩], body := some ⟨1⟩ }]

def duplexArgs : List Arg := [⟨⟨4⟩, false⟩, ⟨⟨2⟩, false⟩]

/-- The second procedure was entered from the first one. -/
def turned : Scope where
  owner := .proc ⟨1⟩
  buckets := [{}]
  entry := some (Ledger.ofList [(⟨2⟩, ⟨1⟩), (⟨3⟩, ⟨0⟩)])

def serving : Scope where
  owner := .proc ⟨0⟩
  buckets := [{}]

theorem duplex_unaltered : ∃ bindings u,
    forCall duplex ⟨0⟩ duplexArgs = .ok (.ok bindings) ∧
    (bindings.apply duplex (.comp .seq [.event .input ⟨⟨0⟩, none⟩, .event .output ⟨⟨1⟩, none⟩]) >>=
      putBack duplex [turned]) = .ok u ∧
    Trace.Matches (SameKey duplex)
      (.comp .seq [.event .input ⟨⟨0⟩, none⟩, .event .output ⟨⟨1⟩, none⟩]) u := by
  obtain ⟨last, hrun⟩ : ∃ last, (call { program := duplex } (walk { program := duplex }) ⟨1⟩ ⟨0⟩
      duplexArgs).run { scopes := [turned, serving] } = .ok () last := ⟨_, rfl⟩
  obtain ⟨decl, bindings, atom, altered, hdecl, hcall, haltered, -, hkept⟩ :=
    folded_instance_unaltered hrun (show _ = [turned] ++ serving :: [] from rfl) rfl (by decide)
  obtain rfl := Except.ok.inj hdecl
  obtain rfl := Except.ok.inj (Except.ok.inj hcall)
  obtain rfl : [] = altered := Except.ok.inj haltered
  obtain ⟨u, hu, hmatches⟩ := hkept rfl
    (.comp .seq [.event .input ⟨⟨0⟩, none⟩, .event .output ⟨⟨1⟩, none⟩]) fun chan hchan => by
      rcases List.mem_cons.1 hchan with rfl | hchan
      · exact ⟨⟨⟨0⟩, true, false⟩, List.mem_cons_self, rfl, rfl⟩
      · obtain rfl := List.mem_singleton.1 hchan
        exact ⟨⟨⟨1⟩, true, false⟩, List.mem_cons_of_mem _ List.mem_cons_self, rfl, rfl⟩
  exact ⟨_, u, hcall, hu, hmatches⟩

end Walk

end ProcessContracts
