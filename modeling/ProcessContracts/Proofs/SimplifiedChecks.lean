import Mathlib
import ProcessContracts.Proofs.Channels
import ProcessContracts.Proofs.Keys
import ProcessContracts.Proofs.NormalForms
import ProcessContracts.Proofs.PairedWalks

/-!
# Checks that simplify and checks that do not

What callers see of a trace is simplified in any case, and it is the same whether or not the trace
was simplified before its channels are hidden. So the option decides about the trace that a check
returns and about nothing else.
-/

namespace ProcessContracts

open Trace

variable {program : Program} {setting : Setting} {session : Session}

/-- The same setting with finished traces simplified or left as they are composed. -/
def Setting.simplifying (setting : Setting) (simplify : Bool) : Setting :=
  { setting with options := { setting.options with simplify } }

/-! ## Channels that resolve -/

theorem Program.exists_resolveName {id target : ExprId} (h : program.strip id = .ok target) :
    ∃ found, program.resolveName target = .ok found := by
  obtain ⟨expr, hexpr, -⟩ := Lookup.bind_eq_ok.1 (strip_strip h)
  cases expr <;>
    exact ⟨_, Lookup.bind_eq_ok.2
      ⟨target, strip_strip h, Lookup.bind_eq_ok.2 ⟨_, hexpr, rfl⟩⟩⟩

/-- The root of the reference denotes a name or nothing. -/
def ChanRef.Resolves (program : Program) (chan : ChanRef) : Prop :=
  ∃ found, program.resolveName chan.root = .ok found

theorem ChanRef.resolves_ofExpr {id : ExprId} {chan : ChanRef}
    (h : ChanRef.ofExpr program id = .ok chan) : chan.Resolves program := by
  obtain ⟨target, hstrip, h⟩ := Lookup.bind_eq_ok.1 h
  obtain ⟨expr, -, h⟩ := Lookup.bind_eq_ok.1 h
  split at h
  case h_1 base index =>
    obtain ⟨root, hroot, h⟩ := Lookup.bind_eq_ok.1 h
    obtain rfl := Except.ok.inj h
    exact Program.exists_resolveName hroot
  case h_2 =>
    obtain rfl := Except.ok.inj h
    exact Program.exists_resolveName hstrip

/-- A reference is left alone, or replaced by one that resolves. -/
theorem Substitution.redirect_resolves {bindings : Substitution} {chan chan' : ChanRef}
    (h : redirect program bindings chan = .ok chan') : chan' = chan ∨ chan'.Resolves program := by
  obtain ⟨found, -, h⟩ := Lookup.bind_eq_ok.1 h
  split at h
  case h_1 => exact .inl (Except.ok.inj h).symm
  case h_2 =>
    split at h
    case h_1 => exact .inl (Except.ok.inj h).symm
    case h_2 actual _ =>
      obtain ⟨inner, hinner, h⟩ := Lookup.bind_eq_ok.1 h
      obtain ⟨known, hknown, h⟩ := Lookup.bind_eq_ok.1 h
      split at h
      case isTrue => exact .inl (Except.ok.inj h).symm
      case isFalse =>
        obtain ⟨expr, -, h⟩ := Lookup.bind_eq_ok.1 h
        split at h
        case h_1 base own _ =>
          obtain ⟨root, hroot, h⟩ := Lookup.bind_eq_ok.1 h
          obtain rfl := Except.ok.inj h
          exact .inr (Program.exists_resolveName hroot)
        case h_2 =>
          obtain rfl := Except.ok.inj h
          exact .inr ⟨known, hknown⟩

namespace Contract

variable {decl : DeclId}

/-- The channels of a contract are those of its expressions. -/
theorem Lowered.resolves {binders : Binders} {supply last : AtomSupply} {c : Contract} {t : Trace}
    (h : Lowered program decl binders supply c t last) :
    ∀ chan ∈ t.channels, chan.Resolves program := by
  induction h with
  | event _ hchan => exact List.forall_mem_singleton.2 (ChanRef.resolves_ofExpr hchan)
  | cons _ _ ihhead ihtail => exact List.forall_mem_append.2 ⟨ihhead, ihtail⟩
  | recursion _ _ ih => exact ih
  | _ => exact fun chan hchan => by cases hchan

end Contract

/-- A trace of the session is about a channel whose root meets the fault. -/
def Session.Strays (program : Program) (session : Session) (fault : Fault) : Prop :=
  ∃ callee traces, session.store.get? callee = some traces ∧ ∃ t ∈ traces.alternatives,
    ∃ chan ∈ t.channels, program.resolveName chan.root = .error fault

/-- What does not resolve comes from the session. -/
def Trace.Familiar (program : Program) (session : Session) (t : Trace) : Prop :=
  ∀ chan ∈ t.channels, ∀ fault, program.resolveName chan.root = .error fault →
    session.Strays program fault

namespace Trace.Familiar

variable {t u : Trace}

theorem of_resolves (h : ∀ chan ∈ t.channels, chan.Resolves program) : t.Familiar program session :=
  fun chan hchan fault hfault => by
    obtain ⟨found, hfound⟩ := h chan hchan
    cases hfound.symm.trans hfault

theorem of_subset (h : t.Familiar program session) (hsub : u.channels ⊆ t.channels) :
    u.Familiar program session := fun chan hchan => h chan (hsub hchan)

theorem of_channels_eq_nil (h : t.channels = []) : t.Familiar program session :=
  of_resolves fun chan hchan => by
    rw [h] at hchan
    cases hchan

theorem apply {bindings : Substitution} (happly : bindings.apply program t = .ok u)
    (h : t.Familiar program session) : u.Familiar program session := by
  obtain rfl | ⟨hanswered, rfl⟩ := Substitution.cases_of_apply happly
  · exact h
  · intro chan hchan fault hfault
    rw [channels_mapChannels] at hchan
    obtain ⟨old, hold, rfl⟩ := List.mem_map.1 hchan
    obtain ⟨new, hnew⟩ := hanswered old hold
    rw [hnew, Lookup.getD_ok] at hfault
    rcases Substitution.redirect_resolves hnew with rfl | ⟨found, hfound⟩
    · exact h _ hold fault hfault
    · cases hfound.symm.trans hfault

end Trace.Familiar

namespace Walk

open Invariant

/-- The invariant that what does not resolve comes from the session. -/
def familiarity (setting : Setting) (session : Session) : Invariant setting where
  Holds _ store _ _ := ∀ callee traces, store.get? callee = some traces →
    ∀ t ∈ traces.alternatives, t.Familiar setting.program session
  Fits _ _ t := t.Familiar setting.program session
  May _ _ _ := True
  later _ _ ht := ht
  skip := .of_channels_eq_nil rfl
  stop := .of_channels_eq_nil rfl
  div := .of_channels_eq_nil rfl
  unresolved _ := .of_channels_eq_nil rfl
  event _ h := .of_resolves (List.forall_mem_singleton.2 (ChanRef.resolves_ofExpr h))
  comp _ hts := fun chan hchan => by
    obtain ⟨t, ht, hchan⟩ := mem_channels_comp.1 hchan
    exact hts t ht chan hchan
  loop _ _ _ ht := fun chan hchan => ht chan (by simpa [channels] using hchan)
  replication _ _ _ ht := fun chan hchan => ht chan (by simpa [channels] using hchan)
  ref _ _ := .of_channels_eq_nil rfl
  bind {n store history scope frames t} _ ht := by
    cases scope.recursionAtom with
    | none => exact ht
    | some atom => exact ht
  simplify ht := ht.of_subset (channels_simplify_subset _)
  hide keep ht := ht.of_subset (channels_hide_subset keep _)
  instantiate _ happly ht := ht.apply happly
  lowered _ _ _ hrun := .of_resolves (Contract.lowered_of_lower hrun).resolves
  stored hholds hget ht := hholds _ _ hget _ ht
  mint _ hholds := hholds
  enter _ hholds := hholds
  leave hholds := hholds
  fold _ hholds := hholds
  judge hholds _ := hholds
  attach hholds ht _ := TraceStore.forall_insert hholds ht _
  child _ _ _ := trivial
  body _ _ _ _ _ := trivial

/-- The check is given up over a channel of a trace of the session. -/
def Stray (program : Program) (session : Session) (abort : Abort) : Prop :=
  ∃ fault, abort = .fault fault ∧ session.Strays program fault

/-- Callers see the same of a trace and of the simplified trace. The only other thing that can
happen is that a channel does not resolve that simplifying drops. -/
theorem presents_simplified (session : Session)
    (hproject : setting.options.projectInterface = true) :
    Presents (familiarity (setting.simplifying false) session) (Stray setting.program session)
      ((setting.simplifying false).tuned true setting.options.fragmentPolicy) := by
  intro n frames t interface ht
  let query := ChanRef.isAmong setting.program interface
  have hraw : project (setting.simplifying false) interface (finish (setting.simplifying false) t) =
      t.hideUnless query >>= fun u => pure u.simplify := if_pos hproject
  have hsimplified : project ((setting.simplifying false).tuned true setting.options.fragmentPolicy)
      interface (finish ((setting.simplifying false).tuned true setting.options.fragmentPolicy) t) =
        t.simplify.hideUnless query >>= fun u => pure u.simplify := if_pos hproject
  rw [hraw, hsimplified]
  unfold hideUnless
  cases hasked : t.channels.forM fun chan => discard (query chan) with
  | error fault =>
      refine .inr ⟨fault, rfl, fault, rfl, ?_⟩
      obtain ⟨chan, hchan, hfault⟩ := Lookup.exists_error_of_forM hasked
      rcases Lookup.bind_eq_error.1 hfault with hfault | ⟨_, -, hfault⟩
      · exact ht chan hchan fault hfault
      · cases hfault
  | ok u =>
      have hanswered := Lookup.answered_of_forM hasked
      obtain ⟨_, hless, -⟩ := Lookup.answers_forM fun chan hchan => by
        obtain ⟨b, hb⟩ := hanswered chan (channels_simplify_subset t hchan)
        exact (⟨b, hb, trivial⟩ : Lookup.Answers (query chan) fun _ => True)
      rw [hless]
      exact .inl (congrArg Except.ok ((reshapes_hide _).simplify_simplify t))

end Walk

open Walk Invariant

/-- Whether finished traces are simplified makes no difference to a check that hides what is not in
the interface: both checks leave the same session behind, with the same diagnostics or the same
failure, and return the same but for the simplification of what was walked. Only where a trace of
the session is about a channel that does not resolve can the check that simplifies pass over it. -/
theorem check_simplifying (setting : Setting) (unit : ProgramUnit) (session : Session)
    (hproject : setting.options.projectInterface = true) :
    match check (setting.simplifying false) unit session with
    | (.ok raw, last) => ∃ traces,
        check (setting.simplifying true) unit session = (.ok ⟨traces, raw.diagnostics⟩, last) ∧
        (unit.IsWalked setting.program → traces = raw.traces.map simplify) ∧
        (¬ unit.IsWalked setting.program → traces = raw.traces)
    | (.error abort, last) =>
        check (setting.simplifying true) unit session = (.error abort, last) ∨
          ∃ fault, abort = .fault fault ∧ session.Strays setting.program fault := by
  have hholds : (familiarity (setting.simplifying false) session).Holds session.supply.minted
      session.store session.history [] := fun callee traces hget t ht chan hchan fault hfault =>
    ⟨callee, traces, hget, t, ht, chan, hchan, hfault⟩
  have hbegins : (familiarity (setting.simplifying false) session).Begins unit :=
    Walk.Invariant.begins_of_may (fun _ _ => trivial) unit
  have hpresents := presents_simplified session hproject
  have hsame := checkWith_inStep (inStep_checkUnit (agrees_walkWithin hpresents _) hpresents hholds
    hbegins)
  change match check (setting.simplifying false) unit session with
    | (.ok outcome, last) => ∃ traces, check (setting.simplifying true) unit session =
        (.ok ⟨traces, outcome.diagnostics⟩, last) ∧ _
    | (.error abort, last) => _ ∨ check (setting.simplifying true) unit session =
        (.error abort, last) at hsame
  generalize check (setting.simplifying false) unit session = result at hsame ⊢
  obtain ⟨answer, last⟩ := result
  cases answer with
  | error abort => exact hsame.symm
  | ok raw =>
      obtain ⟨traces, hcheck, hwalked, hother⟩ := hsame
      refine ⟨traces, hcheck, fun h => ?_, hother⟩
      obtain ⟨t, hraw, rfl⟩ := hwalked h
      rw [hraw]
      rfl

/-- A routine known by its contract, a stub that nothing is known about, and a user of it. -/
def library : Program where
  name := "library"
  nodes := #[⟨.call ⟨2⟩ [], {}⟩]
  decls := #[{ name := "library_routine", contract := some ⟨.comp .seq [.skip, .skip], {}⟩ },
    { name := "user", body := some ⟨0⟩ }, { name := "stub" }]

/-- A session in which the stub stands for some trace. -/
def stubbed (t : Trace) : Session where
  store := Ledger.insert {} ⟨2⟩ (.single t)

/-- The user of a stub that stops. -/
theorem user_simplified :
    ({ program := library } : Setting).options.projectInterface = true ∧ ∃ last,
    check (Setting.simplifying { program := library } false) (.proc ⟨1⟩)
      (stubbed (.comp .seq [.skip, .stop, .skip])) =
        (.ok ⟨.single (.comp .seq [.skip, .stop, .skip]), []⟩, last) ∧
    check (Setting.simplifying { program := library } true) (.proc ⟨1⟩)
      (stubbed (.comp .seq [.skip, .stop, .skip])) = (.ok ⟨.single .stop, []⟩, last) := by
  have hraw : (check (Setting.simplifying { program := library } false) (.proc ⟨1⟩)
      (stubbed (.comp .seq [.skip, .stop, .skip]))).1 =
        .ok ⟨.single (.comp .seq [.skip, .stop, .skip]), []⟩ := by cbv
  have hsame := check_simplifying { program := library } (.proc ⟨1⟩)
    (stubbed (.comp .seq [.skip, .stop, .skip])) rfl
  generalize check (Setting.simplifying { program := library } false) _ _ = result at hraw hsame ⊢
  obtain ⟨answer, last⟩ := result
  dsimp only at hraw
  subst hraw
  obtain ⟨traces, hsimplified, hwalked, -⟩ := hsame
  refine ⟨rfl, last, rfl, ?_⟩
  rw [hsimplified, hwalked ⟨_, rfl, rfl⟩]
  rfl

/-- A contract that stands for its procedure is returned as it is written, and the check that does
not simplify can be stopped by a channel the program does not have. -/
theorem library_unsimplified :
    ((check (Setting.simplifying { program := library } true) (.proc ⟨0⟩) {}).1 =
        .ok ⟨.single (.comp .seq [.skip, .skip]), []⟩ ∧
      (check (Setting.simplifying { program := library } false) (.proc ⟨0⟩) {}).1 =
        .ok ⟨.single (.comp .seq [.skip, .skip]), []⟩ ∧
      (TraceSet.single (.comp .seq [.skip, .skip])).map simplify ≠
        .single (.comp .seq [.skip, .skip])) ∧
    (check (Setting.simplifying { program := library } true) (.proc ⟨1⟩)
        (stubbed (.comp .seq [.stop, .event .output ⟨⟨7⟩, none⟩]))).1 = .ok ⟨.single .stop, []⟩ ∧
      (check (Setting.simplifying { program := library } false) (.proc ⟨1⟩)
        (stubbed (.comp .seq [.stop, .event .output ⟨⟨7⟩, none⟩]))).1 =
          .error (.fault (.missingExpr ⟨7⟩)) := by
  have hsimple : (TraceSet.single (.comp .seq [.skip, .skip])).map simplify = .single .skip := rfl
  refine ⟨⟨by cbv, by cbv, ?_⟩, by cbv, by cbv⟩
  rw [hsimple]
  intro h
  cases h

end ProcessContracts
