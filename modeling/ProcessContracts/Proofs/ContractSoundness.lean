import ProcessContracts.Proofs.Keys
import ProcessContracts.Proofs.OpenScopes
import ProcessContracts.Proofs.Refinement

/-!
# Checked contracts

A procedure whose check raises no alarm keeps its contract. The check compares a trace in which
foreign channels are replaced by `skip`; the contract speaks about the trace that is returned, seen
by an observer of the procedure's own channels.
-/

namespace ProcessContracts

open Trace

variable {program : Program} {names : List NameId}

/-! ## What a procedure shares with its callers -/

/-- Whether the root of a channel resolves to one of the names. -/
def ChannelKey.isAmong (program : Program) (names : List NameId) (key : ChannelKey) : Bool :=
  match key.root with
  | .name id => id ∈ names
  | .expr id => (ChanRef.isAmong program names ⟨id, none⟩).getD false

/-- The view of an observer of the channels rooted in some names. -/
def Program.viewOf (program : Program) (names : List NameId) : View where
  key := ChannelKey.ofRef program
  hides key := !key.isAmong program names

theorem ChanRef.isAmong_congr {names' : List NameId} (h : ∀ name, name ∈ names ↔ name ∈ names')
    (chan : ChanRef) : chan.isAmong program names = chan.isAmong program names' := by
  simp only [isAmong, h]

namespace Program

/-- What a resolved key says about the root is what the reference as it is written says. -/
theorem isAmong_ofRef {chan : ChanRef} {b : Bool} (h : chan.isAmong program names = .ok b) :
    (ChannelKey.ofRef program chan).isAmong program names = b := by
  obtain ⟨found, hfound, hb⟩ := Lookup.bind_eq_ok.1 h
  obtain rfl := Except.ok.inj hb
  unfold ChannelKey.ofRef
  cases hkey : ChannelKey.resolve program chan with
  | error fault =>
      have hroot : ChanRef.isAmong program names ⟨chan.root, none⟩ = .ok _ := h
      rw [Lookup.getD_error, ChannelKey.isAmong, ChannelKey.literal]
      simp only [hroot, Lookup.getD_ok]
  | ok key =>
      rw [Lookup.getD_ok]
      have hroot := (ChannelKey.resolve_eq_ok_iff.1 hkey).1
      rw [ChannelKey.isAmong]
      cases hkind : key.root with
      | name name =>
          rw [hkind, ChannelKey.resolveRoot_eq_name_iff] at hroot
          obtain rfl := Except.ok.inj (hroot.symm.trans hfound)
          rfl
      | expr e =>
          rw [hkind, ChannelKey.resolveRoot_eq_expr_iff] at hroot
          obtain rfl := Except.ok.inj (hroot.1.symm.trans hfound)
          simp only [ChanRef.isAmong, resolveName_strip hroot.2, hroot.1]
          rfl

/-- Keeping the channels rooted in the names is what an observer of these channels sees. -/
theorem keeping_viewOf {t : Trace}
    (h : ∀ chan ∈ t.channels, ∃ b, chan.isAmong program names = .ok b) :
    (program.viewOf names).Keeping (fun chan => (chan.isAmong program names).getD true) t := by
  intro chan hchan
  obtain ⟨b, hb⟩ := h chan hchan
  simp only [hb, Lookup.getD_ok, viewOf, isAmong_ofRef hb, Bool.not_not]

end Program

/-! ## From the verdict to the returned trace -/

namespace Walk

variable {setting : Setting} {interface : List NameId} {t projected : Trace}

/-- What a contract allows of a projected trace it allows of the trace itself, as far as the
interface goes. -/
theorem permits_of_project {spec : Trace} (hon : setting.options.projectInterface = true)
    (ht : t.freeRefs = []) (hinterface : ∀ name, name ∈ interface ↔ name ∈ names)
    (hproject : project setting interface t = .ok projected)
    (h : setting.program.view.Permits spec setting.program.view projected) :
    setting.program.view.Permits spec (setting.program.viewOf names) t := by
  rcases project_eq_ok hproject with ⟨-, hanswers, rfl⟩ | ⟨hoff, -⟩
  · have hhidden := (freeRefs_hide (fun chan =>
      (ChanRef.isAmong setting.program interface chan).getD true) t).trans ht
    have hagree := (View.alike_simplify_of_closed (v := setting.program.view) hhidden).agree hhidden
      (View.freeRefs_simplify hhidden)
    have hsame : ∀ chan : ChanRef, chan.isAmong setting.program interface =
        chan.isAmong setting.program names := ChanRef.isAmong_congr hinterface
    simp only [hsame] at hanswers hagree h
    exact View.Permits.of_hide ht (Program.keeping_viewOf hanswers) (h.of_agree hagree)
  · rw [hon] at hoff
    cases hoff

theorem permits_of_meets {callee : DeclId} {contract : Contract} (ht : t.freeRefs = [])
    (h : Meets setting callee contract t) : ∃ spec supply supply',
      (contract.lower setting.program callee).run supply = .ok spec supply' ∧
      setting.program.view.Permits spec setting.program.view t := by
  obtain ⟨spec, supply, supply', report, hlower, hspec, hrefines, hverdict⟩ := h
  have hjustified := refines_spec (isClosed_iff.2 hspec) (isClosed_iff.2 ht) hrefines
  rw [hverdict] at hjustified
  exact ⟨spec, supply, supply', hlower, View.permits_of_clear hjustified⟩

end Walk

theorem Session.sound_begin {setting : Setting} {session : Session}
    (h : ∀ callee traces, session.store.get? callee = some traces →
      ∀ t ∈ traces.alternatives, t.isClosed = true) :
    (Walk.confinement setting).Sound session.begin where
  holds _ _ hget t ht := isClosed_iff.1 (h _ _ hget t ht)
  tidy := trivial

/-- If checking a procedure raises no alarm about it, the behaviour that is returned is what the
contract allows, seen through the channels the procedure shares with its callers. -/
theorem contract_kept {setting : Setting} {session session' : Session} {callee : DeclId}
    {decl : Decl} {body : NodeId} {contract : Spanned Contract} {outcome : Outcome}
    (hdecl : setting.program.decl callee = .ok decl) (hbody : decl.body = some body)
    (hcontract : decl.contract = some contract)
    (hproject : setting.options.projectInterface = true)
    (hstore : ∀ other traces, session.store.get? other = some traces →
      ∀ t ∈ traces.alternatives, t.isClosed = true)
    (hcheck : check setting (.proc callee) session = (.ok outcome, session'))
    (hsilent : ∀ diagnostic ∈ outcome.diagnostics, diagnostic.decl = some callee →
      diagnostic.code ∉ [.refinementViolation, .divergence, .unconstrained, .inconclusive,
        .unboundContractVariable]) :
    ∃ t spec supply supply', outcome.traces = .single t ∧
      (contract.value.lower setting.program callee).run supply = .ok spec supply' ∧
      setting.program.view.Permits spec
        (setting.program.viewOf ((decl.visibleParams.filter (·.isChannel)).map (·.name))) t := by
  unfold check at hcheck
  split at hcheck
  case h_2 => cases (Prod.mk.inj hcheck).1
  case h_1 traces state hrun =>
    obtain rfl := Except.ok.inj (Prod.mk.inj hcheck).1
    obtain ⟨walked, last, hdeclared, hrun⟩ := bind_eq_ok.1 hrun
    obtain ⟨rfl, rfl⟩ := pure_eq_ok.1 hrun
    obtain ⟨hcontinues, hwalked⟩ := Walk.safe_checkBody Walk.safe_walk
      (Session.sound_begin hstore) hdecl hbody hdeclared
    obtain ⟨t, projected, interface, rfl, ht, hinterface, hprojected, hjudged⟩ := hwalked
    -- No scope is open around the procedure, so its trace is closed and the contract was checked.
    have hscopes : last.scopes = [] := by
      have := hcontinues.scopes
      exact List.forall₂_nil_left_iff.1 this
    rw [hscopes] at ht
    have hclosed : ∀ u : Trace, (∀ id ∈ u.freeRefs, id ∈ t.freeRefs) →
        u.freeRefs = [] := fun u hu =>
      List.eq_nil_iff_forall_not_mem.2 fun id hid => List.not_mem_nil (ht id (hu id hid))
    have hpclosed := hclosed projected fun id => Walk.mem_freeRefs_of_project hprojected
    rcases hjudged hpclosed contract hcontract with hmeets | ⟨diagnostic, hmem, howner, hcode⟩
    · obtain ⟨spec, supply, supply', hlower, hpermits⟩ := Walk.permits_of_meets hpclosed hmeets
      exact ⟨t, spec, supply, supply', rfl, hlower, Walk.permits_of_project hproject
        (hclosed t fun _ => id) hinterface hprojected hpermits⟩
    · exact absurd hcode (hsilent diagnostic hmem howner)

/-- Reads from its formal forever and writes a log on a channel of its own. -/
def relay : Program where
  name := "relay"
  names := #[⟨"source", .param ⟨0⟩ 0 false, {}⟩, ⟨"log", .channel, {}⟩]
  exprs := #[⟨.name ⟨0⟩, {}⟩, ⟨.name ⟨1⟩, {}⟩, ⟨.bool true, {}⟩]
  nodes := #[⟨.loop ⟨2⟩ ⟨1⟩, {}⟩, ⟨.compose .seq [⟨2⟩, ⟨3⟩], {}⟩, ⟨.input ⟨0⟩, {}⟩,
    ⟨.output ⟨1⟩, {}⟩]
  decls := #[{
    name := "relay"
    params := [⟨⟨0⟩, true, false⟩]
    body := some ⟨0⟩
    contract := some ⟨.recursion "X" (.comp .seq [.event .input ⟨0⟩, .var "X"]), {}⟩ }]

theorem relay_contract_kept : ∃ spec supply supply',
    (Contract.lower relay ⟨0⟩
      (.recursion "X" (.comp .seq [.event .input ⟨0⟩, .var "X"]))).run supply = .ok spec supply' ∧
    relay.view.Permits spec (relay.viewOf [⟨0⟩]) (.fix ⟨⟨0⟩, .loop ⟨0⟩⟩ (.comp .seq
      [.event .input ⟨⟨0⟩, none⟩, .event .output ⟨⟨1⟩, none⟩, .ref ⟨0⟩])) := by
  have hcheck : (check { program := relay } (.proc ⟨0⟩) {}).1 = .ok ⟨.single (.fix ⟨⟨0⟩, .loop ⟨0⟩⟩
      (.comp .seq [.event .input ⟨⟨0⟩, none⟩, .event .output ⟨⟨1⟩, none⟩, .ref ⟨0⟩])), []⟩ := by
    cbv
  cases hrun : check { program := relay } (.proc ⟨0⟩) {} with
  | mk result session =>
      rw [hrun] at hcheck
      obtain rfl : result = _ := hcheck
      obtain ⟨t, spec, supply, supply', ht, hlower, hpermits⟩ :=
        @contract_kept { program := relay } {} session ⟨0⟩ _ _ _ _ rfl rfl rfl rfl
          (by intro _ _ h; cases h) hrun (by simp)
      obtain rfl := List.singleton_inj.1 (congrArg TraceSet.alternatives ht)
      exact ⟨spec, supply, supply', hlower, hpermits⟩

end ProcessContracts
