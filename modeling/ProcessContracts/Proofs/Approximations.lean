import Mathlib
import ProcessContracts.Proofs.Scoping

/-!
# Approximated traces

The trace of a recursive procedure is an approximation if some instance of it does not pass its
channels through. The scope of the procedure remembers this until its contract is checked. Traces of
other procedures are used without a trace of it.
-/

namespace ProcessContracts

open Trace Walk

variable {n n' : Nat} {history pre : List Event} {event : Event} {id : AtomId}

/-- Some instance that does not pass its channels through was folded back onto the atom. -/
def Altered (history : List Event) (id : AtomId) : Prop :=
  ∃ callee atom altered, .folded callee atom altered ∈ history ∧ altered ≠ [] ∧ atom.id = id

/-- The trace refers to the atom or binds it. -/
def Trace.Mentions (t : Trace) (id : AtomId) : Prop :=
  .ref id ∈ t.parts ∨ ∃ binder body, .fix binder body ∈ t.parts ∧ binder.id = id

/-- No instance that does not pass its channels through contributed to the trace. -/
def Trace.Exact (history : List Event) (t : Trace) : Prop :=
  ∀ id, Altered history id → ¬ t.Mentions id

/-- The sessions that checks of a program lead to, each with options of its own. -/
inductive Session.Reached (program : Program) : Session → Prop
  | start : Reached program {}
  | check {session : Session} (options : Options) (unit : ProgramUnit) :
      Reached program session → Reached program (check ⟨program, options⟩ unit session).2

theorem Altered.mono {history' : List Event} (h : Altered history id) (hsub : history ⊆ history') :
    Altered history' id := by
  obtain ⟨callee, atom, altered, hmem, hrest⟩ := h
  exact ⟨callee, atom, altered, hsub hmem, hrest⟩

theorem altered_snoc : Altered (history ++ [event]) id ↔ Altered history id ∨
    ∃ callee atom altered, event = .folded callee atom altered ∧ altered ≠ [] ∧ atom.id = id := by
  constructor
  · rintro ⟨callee, atom, altered, hmem, hrest⟩
    rcases List.mem_append.1 hmem with hmem | hmem
    · exact .inl ⟨callee, atom, altered, hmem, hrest⟩
    · exact .inr ⟨callee, atom, altered, (List.mem_singleton.1 hmem).symm, hrest⟩
  · rintro (h | ⟨callee, atom, altered, rfl, hrest⟩)
    · exact h.mono (List.subset_append_left _ _)
    · exact ⟨callee, atom, altered, List.mem_append_right _ (List.mem_singleton_self _), hrest⟩

/-- A contract check says so if instances of its own procedure were altered before. -/
def Event.Honest (pre : List Event) : Event → Prop
  | .judged callee own _ found => ∀ atom, own = some atom → Altered pre atom.id →
      ∃ d ∈ found, d.decl = some callee ∧ d.code ∈ alarms
  | .folded _ _ _ | .attached _ _ => True

/-- Every event is honest about what came before. -/
def HonestHistory (history : List Event) : Prop :=
  ∀ pre event post, history = pre ++ event :: post → event.Honest pre

theorem HonestHistory.snoc (h : HonestHistory history) (hevent : event.Honest history) :
    HonestHistory (history ++ [event]) := by
  intro pre other post heq
  rcases List.eq_nil_or_concat post with rfl | ⟨post, last, rfl⟩
  · obtain ⟨rfl, hlast⟩ := List.append_inj' heq rfl
    exact (List.cons.inj hlast).1 ▸ hevent
  · rw [List.concat_eq_append, ← List.cons_append, ← List.append_assoc] at heq
    exact h pre other post (List.append_inj' heq rfl).1

/-- What is remembered of altered instances: their atoms were minted, and the scope of a procedure
in progress is marked. -/
structure Remembered (n : Nat) (history : List Event) (frames : List Scope) : Prop where
  distinct : Distinct n frames
  minted : ∀ id, Altered history id → id.index < n
  marked : ∀ scope ∈ frames, ∀ atom, scope.recursionAtom = some atom → Altered history atom.id →
    scope.approximate = true
  honest : HonestHistory history

namespace Remembered

variable {frames inner outer : List Scope} {scope own own' : Scope} {callee : DeclId}
  {altered : List NameId} {atom : Atom}

/-- Events that fold no instance back. -/
theorem snoc (h : Remembered n history frames)
    (hother : ∀ callee atom altered, event ≠ .folded callee atom altered)
    (hhonest : event.Honest history) : Remembered n (history ++ [event]) frames := by
  have hsame : ∀ id, Altered (history ++ [event]) id → Altered history id := fun id hid => by
    refine (altered_snoc.1 hid).resolve_right ?_
    rintro ⟨callee, own, altered, heq, -⟩
    exact hother callee own altered heq
  exact ⟨h.distinct, fun id hid => h.minted id (hsame id hid),
    fun scope hscope atom hatom hid => h.marked scope hscope atom hatom (hsame _ hid),
    h.honest.snoc hhonest⟩

theorem leave (h : Remembered n history (scope :: frames)) : Remembered n history frames :=
  ⟨h.distinct.leave, h.minted, fun other hother => h.marked other (List.mem_cons_of_mem _ hother),
    h.honest⟩

theorem outermost (h : Remembered n history frames) : Remembered n history [] :=
  ⟨.nil n, h.minted, by simp, h.honest⟩


/-- An altered instance marks the scope whose atom it is folded back onto, and that is the scope of
no other procedure. -/
theorem fold (hfolds : own.Folds callee altered n atom own' n')
    (h : Remembered n history (inner ++ own :: outer)) :
    Remembered n' (history ++ [.folded callee atom altered]) (inner ++ own' :: outer) := by
  have hdistinct := h.distinct.fold hfolds
  obtain ⟨rfl, hatom⟩ := hfolds.spec
  have hunique : atom.id ∉ openAtoms inner ++ openAtoms outer := by
    have hnodup := hdistinct.nodup
    rw [openAtoms_append, openAtoms_cons_some rfl] at hnodup
    exact (List.nodup_cons.1 (List.nodup_middle.1 hnodup)).1
  have hnew : ∀ id, Altered (history ++ [.folded callee atom altered]) id →
      Altered history id ∨ altered ≠ [] ∧ atom.id = id := fun id hid => by
    rcases altered_snoc.1 hid with hid | ⟨_, _, _, ⟨⟩, hid⟩
    · exact .inl hid
    · exact .inr hid
  refine ⟨hdistinct, fun id hid => ?_, fun scope hscope a ha hid => ?_, h.honest.snoc trivial⟩
  · rcases hnew id hid with hid | ⟨-, rfl⟩
    · exact Nat.lt_of_lt_of_le (h.minted id hid) hfolds.minted_le
    · refine hdistinct.minted _ ?_
      rw [openAtoms_append, openAtoms_cons_some rfl]
      exact List.mem_append_right _ List.mem_cons_self
  · have helsewhere : ∀ part, openAtoms part ⊆ openAtoms inner ++ openAtoms outer →
        scope ∈ part → scope ∈ inner ++ own :: outer → scope.approximate = true := by
      intro part hpart hmem hopen
      rcases hnew _ hid with hid | ⟨-, heq⟩
      · exact h.marked scope hopen a ha hid
      · exact absurd (hpart (mem_openAtoms.2 ⟨scope, hmem, a, ha, rfl⟩)) (heq ▸ hunique)
    rcases List.mem_append.1 hscope with hmem | hmem
    · exact helsewhere inner (List.subset_append_left _ _) hmem (List.mem_append_left _ hmem)
    rcases List.mem_cons.1 hmem with rfl | hmem
    · obtain rfl := Option.some.inj ha
      rcases hnew _ hid with hid | ⟨hne, -⟩
      · rcases hatom with ⟨hsome, -⟩ | ⟨-, hfresh, -⟩
        · simp [h.marked own (by simp) _ hsome hid]
        · have hlt := h.minted _ hid
          rw [hfresh] at hlt
          exact absurd hlt (Nat.lt_irrefl n)
      · simp [hne]
    · exact helsewhere outer (List.subset_append_right _ _) hmem
        (List.mem_append_right _ (List.mem_cons_of_mem _ hmem))

end Remembered

/-- The invariant that altered instances are remembered until the contract is checked. -/
def Walk.memory (setting : Setting) : StateInvariant setting where
  Holds n _ history frames := Remembered n history frames
  mint hle h := ⟨h.distinct.mint hle, fun id hid => Nat.lt_of_lt_of_le (h.minted id hid) hle,
    h.marked, h.honest⟩
  enter hopens h := by
    refine ⟨h.distinct.enter hopens.atom, h.minted, List.forall_mem_cons.2 ⟨?_, h.marked⟩, h.honest⟩
    intro atom hatom
    rw [hopens.atom] at hatom
    cases hatom
  leave h := h.leave
  fold hfolds h := h.fold hfolds
  judge h hfound := h.leave.snoc (by rintro _ _ _ ⟨⟩) fun atom hatom haltered =>
    hfound (h.marked _ List.mem_cons_self atom hatom haltered)
  attach h _ := h.snoc (by rintro _ _ _ ⟨⟩) trivial

theorem Session.Reached.remembered {program : Program} {session : Session}
    (h : session.Reached program) : Remembered session.supply.minted session.history [] := by
  induction h with
  | start =>
      refine ⟨.nil _, ?_, by simp, ?_⟩
      · rintro _ ⟨_, _, _, hmem, -⟩
        cases hmem
      · intro pre event post h
        cases pre <;> cases h
  | @check session options unit _ ih =>
      have hchecked := checked (I := (memory ⟨program, options⟩).toInvariant) ih
        ((memory _).begins unit)
      generalize ProcessContracts.check ⟨program, options⟩ unit session = result at hchecked ⊢
      obtain ⟨answer, last⟩ := result
      cases answer with
      | ok => exact hchecked.1
      | error => exact hchecked.1.choose_spec.outermost

/-- If a check reports nothing against a contract it was to confirm, every instance of the procedure
itself passed its channels through. Then the trace is exact, unless an altered instance of another
procedure contributed to it. -/
theorem not_altered_of_confirmed {program : Program} {options : Options} {session last : Session}
    {unit : ProgramUnit} {outcome : Outcome} {pre post : List Event} {callee : DeclId}
    {own : Option Atom} {computed : Trace} {found : List Diagnostic}
    (hsession : session.Reached program)
    (hcheck : check ⟨program, options⟩ unit session = (.ok outcome, last))
    (hjudged : last.history = session.history ++ (pre ++ .judged callee own computed found :: post))
    (hsilent : ∀ diagnostic ∈ outcome.diagnostics, diagnostic.decl = some callee →
      diagnostic.code ∉ alarms) :
    (∀ atom, own = some atom → ¬ Altered (session.history ++ pre) atom.id) ∧
      (computed.Exact (session.history ++ pre) ∨ ∃ id, Altered (session.history ++ pre) id ∧
        computed.Mentions id ∧ own.map Atom.id ≠ some id) := by
  have hchecked := checked (I := (memory ⟨program, options⟩).toInvariant) hsession.remembered
    ((memory _).begins unit)
  rw [hcheck] at hchecked
  obtain ⟨hremembered, -, -, new, hnew, hannounced⟩ := hchecked
  obtain rfl := List.append_cancel_left (hjudged.symm.trans hnew)
  have hhonest := hremembered.honest (session.history ++ pre) _ post
    (by rw [hjudged, List.append_assoc])
  have hunaltered : ∀ atom, own = some atom → ¬ Altered (session.history ++ pre) atom.id := by
    intro atom hown haltered
    obtain ⟨d, hd, hdecl, hcode⟩ := hhonest atom hown haltered
    exact hsilent d (hannounced _ _ _ _ (List.mem_append_right _ List.mem_cons_self) hd) hdecl hcode
  refine ⟨hunaltered, or_iff_not_imp_left.2 fun hinexact => ?_⟩
  simp only [Trace.Exact, not_forall, not_not] at hinexact
  obtain ⟨id, haltered, hmentions⟩ := hinexact
  refine ⟨id, haltered, hmentions, fun hself => ?_⟩
  obtain ⟨atom, hown, rfl⟩ := Option.map_eq_some_iff.1 hself
  exact hunaltered atom hown haltered

/-- A procedure that goes on with another channel, one that only calls it, and one that goes on with
its own channel. -/
def forward : Program where
  name := "forward"
  names := #[⟨"c", .param ⟨0⟩ 0 false, {}⟩, ⟨"e", .param ⟨1⟩ 0 false, {}⟩,
    ⟨"s", .param ⟨2⟩ 0 false, {}⟩, ⟨"d", .channel, {}⟩]
  exprs := #[⟨.name ⟨0⟩, {}⟩, ⟨.name ⟨1⟩, {}⟩, ⟨.name ⟨2⟩, {}⟩, ⟨.name ⟨3⟩, {}⟩]
  nodes := #[⟨.compose .seq [⟨1⟩, ⟨2⟩], {}⟩, ⟨.output ⟨0⟩, {}⟩, ⟨.call ⟨0⟩ [⟨⟨3⟩, false⟩], {}⟩,
    ⟨.call ⟨0⟩ [⟨⟨1⟩, false⟩], {}⟩,
    ⟨.compose .seq [⟨5⟩, ⟨6⟩], {}⟩, ⟨.output ⟨2⟩, {}⟩, ⟨.call ⟨2⟩ [⟨⟨2⟩, false⟩], {}⟩]
  decls := #[
    { name := "relay", params := [⟨⟨0⟩, true, false⟩], body := some ⟨0⟩ },
    { name := "client", params := [⟨⟨1⟩, true, false⟩], body := some ⟨3⟩
      contract := some ⟨.recursion "X" (.comp .seq [.event .output ⟨1⟩, .var "X"]), {}⟩ },
    { name := "ticker", params := [⟨⟨2⟩, true, false⟩], body := some ⟨4⟩
      contract := some ⟨.recursion "X" (.comp .seq [.event .output ⟨2⟩, .var "X"]), {}⟩ }]

/-- What happens when the client is checked: the instance inside the relay is altered. -/
def forwardHistory : List Event :=
  [.folded ⟨0⟩ ⟨⟨0⟩, .recursion ⟨0⟩⟩ [⟨0⟩],
    .attached ⟨0⟩ (.single (.fix ⟨⟨0⟩, .recursion ⟨0⟩⟩
      (.comp .seq [.event .output ⟨⟨0⟩, none⟩, .ref ⟨0⟩])))]

theorem ticker_confirmed :
    ¬ Altered (forwardHistory ++ [.folded ⟨2⟩ ⟨⟨1⟩, .recursion ⟨2⟩⟩ []]) ⟨1⟩ ∧
    (Trace.fix ⟨⟨1⟩, .recursion ⟨2⟩⟩ (.comp .seq [.event .output ⟨⟨2⟩, none⟩, .ref ⟨1⟩])).Exact
      (forwardHistory ++ [.folded ⟨2⟩ ⟨⟨1⟩, .recursion ⟨2⟩⟩ []]) := by
  have hstart : Session.Reached forward {} := .start
  have hreached := hstart.check {} (.proc ⟨0⟩)
  have hbefore : (check { program := forward } (.proc ⟨0⟩) {}).2.history = forwardHistory := by cbv
  have hafter : Prod.map (Except.map Outcome.diagnostics) Session.history
      (check { program := forward } (.proc ⟨2⟩) (check { program := forward } (.proc ⟨0⟩) {}).2) =
      (.ok [], forwardHistory ++ ([.folded ⟨2⟩ ⟨⟨1⟩, .recursion ⟨2⟩⟩ []] ++
        .judged ⟨2⟩ (some ⟨⟨1⟩, .recursion ⟨2⟩⟩) (.fix ⟨⟨1⟩, .recursion ⟨2⟩⟩
          (.comp .seq [.event .output ⟨⟨2⟩, none⟩, .ref ⟨1⟩])) [] :: [.attached ⟨2⟩ (.single
            (.fix ⟨⟨1⟩, .recursion ⟨2⟩⟩ (.comp .seq
              [.event .output ⟨⟨2⟩, none⟩, .ref ⟨1⟩])))])) := by
    cbv
  obtain ⟨hanswer, hhistory⟩ := Prod.ext_iff.1 hafter
  generalize (check { program := forward } (.proc ⟨0⟩) {}).2 = session at *
  cases hcheck : check { program := forward } (.proc ⟨2⟩) session with
  | mk answer last =>
      rw [hcheck] at hanswer hhistory
      cases answer with
      | error => cases hanswer
      | ok outcome =>
          have hsilent : outcome.diagnostics = [] := Except.ok.inj hanswer
          have hconfirmed := not_altered_of_confirmed hreached hcheck (hbefore ▸ hhistory)
            (by simp [hsilent])
          rw [hbefore] at hconfirmed
          obtain ⟨hunaltered, hexact⟩ := hconfirmed
          refine ⟨hunaltered _ rfl, hexact.resolve_right ?_⟩
          -- Only the relay's atom is altered, and the ticker's trace does not mention it.
          rintro ⟨id, ⟨callee, atom, altered, hmem, hne, rfl⟩, hmentions, hforeign⟩
          simp_all [forwardHistory, Mentions, parts]

/-- The client has a contract, calls the relay and is confirmed without a word about it. -/
theorem client_confirmed : ∃ outcome last pre post computed,
    check { program := forward } (.proc ⟨1⟩) {} = (.ok outcome, last) ∧
    last.history = pre ++ .judged ⟨1⟩ none computed [] :: post ∧
    (∀ diagnostic ∈ outcome.diagnostics, diagnostic.decl ≠ some ⟨1⟩) ∧
    ¬ computed.Exact pre := by
  have hcheck : Prod.map (Except.map fun outcome => outcome.diagnostics.map (·.decl))
      Session.history (check { program := forward } (.proc ⟨1⟩) {}) =
      (.ok [some ⟨0⟩], forwardHistory ++ .judged ⟨1⟩ none (.fix ⟨⟨0⟩, .recursion ⟨0⟩⟩
        (.comp .seq [.event .output ⟨⟨1⟩, none⟩, .ref ⟨0⟩])) [] :: [.attached ⟨1⟩ (.single
          (.fix ⟨⟨0⟩, .recursion ⟨0⟩⟩ (.comp .seq [.event .output ⟨⟨1⟩, none⟩, .ref ⟨0⟩])))]) := by
    cbv
  obtain ⟨hdiagnostics, hhistory⟩ := Prod.ext_iff.1 hcheck
  generalize check { program := forward } (.proc ⟨1⟩) {} = result at hhistory hdiagnostics
  obtain ⟨answer, last⟩ := result
  cases answer with
  | error => cases hdiagnostics
  | ok outcome =>
      refine ⟨outcome, last, _, _, _, rfl, hhistory, fun diagnostic hmem heq => ?_,
        fun hexact => ?_⟩
      · have hdecls : outcome.diagnostics.map (·.decl) = [some ⟨0⟩] := Except.ok.inj hdiagnostics
        have hdecl : some ⟨1⟩ ∈ outcome.diagnostics.map (·.decl) :=
          List.mem_map.2 ⟨diagnostic, hmem, heq⟩
        rw [hdecls] at hdecl
        simp at hdecl
      · have haltered : Altered forwardHistory ⟨0⟩ :=
          ⟨⟨0⟩, _, _, List.mem_cons_self, List.cons_ne_nil _ _, rfl⟩
        exact hexact ⟨0⟩ haltered (.inr ⟨_, _, mem_parts_self _, rfl⟩)

end ProcessContracts
