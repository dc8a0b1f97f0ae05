import ProcessContracts.Proofs.Buckets
import ProcessContracts.Proofs.Completions
import ProcessContracts.Proofs.ContractSoundness

/-!
# Channels of the interface

A channel expression is rooted at a name if nothing but decorations and subscripts stand around it.
The reference it stands for splits off one subscript, and projection asks for the name of what is
left. So the elements of a channel formal are kept by the projection, and the elements of its
elements are not.
-/

namespace ProcessContracts

namespace Program

variable {program : Program} {name : NameId} {id target : ExprId} {depth depth' : Nat}

/-! ## The depth of a query -/

theorem stripWithin_mono (h : program.stripWithin depth id = .ok target) (hle : depth ≤ depth') :
    program.stripWithin depth' id = .ok target := by
  induction depth generalizing id depth' with
  | zero => cases h
  | succ depth ih =>
      obtain ⟨depth', rfl⟩ := Nat.exists_eq_succ_of_ne_zero (Nat.ne_of_gt (Nat.zero_lt_of_lt hle))
      obtain ⟨e, hexpr, h⟩ := Lookup.bind_eq_ok.1 h
      refine Lookup.bind_eq_ok.2 ⟨e, hexpr, ?_⟩
      cases e with
      | decorated inner _ => exact ih h (Nat.le_of_succ_le_succ hle)
      | _ => exact h

theorem index_lt_of_expr {e : Expr} (h : program.expr id = .ok e) :
    id.index < program.exprs.size := by
  unfold expr spannedExpr at h
  split at h
  case h_1 written hget => exact (Array.getElem?_eq_some_iff.1 hget).1
  case h_2 => cases h

/-- A query that needs its whole depth visits that many different entries. -/
theorem exists_visited (h : program.stripWithin (depth + 1) id = .ok target)
    (hleast : ∀ d ≤ depth, program.stripWithin d id ≠ .ok target) :
    ∃ visited : List Nat, visited.length = depth + 1 ∧ visited.Nodup ∧ ∀ i ∈ visited,
      i < program.exprs.size ∧ program.stripWithin (depth + 1) ⟨i⟩ = .ok target := by
  induction depth generalizing id with
  | zero =>
      obtain ⟨e, hexpr, -⟩ := Lookup.bind_eq_ok.1 h
      exact ⟨[id.index], rfl, List.nodup_singleton _,
        List.forall_mem_singleton.2 ⟨index_lt_of_expr hexpr, h⟩⟩
  | succ depth ih =>
      obtain ⟨e, hexpr, hnext⟩ := Lookup.bind_eq_ok.1 h
      cases e with
      | decorated inner decoration =>
          have hinner : ∀ d ≤ depth, program.stripWithin d inner ≠ .ok target := fun d hd hd' =>
            hleast (d + 1) (Nat.succ_le_succ hd) (Lookup.bind_eq_ok.2 ⟨_, hexpr, hd'⟩)
          obtain ⟨visited, hlength, hnodup, hvisited⟩ := ih hnext hinner
          refine ⟨id.index :: visited, by rw [List.length_cons, hlength],
            List.nodup_cons.2 ⟨fun hmem => ?_, hnodup⟩,
            List.forall_mem_cons.2 ⟨⟨index_lt_of_expr hexpr, h⟩, fun i hi => ?_⟩⟩
          · exact hleast (depth + 1) (Nat.le_refl _) (hvisited _ hmem).2
          · exact ⟨(hvisited i hi).1, stripWithin_mono (hvisited i hi).2 (Nat.le_succ _)⟩
      | _ =>
          -- An entry without a decoration is found at the first step.
          refine absurd (Lookup.bind_eq_ok.2 ⟨_, hexpr, hnext⟩) (hleast 1 (by omega))

/-- The depth bounded by the table is enough whenever some depth is. -/
theorem strip_of_stripWithin (h : program.stripWithin depth id = .ok target) :
    program.strip id = .ok target := by
  classical
  have hsome : ∃ d, program.stripWithin d id = .ok target := ⟨depth, h⟩
  have hfind := Nat.find_spec hsome
  have hleast : ∀ d < Nat.find hsome, program.stripWithin d id ≠ .ok target :=
    fun d hd => Nat.find_min hsome hd
  generalize Nat.find hsome = least at hfind hleast
  cases least with
  | zero => cases hfind
  | succ least =>
      obtain ⟨visited, hlength, hnodup, hvisited⟩ :=
        exists_visited hfind fun d hd => hleast d (Nat.lt_succ_of_le hd)
      have hbound := StateSet.length_le_of_nodup_lt hnodup fun i hi => (hvisited i hi).1
      exact stripWithin_mono hfind (by rw [exprDepth]; omega)

/-! ## Rooted expressions -/

/-- The expression is the name inside decorations and `depth` subscripts. -/
inductive RootedAt (program : Program) (name : NameId) : Nat → ExprId → Prop
  | name {id : ExprId} : program.expr id = .ok (.name name) → RootedAt program name 0 id
  | decorated {id inner : ExprId} {decoration : Decoration} {depth : Nat} :
      program.expr id = .ok (.decorated inner decoration) → RootedAt program name depth inner →
      RootedAt program name depth id
  | subscript {id base index : ExprId} {depth : Nat} :
      program.expr id = .ok (.subscript base index) → RootedAt program name depth base →
      RootedAt program name (depth + 1) id

/-- What a rooted expression is once its decorations are removed. -/
inductive Exposed (program : Program) (name : NameId) : Nat → ExprId → Prop
  | name {id : ExprId} : program.expr id = .ok (.name name) → Exposed program name 0 id
  | subscript {id base index : ExprId} {depth : Nat} :
      program.expr id = .ok (.subscript base index) → program.RootedAt name depth base →
      Exposed program name (depth + 1) id

theorem RootedAt.exists_strip (h : program.RootedAt name depth id) :
    ∃ target, program.strip id = .ok target ∧ program.Exposed name depth target := by
  have hwithin : ∃ target d, program.stripWithin d id = .ok target ∧
      program.Exposed name depth target := by
    induction h with
    | @name id hexpr => exact ⟨id, 1, Lookup.bind_eq_ok.2 ⟨_, hexpr, rfl⟩, .name hexpr⟩
    | decorated hexpr _ ih =>
        obtain ⟨target, d, hstrip, htarget⟩ := ih
        exact ⟨target, d + 1, Lookup.bind_eq_ok.2 ⟨_, hexpr, hstrip⟩, htarget⟩
    | @subscript id _ _ _ hexpr hbase _ =>
        exact ⟨id, 1, Lookup.bind_eq_ok.2 ⟨_, hexpr, rfl⟩, .subscript hexpr hbase⟩
  obtain ⟨target, d, hstrip, htarget⟩ := hwithin
  exact ⟨target, strip_of_stripWithin hstrip, htarget⟩

/-- Subscripts hide the name from a query that removes decorations only. -/
theorem RootedAt.resolveName (h : program.RootedAt name depth id) :
    program.resolveName id = .ok (if depth = 0 then some name else none) := by
  obtain ⟨target, hstrip, htarget⟩ := h.exists_strip
  refine Lookup.bind_eq_ok.2 ⟨target, hstrip, ?_⟩
  cases htarget with
  | name hexpr => exact Lookup.bind_eq_ok.2 ⟨_, hexpr, rfl⟩
  | subscript hexpr _ => exact Lookup.bind_eq_ok.2 ⟨_, hexpr, rfl⟩

/-- The reference splits off the outermost subscript. -/
theorem RootedAt.exists_ref (h : program.RootedAt name depth id) :
    ∃ chan, ChanRef.ofExpr program id = .ok chan ∧
      program.resolveName chan.root = .ok (if depth ≤ 1 then some name else none) := by
  obtain ⟨target, hstrip, htarget⟩ := h.exists_strip
  cases htarget with
  | name hexpr =>
      refine ⟨⟨target, none⟩, ?_, ?_⟩
      · exact Lookup.bind_eq_ok.2 ⟨target, hstrip, Lookup.bind_eq_ok.2 ⟨_, hexpr, rfl⟩⟩
      · rw [resolveName_strip hstrip, h.resolveName]
        rfl
  | @subscript _ base index depth hexpr hbase =>
      obtain ⟨root, hroot, -⟩ := hbase.exists_strip
      refine ⟨⟨root, some index⟩, ?_, ?_⟩
      · exact Lookup.bind_eq_ok.2 ⟨target, hstrip, Lookup.bind_eq_ok.2
          ⟨_, hexpr, Lookup.bind_eq_ok.2 ⟨root, hroot, rfl⟩⟩⟩
      · have hsame : depth + 1 ≤ 1 ↔ depth = 0 := by omega
        rw [resolveName_strip hroot, hbase.resolveName]
        simp only [hsame]

end Program

/-! ## The projection of a procedure -/

namespace Walk

variable {setting : Setting} {callee : DeclId} {decl : Decl} {body : NodeId} {depth : Nat}
  {entry : Option Substitution} {state last : WalkState} {traces : ProcTraces}

theorem isAmong_of_rootedAt {program : Program} {names : List NameId} {name : NameId}
    {e : ExprId} (hname : name ∈ names) (h : program.RootedAt name depth e) :
    ∃ chan, ChanRef.ofExpr program e = .ok chan ∧
      chan.isAmong program names = .ok (decide (depth ≤ 1)) := by
  obtain ⟨chan, hchan, hroot⟩ := h.exists_ref
  refine ⟨chan, hchan, Lookup.bind_eq_ok.2 ⟨_, hroot, ?_⟩⟩
  split
  case isTrue hle => simp [hname, hle, pure, Except.pure]
  case isFalse hle => simp [hle, pure, Except.pure]

/-- Walking the body leaves the interface of its procedure alone, so the trace is projected to the
visible channel formals. -/
theorem exists_projected (hdecl : setting.program.decl callee = .ok decl)
    (hbody : decl.body = some body)
    (hrun : (checkDecl setting (walkWithin setting depth) callee entry).run state =
      .ok traces last) :
    ∃ t projected interface, traces = ⟨.single t, .single projected⟩ ∧
      (∀ name, name ∈ interface ↔
        name ∈ (decl.visibleParams.filter (·.isChannel)).map (·.name)) ∧
      project setting interface t = .ok projected := by
  have hpush : (pushScope (.opened callee decl entry)).run state =
      .ok () (state.enter (.opened callee decl entry)) := rfl
  rw [checkDecl_eq hdecl hbody, run_bind_of_ok hpush] at hrun
  obtain ⟨fragment, inside, hcollect, hrun⟩ := bind_eq_ok.1 hrun
  have hvisit : (anything setting).toInvariant.Visits depth (walkWithin setting depth) :=
    Invariant.keeps_walkWithin depth
  have hbuckets : (state.enter (.opened callee decl entry)).buckets = [] :: state.buckets :=
    congrArg (· :: state.buckets) (Scope.buckets_opened callee decl entry)
  have hmay : (anything setting).toInvariant.May depth
      (owners (state.enter (.opened callee decl entry)).frames) body := trivial
  have hkeeps := Invariant.keeps_collectSingle hvisit ((anything setting).sound trivial) hbuckets
    "procedure body" body hmay
  unfold Invariant.Keeps at hkeeps
  rw [hcollect] at hkeeps
  obtain ⟨-, hlater, -⟩ := hkeeps
  obtain ⟨scope, outer, hadvances, -, hscopes⟩ := List.forall₂_cons_left_iff.1 hlater.scopes
  rw [run_bind_of_ok (popScope_run hscopes)] at hrun
  obtain ⟨projected, -, hproject, rfl, -⟩ := (conclude_run_iff {}).1 hrun
  refine ⟨_, projected, scope.interface, rfl, fun name => ?_, hproject⟩
  rw [show scope.interface = (Scope.opened callee decl entry).interface from hadvances.interface,
    Scope.opened, mem_foldl_addInterface]
  simp

/-- What callers of a procedure see is its trace with every event hidden but those on channels
rooted at its visible channel formals. An event whose expression has one of them as its root, inside
any decorations, is kept if the root stands in at most one subscript, and only then. -/
theorem projection_keeps_iff (hdecl : setting.program.decl callee = .ok decl)
    (hbody : decl.body = some body) (hon : setting.options.projectInterface = true)
    (hrun : (checkDecl setting (walkWithin setting depth) callee entry).run state =
      .ok traces last) :
    ∃ t, traces = ⟨.single t, .single (t.hide fun chan => (chan.isAmong setting.program
        ((decl.visibleParams.filter (·.isChannel)).map (·.name))).getD true).simplify⟩ ∧
      ∀ param ∈ decl.visibleParams, param.isChannel = true → ∀ subscripts e,
        setting.program.RootedAt param.name subscripts e →
          ∃ chan, ChanRef.ofExpr setting.program e = .ok chan ∧
            chan.isAmong setting.program ((decl.visibleParams.filter (·.isChannel)).map (·.name)) =
              .ok (decide (subscripts ≤ 1)) := by
  obtain ⟨t, projected, interface, rfl, hinterface, hproject⟩ :=
    exists_projected hdecl hbody hrun
  have hsame : ∀ chan : ChanRef, chan.isAmong setting.program interface =
      chan.isAmong setting.program ((decl.visibleParams.filter (·.isChannel)).map (·.name)) :=
    ChanRef.isAmong_congr hinterface
  refine ⟨t, ?_, fun param hparam hchannel subscripts e hrooted => ?_⟩
  · rcases project_eq_ok hproject with ⟨-, -, rfl⟩ | ⟨hoff, -⟩
    · simp only [hsame]
    · rw [hon] at hoff
      cases hoff
  · refine isAmong_of_rootedAt (List.mem_map.2 ⟨param, ?_, rfl⟩) hrooted
    exact List.mem_filter.2 ⟨hparam, hchannel⟩

/-- Procedures that write on an element of a formal, and on an element of an element. The contract
of the second one says what it does. -/
def grid : Program where
  name := "grid"
  names := #[⟨"row", .param ⟨0⟩ 0 false, {}⟩, ⟨"rows", .param ⟨1⟩ 0 false, {}⟩]
  exprs := #[⟨.name ⟨0⟩, {}⟩, ⟨.int 1, {}⟩, ⟨.subscript ⟨0⟩ ⟨1⟩, {}⟩,
    ⟨.decorated ⟨2⟩ .outputEnd, {}⟩, ⟨.name ⟨1⟩, {}⟩, ⟨.subscript ⟨4⟩ ⟨1⟩, {}⟩,
    ⟨.subscript ⟨5⟩ ⟨1⟩, {}⟩]
  nodes := #[⟨.output ⟨3⟩, {}⟩, ⟨.output ⟨6⟩, {}⟩]
  decls := #[
    { name := "writeRow", params := [⟨⟨0⟩, true, false⟩], body := some ⟨0⟩ },
    { name := "writeCell", params := [⟨⟨1⟩, true, false⟩], body := some ⟨1⟩
      contract := some ⟨.event .output ⟨6⟩, {}⟩ }]

theorem row_kept : grid.RootedAt ⟨0⟩ 1 ⟨3⟩ ∧ ∃ traces last chan,
    (checkDecl { program := grid } (walk { program := grid }) ⟨0⟩ none).run
      (Session.begin {}) = .ok traces last ∧
    ChanRef.ofExpr grid ⟨3⟩ = .ok chan ∧ chan.isAmong grid [⟨0⟩] = .ok true := by
  have hrooted : grid.RootedAt ⟨0⟩ 1 ⟨3⟩ :=
    .decorated (show grid.expr ⟨3⟩ = .ok (.decorated ⟨2⟩ .outputEnd) from rfl)
      (.subscript (show grid.expr ⟨2⟩ = .ok (.subscript ⟨0⟩ ⟨1⟩) from rfl) (.name rfl))
  have hanswers : (match (checkDecl { program := grid } (walk { program := grid }) ⟨0⟩ none).run
      (Session.begin {}) with
    | .ok _ _ => true
    | .error _ _ => false) = true := by cbv
  refine ⟨hrooted, ?_⟩
  cases hrun : (checkDecl { program := grid } (walk { program := grid }) ⟨0⟩ none).run
      (Session.begin {}) with
  | error abort last =>
      rw [hrun] at hanswers
      cases hanswers
  | ok traces last =>
      obtain ⟨t, -, hkeeps⟩ := @projection_keeps_iff { program := grid } ⟨0⟩ _ _
        (depthBound grid) none (Session.begin {}) last traces rfl rfl rfl hrun
      obtain ⟨chan, hchan, hkept⟩ := hkeeps ⟨⟨0⟩, true, false⟩ (by decide) rfl 1 ⟨3⟩ hrooted
      exact ⟨traces, last, chan, rfl, hchan, hkept⟩

/-- The element of an element is hidden from callers and from the contract, which is refuted. -/
theorem cell_hidden : grid.RootedAt ⟨1⟩ 2 ⟨6⟩ ∧ ∃ outcome last,
    check { program := grid } (.proc ⟨1⟩) {} = (.ok outcome, last) ∧
    outcome.traces = .single (.event .output ⟨⟨5⟩, some ⟨1⟩⟩) ∧
    outcome.diagnostics.map (·.code) = [.refinementViolation] ∧
    last.store.get? ⟨1⟩ = some (.single .skip) := by
  have hrooted : grid.RootedAt ⟨1⟩ 2 ⟨6⟩ :=
    .subscript (show grid.expr ⟨6⟩ = .ok (.subscript ⟨5⟩ ⟨1⟩) from rfl)
      (.subscript (show grid.expr ⟨5⟩ = .ok (.subscript ⟨4⟩ ⟨1⟩) from rfl) (.name rfl))
  have hcheck : Prod.map
      (Except.map fun outcome => (outcome.traces, outcome.diagnostics.map (·.code)))
      (fun last => last.store.get? ⟨1⟩) (check { program := grid } (.proc ⟨1⟩) {}) =
      (.ok (.single (.event .output ⟨⟨5⟩, some ⟨1⟩⟩), [.refinementViolation]),
        some (.single .skip)) := by cbv
  refine ⟨hrooted, ?_⟩
  generalize check { program := grid } (.proc ⟨1⟩) {} = result at hcheck
  obtain ⟨answer, last⟩ := result
  cases answer with
  | error => cases (Prod.mk.inj hcheck).1
  | ok outcome =>
      obtain ⟨hanswer, hstore⟩ := Prod.mk.inj hcheck
      obtain ⟨htraces, hcodes⟩ := Prod.mk.inj (Except.ok.inj hanswer)
      exact ⟨outcome, last, rfl, htraces, hcodes, hstore⟩

end Walk

end ProcessContracts
