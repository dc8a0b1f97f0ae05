import ProcessContracts.Proofs.AnsweredInstances
import ProcessContracts.Proofs.RenamedChannels

/-!
# Formals in the references of an instance

An instance replaces the root of a reference if the root is the name of a formal inside decorations.
It leaves subscripts alone, and roots that are not a name. So a formal that no argument mentions is
left in a reference exactly where it was written in one of these places.
-/

namespace ProcessContracts

variable {program : Program} {name other : NameId} {id core : ExprId} {chan chan' : ChanRef}

namespace Program

/-- The name is written somewhere in the expression. -/
inductive Mentions (program : Program) (name : NameId) : ExprId → Prop
  | here {id : ExprId} : program.expr id = .ok (.name name) → Mentions program name id
  | inside {id operand : ExprId} {e : Expr} : program.expr id = .ok e → operand ∈ e.operands →
      Mentions program name operand → Mentions program name id

theorem mentions_iff {e : Expr} (h : program.expr id = .ok e) : program.Mentions name id ↔
    e = .name name ∨ ∃ operand ∈ e.operands, program.Mentions name operand := by
  constructor
  · intro hmentions
    cases hmentions with
    | here hname => exact .inl (Except.ok.inj (h.symm.trans hname))
    | inside hexpr hoperand hinner =>
        obtain rfl := Except.ok.inj (h.symm.trans hexpr)
        exact .inr ⟨_, hoperand, hinner⟩
  · rintro (rfl | ⟨operand, hoperand, hinner⟩)
    · exact .here h
    · exact .inside h hoperand hinner

theorem mentions_stripWithin {depth : Nat} (h : program.stripWithin depth id = .ok core) :
    program.Mentions name core ↔ program.Mentions name id := by
  induction depth generalizing id with
  | zero => cases h
  | succ depth ih =>
      obtain ⟨e, hexpr, h⟩ := Lookup.bind_eq_ok.1 h
      cases e with
      | decorated inner _ =>
          rw [ih h, mentions_iff hexpr]
          simp [Expr.operands]
      | _ =>
          obtain rfl := Except.ok.inj h
          rfl

theorem mentions_strip (h : program.strip id = .ok core) :
    program.Mentions name core ↔ program.Mentions name id := mentions_stripWithin h

/-- An expression that denotes a name mentions no other one. -/
theorem mentions_of_resolveName (h : program.resolveName id = .ok (some other)) :
    program.Mentions name id ↔ name = other := by
  obtain ⟨core, hstrip, h⟩ := Lookup.bind_eq_ok.1 h
  obtain ⟨e, hexpr, h⟩ := Lookup.bind_eq_ok.1 h
  rw [← mentions_strip hstrip, mentions_iff hexpr]
  cases e with
  | name known =>
      obtain rfl := Option.some.inj (Except.ok.inj h)
      simp [Expr.operands, eq_comm]
  | _ => cases Except.ok.inj h

end Program

namespace ChanRef

/-- The name is written in the subscript of the reference. -/
def MentionsInIndex (program : Program) (name : NameId) (chan : ChanRef) : Prop :=
  ∃ index ∈ chan.index, program.Mentions name index

/-- The name is written in the reference. -/
def Mentions (program : Program) (name : NameId) (chan : ChanRef) : Prop :=
  program.Mentions name chan.root ∨ chan.MentionsInIndex program name

end ChanRef

namespace Substitution

variable {bindings : Substitution}

/-- The reference an argument makes mentions what the argument and the subscript do. -/
theorem mentions_target {actual : ExprId} {index : Option ExprId}
    (h : target program actual index = .ok chan') : chan'.Mentions program name ↔
      program.Mentions name actual ∨ ∃ i ∈ index, program.Mentions name i := by
  obtain ⟨e, hexpr, h⟩ := Lookup.bind_eq_ok.1 h
  split at h
  case h_1 base own =>
    obtain ⟨root, hroot, h⟩ := Lookup.bind_eq_ok.1 h
    obtain rfl := Except.ok.inj h
    rw [Program.mentions_iff hexpr]
    simp [ChanRef.Mentions, ChanRef.MentionsInIndex, Expr.operands, Program.mentions_strip hroot]
  case h_2 =>
    obtain rfl := Except.ok.inj h
    rfl

/-- A formal that no argument mentions is left in the subscript, and in a root that is no name. -/
theorem mentions_redirect_iff (hbound : bindings.get? name ≠ none)
    (hactuals : ∀ formal actual, bindings.get? formal = some actual →
      ¬ program.Mentions name actual)
    (h : redirect program bindings chan = .ok chan') : chan'.Mentions program name ↔
      chan.MentionsInIndex program name ∨
        program.resolveName chan.root = .ok none ∧ program.Mentions name chan.root := by
  obtain ⟨found, hfound, h⟩ := Lookup.bind_eq_ok.1 h
  cases found with
  | none =>
      obtain rfl := Except.ok.inj h
      simp [ChanRef.Mentions, hfound, or_comm]
  | some formal =>
      -- The root is a name, so it is the subscript that matters.
      have hroot : program.Mentions name chan.root ↔ name = formal :=
        Program.mentions_of_resolveName hfound
      suffices hsuffices : chan'.Mentions program name ↔ chan.MentionsInIndex program name by
        simp [hsuffices, hfound]
      dsimp only at h
      split at h
      case h_1 hunbound =>
        obtain rfl := Except.ok.inj h
        have hne : name ≠ formal := fun heq => hbound (heq ▸ hunbound)
        simp [ChanRef.Mentions, hroot, hne]
      case h_2 actual hactual =>
        have hfree := hactuals formal actual hactual
        obtain ⟨inner, hstrip, h⟩ := Lookup.bind_eq_ok.1 h
        obtain ⟨known, hknown, h⟩ := Lookup.bind_eq_ok.1 h
        split at h
        case isTrue hself =>
          obtain rfl := Except.ok.inj h
          rw [← Program.mentions_strip hstrip,
            Program.mentions_of_resolveName (hknown.trans (congrArg Except.ok hself))] at hfree
          simp [ChanRef.Mentions, hroot, hfree]
        case isFalse =>
          rw [mentions_target h, Program.mentions_strip hstrip]
          simp [hfree, ChanRef.MentionsInIndex]

variable {callee : DeclId} {decl : Decl} {args : List Arg} {t t' : Trace}

/-- The references of an instance, one for each reference of the trace, mention a visible formal
that no visible argument mentions exactly where the reference has it in its subscript, or in a root
that is not a name. -/
theorem formals_survive_iff (hdecl : program.decl callee = .ok decl)
    (hcall : forCall program callee args = .ok (.ok bindings))
    (h : bindings.apply program t = .ok t') :
    ∃ f : ChanRef → ChanRef, t'.channels = t.channels.map f ∧
      ∀ chan ∈ t.channels, ∀ param ∈ decl.visibleParams,
        (∀ arg ∈ args, arg.hidden = false → ¬ program.Mentions param.name arg.expr) →
          ((f chan).Mentions program param.name ↔
            chan.MentionsInIndex program param.name ∨
              program.resolveName chan.root = .ok none ∧
                program.Mentions param.name chan.root) := by
  have hpair : pair decl.params args = .ok bindings := by
    rw [forCall, hdecl] at hcall
    exact Except.ok.inj hcall
  cases hempty : bindings.isEmpty with
  | true =>
      -- Without bindings there is no visible formal.
      rw [apply, if_pos hempty] at h
      obtain rfl := Except.ok.inj h
      refine ⟨fun chan => chan, (List.map_id' _).symm, fun chan _ param hparam => ?_⟩
      refine absurd ?_ (get?_of_pair hpair hparam)
      rw [Ledger.get?, List.isEmpty_iff.1 hempty]
      rfl
  | false =>
      obtain ⟨rfl, hanswered⟩ := apply_eq_ok h hempty
      refine ⟨_, Trace.channels_mapChannels _ t, fun chan hchan param hparam hactuals => ?_⟩
      obtain ⟨chan', hredirect⟩ := hanswered chan hchan
      rw [hredirect, Lookup.getD_ok]
      refine mentions_redirect_iff (get?_of_pair hpair hparam) (fun formal actual hget => ?_)
        hredirect
      obtain ⟨arg, harg, hvisible, rfl⟩ := exists_arg_of_pair hpair hget
      exact hactuals arg harg hvisible

/-- A procedure that writes on an element of its formal, and an instance with an array and a number
for its two formals. -/
def feed : Program where
  name := "feed"
  names := #[⟨"lanes", .param ⟨0⟩ 0 false, {}⟩, ⟨"n", .param ⟨0⟩ 1 false, {}⟩,
    ⟨"tracks", .channel, {}⟩]
  exprs := #[⟨.name ⟨0⟩, {}⟩, ⟨.name ⟨1⟩, {}⟩, ⟨.subscript ⟨0⟩ ⟨1⟩, {}⟩, ⟨.name ⟨2⟩, {}⟩,
    ⟨.int 3, {}⟩]
  nodes := #[⟨.output ⟨2⟩, {}⟩]
  decls := #[
    { name := "feed", params := [⟨⟨0⟩, true, false⟩, ⟨⟨1⟩, false, false⟩], body := some ⟨0⟩ }]

def feedArgs : List Arg := [⟨⟨3⟩, false⟩, ⟨⟨4⟩, false⟩]

theorem feedArgs_fresh {param : NameId} (hparam : param ≠ ⟨2⟩) :
    ∀ arg ∈ feedArgs, arg.hidden = false → ¬ feed.Mentions param arg.expr := by
  have htracks : feed.Mentions param ⟨3⟩ ↔ param = ⟨2⟩ := Program.mentions_of_resolveName rfl
  have hthree : ¬ feed.Mentions param ⟨4⟩ := by
    rw [Program.mentions_iff (show feed.expr ⟨4⟩ = .ok (.int 3) from rfl)]
    simp [Expr.operands]
  simp [feedArgs, htracks, hparam, hthree]

theorem lanes_replaced : ∃ bindings t',
    forCall feed ⟨0⟩ feedArgs = .ok (.ok bindings) ∧
    bindings.apply feed (.event .output ⟨⟨0⟩, some ⟨1⟩⟩) = .ok t' ∧
    ∀ chan ∈ t'.channels, ¬ chan.Mentions feed ⟨0⟩ := by
  refine ⟨_, _, rfl, rfl, fun chan hchan => ?_⟩
  obtain ⟨f, hchannels, hsurvives⟩ := @formals_survive_iff feed _ ⟨0⟩ _ feedArgs
    (.event .output ⟨⟨0⟩, some ⟨1⟩⟩) _ rfl rfl rfl
  rw [hchannels] at hchan
  obtain rfl := List.mem_singleton.1 hchan
  rw [hsurvives _ (List.mem_singleton_self _) ⟨⟨0⟩, true, false⟩ (by decide)
    (feedArgs_fresh (by decide))]
  have hindex : feed.Mentions ⟨0⟩ ⟨1⟩ ↔ (⟨0⟩ : NameId) = ⟨1⟩ := Program.mentions_of_resolveName rfl
  have hroot : feed.resolveName ⟨0⟩ = .ok (some ⟨0⟩) := rfl
  simp [ChanRef.MentionsInIndex, hindex, hroot]

/-- The subscript of the reference is left as it is written. -/
theorem number_survives : ∃ bindings,
    forCall feed ⟨0⟩ feedArgs = .ok (.ok bindings) ∧
    ChanRef.ofExpr feed ⟨2⟩ = .ok ⟨⟨0⟩, some ⟨1⟩⟩ ∧
    bindings.apply feed (.event .output ⟨⟨0⟩, some ⟨1⟩⟩) = .ok (.event .output ⟨⟨3⟩, some ⟨1⟩⟩) ∧
    ChanRef.Mentions feed ⟨1⟩ ⟨⟨3⟩, some ⟨1⟩⟩ ∧
    ∀ arg ∈ feedArgs, arg.hidden = false → ¬ feed.Mentions ⟨1⟩ arg.expr :=
  ⟨_, rfl, rfl, rfl, .inr ⟨⟨1⟩, rfl, .here rfl⟩, feedArgs_fresh (by decide)⟩

end Substitution

end ProcessContracts
