import ProcessContracts.Proofs.WellFormed

/-!
# Queries that are answered

In a program in order every query that follows handles is answered, and the handles of the answer
are in range again.
-/

namespace ProcessContracts

open Lookup

/-! ## Handles in range -/

structure ChanRef.InRange (program : Program) (chan : ChanRef) : Prop where
  root : program.InExprs chan.root
  index : ∀ id ∈ chan.index, program.InExprs id

/-- Every channel of the trace is in range. -/
def Trace.InRange (program : Program) (t : Trace) : Prop :=
  ∀ chan ∈ t.channels, chan.InRange program

def ChannelRoot.InRange (program : Program) : ChannelRoot → Prop
  | .name id => program.InNames id
  | .expr id => program.InExprs id

def ChannelIndex.InRange (program : Program) : ChannelIndex → Prop
  | .const _ => True
  | .expr id => program.InExprs id

structure ChannelKey.InRange (program : Program) (key : ChannelKey) : Prop where
  root : key.root.InRange program
  index : ∀ index ∈ key.index, index.InRange program

def Label.InRange (program : Program) : Label → Prop
  | .tick => True
  | .event _ key => key.InRange program

namespace Program

variable {program : Program} (h : program.InOrder) {id : ExprId} (hid : program.InExprs id)
include h

/-! ## Expressions -/

theorem answers_expr (hid : program.InExprs id) : Answers (program.expr id) fun e =>
    (∀ name ∈ e.names, program.InNames name) ∧ ∀ operand ∈ e.operands, program.InExprs operand ∧
      program.exprHeight operand < program.exprHeight id := exists_expr h hid

include hid

theorem answers_stripWithin {depth : Nat} (hdepth : program.exprHeight id < depth) :
    Answers (program.stripWithin depth id) program.InExprs := by
  induction depth generalizing id with
  | zero => exact absurd hdepth (Nat.not_lt_zero _)
  | succ depth ih =>
      refine (answers_expr h hid).bind fun e he => ?_
      split
      case h_1 inner decoration =>
        obtain ⟨hinner, hlt⟩ := he.2 inner List.mem_cons_self
        exact ih hinner (by omega)
      case h_2 => exact answers_pure hid

theorem answers_strip : Answers (program.strip id) program.InExprs :=
  answers_stripWithin h hid (exprHeight_lt h hid)

theorem answers_resolveName :
    Answers (program.resolveName id) fun found => ∀ name ∈ found, program.InNames name := by
  refine (answers_strip h hid).bind fun target htarget =>
    (answers_expr h htarget).bind fun e he => ?_
  split
  case h_1 name =>
    refine answers_pure ?_
    rintro _ ⟨⟩
    exact he.1 name List.mem_cons_self
  case h_2 => exact answers_pure (by simp)

theorem answers_constantWithin {depth : Nat} (hdepth : program.exprHeight id < depth) :
    Answers (program.constantWithin depth id) fun _ => True := by
  induction depth generalizing id with
  | zero => exact absurd hdepth (Nat.not_lt_zero _)
  | succ depth ih =>
      refine (answers_expr h hid).bind fun e he => ?_
      have hoperand : ∀ operand ∈ e.operands,
          Answers (program.constantWithin depth operand) fun _ => True := fun operand hoperand => by
        obtain ⟨hrange, hlt⟩ := he.2 operand hoperand
        exact ih hrange (by omega)
      cases e with
      | decorated inner _ => exact hoperand inner List.mem_cons_self
      | unary op operand =>
          exact (hoperand operand List.mem_cons_self).bind fun value _ => answers_pure trivial
      | binary op left right =>
          refine (hoperand left List.mem_cons_self).bind fun l _ => ?_
          split
          · exact answers_pure trivial
          · exact (hoperand right (List.mem_cons_of_mem _ List.mem_cons_self)).bind
              fun r _ => answers_pure trivial
      | _ => exact answers_pure trivial

theorem answers_constantValue : Answers (program.constantValue id) fun _ => True :=
  answers_constantWithin h hid (exprHeight_lt h hid)

omit h hid in
theorem answers_nameText {name : NameId} (hname : program.InNames name) :
    Answers (program.nameText name) fun _ => True := by
  refine ⟨program.names[name.index].name, ?_, trivial⟩
  rw [nameText, nameDecl, Array.getElem?_eq_getElem hname]
  rfl

theorem answers_describeWithin {depth : Nat} (hdepth : program.exprHeight id < depth) :
    Answers (program.describeWithin depth id) fun _ => True := by
  induction depth generalizing id with
  | zero => exact absurd hdepth (Nat.not_lt_zero _)
  | succ depth ih =>
      refine (answers_expr h hid).bind fun e he => ?_
      have hoperand : ∀ operand ∈ e.operands,
          Answers (program.describeWithin depth operand) fun _ => True := fun operand hoperand => by
        obtain ⟨hrange, hlt⟩ := he.2 operand hoperand
        exact ih hrange (by omega)
      cases e with
      | name name => exact answers_nameText (he.1 name List.mem_cons_self)
      | decorated inner _ => exact hoperand inner List.mem_cons_self
      | subscript base index =>
          exact (hoperand base List.mem_cons_self).bind fun _ _ =>
            (hoperand index (List.mem_cons_of_mem _ List.mem_cons_self)).bind fun _ _ =>
              answers_pure trivial
      | _ => exact answers_pure trivial

theorem answers_describe : Answers (program.describe id) fun _ => True :=
  answers_describeWithin h hid (exprHeight_lt h hid)

end Program

/-! ## Channels -/

section Channels

variable {program : Program} (h : program.InOrder)
include h

theorem ChanRef.answers_ofExpr {id : ExprId} (hid : program.InExprs id) :
    Answers (ChanRef.ofExpr program id) (ChanRef.InRange program) := by
  refine (Program.answers_strip h hid).bind fun target htarget =>
    (Program.answers_expr h htarget).bind fun e he => ?_
  split
  case h_1 base index =>
    refine (Program.answers_strip h (he.2 base List.mem_cons_self).1).bind fun root hroot =>
      answers_pure ⟨hroot, ?_⟩
    rintro _ ⟨⟩
    exact (he.2 index (List.mem_cons_of_mem _ List.mem_cons_self)).1
  case h_2 => exact answers_pure ⟨htarget, by simp⟩

variable {chan : ChanRef} (hchan : chan.InRange program)
include hchan

theorem ChanRef.answers_isAmong (names : List NameId) :
    Answers (chan.isAmong program names) fun _ => True :=
  (Program.answers_resolveName h hchan.root).bind fun _ _ => answers_pure trivial

theorem ChanRef.answers_describe : Answers (chan.describe program) fun _ => True := by
  refine (Program.answers_describe h hchan.root).bind fun root _ => ?_
  split
  case h_1 index heq =>
    exact (Program.answers_describe h (hchan.index index heq)).bind fun _ _ => answers_pure trivial
  case h_2 => exact answers_pure trivial

theorem ChannelKey.answers_resolve :
    Answers (ChannelKey.resolve program chan) (ChannelKey.InRange program) := by
  have hroot :
      Answers (ChannelKey.resolveRoot program chan.root) (ChannelRoot.InRange program) := by
    refine (Program.answers_resolveName h hchan.root).bind fun found hfound => ?_
    split
    case h_1 name => exact answers_pure (hfound name rfl)
    case h_2 => exact (Program.answers_strip h hchan.root).bind fun id hid => answers_pure hid
  refine hroot.bind fun root hroot => ?_
  split
  case h_1 index heq =>
    have hindex := hchan.index index heq
    have hresolved : Answers (ChannelKey.resolveIndex program index)
        (ChannelIndex.InRange program) := by
      refine (Program.answers_constantValue h hindex).bind fun found _ => ?_
      split
      case h_1 => exact answers_pure trivial
      case h_2 => exact (Program.answers_strip h hindex).bind fun id hid => answers_pure hid
    refine hresolved.bind fun resolved hresolved => answers_pure ⟨hroot, ?_⟩
    rintro _ ⟨⟩
    exact hresolved
  case h_2 => exact answers_pure ⟨hroot, by simp⟩

/-- The key of a reference in range. -/
theorem ChannelKey.inRange_ofRef : (ChannelKey.ofRef program chan).InRange program := by
  obtain ⟨key, hkey, hrange⟩ := answers_resolve h hchan
  rw [ofRef, hkey]
  exact hrange

omit hchan

theorem ChannelKey.answers_describe {key : ChannelKey} (hkey : key.InRange program) :
    Answers (key.describe program) fun _ => True := by
  unfold describe
  extract_lets withIndex
  have hindex : ∀ root, Answers (withIndex root) fun _ => True := by
    intro root
    dsimp only [withIndex]
    split
    case h_1 => exact answers_pure trivial
    case h_2 id heq =>
      exact (Program.answers_describe h (hkey.index _ heq)).bind fun _ _ => answers_pure trivial
    case h_3 => exact answers_pure trivial
  have hroot := hkey.root
  cases hkeyRoot : key.root with
  | name id =>
      rw [hkeyRoot] at hroot
      exact (Program.answers_nameText hroot).bind fun root _ => hindex root
  | expr id =>
      rw [hkeyRoot] at hroot
      exact (Program.answers_describe h hroot).bind fun root _ => hindex root

theorem Label.answers_describe {label : Label} (hlabel : label.InRange program) :
    Answers (label.describe program) fun _ => True := by
  cases label with
  | tick => exact answers_pure trivial
  | event direction key =>
      exact (ChannelKey.answers_describe h hlabel).bind fun _ _ => answers_pure trivial

theorem Trace.answers_describe {t : Trace} (ht : t.InRange program) :
    Answers (t.describe program) fun _ => True :=
  (answers_forM fun chan hchan => ChanRef.answers_describe h (ht chan hchan)).bind
    fun _ _ => answers_pure trivial

end Channels

end ProcessContracts
