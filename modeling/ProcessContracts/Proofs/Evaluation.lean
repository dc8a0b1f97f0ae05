import ProcessContracts.Proofs.WellFormed

/-!
# Evaluating expressions

What an expression comes to in a run, over the whole numbers: operands from left to right, a
conjunction or disjunction no further than its left side if that decides it. Folding an expression
says nothing that a run could contradict, and says all there is to say where no run is needed.
-/

namespace ProcessContracts

/-- What stops an evaluation. -/
inductive Mishap where
  | zeroDivisor
  /-- A result that no literal has. -/
  | outOfRange

/-- The result if a literal has that value. -/
def bounded (n : Int) : Except Mishap Int :=
  if Int64.minValue.toInt ≤ n ∧ n ≤ Int64.maxValue.toInt then .ok n else .error .outOfRange

/-- Truth values are zero and one. -/
def truth (b : Bool) : Int := if b then 1 else 0

def UnaryOp.eval : UnaryOp → Int → Except Mishap Int
  | .neg, n => bounded (-n)
  | .not, n => .ok (truth (n = 0))

/-- Division truncates toward zero. Where the quotient is out of range so is the remainder. -/
def BinaryOp.eval : BinaryOp → Int → Int → Except Mishap Int
  | .add, l, r => bounded (l + r)
  | .sub, l, r => bounded (l - r)
  | .mul, l, r => bounded (l * r)
  | .div, l, r => if r = 0 then .error .zeroDivisor else bounded (l.tdiv r)
  | .rem, l, r =>
      if r = 0 then .error .zeroDivisor else bounded (l.tdiv r) >>= fun _ => .ok (l.tmod r)
  | .eq, l, r => .ok (truth (l = r))
  | .ne, l, r => .ok (truth (l ≠ r))
  | .lt, l, r => .ok (truth (l < r))
  | .le, l, r => .ok (truth (l ≤ r))
  | .gt, l, r => .ok (truth (l > r))
  | .ge, l, r => .ok (truth (l ≥ r))
  | .and, l, r => .ok (truth (l ≠ 0 ∧ r ≠ 0))
  | .or, l, r => .ok (truth (l ≠ 0 ∨ r ≠ 0))

/-- The result where the left operand decides it. -/
def BinaryOp.decided? : BinaryOp → Int → Option Int
  | .and, l => if l = 0 then some 0 else none
  | .or, l => if l = 0 then none else some 1
  | _, _ => none

/-- The value depends on the run. -/
def Expr.IsRuntime : Expr → Prop
  | .name _ | .subscript _ _ | .runtime => True
  | .int _ | .bool _ | .decorated _ _ | .unary _ _ | .binary _ _ _ => False

/-! ## Operators -/

/-- The same number, or none on both sides. -/
def Folds (known : Option Int64) (ending : Except Mishap Int) : Prop :=
  known.map Int64.toInt = ending.toOption

section Folds

variable {known : Option Int64} {ending : Except Mishap Int} {v : Int64} {n : Int}

theorem Folds.ok_of_some (h : Folds (some v) ending) : ending = .ok v.toInt := by
  cases ending with
  | ok n => exact congrArg Except.ok (Option.some.inj h).symm
  | error mishap => cases h

theorem Folds.exists_of_ok (h : Folds known (.ok n)) : ∃ v, known = some v ∧ v.toInt = n :=
  Option.map_eq_some_iff.1 h

theorem Folds.bind {f : Int64 → Option Int64} {g : Int → Except Mishap Int}
    (h : Folds known ending) (hf : ∀ v, Folds (f v) (g v.toInt)) :
    Folds (known.bind f) (ending >>= g) := by
  cases known with
  | none =>
      cases ending with
      | error mishap => rfl
      | ok n => cases h
  | some v =>
      obtain rfl := h.ok_of_some
      exact hf v

theorem folds_truth {b b' : Bool} (h : b = b') :
    Folds (some (truthLiteral b)) (.ok (truth b')) := by
  subst h
  cases b <;> rfl

theorem folds_literal? (n : Int) : Folds (literal? n) (bounded n) := by
  unfold bounded
  split
  case isTrue h =>
    rw [Int64.toInt_minValue, Int64.toInt_maxValue] at h
    have htoInt : (Int64.ofInt n).toInt = n :=
      Int64.toInt_ofInt_of_le h.1 (Int.lt_of_le_sub_one h.2)
    rw [literal?_eq_some_iff.2 htoInt]
    exact congrArg some htoInt
  case isFalse h =>
    cases hliteral : literal? n with
    | none => rfl
    | some v =>
        rw [← literal?_eq_some_iff.1 hliteral] at h
        exact absurd ⟨v.minValue_le_toInt, v.toInt_le⟩ h

/-- A remainder is smaller than its divisor. -/
theorem bounded_tmod (n : Int) {r : Int64} (hr : r.toInt ≠ 0) :
    bounded (n.tmod r.toInt) = .ok (n.tmod r.toInt) := by
  have hlt : (n.tmod r.toInt).natAbs < r.toInt.natAbs := by
    rw [Int.natAbs_tmod]
    exact Nat.mod_lt _ (Int.natAbs_pos.2 hr)
  have hle := r.le_toInt
  have hge := r.toInt_lt
  rw [bounded, Int64.toInt_minValue, Int64.toInt_maxValue, if_pos (by omega)]

theorem UnaryOp.folds (op : UnaryOp) (v : Int64) : Folds (op.apply v) (op.eval v.toInt) := by
  cases op with
  | neg => exact folds_literal? _
  | not => exact folds_truth (decide_eq_decide.2 Int64.toInt_inj.symm)

/-- The operation on literals is the one on whole numbers, as far as that goes. -/
theorem BinaryOp.folds (op : BinaryOp) (l r : Int64) :
    Folds (op.apply l r) (op.eval l.toInt r.toInt) := by
  have hzero : r = 0 ↔ r.toInt = 0 := Int64.toInt_inj.symm
  cases op with
  | add | sub | mul => exact folds_literal? _
  | div =>
      simp only [apply, eval, hzero]
      split
      case isTrue => rfl
      case isFalse => exact folds_literal? _
  | rem =>
      simp only [apply, eval, hzero]
      split
      case isTrue => rfl
      case isFalse hr =>
        exact (folds_literal? _).bind fun _ => bounded_tmod l.toInt hr ▸ folds_literal? _
  | eq | ne | lt | le | gt | ge | and | or =>
      refine folds_truth ?_
      simp [← Int64.toInt_inj, Int64.lt_iff_toInt_lt, Int64.le_iff_toInt_le]

end Folds

/-- What the left operand settles about the value it decides in the run. -/
theorem BinaryOp.settled?_some (op : BinaryOp) (l : Int64) :
    (op.settled? (some l)).map (Option.map Int64.toInt) = (op.decided? l.toInt).map some := by
  have hzero : l = 0 ↔ l.toInt = 0 := Int64.toInt_inj.symm
  cases op with
  | and | or =>
      simp only [settled?, decided?, ne_eq, hzero]
      by_cases h : l.toInt = 0
      · simp [h]
      · simp [h]
  | _ => rfl

namespace Program

variable {program : Program} {state : ExprId → Int} {id : ExprId}

/-- The ends that the evaluation of an expression comes to, with the values of a run for the parts
that depend on it. -/
inductive Evaluates (program : Program) (state : ExprId → Int) : ExprId → Except Mishap Int → Prop
  | int {id value} : program.expr id = .ok (.int value) →
      Evaluates program state id (.ok value.toInt)
  | bool {id value} : program.expr id = .ok (.bool value) →
      Evaluates program state id (.ok (truth value))
  | runtime {id e} : program.expr id = .ok e → e.IsRuntime →
      Evaluates program state id (.ok (state id))
  | decorated {id inner decoration ending} : program.expr id = .ok (.decorated inner decoration) →
      Evaluates program state inner ending → Evaluates program state id ending
  | unary {id op operand ending} : program.expr id = .ok (.unary op operand) →
      Evaluates program state operand ending → Evaluates program state id (ending >>= op.eval)
  | stopped {id op left right mishap} : program.expr id = .ok (.binary op left right) →
      Evaluates program state left (.error mishap) → Evaluates program state id (.error mishap)
  | decided {id op left right l n} : program.expr id = .ok (.binary op left right) →
      Evaluates program state left (.ok l) → op.decided? l = some n →
      Evaluates program state id (.ok n)
  | binary {id op left right l ending} : program.expr id = .ok (.binary op left right) →
      Evaluates program state left (.ok l) → op.decided? l = none →
      Evaluates program state right ending → Evaluates program state id (ending >>= op.eval l)

/-- Nothing that the expression is made of contains itself. -/
def AcyclicAt (program : Program) (id : ExprId) : Prop :=
  ∀ part, Relation.ReflTransGen program.Operand id part →
    ¬ Relation.TransGen program.Operand part part

/-- Nothing that the expression is made of depends on the run. -/
def RunFree (program : Program) (id : ExprId) : Prop :=
  ∀ part e, Relation.ReflTransGen program.Operand id part → program.expr part = .ok e →
    ¬ e.IsRuntime

/-- The end, read off the form of the expression. -/
def EndsAs (program : Program) (state : ExprId → Int) (id : ExprId) (ending : Except Mishap Int) :
    Expr → Prop
  | .int value => ending = .ok value.toInt
  | .bool value => ending = .ok (truth value)
  | .name _ | .subscript _ _ | .runtime => ending = .ok (state id)
  | .decorated inner _ => program.Evaluates state inner ending
  | .unary op operand =>
      ∃ before, program.Evaluates state operand before ∧ ending = before >>= op.eval
  | .binary op left right =>
      (∃ mishap, program.Evaluates state left (.error mishap) ∧ ending = .error mishap) ∨
      ∃ l, program.Evaluates state left (.ok l) ∧
        match op.decided? l with
        | some n => ending = .ok n
        | none => ∃ before, program.Evaluates state right before ∧ ending = before >>= op.eval l

theorem Evaluates.endsAs {ending : Except Mishap Int} {e : Expr}
    (h : program.Evaluates state id ending) (hexpr : program.expr id = .ok e) :
    program.EndsAs state id ending e := by
  cases h with
  | runtime hexpr' hruntime =>
      cases hexpr.symm.trans hexpr'
      cases e <;> first | rfl | exact hruntime.elim
  | int hexpr' | bool hexpr' =>
      cases hexpr.symm.trans hexpr'
      rfl
  | decorated hexpr' hinner =>
      cases hexpr.symm.trans hexpr'
      exact hinner
  | unary hexpr' hoperand =>
      cases hexpr.symm.trans hexpr'
      exact ⟨_, hoperand, rfl⟩
  | stopped hexpr' hleft =>
      cases hexpr.symm.trans hexpr'
      exact .inl ⟨_, hleft, rfl⟩
  | decided hexpr' hleft hdecided =>
      cases hexpr.symm.trans hexpr'
      exact .inr ⟨_, hleft, by rw [hdecided]⟩
  | binary hexpr' hleft hdecided hright =>
      cases hexpr.symm.trans hexpr'
      exact .inr ⟨_, hleft, by rw [hdecided]; exact ⟨_, hright, rfl⟩⟩

/-- An evaluation comes to one end. -/
theorem Evaluates.unique {ending ending' : Except Mishap Int}
    (h : program.Evaluates state id ending) (h' : program.Evaluates state id ending') :
    ending' = ending := by
  induction h generalizing ending' with
  | int hexpr | bool hexpr => exact h'.endsAs hexpr
  | @runtime _ e hexpr hruntime =>
      have hends := h'.endsAs hexpr
      cases e <;> first | exact hends | exact hruntime.elim
  | decorated hexpr _ ih => exact ih (h'.endsAs hexpr)
  | unary hexpr _ ih =>
      obtain ⟨before, hoperand, rfl⟩ := h'.endsAs hexpr
      rw [ih hoperand]
  | stopped hexpr _ ih =>
      rcases h'.endsAs hexpr with ⟨mishap, hleft, rfl⟩ | ⟨l, hleft, -⟩
      · exact ih hleft
      · cases ih hleft
  | decided hexpr _ hdecided ih =>
      rcases h'.endsAs hexpr with ⟨mishap, hleft, -⟩ | ⟨l, hleft, hends⟩
      · cases ih hleft
      · cases ih hleft
        rwa [hdecided] at hends
  | binary hexpr _ hdecided _ ihLeft ihRight =>
      rcases h'.endsAs hexpr with ⟨mishap, hleft, -⟩ | ⟨l, hleft, hends⟩
      · cases ihLeft hleft
      · cases ihLeft hleft
        rw [hdecided] at hends
        obtain ⟨before, hright, rfl⟩ := hends
        rw [ihRight hright]

/-! ## Folding -/

section Folding

variable {v : Int64} {depth : Nat}

/-- What folding says of an expression is what every run comes to. -/
theorem evaluates_of_constantWithin (h : program.constantWithin depth id = .ok (some v))
    (state : ExprId → Int) : program.Evaluates state id (.ok v.toInt) := by
  induction depth generalizing id v with
  | zero => cases h
  | succ depth ih =>
      obtain ⟨e, hexpr, h⟩ := Lookup.bind_eq_ok.1 h
      cases e with
      | int value =>
          cases h
          exact .int hexpr
      | bool value =>
          cases h
          have hfolds : Folds (some (truthLiteral value)) (.ok (truth value)) := folds_truth rfl
          exact hfolds.ok_of_some ▸ .bool hexpr
      | name | subscript | runtime => cases h
      | decorated inner _ => exact .decorated hexpr (ih h)
      | unary op operand =>
          obtain ⟨known, hoperand, h⟩ := Lookup.bind_eq_ok.1 h
          obtain ⟨w, rfl, happly⟩ := Option.bind_eq_some_iff.1 (Except.ok.inj h)
          have hfolds := op.folds w
          rw [happly] at hfolds
          exact hfolds.ok_of_some ▸ .unary hexpr (ih hoperand)
      | binary op left right =>
          obtain ⟨known, hleft, h⟩ := Lookup.bind_eq_ok.1 h
          cases known with
          | none =>
              -- What an unknown left side leaves open stays unknown.
              split at h
              case h_1 known hknown =>
                cases h
                cases op <;> cases hknown
              case h_2 =>
                obtain ⟨_, -, h⟩ := Lookup.bind_eq_ok.1 h
                cases h
          | some l =>
              have hsettled := op.settled?_some l
              split at h
              case h_1 known hknown =>
                cases h
                rw [hknown] at hsettled
                obtain ⟨n, hdecided, hn⟩ := Option.map_eq_some_iff.1 hsettled.symm
                obtain rfl := Option.some.inj hn
                exact .decided hexpr (ih hleft) hdecided
              case h_2 hnone =>
                rw [hnone] at hsettled
                obtain ⟨known, hright, h⟩ := Lookup.bind_eq_ok.1 h
                have hknown : known.bind (op.apply l) = some v := Except.ok.inj h
                obtain ⟨r, rfl, happly⟩ := Option.bind_eq_some_iff.1 hknown
                have hfolds := op.folds l r
                rw [happly] at hfolds
                exact hfolds.ok_of_some ▸
                  .binary hexpr (ih hleft) (Option.map_eq_none_iff.1 hsettled.symm) (ih hright)

section Forms

variable {op : BinaryOp} {left right : ExprId} {l : Int64} {known : Option Int64}

theorem constantWithin_unary {op : UnaryOp} {operand : ExprId}
    (hexpr : program.expr id = .ok (.unary op operand))
    (h : program.constantWithin depth operand = .ok known) :
    program.constantWithin (depth + 1) id = .ok (known.bind op.apply) :=
  Lookup.bind_eq_ok.2 ⟨_, hexpr, Lookup.bind_eq_ok.2 ⟨_, h, rfl⟩⟩

theorem constantWithin_settled_left (hexpr : program.expr id = .ok (.binary op left right))
    (hleft : program.constantWithin depth left = .ok (some l))
    (hsettled : op.settled? (some l) = some known) :
    program.constantWithin (depth + 1) id = .ok known :=
  Lookup.bind_eq_ok.2 ⟨_, hexpr, Lookup.bind_eq_ok.2 ⟨_, hleft, by rw [hsettled]; rfl⟩⟩

theorem constantWithin_binary (hexpr : program.expr id = .ok (.binary op left right))
    (hleft : program.constantWithin depth left = .ok (some l)) (hopen : op.settled? (some l) = none)
    (hright : program.constantWithin depth right = .ok known) :
    program.constantWithin (depth + 1) id = .ok (known.bind (op.apply l)) :=
  Lookup.bind_eq_ok.2 ⟨_, hexpr, Lookup.bind_eq_ok.2
    ⟨_, hleft, by rw [hopen]; exact Lookup.bind_eq_ok.2 ⟨_, hright, rfl⟩⟩⟩

end Forms

/-- The expression is written inside `root`, and the operand directly inside it. -/
def OperandIn (program : Program) (root id operand : ExprId) : Prop :=
  Relation.ReflTransGen program.Operand root id ∧ program.Operand id operand

theorem AcyclicAt.operandIn {root : ExprId} (h : program.AcyclicAt root) (id : ExprId) :
    ¬ Relation.TransGen (program.OperandIn root) id id := by
  intro hcycle
  obtain ⟨_, ⟨hreach, -⟩, -⟩ := Relation.TransGen.head'_iff.1 hcycle
  have hmono : program.OperandIn root ≤ program.Operand := fun _ _ hstep => hstep.2
  exact h id hreach (Relation.TransGen.mono hmono _ _ hcycle)

theorem operand_of_expr {operand : ExprId} {e : Expr} (hexpr : program.expr id = .ok e)
    (hoperand : operand ∈ e.operands) : program.Operand id operand := by
  unfold expr spannedExpr at hexpr
  split at hexpr
  case h_2 => cases hexpr
  case h_1 written hget =>
    obtain rfl := Except.ok.inj hexpr
    exact ⟨written, hget, hoperand⟩

theorem inExprs_of_expr {e : Expr} (hexpr : program.expr id = .ok e) : program.InExprs id := by
  unfold expr spannedExpr at hexpr
  split at hexpr
  case h_2 => cases hexpr
  case h_1 written hget => exact (Array.getElem?_eq_some_iff.1 hget).1

theorem Evaluates.exists_expr {ending : Except Mishap Int} (h : program.Evaluates state id ending) :
    ∃ e, program.expr id = .ok e := by
  cases h <;> exact ⟨_, ‹_›⟩

theorem Evaluates.inExprs {ending : Except Mishap Int} (h : program.Evaluates state id ending) :
    program.InExprs id := by
  obtain ⟨e, hexpr⟩ := h.exists_expr
  exact inExprs_of_expr hexpr

/-- The expression is written inside `root`, and the depth suffices to look through it. -/
def InDepth (program : Program) (root : ExprId) (depth : Nat) (id : ExprId) : Prop :=
  Relation.ReflTransGen program.Operand root id ∧
    height (program.OperandIn root) ExprId.mk program.exprs.size id < depth

variable {root : ExprId}

theorem AcyclicAt.inDepth (h : program.AcyclicAt root) (hroot : program.InExprs root) :
    program.InDepth root program.exprDepth root :=
  ⟨.refl, Nat.lt_succ_of_lt (height_lt h.operandIn hroot)⟩

theorem InDepth.operand (h : program.InDepth root (depth + 1) id)
    (hacyclic : program.AcyclicAt root)
    {e : Expr} (hexpr : program.expr id = .ok e) {operand : ExprId}
    (hoperand : operand ∈ e.operands)
    (hin : program.InExprs operand) : program.InDepth root depth operand := by
  have hstep := operand_of_expr hexpr hoperand
  have hlt : height (program.OperandIn root) ExprId.mk program.exprs.size ⟨operand.index⟩ <
      height (program.OperandIn root) ExprId.mk program.exprs.size ⟨id.index⟩ :=
    height_lt_of_rel hacyclic.operandIn ⟨h.1, hstep⟩ hin
  exact ⟨h.1.tail hstep, Nat.lt_of_lt_of_le hlt (Nat.le_of_lt_succ h.2)⟩

/-- An evaluation without a mishap is folded, if nothing in it depends on the run. -/
theorem exists_constantWithin (hacyclic : program.AcyclicAt root) (hfree : program.RunFree root)
    {n : Int} (h : program.Evaluates state id (.ok n)) (hdepth : program.InDepth root depth id) :
    ∃ v, v.toInt = n ∧ program.constantWithin depth id = .ok (some v) := by
  induction depth generalizing id n with
  | zero => exact absurd hdepth.2 (Nat.not_lt_zero _)
  | succ depth ih =>
      obtain ⟨e, hexpr⟩ := h.exists_expr
      have hends := h.endsAs hexpr
      have hoperand : ∀ operand ∈ e.operands, ∀ m, program.Evaluates state operand (.ok m) →
          ∃ v, v.toInt = m ∧ program.constantWithin depth operand = .ok (some v) :=
        fun operand hmem m hm => ih hm (hdepth.operand hacyclic hexpr hmem hm.inExprs)
      cases e with
      | int value =>
          cases hends
          exact ⟨value, rfl, by rw [constantWithin, hexpr]; rfl⟩
      | bool value =>
          obtain ⟨v, hv, heq⟩ := (folds_truth (rfl : value = value)).exists_of_ok
          cases hends
          exact ⟨v, heq, by rw [constantWithin, hexpr, ← hv]; rfl⟩
      | name | subscript | runtime => exact (hfree id _ hdepth.1 hexpr trivial).elim
      | decorated inner _ =>
          obtain ⟨v, hvalue, hv⟩ := hoperand inner List.mem_cons_self n hends
          exact ⟨v, hvalue, by rw [constantWithin, hexpr]; exact hv⟩
      | unary op operand =>
          obtain ⟨before, heval, heq⟩ := hends
          cases before with
          | error mishap => cases heq
          | ok m =>
              obtain ⟨w, rfl, hw⟩ := hoperand operand List.mem_cons_self m heval
              have hfolds := op.folds w
              rw [show op.eval w.toInt = .ok n from heq.symm] at hfolds
              obtain ⟨v, hv, hvalue⟩ := hfolds.exists_of_ok
              exact ⟨v, hvalue, hv ▸ constantWithin_unary hexpr hw⟩
      | binary op left right =>
          obtain ⟨_, -, heq⟩ | ⟨m, heval, hends⟩ := hends
          · cases heq
          obtain ⟨l, rfl, hl⟩ := hoperand left List.mem_cons_self m heval
          have hsettled := op.settled?_some l
          cases hdecided : op.decided? l.toInt with
          | some k =>
              rw [hdecided] at hends hsettled
              cases hends
              obtain ⟨known, hknown, hmap⟩ := Option.map_eq_some_iff.1 hsettled
              obtain ⟨v, rfl, hv⟩ := Option.map_eq_some_iff.1 hmap
              exact ⟨v, hv, constantWithin_settled_left hexpr hl hknown⟩
          | none =>
              rw [hdecided] at hends hsettled
              obtain ⟨before, heval', heq⟩ := hends
              cases before with
              | error mishap => cases heq
              | ok k =>
                  obtain ⟨r, rfl, hr⟩ := hoperand right (by simp [Expr.operands]) k heval'
                  have hfolds := op.folds l r
                  rw [show op.eval l.toInt r.toInt = .ok n from heq.symm] at hfolds
                  obtain ⟨v, hv, hvalue⟩ := hfolds.exists_of_ok
                  have hopen := Option.map_eq_none_iff.1 hsettled
                  exact ⟨v, hvalue, hv ▸ constantWithin_binary hexpr hl hopen hr⟩

end Folding

/-- A value that is known without a run is what the evaluation comes to in every run, without a
mishap, and a truth value that is known is the one a guard has. An expression without a part that
depends on the run has a known value unless its evaluation meets a mishap. -/
theorem constantValue_in_every_run (program : Program) (id : ExprId) :
    (∀ v, program.constantValue id = .ok (some v) → ∀ state ending,
      program.Evaluates state id ending ↔ ending = .ok v.toInt) ∧
    (∀ b, program.constantTruth id = .ok (some b) → ∀ state ending,
      program.Evaluates state id ending → ∃ n, ending = .ok n ∧ (b = true ↔ n ≠ 0)) ∧
    (program.AcyclicAt id → program.RunFree id → ∀ state n, program.Evaluates state id (.ok n) →
      ∃ v, v.toInt = n ∧ program.constantValue id = .ok (some v)) := by
  have hvalue : ∀ v, program.constantValue id = .ok (some v) → ∀ state ending,
      program.Evaluates state id ending ↔ ending = .ok v.toInt := by
    intro v hv state ending
    have hevaluates := evaluates_of_constantWithin hv state
    constructor
    · exact hevaluates.unique
    · rintro rfl
      exact hevaluates
  refine ⟨hvalue, fun b hb state ending hending => ?_, fun hacyclic hfree state n hn => ?_⟩
  · obtain ⟨known, hknown, hb⟩ := Lookup.bind_eq_ok.1 hb
    obtain ⟨v, rfl, rfl⟩ := Option.map_eq_some_iff.1 (Except.ok.inj hb)
    refine ⟨v.toInt, (hvalue v hknown state ending).1 hending, ?_⟩
    rw [decide_eq_true_iff]
    exact not_congr Int64.toInt_inj.symm
  · exact exists_constantWithin hacyclic hfree hn (hacyclic.inDepth hn.inExprs)

/-- A guard that has a value although its right side has none, and one that is known although its
right side is not. -/
def guarded : Program where
  name := "guarded"
  exprs := #[⟨.binary .or ⟨1⟩ ⟨2⟩, {}⟩, ⟨.bool true, {}⟩, ⟨.binary .div ⟨3⟩ ⟨4⟩, {}⟩, ⟨.int 1, {}⟩,
    ⟨.int 0, {}⟩, ⟨.binary .and ⟨6⟩ ⟨7⟩, {}⟩, ⟨.bool false, {}⟩, ⟨.runtime, {}⟩]

theorem guarded_in_every_run : guarded.AcyclicAt ⟨0⟩ ∧ guarded.RunFree ⟨0⟩ ∧
    (∃ v, v.toInt = 1 ∧ guarded.constantValue ⟨0⟩ = .ok (some v)) ∧
    (∀ state ending, guarded.Evaluates state ⟨5⟩ ending ↔ ending = .ok 0) ∧
    ∀ state ending, guarded.Evaluates state ⟨5⟩ ending →
      ∃ n, ending = .ok n ∧ (false = true ↔ n ≠ 0) := by
  have hascending : ∀ i : Fin guarded.exprs.size, ∀ operand ∈ guarded.exprs[i].value.operands,
      i.val < operand.index ∧ (i.val < 5 → operand.index < 5) := by decide
  have hoperand : ∀ id operand, guarded.Operand id operand →
      id.index < operand.index ∧ (id.index < 5 → operand.index < 5) := by
    rintro id operand ⟨written, hget, hoperand⟩
    obtain ⟨hlt, rfl⟩ := Array.getElem?_eq_some_iff.1 hget
    exact hascending ⟨id.index, hlt⟩ operand hoperand
  have hacyclic : guarded.AcyclicAt ⟨0⟩ := fun part _ =>
    acyclic_of_ascending ExprId.index (fun id operand h => (hoperand id operand h).1) part
  have hfree : guarded.RunFree ⟨0⟩ := by
    intro part e hreach hexpr hruntime
    have hinside : part.index < 5 := by
      clear hexpr
      induction hreach with
      | refl => decide
      | tail _ hstep hpart => exact (hoperand _ _ hstep).2 hpart
    match part with
    | ⟨0⟩ | ⟨1⟩ | ⟨2⟩ | ⟨3⟩ | ⟨4⟩ =>
        cases hexpr
        exact hruntime
    | ⟨n + 5⟩ => exact absurd hinside (Nat.not_lt.2 (Nat.le_add_left 5 n))
  have hevaluates : guarded.Evaluates (fun _ => 0) ⟨0⟩ (.ok 1) :=
    .decided rfl (.bool rfl) rfl
  obtain ⟨-, -, hknown⟩ := constantValue_in_every_run guarded ⟨0⟩
  obtain ⟨hvalue, htruth, -⟩ := constantValue_in_every_run guarded ⟨5⟩
  exact ⟨hacyclic, hfree, hknown hacyclic hfree _ _ hevaluates, hvalue 0 (by cbv),
    htruth false (by cbv)⟩

end Program

end ProcessContracts
