import Mathlib.Data.Finset.Card
import Mathlib.Data.Finset.Range
import Mathlib.Logic.Relation
import ProcessContracts.Proofs.Invariants
import ProcessContracts.Proofs.LoweredContracts

/-!
# Programs in order

Every handle leads to an entry, no expression and no process contains itself, and instances pass as
many arguments as their callees have parameters. How much an entry contains bounds how deep a query
about it goes.
-/

namespace ProcessContracts

/-! ## Handles -/

def Expr.operands : Expr → List ExprId
  | .unary _ operand => [operand]
  | .binary _ left right => [left, right]
  | .decorated inner _ => [inner]
  | .subscript base index => [base, index]
  | .int _ | .bool _ | .name _ | .runtime => []

def Expr.names : Expr → List NameId
  | .name id => [id]
  | _ => []

def Construct.callees : Construct → List DeclId
  | .call callee _ => [callee]
  | _ => []

namespace Program

variable {program : Program}

abbrev InExprs (program : Program) (id : ExprId) : Prop := id.index < program.exprs.size

abbrev InNames (program : Program) (id : NameId) : Prop := id.index < program.names.size

/-- Every handle in the tables leads to an entry. -/
structure InRange (program : Program) : Prop where
  operands : ∀ written ∈ program.exprs, ∀ id ∈ written.value.operands, program.InExprs id
  names : ∀ written ∈ program.exprs, ∀ id ∈ written.value.names, program.InNames id
  parts : ∀ written ∈ program.nodes, ∀ id ∈ written.value.children, id.index < program.nodes.size
  exprs : ∀ written ∈ program.nodes, ∀ id ∈ written.value.exprs, program.InExprs id
  callees : ∀ written ∈ program.nodes, ∀ id ∈ written.value.callees, id.index < program.decls.size
  params : ∀ decl ∈ program.decls, ∀ param ∈ decl.params, program.InNames param.name
  bodies : ∀ decl ∈ program.decls, ∀ id ∈ decl.body, id.index < program.nodes.size
  contracts : ∀ decl ∈ program.decls, ∀ contract ∈ decl.contract,
    ∀ id ∈ contract.value.channels, program.InExprs id

/-- One expression is written directly inside another. -/
def Operand (program : Program) (id operand : ExprId) : Prop :=
  ∃ written, program.exprs[id.index]? = some written ∧ operand ∈ written.value.operands

/-- One process is written directly inside another. -/
def Part (program : Program) (node part : NodeId) : Prop :=
  ∃ written, program.nodes[node.index]? = some written ∧ part ∈ written.value.children

/-- What the front end guarantees of a program. -/
structure InOrder (program : Program) : Prop where
  inRange : program.InRange
  exprs_acyclic : ∀ id, ¬ Relation.TransGen program.Operand id id
  nodes_acyclic : ∀ node, ¬ Relation.TransGen program.Part node node
  arities : ∀ node callee args decl, program.HasNode node (.call callee args) →
    program.decl callee = .ok decl →
      (args.filter (!·.hidden)).length = decl.visibleParams.length

end Program

/-- Entries that lead only to later ones lead to no cycle. -/
theorem acyclic_of_ascending {ι : Type} {r : ι → ι → Prop} (index : ι → Nat)
    (h : ∀ a b, r a b → index a < index b) (entry : ι) : ¬ Relation.TransGen r entry entry := by
  have hlt : ∀ b, Relation.TransGen r entry b → index entry < index b := fun b hb => by
    induction hb with
    | single hr => exact h _ _ hr
    | tail _ hr ih => exact Nat.lt_trans ih (h _ _ hr)
  exact fun hcycle => Nat.lt_irrefl _ (hlt entry hcycle)

/-- The handles of a program can be looked through for cycles. -/
theorem Program.inOrder_of_ascending {program : Program} (hrange : program.InRange)
    (hexprs : ∀ i : Fin program.exprs.size,
      ∀ operand ∈ program.exprs[i].value.operands, i.val < operand.index)
    (hnodes : ∀ i : Fin program.nodes.size,
      ∀ part ∈ program.nodes[i].value.children, i.val < part.index)
    (harities : ∀ node callee args decl, program.HasNode node (.call callee args) →
      program.decl callee = .ok decl →
        (args.filter (!·.hidden)).length = decl.visibleParams.length) : program.InOrder where
  inRange := hrange
  exprs_acyclic := by
    refine acyclic_of_ascending ExprId.index ?_
    rintro id operand ⟨written, hget, hoperand⟩
    obtain ⟨hlt, rfl⟩ := Array.getElem?_eq_some_iff.1 hget
    exact hexprs ⟨id.index, hlt⟩ operand hoperand
  nodes_acyclic := by
    refine acyclic_of_ascending NodeId.index ?_
    rintro node part ⟨written, hget, hpart⟩
    obtain ⟨hlt, rfl⟩ := Array.getElem?_eq_some_iff.1 hget
    exact hnodes ⟨node.index, hlt⟩ part hpart
  arities := harities

/-! ## Heights -/

section Height

open Classical

variable {ι : Type} {r : ι → ι → Prop} {handle : Nat → ι} {size i j : Nat}

/-- How many of the first `size` entries an entry leads to. -/
noncomputable def height (r : ι → ι → Prop) (handle : Nat → ι) (size : Nat) (entry : ι) : Nat :=
  ((Finset.range size).filter fun k => Relation.TransGen r entry (handle k)).card

theorem height_lt_of_rel (hacyclic : ∀ entry, ¬ Relation.TransGen r entry entry)
    (hr : r (handle i) (handle j)) (hj : j < size) :
    height r handle size (handle j) < height r handle size (handle i) := by
  refine Finset.card_lt_card (Finset.ssubset_iff_of_subset (fun k hk => ?_) |>.2 ⟨j, ?_, ?_⟩)
  · obtain ⟨hsize, hk⟩ := Finset.mem_filter.1 hk
    exact Finset.mem_filter.2 ⟨hsize, .head hr hk⟩
  · exact Finset.mem_filter.2 ⟨Finset.mem_range.2 hj, .single hr⟩
  · exact fun h => hacyclic _ (Finset.mem_filter.1 h).2

theorem height_lt (hacyclic : ∀ entry, ¬ Relation.TransGen r entry entry) (hi : i < size) :
    height r handle size (handle i) < size := by
  calc height r handle size (handle i) < (Finset.range size).card := by
        refine Finset.card_lt_card (Finset.ssubset_iff_of_subset (Finset.filter_subset _ _) |>.2 ?_)
        refine ⟨i, Finset.mem_range.2 hi, fun h => hacyclic _ (Finset.mem_filter.1 h).2⟩
    _ = size := Finset.card_range size

end Height

namespace Program

variable {program : Program}

noncomputable def exprHeight (program : Program) (id : ExprId) : Nat :=
  height program.Operand ExprId.mk program.exprs.size id

noncomputable def nodeHeight (program : Program) (node : NodeId) : Nat :=
  height program.Part NodeId.mk program.nodes.size node

theorem exprHeight_lt (h : program.InOrder) {id : ExprId} (hid : program.InExprs id) :
    program.exprHeight id < program.exprDepth :=
  Nat.lt_succ_of_lt (height_lt h.exprs_acyclic hid)

theorem nodeHeight_lt (h : program.InOrder) {node : NodeId}
    (hnode : node.index < program.nodes.size) :
    program.nodeHeight node < program.nodes.size := height_lt h.nodes_acyclic hnode

/-- An expression in range has an entry whose operands are in range and lower. -/
theorem exists_expr (h : program.InOrder) {id : ExprId} (hid : program.InExprs id) :
    ∃ e, program.expr id = .ok e ∧ (∀ name ∈ e.names, program.InNames name) ∧
      ∀ operand ∈ e.operands, program.InExprs operand ∧
        program.exprHeight operand < program.exprHeight id := by
  have hget : program.exprs[id.index]? = some program.exprs[id.index] :=
    Array.getElem?_eq_getElem hid
  have hmem : program.exprs[id.index] ∈ program.exprs := Array.getElem_mem hid
  refine ⟨program.exprs[id.index].value, ?_, h.inRange.names _ hmem, fun operand hoperand => ?_⟩
  · rw [expr, spannedExpr, hget]
    rfl
  · have hrange := h.inRange.operands _ hmem operand hoperand
    exact ⟨hrange, height_lt_of_rel h.exprs_acyclic ⟨_, hget, hoperand⟩ hrange⟩

/-- The parts of a node in range are in range and lower. -/
theorem part_of_hasNode (h : program.InOrder) {node part : NodeId} {construct : Construct}
    (hnode : program.HasNode node construct) (hpart : part ∈ construct.children) :
    part.index < program.nodes.size ∧ program.nodeHeight part < program.nodeHeight node := by
  obtain ⟨written, hget, rfl⟩ := hnode
  have hentry := entry_of_construct hget
  have hrange := h.inRange.parts written (Array.mem_of_getElem? hentry) part hpart
  exact ⟨hrange, height_lt_of_rel h.nodes_acyclic ⟨written, hentry, hpart⟩ hrange⟩

theorem mem_of_hasNode {node : NodeId} {construct : Construct}
    (hnode : program.HasNode node construct) :
    ∃ written ∈ program.nodes, written.value = construct := by
  obtain ⟨written, hget, rfl⟩ := hnode
  exact ⟨written, Array.mem_of_getElem? (entry_of_construct hget), rfl⟩

theorem mem_of_decl {callee : DeclId} {decl : Decl} (h : program.decl callee = .ok decl) :
    decl ∈ program.decls := by
  unfold Program.decl at h
  split at h
  case h_2 => cases h
  case h_1 entry heq =>
    obtain rfl := Except.ok.inj h
    obtain ⟨hlt, hentry⟩ := Array.getElem?_eq_some_iff.1 heq
    exact hentry ▸ Array.getElem_mem hlt

end Program

end ProcessContracts
