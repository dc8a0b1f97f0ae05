import ProcessContracts.Contract.Lowering
import ProcessContracts.Proofs.Computations

/-!
# Contracts that are lowered

A lowering is a derivation with one rule for each form of a contract, of a trace where it succeeds
and of an error where it fails. What holds of every lowered contract, or of every error, then
follows by induction on derivations.
-/

namespace ProcessContracts.Contract

mutual

/-- The channel expressions of a contract, from left to right. -/
def channels : Contract → List ExprId
  | .event _ channel => [channel]
  | .comp _ children => channelsAll children
  | .recursion _ body => channels body
  | .skip | .stop | .div | .chaos | .var _ => []

def channelsAll : List Contract → List ExprId
  | [] => []
  | c :: cs => channels c ++ channelsAll cs

end

/-- A contract of `decl` stands for a trace below these binders. The atoms of its `rec`s are taken
from the one supply, which leaves the other one. The children of an operator are lowered one after
the other. -/
inductive Lowered (program : Program) (decl : DeclId) :
    Binders → AtomSupply → Contract → Trace → AtomSupply → Prop where
  | skip {binders : Binders} {supply : AtomSupply} :
      Lowered program decl binders supply .skip .skip supply
  | stop {binders : Binders} {supply : AtomSupply} :
      Lowered program decl binders supply .stop .stop supply
  | div {binders : Binders} {supply : AtomSupply} :
      Lowered program decl binders supply .div .div supply
  | chaos {binders : Binders} {supply : AtomSupply} :
      Lowered program decl binders supply .chaos .chaos supply
  | event {binders : Binders} {supply : AtomSupply} (direction : Direction) {channel : ExprId}
      {chan : ChanRef} (hchan : ChanRef.ofExpr program channel = .ok chan) :
      Lowered program decl binders supply (.event direction channel) (.event direction chan) supply
  | nil {binders : Binders} {supply : AtomSupply} (op : Operator) :
      Lowered program decl binders supply (.comp op []) (.comp op []) supply
  | cons {binders : Binders} {supply mid last : AtomSupply} {op : Operator} {c : Contract}
      {cs : List Contract} {t : Trace} {ts : List Trace}
      (head : Lowered program decl binders supply c t mid)
      (tail : Lowered program decl binders mid (.comp op cs) (.comp op ts) last) :
      Lowered program decl binders supply (.comp op (c :: cs)) (.comp op (t :: ts)) last
  | recursion {binders : Binders} {supply mid last : AtomSupply} {name : String} {atom : Atom}
      {body : Contract} {t : Trace} (hmint : supply.mint (.contract decl) = (atom, mid))
      (hbody : Lowered program decl ((name, atom) :: binders) mid body t last) :
      Lowered program decl binders supply (.recursion name body) (.fix atom t) last
  | var {binders : Binders} {supply : AtomSupply} {name : String} {atom : Atom}
      (hfind : binders.find? name = some atom) :
      Lowered program decl binders supply (.var name) (.ref atom.id) supply

/-- Lowering a contract of `decl` below these binders ends with an error: at a channel that does not
resolve or at a variable without a binder, the first there is. Atoms minted before stay minted. -/
inductive Refused (program : Program) (decl : DeclId) :
    Binders → AtomSupply → Contract → LoweringError → AtomSupply → Prop where
  | channel {binders : Binders} {supply : AtomSupply} (direction : Direction) {channel : ExprId}
      {fault : Fault} (hchan : ChanRef.ofExpr program channel = .error fault) :
      Refused program decl binders supply (.event direction channel) (.fault fault) supply
  | head {binders : Binders} {supply last : AtomSupply} {op : Operator} {c : Contract}
      {cs : List Contract} {error : LoweringError}
      (head : Refused program decl binders supply c error last) :
      Refused program decl binders supply (.comp op (c :: cs)) error last
  | tail {binders : Binders} {supply mid last : AtomSupply} {op : Operator} {c : Contract}
      {cs : List Contract} {t : Trace} {error : LoweringError}
      (head : Lowered program decl binders supply c t mid)
      (tail : Refused program decl binders mid (.comp op cs) error last) :
      Refused program decl binders supply (.comp op (c :: cs)) error last
  | recursion {binders : Binders} {supply mid last : AtomSupply} {name : String} {atom : Atom}
      {body : Contract} {error : LoweringError} (hmint : supply.mint (.contract decl) = (atom, mid))
      (hbody : Refused program decl ((name, atom) :: binders) mid body error last) :
      Refused program decl binders supply (.recursion name body) error last
  | var {binders : Binders} {supply : AtomSupply} {name : String}
      (hfind : binders.find? name = none) :
      Refused program decl binders supply (.var name) (.unbound name) supply

variable {program : Program} {decl : DeclId} {binders : Binders} {supply last : AtomSupply}
  {c : Contract} {t : Trace} {error : LoweringError}

mutual

/-- Every run of a lowering is a derivation of what it comes to. -/
theorem lowerUnder_spec (c : Contract) (binders : Binders) (supply : AtomSupply) :
    ComesTo supply (lowerUnder program decl binders c)
      (Lowered program decl binders supply c) (Refused program decl binders supply c) := by
  cases c with
  | skip => exact .skip
  | stop => exact .stop
  | div => exact .div
  | chaos => exact .chaos
  | event direction channel =>
      have hchannel : ComesTo supply (lowerRef program channel)
          (fun chan mid => ChanRef.ofExpr program channel = .ok chan ∧ mid = supply)
          (Refused program decl binders supply (.event direction channel)) := by
        unfold lowerRef
        cases hchan : ChanRef.ofExpr program channel with
        | ok chan => exact ⟨rfl, rfl⟩
        | error fault => exact .channel direction hchan
      refine hchannel.bind fun chan mid _ hresolved => ?_
      obtain ⟨hchan, rfl⟩ := hresolved
      exact .event direction hchan
  | comp op children =>
      exact (lowerAll_spec op children binders supply).bind fun ts last _ hchildren => hchildren
  | recursion name body =>
      have hmint : ComesTo supply (modifyGet (·.mint (.contract decl)) : Lower Atom)
          (fun atom mid => supply.mint (.contract decl) = (atom, mid))
          (Refused program decl binders supply (.recursion name body)) := rfl
      refine hmint.bind fun atom mid _ hatom => ?_
      refine ((lowerUnder_spec body ((name, atom) :: binders) mid).imp (fun _ _ _ => id)
        fun _ _ => .recursion hatom).bind fun t last _ hbody => ?_
      exact .recursion hatom hbody
  | var name =>
      unfold lowerUnder
      cases hfind : binders.find? name with
      | some atom => exact .var hfind
      | none => exact .var hfind

theorem lowerAll_spec (op : Operator) (cs : List Contract) (binders : Binders)
    (supply : AtomSupply) : ComesTo supply (lowerAll program decl binders cs)
      (fun ts => Lowered program decl binders supply (.comp op cs) (.comp op ts))
      (Refused program decl binders supply (.comp op cs)) := by
  cases cs with
  | nil => exact .nil op
  | cons c cs =>
      refine ((lowerUnder_spec c binders supply).imp (fun _ _ _ => id)
        fun _ _ => .head).bind fun t mid _ hhead => ?_
      refine ((lowerAll_spec op cs binders mid).imp (fun _ _ _ => id)
        fun _ _ => .tail hhead).bind fun ts last _ htail => ?_
      exact hhead.cons htail

end

theorem lower_spec (contract : Contract) (supply : AtomSupply) :
    ComesTo supply (contract.lower program decl) (Lowered program decl [] supply contract)
      (Refused program decl [] supply contract) := lowerUnder_spec contract [] supply

theorem lowered_of_lower {contract : Contract} {t : Trace}
    (h : (contract.lower program decl).run supply = .ok t last) :
    Lowered program decl [] supply contract t last := (lower_spec contract supply).of_ok h

theorem refused_of_lower {contract : Contract}
    (h : (contract.lower program decl).run supply = .error error last) :
    Refused program decl [] supply contract error last := (lower_spec contract supply).of_error h

theorem mem_of_find? {name : String} {atom : Atom} (h : binders.find? name = some atom) :
    ∃ binder ∈ binders, binder.2 = atom := by
  obtain ⟨binder, hfind, rfl⟩ := Option.map_eq_some_iff.1 h
  exact ⟨binder, List.mem_of_find?_eq_some hfind, rfl⟩

theorem Lowered.minted_le (h : Lowered program decl binders supply c t last) :
    supply.minted ≤ last.minted := by
  induction h with
  | cons _ _ ihhead ihtail => exact Nat.le_trans ihhead ihtail
  | recursion hmint _ ih =>
      obtain ⟨rfl, rfl⟩ := Prod.ext_iff.1 hmint
      exact Nat.le_trans (Nat.le_succ _) ih
  | _ => exact Nat.le_refl _

theorem Refused.minted_le (h : Refused program decl binders supply c error last) :
    supply.minted ≤ last.minted := by
  induction h with
  | tail head _ ih => exact Nat.le_trans head.minted_le ih
  | recursion hmint _ ih =>
      obtain ⟨rfl, rfl⟩ := Prod.ext_iff.1 hmint
      exact Nat.le_trans (Nat.le_succ _) ih
  | head _ ih => exact ih
  | _ => exact Nat.le_refl _

/-- A fault of lowering is that of a channel expression. -/
theorem Refused.exists_channel {fault : Fault}
    (h : Refused program decl binders supply c error last) (herror : error = .fault fault) :
    ∃ id ∈ c.channels, ChanRef.ofExpr program id = .error fault := by
  induction h with
  | channel direction hchan =>
      obtain rfl := LoweringError.fault.inj herror
      exact ⟨_, List.mem_singleton_self _, hchan⟩
  | head _ ih =>
      obtain ⟨id, hid, hfault⟩ := ih herror
      exact ⟨id, List.mem_append_left _ hid, hfault⟩
  | tail _ _ ih =>
      obtain ⟨id, hid, hfault⟩ := ih herror
      exact ⟨id, List.mem_append_right _ hid, hfault⟩
  | recursion _ _ ih => exact ih herror
  | var => cases herror

end ProcessContracts.Contract
