import ProcessContracts.Operator
import ProcessContracts.Program.Folding

/-!
# Channels

A communication refers to its channel by the expression it is written with. Two references mean
the same channel when they resolve to the same key: a declared name counts as itself wherever it is
written, and a constant subscript counts as its value.
-/

namespace ProcessContracts

/-- A channel as it is written: an expression without decorations, and a subscript if it is an
element of an array. -/
structure ChanRef where
  root : ExprId
  index : Option ExprId := none
deriving DecidableEq

namespace ChanRef

/-- The reference a channel expression stands for. -/
def ofExpr (program : Program) (id : ExprId) : Lookup ChanRef := do
  let target ← program.strip id
  match ← program.expr target with
  | .subscript base index => pure ⟨← program.strip base, some index⟩
  | _ => pure ⟨target, none⟩

/-- Whether a reference is to one of some declared names, or to an element of it. -/
def isAmong (program : Program) (names : List NameId) (chan : ChanRef) : Lookup Bool := do
  pure ((← program.resolveName chan.root).any (· ∈ names))

/-- The reference with the names the program gives. -/
def describe (program : Program) (chan : ChanRef) : Lookup String := do
  let root ← program.describe chan.root
  match chan.index with
  | some index => do
      let index ← program.describe index
      pure s!"{root}[{index}]"
  | none => pure root

/-- The reference as handles. -/
def text (chan : ChanRef) : String :=
  match chan.index with
  | some index => s!"{chan.root.text}[{index.text}]"
  | none => chan.root.text

end ChanRef

inductive ChannelRoot where
  | name (id : NameId)
  /-- A channel expression that denotes no declared name. -/
  | expr (id : ExprId)
deriving DecidableEq

inductive ChannelIndex where
  | const (value : Int64)
  | expr (id : ExprId)
deriving DecidableEq

/-- What a reference denotes, wherever it is written. -/
structure ChannelKey where
  root : ChannelRoot
  index : Option ChannelIndex
deriving DecidableEq

namespace ChannelKey

def resolveRoot (program : Program) (id : ExprId) : Lookup ChannelRoot := do
  match ← program.resolveName id with
  | some name => pure (.name name)
  | none => pure (.expr (← program.strip id))

def resolveIndex (program : Program) (id : ExprId) : Lookup ChannelIndex := do
  match ← program.constantValue id with
  | some value => pure (.const value)
  | none => pure (.expr (← program.strip id))

def resolve (program : Program) (chan : ChanRef) : Lookup ChannelKey := do
  let root ← resolveRoot program chan.root
  match chan.index with
  | some index => pure ⟨root, some (← resolveIndex program index)⟩
  | none => pure ⟨root, none⟩

/-- The key of a reference read literally, as handles. -/
def literal (chan : ChanRef) : ChannelKey := ⟨.expr chan.root, chan.index.map .expr⟩

/-- The key of a reference; one that meets a fault is read literally. -/
def ofRef (program : Program) (chan : ChanRef) : ChannelKey :=
  (resolve program chan).getD (literal chan)

def describe (program : Program) (key : ChannelKey) : Lookup String := do
  let root ← match key.root with
    | .name id => program.nameText id
    | .expr id => program.describe id
  match key.index with
  | some (.const value) => pure s!"{root}[{value.toInt}]"
  | some (.expr id) => do
      let index ← program.describe id
      pure s!"{root}[{index}]"
  | none => pure root

def text (key : ChannelKey) : String :=
  let root := match key.root with
    | .name id => id.text
    | .expr id => id.text
  match key.index with
  | some (.const value) => s!"{root}[{value.toInt}]"
  | some (.expr id) => s!"{root}[{id.text}]"
  | none => root

end ChannelKey

end ProcessContracts
