/-!
# Maps in order of insertion

Keys are listed in the order they were first entered. Entering a key again replaces its value and
keeps its place. `get?_insert` and `keys_insert` say all there is to know.
-/

namespace ProcessContracts

structure Ledger (κ α : Type) where
  entries : List (κ × α) := []
  keys_nodup : (entries.map (·.1)).Nodup := by exact List.nodup_nil

namespace Ledger

variable {κ α : Type}

def keys (ledger : Ledger κ α) : List κ := ledger.entries.map (·.1)

def size (ledger : Ledger κ α) : Nat := ledger.entries.length

def isEmpty (ledger : Ledger κ α) : Bool := ledger.entries.isEmpty

variable [DecidableEq κ]

/-- The value of the first entry of the key. -/
def seek (key : κ) : List (κ × α) → Option α
  | [] => none
  | entry :: rest => if entry.1 = key then some entry.2 else seek key rest

def get? (ledger : Ledger κ α) (key : κ) : Option α := seek key ledger.entries

def contains (ledger : Ledger κ α) (key : κ) : Bool := (ledger.get? key).isSome

/-- Replaces the first entry of the key, or appends one. -/
def enter (key : κ) (value : α) : List (κ × α) → List (κ × α)
  | [] => [(key, value)]
  | entry :: rest =>
      if entry.1 = key then (key, value) :: rest else entry :: enter key value rest

theorem map_fst_enter (key : κ) (value : α) (entries : List (κ × α)) :
    (enter key value entries).map (·.1) =
      if key ∈ entries.map (·.1) then entries.map (·.1) else entries.map (·.1) ++ [key] := by
  induction entries with
  | nil => simp [enter]
  | cons entry rest ih =>
      by_cases h : entry.1 = key
      · simp [enter, h]
      · have h' : ¬ key = entry.1 := fun e => h e.symm
        simp only [enter, h, if_false, List.map_cons, ih, List.mem_cons, h', false_or]
        split <;> simp

theorem seek_enter (key : κ) (value : α) (entries : List (κ × α)) (other : κ) :
    seek other (enter key value entries) =
      if other = key then some value else seek other entries := by
  induction entries with
  | nil => simp [enter, seek, eq_comm]
  | cons entry rest ih =>
      by_cases h : entry.1 = key <;> by_cases h' : entry.1 = other <;>
        simp_all [enter, seek, eq_comm]

def insert (ledger : Ledger κ α) (key : κ) (value : α) : Ledger κ α where
  entries := enter key value ledger.entries
  keys_nodup := by
    rw [map_fst_enter]
    split
    case isTrue => exact ledger.keys_nodup
    case isFalse h =>
      refine List.nodup_append.2 ⟨ledger.keys_nodup, by simp, fun a ha b hb hab => h ?_⟩
      rw [List.mem_singleton.1 hb] at hab
      exact hab ▸ ha

theorem keys_insert (ledger : Ledger κ α) (key : κ) (value : α) :
    (ledger.insert key value).keys =
      if key ∈ ledger.keys then ledger.keys else ledger.keys ++ [key] :=
  map_fst_enter key value ledger.entries

theorem get?_insert (ledger : Ledger κ α) (key : κ) (value : α) (other : κ) :
    (ledger.insert key value).get? other = if other = key then some value else ledger.get? other :=
  seek_enter key value ledger.entries other

/-- Enters the pairs one after the other. -/
def ofList (pairs : List (κ × α)) : Ledger κ α :=
  pairs.foldl (fun ledger pair => ledger.insert pair.1 pair.2) {}

end Ledger

end ProcessContracts
