import Mathlib.Data.List.Forall2
import ProcessContracts.Walk.Basic

/-!
# Frames and buckets

A scope is two things: a frame, which says what the scope was opened for and what recursive
instances of it stand for, and the buckets with the fragments collected so far. Constructs change
the innermost buckets and leave every frame alone; instances change frames and leave the buckets
alone.
-/

namespace ProcessContracts

variable {n n' : Nat} {s s' s'' : Scope} {ts us : List Trace} {bs : List (List Bucket)}

namespace Scope

/-- The scope without anything collected in it. -/
def frame (scope : Scope) : Scope := { scope with buckets := [], diagnostics := [] }

/-- The same scope later on. What a recursion atom stands for never changes, and an atom that was
not there at first is newer than the first `n` ones. -/
structure Advances (n : Nat) (s s' : Scope) : Prop where
  owner : s'.owner = s.owner
  interface : s'.interface = s.interface
  entry : s'.entry = s.entry
  atom : s'.recursionAtom = s.recursionAtom ∨ s.recursionAtom = none ∧ s.decl? ≠ none ∧
    ∃ a, s'.recursionAtom = some a ∧ n ≤ a.id.index
  approximate : s.approximate = true → s'.approximate = true

theorem Advances.refl (n : Nat) (s : Scope) : s.Advances n s :=
  ⟨rfl, rfl, rfl, .inl rfl, id⟩

theorem Advances.trans (hle : n ≤ n') (h : s.Advances n s') (h' : s'.Advances n' s'') :
    s.Advances n s'' where
  owner := h'.owner.trans h.owner
  interface := h'.interface.trans h.interface
  entry := h'.entry.trans h.entry
  atom := by
    rcases h'.atom with heq | ⟨hnone, hdecl, a, ha, hnew⟩
    · rw [heq]
      exact h.atom
    · rcases h.atom with heq | ⟨-, -, b, hb, -⟩
      · rw [decl?, h.owner] at hdecl
        exact .inr ⟨heq ▸ hnone, hdecl, a, ha, Nat.le_trans hle hnew⟩
      · rw [hb] at hnone
        cases hnone
  approximate ha := h'.approximate (h.approximate ha)

/-- A process is never called, so its scope never gets a recursion atom. -/
theorem Advances.atom_eq_none (h : s.Advances n s') (hdecl : s.decl? = none)
    (hatom : s.recursionAtom = none) : s'.recursionAtom = none := by
  rcases h.atom with heq | ⟨-, hne, -⟩
  · exact heq.trans hatom
  · exact absurd hdecl hne

end Scope

theorem advances_refl (n : Nat) (scopes : List Scope) :
    List.Forall₂ (Scope.Advances n) scopes scopes :=
  List.forall₂_same.2 fun s _ => .refl n s

theorem advances_trans (hle : n ≤ n') {scopes scopes' scopes'' : List Scope}
    (h : List.Forall₂ (Scope.Advances n) scopes scopes')
    (h' : List.Forall₂ (Scope.Advances n') scopes' scopes'') :
    List.Forall₂ (Scope.Advances n) scopes scopes'' := by
  induction h generalizing scopes'' with
  | nil =>
      cases h'
      exact .nil
  | cons h _ ih =>
      cases h' with
      | cons h' hrest => exact .cons (h.trans hle h') (ih hrest)

theorem ProgramUnit.eq_proc_of_decl? {unit : ProgramUnit} {callee : DeclId}
    (h : unit.decl? = some callee) : unit = .proc callee := by
  cases unit with
  | proc other => rw [Option.some.inj h]
  | process node => cases h

/-- The units whose scopes are open. -/
def owners (scopes : List Scope) : List ProgramUnit := scopes.map (·.owner)

theorem owners_eq_of_advances {scopes scopes' : List Scope}
    (h : List.Forall₂ (Scope.Advances n) scopes scopes') : owners scopes' = owners scopes := by
  induction h with
  | nil => rfl
  | cons h _ ih => rw [owners, List.map_cons, h.owner]; exact congrArg _ ih

/-! ## Buckets -/

/-- The buckets of all scopes with more fragments in the innermost one. -/
def contribute (ts : List Trace) : List (List Bucket) → List (List Bucket)
  | (bucket :: inner) :: outer => (⟨bucket.fragments ++ ts⟩ :: inner) :: outer
  | buckets => buckets

/-- Some bucket of the innermost scope is open. -/
def Receives (bs : List (List Bucket)) : Prop :=
  ∃ bucket inner outer, bs = (bucket :: inner) :: outer

@[simp] theorem contribute_nil (bs : List (List Bucket)) : contribute [] bs = bs := by
  unfold contribute
  split
  · rw [List.append_nil]
  · rfl

theorem contribute_contribute (bs : List (List Bucket)) :
    contribute us (contribute ts bs) = contribute (ts ++ us) bs := by
  match bs with
  | (bucket :: inner) :: outer => simp [contribute]
  | [] :: outer => rfl
  | [] => rfl

theorem Receives.contribute (h : Receives bs) (ts : List Trace) :
    Receives (contribute ts bs) := by
  obtain ⟨bucket, inner, outer, rfl⟩ := h
  exact ⟨_, inner, outer, rfl⟩

/-- What a construct does to the buckets: it puts at most one fragment into the innermost one. -/
def Offers (bs bs' : List (List Bucket)) : Prop :=
  ∃ ts, ts.length ≤ 1 ∧ bs' = contribute ts bs

theorem offers_none (bs : List (List Bucket)) : Offers bs bs :=
  ⟨[], Nat.zero_le 1, (contribute_nil bs).symm⟩

theorem offers_one (t : Trace) (bs : List (List Bucket)) :
    Offers bs (contribute [t] bs) := ⟨[t], Nat.le_refl 1, rfl⟩

theorem Bucket.single_of_length_le {bucket : Bucket} (h : bucket.fragments.length ≤ 1) :
    bucket.single = .ok bucket.fragments.head? := by
  obtain ⟨fragments⟩ := bucket
  match fragments, h with
  | [], _ => rfl
  | [_], _ => rfl

/-! ## States -/

namespace WalkState

variable {state mid last : WalkState}

def frames (state : WalkState) : List Scope := state.scopes.map Scope.frame

def buckets (state : WalkState) : List (List Bucket) := state.scopes.map (·.buckets)

/-- How many atoms have been minted. -/
def minted (state : WalkState) : Nat := state.supply.minted

/-- What the contract checks among some events found is reported. -/
def Announced (events : List Event) (diagnostics : List Diagnostic) : Prop :=
  ∀ callee own computed found, .judged callee own computed found ∈ events → found ⊆ diagnostics

/-- The same walk later on. -/
structure Later (state last : WalkState) : Prop where
  minted : state.minted ≤ last.minted
  frames : List.Forall₂ (Scope.Advances state.minted) state.frames last.frames
  history : ∃ new, last.history = state.history ++ new ∧ Announced new last.diagnostics
  diagnostics : state.diagnostics <+: last.diagnostics

/-- Nothing happened. -/
theorem no_events {diagnostics : List Diagnostic} (h : last.history = state.history) :
    ∃ new, last.history = state.history ++ new ∧ Announced new diagnostics :=
  ⟨[], h.trans (List.append_nil _).symm, fun _ _ _ _ h => nomatch h⟩

/-- Something other than a contract check happened. -/
theorem one_event {diagnostics : List Diagnostic} {event : Event}
    (h : last.history = state.history ++ [event])
    (hother : ∀ callee own computed found, event ≠ .judged callee own computed found) :
    ∃ new, last.history = state.history ++ new ∧ Announced new diagnostics :=
  ⟨[event], h, fun _ _ _ _ h => absurd (List.mem_singleton.1 h).symm (hother _ _ _ _)⟩

theorem Later.of_frames_eq (hsupply : last.supply = state.supply)
    (hframes : last.frames = state.frames) (hhistory : last.history = state.history)
    (hdiagnostics : last.diagnostics = state.diagnostics) : state.Later last where
  minted := Nat.le_of_eq (congrArg AtomSupply.minted hsupply.symm)
  frames := hframes ▸ advances_refl _ _
  history := no_events hhistory
  diagnostics := hdiagnostics ▸ List.prefix_refl _

theorem Later.refl (state : WalkState) : state.Later state := .of_frames_eq rfl rfl rfl rfl

theorem Later.trans (h : state.Later mid) (h' : mid.Later last) : state.Later last where
  minted := Nat.le_trans h.minted h'.minted
  frames := advances_trans h.minted h.frames h'.frames
  history := by
    obtain ⟨new, heq, hnew⟩ := h.history
    obtain ⟨newer, heq', hnewer⟩ := h'.history
    refine ⟨new ++ newer, by rw [heq', heq, List.append_assoc], ?_⟩
    intro callee own computed found hmem
    rcases List.mem_append.1 hmem with hmem | hmem
    · exact List.Subset.trans (hnew _ _ _ _ hmem) h'.diagnostics.subset
    · exact hnewer _ _ _ _ hmem
  diagnostics := h.diagnostics.trans h'.diagnostics

theorem Later.scopes (h : state.Later last) :
    List.Forall₂ (fun s s' => s.frame.Advances state.minted s'.frame) state.scopes last.scopes := by
  have hframes := h.frames
  rw [WalkState.frames, WalkState.frames, List.forall₂_map_left_iff,
    List.forall₂_map_right_iff] at hframes
  exact hframes

theorem Later.owners (h : state.Later last) : owners last.frames = owners state.frames :=
  owners_eq_of_advances h.frames

end WalkState

end ProcessContracts
