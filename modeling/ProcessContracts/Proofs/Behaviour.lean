import ProcessContracts.Trace.Steps

/-!
# What a trace can be observed to do

A view says which channel a reference means and which channels are hidden. Along a path of steps an
observer notes the visible labels, termination included; silent steps and communication on hidden
channels leave no note. `Permits` compares two traces by these notes.
-/

namespace ProcessContracts

structure View where
  key : ChanRef → ChannelKey
  hides : ChannelKey → Bool := fun _ => false

/-- The view that sees every channel of a program. -/
def Program.view (program : Program) : View := { key := ChannelKey.ofRef program }

namespace View

/-- What an observer notes of a step. -/
def noted (v : View) : Move → Option Label
  | .tau => none
  | .visible .tick => some .tick
  | .visible (.event direction chan) =>
      if v.hides chan then none else some (.event direction chan)

/-- The same channels with none of them hidden. -/
def bare (v : View) : View := { key := v.key }

/-- `After v t s u`: some path of steps leads from `t` to `u`, and `s` is what is noted on it. -/
inductive After (v : View) : Trace → List Label → Trace → Prop
  | here (t : Trace) : After v t [] t
  | step {t u w : Trace} {m : Move} {s : List Label} :
      (m, u) ∈ t.moves v.key → After v u s w → After v t ((v.noted m).toList ++ s) w

/-- A weak trace: what is noted on some path from `t`. -/
def HasTrace (v : View) (t : Trace) (s : List Label) : Prop := ∃ u, v.After t s u

/-- An endless run of steps none of which is noted. -/
def RunsSilently (v : View) (t : Trace) : Prop :=
  ∃ run : Nat → Trace, run 0 = t ∧
    ∀ i, ∃ m, (m, run (i + 1)) ∈ (run i).moves v.key ∧ v.noted m = none

def Diverges (v : View) (t : Trace) (s : List Label) : Prop :=
  ∃ u, v.After t s u ∧ (u.diverges = true ∨ v.RunsSilently u)

/-- After `s` the trace may accept anything. -/
def Chaotic (v : View) (t : Trace) (s : List Label) : Prop :=
  ∃ u, v.After t s u ∧ u.acceptsAnything = true

def Unconstrained (v : View) (t : Trace) (s : List Label) : Prop :=
  ∃ u, v.After t s u ∧ u.unconstrained = true

/-- Neither `s` nor any part that `s` starts with leads to chaos. -/
def Settled (v : View) (t : Trace) (s : List Label) : Prop := ∀ p, p <+: s → ¬ v.Chaotic t p

/-- Nothing that is observed tells the two traces apart. -/
structure Agree (v : View) (t u : Trace) : Prop where
  traces : ∀ s, v.HasTrace t s ↔ v.HasTrace u s
  diverges : ∀ s, v.Diverges t s ↔ v.Diverges u s
  chaotic : ∀ s, v.Chaotic t s ↔ v.Chaotic u s
  unconstrained : ∀ s, v.Unconstrained t s ↔ v.Unconstrained u s

/-- What `imp` does under the view `w` is allowed by `spec`, up to where `spec` accepts anything. -/
structure Permits (v : View) (spec : Trace) (w : View) (imp : Trace) : Prop where
  traces : ∀ s, w.HasTrace imp s → (∀ p, p <+: s → p ≠ s → ¬ v.Chaotic spec p) → v.HasTrace spec s
  diverges : ∀ s, v.Settled spec s → w.Diverges imp s → v.Diverges spec s
  unconstrained : ∀ s, v.Settled spec s → ¬ w.Unconstrained imp s

theorem Agree.symm {v : View} {t u : Trace} (h : v.Agree t u) : v.Agree u t :=
  ⟨fun s => (h.traces s).symm, fun s => (h.diverges s).symm, fun s => (h.chaotic s).symm,
    fun s => (h.unconstrained s).symm⟩

theorem Permits.of_agree {v w : View} {spec t u : Trace} (h : v.Permits spec w u)
    (hagree : w.Agree t u) : v.Permits spec w t where
  traces s hs := h.traces s ((hagree.traces s).1 hs)
  diverges s hsettled hd := h.diverges s hsettled ((hagree.diverges s).1 hd)
  unconstrained s hsettled hvague := h.unconstrained s hsettled ((hagree.unconstrained s).1 hvague)

theorem After.trans {v : View} {t u w : Trace} {s s' : List Label} (h : v.After t s u)
    (h' : v.After u s' w) : v.After t (s ++ s') w := by
  induction h with
  | here t => exact h'
  | step hm _ ih =>
      rw [List.append_assoc]
      exact .step hm (ih h')

end View

end ProcessContracts
