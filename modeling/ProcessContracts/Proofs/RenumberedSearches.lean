import ProcessContracts.Proofs.RenumberedTraces

/-!
# Searches over renumbered states

States are told apart by equality only, so a search from renumbered traces finds renumbered states,
in the same order and with the same steps between them. Its verdict is the same, and so is the
number of states it took.
-/

namespace ProcessContracts

open Trace

variable {limit : Nat} {program : Program} {f : AtomId → AtomId} {α β : Type}

/-- The same space with the atoms of every state renumbered. -/
structure Space.Mirrored (f : AtomId → AtomId) (space space' : Space limit) : Prop where
  states : space'.states = space.states.map (Trace.renumber f)
  edges : space'.edges = space.edges

namespace Space.Mirrored

variable {space space' : Space limit}

theorem getElem? (h : space.Mirrored f space') (i : Nat) :
    space'.states[i]? = space.states[i]?.map (Trace.renumber f) := by
  rw [h.states, Array.getElem?_map]

theorem find? (hf : f.Injective) (h : space.Mirrored f space') (t : Trace) :
    space'.find? (t.renumber f) = space.find? t := by
  refine Option.ext fun id => ?_
  rw [find?_eq_some_iff, find?_eq_some_iff, h.getElem?, Option.map_eq_some_iff]
  constructor
  · rintro ⟨u, hu, heq⟩
    rwa [← renumber_injective hf heq]
  · exact fun ht => ⟨t, ht, rfl⟩

theorem any (h : space.Mirrored f space') (set : StateSet limit) {p : Trace → Bool}
    (hp : ∀ t, p (t.renumber f) = p t) : space'.any set p = space.any set p := by
  unfold Space.any
  refine congrArg _ (funext fun id => ?_)
  rw [h.getElem?]
  cases space.states[id.val]? with
  | none => rfl
  | some t => exact hp t

theorem steps (h : space.Mirrored f space') : space'.steps = space.steps := by
  unfold Space.steps
  rw [h.edges]

theorem labels (h : space.Mirrored f space') : space'.labels = space.labels := by
  unfold Space.labels
  rw [h.steps]

theorem targets (h : space.Mirrored f space') : space'.targets = space.targets := by
  unfold Space.targets
  rw [h.steps]

theorem diverges (h : space.Mirrored f space') (set : StateSet limit) :
    space'.diverges set = space.diverges set := by
  have hany : ∀ t : Trace, (t.renumber f).diverges = t.diverges := fun t =>
    any_active (active_renumber t) fun l => by cases l <;> rfl
  unfold Space.diverges Space.silentGraph
  rw [h.any set hany, h.targets]

end Space.Mirrored

namespace Explore

/-- The second computation does on renumbered states what the first one does. -/
abbrev Mirrors (f : AtomId → AtomId) (m m' : Explore limit α) : Prop :=
  Alongside (Space.Mirrored f) Eq m m'

theorem mirrors_pure (a : α) : Mirrors f (pure a : Explore limit α) (pure a) := alongside_pure rfl

theorem Mirrors.bind {m m' : Explore limit α} {k k' : α → Explore limit β} (h : Mirrors f m m')
    (hk : ∀ a, Mirrors f (k a) (k' a)) : Mirrors f (m >>= k) (m' >>= k') :=
  Alongside.bind h fun a _ heq => heq ▸ hk a

theorem mirrors_liftLookup (look : Lookup α) :
    Mirrors f (liftLookup look : Explore limit α) (liftLookup look) := by
  cases look with
  | ok a => exact mirrors_pure a
  | error fault => exact alongside_throw _

theorem mirrors_forM {query : β → Explore limit PUnit} (h : ∀ b, Mirrors f (query b) (query b))
    (l : List β) : Mirrors f (l.forM query) (l.forM query) := by
  induction l with
  | nil => exact mirrors_pure _
  | cons b l ih => exact (h b).bind fun _ => ih

/-! ## Finding states -/

section Find

variable (hf : f.Injective)
include hf

theorem mirrors_intern (t : Trace) :
    Mirrors f (intern t : Explore limit (Fin limit)) (intern (t.renumber f)) := by
  refine alongside_get fun space space' hspace => ?_
  have hfind := hspace.find? hf t
  have hsize : space'.states.size = space.states.size := by rw [hspace.states, Array.size_map]
  split
  case h_1 id hknown =>
    split
    case h_1 id' hknown' =>
      obtain rfl := Option.some.inj (hknown'.symm.trans (hfind.trans hknown))
      exact ⟨rfl, hspace⟩
    case h_2 hnew =>
      rw [hfind, hknown] at hnew
      cases hnew
  case h_2 hnew =>
    have habsent : ∀ id, space'.find? (t.renumber f) ≠ some id := fun id hknown => by
      rw [hfind, hnew] at hknown
      cases hknown
    split
    case isTrue room =>
      split
      case h_1 id hknown => exact absurd hknown (habsent id)
      case h_2 =>
        rw [dif_pos (hsize ▸ room)]
        refine ⟨Fin.ext hsize.symm, ?_, hspace.edges⟩
        simp only [Space.push, hspace.states, Array.map_push]
    case isFalse full =>
      split
      case h_1 id hknown => exact absurd hknown (habsent id)
      case h_2 =>
        rw [dif_neg (hsize ▸ full)]
        exact ⟨rfl, hspace⟩

theorem mirrors_internSteps (steps : List (Move × Trace)) :
    Mirrors f (internSteps steps : Explore limit (List (Move × Fin limit)))
      (internSteps (steps.map (carry (renumber f) id))) := by
  induction steps with
  | nil => exact mirrors_pure _
  | cons step rest ih =>
      obtain ⟨move, next⟩ := step
      rw [List.map_cons, carry, Move.relabel_id, internSteps, internSteps, simplify_renumber hf]
      exact (mirrors_intern hf _).bind fun id => ih.bind fun ids => mirrors_pure _

theorem mirrors_expand (id : Fin limit) : Mirrors f (expand program id) (expand program id) := by
  refine alongside_get fun space space' hspace => ?_
  rw [hspace.edges, hspace.getElem?]
  cases space.edges[id.val]? with
  | some known => exact ⟨rfl, hspace⟩
  | none =>
      cases space.states[id.val]? with
      | none => exact ⟨rfl, hspace⟩
      | some t =>
          have hchannels : (t.renumber f).activeChannels = t.activeChannels := by
            unfold activeChannels
            rw [active_renumber, List.filterMap_map]
            refine List.filterMap_congr fun l _ => ?_
            cases l <;> rfl
          dsimp only [Option.map_some]
          rw [hchannels, moves_renumber hf]
          refine Mirrors.bind (mirrors_forM (fun chan => mirrors_liftLookup _) _) (fun _ => ?_)
            space space' hspace
          refine (mirrors_internSteps hf _).bind fun steps => ?_
          refine Mirrors.bind (fun space space' hspace => ⟨rfl, hspace.states, ?_⟩)
            fun _ => mirrors_pure _
          exact congrArg (Std.TreeMap.insert · id.val steps) hspace.edges

theorem mirrors_close (seen : StateSet limit) (stack : List (Fin limit)) :
    Mirrors f (close program seen stack) (close program seen stack) := by
  induction seen, stack using close.induct with
  | case1 seen =>
      rw [close]
      exact mirrors_pure _
  | case2 seen id stack hmem ih =>
      rw [close, dif_pos hmem]
      exact ih
  | case3 seen id stack hnew ih =>
      rw [close, dif_neg hnew]
      exact (mirrors_expand hf id).bind ih

theorem mirrors_step (set : StateSet limit) (label : Label) :
    Mirrors f (step program set label) (step program set label) := by
  refine alongside_get fun space space' hspace => ?_
  rw [hspace.targets]
  exact mirrors_close hf _ _ space space' hspace

/-! ## Comparing both sides -/

theorem mirrors_follow (reached : Reached limit) (labels : List Label) :
    Mirrors f (follow program reached labels) (follow program reached labels) := by
  induction labels with
  | nil => exact mirrors_pure _
  | cons label rest ih =>
      refine (mirrors_step hf _ _).bind fun spec => ?_
      split
      · exact mirrors_pure _
      · split
        · exact ih
        · exact (mirrors_step hf _ _).bind fun imp => ih.bind fun result => mirrors_pure _

theorem mirrors_inspect (reached : Reached limit) (tally : Tally) :
    Mirrors f (inspect program reached tally) (inspect program reached tally) := by
  have haccepts : ∀ t : Trace, (t.renumber f).acceptsAnything = t.acceptsAnything := fun t =>
    any_active (active_renumber t) fun l => by cases l <;> rfl
  have hunconstrained : ∀ t : Trace, (t.renumber f).unconstrained = t.unconstrained := fun t =>
    any_active (active_renumber t) fun l => by cases l <;> rfl
  refine alongside_get fun space space' hspace => ?_
  rw [hspace.any _ haccepts, hspace.any _ hunconstrained, hspace.diverges, hspace.diverges,
    hspace.labels]
  split
  · exact ⟨rfl, hspace⟩
  · split
    · exact ⟨rfl, hspace⟩
    · split
      · exact ⟨rfl, hspace⟩
      · exact (mirrors_follow hf _ _).bind (fun result => mirrors_pure _) space space' hspace

theorem mirrors_search (visited : List (StateSet limit × StateSet limit)) (nodup : visited.Nodup)
    (tally : Tally) (queue : List (Reached limit)) :
    Mirrors f (search program visited nodup tally queue)
      (search program visited nodup tally queue) := by
  induction visited, nodup, tally, queue using search.induct with
  | case1 visited nodup tally =>
      rw [search]
      exact mirrors_pure _
  | case2 visited nodup tally reached queue seen ih =>
      rw [search, dif_pos seen]
      exact ih
  | case3 visited nodup tally reached queue new ih =>
      rw [search, dif_neg new]
      refine (mirrors_inspect hf reached tally).bind fun result => ?_
      cases result with
      | error violation => exact mirrors_pure _
      | ok next => exact ih next.1 next.2

theorem mirrors_start (spec imp : Trace) :
    Mirrors f (start program spec imp : Explore limit (Reached limit))
      (start program (spec.renumber f) (imp.renumber f)) := by
  unfold start
  rw [simplify_renumber hf, simplify_renumber hf]
  exact (mirrors_intern hf _).bind fun _ => (mirrors_intern hf _).bind fun _ =>
    (mirrors_close hf _ _).bind fun _ => (mirrors_close hf _ _).bind fun _ => mirrors_pure _

end Find

end Explore

/-- A comparison does not depend on the numbers of atoms, nor does the number of its states. -/
theorem refines_renumber (hf : f.Injective) (spec imp : Trace) (limit : Nat) :
    refines program (spec.renumber f) (imp.renumber f) limit = refines program spec imp limit := by
  have hempty : Space.Mirrored f ({} : Space limit) {} := ⟨by simp, rfl⟩
  have hsearches : Explore.Mirrors f
      ((Explore.start program spec imp : Explore limit (Reached limit)) >>= fun start =>
        Explore.search program [] List.nodup_nil {} [start])
      (Explore.start program (spec.renumber f) (imp.renumber f) >>= fun start =>
        Explore.search program [] List.nodup_nil {} [start]) :=
    (Explore.mirrors_start hf spec imp).bind fun _ => Explore.mirrors_search hf _ _ _ _
  have hsame := hsearches {} {} hempty
  unfold refines
  dsimp only
  generalize EStateM.run ((Explore.start program spec imp : Explore limit (Reached limit)) >>= _)
    {} = run at hsame ⊢
  generalize EStateM.run ((Explore.start program (spec.renumber f) (imp.renumber f) :
    Explore limit (Reached limit)) >>= _) {} = run' at hsame ⊢
  have hsize : ∀ {space space' : Space limit}, space.Mirrored f space' →
      space'.states.size = space.states.size := fun hspace => by
    rw [hspace.states, Array.size_map]
  cases run with
  | ok found last =>
      cases run' with
      | ok found' last' =>
          obtain ⟨rfl, hlast⟩ := hsame
          dsimp only
          rw [hsize hlast]
      | error => exact hsame.elim
  | error halt last =>
      cases run' with
      | ok => exact hsame.elim
      | error halt' last' =>
          obtain ⟨rfl, hlast⟩ := hsame
          cases halt' with
          | exhausted =>
              dsimp only
              rw [hsize hlast]
          | fault fault => rfl

end ProcessContracts
