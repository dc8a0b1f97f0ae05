import Mathlib
import ProcessContracts.Proofs.Computations
import ProcessContracts.Proofs.Observers
import ProcessContracts.Proofs.SilentCycles
import ProcessContracts.Refinement.Search

/-!
# Explored spaces

A space is faithful if the recorded steps of an expanded state are all its steps, each one
simplified. Exploring keeps a space faithful and only ever adds to it, and a closed set of states
holds exactly the traces that were asked for.
-/

namespace ProcessContracts

open Trace

variable {limit : Nat} {program : Program} {α : Type} {space space' : Space limit}

namespace Space

def Shows (space : Space limit) (id : Fin limit) (t : Trace) : Prop :=
  space.states[id.val]? = some t

/-- The recorded step is the simplified move. -/
def Records (space : Space limit) (step : Move × Fin limit) (move : Move × Trace) : Prop :=
  step.1 = move.1 ∧ space.Shows step.2 move.2.simplify

structure Faithful (program : Program) (space : Space limit) : Prop where
  edges : ∀ {i : Nat} {steps}, space.edges[i]? = some steps → ∃ t, space.states[i]? = some t ∧
    List.Forall₂ space.Records steps (t.moves (ChannelKey.ofRef program))

/-- Whatever the first space knows, the second one knows too. -/
structure Grows (space space' : Space limit) : Prop where
  states : ∀ {i : Nat} {t}, space.states[i]? = some t → space'.states[i]? = some t
  edges : ∀ {i : Nat} {steps}, space.edges[i]? = some steps → space'.edges[i]? = some steps

theorem Grows.refl (space : Space limit) : space.Grows space := ⟨id, id⟩

theorem Grows.trans {last : Space limit} (h : space.Grows space') (h' : space'.Grows last) :
    space.Grows last := ⟨fun hi => h'.states (h.states hi), fun hi => h'.edges (h.edges hi)⟩

theorem Records.grow {step : Move × Fin limit} {move : Move × Trace} (hg : space.Grows space')
    (h : space.Records step move) : space'.Records step move := ⟨h.1, hg.states h.2⟩

theorem faithful_empty (program : Program) : Faithful program ({} : Space limit) where
  edges h := by simp at h

theorem grows_push {t : Trace} (room : space.states.size < limit) (new : space.find? t = none) :
    space.Grows (space.push t room new) where
  states {i u} h := by
    have hi : i < space.states.size := by
      obtain ⟨hi, -⟩ := Array.getElem?_eq_some_iff.1 h
      exact hi
    rw [push, Array.getElem?_push, if_neg (by omega)]
    exact h
  edges h := h

theorem faithful_push {t : Trace} (room : space.states.size < limit)
    (new : space.find? t = none) (h : space.Faithful program) :
    (space.push t room new).Faithful program where
  edges {i steps} hi := by
    have hg := grows_push room new
    obtain ⟨u, hu, hsteps⟩ := h.edges hi
    exact ⟨u, hg.states hu, hsteps.imp fun _ _ hr => hr.grow hg⟩

theorem steps_eq {id : Fin limit} {steps : List (Move × Fin limit)}
    (h : space.edges[id.val]? = some steps) : space.steps id = steps := by
  rw [Space.steps, Std.TreeMap.getD_eq_getD_getElem?, h]
  rfl

/-- The recorded steps of an expanded state are its moves. -/
theorem Faithful.mem_steps {id : Fin limit} {t : Trace} {steps : List (Move × Fin limit)}
    (h : space.Faithful program) (hsteps : space.edges[id.val]? = some steps)
    (ht : space.Shows id t) {m : Move} :
    (∀ next, (m, next) ∈ steps → ∃ u, (m, u) ∈ t.moves (ChannelKey.ofRef program) ∧
      space.Shows next u.simplify) ∧
    ∀ u, (m, u) ∈ t.moves (ChannelKey.ofRef program) → ∃ next, (m, next) ∈ steps ∧
      space.Shows next u.simplify := by
  obtain ⟨t', ht', hrecords⟩ := h.edges hsteps
  obtain rfl : t' = t := Option.some.inj (ht'.symm.trans ht)
  constructor
  · intro next hnext
    obtain ⟨i, hi, hget⟩ := List.getElem_of_mem hnext
    have hrec := List.Forall₂.get hrecords hi (hrecords.length_eq ▸ hi)
    rw [List.get_eq_getElem, List.get_eq_getElem, hget] at hrec
    exact ⟨_, by rw [show m = _ from hrec.1]; exact List.getElem_mem _, hrec.2⟩
  · intro u hu
    obtain ⟨i, hi, hget⟩ := List.getElem_of_mem hu
    have hrec := List.Forall₂.get hrecords (hrecords.length_eq ▸ hi) hi
    rw [List.get_eq_getElem, List.get_eq_getElem, hget] at hrec
    exact ⟨_, by rw [← show _ = m from hrec.1]; exact List.getElem_mem _, hrec.2⟩

end Space

namespace Explore

open Space

/-- Exploring keeps a faithful space faithful and adds to it. -/
structure Explores (program : Program) (space space' : Space limit) : Prop where
  faithful : space'.Faithful program
  grows : space.Grows space'

theorem Explores.trans {last : Space limit} (h : Explores program space space')
    (h' : Explores program space' last) : Explores program space last :=
  ⟨h'.faithful, h.grows.trans h'.grows⟩

theorem intern_spec {t : Trace} {id : Fin limit} (hspace : space.Faithful program)
    (h : (intern t).run space = .ok id space') :
    Explores program space space' ∧ space'.edges = space.edges ∧ space'.Shows id t := by
  unfold intern at h
  obtain ⟨_, _, hget, h⟩ := bind_eq_ok.1 h
  obtain ⟨rfl, rfl⟩ := get_eq_ok.1 hget
  split at h
  case h_1 known hfind =>
    obtain ⟨rfl, rfl⟩ := pure_eq_ok.1 h
    exact ⟨⟨hspace, .refl _⟩, rfl, find?_eq_some_iff.1 hfind⟩
  case h_2 hfind =>
    split at h
    case isTrue room =>
      obtain ⟨_, mid, hset, h⟩ := bind_eq_ok.1 h
      obtain rfl := set_eq_ok.1 hset
      obtain ⟨rfl, rfl⟩ := pure_eq_ok.1 h
      refine ⟨⟨faithful_push room hfind hspace, grows_push room hfind⟩, rfl, ?_⟩
      simp [Shows, push]
    case isFalse => exact absurd h throw_ne_ok

theorem internSteps_spec {steps : List (Move × Trace)} {interned : List (Move × Fin limit)}
    (hspace : space.Faithful program)
    (h : (internSteps steps).run space = .ok interned space') :
    Explores program space space' ∧ space'.edges = space.edges ∧
      List.Forall₂ space'.Records interned steps := by
  induction steps generalizing space interned with
  | nil =>
      obtain ⟨rfl, rfl⟩ := pure_eq_ok.1 h
      exact ⟨⟨hspace, .refl _⟩, rfl, .nil⟩
  | cons step rest ih =>
      obtain ⟨move, next⟩ := step
      obtain ⟨id, mid, hintern, h⟩ := bind_eq_ok.1 h
      obtain ⟨ids, last, hrest, h⟩ := bind_eq_ok.1 h
      obtain ⟨rfl, rfl⟩ := pure_eq_ok.1 h
      obtain ⟨hmid, hedges, hshows⟩ := intern_spec hspace hintern
      obtain ⟨hlast, hedges', hrecords⟩ := ih hmid.faithful hrest
      exact ⟨hmid.trans hlast, hedges'.trans hedges,
        .cons ⟨rfl, hlast.grows.states hshows⟩ hrecords⟩

theorem liftLookup_eq_ok {look : Lookup α} {a : α}
    (h : (liftLookup look : Explore limit α).run space = .ok a space') : space = space' := by
  cases look with
  | ok value => exact (pure_eq_ok.1 h).2
  | error fault => exact absurd h throw_ne_ok

theorem forM_liftLookup_eq_ok {l : List α} {look : α → Lookup PUnit} {u : PUnit}
    (h : (l.forM fun a => (liftLookup (look a) : Explore limit PUnit)).run space = .ok u space') :
    space = space' := by
  induction l generalizing space with
  | nil => exact (pure_eq_ok.1 h).2
  | cons a l ih =>
      obtain ⟨_, mid, hlook, h⟩ := bind_eq_ok.1 h
      rw [liftLookup_eq_ok hlook]
      exact ih h

/-- An expanded state has its steps recorded. -/
theorem expand_spec {id : Fin limit} {t : Trace} {steps : List (Move × Fin limit)}
    (hspace : space.Faithful program) (ht : space.Shows id t)
    (h : (expand program id).run space = .ok steps space') :
    Explores program space space' ∧ space'.edges[id.val]? = some steps := by
  unfold expand at h
  obtain ⟨_, _, hget, h⟩ := bind_eq_ok.1 h
  obtain ⟨rfl, rfl⟩ := get_eq_ok.1 hget
  split at h
  case h_1 known hknown =>
    obtain ⟨rfl, rfl⟩ := pure_eq_ok.1 h
    exact ⟨⟨hspace, .refl _⟩, hknown⟩
  case h_2 hnew =>
    rw [Shows] at ht
    simp only [ht] at h
    obtain ⟨_, mid, hlook, h⟩ := bind_eq_ok.1 h
    obtain rfl := forM_liftLookup_eq_ok hlook
    obtain ⟨interned, mid, hintern, h⟩ := bind_eq_ok.1 h
    obtain ⟨_, last, hmodify, h⟩ := bind_eq_ok.1 h
    obtain ⟨rfl, rfl⟩ := pure_eq_ok.1 h
    obtain rfl := modify_eq_ok.1 hmodify
    obtain ⟨hmid, hedges, hrecords⟩ := internSteps_spec hspace hintern
    have hlookup : ∀ i : Nat, (mid.edges.insert id.val interned)[i]? =
        if id.val = i then some interned else mid.edges[i]? := by
      intro i
      rw [Std.TreeMap.getElem?_insert]
      simp
    refine ⟨⟨⟨fun {i known} hi => ?_⟩, hmid.grows.states, fun {i known} hi => ?_⟩, ?_⟩
    · rw [hlookup] at hi
      split at hi
      case isTrue heq =>
        obtain rfl := Option.some.inj hi
        exact ⟨t, heq ▸ hmid.grows.states ht, hrecords⟩
      case isFalse => exact hmid.faithful.edges hi
    · rw [hlookup]
      split
      case isTrue heq =>
        rw [heq, hi] at hnew
        cases hnew
      case isFalse => rw [hedges, hi]
    · rw [hlookup, if_pos rfl]

end Explore

/-- A report is about a search that was finished or about one that was given up. -/
theorem cases_of_refines {spec imp : Trace} {report : RefinementReport}
    (h : refines program spec imp limit = .ok report) :
    (∃ reached mid last,
      (Explore.start program spec imp : Explore limit (Reached limit)).run {} = .ok reached mid ∧
      (Explore.search program [] List.nodup_nil {} [reached]).run mid =
        .ok (report.verdict, report.restrictive) last ∧
      report.statesExplored = last.states.size) ∨
    ∃ last : Space limit, (Explore.start program spec imp >>= fun reached =>
        Explore.search program [] List.nodup_nil {} [reached]).run {} = .error .exhausted last ∧
      report = ⟨.inconclusive, [], last.states.size⟩ := by
  unfold refines at h
  dsimp only at h
  split at h
  case h_1 verdict restrictive last hrun =>
    obtain ⟨reached, mid, hstart, hsearch⟩ := bind_eq_ok.1 hrun
    obtain rfl := Except.ok.inj h
    exact .inl ⟨reached, mid, last, hstart, hsearch, rfl⟩
  case h_2 last hrun => exact .inr ⟨last, hrun, (Except.ok.inj h).symm⟩
  case h_3 => cases h

end ProcessContracts
