import ProcessContracts.Proofs.Closure

/-!
# Comparing both sides at one pair

What a search asks of a pair of closed sets is asked of the two traces it started from, after the
path that leads to the pair: the sets of states answer for what is noted on the paths of a search.
-/

namespace ProcessContracts

open Trace Explore

variable {limit : Nat} {program : Program} {space space' : Space limit} {set set' : StateSet limit}
  {t spec imp : Trace} {s : List Label} {l : Label}

namespace Space

/-- The set holds what `s` leads to from the trace. -/
def HoldsAfter (program : Program) (space : Space limit) (set : StateSet limit) (t : Trace)
    (s : List Label) : Prop :=
  space.Holds set (Leads (ChannelKey.ofRef program) t.simplify s)

theorem HoldsAfter.chaotic_iff (h : space.HoldsAfter program set t s) :
    space.any set acceptsAnything = true ↔ program.searched.Chaotic t s := any_iff h _

theorem HoldsAfter.unconstrained_iff (h : space.HoldsAfter program set t s) :
    space.any set unconstrained = true ↔ program.searched.Unconstrained t s := any_iff h _

theorem HoldsAfter.isEmpty_iff (h : space.HoldsAfter program set t s) :
    set.isEmpty = true ↔ ¬ program.searched.HasTrace t s := Space.isEmpty_iff h

theorem HoldsAfter.diverges_iff (hspace : space.Faithful program)
    (h : space.HoldsAfter program set t s) :
    space.diverges set = true ↔ program.searched.Diverges t s := by
  refine Space.diverges_iff hspace h ?_
  rintro u _ hu ⟨w, hw, rfl⟩
  simpa using hu.trans (.silent hw (.here _))

theorem HoldsAfter.mem_labels (hspace : space.Faithful program)
    (h : space.HoldsAfter program set t s) :
    l ∈ space.labels set ↔ program.searched.HasTrace t (s ++ [l]) := by
  refine (Space.mem_labels hspace h).trans ?_
  constructor
  · rintro ⟨u, w, hu, hw⟩
    exact ⟨w.simplify, Leads.concat_iff.2 ⟨u, w, hu, hw, .here _⟩⟩
  · rintro ⟨_, h⟩
    obtain ⟨u, w, hu, hw, -⟩ := Leads.concat_iff.1 h
    exact ⟨u, w, hu, hw⟩

end Space

namespace Explore

open Space

theorem step_after (hspace : space.Faithful program) (hset : space.HoldsAfter program set t s)
    (h : (step program set l).run space = .ok set' space') :
    Explores program space space' ∧ space'.HoldsAfter program set' t (s ++ [l]) := by
  obtain ⟨hexplores, hholds⟩ := step_spec hspace hset h
  exact ⟨hexplores, hholds.congr fun w => Leads.concat_iff.symm⟩

theorem closure_singleton {id : Fin limit} (hspace : space.Faithful program)
    (hid : space.Shows id t.simplify)
    (h : (closure program [id]).run space = .ok set space') :
    Explores program space space' ∧ space'.HoldsAfter program set t [] := by
  obtain ⟨hexplores, hholds⟩ := closure_spec (p := (· = t.simplify)) hspace
    (fun other hother => by
      obtain rfl := List.mem_singleton.1 hother
      exact ⟨_, hid, rfl⟩)
    (fun u hu => ⟨id, List.mem_singleton_self id, hu ▸ hid⟩) h
  exact ⟨hexplores, hholds.congr fun u => exists_eq_left⟩

/-- Both sets of a pair hold what `s` leads to. -/
structure Tracks (program : Program) (space : Space limit) (spec imp : Trace)
    (reached : Reached limit) (s : List Label) : Prop where
  imp : space.HoldsAfter program reached.imp imp s
  spec : space.HoldsAfter program reached.spec spec s

variable {reached : Reached limit}

theorem Tracks.grow (h : Tracks program space spec imp reached s) (hg : space.Grows space') :
    Tracks program space' spec imp reached s :=
  ⟨Holds.grow h.imp hg, Holds.grow h.spec hg⟩

theorem start_spec (hspace : space.Faithful program)
    (h : (start program spec imp).run space = .ok reached space') :
    Explores program space space' ∧ Tracks program space' spec imp reached [] ∧
      reached.path = [] := by
  unfold start at h
  obtain ⟨impStart, space₁, h₁, h⟩ := bind_eq_ok.1 h
  obtain ⟨specStart, space₂, h₂, h⟩ := bind_eq_ok.1 h
  obtain ⟨impSet, space₃, h₃, h⟩ := bind_eq_ok.1 h
  obtain ⟨specSet, space₄, h₄, h⟩ := bind_eq_ok.1 h
  obtain ⟨rfl, rfl⟩ := pure_eq_ok.1 h
  obtain ⟨he₁, -, hi⟩ := intern_spec hspace h₁
  obtain ⟨he₂, -, hs⟩ := intern_spec he₁.faithful h₂
  obtain ⟨he₃, himpSet⟩ := closure_singleton he₂.faithful (he₂.grows.states hi) h₃
  obtain ⟨he₄, hspecSet⟩ := closure_singleton he₃.faithful (he₃.grows.states hs) h₄
  exact ⟨he₁.trans (he₂.trans (he₃.trans he₄)), ⟨himpSet.grow he₄.grows, hspecSet⟩, rfl⟩

/-- The next pair is where both sides go by the label. -/
structure Follows (program : Program) (space : Space limit) (spec imp : Trace)
    (reached : Reached limit) (s : List Label) (l : Label) (next : Reached limit) : Prop where
  path : next.path = l :: reached.path
  tracks : Tracks program space spec imp next (s ++ [l])

/-- What comes of following the labels: all are answered by the specification and the pairs they lead
to are found, or one of them is not answered. -/
def Followed (program : Program) (space : Space limit) (spec imp : Trace)
    (reached : Reached limit) (s : List Label) (labels : List Label) :
    Except Violation (List (Reached limit)) → Prop
  | .error violation => ∃ l ∈ labels, violation = .unexpectedStep l ∧
      ¬ program.searched.HasTrace spec (s ++ [l])
  | .ok next =>
      (∀ l ∈ labels, program.searched.HasTrace spec (s ++ [l])) ∧
      (∀ r ∈ next, ∃ l ∈ labels, l ≠ .tick ∧ Follows program space spec imp reached s l r) ∧
      ∀ l ∈ labels, l ≠ .tick → ∃ r ∈ next, Follows program space spec imp reached s l r

section Followed

variable {l : Label} {rest : List Label} {result : Except Violation (List (Reached limit))}

/-- A label that leads nowhere. -/
theorem Followed.tick (hhas : program.searched.HasTrace spec (s ++ [.tick]))
    (h : Followed program space spec imp reached s rest result) :
    Followed program space spec imp reached s (.tick :: rest) result := by
  cases result with
  | error violation =>
      obtain ⟨l, hl, hno⟩ := h
      exact ⟨l, List.mem_cons_of_mem _ hl, hno⟩
  | ok next =>
      obtain ⟨hall, hsound, hcomplete⟩ := h
      refine ⟨List.forall_mem_cons.2 ⟨hhas, hall⟩, fun r hr => ?_, fun l hl hne => ?_⟩
      · obtain ⟨l, hl, hr⟩ := hsound r hr
        exact ⟨l, List.mem_cons_of_mem _ hl, hr⟩
      · exact hcomplete l (List.mem_of_ne_of_mem hne hl) hne

theorem Followed.cons {first : Reached limit} (hne : l ≠ .tick)
    (hhas : program.searched.HasTrace spec (s ++ [l]))
    (hfirst : Follows program space spec imp reached s l first)
    (h : Followed program space spec imp reached s rest result) :
    Followed program space spec imp reached s (l :: rest) (result.map (first :: ·)) := by
  cases result with
  | error violation =>
      obtain ⟨l', hl', hno⟩ := h
      exact ⟨l', List.mem_cons_of_mem _ hl', hno⟩
  | ok next =>
      obtain ⟨hall, hsound, hcomplete⟩ := h
      refine ⟨List.forall_mem_cons.2 ⟨hhas, hall⟩, fun r hr => ?_, fun l' hl' hne' => ?_⟩
      · rcases List.mem_cons.1 hr with rfl | hr
        · exact ⟨l, List.mem_cons_self, hne, hfirst⟩
        · obtain ⟨l', hl', hr⟩ := hsound r hr
          exact ⟨l', List.mem_cons_of_mem _ hl', hr⟩
      · rcases List.mem_cons.1 hl' with rfl | hl'
        · exact ⟨_, List.mem_cons_self, hfirst⟩
        · obtain ⟨r, hr, hfollows⟩ := hcomplete l' hl' hne'
          exact ⟨r, List.mem_cons_of_mem _ hr, hfollows⟩

end Followed

theorem follow_spec {labels : List Label} {result : Except Violation (List (Reached limit))}
    (hspace : space.Faithful program)
    (hreached : Tracks program space spec imp reached s)
    (h : (follow program reached labels).run space = .ok result space') :
    Explores program space space' ∧
      Followed program space' spec imp reached s labels result := by
  induction labels generalizing space result with
  | nil =>
      obtain ⟨rfl, rfl⟩ := pure_eq_ok.1 h
      exact ⟨⟨hspace, .refl _⟩, by simp [Followed]⟩
  | cons l rest ih =>
      unfold follow at h
      obtain ⟨specNext, space₁, h₁, h⟩ := bind_eq_ok.1 h
      obtain ⟨he₁, hspecNext⟩ := step_after hspace hreached.spec h₁
      have hreached₁ := hreached.grow he₁.grows
      split at h
      case isTrue hempty =>
        obtain ⟨rfl, rfl⟩ := pure_eq_ok.1 h
        exact ⟨he₁, l, List.mem_cons_self, rfl, hspecNext.isEmpty_iff.1 hempty⟩
      case isFalse hne =>
        have hhas : program.searched.HasTrace spec (s ++ [l]) :=
          not_not.1 fun hno => hne (hspecNext.isEmpty_iff.2 hno)
        split at h
        case isTrue htick =>
          obtain ⟨he₂, hrest⟩ := ih he₁.faithful hreached₁ h
          subst htick
          exact ⟨he₁.trans he₂, hrest.tick hhas⟩
        case isFalse htick =>
          obtain ⟨impNext, space₂, h₂, h⟩ := bind_eq_ok.1 h
          obtain ⟨he₂, himpNext⟩ := step_after he₁.faithful hreached₁.imp h₂
          obtain ⟨followed, space₃, h₃, h⟩ := bind_eq_ok.1 h
          obtain ⟨rfl, rfl⟩ := pure_eq_ok.1 h
          obtain ⟨he₃, hrest⟩ := ih he₂.faithful (hreached₁.grow he₂.grows) h₃
          have hfirst : Follows program space₃ spec imp reached s l
              ⟨impNext, specNext, l :: reached.path⟩ :=
            ⟨rfl, Holds.grow himpNext he₃.grows, Holds.grow hspecNext (he₂.trans he₃).grows⟩
          exact ⟨he₁.trans (he₂.trans he₃), hrest.cons htick hhas hfirst⟩

/-- A pair without a violation: the specification may accept anything there and the search goes no
further, or nothing is wrong and the next pairs are where both sides go. -/
structure Cleared (program : Program) (space : Space limit) (spec imp : Trace)
    (reached : Reached limit) (s : List Label) (next : List (Reached limit)) : Prop where
  calm : ¬ program.searched.Chaotic spec s →
    ∀ violation, ¬ program.searched.Happens spec imp s violation
  sound : ∀ r ∈ next, ¬ program.searched.Chaotic spec s ∧
    ∃ l, program.searched.HasTrace imp (s ++ [l]) ∧ Follows program space spec imp reached s l r
  complete : ¬ program.searched.Chaotic spec s → ∀ l, l ≠ .tick →
    program.searched.HasTrace imp (s ++ [l]) →
      ∃ r ∈ next, Follows program space spec imp reached s l r

theorem inspect_spec {tally : Tally} {result : Except Violation (List (Reached limit) × Tally)}
    (hspace : space.Faithful program)
    (hreached : Tracks program space spec imp reached s)
    (h : (inspect program reached tally).run space = .ok result space') :
    Explores program space space' ∧ match result with
      | .error violation => ¬ program.searched.Chaotic spec s ∧
          program.searched.Happens spec imp s violation
      | .ok (next, _) => Cleared program space' spec imp reached s next := by
  unfold inspect at h
  obtain ⟨_, _, hget, h⟩ := bind_eq_ok.1 h
  obtain ⟨rfl, rfl⟩ := get_eq_ok.1 hget
  have hchaotic := hreached.spec.chaotic_iff
  have hvague := hreached.imp.unconstrained_iff
  have hdimp := hreached.imp.diverges_iff hspace
  have hdspec := hreached.spec.diverges_iff hspace
  have hlabels := fun l => hreached.imp.mem_labels (l := l) hspace
  split at h
  case isTrue hc =>
    obtain ⟨rfl, rfl⟩ := pure_eq_ok.1 h
    have hc := hchaotic.1 hc
    exact ⟨⟨hspace, .refl _⟩, fun hno => absurd hc hno, by simp, fun hno => absurd hc hno⟩
  case isFalse hc =>
    have hc := mt hchaotic.2 hc
    split at h
    case isTrue hd =>
      obtain ⟨rfl, rfl⟩ := pure_eq_ok.1 h
      rw [Bool.and_eq_true, Bool.not_eq_true'] at hd
      exact ⟨⟨hspace, .refl _⟩, hc, hdimp.1 hd.1, fun hs => by simp [hdspec.2 hs] at hd⟩
    case isFalse hd =>
      split at h
      case isTrue hu =>
        obtain ⟨rfl, rfl⟩ := pure_eq_ok.1 h
        exact ⟨⟨hspace, .refl _⟩, hc, hvague.1 hu⟩
      case isFalse hu =>
        obtain ⟨followed, last, hfollow, h⟩ := bind_eq_ok.1 h
        obtain ⟨rfl, rfl⟩ := pure_eq_ok.1 h
        obtain ⟨hexplores, hresult⟩ := follow_spec hspace hreached hfollow
        refine ⟨hexplores, ?_⟩
        cases followed with
        | error violation =>
            obtain ⟨l, hl, rfl, hno⟩ := hresult
            exact ⟨hc, (hlabels l).1 hl, hno⟩
        | ok next =>
            obtain ⟨hall, hsound, hcomplete⟩ := hresult
            refine ⟨fun _ violation hhappens => ?_, fun r hr => ?_, fun _ l hne hl => ?_⟩
            · cases violation with
              | unexpectedStep l => exact hhappens.2 (hall l ((hlabels l).2 hhappens.1))
              | divergence =>
                  refine hd ?_
                  rw [Bool.and_eq_true, Bool.not_eq_true', ← Bool.not_eq_true]
                  exact ⟨hdimp.2 hhappens.1, mt hdspec.1 hhappens.2⟩
              | unconstrained => exact hu (hvague.2 hhappens)
            · obtain ⟨l, hl, -, hr⟩ := hsound r hr
              exact ⟨hc, l, (hlabels l).1 hl, hr⟩
            · exact hcomplete l ((hlabels l).2 hl) hne

/-- A pair counts only where the specification accepts nothing arbitrary. -/
theorem tally_of_inspect {tally tally' : Tally} {next : List (Reached limit)}
    (h : (inspect program reached tally).run space = .ok (.ok (next, tally')) space') :
    tally' = if space.any reached.spec acceptsAnything then tally
      else tally.add (space.labels reached.spec) (space.labels reached.imp) := by
  unfold inspect at h
  obtain ⟨_, _, hget, h⟩ := bind_eq_ok.1 h
  obtain ⟨rfl, rfl⟩ := get_eq_ok.1 hget
  split at h
  case isTrue hc =>
    obtain ⟨heq, -⟩ := pure_eq_ok.1 h
    cases heq
    rw [if_pos hc]
  case isFalse hc =>
    rw [if_neg hc]
    split at h
    case isTrue => cases (pure_eq_ok.1 h).1
    case isFalse =>
      split at h
      case isTrue => cases (pure_eq_ok.1 h).1
      case isFalse =>
        obtain ⟨followed, mid, -, h⟩ := bind_eq_ok.1 h
        obtain ⟨heq, -⟩ := pure_eq_ok.1 h
        cases followed with
        | error violation => cases heq
        | ok pairs =>
            cases heq
            rfl

end Explore

end ProcessContracts
