import ProcessContracts.Proofs.Channels
import ProcessContracts.Proofs.Contexts
import ProcessContracts.Proofs.Copies
import ProcessContracts.Proofs.Instances
import ProcessContracts.Proofs.Keys

/-!
# Instances of a refinement

Renaming channels keeps the shape of a trace, so it renames the steps. Where channels that mean the
same are renamed to channels that mean the same, the labels change by a function on keys; several
keys may become one. An instance does this, so what refines a specification is not refuted against
it in any instance, whichever formals are given one argument.
-/

namespace ProcessContracts

open ChannelKey Trace

namespace Trace

variable {f : ChanRef → ChanRef} {g : ChannelKey → ChannelKey} {key : ChanRef → ChannelKey}
  {t : Trace} {chans : List ChanRef}

theorem mapChannels_substitute (f : ChanRef → ChanRef) (id : AtomId) (r t : Trace) :
    (substitute id r t).mapChannels f = substitute id (r.mapChannels f) (t.mapChannels f) := by
  induction t with
  | ref other =>
      simp only [substitute, mapChannels]
      split
      · rfl
      · rfl
  | comp op ts ih =>
      simp only [substitute, mapChannels, substituteAll_eq_map, mapChannelsAll_eq_map,
        List.map_map, Trace.comp.injEq, true_and]
      exact List.map_congr_left ih
  | fix binder body ih =>
      simp only [substitute, mapChannels]
      split
      · rfl
      · rw [mapChannels, ih]
  | _ => rfl

theorem keepsOperators_mapChannels (f : ChanRef → ChanRef) : KeepsOperators (mapChannels f) where
  unit op := by cases op <;> rfl
  comp op ts := by rw [mapChannels, mapChannelsAll_eq_map]

theorem moves_mapChannels (h : ∀ c ∈ t.channels, key (f c) = g (key c)) :
    (t.mapChannels f).moves key = (t.moves key).map (carry (mapChannels f) g) := by
  induction t with
  | event direction chan =>
      have hchan := h chan (List.mem_singleton_self chan)
      simp [mapChannels, moves, carry, Move.relabel, Label.relabel, hchan]
  | comp op ts ih =>
      exact (keepsOperators_mapChannels f).moves_comp fun t ht =>
        ih t ht fun c hc => h c (mem_channels_comp.2 ⟨t, ht, hc⟩)
  | fix binder body ih =>
      rw [mapChannels, moves, moves, List.map_singleton, carry, mapChannels_substitute, mapChannels]
      rfl
  | _ => rfl

theorem active_mapChannels (f : ChanRef → ChanRef) (t : Trace) :
    (t.mapChannels f).active = t.active.map (mapChannels f) := by
  induction t with
  | comp op ts ih => exact (keepsOperators_mapChannels f).active_comp ih
  | _ => rfl

/-- Traces on some channels beside the traces with these channels renamed. -/
theorem copies_mapChannels {v : View} (hsees : ∀ key, v.hides key = false)
    (h : ∀ c ∈ chans, v.key (f c) = g (v.key c)) :
    Copies v v (fun t => t.channels ⊆ chans) (mapChannels f) g where
  stays ht hm := List.Subset.trans (channels_subset_of_mem_moves hm) ht
  moves ht := moves_mapChannels fun c hc => h c (ht hc)
  noted m := by
    cases m with
    | tau => rfl
    | visible l => cases l <;> simp [Move.relabel, Label.relabel, View.noted, hsees]
  diverges t := any_active (active_mapChannels f t) fun l => by cases l <;> rfl
  acceptsAnything t := any_active (active_mapChannels f t) fun l => by cases l <;> rfl
  unconstrained t := any_active (active_mapChannels f t) fun l => by cases l <;> rfl

end Trace

/-- A renaming that respects keys on some references acts on their keys. -/
theorem exists_key_map (key : ChanRef → ChannelKey) {f : ChanRef → ChanRef} {chans : List ChanRef}
    (h : ∀ c ∈ chans, ∀ d ∈ chans, key c = key d → key (f c) = key (f d)) :
    ∃ g : ChannelKey → ChannelKey, ∀ c ∈ chans, key (f c) = g (key c) := by
  have hfactors : Function.FactorsThrough (fun c : { c // c ∈ chans } => key (f c))
      fun c => key c := fun c d heq => h c c.2 d d.2 heq
  have : Nonempty ChannelKey := ⟨⟨.name ⟨0⟩, none⟩⟩
  obtain ⟨g, hg⟩ := (Function.factorsThrough_iff _).1 hfactors
  exact ⟨g, fun c hc => congrFun hg ⟨c, hc⟩⟩

variable {program : Program} {bindings : Substitution} {spec imp spec' imp' t t' : Trace}

namespace Substitution

/-- Applied to a trace, an instance replaces each reference, and every replacement is found. -/
theorem apply_eq_ok (h : bindings.apply program t = .ok t') (hne : bindings.isEmpty = false) :
    t' = t.mapChannels (fun c => (redirect program bindings c).getD c) ∧
      ∀ c ∈ t.channels, ∃ c', redirect program bindings c = .ok c' := by
  rw [apply, hne] at h
  obtain ⟨_, hanswered, h⟩ := Lookup.bind_eq_ok.1 h
  exact ⟨(Except.ok.inj h).symm, Lookup.answered_of_forM hanswered⟩

/-- An instance of an implementation is allowed by the instance of its specification. -/
theorem permits_apply (h : program.view.Permits spec program.view imp)
    (hspec : bindings.apply program spec = .ok spec')
    (himp : bindings.apply program imp = .ok imp') :
    program.view.Permits spec' program.view imp' := by
  cases hne : bindings.isEmpty with
  | true =>
      rw [apply, hne] at hspec himp
      obtain rfl := Except.ok.inj hspec
      obtain rfl := Except.ok.inj himp
      exact h
  | false =>
      obtain ⟨rfl, hspecs⟩ := apply_eq_ok hspec hne
      obtain ⟨rfl, himps⟩ := apply_eq_ok himp hne
      have hanswered : ∀ c ∈ spec.channels ++ imp.channels,
          ∃ c', redirect program bindings c = .ok c' := fun c hc =>
        (List.mem_append.1 hc).elim (hspecs c) (himps c)
      obtain ⟨g, hg⟩ := exists_key_map (ofRef program) fun c hc d hd hcd => by
        obtain ⟨c', hc'⟩ := hanswered c hc
        obtain ⟨d', hd'⟩ := hanswered d hd
        have hkeys := ofRef_redirect_congr hcd hc' hd'
        rwa [← Lookup.getD_ok c' c, ← Lookup.getD_ok d' d, ← hc', ← hd'] at hkeys
      have hcopies := copies_mapChannels (v := program.view) (fun _ => rfl) hg
      exact hcopies.permits (List.subset_append_left _ _) (List.subset_append_right _ _) h

theorem isClosed_apply (h : bindings.apply program t = .ok t') (ht : t.isClosed = true) :
    t'.isClosed = true :=
  isClosed_iff.2 ((freeRefs_apply h).trans (isClosed_iff.1 ht))

/-- An instance gives references of one meaning one meaning, and what refines a specification is
not refuted against it in an instance. -/
theorem refinement_of_instances (program : Program) (bindings : Substitution) :
    (∀ c d key, resolve program c = .ok key → resolve program d = .ok key →
      (redirect program bindings c >>= resolve program) =
        (redirect program bindings d >>= resolve program)) ∧
    ∀ spec imp spec' imp' limit report, spec.isClosed = true → imp.isClosed = true →
      refines program spec imp limit = .ok report → report.verdict = .refines →
      bindings.apply program spec = .ok spec' → bindings.apply program imp = .ok imp' →
      Unrefuted program spec' imp' := by
  refine ⟨fun c d key hc hd => (interchangeable_redirect hc hd).resolve_eq, ?_⟩
  intro spec imp spec' imp' limit report hspec himp h hverdict hspec' himp'
  have hpermits := (refines_spec hspec himp h).permits hverdict
  exact unrefuted_of_permits (isClosed_apply hspec' hspec) (isClosed_apply himp' himp)
    (permits_apply hpermits hspec' himp')

/-- A procedure with two channels, and an array of channels to take its arguments from. -/
def switchboard : Program where
  name := "switchboard"
  names := #[⟨"left", .param ⟨0⟩ 0 false, {}⟩, ⟨"right", .param ⟨0⟩ 1 false, {}⟩,
    ⟨"lines", .channel, {}⟩]
  exprs := #[⟨.name ⟨0⟩, {}⟩, ⟨.name ⟨1⟩, {}⟩, ⟨.decorated ⟨1⟩ .paren, {}⟩, ⟨.name ⟨2⟩, {}⟩,
    ⟨.int 3, {}⟩, ⟨.subscript ⟨3⟩ ⟨4⟩, {}⟩, ⟨.decorated ⟨5⟩ .paren, {}⟩]

/-- Both formals stand for one element of the array. -/
def sharedLine : Substitution := Ledger.ofList [(⟨0⟩, ⟨5⟩), (⟨1⟩, ⟨6⟩)]

/-- Reads from one of two channels, again and again. -/
def readsEither (left right : ChanRef) : Trace :=
  .fix ⟨⟨0⟩, .loop ⟨0⟩⟩
    (.comp .seq [.comp .det [.event .input left, .event .input right], .ref ⟨0⟩])

/-- Reads from two channels in turn. -/
def readsInTurn (left right : ChanRef) : Trace :=
  .fix ⟨⟨1⟩, .loop ⟨1⟩⟩ (.comp .seq [.event .input left, .event .input right, .ref ⟨1⟩])

/-- Two channels that are told apart in the procedure are one in this instance. -/
theorem switchboard_sharedLine :
    (redirect switchboard sharedLine ⟨⟨1⟩, none⟩ >>= resolve switchboard) =
        (redirect switchboard sharedLine ⟨⟨2⟩, none⟩ >>= resolve switchboard) ∧
      Unrefuted switchboard (readsEither ⟨⟨3⟩, some ⟨4⟩⟩ ⟨⟨3⟩, some ⟨4⟩⟩)
        (readsInTurn ⟨⟨3⟩, some ⟨4⟩⟩ ⟨⟨3⟩, some ⟨4⟩⟩) := by
  obtain ⟨hkeys, hrefines⟩ := refinement_of_instances switchboard sharedLine
  refine ⟨hkeys _ _ ⟨.name ⟨1⟩, none⟩ (by cbv) (by cbv), ?_⟩
  have h : refines switchboard (readsEither ⟨⟨0⟩, none⟩ ⟨⟨1⟩, none⟩)
      (readsInTurn ⟨⟨0⟩, none⟩ ⟨⟨2⟩, none⟩) 10 = .ok ⟨.refines, [], 5⟩ := by cbv
  exact hrefines _ _ _ _ _ _ (by decide) (by decide) h rfl (by cbv) (by cbv)

end Substitution

end ProcessContracts
