import ProcessContracts.Proofs.Components
import ProcessContracts.Proofs.Simplification
import ProcessContracts.Trace.Channels

/-!
# Where channels come from

Nothing that is done to a trace brings in a channel, apart from renaming and substituting: what is
left after a step, after simplifying and after hiding is written with the channels of the trace.
-/

namespace ProcessContracts.Trace

variable {t u : Trace} {ts : List Trace} {op : Operator} {chans : List ChanRef} {chan : ChanRef}

theorem mem_channels_comp : chan ∈ (Trace.comp op ts).channels ↔ ∃ t ∈ ts, chan ∈ t.channels := by
  rw [channels, channelsAll_eq_flatMap, List.mem_flatMap]

theorem channels_comp_subset :
    (Trace.comp op ts).channels ⊆ chans ↔ ∀ t ∈ ts, t.channels ⊆ chans := by
  rw [channels, channelsAll_eq_flatMap, flatMap_subset_iff]

theorem componentwise_channels (chans : List ChanRef) :
    Componentwise fun t => t.channels ⊆ chans :=
  ⟨List.nil_subset chans, List.nil_subset chans, channels_comp_subset⟩

theorem channels_simplify_subset (t : Trace) : t.simplify.channels ⊆ t.channels := by
  induction t with
  | comp op ts ih =>
      have hp := componentwise_channels (Trace.comp op ts).channels
      exact hp.simplify fun t ht => List.Subset.trans (ih t ht)
        (hp.comp.1 (List.Subset.refl _) t ht)
  | fix binder body ih =>
      rw [simplify]
      split
      · exact ih
      · exact ih
  | _ => exact List.Subset.refl _

theorem channels_hide_subset (keep : ChanRef → Bool) (t : Trace) :
    (t.hide keep).channels ⊆ t.channels := by
  induction t with
  | event direction chan =>
      rw [hide]
      split
      · exact List.Subset.refl _
      · exact List.nil_subset _
  | comp op ts ih =>
      rw [hide, hideAll_eq_map]
      refine channels_comp_subset.2 (List.forall_mem_map.2 fun t ht => ?_)
      exact List.Subset.trans (ih t ht) (channels_comp_subset.1 (List.Subset.refl _) t ht)
  | fix binder body ih => exact ih
  | _ => exact List.Subset.refl _

theorem channels_mapChannels (f : ChanRef → ChanRef) (t : Trace) :
    (t.mapChannels f).channels = t.channels.map f := by
  induction t with
  | comp op ts ih =>
      simp only [mapChannels, channels, mapChannelsAll_eq_map, channelsAll_eq_flatMap,
        List.flatMap_map, List.map_flatMap]
      rw [List.flatMap_def, List.flatMap_def, List.map_congr_left ih]
  | fix binder body ih => simp only [mapChannels, channels, ih]
  | _ => rfl

theorem channels_substitute_subset {id : AtomId} {replacement : Trace}
    (hreplacement : replacement.channels ⊆ chans) (ht : t.channels ⊆ chans) :
    (substitute id replacement t).channels ⊆ chans := by
  induction t with
  | ref other =>
      rw [substitute]
      split
      · exact hreplacement
      · exact ht
  | comp op ts ih =>
      rw [substitute, substituteAll_eq_map]
      refine channels_comp_subset.2 (List.forall_mem_map.2 fun t hmem => ?_)
      exact ih t hmem (channels_comp_subset.1 ht t hmem)
  | fix binder body ih =>
      rw [substitute]
      split
      · exact ht
      · exact ih ht
  | _ => exact ht

/-- A step leaves no other channels behind. -/
theorem channels_subset_of_mem_moves {key : ChanRef → ChannelKey} {m : Move}
    (hm : (m, u) ∈ t.moves key) : u.channels ⊆ t.channels :=
  (componentwise_channels t.channels).step
    (fun _ _ hfix => channels_substitute_subset hfix hfix) (List.Subset.refl _) hm

/-- What is communicated is the key of a channel of the trace. -/
theorem exists_channel_of_mem_moves {key : ChanRef → ChannelKey} {direction : Direction}
    {found : ChannelKey} (hm : (.visible (.event direction found), u) ∈ t.moves key) :
    ∃ chan ∈ t.channels, key chan = found := by
  induction t generalizing u with
  | event d chan =>
      simp only [moves, List.mem_singleton, Prod.mk.injEq] at hm
      obtain ⟨⟨⟩, -⟩ := hm
      exact ⟨chan, List.mem_singleton_self _, rfl⟩
  | comp op ts ih =>
      obtain ⟨c, hc, u', hm⟩ := exists_child_of_visible hm
      obtain ⟨chan, hchan, hkey⟩ := ih c hc hm
      exact ⟨chan, mem_channels_comp.2 ⟨c, hc, hchan⟩, hkey⟩
  | _ => simp [moves] at hm

theorem activeChannels_subset (t : Trace) : t.activeChannels ⊆ t.channels := by
  intro chan hchan
  obtain ⟨l, hl, hsome⟩ := List.mem_filterMap.1 hchan
  split at hsome
  case h_1 direction other =>
    obtain rfl := Option.some.inj hsome
    exact (componentwise_channels t.channels).active (List.Subset.refl _) hl
      (List.mem_singleton_self _)
  case h_2 => cases hsome

end ProcessContracts.Trace
