import ProcessContracts.Proofs.DecidedSearches
import ProcessContracts.Proofs.Inspection

/-!
# Specifications that accept anything

A comparison closes the starts of both sides under silent steps before it looks at either. Where the
specification may then accept anything it is over, so the bound is hit only in these two closures:
what the implementation does after its first visible step is never looked at.
-/

namespace ProcessContracts

open Trace

variable {limit : Nat} {program : Program} {states : Set Trace} {α β : Type} {spec imp t : Trace}
  {space : Space limit}

/-- What is found of one side before the comparison: its start, and where the states go that it
leads to silently. -/
def Trace.Opening (key : ChanRef → ChannelKey) (t : Trace) : Set Trace :=
  {u | u = t.simplify ∨
    ∃ w m v, Leads key t.simplify [] w ∧ (m, v) ∈ w.moves key ∧ u = v.simplify}

/-! ## The states of a space -/

/-- The states found so far. -/
def Space.found (space : Space limit) : Set Trace := {t | ∃ id, space.Shows id t}

theorem Space.encard_found (space : Space limit) : space.found.encard = space.states.size := by
  have hinjective : Function.Injective fun i : Fin space.states.size => space.states[i] := by
    intro i j hij
    have hshows : ∀ i : Fin space.states.size,
        space.Shows ⟨i, Nat.lt_of_lt_of_le i.2 space.size_le⟩ space.states[i] := fun i => by
      simp [Shows]
    have hj := hshows j
    rw [← show space.states[i] = space.states[j] from hij] at hj
    exact Fin.ext (Fin.mk.inj ((hshows i).inj hj))
  have hrange : space.found = Set.range fun i : Fin space.states.size => space.states[i] := by
    ext t
    constructor
    · rintro ⟨id, ht⟩
      obtain ⟨hlt, rfl⟩ := Array.getElem?_eq_some_iff.1 ht
      exact ⟨⟨id, hlt⟩, rfl⟩
    · rintro ⟨i, rfl⟩
      exact ⟨⟨i, Nat.lt_of_lt_of_le i.2 space.size_le⟩, by simp [Shows]⟩
  rw [hrange, ← Set.image_univ, hinjective.encard_image, Set.encard_univ,
    ENat.card_eq_coe_fintype_card, Fintype.card_fin]

namespace Explore

/-! ## Where the bound is hit -/

/-- Only states of the set are found. If the bound is hit then one of them was not found. -/
def Stays (states : Set Trace) (m : Explore limit α) (space : Space limit) : Prop :=
  ComesTo space m (fun _ last => last.found ⊆ states) fun
    | .exhausted, last => last.found ⊆ states ∧ ∃ t ∈ states, t ∉ last.found
    | .fault _, _ => True

variable {m : Explore limit α}

theorem stays_pure (a : α) (hspace : space.found ⊆ states) : Stays states (pure a) space := hspace

theorem Stays.bind {f : α → Explore limit β} (h : Stays states m space)
    (hf : ∀ a mid, m.run space = .ok a mid → mid.found ⊆ states → Stays states (f a) mid) :
    Stays states (m >>= f) space := ComesTo.bind h hf

theorem stays_get_bind {f : Space limit → Explore limit α} (h : Stays states (f space) space) :
    Stays states (get >>= f) space := h

theorem stays_intern (ht : t ∈ states) (hspace : space.found ⊆ states) :
    Stays states (intern t) space := by
  refine stays_get_bind ?_
  split
  case h_1 => exact stays_pure _ hspace
  case h_2 hnew =>
    split
    case isTrue room =>
      rintro u ⟨id, hid⟩
      rw [Space.Shows, Space.push, Array.getElem?_push] at hid
      split at hid
      case isTrue => exact Option.some.inj hid ▸ ht
      case isFalse => exact hspace ⟨id, hid⟩
    case isFalse =>
      refine ⟨hspace, t, ht, ?_⟩
      rintro ⟨id, hid⟩
      rw [Space.find?_eq_some_iff.2 hid] at hnew
      cases hnew

theorem stays_internSteps {steps : List (Move × Trace)}
    (hsteps : ∀ step ∈ steps, step.2.simplify ∈ states) (hspace : space.found ⊆ states) :
    Stays states (internSteps steps) space := by
  induction steps generalizing space with
  | nil => exact stays_pure _ hspace
  | cons step rest ih =>
      obtain ⟨hnext, hrest⟩ := List.forall_mem_cons.1 hsteps
      exact (stays_intern hnext hspace).bind fun _ mid _ hmid =>
        (ih hrest hmid).bind fun _ last _ hlast => stays_pure _ hlast

theorem stays_forM_liftLookup (look : α → Lookup PUnit) (l : List α)
    (hspace : space.found ⊆ states) :
    Stays states (l.forM fun a => (liftLookup (look a) : Explore limit PUnit)) space := by
  induction l with
  | nil => exact stays_pure _ hspace
  | cons a l ih =>
      have hlook : Stays states (liftLookup (look a) : Explore limit PUnit) space := by
        cases look a with
        | ok => exact hspace
        | error => trivial
      exact hlook.bind fun _ mid hrun _ => liftLookup_eq_ok hrun ▸ ih

theorem stays_expand {id : Fin limit} (ht : space.Shows id t)
    (hmoves : ∀ m u, (m, u) ∈ t.moves (ChannelKey.ofRef program) → u.simplify ∈ states)
    (hspace : space.found ⊆ states) : Stays states (expand program id) space := by
  refine stays_get_bind ?_
  split
  case h_1 => exact stays_pure _ hspace
  case h_2 =>
    rw [Space.Shows] at ht
    simp only [ht]
    refine (stays_forM_liftLookup _ _ hspace).bind fun _ mid _ hmid => ?_
    refine (stays_internSteps (fun step hstep => hmoves _ _ hstep) hmid).bind
      fun steps last _ hlast => ?_
    exact hlast

/-- The states on the stack have a property that silent steps keep. -/
theorem stays_close {p : Trace → Prop}
    (hsilent : ∀ t u, p t → (.tau, u) ∈ t.moves (ChannelKey.ofRef program) → p u.simplify)
    (hmoves : ∀ t, p t → ∀ m u, (m, u) ∈ t.moves (ChannelKey.ofRef program) → u.simplify ∈ states)
    (seen : StateSet limit) (stack : List (Fin limit)) (hfaithful : space.Faithful program)
    (hstack : ∀ id ∈ stack, ∃ t, space.Shows id t ∧ p t) (hspace : space.found ⊆ states) :
    Stays states (close program seen stack) space := by
  induction seen, stack using close.induct generalizing space with
  | case1 seen =>
      rw [close]
      exact stays_pure _ hspace
  | case2 seen id stack hmem ih =>
      rw [close, dif_pos hmem]
      exact ih hfaithful (fun id hid => hstack id (List.mem_cons_of_mem _ hid)) hspace
  | case3 seen id stack hnew ih =>
      rw [close, dif_neg hnew]
      obtain ⟨t, ht, hp⟩ := hstack id List.mem_cons_self
      refine (stays_expand ht (hmoves t hp) hspace).bind fun steps mid hrun hmid => ?_
      obtain ⟨hexplores, hsteps⟩ := expand_spec hfaithful ht hrun
      refine ih steps hexplores.faithful (fun next hnext => ?_) hmid
      rcases List.mem_append.1 hnext with hnext | hnext
      · obtain ⟨u, hu, hshows⟩ := (hexplores.faithful.mem_steps hsteps
          (hexplores.grows.states ht)).1 next (mem_silent.1 (List.mem_reverse.1 hnext))
        exact ⟨_, hshows, hsilent t u hp hu⟩
      · obtain ⟨u, hu, hpu⟩ := hstack next (List.mem_cons_of_mem _ hnext)
        exact ⟨u, hexplores.grows.states hu, hpu⟩

theorem stays_closure {id : Fin limit} (hopening : t.Opening (ChannelKey.ofRef program) ⊆ states)
    (hfaithful : space.Faithful program) (hid : space.Shows id t.simplify)
    (hspace : space.found ⊆ states) : Stays states (closure program [id]) space := by
  refine stays_close (p := Leads (ChannelKey.ofRef program) t.simplify []) ?_ ?_ _ _ hfaithful ?_
    hspace
  · exact fun u w hu hw => hu.trans (.silent hw (.here _))
  · exact fun u hu m w hw => hopening (.inr ⟨u, m, w, hu, hw, rfl⟩)
  · intro other hother
    obtain rfl := List.mem_singleton.1 hother
    exact ⟨_, hid, .here _⟩

/-- The states that are found before the comparison. -/
abbrev Opens (program : Program) (spec imp : Trace) : Set Trace :=
  spec.Opening (ChannelKey.ofRef program) ∪ imp.Opening (ChannelKey.ofRef program)

theorem stays_start (spec imp : Trace) :
    Stays (Opens program spec imp) (start program spec imp : Explore limit (Reached limit)) {} := by
  have hempty : ({} : Space limit).found ⊆ Opens program spec imp := by
    rintro t ⟨id, hid⟩
    simp [Space.Shows] at hid
  refine (stays_intern (.inr (.inl rfl)) hempty).bind fun impStart space₁ h₁ hfound₁ => ?_
  obtain ⟨he₁, -, himp⟩ := intern_spec (Space.faithful_empty program) h₁
  refine (stays_intern (.inl (.inl rfl)) hfound₁).bind fun specStart space₂ h₂ hfound₂ => ?_
  obtain ⟨he₂, -, hspec⟩ := intern_spec he₁.faithful h₂
  refine (stays_closure Set.subset_union_right he₂.faithful (he₂.grows.states himp) hfound₂).bind
    fun impSet space₃ h₃ hfound₃ => ?_
  obtain ⟨he₃, -⟩ := closure_singleton he₂.faithful (he₂.grows.states himp) h₃
  exact (stays_closure Set.subset_union_left he₃.faithful (he₃.grows.states hspec) hfound₃).bind
    fun specSet space₄ _ hfound₄ => stays_pure _ hfound₄

/-- Whatever one side opens with is found where its closure is. -/
theorem opening_subset_found {set : StateSet limit} (hfaithful : space.Faithful program)
    (hset : space.HoldsAfter program set t []) :
    t.Opening (ChannelKey.ofRef program) ⊆ space.found := by
  rintro u (rfl | ⟨w, m, v, hw, hv, rfl⟩)
  · obtain ⟨id, -, hid⟩ := hset.complete _ (.here _)
    exact ⟨id, hid⟩
  · obtain ⟨id, hid, hshows⟩ := hset.complete w hw
    obtain ⟨steps, hsteps⟩ := hset.expanded id hid
    obtain ⟨next, -, hnext⟩ := (hfaithful.mem_steps hsteps hshows).2 v hv
    exact ⟨next, hnext⟩

/-- Where the first specification may accept anything nothing else is compared. -/
theorem search_of_accepting {reached : Reached limit}
    (h : space.any reached.spec acceptsAnything = true) :
    (search program [] List.nodup_nil {} [reached]).run space = .ok (.refines, []) space := by
  have hinspect : (inspect program reached {}).run space = .ok (.ok ([], {})) space := by
    unfold inspect
    refine bind_eq_ok.2 ⟨_, _, rfl, ?_⟩
    rw [if_pos h]
    rfl
  rw [search, dif_neg List.not_mem_nil]
  refine bind_eq_ok.2 ⟨_, _, hinspect, ?_⟩
  dsimp only
  rw [List.append_nil, search]
  rfl

theorem bind_of_error {m : Explore limit α} {f : α → Explore limit β} {halt : Halt}
    {last : Space limit} (h : m.run space = .error halt last) :
    (m >>= f).run space = .error halt last := by
  change EStateM.bind m f space = _
  unfold EStateM.bind
  rw [show m space = .error halt last from h]

end Explore

open Explore

/-- The report of a comparison with a specification that may accept anything from the start. -/
theorem report_of_accepting (haccepts : ∃ t, Leads (ChannelKey.ofRef program) spec.simplify [] t ∧
      t.acceptsAnything = true) {report : RefinementReport}
    (h : refines program spec imp limit = .ok report) :
    ((Opens program spec imp).encard ≤ limit ∧
        report = ⟨.refines, [], (Opens program spec imp).ncard⟩) ∨
      limit < (Opens program spec imp).encard ∧ report = ⟨.inconclusive, [], limit⟩ := by
  have hstays : Stays (Opens program spec imp)
      (start program spec imp : Explore limit (Reached limit)) {} := stays_start spec imp
  unfold refines at h
  dsimp only at h
  cases hstart : (start program spec imp : Explore limit (Reached limit)).run {} with
  | ok reached last =>
      obtain ⟨hexplores, htracks, -⟩ := start_spec (Space.faithful_empty program) hstart
      rw [bind_eq_ok.2 ⟨reached, last, hstart,
        search_of_accepting (htracks.spec.chaotic_iff.2 haccepts)⟩] at h
      have hfound : last.found = Opens program spec imp := Set.Subset.antisymm (hstays.of_ok hstart)
        (Set.union_subset (opening_subset_found hexplores.faithful htracks.spec)
          (opening_subset_found hexplores.faithful htracks.imp))
      have hsize := last.encard_found
      rw [hfound] at hsize
      refine .inl ⟨hsize ▸ Nat.cast_le.2 last.size_le, ?_⟩
      rw [← Except.ok.inj h, Set.ncard, hsize, ENat.toNat_natCast]
  | error halt last =>
      have hrun := bind_of_error (f := fun reached =>
        search program [] List.nodup_nil {} [reached]) hstart
      rw [hrun] at h
      cases halt with
      | fault => cases h
      | exhausted =>
          obtain ⟨hfound, t, ht, hnew⟩ := hstays.of_error hstart
          have hfull : last.states.size = limit := size_of_exhausted hrun
          refine .inr ⟨?_, by rw [← Except.ok.inj h, hfull]⟩
          calc (limit : ENat) < last.found.encard + 1 := by
                rw [last.encard_found, hfull]
                exact_mod_cast Nat.lt_succ_self limit
            _ = (insert t last.found).encard := (Set.encard_insert_of_notMem hnew).symm
            _ ≤ (Opens program spec imp).encard :=
                Set.encard_le_encard (Set.insert_subset ht hfound)

/-! ## How much is found -/

section Opening

variable {key : ChanRef → ChannelKey} {u : Trace}

/-- A state that a trace leads to silently is its start or found from another such state. -/
theorem Leads.eq_or_exists {s : List Label} (h : Leads key t s u) (hs : s = []) :
    u = t ∨ ∃ w m v, Leads key t [] w ∧ (m, v) ∈ w.moves key ∧ u = v.simplify := by
  induction h with
  | here => exact .inl rfl
  | @silent t v _ _ hv _ ih =>
      rcases ih hs with rfl | ⟨w, m, v', hw, hv', rfl⟩
      · exact .inr ⟨t, .tau, v, .here t, hv, rfl⟩
      · exact .inr ⟨w, m, v', .silent hv hw, hv', rfl⟩
  | visible => cases hs

theorem silent_subset_opening : {u | Leads key t.simplify [] u} ⊆ t.Opening key :=
  fun _ hu => hu.eq_or_exists rfl

theorem finite_opening (h : {u | Leads key t.simplify [] u}.Finite) : (t.Opening key).Finite := by
  have hnext : {u | ∃ w m v, Leads key t.simplify [] w ∧ (m, v) ∈ w.moves key ∧
      u = v.simplify}.Finite := by
    refine (h.biUnion fun w _ =>
      ((w.moves key).map fun move => move.2.simplify).finite_toSet).subset ?_
    rintro _ ⟨w, m, v, hw, hv, rfl⟩
    exact Set.mem_biUnion hw (List.mem_map.2 ⟨(m, v), hv, rfl⟩)
  exact (hnext.insert t.simplify).subset fun u hu => hu

end Opening

/-- A comparison with a specification that may accept anything before its first visible step is
never refused. The specification is met as soon as the bound leaves room for what both sides open
with, their silent closures and the states one step further, and the search is given up below that.
So there is such a bound where both silent closures are finite, whatever comes after them; and there
is none where the silent closure of the implementation is infinite. -/
theorem acceptance_decided (program : Program) (spec imp : Trace)
    (haccepts : ∃ t, Leads (ChannelKey.ofRef program) spec.simplify [] t ∧
      t.acceptsAnything = true) :
    (∀ limit, (∀ chan ∈ spec.channels ++ imp.channels,
        ∃ key, ChannelKey.resolve program chan = .ok key) →
      ∃ report, refines program spec imp limit = .ok report) ∧
    (∀ limit report, refines program spec imp limit = .ok report →
      ((Opens program spec imp).encard ≤ limit →
        report = ⟨.refines, [], (Opens program spec imp).ncard⟩) ∧
      (limit < (Opens program spec imp).encard → report = ⟨.inconclusive, [], limit⟩)) ∧
    ({t | Leads (ChannelKey.ofRef program) spec.simplify [] t}.Finite →
      {t | Leads (ChannelKey.ofRef program) imp.simplify [] t}.Finite →
        ∃ bound, ∀ limit report, bound ≤ limit → refines program spec imp limit = .ok report →
          report.verdict = .refines) ∧
    ({t | Leads (ChannelKey.ofRef program) imp.simplify [] t}.Infinite →
      ∀ limit report, refines program spec imp limit = .ok report →
        report.verdict = .inconclusive) := by
  have hreport : ∀ limit report, refines program spec imp limit = .ok report →
      ((Opens program spec imp).encard ≤ limit →
        report = ⟨.refines, [], (Opens program spec imp).ncard⟩) ∧
      (limit < (Opens program spec imp).encard → report = ⟨.inconclusive, [], limit⟩) := by
    intro limit report h
    rcases report_of_accepting haccepts h with ⟨hroom, heq⟩ | ⟨hfull, heq⟩
    · exact ⟨fun _ => heq, fun hfull => absurd hroom (not_le.2 hfull)⟩
    · exact ⟨fun hroom => absurd hroom (not_le.2 hfull), fun _ => heq⟩
  refine ⟨exists_report, hreport, fun hspec himp => ?_, fun himp limit report h => ?_⟩
  · have hfinite : (Opens program spec imp).Finite :=
      (finite_opening hspec).union (finite_opening himp)
    refine ⟨(Opens program spec imp).ncard, fun limit report hle h => ?_⟩
    have hroom : (Opens program spec imp).encard ≤ limit := by
      rw [← hfinite.cast_ncard_eq]
      exact Nat.cast_le.2 hle
    rw [(hreport limit report h).1 hroom]
  · have hinfinite : (Opens program spec imp).Infinite :=
      himp.mono (silent_subset_opening.trans Set.subset_union_right)
    rw [(hreport limit report h).2 (hinfinite.encard_eq ▸ ENat.natCast_lt_top limit)]

/-- Writes again and again, each time in one more process. -/
def growing : Trace :=
  .fix ⟨⟨0⟩, .loop ⟨0⟩⟩ (.comp .seq [.event .output ⟨⟨0⟩, none⟩,
    .comp .par [.event .output ⟨⟨0⟩, none⟩, .ref ⟨0⟩]])

/-- Room for the first states is enough although more and more come after them. -/
theorem growing_accepted :
    (∃ t, Leads (ChannelKey.ofRef ticker) Trace.chaos.simplify [] t ∧ t.acceptsAnything = true) ∧
    ∀ limit, 4 ≤ limit → refines ticker .chaos growing limit = .ok ⟨.refines, [], 4⟩ := by
  have haccepts : ∃ t, Leads (ChannelKey.ofRef ticker) Trace.chaos.simplify [] t ∧
      t.acceptsAnything = true := ⟨_, .here _, by decide⟩
  obtain ⟨hanswers, hreport, -⟩ := acceptance_decided ticker .chaos growing haccepts
  have hchannels : ∀ chan ∈ Trace.chaos.channels ++ growing.channels,
      ∃ key, ChannelKey.resolve ticker chan = .ok key := by
    have hall : ∀ chan ∈ Trace.chaos.channels ++ growing.channels, chan = ⟨⟨0⟩, none⟩ := by decide
    exact fun chan hchan => hall chan hchan ▸ ⟨_, rfl⟩
  have hfour : refines ticker .chaos growing 4 = .ok ⟨.refines, [], 4⟩ := by cbv
  obtain ⟨hroom, hfull⟩ := hreport 4 _ hfour
  have hle : (Opens ticker .chaos growing).encard ≤ 4 :=
    not_lt.1 fun hlt => by cases hfull hlt
  have hcard : (Opens ticker .chaos growing).ncard = 4 :=
    (RefinementReport.mk.inj (hroom hle)).2.2.symm
  refine ⟨haccepts, fun limit hlimit => ?_⟩
  obtain ⟨report, hrun⟩ := hanswers limit hchannels
  rw [hrun, (hreport limit report hrun).1 (hle.trans (Nat.cast_le.2 hlimit)), hcard]

/-! ## A closure without an end -/

/-- Any number of processes that write once each. -/
def copies : Trace :=
  .fix ⟨⟨0⟩, .replication ⟨0⟩⟩ (.comp .ndet [.skip,
    .comp .par [.event .output ⟨⟨0⟩, none⟩, .ref ⟨0⟩]])

/-- A trace beside `n` processes that write once each. -/
def beside (n : Nat) (ts : List Trace) : Trace :=
  collapse .par (List.replicate n (.event .output ⟨⟨0⟩, none⟩) ++ ts)

theorem beside_succ (n : Nat) (t : Trace) : beside (n + 1) [t] =
    .comp .par (List.replicate (n + 1) (.event .output ⟨⟨0⟩, none⟩) ++ [t]) := by
  cases n <;> rfl

theorem simplify_par_replicate (n : Nat) (t : Trace) :
    (Trace.comp .par (List.replicate n (.event .output ⟨⟨0⟩, none⟩) ++ [t])).simplify =
      beside n (splice .par t.simplify) := by
  have hsplice : splice .par (Trace.event .output ⟨⟨0⟩, none⟩).simplify =
      [.event .output ⟨⟨0⟩, none⟩] := rfl
  rw [simplify, simplifyAll_eq_map, prune, List.map_append, List.flatMap_append, List.map_replicate,
    List.flatMap_replicate, hsplice]
  simp [beside]

/-- The other processes can wait. -/
theorem leads_beside {key : ChanRef → ChannelKey} {u : Trace} {ts : List Trace}
    (hu : (.tau, u) ∈ t.moves key) (hts : splice .par u.simplify = ts)
    (halone : beside 0 ts = u.simplify) (n : Nat) :
    Leads key (beside n [t]) [] (beside n ts) := by
  cases n with
  | zero => exact .silent hu (halone ▸ .here _)
  | succ n =>
      rw [beside_succ]
      refine .silent ((mem_moves_par (by simp)).2
        ⟨_, t, [], .tau, u, rfl, hu, .inr ⟨by simp, rfl, rfl⟩⟩) ?_
      rw [simplify_par_replicate, hts]
      exact .here _

theorem leads_copies (key : ChanRef → ChannelKey) (n : Nat) :
    Leads key copies.simplify [] (beside n [copies]) := by
  induction n with
  | zero => exact .here _
  | succ n ih =>
      let choice : Trace := .comp .ndet [.skip, .comp .par [.event .output ⟨⟨0⟩, none⟩, copies]]
      have hunfold : (.tau, choice) ∈ copies.moves key := List.mem_singleton_self _
      have hchoose : (.tau, .comp .par [.event .output ⟨⟨0⟩, none⟩, copies]) ∈ choice.moves key :=
        List.mem_cons_of_mem _ (List.mem_singleton_self _)
      have hpart := (leads_beside hunfold rfl rfl n).trans (leads_beside hchoose rfl rfl n)
      have hnext : beside n [.event .output ⟨⟨0⟩, none⟩, copies] = beside (n + 1) [copies] := by
        simp [beside, List.replicate_succ']
      exact hnext ▸ ih.trans hpart

/-- Processes that are started silently keep the comparison from its end, whatever the bound. -/
theorem copies_in_doubt :
    (∃ t, Leads (ChannelKey.ofRef ticker) Trace.chaos.simplify [] t ∧ t.acceptsAnything = true) ∧
    ({t | Leads (ChannelKey.ofRef ticker) Trace.chaos.simplify [] t} ∪
      {copies.simplify}).encard ≤ 2 ∧
    ∀ limit, refines ticker .chaos copies limit = .ok ⟨.inconclusive, [], limit⟩ := by
  have haccepts : ∃ t, Leads (ChannelKey.ofRef ticker) Trace.chaos.simplify [] t ∧
      t.acceptsAnything = true := ⟨_, .here _, by decide⟩
  have hchannels : ∀ chan ∈ Trace.chaos.channels ++ copies.channels,
      ∃ key, ChannelKey.resolve ticker chan = .ok key := by
    have hall : ∀ chan ∈ Trace.chaos.channels ++ copies.channels, chan = ⟨⟨0⟩, none⟩ := by decide
    exact fun chan hchan => hall chan hchan ▸ ⟨_, rfl⟩
  have hinfinite : {t | Leads (ChannelKey.ofRef ticker) copies.simplify [] t}.Infinite := by
    refine Set.infinite_of_injective_forall_mem (f := fun n => beside (n + 1) [copies]) ?_
      fun n => leads_copies _ (n + 1)
    intro n m h
    have hlength := congrArg (fun t : Trace => t.children.length) h
    simpa [beside_succ, children] using hlength
  refine ⟨haccepts, ?_, fun limit => ?_⟩
  · have hne : Trace.chaos ≠ copies.simplify := by decide
    refine (Set.encard_le_encard ?_).trans (Set.encard_pair hne).le
    rintro t (ht | rfl)
    · cases ht with
      | here => exact .inl rfl
      | silent hm => cases hm
    · exact .inr rfl
  · obtain ⟨report, hrun⟩ := exists_report limit hchannels
    rcases report_of_accepting haccepts hrun with ⟨hroom, -⟩ | ⟨-, heq⟩
    · have hopens : (Opens ticker .chaos copies).Infinite :=
        hinfinite.mono (silent_subset_opening.trans Set.subset_union_right)
      rw [hopens.encard_eq, top_le_iff] at hroom
      cases hroom
    · rw [hrun, heq]

end ProcessContracts
