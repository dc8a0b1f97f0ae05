import Mathlib.Data.Fintype.List
import Mathlib.Data.Set.Finite.Lattice
import ProcessContracts.Proofs.NormalForms
import ProcessContracts.Proofs.TailRecursion

/-!
# Traces with finitely many states

The states of a trace are its simplified form and what the steps of its states simplify to. A state
is a list of strands, the alternatives between which nothing has been decided yet. Each strand steps
by itself, to strands of a smaller trace or back to a fixed point that was met before; so there are
finitely many of them. As a simplified list does not repeat a strand, there are finitely many lists.
-/

namespace ProcessContracts.Trace

variable {op : Operator} {r s t u v : Trace} {as bs cs ts us left : List Trace} {m : Move}
  {key : ChanRef → ChannelKey}

/-! ## Steps of simplified compositions -/

/-- What a step leaves of a child in the composition around it. A child that terminates is gone. -/
inductive Remains (key : ChanRef → ChannelKey) (t : Trace) : List Trace → Prop
  | nothing {u : Trace} : (.visible .tick, u) ∈ t.moves key → Remains key t []
  | something {m : Move} {u : Trace} : m ≠ .visible .tick → (m, u) ∈ t.moves key →
      Remains key t [u]

theorem simplify_singleton (op : Operator) (t : Trace) :
    (Trace.comp op [t]).simplify = t.simplify :=
  (simplify_collapse op [t]).symm

theorem remains_of_mem_moves_seq (h : (m, v) ∈ (Trace.comp .seq (t :: ts)).moves key) :
    ∃ left, t.Remains key left ∧ v.simplify = (Trace.comp .seq (left ++ ts)).simplify := by
  obtain ⟨m', t', hm, ⟨rfl, -, rfl⟩ | ⟨hne, -, rfl⟩⟩ := mem_moves_seq_cons.1 h
  · exact ⟨[], .nothing hm, simplify_collapse .seq ts⟩
  · exact ⟨[t'], .something hne hm, rfl⟩

theorem remains_of_mem_moves_par (hts : ts ≠ []) (h : (m, v) ∈ (Trace.comp .par ts).moves key) :
    ∃ as t bs left, ts = as ++ t :: bs ∧ t.Remains key left ∧
      v.simplify = (Trace.comp .par (as ++ (left ++ bs))).simplify := by
  obtain ⟨as, t, bs, m', t', hsplit, hm, ⟨rfl, -, rfl⟩ | ⟨hne, -, rfl⟩⟩ := (mem_moves_par hts).1 h
  · exact ⟨as, t, bs, [], hsplit, .nothing hm, simplify_collapse .par (as ++ bs)⟩
  · exact ⟨as, t, bs, [t'], hsplit, .something hne hm, rfl⟩

/-- A step of the first child that a normal trace stands for is a step of the trace. -/
theorem remains_of_splice_seq (hsplit : splice .seq s = t :: ts) (h : t.Remains key left) :
    ∃ left', s.Remains key left' ∧
      (Trace.comp .seq left').simplify = (Trace.comp .seq (left ++ ts)).simplify := by
  rcases splice_cases .seq s with ⟨cs, rfl, heq⟩ | ⟨-, heq⟩ | heq
  · obtain rfl := heq.symm.trans hsplit
    cases h with
    | nothing hm =>
        refine ⟨[collapse .seq ts], .something (by simp)
          (mem_moves_seq_cons.2 ⟨_, _, hm, .inl ⟨rfl, rfl, rfl⟩⟩), ?_⟩
        rw [simplify_singleton, simplify_collapse]
        rfl
    | @something m u hne hm =>
        refine ⟨[.comp .seq (u :: ts)], .something hne
          (mem_moves_seq_cons.2 ⟨_, _, hm, .inr ⟨hne, rfl, rfl⟩⟩), ?_⟩
        rw [simplify_singleton]
        rfl
  · rw [heq] at hsplit
    cases hsplit
  · rw [heq] at hsplit
    obtain ⟨rfl, rfl⟩ := List.cons.inj hsplit
    exact ⟨left, h, by rw [List.append_nil]⟩

theorem remains_of_splice_par (hsplit : splice .par s = as ++ t :: bs) (h : t.Remains key left) :
    ∃ left', s.Remains key left' ∧
      (Trace.comp .par left').simplify = (Trace.comp .par (as ++ (left ++ bs))).simplify := by
  rcases splice_cases .par s with ⟨cs, rfl, heq⟩ | ⟨-, heq⟩ | heq
  · obtain rfl := heq.symm.trans hsplit
    cases h with
    | nothing hm =>
        refine ⟨[collapse .par (as ++ bs)], .something (by simp)
          ((mem_moves_par (by simp)).2 ⟨as, t, bs, _, _, rfl, hm, .inl ⟨rfl, rfl, rfl⟩⟩), ?_⟩
        rw [simplify_singleton, simplify_collapse]
        rfl
    | @something m u hne hm =>
        refine ⟨[.comp .par (as ++ u :: bs)], .something hne
          ((mem_moves_par (by simp)).2 ⟨as, t, bs, _, _, rfl, hm, .inr ⟨hne, rfl, rfl⟩⟩), ?_⟩
        rw [simplify_singleton]
        rfl
  · rw [heq] at hsplit
    cases as <;> cases hsplit
  · rw [heq, eq_comm, List.append_eq_singleton_iff] at hsplit
    rcases hsplit with ⟨rfl, hsplit⟩ | ⟨rfl, hsplit⟩
    · obtain ⟨rfl, rfl⟩ := List.cons.inj hsplit
      exact ⟨left, h, by rw [List.append_nil, List.nil_append]⟩
    · cases hsplit

/-- Parts of a composition that come to the same may be exchanged. -/
theorem simplify_exchange (hop : op ≠ .ndet)
    (h : (Trace.comp op ts).simplify = (Trace.comp op us).simplify) (as bs : List Trace) :
    (Trace.comp op (as ++ (ts ++ bs))).simplify = (Trace.comp op (as ++ (us ++ bs))).simplify := by
  rw [← simplify_nested hop as bs ts, ← simplify_nested hop as bs us]
  exact simplify_comp_congr (by simp [h])

/-- What the simplified children stand for may be put in their place. -/
theorem simplify_spread (hop : op ≠ .ndet) (as : List Trace) (ts : List Trace) :
    (Trace.comp op (as ++ prune op (ts.flatMap (spread op)))).simplify =
      (Trace.comp op (as ++ ts)).simplify := by
  have hplain : ∀ u ∈ prune op (ts.flatMap (spread op)), u.Normal ∧ splice op u = [u] :=
    fun u hu => by
      obtain ⟨t, -, hu⟩ := List.mem_flatMap.1 (mem_of_mem_prune hu)
      exact (normal_simplify t).splice hu
  have hsame : (Trace.comp op (prune op (ts.flatMap (spread op)))).simplify =
      (Trace.comp op ts).simplify := by
    rw [simplify_comp, simplify_comp, flatMap_spread_eq hplain, prune_prune]
  simpa using simplify_exchange hop hsame as []

/-! ## Two children -/

/-- The simplified composition of two traces. -/
def pair (op : Operator) (s t : Trace) : Trace := (Trace.comp op [s, t]).simplify

theorem pair_congr (hs : s.simplify = t.simplify) (hr : r.simplify = u.simplify) :
    pair op s r = pair op t u := simplify_comp_congr (by simp [hs, hr])

theorem pair_comp (hop : op ≠ .ndet) (t : Trace) (ts : List Trace) :
    pair op t (.comp op ts) = (Trace.comp op (t :: ts)).simplify := by
  simpa [pair] using simplify_nested hop [t] [] ts

theorem simplify_comp_unit (hop : op ≠ .ndet) (as bs : List Trace) :
    (Trace.comp op (as ++ unit op :: bs)).simplify = (Trace.comp op (as ++ bs)).simplify := by
  have hempty : (Trace.comp op [unit op]).simplify = (Trace.comp op []).simplify := by
    rw [simplify_singleton, ← simplify_collapse op []]
    rfl
  exact simplify_exchange hop hempty as bs

theorem pair_unit_left (hop : op ≠ .ndet) (t : Trace) : pair op (unit op) t = t.simplify :=
  (simplify_comp_unit hop [] [t]).trans (simplify_singleton op t)

theorem pair_unit_right (hop : op ≠ .ndet) (t : Trace) : pair op t (unit op) = t.simplify :=
  (simplify_comp_unit hop [t] []).trans (simplify_singleton op t)

theorem spread_ne_nil (h : t.simplify ≠ unit op) : spread op t ≠ [] := by
  have hnormal := normal_simplify t
  rw [spread]
  rcases splice_cases op t.simplify with ⟨ts, heq, hsplice⟩ | ⟨heq, -⟩ | hsplice
  · rw [heq] at hnormal
    cases hnormal with
    | leaf hleaf => cases hleaf
    | comp hlength _ _ _ =>
        rw [hsplice]
        rintro rfl
        cases hlength
  · exact absurd heq h
  · rw [hsplice]
    exact List.cons_ne_nil _ _

theorem Normal.exists_splice (op : Operator) (hs : s.Normal) (hne : s ≠ unit op) :
    ∃ t ts, Trace.splice op s = t :: ts ∧ ∀ u ∈ t :: ts, u.Normal ∧ Trace.splice op u = [u] := by
  have hspread : spread op s ≠ [] := spread_ne_nil (by rwa [hs.simplify_eq])
  rw [hs.spread_eq] at hspread
  obtain ⟨t, ts, hsplit⟩ := List.exists_cons_of_ne_nil hspread
  exact ⟨t, ts, hsplit, fun u hu => hs.splice (hsplit ▸ hu)⟩

section Sequence

variable (hs : s.Normal) (hne : s ≠ .skip) (hr : r.simplify ≠ .skip)
include hs hne hr

/-- A sequence is no longer than its first child, or it goes on where the first child does. -/
theorem simplify_seq_pair : ∃ t ts, splice .seq s = t :: ts ∧
    (endsSequence t = true ∧ pair .seq s r = t ∨
      pair .seq s r =
        .comp .seq (t :: prune .seq ((ts ++ [r]).flatMap (spread .seq)))) := by
  obtain ⟨t, ts, hsplit, hplain⟩ := hs.exists_splice .seq hne
  refine ⟨t, ts, hsplit, ?_⟩
  have hflat : pair .seq s r =
      collapse .seq (prune .seq (t :: (ts ++ [r]).flatMap (spread .seq))) := by
    rw [pair, simplify_comp, List.flatMap_cons, hs.spread_eq, hsplit, List.flatMap_append,
      flatMap_spread_eq (List.forall_mem_cons.1 hplain).2]
    rfl
  cases hends : endsSequence t with
  | true =>
      have hpruned : prune .seq (t :: (ts ++ [r]).flatMap (spread .seq)) = [t] := if_pos hends
      exact .inl ⟨rfl, by rw [hflat, hpruned]; rfl⟩
  | false =>
      have hpruned : prune .seq (t :: (ts ++ [r]).flatMap (spread .seq)) =
          t :: prune .seq ((ts ++ [r]).flatMap (spread .seq)) := if_neg (by simp [hends])
      have hrest : prune .seq ((ts ++ [r]).flatMap (spread .seq)) ≠ [] := by
        refine prune_ne_nil ?_
        rw [List.flatMap_append, List.flatMap_singleton]
        exact List.append_ne_nil_of_right_ne_nil _ (spread_ne_nil hr)
      obtain ⟨u, us, hus⟩ := List.exists_cons_of_ne_nil hrest
      exact .inr (by rw [hflat, hpruned, hus]; rfl)

theorem remains_of_mem_moves_seq_pair
    (h : (m, v) ∈ (pair .seq s r).moves key) :
    ∃ left, s.Remains key left ∧ v.simplify = (Trace.comp .seq (left ++ [r])).simplify := by
  obtain ⟨t, ts, hsplit, ⟨hends, heq⟩ | heq⟩ := simplify_seq_pair hs hne hr
  · rw [heq] at h
    cases t with
    | stop | div | chaos => cases h
    | _ => cases hends
  · rw [heq] at h
    obtain ⟨left, hleft, hv⟩ := remains_of_mem_moves_seq h
    obtain ⟨left', hleft', heq'⟩ := remains_of_splice_seq hsplit hleft
    refine ⟨left', hleft', ?_⟩
    calc v.simplify
        = (Trace.comp .seq (left ++ (ts ++ [r]))).simplify := by
          rw [hv, simplify_spread (by simp)]
      _ = (Trace.comp .seq (left' ++ [r])).simplify := by
          rw [← List.append_assoc]
          exact simplify_exchange (by simp) heq'.symm [] [r]

/-- A sequence is a single strand. -/
theorem eq_of_mem_spread_seq_pair (h : u ∈ spread .det (.comp .seq [s, r])) :
    u = pair .seq s r := by
  change u ∈ splice .det (pair .seq s r) at h
  obtain ⟨t, ts, -, ⟨hends, heq⟩ | heq⟩ := simplify_seq_pair hs hne hr
  · rw [heq] at h ⊢
    cases t with
    | stop => cases h
    | div | chaos => exact List.mem_singleton.1 h
    | _ => cases hends
  · rw [heq] at h ⊢
    exact List.mem_singleton.1 h

end Sequence

theorem split_append (h : as ++ bs = cs ++ t :: ts) :
    (∃ us, as = cs ++ t :: us ∧ ts = us ++ bs) ∨ ∃ us, bs = us ++ t :: ts ∧ cs = as ++ us := by
  rcases List.append_eq_append_iff.1 h with ⟨us, hcs, hbs⟩ | ⟨us, has, hts⟩
  · exact .inr ⟨us, hbs, hcs⟩
  · cases us with
    | nil => exact .inr ⟨[], hts.symm, by simpa using has.symm⟩
    | cons u us =>
        obtain ⟨rfl, rfl⟩ := List.cons.inj hts
        exact .inl ⟨us, has, rfl⟩

theorem remains_of_mem_moves_par_pair (hs : s.Normal) (hne : s ≠ .skip) (hr : r.Normal)
    (hne' : r ≠ .skip) (h : (m, v) ∈ (pair .par s r).moves key) :
    ∃ left, s.Remains key left ∧ v.simplify = (Trace.comp .par (left ++ [r])).simplify ∨
      r.Remains key left ∧ v.simplify = (Trace.comp .par (s :: left)).simplify := by
  obtain ⟨t, ts, hts, -⟩ := hs.exists_splice .par hne
  obtain ⟨u, us, hus, -⟩ := hr.exists_splice .par hne'
  have hflat : pair .par s r = .comp .par (t :: ts ++ u :: us) := by
    rw [pair, simplify_comp, List.flatMap_cons, List.flatMap_singleton, hs.spread_eq,
      hr.spread_eq, hts, hus]
    cases ts <;> rfl
  -- a trace may stand for its children again
  have hwhole : ∀ {w : Trace}, w.Normal →
      (Trace.comp .par (splice .par w)).simplify = (Trace.comp .par [w]).simplify := fun hw => by
    rw [simplify_singleton, ← simplify_collapse]
    exact congrArg simplify (hw.collapse_splice .par)
  have hpar : Operator.par ≠ .ndet := by simp
  rw [hflat] at h
  obtain ⟨as, c, bs, left, hsplit, hleft, hv⟩ := remains_of_mem_moves_par (by simp) h
  rcases split_append hsplit with ⟨bs, htail, rfl⟩ | ⟨as, hhead, rfl⟩
  · obtain ⟨left', hleft', heq⟩ := remains_of_splice_par (hts.trans htail) hleft
    refine ⟨left', .inl ⟨hleft', ?_⟩⟩
    calc v.simplify
        = (Trace.comp .par ((as ++ (left ++ bs)) ++ splice .par r)).simplify := by
          rw [hv, hus]
          simp only [List.append_assoc]
      _ = (Trace.comp .par (left' ++ splice .par r)).simplify :=
          simplify_exchange hpar heq.symm [] (splice .par r)
      _ = (Trace.comp .par (left' ++ [r])).simplify := by
          simpa using simplify_exchange hpar (hwhole hr) left' []
  · obtain ⟨left', hleft', heq⟩ := remains_of_splice_par (hus.trans hhead) hleft
    refine ⟨left', .inr ⟨hleft', ?_⟩⟩
    calc v.simplify
        = (Trace.comp .par (splice .par s ++ (as ++ (left ++ bs)))).simplify := by
          rw [hv, hts]
          simp only [List.append_assoc]
      _ = (Trace.comp .par (splice .par s ++ left')).simplify := by
          simpa using simplify_exchange hpar heq.symm (splice .par s) []
      _ = (Trace.comp .par (s :: left')).simplify :=
          simplify_exchange hpar (hwhole hs) [] left'

/-! ## Strands and states -/

/-- Finitely many normal traces that no step leads out of. -/
structure Enclosed (key : ChanRef → ChannelKey) (states : Set Trace) : Prop where
  finite : states.Finite
  skip : .skip ∈ states
  normal : ∀ t ∈ states, t.Normal
  step : ∀ t ∈ states, ∀ m u, (m, u) ∈ t.moves key → u.simplify ∈ states

/-- The state of the trace is one of finitely many. -/
def Bounded (key : ChanRef → ChannelKey) (t : Trace) : Prop :=
  ∃ states, Enclosed key states ∧ t.simplify ∈ states

/-- What strands of the set lead to are strands of the set or of the base. -/
def Recurs (key : ChanRef → ChannelKey) (base strands : Set Trace) : Prop :=
  ∀ t ∈ strands, ∀ m u, (m, u) ∈ t.moves key → ∀ s ∈ spread .det u, s ∈ strands ∪ base

/-- The trace leads to finitely many strands before it is back at the base. -/
def Returns (key : ChanRef → ChannelKey) (base : Set Trace) (t : Trace) : Prop :=
  ∃ strands : Set Trace, strands.Finite ∧ Recurs key base strands ∧
    ∀ s ∈ spread .det t, s ∈ strands ∪ base

variable {base base' states strands : Set Trace}

theorem Returns.congr (h : Returns key base t) (heq : t.simplify = u.simplify) :
    Returns key base u := by
  obtain ⟨strands, hfinite, hrecurs, ht⟩ := h
  exact ⟨strands, hfinite, hrecurs, by rwa [spread, ← heq]⟩

theorem Recurs.mono (h : Recurs key base strands) (hsub : base ⊆ base') :
    Recurs key base' strands := fun t ht m u hm s hs =>
  Set.union_subset_union_right strands hsub (h t ht m u hm s hs)

theorem Returns.mono (h : Returns key base t) (hsub : base ⊆ base') : Returns key base' t := by
  obtain ⟨strands, hfinite, hrecurs, ht⟩ := h
  exact ⟨strands, hfinite, hrecurs.mono hsub, fun s hs =>
    Set.union_subset_union_right strands hsub (ht s hs)⟩

theorem finite_nodup_lists (h : strands.Finite) :
    {l : List Trace | l.Nodup ∧ ∀ t ∈ l, t ∈ strands}.Finite := by
  have := h.to_subtype
  have := Fintype.ofFinite strands
  refine (Set.finite_range fun l : {l : List strands // l.Nodup} => l.1.map Subtype.val).subset ?_
  rintro l ⟨hnodup, hl⟩
  lift l to List strands using hl
  exact ⟨⟨l, hnodup.of_map _⟩, rfl⟩

theorem mem_spread_det_comp : s ∈ spread .det (.comp .det ts) ↔ ∃ t ∈ ts, s ∈ spread .det t := by
  rw [spread_comp (by simp), prune, List.mem_eraseDups, List.mem_flatMap]

/-- A step of a state is a step of one of its strands; the others stay. -/
theorem mem_strands_of_move (hts : ∀ s ∈ ts, s.Normal ∧ splice .det s = [s])
    (hm : (m, u) ∈ (collapse .det ts).moves key) (hs : s ∈ spread .det u) :
    s ∈ ts ∨ ∃ t ∈ ts, ∃ m' v, (m', v) ∈ t.moves key ∧ s ∈ spread .det v := by
  match ts, hts with
  | [], _ => cases hm
  | [t], _ => exact .inr ⟨t, List.mem_cons_self, m, u, hm, hs⟩
  | t :: t' :: ts, hts =>
      obtain ⟨as, c, bs, m', c', hsplit, hm', ⟨rfl, rfl, rfl⟩ | ⟨-, rfl, rfl⟩⟩ :=
        (mem_moves_det (List.cons_ne_nil _ _)).1 hm
      · rw [hsplit] at hts ⊢
        obtain ⟨d, hd, hs⟩ := mem_spread_det_comp.1 hs
        by_cases hc : d = c'
        · exact .inr ⟨c, by simp, _, c', hm', hc ▸ hs⟩
        · have hkept : d ∈ as ++ c :: bs := by
            simp only [List.mem_append, List.mem_cons, hc, false_or] at hd ⊢
            exact hd.imp_right .inr
          rw [(hts d hkept).1.spread_eq, (hts d hkept).2, List.mem_singleton] at hs
          exact .inl (hs ▸ hkept)
      · exact .inr ⟨c, by simp [hsplit], _, u, hm', hs⟩

/-- Where a strand gets, a state gets that has the strand. -/
theorem exists_move_of_strand (ht : t ∈ splice .det s) (hm : (m, u) ∈ t.moves key) {w : Trace}
    (hw : w ∈ spread .det u) : ∃ m' v, (m', v) ∈ s.moves key ∧ w ∈ spread .det v := by
  rcases splice_cases .det s with ⟨ts, rfl, heq⟩ | ⟨-, heq⟩ | heq
  · rw [heq] at ht
    obtain ⟨as, bs, rfl⟩ := List.append_of_mem ht
    by_cases htau : m = .tau
    · refine ⟨.tau, .comp .det (as ++ u :: bs), ?_, mem_spread_det_comp.2 ⟨u, by simp, hw⟩⟩
      exact (mem_moves_det (by simp)).2 ⟨as, t, bs, m, u, rfl, hm, .inl ⟨htau, rfl, rfl⟩⟩
    · refine ⟨m, u, ?_, hw⟩
      exact (mem_moves_det (by simp)).2 ⟨as, t, bs, m, u, rfl, hm, .inr ⟨htau, rfl, rfl⟩⟩
  · rw [heq] at ht
    cases ht
  · rw [heq, List.mem_singleton] at ht
    exact ⟨m, u, ht ▸ hm, hw⟩

/-- Finitely many strands make finitely many states: a state is a list of strands without
repetitions. -/
theorem bounded_of_returns (h : Returns key ∅ t) : Bounded key t := by
  obtain ⟨strands, hfinite, hrecurs, ht⟩ := h
  rw [Recurs] at hrecurs
  simp only [Set.union_empty] at hrecurs ht
  let own : Set Trace := {s ∈ strands | s.Normal ∧ splice .det s = [s]}
  let lists : Set (List Trace) := {l | prune .det l = l ∧ ∀ s ∈ l, s ∈ own}
  have hlists : lists.Finite := by
    refine (finite_nodup_lists (hfinite.subset fun _ hs => hs.1 : own.Finite)).subset ?_
    exact fun l hl => ⟨hl.1 ▸ nodup_eraseDups l, hl.2⟩
  have hown : ∀ u, (∀ s ∈ spread .det u, s ∈ strands) → ∀ s ∈ spread .det u, s ∈ own :=
    fun u hu s hs => ⟨hu s hs, (normal_simplify u).splice hs⟩
  have hstate : ∀ u, (∀ s ∈ spread .det u, s ∈ own) → u.simplify ∈ collapse .det '' lists :=
    fun u hu => ⟨_, ⟨prune_prune .det _, fun s hs => hu s (mem_of_mem_prune hs)⟩,
      (normal_simplify u).collapse_splice .det⟩
  refine ⟨insert .skip (collapse .det '' lists), ⟨(hlists.image _).insert _, .inl rfl, ?_, ?_⟩,
    .inr (hstate t (hown t ht))⟩
  case refine_1 =>
    rintro _ (rfl | ⟨l, ⟨hpruned, hl⟩, rfl⟩)
    · exact .leaf rfl
    · exact normal_collapse hpruned fun s hs => (hl s hs).2
  case refine_2 =>
    rintro _ (rfl | ⟨l, ⟨-, hl⟩, rfl⟩) m u hm
    · obtain ⟨rfl, rfl⟩ := Prod.mk.inj (List.mem_singleton.1 hm)
      exact .inr (hstate .stop nofun)
    · refine .inr (hstate u fun s hs => ?_)
      rcases mem_strands_of_move (fun s hs => (hl s hs).2) hm hs with hs | ⟨c, hc, m', v, hm', hs⟩
      · exact hl s hs
      · exact hown v (hrecurs c (hl c hc).1 m' v hm') s hs

/-- The strands of finitely many states lead to each other. -/
theorem returns_of_bounded (h : Bounded key t) (base : Set Trace) : Returns key base t := by
  obtain ⟨states, hstates, ht⟩ := h
  refine ⟨⋃ s ∈ states, {u | u ∈ splice .det s},
    hstates.finite.biUnion fun s _ => List.finite_toSet _, ?_, fun s hs =>
      .inl (Set.mem_biUnion ht hs)⟩
  intro u hu m v hm w hw
  obtain ⟨s, hs, hu⟩ := Set.mem_iUnion₂.1 hu
  obtain ⟨m', v', hm', hw⟩ := exists_move_of_strand hu hm hw
  exact .inl (Set.mem_biUnion (hstates.step s hs m' v' hm') hw)

/-! ## Compositions -/

/-- What a step leaves of a state may be written as a state, the unit where nothing is left. -/
theorem Enclosed.remains (h : Enclosed key states) (hs : s ∈ states) (hleft : s.Remains key left)
    (hop : op ≠ .ndet) (hunit : unit op = .skip) :
    ∃ t ∈ states, (Trace.comp op left).simplify = (Trace.comp op [t]).simplify := by
  cases hleft with
  | nothing =>
      exact ⟨.skip, h.skip, hunit ▸ (simplify_comp_unit hop [] []).symm⟩
  | @something m u _ hm =>
      refine ⟨u.simplify, h.step s hs m u hm, ?_⟩
      rw [simplify_singleton, simplify_singleton, simplify_simplify]

/-- A step of one of two parallel states leads to two parallel states. -/
theorem Enclosed.par_step {states' : Set Trace} (h : Enclosed key states)
    (h' : Enclosed key states') (hs : s ∈ states) (ht : t ∈ states')
    (hm : (m, v) ∈ (pair .par s t).moves key) :
    v.simplify ∈ Set.image2 (pair .par) states states' := by
  have hpar : Operator.par ≠ .ndet := by simp
  have hleft : ∀ t, pair .par .skip t = t.simplify := pair_unit_left hpar
  have hright : ∀ t, pair .par t .skip = t.simplify := pair_unit_right hpar
  by_cases hskip : s = .skip
  · rw [hskip, hleft, (h'.normal t ht).simplify_eq] at hm
    exact ⟨.skip, h.skip, v.simplify, h'.step t ht m v hm, (hleft _).trans (simplify_simplify v)⟩
  by_cases hskip' : t = .skip
  · rw [hskip', hright, (h.normal s hs).simplify_eq] at hm
    exact ⟨v.simplify, h.step s hs m v hm, .skip, h'.skip, (hright _).trans (simplify_simplify v)⟩
  obtain ⟨left, ⟨hremains, hv⟩ | ⟨hremains, hv⟩⟩ :=
    remains_of_mem_moves_par_pair (h.normal s hs) hskip (h'.normal t ht) hskip' hm
  · obtain ⟨c, hc, heq⟩ := h.remains hs hremains hpar rfl
    exact ⟨c, hc, t, ht, (hv.trans (simplify_exchange hpar heq [] [t])).symm⟩
  · obtain ⟨c, hc, heq⟩ := h'.remains ht hremains hpar rfl
    refine ⟨s, hs, c, hc, (hv.trans ?_).symm⟩
    rw [← List.append_nil left]
    exact simplify_exchange hpar heq [s] []

theorem bounded_par (ht : Bounded key t) (hu : Bounded key u) :
    Bounded key (.comp .par [t, u]) := by
  obtain ⟨states, hstates, ht⟩ := ht
  obtain ⟨states', hstates', hu⟩ := hu
  refine ⟨Set.image2 (pair .par) states states', ⟨hstates.finite.image2 _ hstates'.finite,
    ⟨.skip, hstates.skip, .skip, hstates'.skip, rfl⟩, ?_, ?_⟩,
    ⟨_, ht, _, hu, pair_congr (simplify_simplify t) (simplify_simplify u)⟩⟩
  case refine_1 =>
    rintro _ ⟨a, -, b, -, rfl⟩
    exact normal_simplify _
  case refine_2 =>
    rintro _ ⟨a, ha, b, hb, rfl⟩ m v hm
    exact hstates.par_step hstates' ha hb hm

theorem returns_seq (hs : Bounded key s) (hr : Returns key base r) :
    Returns key base (.comp .seq [s, r]) := by
  have hseq : Operator.seq ≠ .ndet := by simp
  by_cases hend : r.simplify = .skip
  · refine (returns_of_bounded hs base).congr ?_
    calc s.simplify
        = pair .seq s .skip := (pair_unit_right hseq s).symm
      _ = pair .seq s r := pair_congr rfl hend.symm
  obtain ⟨states, hstates, hs⟩ := hs
  obtain ⟨strands, hfinite, hrecurs, hr⟩ := hr
  let pairs : Set Trace := (pair .seq · r) '' (states \ {.skip})
  have hcovered : ∀ a ∈ states, ∀ w ∈ spread .det (.comp .seq [a, r]),
      w ∈ (strands ∪ pairs) ∪ base := by
    intro a ha w hw
    by_cases hskip : a = .skip
    · have heq : (Trace.comp .seq [a, r]).simplify = r.simplify :=
        hskip ▸ pair_unit_left hseq r
      rw [spread, heq] at hw
      exact (hr w hw).imp_left .inl
    · exact .inl (.inr ⟨a, ⟨ha, hskip⟩,
        (eq_of_mem_spread_seq_pair (hstates.normal a ha) hskip hend hw).symm⟩)
  refine ⟨strands ∪ pairs, hfinite.union ((hstates.finite.subset Set.sdiff_subset).image _), ?_, ?_⟩
  case refine_1 =>
    rintro t (ht | ⟨a, ⟨ha, hskip⟩, rfl⟩) m v hm w hw
    · exact (hrecurs t ht m v hm w hw).imp_left .inl
    · obtain ⟨left, hleft, hv⟩ :=
        remains_of_mem_moves_seq_pair (hstates.normal a ha) hskip hend hm
      obtain ⟨b, hb, heq⟩ := hstates.remains ha hleft hseq rfl
      refine hcovered b hb w ?_
      rwa [spread, hv.trans (simplify_exchange hseq heq [] [r])] at hw
  case refine_2 =>
    have heq : pair .seq s r = pair .seq s.simplify r := pair_congr (simplify_simplify s).symm rfl
    exact fun w hw => hcovered _ hs w (by rwa [spread, ← pair, ← heq])

theorem returns_all (h : ∀ t ∈ ts, Returns key base t) :
    ∃ strands : Set Trace, strands.Finite ∧ Recurs key base strands ∧
      ∀ t ∈ ts, ∀ s ∈ spread .det t, s ∈ strands ∪ base := by
  choose! strands hfinite hrecurs hspread using h
  have hmem : ∀ t ∈ ts, ∀ s ∈ strands t ∪ base, s ∈ (⋃ t ∈ {t | t ∈ ts}, strands t) ∪ base :=
    fun t ht s hs => hs.imp_left fun hs => Set.mem_biUnion (x := t) ht hs
  refine ⟨_, (List.finite_toSet ts).biUnion hfinite, ?_, fun t ht s hs =>
    hmem t ht s (hspread t ht s hs)⟩
  intro s hs m u hm w hw
  obtain ⟨t, ht, hs⟩ := Set.mem_iUnion₂.1 hs
  exact hmem t ht w (hrecurs t ht s hs m u hm w hw)

theorem returns_det (h : ∀ t ∈ ts, Returns key base t) : Returns key base (.comp .det ts) := by
  obtain ⟨strands, hfinite, hrecurs, hspread⟩ := returns_all h
  refine ⟨strands, hfinite, hrecurs, fun s hs => ?_⟩
  obtain ⟨t, ht, hs⟩ := mem_spread_det_comp.1 hs
  exact hspread t ht s hs

/-- An internal choice is a strand that leads to its alternatives. One that was flattened was a
strand before, and led to the same alternatives. -/
theorem returns_ndet (hbase : ∀ us, .comp .ndet us ∉ base) (h : ∀ t ∈ ts, Returns key base t) :
    Returns key base (.comp .ndet ts) := by
  obtain ⟨strands, hfinite, hrecurs, hspread⟩ := returns_all h
  have hcovered : ∀ c ∈ prune .ndet (ts.flatMap (spread .ndet)), ∀ s ∈ spread .det c,
      s ∈ strands ∪ base := by
    intro c hc
    obtain ⟨t, ht, hc⟩ := List.mem_flatMap.1 (mem_of_mem_prune hc)
    rw [spread] at hc
    rcases splice_cases .ndet t.simplify with ⟨us, heq, hsplice⟩ | ⟨-, hsplice⟩ | hsplice
    · have hchoice : Trace.comp .ndet us ∈ strands :=
        (hspread t ht _ (by simp [spread, heq, splice])).resolve_right (hbase us)
      rw [hsplice] at hc
      refine hrecurs _ hchoice .tau c ?_
      rw [moves_ndet (List.ne_nil_of_mem hc)]
      exact List.mem_map_of_mem hc
    · rw [hsplice] at hc
      cases hc
    · rw [hsplice, List.mem_singleton] at hc
      rw [hc, spread, simplify_simplify]
      exact hspread t ht
  have hsimple := simplify_comp .ndet ts
  generalize prune .ndet (ts.flatMap (spread .ndet)) = cs at hcovered hsimple
  rcases cs with _ | ⟨c, _ | ⟨d, cs⟩⟩
  case nil =>
    have hstop : Returns key base .stop := ⟨strands, hfinite, hrecurs, fun s hs => by cases hs⟩
    exact hstop.congr hsimple.symm
  case cons.nil =>
    have hc : Returns key base c := ⟨strands, hfinite, hrecurs, hcovered c List.mem_cons_self⟩
    refine hc.congr ?_
    rw [← show (Trace.comp .ndet ts).simplify = c from hsimple, simplify_simplify]
  case cons.cons =>
    refine ⟨insert (.comp .ndet (c :: d :: cs)) strands, hfinite.insert _, ?_, fun s hs => ?_⟩
    · rintro s (rfl | hs) m u hm w hw
      · rw [moves_ndet (List.cons_ne_nil _ _)] at hm
        obtain ⟨e, he, hm⟩ := List.mem_map.1 hm
        obtain ⟨-, rfl⟩ := Prod.mk.inj hm
        exact (hcovered e he w hw).imp_left .inr
      · exact (hrecurs s hs m u hm w hw).imp_left .inr
    · rw [spread, hsimple] at hs
      exact .inl (.inl (List.mem_singleton.1 hs))

/-! ## Fixed points -/

/-- What references are put in for: nothing, or a fixed point that is a state. -/
inductive Anchor : Trace → Prop
  | stop : Anchor .stop
  | fix {binder : Atom} {body : Trace} : (Trace.fix binder body).freeRefs = [] →
      (Trace.fix binder body).Normal → Anchor (.fix binder body)

theorem Anchor.closed (h : Anchor t) : t.freeRefs = [] := by
  cases h with
  | stop => rfl
  | fix hclosed => exact hclosed

theorem Anchor.eq_of_mem_spread (h : Anchor t) (hs : s ∈ spread .det t) : s = t := by
  cases h with
  | stop => cases hs
  | fix _ hnormal =>
      rw [hnormal.spread_eq] at hs
      exact List.mem_singleton.1 hs

/-- What the valuation puts in for the free references of a trace. -/
def anchors (σ : Valuation) (t : Trace) : Set Trace := σ '' {id | id ∈ t.freeRefs}

theorem anchors_set_subset (σ : Valuation) (binder : Atom) (body u : Trace) :
    anchors (σ.set binder.id u) body ⊆ insert u (anchors σ (.fix binder body)) := by
  rintro _ ⟨id, hid, rfl⟩
  by_cases hb : id = binder.id
  · exact .inl (by rw [hb, Valuation.set_self])
  · exact .inr ⟨id, mem_freeRefs_fix.2 ⟨hid, hb⟩, (Valuation.set_of_ne _ _ hb).symm⟩

variable {binder : Atom} {body : Trace} {σ : Valuation}

theorem eq_of_mem_spread_leaf (ht : t.isLeaf = true) (hs : s ∈ spread .det t) : s = t := by
  cases t with
  | comp | fix => cases ht
  | stop => cases hs
  | _ => exact List.mem_singleton.1 hs

theorem returns_leaf (hσ : ∀ id, Anchor (σ id)) (ht : t.isLeaf = true) :
    Returns key (anchors σ t) (t.instantiate σ) := by
  have hself : (∀ m u, (m, u) ∈ t.moves key → u = .skip ∨ u = .stop) →
      Returns key (anchors σ t) t := fun hmoves => by
    refine ⟨{t, .skip}, Set.toFinite _, ?_, fun s hs => .inl (.inl (eq_of_mem_spread_leaf ht hs))⟩
    rintro s (rfl | rfl) m u hm w hw
    · rcases hmoves m u hm with rfl | rfl
      · exact .inl (.inr (List.mem_singleton.1 hw))
      · cases hw
    · obtain ⟨rfl, rfl⟩ := Prod.mk.inj (List.mem_singleton.1 hm)
      cases hw
  cases t with
  | comp | fix => cases ht
  | ref id =>
      refine ⟨∅, Set.finite_empty, fun _ hs => hs.elim, fun s hs => .inr ⟨id, ?_, ?_⟩⟩
      · simp [freeRefs]
      · exact ((hσ id).eq_of_mem_spread hs).symm
  | skip => exact hself fun m u hm => .inr (Prod.mk.inj (List.mem_singleton.1 hm)).2
  | event => exact hself fun m u hm => .inl (Prod.mk.inj (List.mem_singleton.1 hm)).2
  | _ => exact hself fun m u hm => by cases hm

theorem only_bound_of_closed (hσ : σ.IsClosed) {id : AtomId}
    (hid : id ∈ (body.instantiate (σ.under binder)).freeRefs) : id = binder.id := by
  obtain ⟨other, -, hid⟩ := mem_freeRefs_instantiate hid
  by_cases hb : other = binder.id
  · rw [hb, Valuation.under, Valuation.set_self] at hid
    exact List.mem_singleton.1 hid
  · rw [Valuation.under, Valuation.set_of_ne _ _ hb, hσ other] at hid
    cases hid

/-- Putting a trace in for the bound references of a simplified body gives the state of the instance
that has the trace put in from the start. -/
theorem simplify_instantiate_body (hσ : σ.IsClosed) {r : Trace} (hr : r.freeRefs = []) :
    ((body.instantiate (σ.under binder)).simplify.instantiate
      (Valuation.set (fun _ => .stop) binder.id r)).simplify =
        (body.instantiate (σ.set binder.id r)).simplify := by
  have hlocal := (Valuation.IsClosed.set (σ := fun _ => .stop) (fun _ => rfl) binder.id hr).isLocal
  rw [simplify_instantiate _ hlocal,
    ← substitute_eq_instantiate_of_only (fun _ => only_bound_of_closed hσ) r, Valuation.under,
    substitute_instantiate body fun other _ => by simp [hσ other]]

/-- A trace that leads to a fixed point, which leads back to the trace. -/
theorem Returns.absorb {f : Trace} (h : Returns key (insert f base) t) (hf : Anchor f)
    (hmoves : ∀ m u, (m, u) ∈ f.moves key → u.simplify = t.simplify) :
    Returns key base f ∧ Returns key base t := by
  obtain ⟨strands, hfinite, hrecurs, hspread⟩ := h
  have hsub : ∀ s ∈ strands ∪ insert f base, s ∈ insert f strands ∪ base := by
    rintro s (hs | rfl | hs)
    · exact .inl (.inr hs)
    · exact .inl (.inl rfl)
    · exact .inr hs
  have hrecurs' : Recurs key base (insert f strands) := by
    rintro s (rfl | hs) m u hm w hw
    · rw [spread, hmoves m u hm] at hw
      exact hsub w (hspread w hw)
    · exact hsub w (hrecurs s hs m u hm w hw)
  exact ⟨⟨_, hfinite.insert f, hrecurs', fun s hs => .inl (.inl (hf.eq_of_mem_spread hs))⟩,
    ⟨_, hfinite.insert f, hrecurs', fun s hs => hsub s (hspread s hs)⟩⟩

theorem returns_fix (hσ : ∀ id, Anchor (σ id))
    (h : ∀ τ : Valuation, (∀ id, Anchor (τ id)) →
      Returns key (anchors τ body) (body.instantiate τ)) :
    Returns key (anchors σ (.fix binder body)) ((Trace.fix binder body).instantiate σ) := by
  have hclosed : σ.IsClosed := fun id => (hσ id).closed
  have hset : ∀ {f}, Anchor f →
      Returns key (insert f (anchors σ (.fix binder body)))
        (body.instantiate (σ.set binder.id f)) :=
    fun {f} hf => by
      refine (h (σ.set binder.id f) fun id => ?_).mono (anchors_set_subset σ binder body f)
      by_cases hid : id = binder.id
      · rw [hid, Valuation.set_self]
        exact hf
      · rw [Valuation.set_of_ne _ _ hid]
        exact hσ id
  have hnormal : ((Trace.fix binder body).instantiate σ).simplify =
      if (body.instantiate (σ.under binder)).simplify.refersTo binder.id then
        .fix binder (body.instantiate (σ.under binder)).simplify
      else (body.instantiate (σ.under binder)).simplify := rfl
  have hbody := fun {r} => @simplify_instantiate_body binder body σ hclosed r
  have honly : ∀ id ∈ (body.instantiate (σ.under binder)).simplify.freeRefs, id = binder.id :=
    fun id hid => only_bound_of_closed hclosed (View.freeRefs_simplify_subset _ hid)
  have hsimple := simplify_simplify (body.instantiate (σ.under binder))
  generalize (body.instantiate (σ.under binder)).simplify = inner at hnormal hbody honly hsimple
  by_cases hbound : binder.id ∈ inner.freeRefs
  · rw [if_pos (refersTo_iff.2 hbound)] at hnormal
    have hfix : (Trace.fix binder inner).freeRefs = [] :=
      List.eq_nil_iff_forall_not_mem.2 fun id hid =>
        (mem_freeRefs_fix.1 hid).2 (honly id (mem_freeRefs_fix.1 hid).1)
    have hanchor : Anchor (.fix binder inner) := .fix hfix (hnormal ▸ normal_simplify _)
    refine ((hset hanchor).absorb hanchor fun m u hm => ?_).1.congr ?_
    · obtain ⟨-, rfl⟩ := Prod.mk.inj (List.mem_singleton.1 hm)
      rw [substitute_eq_instantiate hfix, hbody hfix]
    · rw [← hnormal, simplify_simplify]
  · rw [if_neg (mt refersTo_iff.1 hbound)] at hnormal
    have hinner : inner.freeRefs = [] := List.eq_nil_iff_forall_not_mem.2 fun id hid =>
      hbound (honly id hid ▸ hid)
    refine ((hset .stop).absorb .stop fun m u hm => by cases hm).2.congr ?_
    rw [hnormal, ← hbody rfl, instantiate_of_closed _ hinner, hsimple]

/-! ## Tail-recursive traces -/

theorem anchors_of_closed (σ : Valuation) (ht : t.freeRefs = []) : anchors σ t = ∅ := by
  simp [anchors, ht]

theorem anchors_subset_comp (σ : Valuation) (op : Operator) (ht : t ∈ ts) :
    anchors σ t ⊆ anchors σ (.comp op ts) :=
  Set.image_mono fun _ hid => mem_freeRefs_comp.2 ⟨t, ht, hid⟩

theorem bounded_of_closed (ht : t.freeRefs = [])
    (h : ∀ σ : Valuation, (∀ id, Anchor (σ id)) → Returns key (anchors σ t) (t.instantiate σ)) :
    Bounded key t := by
  have hreturns := h (fun _ => .stop) fun _ => .stop
  rw [anchors_of_closed _ ht, instantiate_of_closed _ ht] at hreturns
  exact bounded_of_returns hreturns

theorem bounded_skip : Bounded key .skip :=
  bounded_of_closed rfl fun _ hσ => returns_leaf hσ rfl

theorem bounded_par_all (h : ∀ t ∈ ts, Bounded key t) : Bounded key (.comp .par ts) := by
  induction ts with
  | nil => exact bounded_skip
  | cons t ts ih =>
      obtain ⟨ht, hts⟩ := List.forall_mem_cons.1 h
      obtain ⟨states, hstates, hmem⟩ := bounded_par ht (ih hts)
      have heq : pair .par t (.comp .par ts) = (Trace.comp .par (t :: ts)).simplify :=
        pair_comp (by simp) t ts
      exact ⟨states, hstates, heq ▸ hmem⟩

theorem returns_seq_all (h : ∀ t ∈ ts, Bounded key t) (hr : Returns key base r) :
    Returns key base (.comp .seq (ts ++ [r])) := by
  induction ts with
  | nil => exact hr.congr (simplify_singleton .seq r).symm
  | cons t ts ih =>
      obtain ⟨ht, hts⟩ := List.forall_mem_cons.1 h
      exact (returns_seq ht (ih hts)).congr (pair_comp (by simp) t (ts ++ [r]))

theorem Regular.returns (h : t.Regular) : ∀ σ : Valuation, (∀ id, Anchor (σ id)) →
    Returns key (anchors σ t) (t.instantiate σ) := by
  induction h with
  | leaf ht => exact fun σ hσ => returns_leaf hσ ht
  | nothing => exact fun σ _ => (returns_of_bounded bounded_skip _).congr rfl
  | @seq ts t hclosed _ _ ihs ih =>
      intro σ hσ
      have hinstance : (Trace.comp .seq (ts ++ [t])).instantiate σ =
          .comp .seq (ts ++ [t.instantiate σ]) := by
        rw [instantiate, instantiateAll_eq_map, List.map_append]
        exact congrArg (fun us => Trace.comp .seq (us ++ [t.instantiate σ])) ((List.map_congr_left
          fun u hu => instantiate_of_closed σ (hclosed u hu)).trans (List.map_id' ts))
      rw [hinstance]
      refine (returns_seq_all (fun u hu => bounded_of_closed (hclosed u hu) (ihs u hu))
        (ih σ hσ)).mono (anchors_subset_comp σ .seq (by simp))
  | @par ts hclosed _ ih =>
      intro σ hσ
      have hts : (Trace.comp .par ts).freeRefs = [] := componentwise_closed.comp.2 hclosed
      rw [instantiate_of_closed σ hts]
      exact returns_of_bounded
        (bounded_par_all fun u hu => bounded_of_closed (hclosed u hu) (ih u hu)) _
  | @choice op ts hop _ ih =>
      intro σ hσ
      have hchildren : ∀ t ∈ ts.map (instantiate σ), Returns key (anchors σ (.comp op ts)) t :=
        List.forall_mem_map.2 fun t ht => (ih t ht σ hσ).mono (anchors_subset_comp σ op ht)
      rw [instantiate, instantiateAll_eq_map]
      rcases hop with rfl | rfl
      · exact returns_det hchildren
      · refine returns_ndet (fun us hus => ?_) hchildren
        obtain ⟨id, -, hid⟩ := hus
        have hanchor := hσ id
        rw [hid] at hanchor
        cases hanchor
  | fix _ ih => exact fun σ hσ => returns_fix hσ ih

/-- A closed tail-recursive trace has finitely many states. -/
theorem TailRecursive.bounded (h : t.TailRecursive) (ht : t.freeRefs = []) : Bounded key t :=
  bounded_of_closed ht (h.regular fun id hid => by
    rw [ht] at hid
    cases hid).returns

/-- The states that a trace gets to. -/
inductive Reaches (key : ChanRef → ChannelKey) (t : Trace) : Trace → Prop
  | start : Reaches key t t.simplify
  | step {u v : Trace} {m : Move} : Reaches key t u → (m, v) ∈ u.moves key →
      Reaches key t v.simplify

theorem Bounded.finite_reaches (h : Bounded key t) : {u | Reaches key t u}.Finite := by
  obtain ⟨states, hstates, ht⟩ := h
  refine hstates.finite.subset fun u hu => ?_
  induction hu with
  | start => exact ht
  | step _ hm ih => exact hstates.step _ ih _ _ hm

end ProcessContracts.Trace
