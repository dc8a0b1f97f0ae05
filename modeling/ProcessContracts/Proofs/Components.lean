import ProcessContracts.Trace.Steps

/-!
# Steps of compositions by component

The steps of a composition, each one said of the component that takes it and the ones around it.
-/

namespace ProcessContracts.Trace

variable {key : ChanRef → ChannelKey} {m : Move} {u : Trace} {ts : List Trace}

theorem collapse_of_two_le {op : Operator} (h : 2 ≤ ts.length) : collapse op ts = .comp op ts := by
  match ts with
  | t :: u :: ts => rfl

theorem mem_moves_seq_cons {t : Trace} :
    (m, u) ∈ (comp .seq (t :: ts)).moves key ↔ ∃ m' t', (m', t') ∈ t.moves key ∧
      (m' = .visible .tick ∧ m = .tau ∧ u = collapse .seq ts ∨
        m' ≠ .visible .tick ∧ m = m' ∧ u = .comp .seq (t' :: ts)) := by
  simp only [moves, List.mem_map, Prod.exists]
  refine exists_congr fun m' => exists_congr fun t' => and_congr_right fun _ => ?_
  unfold sequenced
  split
  · simp_all [eq_comm]
  · simp_all [eq_comm]

theorem mem_zipIdx_moves {own : List (Move × Trace)} {i : Nat} :
    (own, i) ∈ (ts.map (moves key)).zipIdx ↔
      ∃ as t bs, ts = as ++ t :: bs ∧ as.length = i ∧ own = t.moves key := by
  rw [List.mk_mem_zipIdx_iff_getElem?, List.getElem?_map, Option.map_eq_some_iff]
  constructor
  · rintro ⟨t, ht, rfl⟩
    obtain ⟨hi, rfl⟩ := List.getElem?_eq_some_iff.1 ht
    exact ⟨ts.take i, ts[i], ts.drop (i + 1), by simp, by simp; omega, rfl⟩
  · rintro ⟨as, t, bs, rfl, rfl, rfl⟩
    exact ⟨t, by simp, rfl⟩

theorem mem_moves_par (hts : ts ≠ []) :
    (m, u) ∈ (comp .par ts).moves key ↔ ∃ as t bs m' t', ts = as ++ t :: bs ∧
      (m', t') ∈ t.moves key ∧
      (m' = .visible .tick ∧ m = .tau ∧ u = collapse .par (as ++ bs) ∨
        m' ≠ .visible .tick ∧ m = m' ∧ u = .comp .par (as ++ t' :: bs)) := by
  obtain ⟨t₀, ts, rfl⟩ := List.exists_cons_of_ne_nil hts
  have hmoves : (comp .par (t₀ :: ts)).moves key =
      interleaved (t₀ :: ts) ((t₀ :: ts).map (moves key)) := by simp [moves]
  rw [hmoves]
  simp only [interleaved, List.mem_flatMap, Prod.exists, mem_zipIdx_moves, List.mem_map]
  constructor
  · rintro ⟨own, i, ⟨as, t, bs, hsplit, rfl, rfl⟩, m', t', hm, heq⟩
    refine ⟨as, t, bs, m', t', hsplit, hm, ?_⟩
    rw [hsplit] at heq
    split at heq
    · simp_all [List.eraseIdx_append_of_length_le]
    · simp_all [eq_comm]
  · rintro ⟨as, t, bs, m', t', hsplit, hm, h⟩
    refine ⟨t.moves key, as.length, ⟨as, t, bs, hsplit, rfl, rfl⟩, m', t', hm, ?_⟩
    rw [hsplit]
    rcases h with ⟨rfl, rfl, rfl⟩ | ⟨hne, rfl, rfl⟩
    · simp [List.eraseIdx_append_of_length_le]
    · split
      · simp_all
      · simp_all

theorem mem_moves_det (hts : ts ≠ []) :
    (m, u) ∈ (comp .det ts).moves key ↔ ∃ as t bs m' t', ts = as ++ t :: bs ∧
      (m', t') ∈ t.moves key ∧
      (m' = .tau ∧ m = .tau ∧ u = .comp .det (as ++ t' :: bs) ∨ m' ≠ .tau ∧ m = m' ∧ u = t') := by
  obtain ⟨t₀, ts, rfl⟩ := List.exists_cons_of_ne_nil hts
  have hmoves : (comp .det (t₀ :: ts)).moves key =
      chosen (t₀ :: ts) ((t₀ :: ts).map (moves key)) := by simp [moves]
  rw [hmoves]
  simp only [chosen, List.mem_flatMap, Prod.exists, mem_zipIdx_moves, List.mem_map]
  constructor
  · rintro ⟨own, i, ⟨as, t, bs, hsplit, rfl, rfl⟩, m', t', hm, heq⟩
    refine ⟨as, t, bs, m', t', hsplit, hm, ?_⟩
    rw [hsplit] at heq
    split at heq
    · simp_all [eq_comm]
    · simp_all [eq_comm]
  · rintro ⟨as, t, bs, m', t', hsplit, hm, h⟩
    refine ⟨t.moves key, as.length, ⟨as, t, bs, hsplit, rfl, rfl⟩, m', t', hm, ?_⟩
    rw [hsplit]
    rcases h with ⟨rfl, rfl, rfl⟩ | ⟨hne, rfl, rfl⟩
    · simp
    · split
      · simp_all
      · simp_all

theorem moves_ndet (hts : ts ≠ []) :
    (comp .ndet ts).moves key = ts.map fun next => (.tau, next) := by
  obtain ⟨t, ts, rfl⟩ := List.exists_cons_of_ne_nil hts
  simp [moves]

theorem moves_comp_nil (op : Operator) : (comp op []).moves key = [(.tau, unit op)] := by
  cases op <;> simp [moves]

theorem mem_active_par {l : Trace} : l ∈ (comp .par ts).active ↔ ∃ t ∈ ts, l ∈ t.active := by
  simp [active]

theorem mem_active_det {l : Trace} : l ∈ (comp .det ts).active ↔ ∃ t ∈ ts, l ∈ t.active := by
  simp [active]

end ProcessContracts.Trace
