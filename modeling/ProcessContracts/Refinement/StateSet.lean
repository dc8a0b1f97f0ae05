/-!
# Sets of numbered states

A set of states below `n` is its list in ascending order, so equal sets are equal values. There are
only finitely many: `length_le_of_nodup` bounds a list of different pairs of sets, which is what
ends the search over them.
-/

namespace ProcessContracts

structure StateSet (n : Nat) where
  ids : List (Fin n) := []
  ascending : ids.Pairwise (· < ·) := by simp
deriving DecidableEq

namespace StateSet

variable {n : Nat}

instance : Membership (Fin n) (StateSet n) := ⟨fun set id => id ∈ set.ids⟩

instance (id : Fin n) (set : StateSet n) : Decidable (id ∈ set) :=
  inferInstanceAs (Decidable (id ∈ set.ids))

theorem mem_def {id : Fin n} {set : StateSet n} : id ∈ set ↔ id ∈ set.ids := Iff.rfl

def isEmpty (set : StateSet n) : Bool := set.ids.isEmpty

def place (id : Fin n) : List (Fin n) → List (Fin n)
  | [] => [id]
  | head :: rest =>
      if id < head then id :: head :: rest
      else if head < id then head :: place id rest
      else head :: rest

theorem mem_place {id other : Fin n} {ids : List (Fin n)} :
    other ∈ place id ids ↔ other = id ∨ other ∈ ids := by
  induction ids with
  | nil => simp [place]
  | cons head rest ih =>
      unfold place
      split
      · simp
      · split
        · simp [ih, or_left_comm]
        · have : id = head := by omega
          simp [this]

theorem pairwise_place {id : Fin n} {ids : List (Fin n)} (h : ids.Pairwise (· < ·)) :
    (place id ids).Pairwise (· < ·) := by
  induction ids with
  | nil => simp [place]
  | cons head rest ih =>
      obtain ⟨hhead, hrest⟩ := List.pairwise_cons.1 h
      unfold place
      split
      case isTrue hlt =>
        refine List.pairwise_cons.2 ⟨fun other hother => ?_, h⟩
        rcases List.mem_cons.1 hother with rfl | hother
        · exact hlt
        · exact Nat.lt_trans hlt (hhead other hother)
      case isFalse =>
        split
        case isTrue hlt =>
          refine List.pairwise_cons.2 ⟨fun other hother => ?_, ih hrest⟩
          rcases mem_place.1 hother with rfl | hother
          · exact hlt
          · exact hhead other hother
        case isFalse => exact h

def insert (set : StateSet n) (id : Fin n) : StateSet n where
  ids := place id set.ids
  ascending := pairwise_place set.ascending

@[simp] theorem mem_insert {set : StateSet n} {id other : Fin n} :
    other ∈ set.insert id ↔ other = id ∨ other ∈ set := mem_place

theorem length_insert {set : StateSet n} {id : Fin n} (h : id ∉ set) :
    (set.insert id).ids.length = set.ids.length + 1 := by
  obtain ⟨ids, asc⟩ := set
  change (place id ids).length = ids.length + 1
  replace h : id ∉ ids := h
  clear asc
  induction ids with
  | nil => simp [place]
  | cons head rest ih =>
      have hne : id ≠ head := fun e => h (by simp [e])
      have hrest : id ∉ rest := fun hm => h (by simp [hm])
      unfold place
      split
      · simp
      · split
        · simp [ih hrest]
        · exact absurd (by omega : id = head) hne

/-! ## There are finitely many sets -/

theorem length_le_of_nodup_lt {l : List Nat} (hl : l.Nodup) {m : Nat} (hlt : ∀ i ∈ l, i < m) :
    l.length ≤ m := by
  induction m generalizing l with
  | zero =>
      cases l with
      | nil => simp
      | cons i l => exact absurd (hlt i (by simp)) (by omega)
  | succ m ih =>
      have := ih (hl.erase m) fun i hi => by
        have hi' := (hl.mem_erase_iff).1 hi
        have := hlt i hi'.2
        omega
      have hlen := List.length_erase (a := m) (l := l)
      split at hlen <;> omega

theorem length_ids_le (set : StateSet n) : set.ids.length ≤ n := by
  have hnodup : (set.ids.map Fin.val).Nodup :=
    List.pairwise_map.2 (set.ascending.imp fun h => by omega)
  have := length_le_of_nodup_lt hnodup (m := n) (by simp)
  simpa using this

/-- How many sets of states below `n` there are. -/
def count (n : Nat) : Nat := 1 <<< n

/-- The set as a number whose binary digits say which states are in it. -/
def code (set : StateSet n) : Nat := set.ids.foldr (fun id c => 1 <<< id.val ||| c) 0

theorem testBit_code (set : StateSet n) (id : Fin n) :
    set.code.testBit id.val = decide (id ∈ set) := by
  obtain ⟨ids, asc⟩ := set
  change (ids.foldr _ 0).testBit id.val = decide (id ∈ ids)
  clear asc
  induction ids with
  | nil => simp
  | cons head rest ih =>
      rw [List.foldr_cons, Nat.testBit_or, ih, Nat.one_shiftLeft, Nat.testBit_two_pow]
      simp only [List.mem_cons]
      by_cases h : id = head
      · simp [h]
      · have : ¬ head.val = id.val := fun e => h (Fin.ext e.symm)
        simp [h, this]

theorem code_lt (set : StateSet n) : set.code < count n := by
  obtain ⟨ids, asc⟩ := set
  rw [count, Nat.one_shiftLeft]
  change ids.foldr _ 0 < 2 ^ n
  clear asc
  induction ids with
  | nil => exact Nat.two_pow_pos n
  | cons head rest ih =>
      rw [List.foldr_cons, Nat.one_shiftLeft]
      exact Nat.or_lt_two_pow (Nat.pow_lt_pow_right (by omega) head.isLt) ih

theorem ext_mem {a b : StateSet n} (h : ∀ id, id ∈ a ↔ id ∈ b) : a = b := by
  obtain ⟨as, ha⟩ := a
  obtain ⟨bs, hb⟩ := b
  replace h : ∀ id, id ∈ as ↔ id ∈ bs := h
  congr
  induction as generalizing bs with
  | nil =>
      cases bs with
      | nil => rfl
      | cons b bs => exact absurd ((h b).2 (by simp)) (by simp)
  | cons a as ih =>
      cases bs with
      | nil => exact absurd ((h a).1 (by simp)) (by simp)
      | cons b bs =>
          obtain ⟨ha', has⟩ := List.pairwise_cons.1 ha
          obtain ⟨hb', hbs⟩ := List.pairwise_cons.1 hb
          have hab : a = b := by
            rcases List.mem_cons.1 ((h a).1 (by simp)) with e | hm
            · exact e
            · rcases List.mem_cons.1 ((h b).2 (by simp)) with e | hm'
              · exact e.symm
              · have := hb' a hm
                have := ha' b hm'
                omega
          subst hab
          congr 1
          refine ih has bs hbs fun id => ?_
          have := h id
          simp only [List.mem_cons] at this
          by_cases e : id = a
          · subst e
            constructor
            · intro hm; exact absurd (ha' id hm) (by omega)
            · intro hm; exact absurd (hb' id hm) (by omega)
          · simpa [e] using this

theorem code_inj {a b : StateSet n} (h : a.code = b.code) : a = b :=
  ext_mem fun id => by
    have := congrArg (fun c => c.testBit id.val) h
    simpa [testBit_code] using this

/-- A list of different pairs of sets is no longer than the number of pairs there are. -/
theorem length_le_of_nodup {l : List (StateSet n × StateSet n)} (h : l.Nodup) :
    l.length ≤ count n * count n := by
  have hpos : 0 < count n := by
    rw [count, Nat.one_shiftLeft]
    exact Nat.two_pow_pos n
  have hnodup : (l.map fun p => p.1.code * count n + p.2.code).Nodup := by
    refine List.pairwise_map.2 (h.imp fun {p q} hne heq => hne ?_)
    have hp := p.2.code_lt
    have hq := q.2.code_lt
    have h1 : p.1.code = q.1.code := by
      have := congrArg (· / count n) heq
      simpa [Nat.mul_comm _ (count n), Nat.mul_add_div hpos,
        Nat.div_eq_of_lt hp, Nat.div_eq_of_lt hq] using this
    have h2 : p.2.code = q.2.code := by
      rw [h1] at heq
      exact Nat.add_left_cancel heq
    exact Prod.ext (code_inj h1) (code_inj h2)
  have := length_le_of_nodup_lt hnodup (m := count n * count n) fun i hi => by
    obtain ⟨p, _, rfl⟩ := List.mem_map.1 hi
    have h1 := p.1.code_lt
    have h2 := p.2.code_lt
    calc p.1.code * count n + p.2.code < p.1.code * count n + count n := by omega
      _ = (p.1.code + 1) * count n := by rw [Nat.succ_mul]
      _ ≤ count n * count n := Nat.mul_le_mul_right _ h1
  simpa using this

end StateSet

end ProcessContracts
