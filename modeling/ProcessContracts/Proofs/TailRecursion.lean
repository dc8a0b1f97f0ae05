import ProcessContracts.Proofs.Scoping

/-!
# Tail recursion

A trace is tail-recursive if nothing is left to do after a reference to a binder. Below the binders
its parts are regular: whatever is run first, or beside something else, is closed.
-/

namespace ProcessContracts.Trace

variable {id : AtomId} {op : Operator} {s t u v : Trace} {ts us : List Trace}
  {key : ChanRef → ChannelKey}

/-! ## References at the end -/

/-- Free references to the atom are met only in the last children of sequences, in alternatives and
in bodies. -/
inductive InTail (id : AtomId) : Trace → Prop
  | absent {t : Trace} : id ∉ t.freeRefs → InTail id t
  | ref : InTail id (.ref id)
  | seq {ts : List Trace} {t : Trace} : (∀ u ∈ ts, id ∉ u.freeRefs) → InTail id t →
      InTail id (.comp .seq (ts ++ [t]))
  | choice {op : Operator} {ts : List Trace} : op = .det ∨ op = .ndet →
      (∀ t ∈ ts, InTail id t) → InTail id (.comp op ts)
  | fix {binder : Atom} {body : Trace} : InTail id body → InTail id (.fix binder body)

/-- Every binder is referred to at the end of its body only. -/
def TailRecursive (t : Trace) : Prop :=
  ∀ binder body, .fix binder body ∈ t.parts → body.InTail binder.id

theorem TailRecursive.child (h : (Trace.comp op ts).TailRecursive) (ht : t ∈ ts) :
    t.TailRecursive := fun binder body hfix => h binder body <| by
  rw [parts, partsAll_eq_flatMap]
  exact List.mem_cons_of_mem _ (List.mem_flatMap.2 ⟨t, ht, hfix⟩)

theorem TailRecursive.body {binder : Atom} (h : (Trace.fix binder t).TailRecursive) :
    t.TailRecursive := fun inner rest hfix => h inner rest (List.mem_cons_of_mem _ hfix)

/-- Nothing is open but what stands at the end: all children of a parallel composition are closed,
and all children of a sequence but the last one. -/
inductive Regular : Trace → Prop
  | leaf {t : Trace} : t.isLeaf = true → Regular t
  | nothing : Regular (.comp .seq [])
  | seq {ts : List Trace} {t : Trace} : (∀ u ∈ ts, u.freeRefs = []) → (∀ u ∈ ts, Regular u) →
      Regular t → Regular (.comp .seq (ts ++ [t]))
  | par {ts : List Trace} : (∀ u ∈ ts, u.freeRefs = []) → (∀ u ∈ ts, Regular u) →
      Regular (.comp .par ts)
  | choice {op : Operator} {ts : List Trace} : op = .det ∨ op = .ndet → (∀ t ∈ ts, Regular t) →
      Regular (.comp op ts)
  | fix {binder : Atom} {body : Trace} : Regular body → Regular (.fix binder body)

theorem InTail.of_seq (h : InTail id (.comp .seq (ts ++ [t])))
    (hid : id ∈ (Trace.comp .seq (ts ++ [t])).freeRefs) :
    (∀ u ∈ ts, id ∉ u.freeRefs) ∧ InTail id t := by
  generalize hc : Trace.comp .seq (ts ++ [t]) = c at h hid
  cases h with
  | absent habsent => exact absurd hid habsent
  | ref => cases hc
  | seq hts ht =>
      injection hc with _ hc
      obtain ⟨hheads, hlast⟩ := List.append_inj' hc rfl
      rw [hheads, List.singleton_inj.1 hlast]
      exact ⟨hts, ht⟩
  | choice hop =>
      injection hc with hc _
      subst hc
      rcases hop with hop | hop <;> cases hop
  | fix => cases hc

theorem InTail.of_choice (hop : op = .det ∨ op = .ndet) (h : InTail id (.comp op ts))
    (ht : t ∈ ts) : InTail id t := by
  generalize hc : Trace.comp op ts = c at h
  cases h with
  | absent habsent => exact .absent fun hid => habsent (hc ▸ mem_freeRefs_comp.2 ⟨t, ht, hid⟩)
  | ref => cases hc
  | seq =>
      injection hc with hc _
      subst hc
      rcases hop with hop | hop <;> cases hop
  | choice _ hts =>
      injection hc with _ hc
      subst hc
      exact hts t ht
  | fix => cases hc

theorem InTail.of_fix {binder : Atom} {body : Trace} (h : InTail id (.fix binder body))
    (hne : id ≠ binder.id) : InTail id body := by
  cases h with
  | absent habsent => exact .absent fun hid => habsent (mem_freeRefs_fix.2 ⟨hid, hne⟩)
  | fix h => exact h

theorem InTail.not_par (h : InTail id (.comp .par ts)) : id ∉ (Trace.comp .par ts).freeRefs := by
  cases h with
  | absent habsent => exact habsent
  | choice hop => rcases hop with hop | hop <;> cases hop

/-- A part of a tail-recursive trace, with the references to the binders around it. -/
theorem TailRecursive.regular (h : t.TailRecursive) (hfree : ∀ id ∈ t.freeRefs, t.InTail id) :
    t.Regular := by
  induction t with
  | comp op ts ih =>
      have hchild : ∀ t ∈ ts, t.freeRefs = [] → t.Regular := fun t ht hclosed =>
        ih t ht (h.child ht) fun id hid => by
          rw [hclosed] at hid
          cases hid
      have hchoice : op = .det ∨ op = .ndet → (Trace.comp op ts).Regular := fun hop =>
        .choice hop fun t ht => ih t ht (h.child ht) fun id hid =>
          (hfree id (mem_freeRefs_comp.2 ⟨t, ht, hid⟩)).of_choice hop ht
      cases op with
      | det => exact hchoice (.inl rfl)
      | ndet => exact hchoice (.inr rfl)
      | par =>
          have hclosed : ∀ t ∈ ts, t.freeRefs = [] := fun t ht =>
            List.eq_nil_iff_forall_not_mem.2 fun id hid =>
              have hmem := mem_freeRefs_comp.2 ⟨t, ht, hid⟩
              (hfree id hmem).not_par hmem
          exact .par hclosed fun t ht => hchild t ht (hclosed t ht)
      | seq =>
          rcases List.eq_nil_or_concat ts with rfl | ⟨heads, last, rfl⟩
          · exact .nothing
          rw [List.concat_eq_append] at h hfree ih hchild ⊢
          have hclosed : ∀ u ∈ heads, u.freeRefs = [] := fun u hu =>
            List.eq_nil_iff_forall_not_mem.2 fun id hid =>
              have hmem := mem_freeRefs_comp.2 ⟨u, List.mem_append_left _ hu, hid⟩
              ((hfree id hmem).of_seq hmem).1 u hu hid
          refine .seq hclosed (fun u hu => hchild u (List.mem_append_left _ hu) (hclosed u hu)) ?_
          have hlast : last ∈ heads ++ [last] := List.mem_append_right _ List.mem_cons_self
          refine ih last hlast (h.child hlast) fun id hid => ?_
          have hmem : id ∈ (Trace.comp .seq (heads ++ [last])).freeRefs :=
            mem_freeRefs_comp.2 ⟨last, hlast, hid⟩
          exact ((hfree id hmem).of_seq hmem).2
  | fix binder body ih =>
      refine .fix (ih h.body fun id hid => ?_)
      by_cases hb : id = binder.id
      · exact hb ▸ h binder body (mem_parts_self _)
      · exact (hfree id (mem_freeRefs_fix.2 ⟨hid, hb⟩)).of_fix hb
  | _ => exact .leaf rfl

end ProcessContracts.Trace
