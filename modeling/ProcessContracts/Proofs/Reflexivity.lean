import ProcessContracts.Proofs.Contexts
import ProcessContracts.Proofs.SearchFaults
import ProcessContracts.Proofs.Warnings

/-!
# A trace compared with itself

Both sides of the search hold the same traces after the same path, so they are the same set of
states all along, and the steps offered are the steps performed. Nothing that is reached from a
closed and defined trace is unconstrained where the trace itself is not chaotic.
-/

namespace ProcessContracts

open Trace

variable {limit : Nat} {program : Program} {space space' : Space limit} {set set' : StateSet limit}
  {t : Trace} {s : List Label} {p : Trace → Prop}

/-- One set of states holds the traces with a property. -/
theorem Space.Holds.eq (h : space.Holds set p) (h' : space.Holds set' p) : set = set' := by
  have hsub : ∀ {set set' : StateSet limit}, space.Holds set p → space.Holds set' p →
      ∀ id ∈ set, id ∈ set' := by
    intro set set' h h' id hid
    obtain ⟨t, ht, hp⟩ := h.sound id hid
    obtain ⟨other, hother, ht'⟩ := h'.complete t hp
    rwa [ht.inj ht']
  exact StateSet.ext_mem fun id => ⟨hsub h h' id, hsub h' h id⟩

namespace Explore

open Space

variable {reached : Reached limit} {tally : Tally}

theorem Tracks.imp_eq_spec (h : Tracks program space t t reached s) :
    reached.imp = reached.spec := Holds.eq h.imp h.spec

theorem Tally.restrictive_eq_nil (h : tally.offered = tally.performed) :
    tally.restrictive = [] := by
  rw [Tally.restrictive, h]
  simp

/-- A pair of equal sets offers what it performs. -/
theorem balanced_inspect {next : List (Reached limit)} {tally' : Tally}
    (hsame : reached.imp = reached.spec) (htally : tally.offered = tally.performed)
    (h : (inspect program reached tally).run space = .ok (.ok (next, tally')) space') :
    tally'.offered = tally'.performed := by
  rw [tally_of_inspect h]
  split
  · exact htally
  · rw [Tally.add, hsame, htally]

theorem restrictive_search {visited : List (StateSet limit × StateSet limit)}
    {nodup : visited.Nodup} {queue : List (Reached limit)} {found : Verdict × List Label}
    (hspace : space.Faithful program)
    (hqueue : ∀ reached ∈ queue, ∃ s, Tracks program space t t reached s)
    (htally : tally.offered = tally.performed)
    (h : (search program visited nodup tally queue).run space = .ok found space') :
    found.2 = [] := by
  induction visited, nodup, tally, queue using search.induct generalizing space with
  | case1 visited nodup tally =>
      rw [search] at h
      obtain ⟨rfl, -⟩ := pure_eq_ok.1 h
      exact Tally.restrictive_eq_nil htally
  | case2 visited nodup tally reached queue hseen ih =>
      rw [search, dif_pos hseen] at h
      exact ih hspace (List.forall_mem_cons.1 hqueue).2 htally h
  | case3 visited nodup tally reached queue hnew ih =>
      rw [search, dif_neg hnew] at h
      obtain ⟨result, mid, hinspect, h⟩ := bind_eq_ok.1 h
      obtain ⟨⟨s, htracks⟩, hqueue⟩ := List.forall_mem_cons.1 hqueue
      obtain ⟨hexplores, hresult⟩ := inspect_spec hspace htracks hinspect
      cases result with
      | error violation =>
          obtain ⟨rfl, -⟩ := pure_eq_ok.1 h
          rfl
      | ok found =>
          obtain ⟨next, tally'⟩ := found
          have hbalanced := balanced_inspect htracks.imp_eq_spec htally hinspect
          refine ih next tally' hexplores.faithful (fun reached hreached => ?_) hbalanced h
          rcases List.mem_append.1 hreached with hold | hnext
          · obtain ⟨s, htracks⟩ := hqueue reached hold
            exact ⟨s, htracks.grow hexplores.grows⟩
          · obtain ⟨-, l, -, hfollows⟩ := hresult.sound reached hnext
            exact ⟨s ++ [l], hfollows.tracks⟩

end Explore

theorem restrictive_self {report : RefinementReport}
    (h : refines program t t limit = .ok report) : report.restrictive = [] := by
  obtain ⟨reached, mid, last, hstart, hsearch, -⟩ | ⟨last, -, rfl⟩ := cases_of_refines h
  · obtain ⟨hexplores, htracks, -⟩ := Explore.start_spec (Space.faithful_empty program) hstart
    exact Explore.restrictive_search hexplores.faithful
      (List.forall_mem_singleton.2 ⟨[], htracks⟩) rfl hsearch
  · rfl

theorem not_violated_self (hclosed : t.isClosed = true) (hdefined : t.Defined)
    {report : RefinementReport} (h : refines program t t limit = .ok report) :
    report.verdict = .refines ∨ report.verdict = .inconclusive := by
  have hpermits : program.view.Permits t program.view t :=
    View.permits_refl (List.isEmpty_iff.1 hclosed) hdefined
  have hnot := unrefuted_of_permits hclosed hclosed hpermits limit report h
  cases hverdict : report.verdict with
  | refines => exact .inl rfl
  | inconclusive => exact .inr rfl
  | violated counterexample => exact absurd hverdict (hnot counterexample)

/-! ## Traces of contracts -/

namespace Trace

theorem mem_parts_of_mem_leaves {u : Trace} (h : u ∈ t.leaves) : u ∈ t.parts := by
  induction t with
  | comp op ts ih =>
      rw [leaves, leavesAll_eq_flatMap, List.mem_flatMap] at h
      obtain ⟨c, hc, h⟩ := h
      rw [parts, partsAll_eq_flatMap]
      exact List.mem_cons_of_mem _ (List.mem_flatMap.2 ⟨c, hc, ih c hc h⟩)
  | fix binder body ih => exact List.mem_cons_of_mem _ (ih h)
  | _ => exact h

end Trace

theorem Contract.closed_defined_lower {decl : DeclId} {contract : Contract}
    {supply supply' : AtomSupply} (h : (contract.lower program decl).run supply = .ok t supply') :
    t.isClosed = true ∧ t.Defined := by
  have hscoped : t.Scoped supply'.minted [] := scoped_lower h
  refine ⟨List.isEmpty_iff.2 (freeRefs_lower h), fun a ha => ?_, fun node hnode => ?_⟩
  · exact hscoped.wellScoped.defined a (mem_parts_of_mem_leaves ha)
  · exact (lowered_of_lower h).resolved node (mem_parts_of_mem_leaves hnode)

/-- A contract is lowered to a closed and defined trace, and such a trace refines itself as far as
the bound on states can tell, with nothing offered that is not performed. The comparison is without
an answer only if a channel of the trace does not resolve. -/
theorem refines_self (program : Program) :
    (∀ (decl : DeclId) (contract : Contract) (supply supply' : AtomSupply) (t : Trace),
      (contract.lower program decl).run supply = .ok t supply' → t.isClosed = true ∧ t.Defined) ∧
    ∀ (t : Trace) (limit : Nat), t.isClosed = true → t.Defined →
      (∃ report, refines program t t limit = .ok report ∧
        (report.verdict = .refines ∨ report.verdict = .inconclusive) ∧ report.restrictive = []) ∨
      ∃ chan ∈ t.channels, ∃ fault, ChannelKey.resolve program chan = .error fault ∧
        refines program t t limit = .error fault := by
  refine ⟨fun _ _ _ _ _ h => Contract.closed_defined_lower h, fun t limit hclosed hdefined => ?_⟩
  cases hanswer : refines program t t limit with
  | ok report =>
      exact .inl ⟨report, rfl, not_violated_self hclosed hdefined hanswer, restrictive_self hanswer⟩
  | error fault =>
      obtain ⟨chan, hchan, hfault⟩ := exists_unresolved_of_refines hanswer
      exact .inr ⟨chan, (List.mem_append.1 hchan).elim id id, fault, hfault, rfl⟩

/-- Empty compositions, divergence, chaos, recursion that is not guarded, and a binder inside a
binder of the same number. -/
def tangle : Trace :=
  .fix ⟨⟨0⟩, .loop ⟨0⟩⟩ (.comp .ndet [.ref ⟨0⟩, .comp .det [], .comp .seq [.comp .par [], .div],
    .fix ⟨⟨0⟩, .loop ⟨1⟩⟩ (.comp .det [.comp .seq [request, .ref ⟨0⟩],
      .comp .seq [request, .chaos]])])

theorem tangle_refines_self : tangle.isClosed = true ∧ tangle.Defined ∧
    ∃ report, refines server tangle tangle 64 = .ok report ∧
      (report.verdict = .refines ∨ report.verdict = .inconclusive) ∧ report.restrictive = [] := by
  have hclosed : tangle.isClosed = true := by decide
  have hdefined : tangle.Defined :=
    ⟨by simp [tangle, request, leaves], by simp [tangle, request, leaves]⟩
  refine ⟨hclosed, hdefined, ?_⟩
  rcases (refines_self server).2 tangle 64 hclosed hdefined with h | ⟨chan, hchan, fault, hfault, -⟩
  · exact h
  · have hrequest : chan = ⟨⟨0⟩, none⟩ := by simpa [tangle, request, channels] using hchan
    rw [hrequest] at hfault
    cases hfault

end ProcessContracts
