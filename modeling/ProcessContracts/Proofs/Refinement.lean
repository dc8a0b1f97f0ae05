import ProcessContracts.Proofs.Survey

/-!
# Verdicts on refinement

A verdict on two closed traces speaks about their plain behaviour, whatever the bound on states is:
a refinement is allowed by its specification, and a counterexample is genuine and as short as any.
-/

namespace ProcessContracts

open Trace Explore

variable {limit limit' : Nat} {program : Program} {spec mid imp : Trace}
  {report report' : RefinementReport}

/-- A verdict on any two traces speaks about the paths a search follows. -/
theorem justifies_of_refines (h : refines program spec imp limit = .ok report) :
    program.searched.Justifies spec imp report.verdict := by
  obtain ⟨reached, mid, last, hstart, hsearch, -⟩ | ⟨last, -, rfl⟩ := cases_of_refines h
  · obtain ⟨hspace, hsurvey⟩ := surveyed_start hstart
    exact search_spec hspace hsurvey rfl hsearch
  · exact trivial

namespace View

variable {v : View} {s : List Label}

/-- What a violation says about both sides after `s`. -/
def Happens (v : View) (spec imp : Trace) (s : List Label) : Violation → Prop
  | .unexpectedStep l => v.HasTrace imp (s ++ [l]) ∧ ¬ v.HasTrace spec (s ++ [l])
  | .divergence => v.Diverges imp s ∧ ¬ v.Diverges spec s
  | .unconstrained => v.Unconstrained imp s

/-- What a verdict says about the plain behaviour of both sides. -/
def Justifies (v : View) (spec imp : Trace) (verdict : Verdict) : Prop :=
  v.observer.Justifies spec imp verdict

theorem happens_observer_iff {violation : Violation} :
    v.observer.Happens spec imp s violation ↔ v.Happens spec imp s violation := by
  cases violation <;> rfl

theorem permits_observer_iff {w : View} :
    v.observer.Permits spec w.observer imp ↔ v.Permits spec w imp :=
  ⟨fun h => ⟨h.traces, h.diverges, h.unconstrained⟩,
    fun h => ⟨h.traces, h.diverges, h.unconstrained⟩⟩

/-- Where the specification is settled, a violation needs no step of the specification to count. -/
theorem not_happens_of_clear (h : ∀ p, p.length ≤ s.length → v.observer.Clear spec imp p)
    (hs : v.Settled spec s) (violation : Violation) : ¬ v.Happens spec imp s violation :=
  mt happens_observer_iff.2 (Observer.not_happens_of_clear h hs violation)

/-- Without a violation anywhere the specification allows all that the implementation does. -/
theorem permits_of_clear (h : ∀ s, v.observer.Clear spec imp s) : v.Permits spec v imp :=
  permits_observer_iff.1 (Observer.permits_of_clear h)

theorem Justifies.permits {verdict : Verdict} (h : v.Justifies spec imp verdict)
    (hverdict : verdict = .refines) : v.Permits spec v imp :=
  permits_observer_iff.1 (Observer.Justifies.permits h hverdict)

end View

/-- Whatever the bound on states is, the search finds no counterexample. -/
def Unrefuted (program : Program) (spec imp : Trace) : Prop :=
  ∀ limit report, refines program spec imp limit = .ok report →
    ∀ counterexample, report.verdict ≠ .violated counterexample

theorem refines_spec (hspec : spec.isClosed = true) (himp : imp.isClosed = true)
    (h : refines program spec imp limit = .ok report) :
    program.view.Justifies spec imp report.verdict := by
  rw [isClosed_iff] at hspec himp
  exact (justifies_of_refines h).congr (alike_searched hspec) (alike_searched himp)

/-- A specification that is refined allows all that the implementation does. -/
theorem permits_of_refines (hspec : spec.isClosed = true) (himp : imp.isClosed = true)
    (h : refines program spec imp limit = .ok report) (hverdict : report.verdict = .refines) :
    program.view.Permits spec program.view imp := by
  have hjustified := refines_spec hspec himp h
  rw [hverdict] at hjustified
  exact View.permits_of_clear hjustified

/-- A program with one channel, and a process that reads requests from it forever. -/
def server : Program where
  name := "server"
  names := #[⟨"request", .channel, {}⟩]
  exprs := #[⟨.name ⟨0⟩, {}⟩]

def request : Trace := .event .input ⟨⟨0⟩, none⟩

def requestLoop : Trace := .fix ⟨⟨0⟩, .loop ⟨0⟩⟩ (.comp .seq [request, .ref ⟨0⟩])

/-- A program with a channel for requests and one for replies. -/
def desk : Program where
  name := "desk"
  names := #[⟨"request", .channel, {}⟩, ⟨"reply", .channel, {}⟩]
  exprs := #[⟨.name ⟨0⟩, {}⟩, ⟨.name ⟨1⟩, {}⟩]

def reply : Trace := .event .output ⟨⟨1⟩, none⟩

/-- What is left of a request and a reply to it, once the request came. -/
theorem after_reply : desk.view.After (.comp .seq [.skip, reply])
    [.event .output ⟨.name ⟨1⟩, none⟩] .skip := by
  have hdone : (.tau, reply) ∈ (Trace.comp .seq [.skip, reply]).moves desk.view.key := by decide
  have hreply : (.visible (.event .output ⟨.name ⟨1⟩, none⟩), .skip) ∈
      reply.moves desk.view.key := by decide
  exact .step hdone (.step hreply (.here _))

/-- Once a request came the contract accepts anything. -/
theorem permits_requestLoop :
    server.view.Permits (.comp .seq [request, .chaos]) server.view requestLoop := by
  have h : refines server (.comp .seq [request, .chaos]) requestLoop 4 =
      .ok ⟨.refines, [], 4⟩ := by cbv
  exact permits_of_refines (by decide) (by decide) h rfl

/-- A counterexample happens, the specification accepts nothing arbitrary up to it, and nothing of
the kind happens after any shorter path. -/
theorem counterexample_genuine_shortest {path : List Label} {violation : Violation}
    (hspec : spec.isClosed = true) (himp : imp.isClosed = true)
    (h : refines program spec imp limit = .ok report)
    (hverdict : report.verdict = .violated ⟨path, violation⟩) :
    program.view.HasTrace imp path ∧ program.view.HasTrace spec path ∧
      program.view.Settled spec path ∧ program.view.Happens spec imp path violation ∧
      ∀ s, s.length < path.length → program.view.Settled spec s →
        ∀ other, ¬ program.view.Happens spec imp s other := by
  have hjustified := refines_spec hspec himp h
  rw [hverdict] at hjustified
  obtain ⟨htakes, hc, hhappens, hshorter⟩ := hjustified
  refine ⟨htakes.performed, htakes.allowed, htakes.settled hc, hhappens, fun s hs hsettled => ?_⟩
  exact View.not_happens_of_clear (fun p hp => hshorter p (Nat.lt_of_le_of_lt hp hs)) hsettled

/-- The loop reads a second request where the contract has ended. -/
theorem second_request_unexpected :
    server.view.Happens request requestLoop [.event .input ⟨.name ⟨0⟩, none⟩]
      (.unexpectedStep (.event .input ⟨.name ⟨0⟩, none⟩)) := by
  have h : refines server request requestLoop 8 =
      .ok ⟨.violated ⟨[.event .input ⟨.name ⟨0⟩, none⟩],
        .unexpectedStep (.event .input ⟨.name ⟨0⟩, none⟩)⟩, [], 5⟩ := by cbv
  obtain ⟨-, -, -, hhappens, -⟩ := counterexample_genuine_shortest (by decide) (by decide) h rfl
  exact hhappens

/-- What refines a refinement is not refuted against the first specification. The traces may have
free references: the three searches follow the same paths from the trace in the middle. -/
theorem unrefuted_trans (h : refines program spec mid limit = .ok report)
    (hverdict : report.verdict = .refines) (h' : refines program mid imp limit' = .ok report')
    (hverdict' : report'.verdict = .refines) : Unrefuted program spec imp := by
  have hfirst := (justifies_of_refines h).permits hverdict
  have hsecond := (justifies_of_refines h').permits hverdict'
  intro last reportLast hlast
  exact (hfirst.trans hsecond).ne_violated (justifies_of_refines hlast)

/-- Chaos in the middle comes no earlier than in the first specification, so it excuses the
unbound reference only where the first specification does. -/
theorem open_request_unrefuted : Unrefuted server
    (.comp .ndet [.skip, .comp .seq [request, .chaos]]) (.comp .seq [request, .ref ⟨9⟩]) := by
  have h : refines server (.comp .ndet [.skip, .comp .seq [request, .chaos]])
      (.comp .seq [request, .chaos]) 8 = .ok ⟨.refines, [.tick], 5⟩ := by cbv
  have h' : refines server (.comp .seq [request, .chaos]) (.comp .seq [request, .ref ⟨9⟩]) 8 =
      .ok ⟨.refines, [], 4⟩ := by cbv
  exact unrefuted_trans h rfl h' rfl

end ProcessContracts
