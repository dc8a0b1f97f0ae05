import ProcessContracts.Proofs.Effects

/-!
# Constructs follow their plans

What is done with a construct that is not an instance has the effect its plan says: the queries can
be asked in advance, then the parts are walked, then their fragments are made use of.
-/

namespace ProcessContracts.Walk

open WalkState

variable {setting : Setting} {visit : NodeId → Walk Unit} {visits : Table} {node body : NodeId}

/-! ## Plans -/

/-- The parts of the plan are walked, then their fragments are made use of. -/
def Follows (visits : Table) (plan : Plan) :
    WalkState → Option Trace → Account → WalkState → Prop :=
  Then (Series visits plan.parts) fun fragments => Makes (plan.make fragments)

/-- The construct has a plan, and it is followed. -/
def Planned (setting : Setting) (visits : Table) (node : NodeId) (construct : Construct) :
    WalkState → Option Trace → Account → WalkState → Prop :=
  Asking (construct.plan setting node) fun plan s f account s' =>
    ∃ p, plan = some p ∧ Follows visits p s f account s'

theorem asking_pure {α β : Type} (a : α)
    (next : α → WalkState → β → Account → WalkState → Prop) : Asking (pure a) next = next a := by
  funext s b account s'
  exact propext ⟨fun ⟨_, heq, h⟩ => Except.ok.inj heq ▸ h, fun h => ⟨a, rfl, h⟩⟩

theorem asking_bind {α β γ : Type} (query : Lookup α) (k : α → Lookup β)
    (next : β → WalkState → γ → Account → WalkState → Prop) :
    Asking (query >>= k) next = Asking query fun a => Asking (k a) next := by
  funext s b account s'
  refine propext ⟨?_, ?_⟩
  · rintro ⟨c, hc, h⟩
    obtain ⟨a, ha, hk⟩ := Lookup.bind_eq_ok.1 hc
    exact ⟨a, ha, c, hk, h⟩
  · rintro ⟨a, ha, c, hk, h⟩
    exact ⟨c, Lookup.bind_eq_ok.2 ⟨a, ha, hk⟩, h⟩

theorem asking_then {α β γ : Type} {rule : WalkState → α → Account → WalkState → Prop}
    {query : Lookup β} {next : β → α → WalkState → γ → Account → WalkState → Prop}
    {s s' : WalkState} {c : γ} {account : Account} :
    Then rule (fun a => Asking query fun b => next b a) s c account s' ↔
      Asking query (fun b => Then rule (next b)) s c account s' := by
  constructor
  · rintro ⟨a, here, mid, rest, hrule, ⟨b, hb, hnext⟩, rfl⟩
    exact ⟨b, hb, a, here, mid, rest, hrule, hnext, rfl⟩
  · rintro ⟨b, hb, a, here, mid, rest, hrule, hnext, rfl⟩
    exact ⟨a, here, mid, rest, hrule, ⟨b, hb, hnext⟩, rfl⟩

theorem planned_of_bind {α : Type} {construct : Construct} {query : Lookup α} {plan : α → Plan}
    (h : construct.plan setting node = query >>= fun a => pure (some (plan a))) :
    Planned setting visits node construct = Asking query fun a => Follows visits (plan a) := by
  rw [Planned, h, asking_bind]
  simp only [asking_pure, Option.some.injEq, exists_eq_left']

theorem planned_of_pure {construct : Construct} {plan : Plan}
    (h : construct.plan setting node = pure (some plan)) :
    Planned setting visits node construct = Follows visits plan := by
  rw [Planned, h, asking_pure]
  simp only [Option.some.injEq, exists_eq_left']

theorem follows_of_no_parts {made : Made} (make : List (Option Trace) → Made) (h : make [] = made)
    {s s' : WalkState} {f : Option Trace} {account : Account} :
    Follows visits ⟨[], make⟩ s f account s' ↔ Makes made s f account s' := by
  subst h
  constructor
  · rintro ⟨fs, here, mid, rest, hseries, hmade, rfl⟩
    obtain ⟨rfl, rfl, rfl⟩ := series_nil_iff.1 hseries
    exact hmade
  · exact fun hmade => ⟨[], {}, s, account, .nil s, hmade, rfl⟩

theorem follows_wrap_iff {make : Option Trace → Made} {s s' : WalkState} {f : Option Trace}
    {account : Account} : Follows visits (.wrap body make) s f account s' ↔
      Then (visits body) (fun fragment => Makes (make fragment)) s f account s' := by
  constructor
  · rintro ⟨fs, here, mid, rest, hseries, hmade, rfl⟩
    obtain ⟨fragment, _, _, _, _, hbody, hnil, rfl, rfl⟩ := series_cons_iff.1 hseries
    obtain ⟨rfl, rfl, rfl⟩ := series_nil_iff.1 hnil
    exact ⟨fragment, _, _, _, hbody, hmade, by rw [Account.add_empty]⟩
  · rintro ⟨fragment, here, mid, rest, hbody, hmade, rfl⟩
    exact ⟨[fragment], here, mid, rest,
      series_cons_iff.2 ⟨_, _, _, _, _, hbody, .nil _, rfl, (Account.add_empty _).symm⟩, hmade, rfl⟩

theorem contributes_leaf (node : NodeId) (t : Trace) :
    Contributes (emit node t) (Follows visits (.leaf t)) :=
  (contributes_emit node t).congr fun _ _ _ _ => follows_of_no_parts _ rfl

theorem contributes_skipped : Contributes (pure ()) (Follows visits .skipped) :=
  contributes_pure.congr fun _ _ _ _ => follows_of_no_parts _ rfl

theorem contributes_wrap (h : Contributes (visit body) (visits body)) {k : Option Trace → Walk Unit}
    {make : Option Trace → Made} (hk : ∀ fragment, Contributes (k fragment) (Makes (make fragment)))
    (construct : String) (node : NodeId) :
    Contributes (collectSingle setting visit construct node body >>= k)
      (Follows visits (.wrap body make)) :=
  ((computes_collectSingle h construct node).contribute hk).congr
    fun _ _ _ _ => follows_wrap_iff

theorem contributes_minted (node : NodeId) (origin : Origin) {t : Atom → Trace} {made : Made}
    (hsize : made.size = 1) (hmade : ∀ n, made.fragment n = some (t ⟨⟨n⟩, origin⟩)) :
    Contributes (mint origin >>= fun atom => emit node (t atom)) (Makes made) :=
  ((computes_mint origin).contribute fun atom => contributes_emit node (t atom)).congr
    fun s f account s' => by
      constructor
      · rintro ⟨rfl, rfl, rfl⟩
        refine ⟨_, _, _, _, ⟨rfl, rfl, rfl⟩, ⟨hmade _, rfl, ?_⟩, ?_⟩ <;> simp [hsize]
      · rintro ⟨_, _, _, _, ⟨rfl, rfl, rfl⟩, ⟨rfl, rfl, rfl⟩, rfl⟩
        refine ⟨(hmade _).symm, ?_, ?_⟩ <;> simp [hsize]

theorem contributes_gathered {α β : Type} {m : Walk β} {query : Lookup α}
    {bodies : α → List NodeId} {put : α → List (Option Trace) → β}
    (hm : Computes m (Asking query fun a => Gathers visits (bodies a) (put a)))
    {k : β → Walk Unit} {make : β → Made} (hk : ∀ b, Contributes (k b) (Makes (make b))) :
    Contributes (m >>= k)
      (Asking query fun a => Follows visits ⟨bodies a, fun fs => make (put a fs)⟩) :=
  (hm.contribute hk).congr fun s f account s' => by
    constructor
    · rintro ⟨a, ha, fs, here, mid, rest, hseries, hmade, rfl⟩
      exact ⟨_, here, mid, rest, ⟨a, ha, fs, hseries, rfl⟩, hmade, rfl⟩
    · rintro ⟨_, here, mid, rest, ⟨a, ha, fs, hseries, rfl⟩, hmade, rfl⟩
      exact ⟨a, ha, fs, here, mid, rest, hseries, hmade, rfl⟩

/-! ## Constructs -/

theorem contributes_compose (h : Realizes visit visits) (node : NodeId) (mode : Mode)
    (children : List NodeId) : Contributes (compose visit node mode children) (Follows visits
      ⟨children, fun fragments => .plain (.comp mode.operator fragments.reduceOption)⟩) := by
  have hm := computes_collect h node children
  rw [← asking_pure () fun _ => Gathers visits children List.reduceOption] at hm
  have hcompose := contributes_gathered hm fun ts =>
    contributes_emit node (.comp mode.operator ts)
  rwa [asking_pure] at hcompose

theorem contributes_replicate (h : Realizes visit visits) (node : NodeId) (mode : Mode)
    (count : ExprId) (body : NodeId) : Contributes (replicate setting visit node mode count body)
      (Asking (setting.program.constantValue count) fun folded =>
        Follows visits (.replication setting node mode body folded)) :=
  contributes_asking fun folded => by
    unfold Plan.replication
    split
    · exact contributes_skipped
    · refine contributes_wrap (h body) (fun fragment => ?_) _ _
      match fragment with
      | none => exact contributes_pure
      | some t =>
          cases unrolling setting folded with
          | some n => exact contributes_emit node _
          | none => exact contributes_minted node _ rfl fun _ => rfl

theorem contributes_loop (h : Realizes visit visits) (node : NodeId) (guard : ExprId)
    (body : NodeId) : Contributes (loop setting visit node guard body)
      (Asking (setting.program.constantTruth guard) fun truth =>
        Follows visits (.rounds node body truth)) :=
  contributes_asking fun truth => by
    match truth with
    | some false => exact contributes_skipped
    | some true =>
        refine contributes_wrap (h body) (fun fragment => ?_) _ _
        match fragment with
        | none => exact contributes_emit node .div
        | some t => exact contributes_minted node _ rfl fun _ => rfl
    | none =>
        refine contributes_wrap (h body) (fun _ => ?_) _ _
        exact contributes_minted node _ rfl fun _ => rfl

theorem contributes_condOne (h : Realizes visit visits) (node : NodeId) (arm : CondArm) :
    Contributes (condOne setting visit node arm)
      (Asking (setting.program.constantTruth arm.guard) fun truth =>
        Follows visits (.condOne arm.body truth)) :=
  contributes_asking fun truth => by
    unfold Plan.condOne
    split
    · exact contributes_skipped
    · refine contributes_wrap (h arm.body) (fun fragment => ?_) _ _
      match fragment with
      | none => exact contributes_pure
      | some t =>
          dsimp only
          split
          · exact contributes_emit node t
          · exact contributes_emit node _

/-- What is walked before a query may as well be walked after it. -/
theorem gathers_later {α β : Type} {query : Lookup α} {bodies : α → List NodeId}
    {put put' : α → List (Option Trace) → β} {join : Option Trace → β → β}
    (hput : ∀ a f fs, put' a (f :: fs) = join f (put a fs)) {s s' : WalkState} {b : β}
    {account : Account} :
    Asking query (fun a => Gathers visits (body :: bodies a) (put' a)) s b account s' ↔
      Then (visits body) (fun f => Then (Asking query fun a => Gathers visits (bodies a) (put a))
        fun rest s b account s' => join f rest = b ∧ account = {} ∧ s' = s) s b account s' := by
  simp only [gathers_cons]
  constructor
  · rintro ⟨a, ha, f, here, mid, rest, hbody, ⟨fs, hseries, rfl⟩, rfl⟩
    exact ⟨f, here, mid, rest, hbody, ⟨_, rest, s', {}, ⟨a, ha, fs, hseries, rfl⟩,
      ⟨(hput a f fs).symm, rfl, rfl⟩, (Account.add_empty _).symm⟩, rfl⟩
  · rintro ⟨f, here, mid, _, hbody, ⟨_, rest, _, _, ⟨a, ha, fs, hseries, rfl⟩,
      ⟨rfl, rfl, rfl⟩, rfl⟩, rfl⟩
    exact ⟨a, ha, f, here, mid, rest, hbody, ⟨fs, hseries, (hput a f fs).symm⟩,
      by rw [Account.add_empty]⟩

theorem computes_alternatives (h : Realizes visit visits) (node : NodeId) (arms : List CondArm) :
    Computes (alternatives setting visit node arms) (Asking (Plan.taken setting arms)
      fun taken => Gathers visits taken.1 (Plan.alternatives taken.2)) := by
  induction arms with
  | nil =>
      rw [Plan.taken, asking_pure, gathers_nil]
      exact computes_pure [Trace.skip]
  | cons arm arms ih =>
      rw [Plan.taken, asking_bind]
      refine computes_asking fun truth => ?_
      split
      · exact ih
      · have hbody : Computes (collectSingle setting visit "IF" node arm.body) (visits arm.body) :=
          computes_collectSingle (h arm.body) "IF" node
        split
        · rw [asking_pure, gathers_cons]
          simp only [gathers_nil]
          exact hbody.bind fun f => computes_pure [f.getD .skip]
        · rw [asking_bind]
          simp only [asking_pure]
          exact (hbody.bind fun f => ih.bind fun ts => computes_pure (f.getD .skip :: ts)).congr
            fun s ts account s' => gathers_later fun _ _ _ => rfl

theorem contributes_cond (h : Realizes visit visits) (node : NodeId) (arms : List CondArm) :
    Contributes (cond setting visit node arms) (Planned setting visits node (.cond arms)) := by
  match arms with
  | [arm] =>
      rw [planned_of_bind rfl]
      exact contributes_condOne h node arm
  | [] | _ :: _ :: _ =>
      rw [planned_of_bind rfl]
      exact contributes_gathered (computes_alternatives h node _) fun ts => contributes_emit node _

theorem computes_ready (h : Realizes visit visits) (node : NodeId) (arm : AltArm) :
    Computes (ready setting visit node arm) (Asking (Plan.awaited setting arm) fun chan =>
      Then (visits arm.body) fun f s choice account s' =>
        Plan.choice chan f = choice ∧ account = {} ∧ s' = s) := by
  have hbody : Computes (collectSingle setting visit "ALT" node arm.body) (visits arm.body) :=
    computes_collectSingle (h arm.body) "ALT" node
  unfold ready Plan.awaited
  cases arm.trigger with
  | skip =>
      rw [asking_pure]
      exact hbody.bind fun f => computes_pure (f.getD .skip)
  | input expr =>
      rw [asking_bind]
      simp only [asking_pure]
      refine (hbody.bind fun f => computes_asking fun chan => ?_).congr fun s t account s' =>
        asking_then.symm
      cases f with
      | none => exact computes_pure (Trace.event .input chan)
      | some t => exact computes_pure (Trace.comp .seq [.event .input chan, t])

theorem disabled_eq (arm : AltArm) :
    disabled setting arm = liftLookup (Plan.isDisabled setting arm) := by
  unfold disabled Plan.isDisabled
  cases arm.precondition with
  | none => rfl
  | some guard =>
      dsimp only [constantTruth]
      cases setting.program.constantTruth guard <;> rfl

theorem computes_choices (h : Realizes visit visits) (node : NodeId) (arms : List AltArm) :
    Computes (choices setting visit node arms) (Asking (Plan.enabled setting arms)
      fun enabled => Gathers visits (enabled.map (·.1)) (Plan.choices enabled)) := by
  induction arms with
  | nil =>
      rw [Plan.enabled, asking_pure, List.map_nil, gathers_nil]
      exact computes_pure []
  | cons arm arms ih =>
      rw [Plan.enabled, asking_bind, choices, disabled_eq]
      refine computes_asking fun isDisabled => ?_
      split
      · exact ih
      · rw [asking_bind]
        simp only [asking_bind, asking_pure]
        refine ((computes_ready h node arm).bind fun choice => ih.bind fun rest =>
          computes_pure (choice :: rest)).congr fun s ts account s' => ?_
        constructor
        · rintro ⟨chan, hchan, enabled, henabled, fs, hseries, rfl⟩
          obtain ⟨f, here, mid, fs, rest, hbody, hrest, rfl, rfl⟩ := series_cons_iff.1 hseries
          exact ⟨_, here, mid, rest,
            ⟨chan, hchan, f, here, mid, {}, hbody, ⟨rfl, rfl, rfl⟩, (Account.add_empty _).symm⟩,
            ⟨_, rest, s', {}, ⟨enabled, henabled, fs, hrest, rfl⟩, ⟨rfl, rfl, rfl⟩,
              (Account.add_empty _).symm⟩, rfl⟩
        · rintro ⟨_, _, _, _, ⟨chan, hchan, f, here, mid, _, hbody, ⟨rfl, rfl, rfl⟩, rfl⟩,
            ⟨_, rest, _, _, ⟨enabled, henabled, fs, hrest, rfl⟩, ⟨rfl, rfl, rfl⟩, rfl⟩, rfl⟩
          rw [Account.add_empty, Account.add_empty]
          exact ⟨chan, hchan, enabled, henabled, f :: fs, .cons hbody hrest, rfl⟩

theorem contributes_offer (node : NodeId) (choices : List Trace) :
    Contributes (match choices with
      | [] => emit node .stop
      | choices => emit node (.comp .det choices))
    (Makes (match choices with
      | [] => .plain .stop
      | choices => .plain (.comp .det choices))) := by
  cases choices with
  | nil => exact contributes_emit node .stop
  | cons choice choices => exact contributes_emit node _

theorem contributes_alt (h : Realizes visit visits) (node : NodeId) (arms : List AltArm) :
    Contributes (alt setting visit node arms) (Planned setting visits node (.alt arms)) := by
  rw [planned_of_bind rfl]
  exact contributes_gathered (computes_choices h node arms) (contributes_offer node)

end ProcessContracts.Walk
