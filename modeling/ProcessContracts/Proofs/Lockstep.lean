import ProcessContracts.Proofs.Walks

/-!
# Walks in step

Two walks are in step if they pass through the same states. Their settings may differ in how a
finished trace is presented and in the policy on surplus fragments, and the parts may be walked by
different computations: all that counts is that these are in step from the states that an invariant
admits. Where the first walk is given up for a reason that is excused, the second one is free.
-/

namespace ProcessContracts

/-- The same setting with another presentation of finished traces and another policy on surplus
fragments. -/
def Setting.tuned (setting : Setting) (simplify : Bool) (policy : FragmentPolicy) : Setting :=
  { setting with options := { setting.options with simplify, fragmentPolicy := policy } }

namespace Walk

variable {α β γ δ : Type} {excused : Abort → Prop} {rel : α → β → Prop} {next : γ → δ → Prop}
  {state : WalkState}

/-- Ends of computations in step: related answers in one state, or one failure, unless the first
failure is excused. -/
def Tallies (excused : Abort → Prop) (rel : α → β → Prop) :
    EStateM.Result Abort WalkState α → EStateM.Result Abort WalkState β → Prop
  | .ok a last, result => ∃ b, result = .ok b last ∧ rel a b
  | .error abort last, result => excused abort ∨ result = .error abort last

/-- Both computations go through the same states from this one on. -/
def InStep (excused : Abort → Prop) (rel : α → β → Prop) (state : WalkState) (m : Walk α)
    (m' : Walk β) : Prop := Tallies excused rel (m.run state) (m'.run state)

namespace InStep

variable {m : Walk α} {m' : Walk β} {f : α → Walk γ} {f' : β → Walk δ}

theorem refl (m : Walk α) : InStep excused Eq state m m := by
  unfold InStep Tallies
  cases m.run state with
  | ok a last => exact ⟨a, rfl, rfl⟩
  | error abort last => exact .inr rfl

theorem pure {a : α} {b : β} (h : rel a b) : InStep excused rel state (pure a) (pure b) :=
    ⟨b, rfl, h⟩

theorem fail_bind (error : CheckError) {f : α → Walk γ} {f' : α → Walk δ} :
    InStep excused next state (fail error >>= f) (fail error >>= f') := .inr rfl

theorem of_excused {abort : Abort} {last : WalkState} (h : m.run state = .error abort last)
    (hexcused : excused abort) : InStep excused rel state m m' := by
  rw [InStep, h]
  exact .inl hexcused

theorem mono {rel' : α → β → Prop} (h : InStep excused rel state m m')
    (hrel : ∀ a b, rel a b → rel' a b) : InStep excused rel' state m m' := by
  unfold InStep Tallies at h ⊢
  cases hrun : m.run state with
  | ok a last =>
      rw [hrun] at h
      obtain ⟨b, hb, hab⟩ := h
      exact ⟨b, hb, hrel a b hab⟩
  | error abort last =>
      rw [hrun] at h
      exact h

/-- What comes next is in step from the state that the first part has come to. -/
theorem bind_of_run (h : InStep excused rel state m m')
    (hf : ∀ a b mid, m.run state = .ok a mid → rel a b → InStep excused next mid (f a) (f' b)) :
    InStep excused next state (m >>= f) (m' >>= f') := by
  change Tallies excused next (EStateM.bind m f state) (EStateM.bind m' f' state)
  have hm : Tallies excused rel (m state) (m' state) := h
  unfold EStateM.bind
  cases hrun : m state with
  | ok a mid =>
      rw [hrun] at hm
      obtain ⟨b, hb, hab⟩ := hm
      rw [hb]
      exact hf a b mid hrun hab
  | error abort mid =>
      rw [hrun] at hm
      rcases hm with hexcused | heq
      · exact .inl hexcused
      · rw [heq]
        exact .inr rfl

/-- The two go on in step whatever the first part has come to. -/
theorem bind (h : InStep excused rel state m m')
    (hf : ∀ a b mid, rel a b → InStep excused next mid (f a) (f' b)) :
    InStep excused next state (m >>= f) (m' >>= f') :=
  h.bind_of_run fun a b mid _ hab => hf a b mid hab

/-- The rest is the same computation. -/
theorem bind_same {m m' : Walk α} {f : α → Walk γ} (h : InStep excused Eq state m m') :
    InStep excused Eq state (m >>= f) (m' >>= f) := h.bind fun a _ _ hab => hab ▸ .refl (f a)

variable {setting : Setting} {I : Invariant setting} {post : α → WalkState → Prop}

/-- The first part keeps an invariant, which is known when the two go on. -/
theorem bind_keeps (h : InStep excused rel state m m') (hkeeps : I.Keeps state m post)
    (hf : ∀ a b mid, rel a b → I.Sound mid → state.Later mid → post a mid →
      InStep excused next mid (f a) (f' b)) :
    InStep excused next state (m >>= f) (m' >>= f') := by
  refine h.bind_of_run fun a b mid hrun hab => ?_
  rw [Invariant.Keeps, hrun] at hkeeps
  exact hf a b mid hab hkeeps.1 hkeeps.2.1 hkeeps.2.2

/-- Both start with the same computation. -/
theorem after {f : α → Walk γ} {f' : α → Walk δ} (hkeeps : I.Keeps state m post)
    (hf : ∀ a mid, I.Sound mid → state.Later mid → post a mid →
      InStep excused next mid (f a) (f' a)) :
    InStep excused next state (m >>= f) (m >>= f') :=
  (refl m).bind_keeps hkeeps fun a _ mid hab hmid hlater hpost => hab ▸ hf a mid hmid hlater hpost

end InStep

/-- Both walks of a node are in step wherever the node may be walked. -/
def Agrees {setting : Setting} (I : Invariant setting) (excused : Abort → Prop) (depth : Nat)
    (visit visit' : NodeId → Walk Unit) : Prop :=
  ∀ ⦃state : WalkState⦄ ⦃node : NodeId⦄, I.Sound state → Receives state.buckets →
    I.May depth (owners state.frames) node → InStep excused Eq state (visit node) (visit' node)

/-- The traces of one procedure in both presentations. Callers see the same of it. -/
structure Twins (setting setting' : Setting) (walked : Prop) (traces traces' : ProcTraces) :
    Prop where
  projected : traces'.projected = traces.projected
  finished : walked → ∃ t, traces.computed = .single (finish setting t) ∧
    traces'.computed = .single (finish setting' t)
  other : ¬ walked → traces'.computed = traces.computed

namespace Invariant

variable {setting : Setting} {I : Invariant setting} {depth : Nat}
  {visit visit' : NodeId → Walk Unit} {simplify : Bool} {policy : FragmentPolicy}
  (hvisit : I.Visits depth visit) (hagrees : Agrees I excused depth visit visit')
  (hstate : I.Sound state)
include hvisit hagrees hstate

section Parts

theorem inStep_visitAll (hbuckets : Receives state.buckets) {nodes : List NodeId}
    (hmay : ∀ node ∈ nodes, I.May depth (owners state.frames) node) :
    InStep excused Eq state (visitAll visit nodes) (visitAll visit' nodes) := by
  induction nodes generalizing state with
  | nil => exact .refl _
  | cons node nodes ih =>
      obtain ⟨hnode, hnodes⟩ := List.forall_mem_cons.1 hmay
      refine (hagrees hstate hbuckets hnode).bind_keeps (hvisit hstate hbuckets hnode)
        fun _ _ mid _ hmid hlater ⟨ts, _, hts⟩ => ?_
      exact ih hmid (hts ▸ hbuckets.contribute ts) (hlater.owners ▸ hnodes)

theorem inStep_compose (hbuckets : Receives state.buckets) (node : NodeId) (mode : Mode)
    {children : List NodeId} (hmay : ∀ child ∈ children, I.May depth (owners state.frames) child) :
    InStep excused Eq state (compose visit node mode children)
      (compose visit' node mode children) := by
  obtain ⟨bucket, inner, outer, heq⟩ := hbuckets
  refine InStep.bind_same (.after (keeps_openBucket hstate heq) fun _ mid hmid hlater hopened => ?_)
  exact (inStep_visitAll hvisit hagrees hmid ⟨_, _, _, hopened⟩ (hlater.owners ▸ hmay)).bind_same

/-- The bucket of one part holds at most one fragment, so the policies agree on it. -/
theorem inStep_collectSingle {inner : List Bucket} {outer : List (List Bucket)}
    (hbuckets : state.buckets = inner :: outer) (construct : String) (node : NodeId) {body : NodeId}
    (hmay : I.May depth (owners state.frames) body) :
    InStep excused Eq state (collectSingle setting visit construct node body)
      (collectSingle (setting.tuned simplify policy) visit' construct node body) := by
  refine .after (keeps_openBucket hstate hbuckets) fun _ mid hmid hlater hopened => ?_
  have hbody : I.May depth (owners mid.frames) body := hlater.owners ▸ hmay
  have hreceives : Receives mid.buckets := ⟨_, _, _, hopened⟩
  refine (hagrees hmid hreceives hbody).bind_keeps (hvisit hmid hreceives hbody)
    fun _ _ last _ hlast _ ⟨ts, hlength, hts⟩ => ?_
  have hfilled : last.buckets = (⟨ts⟩ :: inner) :: outer := by rw [hts, hopened]; rfl
  refine .after (keeps_closeBucket hlast node hfilled) fun bucket final _ _ hpost => ?_
  obtain ⟨rfl, -⟩ := hpost
  rw [singleFragment, singleFragment, Bucket.single_of_length_le hlength]
  exact .refl _

end Parts

section Constructs

variable (hbuckets : Receives state.buckets) (node : NodeId)
include hbuckets

theorem inStep_part (construct : String) {body : NodeId}
    (hmay : I.May depth (owners state.frames) body) :
    InStep excused Eq state (collectSingle setting visit construct node body)
      (collectSingle (setting.tuned simplify policy) visit' construct node body) := by
  obtain ⟨bucket, inner, outer, heq⟩ := hbuckets
  exact inStep_collectSingle hvisit hagrees hstate heq construct node hmay

theorem inStep_replicate (mode : Mode) {count : ExprId} {body : NodeId} (hasks : I.Asks [count])
    (hmay : I.May depth (owners state.frames) body) :
    InStep excused Eq state (replicate setting visit node mode count body)
      (replicate (setting.tuned simplify policy) visit' node mode count body) := by
  have hcount : ∀ fault, setting.program.constantValue count = .error fault →
      I.Cause (.fault fault) := fun fault hfault =>
    hasks count List.mem_cons_self fault (.inl hfault)
  refine .after (keeps_liftLookup hstate hcount) fun folded mid _ _ hpost => ?_
  obtain ⟨-, rfl⟩ := hpost
  split
  case isTrue => exact .refl _
  case isFalse => exact (inStep_part hvisit hagrees hstate hbuckets node _ hmay).bind_same

theorem inStep_loop {guard : ExprId} {body : NodeId} (hasks : I.Asks [guard])
    (hmay : I.May depth (owners state.frames) body) :
    InStep excused Eq state (Walk.loop setting visit node guard body)
      (Walk.loop (setting.tuned simplify policy) visit' node guard body) := by
  have hpart : InStep excused Eq state (collectSingle setting visit "WHILE" node body)
      (collectSingle (setting.tuned simplify policy) visit' "WHILE" node body) :=
    inStep_part hvisit hagrees hstate hbuckets node "WHILE" hmay
  refine .after (keeps_constantTruth hasks hstate List.mem_cons_self) fun truth mid _ _ hpost => ?_
  obtain rfl := hpost
  split
  case h_1 => exact .refl _
  case h_2 => exact hpart.bind_same
  case h_3 => exact hpart.bind_same

theorem inStep_condOne {arm : CondArm} (hasks : I.Asks [arm.guard])
    (hmay : I.May depth (owners state.frames) arm.body) :
    InStep excused Eq state (condOne setting visit node arm)
      (condOne (setting.tuned simplify policy) visit' node arm) := by
  refine .after (keeps_constantTruth hasks hstate List.mem_cons_self) fun truth mid _ _ hpost => ?_
  obtain rfl := hpost
  split
  case isTrue => exact .refl _
  case isFalse => exact (inStep_part hvisit hagrees hstate hbuckets node "IF" hmay).bind_same

theorem inStep_alternatives {arms : List CondArm} (hasks : I.Asks (arms.map (·.guard)))
    (hmay : ∀ arm ∈ arms, I.May depth (owners state.frames) arm.body) :
    InStep excused Eq state (alternatives setting visit node arms)
      (alternatives (setting.tuned simplify policy) visit' node arms) := by
  induction arms generalizing state with
  | nil => exact .refl _
  | cons arm arms ih =>
      obtain ⟨harm, harms⟩ := List.forall_mem_cons.1 hmay
      have hrest : I.Asks (arms.map (·.guard)) := fun expr hexpr =>
        hasks expr (List.mem_cons_of_mem _ hexpr)
      refine .after (keeps_constantTruth hasks hstate List.mem_cons_self)
        fun truth mid _ _ hpost => ?_
      obtain rfl := hpost
      split
      case isTrue => exact ih hstate hbuckets hrest harms
      case isFalse =>
        refine (inStep_part hvisit hagrees hstate hbuckets node "IF" harm).bind_keeps
          (keeps_part hvisit hstate hbuckets node "IF" harm)
          fun fragment _ mid heq hmid hlater hpost => ?_
        subst heq
        split
        case isTrue => exact .refl _
        case isFalse =>
          exact (ih hmid (hpost.1 ▸ hbuckets) hrest (hlater.owners ▸ harms)).bind_same

theorem inStep_cond {arms : List CondArm} (hasks : I.Asks (arms.map (·.guard)))
    (hmay : ∀ arm ∈ arms, I.May depth (owners state.frames) arm.body) :
    InStep excused Eq state (cond setting visit node arms)
      (cond (setting.tuned simplify policy) visit' node arms) := by
  unfold cond
  split
  case h_1 arm =>
    exact inStep_condOne hvisit hagrees hstate hbuckets node hasks (hmay arm List.mem_cons_self)
  case h_2 => exact (inStep_alternatives hvisit hagrees hstate hbuckets node hasks hmay).bind_same

theorem inStep_choices {arms : List AltArm} (hasks : I.Asks (Construct.alt arms).exprs)
    (hmay : ∀ arm ∈ arms, I.May depth (owners state.frames) arm.body) :
    InStep excused Eq state (choices setting visit node arms)
      (choices (setting.tuned simplify policy) visit' node arms) := by
  induction arms generalizing state with
  | nil => exact .refl _
  | cons arm arms ih =>
      obtain ⟨harm, harms⟩ := List.forall_mem_cons.1 hmay
      have hrest : I.Asks (Construct.alt arms).exprs := fun expr hexpr => hasks expr <| by
        obtain ⟨other, hother, hexpr⟩ := List.mem_flatMap.1 hexpr
        exact List.mem_flatMap.2 ⟨other, List.mem_cons_of_mem _ hother, hexpr⟩
      refine .after (keeps_disabled hstate fun expr hexpr => hasks expr <|
        List.mem_flatMap.2 ⟨arm, List.mem_cons_self, List.mem_append_left _ hexpr⟩)
          fun off mid _ _ hpost => ?_
      obtain rfl := hpost
      split
      case isTrue => exact ih hstate hbuckets hrest harms
      case isFalse =>
        have htrigger : ∀ expr, arm.trigger = .input expr → I.Asks [expr] := by
          intro expr heq other hother
          refine hasks other <| List.mem_flatMap.2
            ⟨arm, List.mem_cons_self, List.mem_append_right _ ?_⟩
          rw [heq]
          exact hother
        have hready : InStep excused Eq mid (ready setting visit node arm)
            (ready (setting.tuned simplify policy) visit' node arm) :=
          (inStep_part hvisit hagrees hstate hbuckets node "ALT" harm).bind_same
        refine hready.bind_keeps (keeps_ready hvisit hstate hbuckets node htrigger harm)
          fun choice _ last heq hlast hlater hpost => ?_
        subst heq
        exact (ih hlast (hpost.1 ▸ hbuckets) hrest (hlater.owners ▸ harms)).bind_same

theorem inStep_alt {arms : List AltArm} (hasks : I.Asks (Construct.alt arms).exprs)
    (hmay : ∀ arm ∈ arms, I.May depth (owners state.frames) arm.body) :
    InStep excused Eq state (alt setting visit node arms)
      (alt (setting.tuned simplify policy) visit' node arms) :=
  (inStep_choices hvisit hagrees hstate hbuckets node hasks hmay).bind_same

end Constructs

end Invariant

end Walk

end ProcessContracts
