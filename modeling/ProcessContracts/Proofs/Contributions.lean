import ProcessContracts.Proofs.Invariants

/-!
# What constructs contribute

Every construct keeps every invariant and adds at most one fragment to the innermost open bucket,
given that the walk of its parts does. So a bucket that is opened for one part never holds more
than one fragment when it is closed.
-/

namespace ProcessContracts.Walk.Invariant

variable {setting : Setting} {I : Invariant setting} {state last : WalkState} {depth : Nat}
  {visit : NodeId → Walk Unit} {bs : List (List Bucket)} {t : Trace} {fragment : Option Trace}

/-- Walking a node that may be walked keeps the invariant and adds at most one fragment. -/
def Visits (I : Invariant setting) (depth : Nat) (visit : NodeId → Walk Unit) : Prop :=
  ∀ ⦃state : WalkState⦄ ⦃node : NodeId⦄, I.Sound state → Receives state.buckets →
    I.May depth (owners state.frames) node →
      I.Keeps state (visit node) fun _ last => Offers state.buckets last.buckets

/-- A query about one of the expressions that meets a fault is a cause to give up. -/
def Asks (I : Invariant setting) (exprs : List ExprId) : Prop :=
  ∀ expr ∈ exprs, ∀ fault, setting.program.constantValue expr = .error fault ∨
    ChanRef.ofExpr setting.program expr = .error fault → I.Cause (.fault fault)

theorem fits_later (h : state.Later last) (ht : I.Fits state.minted state.frames t) :
    I.Fits last.minted last.frames t := I.later h.minted h.frames ht

theorem fits_getD {n : Nat} {frames : List Scope} (h : ∀ t ∈ fragment, I.Fits n frames t) :
    I.Fits n frames (fragment.getD .skip) := by
  cases fragment with
  | none => exact I.skip
  | some t => exact h t rfl

theorem fits_pair {n : Nat} {frames : List Scope} {u : Trace} (op : Operator)
    (ht : I.Fits n frames t) (hu : I.Fits n frames u) : I.Fits n frames (.comp op [t, u]) :=
  I.comp op (List.forall_mem_cons.2 ⟨ht, List.forall_mem_singleton.2 hu⟩)

theorem fits_collapse {n : Nat} {frames : List Scope} {op : Operator} {ts : List Trace}
    (h : ∀ t ∈ ts, I.Fits n frames t) : I.Fits n frames (Trace.collapse op ts) := by
  match ts with
  | [] =>
      cases op with
      | seq | par => exact I.skip
      | det | ndet => exact I.stop
  | [t] => exact h t List.mem_cons_self
  | t :: u :: ts => exact I.comp op h

theorem keeps_offer (hstate : I.Sound state) (hbuckets : Receives bs) (hsame : state.buckets = bs)
    (node : NodeId) (ht : I.Fits state.minted state.frames t) :
    I.Keeps state (emit node t) fun _ last => Offers bs last.buckets := by
  subst hsame
  refine (keeps_emit hstate hbuckets node ht).mono fun _ last _ _ hpost => ?_
  rw [hpost]
  exact offers_one t _

theorem keeps_nothing (hstate : I.Sound state) (hsame : state.buckets = bs) :
    I.Keeps state (pure ()) fun _ last => Offers bs last.buckets :=
  keeps_pure hstate (hsame ▸ offers_none bs)

section Buckets

theorem keeps_visitAll (hvisit : I.Visits depth visit) (hstate : I.Sound state)
    (hbuckets : Receives state.buckets) {nodes : List NodeId}
    (hmay : ∀ node ∈ nodes, I.May depth (owners state.frames) node) :
    I.Keeps state (visitAll visit nodes) fun _ last =>
      ∃ ts, last.buckets = contribute ts state.buckets := by
  induction nodes generalizing state with
  | nil => exact keeps_pure hstate ⟨[], (contribute_nil _).symm⟩
  | cons node nodes ih =>
      obtain ⟨hnode, hnodes⟩ := List.forall_mem_cons.1 hmay
      refine (hvisit hstate hbuckets hnode).bind fun _ mid hmid hlater ⟨ts, _, hts⟩ => ?_
      refine (ih hmid (hts ▸ hbuckets.contribute ts) (hlater.owners ▸ hnodes)).mono
        fun _ last _ _ ⟨us, hus⟩ => ⟨ts ++ us, ?_⟩
      rw [hus, hts, contribute_contribute]

theorem keeps_collect (hvisit : I.Visits depth visit) (hstate : I.Sound state)
    (hbuckets : Receives state.buckets) (node : NodeId) {children : List NodeId}
    (hmay : ∀ child ∈ children, I.May depth (owners state.frames) child) :
    I.Keeps state (collect visit node children) fun fragments last =>
      last.buckets = state.buckets ∧ ∀ t ∈ fragments, I.Fits last.minted last.frames t := by
  obtain ⟨bucket, inner, outer, heq⟩ := hbuckets
  refine (keeps_openBucket hstate heq).bind fun _ mid hmid hlater hopened => ?_
  refine (keeps_visitAll hvisit hmid ⟨_, _, _, hopened⟩ (hlater.owners ▸ hmay)).bind
    fun _ mid hmid _ ⟨ts, hts⟩ => ?_
  rw [hopened] at hts
  refine (keeps_closeBucket hmid node hts).bind fun _ last hlast _ hpost => ?_
  obtain ⟨rfl, hclosed, hfits⟩ := hpost
  exact keeps_pure hlast ⟨hclosed.trans heq.symm, hfits⟩

/-- The bucket of one part holds at most one fragment, so no policy on surplus fragments is ever
asked. -/
theorem keeps_collectSingle (hvisit : I.Visits depth visit) (hstate : I.Sound state)
    {inner : List Bucket} {outer : List (List Bucket)} (hbuckets : state.buckets = inner :: outer)
    (construct : String) (node : NodeId) {body : NodeId}
    (hmay : I.May depth (owners state.frames) body) :
    I.Keeps state (collectSingle setting visit construct node body) fun fragment last =>
      last.buckets = state.buckets ∧ ∀ t ∈ fragment, I.Fits last.minted last.frames t := by
  refine (keeps_openBucket hstate hbuckets).bind fun _ mid hmid hlater hopened => ?_
  refine (hvisit hmid ⟨_, _, _, hopened⟩ (hlater.owners ▸ hmay)).bind
    fun _ mid hmid _ ⟨ts, hlength, hts⟩ => ?_
  have hfilled : mid.buckets = (⟨ts⟩ :: inner) :: outer := by rw [hts, hopened]; rfl
  refine (keeps_closeBucket hmid node hfilled).bind fun _ last hlast _ hpost => ?_
  obtain ⟨rfl, hclosed, hfits⟩ := hpost
  rw [singleFragment, Bucket.single_of_length_le hlength]
  exact keeps_pure hlast ⟨hclosed.trans hbuckets.symm,
    fun t ht => hfits t (List.mem_of_mem_head? ht)⟩

end Buckets

section Queries

theorem keeps_constantTruth {exprs : List ExprId} (hasks : I.Asks exprs) (hstate : I.Sound state)
    {guard : ExprId} (hguard : guard ∈ exprs) :
    I.Keeps state (constantTruth setting guard) fun _ last => last = state := by
  refine (keeps_liftLookup hstate fun fault hfault => ?_).mono fun _ _ _ _ hpost => hpost.2
  cases hvalue : setting.program.constantValue guard with
  | ok value =>
      rw [Program.constantTruth, hvalue] at hfault
      cases hfault
  | error other =>
      rw [Program.constantTruth, hvalue] at hfault
      obtain rfl := Except.error.inj hfault
      exact hasks guard hguard other (.inl hvalue)

theorem keeps_channel {exprs : List ExprId} (hasks : I.Asks exprs) (hstate : I.Sound state)
    {expr : ExprId} (hexpr : expr ∈ exprs) :
    I.Keeps state (channel setting expr) fun chan last =>
      ChanRef.ofExpr setting.program expr = .ok chan ∧ last = state :=
  keeps_liftLookup hstate fun fault hfault => hasks expr hexpr fault (.inr hfault)

end Queries

section Constructs

variable (hvisit : I.Visits depth visit) (hstate : I.Sound state)
  (hbuckets : Receives state.buckets) (node : NodeId)
include hvisit hstate hbuckets

theorem keeps_compose (mode : Mode) {children : List NodeId}
    (hmay : ∀ child ∈ children, I.May depth (owners state.frames) child) :
    I.Keeps state (compose visit node mode children) fun _ last =>
      Offers state.buckets last.buckets := by
  refine (keeps_collect hvisit hstate hbuckets node hmay).bind fun ts mid hmid _ hpost => ?_
  exact keeps_offer hmid hbuckets hpost.1 node (I.comp mode.operator hpost.2)

/-- The fragment of a part, collected for a construct that goes on in the same buckets. -/
theorem keeps_part (construct : String) {body : NodeId}
    (hmay : I.May depth (owners state.frames) body) :
    I.Keeps state (collectSingle setting visit construct node body) fun fragment last =>
      last.buckets = state.buckets ∧ ∀ t ∈ fragment, I.Fits last.minted last.frames t := by
  obtain ⟨bucket, inner, outer, heq⟩ := hbuckets
  exact keeps_collectSingle hvisit hstate heq construct node hmay

theorem keeps_replicate (mode : Mode) {count : ExprId} {body : NodeId}
    (hasks : I.Asks [count]) (hmay : I.May depth (owners state.frames) body) :
    I.Keeps state (replicate setting visit node mode count body) fun _ last =>
      Offers state.buckets last.buckets := by
  have hcount : ∀ fault, setting.program.constantValue count = .error fault →
      I.Cause (.fault fault) := fun fault hfault =>
    hasks count List.mem_cons_self fault (.inl hfault)
  refine (keeps_liftLookup hstate hcount).bind fun folded mid _ _ hpost => ?_
  obtain ⟨-, rfl⟩ := hpost
  split
  case isTrue => exact keeps_nothing hstate rfl
  case isFalse =>
    refine (keeps_part hvisit hstate hbuckets node mode.replicatedName hmay).bind
      fun fragment mid hmid _ hpost => ?_
    obtain ⟨hsame, hfits⟩ := hpost
    split
    case h_1 => exact keeps_nothing hmid hsame
    case h_2 fragment =>
      have hfragment := hfits fragment rfl
      split
      case h_1 n _ =>
        refine keeps_offer hmid hbuckets hsame node (I.comp mode.operator fun t ht => ?_)
        rw [List.eq_of_mem_replicate ht]
        exact hfragment
      case h_2 =>
        have hloop := I.replication mode.operator (.replication node) hmid.holds hfragment
        refine (keeps_mint hmid (.replication node)).bind fun atom last hlast _ hpost => ?_
        obtain ⟨rfl, rfl⟩ := hpost
        exact keeps_offer hlast hbuckets hsame node hloop

theorem keeps_loop {guard : ExprId} {body : NodeId} (hasks : I.Asks [guard])
    (hmay : I.May depth (owners state.frames) body) :
    I.Keeps state (Walk.loop setting visit node guard body) fun _ last =>
      Offers state.buckets last.buckets := by
  refine (keeps_constantTruth hasks hstate List.mem_cons_self).bind fun truth mid _ _ hpost => ?_
  obtain rfl := hpost
  have hpart := keeps_part hvisit hstate hbuckets node "WHILE" hmay
  split
  case h_1 => exact keeps_nothing hstate rfl
  case h_2 =>
    refine hpart.bind fun fragment mid hmid _ hpost => ?_
    obtain ⟨hsame, hfits⟩ := hpost
    split
    case h_1 => exact keeps_offer hmid hbuckets hsame node I.div
    case h_2 fragment =>
      have hloop := I.loop .seq (.loop node) hmid.holds (hfits fragment rfl)
      refine (keeps_mint hmid (.loop node)).bind fun atom last hlast _ hpost => ?_
      obtain ⟨rfl, rfl⟩ := hpost
      exact keeps_offer hlast hbuckets hsame node hloop
  case h_3 =>
    refine hpart.bind fun fragment mid hmid _ hpost => ?_
    obtain ⟨hsame, hfits⟩ := hpost
    have hloop := I.loop .ndet (.loop node) hmid.holds (fits_getD hfits)
    refine (keeps_mint hmid (.loop node)).bind fun atom last hlast _ hpost => ?_
    obtain ⟨rfl, rfl⟩ := hpost
    exact keeps_offer hlast hbuckets hsame node hloop

theorem keeps_condOne {arm : CondArm} (hasks : I.Asks [arm.guard])
    (hmay : I.May depth (owners state.frames) arm.body) :
    I.Keeps state (condOne setting visit node arm) fun _ last =>
      Offers state.buckets last.buckets := by
  refine (keeps_constantTruth hasks hstate List.mem_cons_self).bind fun truth mid _ _ hpost => ?_
  obtain rfl := hpost
  split
  case isTrue => exact keeps_nothing hstate rfl
  case isFalse =>
    refine (keeps_part hvisit hstate hbuckets node "IF" hmay).bind
      fun fragment mid hmid _ hpost => ?_
    obtain ⟨hsame, hfits⟩ := hpost
    split
    case h_1 => exact keeps_nothing hmid hsame
    case h_2 fragment =>
      have hfragment := hfits fragment rfl
      split
      case isTrue => exact keeps_offer hmid hbuckets hsame node hfragment
      case isFalse =>
        exact keeps_offer hmid hbuckets hsame node (fits_pair .ndet hfragment I.skip)

theorem keeps_alternatives {arms : List CondArm} (hasks : I.Asks (arms.map (·.guard)))
    (hmay : ∀ arm ∈ arms, I.May depth (owners state.frames) arm.body) :
    I.Keeps state (alternatives setting visit node arms) fun ts last =>
      last.buckets = state.buckets ∧ ∀ t ∈ ts, I.Fits last.minted last.frames t := by
  induction arms generalizing state with
  | nil => exact keeps_pure hstate ⟨rfl, List.forall_mem_singleton.2 I.skip⟩
  | cons arm arms ih =>
      obtain ⟨harm, harms⟩ := List.forall_mem_cons.1 hmay
      have hrest : I.Asks (arms.map (·.guard)) := fun expr hexpr =>
        hasks expr (List.mem_cons_of_mem _ hexpr)
      refine (keeps_constantTruth hasks hstate List.mem_cons_self).bind
        fun truth mid _ _ hpost => ?_
      obtain rfl := hpost
      split
      case isTrue => exact ih hstate hbuckets hrest harms
      case isFalse =>
        refine (keeps_part hvisit hstate hbuckets node "IF" harm).bind
          fun fragment mid hmid hlater hpost => ?_
        obtain ⟨hsame, hfits⟩ := hpost
        have hfragment := fits_getD hfits
        split
        case isTrue => exact keeps_pure hmid ⟨hsame, List.forall_mem_singleton.2 hfragment⟩
        case isFalse =>
          refine (ih hmid (hsame ▸ hbuckets) hrest (hlater.owners ▸ harms)).bind
            fun ts last hlast hlater hpost => ?_
          refine keeps_pure hlast ⟨hpost.1.trans hsame, ?_⟩
          exact List.forall_mem_cons.2 ⟨fits_later hlater hfragment, hpost.2⟩

theorem keeps_cond {arms : List CondArm} (hasks : I.Asks (arms.map (·.guard)))
    (hmay : ∀ arm ∈ arms, I.May depth (owners state.frames) arm.body) :
    I.Keeps state (cond setting visit node arms) fun _ last =>
      Offers state.buckets last.buckets := by
  unfold cond
  split
  case h_1 arm =>
    exact keeps_condOne hvisit hstate hbuckets node hasks (hmay arm List.mem_cons_self)
  case h_2 =>
    refine (keeps_alternatives hvisit hstate hbuckets node hasks hmay).bind
      fun ts mid hmid _ hpost => ?_
    exact keeps_offer hmid hbuckets hpost.1 node (fits_collapse hpost.2)

theorem keeps_ready {arm : AltArm} (hasks : ∀ expr, arm.trigger = .input expr → I.Asks [expr])
    (hmay : I.May depth (owners state.frames) arm.body) :
    I.Keeps state (ready setting visit node arm) fun t last =>
      last.buckets = state.buckets ∧ I.Fits last.minted last.frames t := by
  refine (keeps_part hvisit hstate hbuckets node "ALT" hmay).bind fun body mid hmid _ hpost => ?_
  obtain ⟨hsame, hfits⟩ := hpost
  split
  case h_1 => exact keeps_pure hmid ⟨hsame, fits_getD hfits⟩
  case h_2 expr htrigger =>
    refine (keeps_channel (hasks expr htrigger) hmid List.mem_cons_self).bind
      fun chan last _ _ hpost => ?_
    obtain ⟨hchan, rfl⟩ := hpost
    have hinput : I.Fits last.minted last.frames (.event .input chan) := I.event .input hchan
    split
    case h_1 body => exact keeps_pure hmid ⟨hsame, fits_pair .seq hinput (hfits body rfl)⟩
    case h_2 => exact keeps_pure hmid ⟨hsame, hinput⟩

omit hvisit hbuckets in
theorem keeps_disabled {arm : AltArm} (hasks : I.Asks arm.precondition.toList) :
    I.Keeps state (disabled setting arm) fun _ last => last = state := by
  unfold disabled
  split
  case h_1 guard heq =>
    rw [heq] at hasks
    refine (keeps_constantTruth hasks hstate List.mem_cons_self).bind fun truth mid _ _ hpost => ?_
    obtain rfl := hpost
    exact keeps_pure hstate rfl
  case h_2 => exact keeps_pure hstate rfl

theorem keeps_choices {arms : List AltArm} (hasks : I.Asks (Construct.alt arms).exprs)
    (hmay : ∀ arm ∈ arms, I.May depth (owners state.frames) arm.body) :
    I.Keeps state (choices setting visit node arms) fun ts last =>
      last.buckets = state.buckets ∧ ∀ t ∈ ts, I.Fits last.minted last.frames t := by
  induction arms generalizing state with
  | nil => exact keeps_pure hstate ⟨rfl, by simp⟩
  | cons arm arms ih =>
      obtain ⟨harm, harms⟩ := List.forall_mem_cons.1 hmay
      have hrest : I.Asks (Construct.alt arms).exprs := fun expr hexpr => hasks expr <| by
        obtain ⟨other, hother, hexpr⟩ := List.mem_flatMap.1 hexpr
        exact List.mem_flatMap.2 ⟨other, List.mem_cons_of_mem _ hother, hexpr⟩
      refine (keeps_disabled hstate fun expr hexpr => hasks expr <|
        List.mem_flatMap.2 ⟨arm, List.mem_cons_self, List.mem_append_left _ hexpr⟩).bind
        fun off mid _ _ hpost => ?_
      obtain rfl := hpost
      split
      case isTrue => exact ih hstate hbuckets hrest harms
      case isFalse =>
        have htrigger : ∀ expr, arm.trigger = .input expr → I.Asks [expr] := by
          intro expr heq other hother
          refine hasks other <| List.mem_flatMap.2
            ⟨arm, List.mem_cons_self, List.mem_append_right _ ?_⟩
          rw [heq]
          exact hother
        refine (keeps_ready hvisit hstate hbuckets node htrigger harm).bind
          fun choice mid hmid hlater hpost => ?_
        obtain ⟨hsame, hchoice⟩ := hpost
        refine (ih hmid (hsame ▸ hbuckets) hrest (hlater.owners ▸ harms)).bind
          fun ts last hlast hlater hpost => ?_
        refine keeps_pure hlast ⟨hpost.1.trans hsame, ?_⟩
        exact List.forall_mem_cons.2 ⟨fits_later hlater hchoice, hpost.2⟩

theorem keeps_alt {arms : List AltArm} (hasks : I.Asks (Construct.alt arms).exprs)
    (hmay : ∀ arm ∈ arms, I.May depth (owners state.frames) arm.body) :
    I.Keeps state (alt setting visit node arms) fun _ last =>
      Offers state.buckets last.buckets := by
  refine (keeps_choices hvisit hstate hbuckets node hasks hmay).bind fun ts mid hmid _ hpost => ?_
  split
  case h_1 => exact keeps_offer hmid hbuckets hpost.1 node I.stop
  case h_2 => exact keeps_offer hmid hbuckets hpost.1 node (I.comp .det hpost.2)

end Constructs

end ProcessContracts.Walk.Invariant
