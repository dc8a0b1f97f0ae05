import Mathlib.Data.List.Forall2
import ProcessContracts.Handle

/-!
# Computations with a state

A computation with a state and failures, taken apart where it succeeds: which of its steps ran, from
which state and with which answer. What it comes to whether it succeeds or not. And two computations
side by side that agree in everything but how their states and answers are written.
-/

namespace ProcessContracts

variable {ε σ α β : Type} {s s' : σ}

theorem exists_related_of_mem {R : α → β → Prop} {as : List α} {bs : List β}
    (h : List.Forall₂ R as bs) {a : α} (ha : a ∈ as) : ∃ b ∈ bs, R a b := by
  induction h with
  | nil => cases ha
  | cons h _ ih =>
      rcases List.mem_cons.1 ha with rfl | ha
      · exact ⟨_, List.mem_cons_self, h⟩
      · obtain ⟨b, hb, h⟩ := ih ha
        exact ⟨b, List.mem_cons_of_mem _ hb, h⟩

theorem bind_eq_ok {x : EStateM ε σ α} {f : α → EStateM ε σ β} {b : β} :
    (x >>= f).run s = .ok b s' ↔ ∃ a mid, x.run s = .ok a mid ∧ (f a).run mid = .ok b s' := by
  change EStateM.bind x f s = _ ↔ _
  unfold EStateM.bind
  constructor
  · intro h
    split at h
    case h_1 a mid hx => exact ⟨a, mid, hx, h⟩
    case h_2 => cases h
  · rintro ⟨a, mid, hx, h⟩
    rw [show x s = .ok a mid from hx]
    exact h

theorem pure_eq_ok {a b : α} : (pure a : EStateM ε σ α).run s = .ok b s' ↔ a = b ∧ s = s' := by
  change EStateM.Result.ok a s = _ ↔ _
  simp

theorem get_eq_ok {a : σ} : (get : EStateM ε σ σ).run s = .ok a s' ↔ s = a ∧ s = s' := by
  change EStateM.Result.ok s s = _ ↔ _
  simp

theorem set_eq_ok {new : σ} {u : PUnit} :
    (set new : EStateM ε σ PUnit).run s = .ok u s' ↔ new = s' := by
  change EStateM.Result.ok _ new = _ ↔ _
  simp

theorem modify_eq_ok {f : σ → σ} {u : PUnit} :
    (modify f : EStateM ε σ PUnit).run s = .ok u s' ↔ f s = s' := by
  change EStateM.Result.ok _ (f s) = _ ↔ _
  simp

theorem modifyGet_eq_ok {f : σ → α × σ} {a : α} :
    (modifyGet f : EStateM ε σ α).run s = .ok a s' ↔ f s = (a, s') := by
  change EStateM.Result.ok (f s).1 (f s).2 = _ ↔ _
  rw [EStateM.Result.ok.injEq, Prod.ext_iff]

theorem throw_ne_ok {e : ε} {a : α} : (throw e : EStateM ε σ α).run s ≠ .ok a s' := by
  intro h
  cases h

/-! ## What a computation comes to -/

/-- From the state the computation comes to an answer as wanted, or to a failure as allowed. -/
def ComesTo (s : σ) (m : EStateM ε σ α) (wanted : α → σ → Prop) (allowed : ε → σ → Prop) : Prop :=
  match m.run s with
  | .ok a s' => wanted a s'
  | .error e s' => allowed e s'

section ComesTo

variable {m : EStateM ε σ α} {wanted wanted' : α → σ → Prop} {allowed allowed' : ε → σ → Prop}

theorem ComesTo.of_ok {a : α} (h : ComesTo s m wanted allowed) (hrun : m.run s = .ok a s') :
    wanted a s' := by
  unfold ComesTo at h
  rwa [hrun] at h

theorem ComesTo.of_error {e : ε} (h : ComesTo s m wanted allowed) (hrun : m.run s = .error e s') :
    allowed e s' := by
  unfold ComesTo at h
  rwa [hrun] at h

/-- It is enough to know what comes of the second computation where the first one has answered. -/
theorem ComesTo.bind {f : α → EStateM ε σ β} {next : β → σ → Prop} (h : ComesTo s m wanted allowed)
    (hf : ∀ a mid, m.run s = .ok a mid → wanted a mid → ComesTo mid (f a) next allowed) :
    ComesTo s (m >>= f) next allowed := by
  unfold ComesTo
  change match EStateM.bind m f s with
    | .ok b s' => next b s'
    | .error e s' => allowed e s'
  unfold EStateM.bind
  cases hrun : m s with
  | ok a mid => exact hf a mid hrun (h.of_ok hrun)
  | error e mid => exact h.of_error hrun

theorem ComesTo.get_bind {f : σ → EStateM ε σ β} {next : β → σ → Prop}
    (h : ComesTo s (f s) next allowed) : ComesTo s (get >>= f) next allowed := h

theorem ComesTo.imp (h : ComesTo s m wanted allowed)
    (hok : ∀ a s', m.run s = .ok a s' → wanted a s' → wanted' a s')
    (herror : ∀ e s', allowed e s' → allowed' e s') : ComesTo s m wanted' allowed' := by
  unfold ComesTo
  cases hrun : m.run s with
  | ok a s' => exact hok a s' hrun (h.of_ok hrun)
  | error e s' => exact herror e s' (h.of_error hrun)

end ComesTo

/-! ## Side by side -/

section Alongside

variable {τ γ δ : Type} {R : σ → τ → Prop} {rel : α → β → Prop} {next : γ → δ → Prop}
  {m : EStateM ε σ α} {m' : EStateM ε τ β}

/-- Both ends are answers that are related, or both are the same failure. -/
def Ends (R : σ → τ → Prop) (rel : α → β → Prop) :
    EStateM.Result ε σ α → EStateM.Result ε τ β → Prop
  | .ok a s, .ok b t => rel a b ∧ R s t
  | .error e s, .error e' t => e' = e ∧ R s t
  | _, _ => False

/-- From related states both computations end alike, in related states. -/
def Alongside (R : σ → τ → Prop) (rel : α → β → Prop) (m : EStateM ε σ α) (m' : EStateM ε τ β) :
    Prop :=
  ∀ s t, R s t → Ends R rel (m.run s) (m'.run t)

theorem alongside_pure {a : α} {b : β} (h : rel a b) :
    Alongside R rel (pure a : EStateM ε σ α) (pure b) := fun _ _ hst => ⟨h, hst⟩

theorem alongside_throw (e : ε) : Alongside R rel (throw e : EStateM ε σ α) (throw e) :=
  fun _ _ hst => ⟨rfl, hst⟩

theorem Alongside.bind {k : α → EStateM ε σ γ} {k' : β → EStateM ε τ δ} (h : Alongside R rel m m')
    (hk : ∀ a b, rel a b → Alongside R next (k a) (k' b)) :
    Alongside R next (m >>= k) (m' >>= k') := by
  intro s t hst
  have hm := h s t hst
  change Ends R next (EStateM.bind m k s) (EStateM.bind m' k' t)
  unfold EStateM.run at hm
  unfold EStateM.bind
  cases hrun : m s with
  | ok a mid =>
      cases hrun' : m' t with
      | ok b mid' =>
          rw [hrun, hrun'] at hm
          exact hk a b hm.1 mid mid' hm.2
      | error =>
          rw [hrun, hrun'] at hm
          exact hm.elim
  | error e mid =>
      cases hrun' : m' t with
      | ok =>
          rw [hrun, hrun'] at hm
          exact hm.elim
      | error e' mid' =>
          rw [hrun, hrun'] at hm
          exact hm

/-- Both computations look at the states they are in. -/
theorem alongside_get {k : σ → EStateM ε σ α} {k' : τ → EStateM ε τ β}
    (h : ∀ s t, R s t → Ends R rel ((k s).run s) ((k' t).run t)) :
    Alongside R rel (get >>= k) (get >>= k') := h

theorem alongside_modify {g : σ → σ} {g' : τ → τ} (h : ∀ s t, R s t → R (g s) (g' t)) :
    Alongside R Eq (modify g : EStateM ε σ PUnit) (modify g') := fun s t hst => ⟨rfl, h s t hst⟩

end Alongside

namespace Lookup

theorem bind_eq_ok {x : Lookup α} {f : α → Lookup β} {b : β} :
    (x >>= f) = .ok b ↔ ∃ a, x = .ok a ∧ f a = .ok b := by
  cases x with
  | ok a =>
      constructor
      · exact fun h => ⟨a, rfl, h⟩
      · rintro ⟨_, ⟨⟩, h⟩
        exact h
  | error fault =>
      constructor
      · intro h
        cases h
      · rintro ⟨_, ⟨⟩, -⟩

theorem bind_eq_error {x : Lookup α} {f : α → Lookup β} {fault : Fault} :
    (x >>= f) = .error fault ↔ x = .error fault ∨ ∃ a, x = .ok a ∧ f a = .error fault := by
  cases x with
  | ok a =>
      constructor
      · exact fun h => .inr ⟨a, rfl, h⟩
      · rintro (h | ⟨_, ⟨⟩, h⟩)
        · cases h
        · exact h
  | error other =>
      constructor
      · intro h
        cases h
        exact .inl rfl
      · rintro (h | ⟨_, h, -⟩)
        · cases h
          rfl
        · cases h

theorem exists_of_mem_mapM {f : α → Lookup β} {l : List α} {l' : List β}
    (h : l.mapM f = .ok l') {b : β} (hb : b ∈ l') : ∃ a ∈ l, f a = .ok b := by
  induction l generalizing l' with
  | nil =>
      obtain rfl := Except.ok.inj h
      cases hb
  | cons a l ih =>
      rw [List.mapM_cons] at h
      obtain ⟨b', hb', h⟩ := bind_eq_ok.1 h
      obtain ⟨l'', hl, h⟩ := bind_eq_ok.1 h
      obtain rfl := Except.ok.inj h
      rcases List.mem_cons.1 hb with rfl | hb
      · exact ⟨a, List.mem_cons_self, hb'⟩
      · obtain ⟨a', ha', h⟩ := ih hl hb
        exact ⟨a', List.mem_cons_of_mem _ ha', h⟩

/-- Queries that are made one after the other meet a fault at one of them. -/
theorem exists_error_of_mapM {f : α → Lookup β} {l : List α} {fault : Fault}
    (h : l.mapM f = .error fault) : ∃ a ∈ l, f a = .error fault := by
  induction l with
  | nil => cases h
  | cons a l ih =>
      rw [List.mapM_cons] at h
      rcases bind_eq_error.1 h with h | ⟨b, -, h⟩
      · exact ⟨a, List.mem_cons_self, h⟩
      · rcases bind_eq_error.1 h with h | ⟨bs, -, h⟩
        · obtain ⟨a', ha', h⟩ := ih h
          exact ⟨a', List.mem_cons_of_mem _ ha', h⟩
        · cases h

/-- A query that is made of every element meets a fault at one of them. -/
theorem exists_error_of_forM {query : α → Lookup β} {l : List α} {fault : Fault}
    (h : (l.forM fun a => discard (query a)) = .error fault) : ∃ a ∈ l, query a = .error fault := by
  induction l with
  | nil => cases h
  | cons a l ih =>
      rcases bind_eq_error.1 h with h | ⟨_, -, h⟩
      · refine ⟨a, List.mem_cons_self, ?_⟩
        cases hquery : query a with
        | ok b =>
            simp only [hquery] at h
            cases h
        | error fault' =>
            simp only [hquery] at h
            cases h
            rfl
      · obtain ⟨a', ha', h⟩ := ih h
        exact ⟨a', List.mem_cons_of_mem _ ha', h⟩

/-- A query that was made of every element has answered every one of them. -/
theorem answered_of_forM {query : α → Lookup β} {l : List α} {u : PUnit}
    (h : (l.forM fun a => discard (query a)) = .ok u) : ∀ a ∈ l, ∃ b, query a = .ok b := by
  induction l with
  | nil => simp
  | cons a l ih =>
      obtain ⟨_, ha, hl⟩ := bind_eq_ok.1 h
      refine List.forall_mem_cons.2 ⟨?_, ih hl⟩
      cases hquery : query a with
      | ok b => exact ⟨b, rfl⟩
      | error fault =>
          simp only [hquery] at ha
          cases ha

/-- The query has an answer, and one as wanted. -/
def Answers (query : Lookup α) (wanted : α → Prop) : Prop := ∃ a, query = .ok a ∧ wanted a

theorem answers_pure {a : α} {wanted : α → Prop} (h : wanted a) : Answers (pure a) wanted :=
  ⟨a, rfl, h⟩

theorem Answers.bind {query : Lookup α} {f : α → Lookup β} {wanted : α → Prop} {next : β → Prop}
    (h : Answers query wanted) (hf : ∀ a, wanted a → Answers (f a) next) :
    Answers (query >>= f) next := by
  obtain ⟨a, rfl, ha⟩ := h
  exact hf a ha

theorem Answers.ne_error {query : Lookup α} {wanted : α → Prop} (h : Answers query wanted)
    (fault : Fault) : query ≠ .error fault := by
  obtain ⟨a, rfl, -⟩ := h
  exact fun h => by cases h

theorem answers_mapM {f : α → Lookup β} {l : List α} {wanted : β → Prop}
    (h : ∀ a ∈ l, Answers (f a) wanted) : Answers (l.mapM f) fun bs => ∀ b ∈ bs, wanted b := by
  induction l with
  | nil => exact ⟨[], rfl, by simp⟩
  | cons a l ih =>
      obtain ⟨ha, hl⟩ := List.forall_mem_cons.1 h
      rw [List.mapM_cons]
      exact ha.bind fun b hb => (ih hl).bind fun bs hbs =>
        answers_pure (List.forall_mem_cons.2 ⟨hb, hbs⟩)

theorem answers_forM {query : α → Lookup β} {l : List α} {wanted : β → Prop}
    (h : ∀ a ∈ l, Answers (query a) wanted) :
    Answers (l.forM fun a => discard (query a)) fun _ => True := by
  induction l with
  | nil => exact ⟨⟨⟩, rfl, trivial⟩
  | cons a l ih =>
      obtain ⟨⟨b, hb, -⟩, hl⟩ := List.forall_mem_cons.1 h
      have hquery : Answers (discard (query a)) fun _ => True := ⟨⟨⟩, by rw [hb]; rfl, trivial⟩
      exact hquery.bind fun _ _ => ih hl

end Lookup

end ProcessContracts
