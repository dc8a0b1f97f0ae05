import ProcessContracts.Proofs.Scoping
import ProcessContracts.Proofs.WellFormed

/-!
# How a contract binds its variables

A path leads into a contract and into the trace it is lowered to alike. Of two paths the one that
comes first in the order of lists leads to what is written further left.
-/

namespace ProcessContracts

variable {program : Program} {decl : DeclId} {op : Operator} {name x : String} {i : Nat}
  {path : List Nat}

namespace Trace

variable {t u : Trace} {ts : List Trace}

def child? : Trace → Nat → Option Trace
  | .comp _ children, i => children[i]?
  | .fix _ body, 0 => some body
  | _, _ => none

/-- The part a path leads to. -/
def part? (t : Trace) : List Nat → Option Trace
  | [] => some t
  | i :: path => (t.child? i).bind fun child => child.part? path

mutual

/-- The atoms a trace binds, in the order its binders are written. -/
def binders : Trace → List Atom
  | .comp _ children => bindersAll children
  | .fix binder body => binder :: binders body
  | _ => []

def bindersAll : List Trace → List Atom
  | [] => []
  | t :: ts => binders t ++ bindersAll ts

end

@[simp] theorem part?_nil : t.part? [] = some t := rfl

@[simp] theorem part?_cons :
    t.part? (i :: path) = (t.child? i).bind fun child => child.part? path := rfl

@[simp] theorem child?_comp_zero : (comp op (t :: ts)).child? 0 = some t := rfl

@[simp] theorem child?_comp_succ : (comp op (t :: ts)).child? (i + 1) = (comp op ts).child? i := rfl

@[simp] theorem child?_fix {binder : Atom} : (fix binder t).child? 0 = some t := rfl

end Trace

theorem Binders.find?_cons {atom : Atom} {binders : Binders} :
    Binders.find? ((x, atom) :: binders) name =
      if x = name then some atom else binders.find? name := by
  unfold Binders.find?
  by_cases h : x = name <;> simp [h]

theorem Binders.find?_cons_eq_none {atom : Atom} {binders : Binders} :
    Binders.find? ((x, atom) :: binders) name = none ↔ x ≠ name ∧ binders.find? name = none := by
  rw [Binders.find?_cons]
  split <;> simp [*]

namespace Contract

variable {c child body : Contract} {cs : List Contract} {outer : List Nat}

def child? : Contract → Nat → Option Contract
  | .comp _ children, i => children[i]?
  | .recursion _ body, 0 => some body
  | _, _ => none

/-- The part a path leads to. -/
def part? (c : Contract) : List Nat → Option Contract
  | [] => some c
  | i :: path => (c.child? i).bind fun child => child.part? path

@[simp] theorem part?_nil : c.part? [] = some c := rfl

@[simp] theorem part?_cons :
    c.part? (i :: path) = (c.child? i).bind fun child => child.part? path := rfl

@[simp] theorem child?_comp_nil : (comp op []).child? i = none := rfl

@[simp] theorem child?_comp_zero : (comp op (c :: cs)).child? 0 = some c := rfl

@[simp] theorem child?_comp_succ : (comp op (c :: cs)).child? (i + 1) = (comp op cs).child? i := rfl

@[simp] theorem child?_recursion_zero : (recursion x body).child? 0 = some body := rfl

@[simp] theorem child?_recursion_succ : (recursion x body).child? (i + 1) = none := rfl

/-! ## The binder of a variable -/

/-- What the path leads to stands below a `rec` of that name. -/
def Encloses (c : Contract) (name : String) (path : List Nat) : Prop :=
  ∃ outer inner body, path = outer ++ 0 :: inner ∧ c.part? outer = some (.recursion name body)

/-- The path leads to a variable of that name below no `rec` of it. -/
def Unbound (c : Contract) (name : String) (path : List Nat) : Prop :=
  c.part? path = some (.var name) ∧ ¬ c.Encloses name path

/-- Of the `rec`s around a variable that have its name, the one at `outer` is the innermost. -/
def Binds (c : Contract) (outer path : List Nat) : Prop :=
  ∃ name body inner, path = outer ++ 0 :: inner ∧ c.part? outer = some (.recursion name body) ∧
    body.Unbound name inner

theorem not_encloses_nil : ¬ c.Encloses name [] := by
  rintro ⟨outer, inner, body, h, -⟩
  simp at h

theorem encloses_cons : c.Encloses name (i :: path) ↔
    (i = 0 ∧ ∃ body, c = .recursion name body) ∨
      ∃ child, c.child? i = some child ∧ child.Encloses name path := by
  constructor
  · rintro ⟨_ | ⟨j, outer⟩, inner, body, hpath, hpart⟩
    · exact .inl ⟨(List.cons.inj hpath).1, body, Option.some.inj hpart⟩
    · obtain ⟨rfl, rfl⟩ := List.cons.inj hpath
      obtain ⟨child, hchild, hpart⟩ := Option.bind_eq_some_iff.1 hpart
      exact .inr ⟨child, hchild, outer, inner, body, rfl, hpart⟩
  · rintro (⟨rfl, body, rfl⟩ | ⟨child, hchild, outer, inner, body, rfl, hpart⟩)
    · exact ⟨[], path, body, rfl, rfl⟩
    · exact ⟨i :: outer, inner, body, rfl, by simp [hchild, hpart]⟩

theorem unbound_nil : c.Unbound name [] ↔ c = .var name := by
  simp [Unbound, not_encloses_nil]

theorem unbound_cons : c.Unbound name (i :: path) ↔
    (∀ body, i = 0 → c ≠ .recursion name body) ∧
      ∃ child, c.child? i = some child ∧ child.Unbound name path := by
  rw [Unbound, encloses_cons, part?_cons]
  cases hchild : c.child? i with
  | none => simp
  | some child => simp [Unbound]; tauto

theorem unbound_comp_zero :
    (comp op (c :: cs)).Unbound name (0 :: path) ↔ c.Unbound name path := by simp [unbound_cons]

theorem unbound_comp_succ : (comp op (c :: cs)).Unbound name ((i + 1) :: path) ↔
    (comp op cs).Unbound name (i :: path) := by simp [unbound_cons]

theorem unbound_recursion_zero :
    (recursion x body).Unbound name (0 :: path) ↔ x ≠ name ∧ body.Unbound name path := by
  simp [unbound_cons]

theorem not_unbound_recursion_succ : ¬ (recursion x body).Unbound name ((i + 1) :: path) := by
  simp [unbound_cons]

theorem Binds.cons (h : child.Binds outer path) (hchild : c.child? i = some child) :
    c.Binds (i :: outer) (i :: path) := by
  obtain ⟨name, body, inner, rfl, hpart, hinner⟩ := h
  exact ⟨name, body, inner, rfl, by simpa [hchild] using hpart, hinner⟩

theorem Binds.comp_succ (h : (comp op cs).Binds outer (i :: path)) :
    ∃ inner, outer = i :: inner ∧
      (comp op (c :: cs)).Binds ((i + 1) :: inner) ((i + 1) :: path) := by
  obtain ⟨name, body, inner, hpath, hpart, hinner⟩ := h
  obtain _ | ⟨j, outer⟩ := outer
  · cases hpart
  · obtain ⟨rfl, rfl⟩ := List.cons.inj hpath
    exact ⟨outer, rfl, name, body, inner, rfl, hpart, hinner⟩

/-! ## Success, and the variable reported -/

/-- Every channel resolves, and a variable without a binder in the contract has one around it. -/
structure Fine (program : Program) (binders : Binders) (c : Contract) : Prop where
  channels : ∀ id ∈ c.channels, ∃ chan, ChanRef.ofExpr program id = .ok chan
  bound : ∀ {name path}, c.Unbound name path → binders.find? name ≠ none

/-- The variable is the leftmost without a binder in the contract or around it. -/
def Wrong (binders : Binders) (c : Contract) (name : String) : Prop :=
  ∃ path, c.Unbound name path ∧ binders.find? name = none ∧
    ∀ other path', c.Unbound other path' → binders.find? other = none →
      ¬ List.Lex (· < ·) path' path

variable {binders : Binders} {atom : Atom}

theorem lex_cons {path' : List Nat} :
    List.Lex (· < ·) (i :: path) (i :: path') ↔ List.Lex (· < ·) path path' := by
  simp [List.cons_lex_cons_iff]

theorem lex_succ {path' : List Nat} {j : Nat} :
    List.Lex (· < ·) ((i + 1) :: path) ((j + 1) :: path') ↔
      List.Lex (· < ·) (i :: path) (j :: path') := by
  simp [List.cons_lex_cons_iff]

theorem fine_leaf (hchannels : ∀ id ∈ c.channels, ∃ chan, ChanRef.ofExpr program id = .ok chan)
    (hleaf : ∀ i, c.child? i = none)
    (hvar : ∀ name, c = .var name → binders.find? name ≠ none) : Fine program binders c where
  channels := hchannels
  bound {name path} h := by
    cases path with
    | nil => exact hvar name (unbound_nil.1 h)
    | cons i path =>
        obtain ⟨-, child, hchild, -⟩ := unbound_cons.1 h
        simp [hleaf] at hchild

theorem Fine.recursion (h : Fine program ((x, atom) :: binders) body) :
    Fine program binders (.recursion x body) where
  channels := h.channels
  bound {name path} hunbound := by
    obtain _ | ⟨_ | i, path⟩ := path
    · cases unbound_nil.1 hunbound
    · obtain ⟨hne, hbody⟩ := unbound_recursion_zero.1 hunbound
      exact fun hnone => h.bound hbody (Binders.find?_cons_eq_none.2 ⟨hne, hnone⟩)
    · cases not_unbound_recursion_succ hunbound

theorem Fine.cons (hc : Fine program binders c) (hcs : Fine program binders (.comp op cs)) :
    Fine program binders (.comp op (c :: cs)) where
  channels := List.forall_mem_append.2 ⟨hc.channels, hcs.channels⟩
  bound {name path} hunbound := by
    obtain _ | ⟨_ | i, path⟩ := path
    · cases unbound_nil.1 hunbound
    · exact hc.bound (unbound_comp_zero.1 hunbound)
    · exact hcs.bound (unbound_comp_succ.1 hunbound)

theorem Wrong.recursion (h : Wrong ((x, atom) :: binders) body name) :
    Wrong binders (.recursion x body) name := by
  obtain ⟨path, hunbound, hnone, hleast⟩ := h
  obtain ⟨hne, hnone⟩ := Binders.find?_cons_eq_none.1 hnone
  refine ⟨0 :: path, unbound_recursion_zero.2 ⟨hne, hunbound⟩, hnone, fun other path' h hnone => ?_⟩
  obtain _ | ⟨_ | i, path'⟩ := path'
  · cases unbound_nil.1 h
  · obtain ⟨hne, hbody⟩ := unbound_recursion_zero.1 h
    exact fun hlex => hleast other path' hbody (Binders.find?_cons_eq_none.2 ⟨hne, hnone⟩)
      (lex_cons.1 hlex)
  · cases not_unbound_recursion_succ h

theorem Wrong.head (h : Wrong binders c name) : Wrong binders (.comp op (c :: cs)) name := by
  obtain ⟨path, hunbound, hnone, hleast⟩ := h
  refine ⟨0 :: path, unbound_comp_zero.2 hunbound, hnone, fun other path' h hnone => ?_⟩
  obtain _ | ⟨_ | i, path'⟩ := path'
  · cases unbound_nil.1 h
  · exact fun hlex => hleast other path' (unbound_comp_zero.1 h) hnone (lex_cons.1 hlex)
  · exact fun hlex => nomatch hlex

theorem Wrong.tail (hc : Fine program binders c) (h : Wrong binders (.comp op cs) name) :
    Wrong binders (.comp op (c :: cs)) name := by
  obtain ⟨_ | ⟨j, path⟩, hunbound, hnone, hleast⟩ := h
  · cases unbound_nil.1 hunbound
  refine ⟨(j + 1) :: path, unbound_comp_succ.2 hunbound, hnone, fun other path' h hnone => ?_⟩
  obtain _ | ⟨_ | i, path'⟩ := path'
  · cases unbound_nil.1 h
  · exact absurd hnone (hc.bound (unbound_comp_zero.1 h))
  · exact fun hlex => hleast other _ (unbound_comp_succ.1 h) hnone (lex_succ.1 hlex)

variable {supply last : AtomSupply}

/-- What is lowered is fine. -/
theorem Lowered.fine {t : Trace} (h : Lowered program decl binders supply c t last) :
    Fine program binders c := by
  induction h with
  | event _ hchan =>
      exact fine_leaf (List.forall_mem_singleton.2 ⟨_, hchan⟩) (fun _ => rfl) nofun
  | cons _ _ ihhead ihtail => exact ihhead.cons ihtail
  | recursion _ _ ih => exact ih.recursion
  | var hfind =>
      refine fine_leaf (List.forall_mem_nil _) (fun _ => rfl) ?_
      rintro _ ⟨rfl⟩
      simp [hfind]
  | _ => exact fine_leaf (List.forall_mem_nil _) (fun _ => rfl) nofun

/-- What a lowering reports is wrong. -/
theorem Refused.wrong {error : LoweringError}
    (h : Refused program decl binders supply c error last) (herror : error = .unbound name) :
    Wrong binders c name := by
  induction h with
  | channel => cases herror
  | head _ ih => exact (ih herror).head
  | tail hhead _ ih => exact (ih herror).tail hhead.fine
  | recursion _ _ ih => exact (ih herror).recursion
  | var hfind =>
      obtain rfl := LoweringError.unbound.inj herror
      exact ⟨[], unbound_nil.2 rfl, hfind, fun _ path' _ _ => nofun⟩

/-! ## Where the binders and references of the trace stand -/

/-- The trace has at its root what the contract has. -/
def Mirrors (program : Program) : Contract → Trace → Prop
  | .skip, .skip | .stop, .stop | .div, .div | .chaos, .chaos => True
  | .event direction channel, .event direction' chan =>
      direction = direction' ∧ ChanRef.ofExpr program channel = .ok chan
  | .comp op children, .comp op' children' => op = op' ∧ children.length = children'.length
  | .recursion _ _, .fix _ _ | .var _, .ref _ => True
  | _, _ => False

/-- The trace has the shape of the contract. What is a variable in the contract is a reference to
the binder that stands where the contract has the variable's, or else to the one around it. -/
structure Linked (program : Program) (binders : Binders) (c : Contract) (t : Trace) : Prop where
  shape : ∀ path part, c.part? path = some part →
    ∃ u, t.part? path = some u ∧ part.Mirrors program u
  link : ∀ path name, c.part? path = some (.var name) → ∃ atom : Atom,
    t.part? path = some (.ref atom.id) ∧
      ((∃ outer body, c.Binds outer path ∧ t.part? outer = some (.fix atom body)) ∨
        c.Unbound name path ∧ binders.find? name = some atom)

variable {t u : Trace} {ts : List Trace} {supply supply' : AtomSupply}

theorem linked_leaf (hleaf : ∀ i, c.child? i = none) (hroot : c.Mirrors program t)
    (hvar : ∀ name, c = .var name → ∃ atom, t = .ref atom.id ∧ binders.find? name = some atom) :
    Linked program binders c t where
  shape path part hpart := by
    cases path with
    | nil => exact ⟨t, rfl, Option.some.inj hpart ▸ hroot⟩
    | cons i path => simp [hleaf] at hpart
  link path name hpart := by
    cases path with
    | nil =>
        obtain rfl := Option.some.inj hpart
        obtain ⟨atom, rfl, hfind⟩ := hvar name rfl
        exact ⟨atom, rfl, .inr ⟨unbound_nil.2 rfl, hfind⟩⟩
    | cons i path => simp [hleaf] at hpart

theorem Linked.recursion (h : Linked program ((x, atom) :: binders) body u) :
    Linked program binders (.recursion x body) (.fix atom u) where
  shape path part hpart := by
    obtain _ | ⟨_ | i, path⟩ := path
    · obtain rfl := Option.some.inj hpart
      exact ⟨_, rfl, trivial⟩
    · exact h.shape path part hpart
    · cases hpart
  link path name hpart := by
    obtain _ | ⟨_ | i, path⟩ := path
    · cases hpart
    · obtain ⟨target, href, ⟨outer, rest, hbinds, hfix⟩ | ⟨hunbound, hfind⟩⟩ :=
        h.link path name hpart
      · exact ⟨target, href, .inl ⟨0 :: outer, rest, hbinds.cons rfl, hfix⟩⟩
      · rw [Binders.find?_cons] at hfind
        split at hfind
        case isTrue heq =>
          obtain rfl := Option.some.inj hfind
          exact ⟨atom, href, .inl ⟨[], u, ⟨x, body, path, rfl, rfl, heq ▸ hunbound⟩, rfl⟩⟩
        case isFalse hne =>
          exact ⟨target, href, .inr ⟨unbound_recursion_zero.2 ⟨hne, hunbound⟩, hfind⟩⟩
    · cases hpart

theorem Linked.cons (hc : Linked program binders c t)
    (hcs : Linked program binders (.comp op cs) (.comp op ts)) :
    Linked program binders (.comp op (c :: cs)) (.comp op (t :: ts)) where
  shape path part hpart := by
    obtain _ | ⟨_ | i, path⟩ := path
    · obtain rfl := Option.some.inj hpart
      obtain ⟨u, hu, hmirrors⟩ := hcs.shape [] _ rfl
      obtain rfl := Option.some.inj hu
      exact ⟨_, rfl, rfl, congrArg Nat.succ hmirrors.2⟩
    · exact hc.shape path part hpart
    · exact hcs.shape (i :: path) part hpart
  link path name hpart := by
    obtain _ | ⟨_ | i, path⟩ := path
    · cases hpart
    · obtain ⟨target, href, h⟩ := hc.link path name hpart
      refine ⟨target, href, h.imp ?_ (And.imp_left unbound_comp_zero.2)⟩
      rintro ⟨outer, rest, hbinds, hfix⟩
      exact ⟨0 :: outer, rest, hbinds.cons rfl, hfix⟩
    · obtain ⟨target, href, h⟩ := hcs.link (i :: path) name hpart
      refine ⟨target, href, h.imp ?_ (And.imp_left unbound_comp_succ.2)⟩
      rintro ⟨outer, rest, hbinds, hfix⟩
      obtain ⟨outer, rfl, hbinds⟩ := hbinds.comp_succ
      exact ⟨(i + 1) :: outer, rest, hbinds, hfix⟩

theorem Lowered.linked (h : Lowered program decl binders supply c t supply') :
    Linked program binders c t := by
  induction h with
  | event direction hchan => exact linked_leaf (fun _ => rfl) ⟨rfl, hchan⟩ nofun
  | nil op => exact linked_leaf (fun _ => rfl) ⟨rfl, rfl⟩ nofun
  | cons _ _ ihhead ihtail => exact ihhead.cons ihtail
  | recursion _ _ ih => exact ih.recursion
  | var hfind =>
      refine linked_leaf (fun _ => rfl) trivial ?_
      rintro _ ⟨rfl⟩
      exact ⟨_, rfl, hfind⟩
  | _ => exact linked_leaf (fun _ => rfl) trivial nofun

/-- As many atoms for binders of a contract of `decl`, the first with the number `n`. -/
def numbered (decl : DeclId) (n count : Nat) : List Atom :=
  (List.range' n count).map fun i => ⟨⟨i⟩, .contract decl⟩

theorem numbered_append (n count count' : Nat) : numbered decl n (count + count') =
    numbered decl n count ++ numbered decl (n + count) count' := by
  unfold numbered
  rw [← List.range'_append_1, List.map_append]

theorem Lowered.numbered (h : Lowered program decl binders supply c t supply') :
    supply'.minted = supply.minted + t.binders.length ∧
      t.binders = Contract.numbered decl supply.minted t.binders.length := by
  induction h with
  | cons _ _ ihhead ihtail =>
      obtain ⟨hmid, hfirst⟩ := ihhead
      obtain ⟨hlast, hrest⟩ := ihtail
      rw [Trace.binders] at hlast hrest ⊢
      rw [Trace.bindersAll, List.length_append]
      refine ⟨by omega, ?_⟩
      rw [numbered_append, ← hmid, ← hfirst, ← hrest]
  | recursion hmint _ ih =>
      obtain ⟨rfl, rfl⟩ := Prod.ext_iff.1 hmint
      obtain ⟨hminted, hbinders⟩ := ih
      exact ⟨by rw [hminted]; exact Nat.add_right_comm _ 1 _, congrArg (_ :: ·) hbinders⟩
  | _ => exact ⟨rfl, rfl⟩

/-! ## Other names -/

/-- What two variables mean below binders of these names, the innermost pair first: the same binder,
or the same name where neither has one. -/
def SameBinder : List (String × String) → String → String → Prop
  | [], x, y => x = y
  | (a, b) :: pairs, x, y => (a = x ∧ b = y) ∨ (a ≠ x ∧ b ≠ y ∧ SameBinder pairs x y)

mutual

/-- The one contract is the other with other names for its `rec`s, below binders of these names. -/
def Renames (pairs : List (String × String)) : Contract → Contract → Prop
  | .skip, .skip | .stop, .stop | .div, .div | .chaos, .chaos => True
  | .event direction channel, .event direction' channel' =>
      direction = direction' ∧ channel = channel'
  | .comp op children, .comp op' children' => op = op' ∧ RenamesAll pairs children children'
  | .recursion x body, .recursion y body' => Renames ((x, y) :: pairs) body body'
  | .var x, .var y => SameBinder pairs x y
  | _, _ => False

def RenamesAll (pairs : List (String × String)) : List Contract → List Contract → Prop
  | [], [] => True
  | c :: cs, c' :: cs' => Renames pairs c c' ∧ RenamesAll pairs cs cs'
  | _, _ => False

end

/-- Two contracts below the same binders, each with names of its own for them. -/
abbrev Scopes := List ((String × String) × Atom)

def Scopes.lefts (scopes : Scopes) : Binders := scopes.map fun ((x, _), atom) => (x, atom)

def Scopes.rights (scopes : Scopes) : Binders := scopes.map fun ((_, y), atom) => (y, atom)

theorem find?_of_sameBinder {scopes : Scopes} {y : String}
    (h : SameBinder (scopes.map Prod.fst) x y) :
    scopes.lefts.find? x = scopes.rights.find? y ∧ (scopes.lefts.find? x = none → x = y) := by
  induction scopes with
  | nil => exact ⟨rfl, fun _ => h⟩
  | cons scope scopes ih =>
      obtain ⟨⟨a, b⟩, atom⟩ := scope
      change Binders.find? ((a, atom) :: Scopes.lefts scopes) x =
          Binders.find? ((b, atom) :: Scopes.rights scopes) y ∧
        (Binders.find? ((a, atom) :: Scopes.lefts scopes) x = none → x = y)
      rw [Binders.find?_cons, Binders.find?_cons]
      obtain ⟨rfl, rfl⟩ | ⟨ha, hb, h⟩ := h
      · simp
      · simpa [ha, hb] using ih h

mutual

theorem lowerUnder_renames (c c' : Contract) (scopes : Scopes)
    (h : Renames (scopes.map Prod.fst) c c') :
    lowerUnder program decl scopes.lefts c = lowerUnder program decl scopes.rights c' := by
  cases c with
  | comp op children =>
      cases c' with
      | comp op' children' =>
          obtain ⟨rfl, h⟩ := h
          rw [lowerUnder, lowerUnder, lowerAll_renames children children' scopes h]
      | _ => exact h.elim
  | recursion x body =>
      cases c' with
      | recursion y body' =>
          rw [lowerUnder, lowerUnder]
          refine congrArg _ (funext fun atom => ?_)
          have hbody : lowerUnder program decl ((x, atom) :: scopes.lefts) body =
              lowerUnder program decl ((y, atom) :: scopes.rights) body' :=
            lowerUnder_renames body body' (((x, y), atom) :: scopes) h
          rw [hbody]
      | _ => exact h.elim
  | var x =>
      cases c' with
      | var y =>
          obtain ⟨hfind, hname⟩ := find?_of_sameBinder h
          rw [lowerUnder, lowerUnder, ← hfind]
          split
          · rfl
          · next hnone => rw [hname hnone]
      | _ => exact h.elim
  | event direction channel =>
      cases c' with
      | event direction' channel' =>
          obtain ⟨rfl, rfl⟩ := h
          rfl
      | _ => exact h.elim
  | _ =>
      cases c' <;> first | rfl | exact h.elim

theorem lowerAll_renames (cs cs' : List Contract) (scopes : Scopes)
    (h : RenamesAll (scopes.map Prod.fst) cs cs') :
    lowerAll program decl scopes.lefts cs = lowerAll program decl scopes.rights cs' := by
  cases cs with
  | nil =>
      cases cs' with
      | nil => rfl
      | cons => exact h.elim
  | cons c cs =>
      cases cs' with
      | nil => exact h.elim
      | cons c' cs' =>
          rw [lowerAll, lowerAll, lowerUnder_renames c c' scopes h.1,
            lowerAll_renames cs cs' scopes h.2]

end

/-! ## What lowering does -/

/-- Of the variables without a binder this one is written leftmost. -/
def LeftmostUnbound (c : Contract) (name : String) (path : List Nat) : Prop :=
  c.Unbound name path ∧ ∀ other path', c.Unbound other path' → ¬ List.Lex (· < ·) path' path

theorem not_unbound_iff : (∀ name path, ¬ c.Unbound name path) ↔
    ∀ path name, c.part? path = some (.var name) → c.Encloses name path := by
  unfold Unbound
  constructor
  · exact fun h path name hpart => by_contra fun hnot => h name path ⟨hpart, hnot⟩
  · exact fun h name path hunbound => hunbound.2 (h path name hunbound.1)

theorem fine_nil_iff : Fine program [] c ↔
    (∀ id ∈ c.channels, ∃ chan, ChanRef.ofExpr program id = .ok chan) ∧
      ∀ path name, c.part? path = some (.var name) → c.Encloses name path := by
  rw [← not_unbound_iff]
  exact ⟨fun h => ⟨h.channels, fun name path hunbound => h.bound hunbound rfl⟩,
    fun h => ⟨h.1, fun hunbound => absurd hunbound (h.2 _ _)⟩⟩

theorem Wrong.leftmostUnbound (h : Wrong [] c name) :
    ∃ path, c.LeftmostUnbound name path := by
  obtain ⟨path, hunbound, -, hleast⟩ := h
  exact ⟨path, hunbound, fun other path' h => hleast other path' h rfl⟩

theorem nodup_numbered (n count : Nat) : (numbered decl n count).Nodup :=
  List.Nodup.map (fun i j h => by simpa using h) List.nodup_range'

/-- Where all channels can be read, what stops lowering is a variable without a binder, and the
leftmost one is reported. -/
theorem lower_cases (supply : AtomSupply)
    (hchannels : ∀ id ∈ c.channels, ∃ chan, ChanRef.ofExpr program id = .ok chan) :
    ((∃ t supply', (c.lower program decl).run supply = .ok t supply') ∧
      ∀ path name, c.part? path = some (.var name) → c.Encloses name path) ∨
    ∃ name path supply', c.LeftmostUnbound name path ∧
      (c.lower program decl).run supply = .error (.unbound name) supply' := by
  cases hrun : (c.lower program decl).run supply with
  | ok t supply' =>
      exact .inl ⟨⟨t, supply', rfl⟩, (fine_nil_iff.1 (lowered_of_lower hrun).fine).2⟩
  | error error supply' =>
      cases error with
      | unbound name =>
          obtain ⟨path, hleftmost⟩ := ((refused_of_lower hrun).wrong rfl).leftmostUnbound
          exact .inr ⟨name, path, supply', hleftmost, rfl⟩
      | fault fault =>
          obtain ⟨id, hid, hfault⟩ := (refused_of_lower hrun).exists_channel rfl
          obtain ⟨chan, hchan⟩ := hchannels id hid
          cases hfault.symm.trans hchan

/-- Lowering succeeds when every variable stands below a `rec` of its name, and reports the leftmost
that does not. The trace is closed, binds new atoms in the order the contract writes its `rec`s, and
refers where the contract has a variable to the innermost binder of its name. The names themselves
do not matter. -/
theorem lower_scoping (program : Program) (decl : DeclId) (c : Contract) (supply : AtomSupply) :
    ((∃ t supply', (c.lower program decl).run supply = .ok t supply') ↔
      (∀ id ∈ c.channels, ∃ chan, ChanRef.ofExpr program id = .ok chan) ∧
        ∀ path name, c.part? path = some (.var name) → c.Encloses name path) ∧
    ((∀ id ∈ c.channels, ∃ chan, ChanRef.ofExpr program id = .ok chan) →
      ¬ (∀ path name, c.part? path = some (.var name) → c.Encloses name path) →
        ∃ name path supply', c.LeftmostUnbound name path ∧
          (c.lower program decl).run supply = .error (.unbound name) supply') ∧
    (∀ name supply', (c.lower program decl).run supply = .error (.unbound name) supply' →
      ∃ path, c.LeftmostUnbound name path) ∧
    (∀ t supply', (c.lower program decl).run supply = .ok t supply' →
      t.WellScoped supply'.minted ∧ t.binders.Nodup ∧
      t.binders = numbered decl supply.minted t.binders.length ∧
      supply'.minted = supply.minted + t.binders.length ∧
      (∀ path part, c.part? path = some part →
        ∃ u, t.part? path = some u ∧ part.Mirrors program u) ∧
      ∀ path name, c.part? path = some (.var name) → ∃ outer atom body, c.Binds outer path ∧
        t.part? outer = some (.fix atom body) ∧ t.part? path = some (.ref atom.id)) ∧
    ∀ c', Renames [] c c' → c'.lower program decl = c.lower program decl := by
  refine ⟨⟨?success, fun hfine => ?fine⟩, fun hchannels hnot => ?unbound, ?reported, ?lowered,
    fun c' h => (lowerUnder_renames c c' [] h).symm⟩
  case success =>
    rintro ⟨t, supply', hrun⟩
    exact fine_nil_iff.1 (lowered_of_lower hrun).fine
  case fine =>
    rcases lower_cases supply hfine.1 with ⟨hok, -⟩ | ⟨name, path, _, hleftmost, -⟩
    · exact hok
    · exact absurd hleftmost.1 (not_unbound_iff.2 hfine.2 name path)
  case unbound =>
    rcases lower_cases supply hchannels with ⟨-, hbound⟩ | hunbound
    · exact absurd hbound hnot
    · exact hunbound
  case reported =>
    intro name supply' hrun
    exact ((refused_of_lower hrun).wrong rfl).leftmostUnbound
  case lowered =>
    intro t supply' hrun
    obtain ⟨hminted, hbinders⟩ := (lowered_of_lower hrun).numbered
    have hlinked : Linked program [] c t := (lowered_of_lower hrun).linked
    refine ⟨(scoped_lower hrun).wellScoped,
      hbinders ▸ nodup_numbered _ _, hbinders, hminted, hlinked.shape, fun path name hpart => ?_⟩
    obtain ⟨atom, href, ⟨outer, body, hbinds, hfix⟩ | ⟨-, hnone⟩⟩ := hlinked.link path name hpart
    · exact ⟨outer, atom, body, hbinds, hfix, href⟩
    · cases hnone

/-- One channel. -/
def line : Program where
  name := "line"
  names := #[⟨"c", .channel, {}⟩]
  exprs := #[⟨.name ⟨0⟩, {}⟩]

/-- A `rec` inside another one, with the same name if `x` and `y` are, and variables inside both and
after the inner one. -/
def nested (x y inner outer : String) : Contract :=
  .recursion x (.comp .seq [.event .output ⟨0⟩,
    .recursion y (.comp .ndet [.skip, .var inner]), .var outer])

/-- A name that is used again hides the outer binder until the inner one is closed, and the trace is
that of different names. After the inner binder its name is no longer bound. -/
theorem nested_scoping :
    (nested "X" "X" "X" "X").lower line ⟨0⟩ = (nested "A" "B" "B" "A").lower line ⟨0⟩ ∧
    ((nested "A" "B" "B" "A").lower line ⟨0⟩).run ⟨7⟩ = .ok (.fix ⟨⟨7⟩, .contract ⟨0⟩⟩ (.comp .seq
      [.event .output ⟨⟨0⟩, none⟩,
        .fix ⟨⟨8⟩, .contract ⟨0⟩⟩ (.comp .ndet [.skip, .ref ⟨8⟩]), .ref ⟨7⟩])) ⟨9⟩ ∧
    ∃ path, (nested "A" "B" "A" "B").LeftmostUnbound "B" path :=
  ⟨(lower_scoping line ⟨0⟩ (nested "A" "B" "B" "A") ⟨7⟩).2.2.2.2 _
      ⟨rfl, ⟨rfl, rfl⟩, ⟨rfl, trivial, .inl ⟨rfl, rfl⟩, trivial⟩, .inl ⟨rfl, rfl⟩, trivial⟩,
    rfl,
    (lower_scoping line ⟨0⟩ (nested "A" "B" "A" "B") ⟨7⟩).2.2.1 "B" ⟨9⟩ rfl⟩

end Contract

end ProcessContracts
