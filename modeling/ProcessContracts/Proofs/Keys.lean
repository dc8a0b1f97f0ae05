import ProcessContracts.Proofs.Computations
import ProcessContracts.Substitution

/-!
# References with one meaning

The key of a reference is the key of its root beside that of its subscript. An instance replaces a
reference by looking at its key only: references that mean the same are replaced by references that
mean the same, however they are written.
-/

namespace ProcessContracts

variable {program : Program}

namespace Program

theorem stripWithin_spec {depth : Nat} {id id' : ExprId}
    (h : program.stripWithin depth id = .ok id') :
    ∀ d, program.stripWithin (d + 1) id' = .ok id' := by
  induction depth generalizing id with
  | zero => cases h
  | succ depth ih =>
      obtain ⟨expr, hexpr, h⟩ := Lookup.bind_eq_ok.1 h
      split at h
      case h_1 inner _ => exact ih h
      case h_2 hplain =>
        obtain rfl := Except.ok.inj h
        intro d
        refine Lookup.bind_eq_ok.2 ⟨expr, hexpr, ?_⟩
        split
        case h_1 inner decoration => exact absurd rfl (hplain inner decoration)
        case h_2 => rfl

theorem strip_strip {id id' : ExprId} (h : program.strip id = .ok id') :
    program.strip id' = .ok id' := stripWithin_spec h _

theorem resolveName_strip {id id' : ExprId} (h : program.strip id = .ok id') :
    program.resolveName id' = program.resolveName id := by
  rw [resolveName, resolveName, h, strip_strip h]

end Program

namespace ChannelKey

variable {id : ExprId} {chan other : ChanRef} {key : ChannelKey}

theorem resolveRoot_eq_name_iff {name : NameId} :
    resolveRoot program id = .ok (.name name) ↔ program.resolveName id = .ok (some name) := by
  constructor
  · intro h
    obtain ⟨found, hfound, h⟩ := Lookup.bind_eq_ok.1 h
    cases found with
    | some known => cases h; exact hfound
    | none =>
        obtain ⟨inner, -, h⟩ := Lookup.bind_eq_ok.1 h
        cases h
  · intro h
    rw [resolveRoot, h]
    rfl

theorem resolveRoot_eq_expr_iff {inner : ExprId} : resolveRoot program id = .ok (.expr inner) ↔
    program.resolveName id = .ok none ∧ program.strip id = .ok inner := by
  constructor
  · intro h
    obtain ⟨found, hfound, h⟩ := Lookup.bind_eq_ok.1 h
    cases found with
    | some known => cases h
    | none =>
        obtain ⟨inner', hinner, h⟩ := Lookup.bind_eq_ok.1 h
        cases h
        exact ⟨hfound, hinner⟩
  · rintro ⟨hname, hstrip⟩
    exact Lookup.bind_eq_ok.2 ⟨none, hname, Lookup.bind_eq_ok.2 ⟨inner, hstrip, rfl⟩⟩

theorem resolve_eq_ok_iff : resolve program chan = .ok key ↔
    resolveRoot program chan.root = .ok key.root ∧
      Option.Rel (resolveIndex program · = .ok ·) chan.index key.index := by
  obtain ⟨root, index⟩ := chan
  obtain ⟨keyRoot, keyIndex⟩ := key
  unfold resolve
  rw [Lookup.bind_eq_ok]
  cases index with
  | none =>
      constructor
      · rintro ⟨_, hroot, ⟨⟩⟩
        exact ⟨hroot, .none⟩
      · rintro ⟨hroot, ⟨⟩⟩
        exact ⟨keyRoot, hroot, rfl⟩
  | some index =>
      constructor
      · rintro ⟨_, hroot, h⟩
        obtain ⟨_, hindex, ⟨⟩⟩ := Lookup.bind_eq_ok.1 h
        exact ⟨hroot, .some hindex⟩
      · rintro ⟨hroot, ⟨hindex⟩⟩
        exact ⟨keyRoot, hroot, Lookup.bind_eq_ok.2 ⟨_, hindex, rfl⟩⟩

theorem literal_injective : Function.Injective literal := by
  rintro ⟨root, index⟩ ⟨root', index'⟩ h
  obtain ⟨hroot, hindex⟩ := ChannelKey.mk.inj h
  obtain rfl := ChannelRoot.expr.inj hroot
  cases index <;> cases index' <;> simp_all

end ChannelKey

open ChannelKey

/-- Two answers that are the same, or references with one key. -/
inductive Interchangeable (program : Program) : Lookup ChanRef → Lookup ChanRef → Prop
  | same (query : Lookup ChanRef) : Interchangeable program query query
  | alike {c d : ChanRef} {key : ChannelKey} : resolve program c = .ok key →
      resolve program d = .ok key → Interchangeable program (pure c) (pure d)

namespace Interchangeable

variable {x y : Lookup ChanRef}

theorem bind {α : Type} {query : Lookup α} {f g : α → Lookup ChanRef}
    (h : ∀ a, query = .ok a → Interchangeable program (f a) (g a)) :
    Interchangeable program (query >>= f) (query >>= g) := by
  cases query with
  | ok a => exact h a rfl
  | error fault => exact .same _

theorem resolve_eq (h : Interchangeable program x y) :
    (x >>= resolve program) = (y >>= resolve program) := by
  cases h with
  | same => rfl
  | alike hc hd =>
      change resolve program _ = resolve program _
      rw [hc, hd]

theorem ofRef_eq {c d : ChanRef} (h : Interchangeable program x y) (hc : x = .ok c)
    (hd : y = .ok d) : ofRef program c = ofRef program d := by
  cases h with
  | same => rw [Except.ok.inj (hc.symm.trans hd)]
  | alike hx hy =>
      cases hc
      cases hd
      rw [ofRef, ofRef, hx, hy, Lookup.getD_ok, Lookup.getD_ok]

end Interchangeable

namespace Substitution

variable {bindings : Substitution} {c d : ChanRef} {key : ChannelKey}

theorem interchangeable_target {actual : ExprId} {root : ChannelRoot} {i j : Option ExprId}
    {index : Option ChannelIndex} (hroot : resolveRoot program actual = .ok root)
    (hi : Option.Rel (resolveIndex program · = .ok ·) i index)
    (hj : Option.Rel (resolveIndex program · = .ok ·) j index) :
    Interchangeable program (target program actual i) (target program actual j) := by
  cases hi with
  | none =>
      cases hj
      exact .same _
  | @some i value hi =>
      cases hj with
      | @some j _ hj =>
          have hc : resolve program ⟨actual, some i⟩ = .ok ⟨root, some value⟩ :=
            resolve_eq_ok_iff.2 ⟨hroot, .some hi⟩
          have hd : resolve program ⟨actual, some j⟩ = .ok ⟨root, some value⟩ :=
            resolve_eq_ok_iff.2 ⟨hroot, .some hj⟩
          refine .bind fun e _ => ?_
          cases e <;> exact .alike hc hd

/-- A reference without a name is left as it is. -/
theorem redirect_of_resolveName_eq_none (h : program.resolveName c.root = .ok none) :
    redirect program bindings c = .ok c := by
  rw [redirect, h]
  rfl

/-- References that mean the same are replaced by references that mean the same. -/
theorem interchangeable_redirect (hc : resolve program c = .ok key)
    (hd : resolve program d = .ok key) :
    Interchangeable program (redirect program bindings c) (redirect program bindings d) := by
  obtain ⟨hcroot, hcindex⟩ := resolve_eq_ok_iff.1 hc
  obtain ⟨hdroot, hdindex⟩ := resolve_eq_ok_iff.1 hd
  cases hroot : key.root with
  | expr inner =>
      rw [hroot] at hcroot hdroot
      rw [redirect_of_resolveName_eq_none (resolveRoot_eq_expr_iff.1 hcroot).1,
        redirect_of_resolveName_eq_none (resolveRoot_eq_expr_iff.1 hdroot).1]
      exact .alike hc hd
  | name formal =>
      rw [hroot] at hcroot hdroot
      unfold redirect
      rw [resolveRoot_eq_name_iff.1 hcroot, resolveRoot_eq_name_iff.1 hdroot]
      refine .bind fun found hfound => ?_
      obtain rfl := Except.ok.inj hfound
      dsimp only
      cases bindings.get? formal with
      | none => exact .alike hc hd
      | some actual =>
          refine .bind fun inner hinner => .bind fun found hfound => ?_
          split
          case isTrue => exact .alike hc hd
          case isFalse =>
            cases found with
            | some name =>
                exact interchangeable_target (resolveRoot_eq_name_iff.2 hfound) hcindex hdindex
            | none =>
                have hexpr := resolveRoot_eq_expr_iff.2 ⟨hfound, Program.strip_strip hinner⟩
                exact interchangeable_target hexpr hcindex hdindex

/-- The same for keys that are read literally where a reference meets a fault. -/
theorem ofRef_redirect_congr {c' d' : ChanRef} (h : ofRef program c = ofRef program d)
    (hc' : redirect program bindings c = .ok c') (hd' : redirect program bindings d = .ok d') :
    ofRef program c' = ofRef program d' := by
  -- A key that is read literally belongs to a reference whose root, stripped already, has no name.
  have mixed : ∀ {c d c' d' : ChanRef} {key : ChannelKey}, resolve program c = .ok key →
      key = literal d → redirect program bindings c = .ok c' →
      redirect program bindings d = .ok d' → c' = c ∧ d' = d := by
    rintro c d c' d' key hc rfl hc' hd'
    obtain ⟨hname, hstrip⟩ := resolveRoot_eq_expr_iff.1 (resolve_eq_ok_iff.1 hc).1
    rw [redirect_of_resolveName_eq_none hname] at hc'
    rw [redirect_of_resolveName_eq_none ((Program.resolveName_strip hstrip).trans hname)] at hd'
    exact ⟨(Except.ok.inj hc').symm, (Except.ok.inj hd').symm⟩
  have key_of_ok : ∀ {c : ChanRef} {key : ChannelKey}, resolve program c = .ok key →
      ofRef program c = key := fun hc => by rw [ofRef, hc, Lookup.getD_ok]
  have key_of_error : ∀ {c : ChanRef} {fault : Fault}, resolve program c = .error fault →
      ofRef program c = literal c := fun hc => by rw [ofRef, hc, Lookup.getD_error]
  cases hc : resolve program c with
  | ok key =>
      cases hd : resolve program d with
      | ok key' =>
          obtain rfl : key = key' := by rw [← key_of_ok hc, ← key_of_ok hd, h]
          exact (interchangeable_redirect hc hd).ofRef_eq hc' hd'
      | error fault =>
          have hkey : key = literal d := by rw [← key_of_ok hc, ← key_of_error hd, h]
          obtain ⟨rfl, rfl⟩ := mixed hc hkey hc' hd'
          exact h
  | error fault =>
      cases hd : resolve program d with
      | ok key' =>
          have hkey : key' = literal c := by rw [← key_of_ok hd, ← key_of_error hc, h]
          obtain ⟨rfl, rfl⟩ := mixed hd hkey hd' hc'
          exact h
      | error fault' =>
          have hlit : literal c = literal d := by rw [← key_of_error hc, ← key_of_error hd, h]
          obtain rfl := literal_injective hlit
          rw [Except.ok.inj (hc'.symm.trans hd')]

end Substitution

end ProcessContracts
