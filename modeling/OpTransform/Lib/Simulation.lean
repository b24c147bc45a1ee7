import Mathlib.Data.List.Forall2
import OpTransform.Lib.Runs

/-! # Programs that follow other programs

A program follows another one if it ends in a related state where the other one ends, and fails as
the other one does; failures of its own do not occur. Following is kept by composition
(`Follows.bind`) and by loops (`Follows.foldlM`), so that a program follows another one if it is
built in the same way from parts that follow the other one's parts. -/

namespace OpTransform.Lib.Simulation

universe u u' v v' w w' x

variable {A : Type u} {A' : Type u'} {B : Type v} {B' : Type v'} {E : Type w} {E' : Type w'}
  {X : Type x}

/-- `Follows emb R p q`: the program `p` follows `q`, the failures of which `emb` turns into
failures of `p`. -/
inductive Follows (emb : E → E') (R : A → B → Prop) : Except E' A → Except E B → Prop
  | ok {a : A} {b : B} : R a b → Follows emb R (.ok a) (.ok b)
  | error (e : E) : Follows emb R (.error (emb e)) (.error e)

section
variable {emb : E → E'} {R : A → B → Prop} {S : A' → B' → Prop} {p : Except E' A} {q : Except E B}

theorem Follows.exists_ok (h : Follows emb R p q) {b : B} (hq : q = .ok b) :
    ∃ a, p = .ok a ∧ R a b := by
  cases h with
  | ok hab =>
    obtain rfl := Except.ok.inj hq
    exact ⟨_, rfl, hab⟩
  | error e => cases hq

theorem Follows.eq_error (h : Follows emb R p q) {e : E} (hq : q = .error e) :
    p = .error (emb e) := by
  cases h with
  | ok hab => cases hq
  | error e' => rw [Except.error.inj hq]

theorem Follows.bind (h : Follows emb R p q) {f : A → Except E' A'} {g : B → Except E B'}
    (hfg : ∀ a b, R a b → Follows emb S (f a) (g b)) : Follows emb S (p.bind f) (q.bind g) := by
  cases h with
  | ok hab => exact hfg _ _ hab
  | error e => exact .error e

theorem Follows.foldlM {f : A → X → Except E' A} {g : B → X → Except E B}
    (hfg : ∀ a b x, R a b → Follows emb R (f a x) (g b x)) (l : List X) {a : A} {b : B}
    (hab : R a b) : Follows emb R (l.foldlM f a) (l.foldlM g b) := by
  induction l generalizing a b with
  | nil => exact .ok hab
  | cons x l ih =>
    rw [List.foldlM_cons, List.foldlM_cons]
    exact (hfg a b x hab).bind fun a' b' hab' => ih hab'

theorem exists_foldlM_eq_ok {f : A → X → Except E' A} {g : B → X → B}
    (hfg : ∀ a b x, R a b → ∃ a', f a x = .ok a' ∧ R a' (g b x)) (l : List X) {a : A} {b : B}
    (hab : R a b) : ∃ a', l.foldlM f a = .ok a' ∧ R a' (l.foldl g b) := by
  induction l generalizing a b with
  | nil => exact ⟨a, rfl, hab⟩
  | cons x l ih =>
    obtain ⟨a', ha', hab'⟩ := hfg a b x hab
    rw [List.foldlM_cons, ha']
    exact ih hab'

end

/-! ### Related lists -/

section
variable {R : A → B → Prop} {as : List A} {bs : List B} {i : ℕ}

theorem exists_getElem?_of_forall₂ (h : List.Forall₂ R as bs) {a : A} (ha : as[i]? = some a) :
    ∃ b, bs[i]? = some b ∧ R a b := by
  induction h generalizing i with
  | nil => cases ha
  | cons hab _ ih =>
    cases i with
    | zero =>
      obtain rfl := Option.some.inj ha
      exact ⟨_, rfl, hab⟩
    | succ i => exact ih ha

theorem forall₂_set_modify (h : List.Forall₂ R as bs) {a : A} {b : B} {g : B → B}
    (hb : bs[i]? = some b) (hab : R a (g b)) : List.Forall₂ R (as.set i a) (bs.modify i g) := by
  induction h generalizing i with
  | nil => cases hb
  | cons hcd h ih =>
    cases i with
    | zero =>
      obtain rfl := Option.some.inj hb
      exact .cons hab h
    | succ i => exact .cons hcd (ih hb)

end

end OpTransform.Lib.Simulation
