import Mathlib.Data.List.Induction

/-! # Runs of a step function that can fail

A step function `S → A → Except E S` takes an action and fails or goes to the next state. A run
takes a finite list of actions, each allowed by a guard in the state where it is taken. Invariants
are carried along a run by `Run.induct`, and `Run.image` carries a run along a function that
commutes with the steps. `foldlM_induct` is the rule for a loop over a list, `foldl_range'_induct`
the one for a counter. -/

namespace OpTransform.Lib.Runs

universe u v w

variable {S S' : Type u} {A : Type v} {E : Type w}

/-- `Run step guard s as t`: from `s` the actions `as` are all allowed and succeed, and lead to
`t`. -/
inductive Run (step : S → A → Except E S) (guard : S → A → Prop) (s : S) : List A → S → Prop
  | nil : Run step guard s [] s
  | snoc {as : List A} {t u : S} {a : A} : Run step guard s as t → guard t a → step t a = .ok u →
      Run step guard s (as ++ [a]) u

section
variable {step : S → A → Except E S} {guard guard' : S → A → Prop} {s t u : S} {as bs : List A}
  {a : A}

theorem exists_of_bind_eq_ok {x : Except E S} {f : S → Except E S'} {r : S'}
    (h : x.bind f = .ok r) : ∃ s, x = .ok s ∧ f s = .ok r := by
  cases x with
  | error e => cases h
  | ok s => exact ⟨s, rfl, h⟩

theorem exists_of_map_eq_ok {x : Except E S} {f : S → S'} {r : S'} (h : x.map f = .ok r) :
    ∃ s, x = .ok s ∧ f s = r := by
  cases x with
  | error e => cases h
  | ok s => exact ⟨s, rfl, Except.ok.inj h⟩

theorem foldlM_snoc (step : S → A → Except E S) (s : S) (as : List A) (a : A) :
    (as ++ [a]).foldlM step s = (as.foldlM step s).bind (step · a) := by
  rw [List.foldlM_append]
  simp only [List.foldlM_cons, List.foldlM_nil, bind_pure]
  rfl

/-- **The loop rule**: what holds at the start, and after `k + 1` turns if it holds after `k`, holds
at the end of the loop, and the loop does not fail. -/
theorem foldlM_induct {P : ℕ → S → Prop} {as : List A} (h0 : P 0 s)
    (hstep : ∀ k (hk : k < as.length) s, P k s → ∃ t, step s as[k] = .ok t ∧ P (k + 1) t) :
    ∃ t, as.foldlM step s = .ok t ∧ P as.length t := by
  induction as using List.reverseRecOn with
  | nil => exact ⟨s, rfl, h0⟩
  | append_singleton as a ih =>
    obtain ⟨t, ht, hP⟩ := ih fun k hk s hs => by
      have hk' : k < (as ++ [a]).length := by simp; omega
      have := hstep k hk' s hs
      rwa [List.getElem_append_left hk] at this
    obtain ⟨u, hu, hPu⟩ := hstep as.length (by simp) t hP
    rw [List.getElem_append_right (Nat.le_refl _)] at hu
    refine ⟨u, ?_, by simpa using hPu⟩
    rw [foldlM_snoc, ht]
    show step t a = .ok u
    simpa using hu

/-- The loop rule for a counter that starts at `k`, and turns that cannot fail. -/
theorem foldl_range'_induct {P : ℕ → S → Prop} {f : S → ℕ → S} {k n : ℕ} (h0 : P k s)
    (hstep : ∀ i s, k ≤ i → i < k + n → P i s → P (i + 1) (f s i)) :
    P (k + n) ((List.range' k n).foldl f s) := by
  induction n with
  | zero => exact h0
  | succ n ih =>
    have h := ih fun i s hk hi => hstep i s hk (by omega)
    rw [List.range'_1_concat, List.foldl_append]
    exact hstep (k + n) _ (by omega) (by omega) h

theorem foldlM_invariant {I : S → Prop} (h : as.foldlM step s = .ok t) (h0 : I s)
    (hstep : ∀ s a t, I s → step s a = .ok t → I t) : I t := by
  induction as generalizing s with
  | nil =>
    obtain rfl := Except.ok.inj h
    exact h0
  | cons a as ih =>
    obtain ⟨u, hu, h⟩ := exists_of_bind_eq_ok h
    exact ih h (hstep s a u h0 hu)

theorem Run.foldlM_eq (h : Run step guard s as t) : as.foldlM step s = .ok t := by
  induction h with
  | nil => rfl
  | snoc _ _ hs ih => rw [foldlM_snoc, ih]; exact hs

theorem Run.unique (h : Run step guard s as t) (h' : Run step guard' s as u) : t = u := by
  have := h.foldlM_eq.symm.trans h'.foldlM_eq
  exact Except.ok.inj this

theorem Run.mono (h : Run step guard s as t) (hg : ∀ t a, guard t a → guard' t a) :
    Run step guard' s as t := by
  induction h with
  | nil => exact .nil
  | snoc _ hga hs ih => exact .snoc ih (hg _ _ hga) hs

/-- **The invariant rule**: what holds at the start and is kept by every allowed step holds after
every run. -/
theorem Run.induct {I : S → Prop} (h : Run step guard s as t) (h0 : I s)
    (hstep : ∀ t a u, I t → guard t a → step t a = .ok u → I u) : I t := by
  induction h with
  | nil => exact h0
  | snoc _ hg hs ih => exact hstep _ _ _ ih hg hs

theorem Run.snoc_inv (h : Run step guard s (as ++ [a]) u) :
    ∃ t, Run step guard s as t ∧ guard t a ∧ step t a = .ok u := by
  generalize he : as ++ [a] = bs at h
  cases h with
  | nil => simp at he
  | snoc h hg hs =>
    obtain ⟨rfl, rfl⟩ := List.append_singleton_inj.mp he
    exact ⟨_, h, hg, hs⟩

theorem Run.split (h : Run step guard s (as ++ bs) u) :
    ∃ t, Run step guard s as t ∧ Run step guard t bs u := by
  induction bs using List.reverseRecOn generalizing u with
  | nil => exact ⟨u, by simpa using h, .nil⟩
  | append_singleton bs b ih =>
    rw [← List.append_assoc] at h
    obtain ⟨t, ht, hg, hs⟩ := h.snoc_inv
    obtain ⟨t', h1, h2⟩ := ih ht
    exact ⟨t', h1, .snoc h2 hg hs⟩

theorem Run.append (h : Run step guard s as t) (h' : Run step guard t bs u) :
    Run step guard s (as ++ bs) u := by
  induction h' with
  | nil => simpa using h
  | snoc _ hg hs ih => rw [← List.append_assoc]; exact .snoc ih hg hs

theorem Run.cons (hg : guard s a) (hs : step s a = .ok t) (h : Run step guard t as u) :
    Run step guard s (a :: as) u :=
  (show Run step guard s [a] t from .snoc .nil hg hs).append h

end

/-! ### Two step functions -/

section
variable {step : S → A → Except E S} {step' : S' → A → Except E S'} {f : S' → S}

/-- **Runs along a function.** If `f` turns steps into steps, a run from `f s` stays in the image of
`f` and is the image of a run. -/
theorem Run.image (hf : ∀ s a, step (f s) a = (step' s a).map f) {guard : S → A → Prop} {s : S'}
    {as : List A} {t : S} (h : Run step guard (f s) as t) :
    ∃ t', t = f t' ∧ Run step' (fun s a => guard (f s) a) s as t' := by
  induction h with
  | nil => exact ⟨s, rfl, .nil⟩
  | @snoc as t u a _ hg hs ih =>
    obtain ⟨t', rfl, ht'⟩ := ih
    rw [hf] at hs
    obtain ⟨u', hu, rfl⟩ := exists_of_map_eq_ok hs
    exact ⟨u', rfl, .snoc ht' hg hu⟩

theorem Run.map (hf : ∀ s a, step (f s) a = (step' s a).map f) {guard : S → A → Prop}
    {guard' : S' → A → Prop} (hg : ∀ s a, guard' s a → guard (f s) a) {s t : S'} {as : List A}
    (h : Run step' guard' s as t) : Run step guard (f s) as (f t) := by
  induction h with
  | nil => exact .nil
  | snoc _ hga hs ih => exact .snoc ih (hg _ _ hga) (by rw [hf, hs]; rfl)

theorem foldlM_map (hf : ∀ s a, step (f s) a = (step' s a).map f) (s : S') (as : List A) :
    as.foldlM step (f s) = (as.foldlM step' s).map f := by
  induction as using List.reverseRecOn with
  | nil => rfl
  | append_singleton as a ih =>
    rw [foldlM_snoc, foldlM_snoc, ih]
    cases as.foldlM step' s with
    | error e => rfl
    | ok t => exact hf t a

end

end OpTransform.Lib.Runs
