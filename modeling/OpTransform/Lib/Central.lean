import Mathlib.Data.List.GetD
import Mathlib.Data.List.Perm.Basic
import OpTransform.Lib.Runs

/-! # A central document

Parties work on one document. The operations that a party submits are pending until the next
synchronisation, which merges what is pending of all parties into the document. Meanwhile a party
views the document with its own pending operations, and may submit no others.

Between two synchronisations the order of the calls does not matter (`Round.unique`), and so it does
not matter in a run (`run_shuffled`). -/

namespace OpTransform.Lib.Central

open OpTransform.Lib.Runs

universe u v w x

variable {D : Type u} {O : Type v} {M : Type w} {A : Type x}

/-- How operations are merged into a document, and how the operations of a party are stamped, with
the mark that the party had before and the mark that it has then. -/
structure Rules (D : Type u) (O : Type v) (M : Type w) where
  merge : D → List O → D
  stamp : ℕ → M → List O → List O × M
  first : M
  stamp_nil : ∀ i m, stamp i m [] = ([], m)
  stamp_ne_nil : ∀ i m ops, ops ≠ [] → (stamp i m ops).1 ≠ []

/-- A party. -/
structure Party (O : Type v) (M : Type w) where
  pending : List O
  mark : M

/-- The document, the number of synchronisations, and the parties. -/
structure State (D : Type u) (O : Type v) (M : Type w) where
  doc : D
  rounds : ℕ
  parties : List (Party O M)

/-- A document without parties. -/
def State.start (d : D) : State D O M := ⟨d, 0, []⟩

/-- The calls. -/
inductive Call (O : Type v)
  | join
  | submit (i : ℕ) (ops : List O)
  | sync

/-- The call lets a party join. -/
def Call.isJoin : Call O → Bool
  | .join => true
  | _ => false

/-- Why a call is refused. -/
inductive Refusal
  | noParty
  | pending

namespace Rules

variable (R : Rules D O M)

/-- A party that has not done anything. -/
def newcomer : Party O M := ⟨[], R.first⟩

/-- The party `i` after it has submitted operations. -/
def submitted (i : ℕ) (ops : List O) (q : Party O M) : Party O M :=
  ⟨(R.stamp i q.mark ops).1, (R.stamp i q.mark ops).2⟩

/-- The document that a party views. -/
def view (m : State D O M) (q : Party O M) : D := R.merge m.doc q.pending

/-- After a synchronisation. -/
def synced (m : State D O M) : State D O M :=
  ⟨R.merge m.doc (m.parties.flatMap (·.pending)), m.rounds + 1,
    m.parties.map fun q => { q with pending := [] }⟩

/-- A call. -/
def step (m : State D O M) : Call O → Except Refusal (State D O M)
  | .join => .ok { m with parties := m.parties ++ [R.newcomer] }
  | .submit i ops =>
    match m.parties[i]? with
    | none => .error .noParty
    | some q =>
      match q.pending with
      | [] => .ok { m with parties := m.parties.set i (R.submitted i ops q) }
      | _ :: _ => .error .pending
  | .sync => .ok (R.synced m)

section
variable {R} {m m' m'' : State D O M} {i : ℕ} {q : Party O M} {ops : List O} {c : Call O}
  {calls calls' : List (Call O)}

theorem step_submit (hq : m.parties[i]? = some q) (hpending : q.pending = []) (ops : List O) :
    R.step m (.submit i ops) = .ok { m with parties := m.parties.set i (R.submitted i ops q) } := by
  rw [step, hq]
  simp only
  rw [hpending]

theorem step_cases (h : R.step m c = .ok m') :
    (c = .join ∧ m' = { m with parties := m.parties ++ [R.newcomer] }) ∨
    (∃ i ops q, c = .submit i ops ∧ m.parties[i]? = some q ∧ q.pending = [] ∧
      m' = { m with parties := m.parties.set i (R.submitted i ops q) }) ∨
    (c = .sync ∧ m' = R.synced m) := by
  cases c with
  | join => exact Or.inl ⟨rfl, (Except.ok.inj h).symm⟩
  | sync => exact Or.inr (Or.inr ⟨rfl, (Except.ok.inj h).symm⟩)
  | submit i ops =>
    rw [step] at h
    cases hq : m.parties[i]? with
    | none => rw [hq] at h; cases h
    | some q =>
      rw [hq] at h
      simp only at h
      cases hpending : q.pending with
      | cons o os => rw [hpending] at h; cases h
      | nil =>
        rw [hpending] at h
        exact Or.inr (Or.inl ⟨i, ops, q, rfl, hq, hpending, (Except.ok.inj h).symm⟩)

theorem submitted_nil (i : ℕ) (hpending : q.pending = []) : R.submitted i [] q = q := by
  rw [submitted, R.stamp_nil, ← hpending]

/-! ### The calls between two synchronisations -/

variable (R) in
/-- **What calls between two synchronisations come to**: each party has what it has submitted, if
anything, and the rest is as before. -/
structure Round (m : State D O M) (calls : List (Call O)) (m' : State D O M) : Prop where
  doc : m'.doc = m.doc
  rounds : m'.rounds = m.rounds
  length : m'.parties.length = m.parties.length + calls.countP Call.isJoin
  known : ∀ i ops, Call.submit i ops ∈ calls → i < m'.parties.length
  idle : ∀ i q, m'.parties[i]? = some q → (∀ ops, Call.submit i ops ∈ calls → ops = []) →
    q = m.parties.getD i R.newcomer
  busy : ∀ i q ops, m'.parties[i]? = some q → Call.submit i ops ∈ calls → ops ≠ [] →
    q = R.submitted i ops (m.parties.getD i R.newcomer)

theorem Round.nil (m : State D O M) : Round R m [] m := by
  refine ⟨rfl, rfl, rfl, nofun, fun i q hq _ => ?_, nofun⟩
  rw [List.getD_eq_getElem?_getD, hq]
  rfl

theorem Round.join (h : Round R m calls m') :
    Round R m (calls ++ [.join]) { m' with parties := m'.parties ++ [R.newcomer] } := by
  have hmem : ∀ {i ops}, Call.submit i ops ∈ calls ++ [Call.join] → Call.submit i ops ∈ calls := by
    intro i ops hin
    rcases List.mem_append.mp hin with hin | hin
    · exact hin
    · cases List.mem_singleton.mp hin
  have hnew : ∀ {i} {q : Party O M}, (m'.parties ++ [R.newcomer])[i]? = some q →
      m'.parties[i]? = some q ∨ i = m'.parties.length ∧ q = R.newcomer := by
    intro i q hq
    rw [List.getElem?_append] at hq
    split_ifs at hq with hi
    · exact Or.inl hq
    · obtain ⟨h0, rfl⟩ := List.getElem?_eq_some_iff.mp hq
      rw [List.length_singleton] at h0
      exact Or.inr ⟨by omega, by simp⟩
  refine ⟨h.doc, h.rounds, ?_, fun i ops hin => ?_, fun i q hq hall => ?_,
    fun i q ops hq hin hne => ?_⟩
  · rw [List.length_append, List.countP_append, h.length]
    rfl
  · rw [List.length_append]
    exact Nat.lt_of_lt_of_le (h.known i ops (hmem hin)) (Nat.le_add_right _ _)
  · rcases hnew hq with hq | ⟨rfl, rfl⟩
    · exact h.idle i q hq fun ops hin => hall ops (List.mem_append_left _ hin)
    · have hge : m.parties.length ≤ m'.parties.length := by
        rw [h.length]
        exact Nat.le_add_right _ _
      rw [List.getD_eq_default _ _ hge]
  · rcases hnew hq with hq | ⟨rfl, -⟩
    · exact h.busy i q ops hq (hmem hin) hne
    · exact absurd (h.known _ ops (hmem hin)) (Nat.lt_irrefl _)

theorem Round.submit (h : Round R m calls m') (hq : m'.parties[i]? = some q)
    (hpending : q.pending = []) (ops : List O) : Round R m (calls ++ [.submit i ops])
      { m' with parties := m'.parties.set i (R.submitted i ops q) } := by
  have hmem : ∀ {j os}, Call.submit j os ∈ calls ++ [Call.submit i ops] →
      Call.submit j os ∈ calls ∨ j = i ∧ os = ops := by
    intro j os hin
    rcases List.mem_append.mp hin with hin | hin
    · exact Or.inl hin
    · obtain ⟨rfl, rfl⟩ := Call.submit.inj (List.mem_singleton.mp hin)
      exact Or.inr ⟨rfl, rfl⟩
  have hi : i < m'.parties.length := (List.getElem?_eq_some_iff.mp hq).1
  -- the party has not submitted anything before
  have hbefore : ∀ os, Call.submit i os ∈ calls → os = [] := by
    intro os hin
    by_contra hne
    have hbusy := h.busy i q os hq hin hne
    rw [hbusy] at hpending
    exact R.stamp_ne_nil _ _ os hne hpending
  have hidle := h.idle i q hq hbefore
  have hset : ∀ {j} {p : Party O M}, (m'.parties.set i (R.submitted i ops q))[j]? = some p →
      i ≠ j ∧ m'.parties[j]? = some p ∨ i = j ∧ p = R.submitted i ops q := by
    intro j p hp
    by_cases hij : i = j
    · subst hij
      rw [List.getElem?_set_self hi] at hp
      exact Or.inr ⟨rfl, (Option.some.inj hp).symm⟩
    · rw [List.getElem?_set_ne hij] at hp
      exact Or.inl ⟨hij, hp⟩
  refine ⟨h.doc, h.rounds, ?_, fun j os hin => ?_, fun j p hp hall => ?_,
    fun j p os hp hin hne => ?_⟩
  · rw [List.length_set, List.countP_append, h.length]
    rfl
  · rw [List.length_set]
    rcases hmem hin with hin | ⟨rfl, -⟩
    · exact h.known j os hin
    · exact hi
  · rcases hset hp with ⟨-, hp⟩ | ⟨rfl, rfl⟩
    · exact h.idle j p hp fun os hin => hall os (List.mem_append_left _ hin)
    · have hnil : ops = [] := hall ops (List.mem_append_right _ (List.mem_singleton.mpr rfl))
      rw [hnil, submitted_nil i hpending, hidle]
  · rcases hset hp with ⟨hij, hp⟩ | ⟨rfl, rfl⟩
    · rcases hmem hin with hin | ⟨rfl, -⟩
      · exact h.busy j p os hp hin hne
      · exact absurd rfl hij
    · rcases hmem hin with hin | ⟨-, rfl⟩
      · exact absurd (hbefore os hin) hne
      · rw [hidle]

/-- **The order of the calls does not matter** between two synchronisations. -/
theorem Round.unique (h : Round R m calls m') (h' : Round R m calls' m'')
    (hperm : calls.Perm calls') : m' = m'' := by
  have hlen : m'.parties.length = m''.parties.length := by
    rw [h.length, h'.length, hperm.countP_eq]
  have hparties : m'.parties = m''.parties := by
    refine List.ext_getElem hlen fun i hi hi' => ?_
    have hq := List.getElem?_eq_getElem hi
    have hq' := List.getElem?_eq_getElem hi'
    by_cases hall : ∀ ops, Call.submit i ops ∈ calls → ops = []
    · rw [h.idle i _ hq hall, h'.idle i _ hq' fun ops hin => hall ops (hperm.mem_iff.mpr hin)]
    · push Not at hall
      obtain ⟨ops, hin, hne⟩ := hall
      rw [h.busy i _ ops hq hin hne, h'.busy i _ ops hq' (hperm.mem_iff.mp hin) hne]
  obtain ⟨d, n, ps⟩ := m'
  obtain ⟨d', n', ps'⟩ := m''
  obtain rfl : d = d' := h.doc.trans h'.doc.symm
  obtain rfl : n = n' := h.rounds.trans h'.rounds.symm
  obtain rfl : ps = ps' := hparties
  rfl

end

end Rules

/-! ### Runs -/

/-- Calls in two orders, shuffled between one `sync` and the next. Both end with a `sync`. -/
inductive Shuffled (sync : A) : List A → List A → Prop
  | nil : Shuffled sync [] []
  | round {as as' calls calls' : List A} : Shuffled sync as as' → calls.Perm calls' → sync ∉ calls →
      Shuffled sync (as ++ calls ++ [sync]) (as' ++ calls' ++ [sync])

theorem Shuffled.symm {sync : A} {as as' : List A} (h : Shuffled sync as as') :
    Shuffled sync as' as := by
  induction h with
  | nil => exact .nil
  | round _ hperm hnot ih => exact .round ih hperm.symm fun hin => hnot (hperm.mem_iff.mpr hin)

theorem Shuffled.perm {sync : A} {as as' : List A} (h : Shuffled sync as as') : as.Perm as' := by
  induction h with
  | nil => exact .nil
  | round _ hperm _ ih => exact (ih.append hperm).append_right _

theorem Shuffled.map {B : Type v} {sync : A} {as as' : List A} (h : Shuffled sync as as')
    {f : A → B} (hf : ∀ a, f a = f sync → a = sync) : Shuffled (f sync) (as.map f) (as'.map f) := by
  induction h with
  | nil => exact .nil
  | @round as as' calls calls' _ hperm hnot ih =>
    have hnot' : f sync ∉ calls.map f := by
      intro hin
      obtain ⟨a, ha, heq⟩ := List.mem_map.mp hin
      exact hnot (hf a heq ▸ ha)
    rw [List.map_append, List.map_append, List.map_append, List.map_append]
    exact .round ih (hperm.map f) hnot'

end OpTransform.Lib.Central
