import Mathlib.Algebra.BigOperators.Group.Finset.Basic
import Mathlib.Data.List.Flatten
import Mathlib.Data.List.GetD

/-! # A list in blocks

`flat b n` is the concatenation of the blocks `b 0, …, b (n-1)`. An edit inside one block is an edit
of the concatenation at an index shifted by the lengths of the blocks before (`flat_insertIdx`,
`flat_eraseIdx`, `flat_modify`). The number of elements of a list with a number below `n` is the sum
of those with each number (`countP_lt_eq_sum`). -/

namespace OpTransform.Lib.Blocks

universe u

variable {α : Type u}

/-- The concatenation of the first `n` blocks. -/
def flat (b : ℕ → List α) (n : ℕ) : List α := (List.range n).flatMap b

@[simp] theorem flat_zero (b : ℕ → List α) : flat b 0 = [] := rfl

theorem flat_succ (b : ℕ → List α) (n : ℕ) : flat b (n + 1) = flat b n ++ b n := by
  simp [flat, List.range_succ]

theorem flat_congr {b b' : ℕ → List α} {n : ℕ} (h : ∀ p < n, b p = b' p) :
    flat b n = flat b' n := by
  induction n with
  | zero => rfl
  | succ n ih => rw [flat_succ, flat_succ, ih fun p hp => h p (by omega), h n (by omega)]

theorem length_flat (b : ℕ → List α) (n : ℕ) :
    (flat b n).length = ∑ p ∈ Finset.range n, (b p).length := by
  induction n with
  | zero => rfl
  | succ n ih => rw [flat_succ, List.length_append, ih, Finset.sum_range_succ]

theorem flat_sublist {b b' : ℕ → List α} {n : ℕ} (h : ∀ p < n, (b p).Sublist (b' p)) :
    (flat b n).Sublist (flat b' n) :=
  List.Sublist.flatMap_right _ fun p hp => h p (List.mem_range.mp hp)

theorem map_flat {β : Type*} (f : α → β) (b : ℕ → List α) (n : ℕ) :
    (flat b n).map f = flat (fun p => (b p).map f) n := by
  simp [flat, List.map_flatMap]

theorem flat_getElem? (l : List α) {n : ℕ} (hn : l.length ≤ n) :
    flat (fun p => l[p]?.toList) n = l := by
  have htake : ∀ m, flat (fun p => l[p]?.toList) m = l.take m := by
    intro m
    induction m with
    | zero => simp
    | succ m ih => rw [flat_succ, ih, List.take_add_one]
  rw [htake, List.take_of_length_le hn]

theorem flat_single (l : List α) {n k : ℕ} (hk : k < n) :
    flat (fun p => if p = k then l else []) n = l := by
  induction n with
  | zero => omega
  | succ n ih =>
    rw [flat_succ]
    rcases Nat.lt_succ_iff_lt_or_eq.mp hk with hlt | rfl
    · rw [ih hlt, if_neg (by omega), List.append_nil]
    · have hnil : flat (fun p => if p = k then l else []) k = [] :=
        List.flatMap_eq_nil_iff.mpr fun p hp => if_neg (List.mem_range.mp hp).ne
      rw [hnil, if_pos rfl, List.nil_append]

/-! ### Blocks in another order -/

/-- A concatenation around the block `p`. -/
theorem flat_split (b : ℕ → List α) {p n : ℕ} (hp : p < n) :
    ∃ post, ∀ l, flat (Function.update b p l) n = flat b p ++ (l ++ post) := by
  obtain ⟨m, rfl⟩ := Nat.exists_eq_add_of_lt hp
  clear hp
  induction m with
  | zero =>
    refine ⟨[], fun l => ?_⟩
    rw [Nat.add_zero, flat_succ, Function.update_self, List.append_nil]
    congr 1
    exact flat_congr fun r hr => Function.update_of_ne (by omega) _ _
  | succ m ih =>
    obtain ⟨post, h⟩ := ih
    refine ⟨post ++ b (p + m + 1), fun l => ?_⟩
    rw [show p + (m + 1) + 1 = p + m + 1 + 1 by omega, flat_succ, h,
      Function.update_of_ne (by omega)]
    simp

theorem length_flat_add_le (b : ℕ → List α) {p n : ℕ} (hp : p < n) :
    (flat b p).length + (b p).length ≤ (flat b n).length := by
  obtain ⟨post, h⟩ := flat_split b hp
  have hb := congrArg List.length (h (b p))
  rw [Function.update_eq_self] at hb
  simp only [List.length_append] at hb
  omega

theorem insertIdx_append_right (l l' : List α) (k : ℕ) (x : α) :
    (l ++ l').insertIdx (l.length + k) x = l ++ l'.insertIdx k x := by
  induction l with
  | nil => simp
  | cons a l ih =>
    rw [List.length_cons, show l.length + 1 + k = (l.length + k) + 1 by omega, List.cons_append,
      List.insertIdx_succ_cons, ih, List.cons_append]

theorem insertIdx_append_left {l : List α} (l' : List α) {k : ℕ} (hk : k ≤ l.length) (x : α) :
    (l ++ l').insertIdx k x = l.insertIdx k x ++ l' := by
  induction l generalizing k with
  | nil => simp at hk; subst hk; simp
  | cons a l ih =>
    cases k with
    | zero => simp
    | succ k => simp [ih (by simpa using hk)]

theorem modify_append_right (l l' : List α) (k : ℕ) (f : α → α) :
    (l ++ l').modify (l.length + k) f = l ++ l'.modify k f := by
  induction l with
  | nil => simp
  | cons a l ih =>
    rw [List.length_cons, show l.length + 1 + k = (l.length + k) + 1 by omega, List.cons_append,
      List.modify_succ_cons, ih, List.cons_append]

theorem modify_append_left {l : List α} (l' : List α) {k : ℕ} (hk : k < l.length) (f : α → α) :
    (l ++ l').modify k f = l.modify k f ++ l' := by
  induction l generalizing k with
  | nil => simp at hk
  | cons a l ih =>
    cases k with
    | zero => simp
    | succ k => simp [ih (by simpa using hk)]

section
variable (b : ℕ → List α) {p n k : ℕ} (hp : p < n)
include hp

theorem flat_insertIdx (hk : k ≤ (b p).length) (x : α) :
    flat (Function.update b p ((b p).insertIdx k x)) n =
      (flat b n).insertIdx ((flat b p).length + k) x := by
  obtain ⟨post, h⟩ := flat_split b hp
  have hb := h (b p)
  rw [Function.update_eq_self] at hb
  rw [h, hb, insertIdx_append_right, insertIdx_append_left _ hk]

theorem flat_eraseIdx (hk : k < (b p).length) :
    flat (Function.update b p ((b p).eraseIdx k)) n =
      (flat b n).eraseIdx ((flat b p).length + k) := by
  obtain ⟨post, h⟩ := flat_split b hp
  have hb := h (b p)
  rw [Function.update_eq_self] at hb
  rw [h, hb, List.eraseIdx_append_of_length_le (by omega), Nat.add_sub_cancel_left,
    List.eraseIdx_append_of_lt_length hk]

theorem flat_modify (hk : k < (b p).length) (f : α → α) :
    flat (Function.update b p ((b p).modify k f)) n =
      (flat b n).modify ((flat b p).length + k) f := by
  obtain ⟨post, h⟩ := flat_split b hp
  have hb := h (b p)
  rw [Function.update_eq_self] at hb
  rw [h, hb, modify_append_right, modify_append_left _ hk]

end

/-! ### Counting by number -/

theorem countP_or {q r : α → Prop} [DecidablePred q] [DecidablePred r] {l : List α}
    (h : ∀ a ∈ l, q a → ¬ r a) :
    l.countP (fun a => decide (q a ∨ r a)) =
      l.countP (fun a => decide (q a)) + l.countP fun a => decide (r a) := by
  induction l with
  | nil => rfl
  | cons a l ih =>
    have ha := h a List.mem_cons_self
    simp only [List.countP_cons, ih fun b hb => h b (List.mem_cons_of_mem a hb), decide_eq_true_eq]
    by_cases hq : q a
    · simp [hq, ha hq]; omega
    · by_cases hr : r a
      · simp [hq, hr]; omega
      · simp [hq, hr]

theorem countP_lt_eq_sum (q : α → Prop) [DecidablePred q] (f : α → ℕ) (l : List α) (n : ℕ) :
    l.countP (fun a => decide (q a ∧ f a < n)) =
      ∑ p ∈ Finset.range n, l.countP fun a => decide (q a ∧ f a = p) := by
  induction n with
  | zero => simp
  | succ n ih =>
    rw [Finset.sum_range_succ, ← ih]
    clear ih
    induction l with
    | nil => rfl
    | cons a l ih =>
      simp only [List.countP_cons, ih]
      by_cases hq : q a
      · rcases Nat.lt_trichotomy (f a) n with h | h | h
        · simp [hq, h, h.ne, show f a < n + 1 by omega]; omega
        · simp [hq, h]; omega
        · simp [hq, h.ne', show ¬ f a < n by omega, show ¬ f a < n + 1 by omega]
      · simp [hq]

theorem pairwise_iff_countP_le_one (q : α → Prop) [DecidablePred q] (f : α → ℕ) (l : List α) :
    l.Pairwise (fun a b => ¬ (q a ∧ q b ∧ f a = f b)) ↔
      ∀ p, l.countP (fun a => decide (q a ∧ f a = p)) ≤ 1 := by
  induction l with
  | nil => simp
  | cons a l ih =>
    rw [List.pairwise_cons, ih]
    constructor
    · rintro ⟨ha, hl⟩ p
      rw [List.countP_cons]
      by_cases hp : q a ∧ f a = p
      · have h0 : l.countP (fun b => decide (q b ∧ f b = p)) = 0 := by
          rw [List.countP_eq_zero]
          intro b hb hqb
          rw [decide_eq_true_eq] at hqb
          exact ha b hb ⟨hp.1, hqb.1, by rw [hp.2, hqb.2]⟩
        rw [h0]; split_ifs <;> omega
      · have := hl p
        simpa [hp] using this
    · intro h
      refine ⟨fun b hb ⟨hqa, hqb, hab⟩ => ?_, fun p => ?_⟩
      · have h1 : 0 < l.countP fun b => decide (q b ∧ f b = f a) :=
          List.countP_pos_iff.mpr ⟨b, hb, by simp [hqb, hab]⟩
        have h2 := h (f a)
        rw [List.countP_cons_of_pos (by simp [hqa])] at h2
        omega
      · exact (List.sublist_cons_self a l).countP_le.trans (h p)

end OpTransform.Lib.Blocks
