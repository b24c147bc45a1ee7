import Mathlib.Data.List.MinMax
import Mathlib.Data.List.Sort

/-! # Lists with keys

`List.insertionSort` by a key is stable: it keeps, for every key, the elements of that key in their
order (`filter_insertionSort`). A list sorted by a key is determined by these
(`eq_of_filter_key_eq`). Inserting into a sorted list puts the element at the index that counts the
smaller keys (`orderedInsert_eq_insertIdx`).

`lastMin` is the last of the elements with the smallest key. It too is determined by the elements of
each key in their order (`lastMin_congr`), and a scan computes it (`lastMin_snoc`). -/

namespace OpTransform.Lib.Keys

universe u v

variable {α : Type u} {κ : Type v} [LinearOrder κ] (key : α → κ)

/-! ### Sorting -/

/-- The order of the keys. -/
abbrev KeyLE (a b : α) : Prop := key a ≤ key b

theorem filter_orderedInsert (c : κ) (a : α) (l : List α) :
    (l.orderedInsert (KeyLE key) a).filter (key · = c) = (a :: l).filter (key · = c) := by
  induction l with
  | nil => rfl
  | cons b l ih =>
    rw [List.orderedInsert_cons]
    split_ifs with h
    · rfl
    · -- `b` stays before `a`, and its key is smaller
      have hlt : key b < key a := not_le.mp h
      rw [List.filter_cons, ih]
      by_cases hb : key b = c
      · have ha : key a ≠ c := by rintro rfl; exact hlt.ne hb
        simp [hb, ha]
      · simp [List.filter_cons, hb]

theorem filter_insertionSort (c : κ) (l : List α) :
    (l.insertionSort (KeyLE key)).filter (key · = c) = l.filter (key · = c) := by
  induction l with
  | nil => rfl
  | cons a l ih =>
    rw [List.insertionSort_cons, filter_orderedInsert]
    simp only [List.filter_cons, ih]

variable {key}

theorem pairwise_insertionSort (l : List α) :
    (l.insertionSort (KeyLE key)).Pairwise (KeyLE key) := by
  have : IsTrans α (KeyLE key) := ⟨fun _ _ _ => le_trans⟩
  have : Std.Total (KeyLE key) := ⟨fun a b => le_total (key a) (key b)⟩
  exact List.pairwise_insertionSort _ l

/-- **A sorted list is determined by the elements of each key.** -/
theorem eq_of_filter_key_eq : ∀ {l l' : List α}, l.Pairwise (KeyLE key) → l'.Pairwise (KeyLE key) →
    (∀ c, l.filter (key · = c) = l'.filter (key · = c)) → l = l'
  | [], [], _, _, _ => rfl
  | [], b :: l', _, _, hf => by have := hf (key b); simp at this
  | a :: l, [], _, _, hf => by have := hf (key a); simp at this
  | a :: l, b :: l', h, h', hf => by
    have hab : key a = key b := by
      have ha : a ∈ (b :: l').filter (key · = key a) := by rw [← hf]; simp
      have hb : b ∈ (a :: l).filter (key · = key b) := by rw [hf]; simp
      refine le_antisymm ?_ ?_
      · rcases List.mem_cons.mp (List.mem_filter.mp hb).1 with rfl | hb
        · exact le_rfl
        · exact List.rel_of_pairwise_cons h hb
      · rcases List.mem_cons.mp (List.mem_filter.mp ha).1 with rfl | ha
        · exact le_rfl
        · exact List.rel_of_pairwise_cons h' ha
    have he : a = b := by
      have := hf (key a)
      simp only [List.filter_cons, hab, decide_true, if_true] at this
      exact (List.cons.inj this).1
    subst he
    have htail : l = l' := eq_of_filter_key_eq h.of_cons h'.of_cons fun c => by
      have := hf c
      simp only [List.filter_cons] at this
      split_ifs at this
      · exact (List.cons.inj this).2
      · exact this
    rw [htail]

theorem insertionSort_congr {l l' : List α}
    (h : ∀ c, l.filter (key · = c) = l'.filter (key · = c)) :
    l.insertionSort (KeyLE key) = l'.insertionSort (KeyLE key) := by
  refine eq_of_filter_key_eq (pairwise_insertionSort l) (pairwise_insertionSort l') fun c => ?_
  rw [filter_insertionSort, filter_insertionSort, h]

theorem orderedInsert_eq_insertIdx {l : List α} (h : l.Pairwise (KeyLE key)) (a : α) :
    l.orderedInsert (KeyLE key) a = l.insertIdx (l.countP (key · < key a)) a := by
  induction l with
  | nil => rfl
  | cons b l ih =>
    rw [List.orderedInsert_cons]
    split_ifs with hab
    · -- nothing is smaller
      have h0 : (b :: l).countP (key · < key a) = 0 := by
        rw [List.countP_eq_zero]
        intro x hx
        rcases List.mem_cons.mp hx with rfl | hx
        · simpa using hab
        · simpa using hab.trans (List.rel_of_pairwise_cons h hx)
      rw [h0, List.insertIdx_zero]
    · rw [List.countP_cons_of_pos (by simpa using not_le.mp hab), List.insertIdx_succ_cons,
        ih h.of_cons]

/-! ### The last of the smallest -/

variable (key) in
/-- The last element of the smallest key. -/
def lastMin (l : List α) : Option α := (l.filter fun a => l.all fun b => key a ≤ key b).getLast?

theorem lastMin_eq {l : List α} {w : α} (hw : w ∈ l) (hmin : ∀ a ∈ l, key w ≤ key a) :
    lastMin key l = (l.filter (key · = key w)).getLast? := by
  unfold lastMin
  congr 1
  refine List.filter_congr fun a ha => ?_
  rw [Bool.eq_iff_iff]
  simp only [List.all_eq_true, decide_eq_true_eq]
  exact ⟨fun h => le_antisymm (h w hw) (hmin a ha), fun h b hb => h ▸ hmin b hb⟩

variable (key) in
theorem exists_min {l : List α} (h : l ≠ []) : ∃ w ∈ l, ∀ a ∈ l, key w ≤ key a := by
  cases hm : l.argmin key with
  | none => exact absurd (List.argmin_eq_none.mp hm) h
  | some w => exact ⟨w, List.argmin_mem hm, fun a ha => List.le_of_mem_argmin ha hm⟩

@[simp] theorem lastMin_eq_none {l : List α} : lastMin key l = none ↔ l = [] := by
  constructor
  · intro h
    by_contra hl
    obtain ⟨w, hw, hmin⟩ := exists_min key hl
    rw [lastMin_eq hw hmin, List.getLast?_eq_none_iff, List.filter_eq_nil_iff] at h
    exact h w hw (by simp)
  · rintro rfl; rfl

theorem lastMin_eq_some {l : List α} {w : α} (h : lastMin key l = some w) :
    w ∈ l ∧ ∀ a ∈ l, key w ≤ key a := by
  have hw := List.mem_filter.mp (List.mem_of_getLast? h)
  refine ⟨hw.1, fun a ha => ?_⟩
  exact of_decide_eq_true (List.all_eq_true.mp hw.2 a ha)

theorem lastMin_snoc (l : List α) (a : α) :
    lastMin key (l ++ [a]) =
      match lastMin key l with
      | none => some a
      | some w => if key w < key a then some w else some a := by
  cases h : lastMin key l with
  | none => rw [lastMin_eq_none.mp h]; simp [lastMin]
  | some w =>
    obtain ⟨hw, hmin⟩ := lastMin_eq_some h
    have hl := lastMin_eq hw hmin
    simp only
    split_ifs with hlt
    · rw [lastMin_eq (List.mem_append_left [a] hw), List.filter_append, ← h, hl]
      · simp [hlt.ne']
      · simp only [List.mem_append, List.mem_singleton]
        rintro b (hb | rfl)
        · exact hmin b hb
        · exact hlt.le
    · rw [lastMin_eq (List.mem_append_right l (List.mem_singleton_self a)), List.filter_append]
      · simp
      · simp only [List.mem_append, List.mem_singleton]
        rintro b (hb | rfl)
        · exact (not_lt.mp hlt).trans (hmin b hb)
        · exact le_rfl

theorem mem_of_filter_key_eq {l l' : List α}
    (h : ∀ c, l.filter (key · = c) = l'.filter (key · = c)) {a : α} (ha : a ∈ l) : a ∈ l' := by
  have : a ∈ l.filter (key · = key a) := by simp [ha]
  rw [h] at this
  exact (List.mem_filter.mp this).1

theorem lastMin_congr {l l' : List α} (h : ∀ c, l.filter (key · = c) = l'.filter (key · = c)) :
    lastMin key l = lastMin key l' := by
  by_cases hl : l = []
  · subst hl
    have : l' = [] := List.eq_nil_iff_forall_not_mem.mpr fun a ha => by
      have := mem_of_filter_key_eq (fun c => (h c).symm) ha
      simp at this
    rw [this]
  · obtain ⟨w, hw, hmin⟩ := exists_min key hl
    rw [lastMin_eq hw hmin, h, lastMin_eq (mem_of_filter_key_eq h hw)]
    exact fun a ha => hmin a (mem_of_filter_key_eq (fun c => (h c).symm) ha)

end OpTransform.Lib.Keys
