import Mathlib.Algebra.Order.BigOperators.Group.Finset
import OpTransform.Lib.Keys
import OpTransform.Ops.State
import OpTransform.Theory.Packs

/-! # The merge of concurrent operations

What a set of concurrent operations `P` means on a document `D`: every position `p` of `D` becomes a
block, the elements inserted at `p` and then what is left of the element of `D` there, and the
result `merge D P` is the concatenation of the blocks.

A replica that has applied the operations `P`, in any order and by any pack that covers `P`, holds
`merge D P`, and one operation more takes it to the merge of one operation more (`apply_effect`). -/

namespace OpTransform.Theory.Merge

open OpTransform.Ops OpTransform.Lib.Blocks OpTransform.Lib.Keys OpTransform.Theory.Effect

universe u

variable {T σ : Type u} [Slot T σ]

/-- The position is the serial position, and inside a document of length `n`. -/
structure InRange (n : ℕ) (op : OpDescriptor T) : Prop where
  posser : op.posser = op.pos
  insert : op.typ = .insert → op.pos.toNat ≤ n
  remove : op.typ = .remove → op.pos.toNat < n
  update : op.typ = .update → op.pos.toNat < n

instance (n : ℕ) (op : OpDescriptor T) : Decidable (InRange n op) :=
  decidable_of_iff (op.posser = op.pos ∧ (op.typ = .insert → op.pos.toNat ≤ n) ∧
    (op.typ = .remove → op.pos.toNat < n) ∧ (op.typ = .update → op.pos.toNat < n))
    ⟨fun ⟨h1, h2, h3, h4⟩ => ⟨h1, h2, h3, h4⟩, fun ⟨h1, h2, h3, h4⟩ => ⟨h1, h2, h3, h4⟩⟩

/-- An operation that edits does so at position `x` at most. -/
def Within (x : ℕ) (op : OpDescriptor T) : Prop :=
  op.typ ≠ .nothing → op.typ ≠ .thelast → op.pos.toNat ≤ x

theorem InRange.within {n : ℕ} {op : OpDescriptor T} (h : InRange n op) : Within n op := by
  intro h1 h2
  cases ht : op.typ with
  | nothing => exact absurd ht h1
  | thelast => exact absurd ht h2
  | insert => exact h.insert ht
  | remove => exact (h.remove ht).le
  | update => exact (h.update ht).le

/-- The order of the cids. -/
def cidKey (a : OpDescriptor T) : ℕ := a.cid.toNat

/-- The insertions at `p` in document order: by ascending cid, and for one cid the later first. -/
def insertsAt (P : OpPack T) (p : ℕ) : OpPack T :=
  (P.filter (IsAt .insert p ·)).reverse.insertionSort (KeyLE cidKey)

/-- The update at `p` that decides: the last one of the smallest cid. -/
def winner (P : OpPack T) (p : ℕ) : Option (OpDescriptor T) :=
  lastMin cidKey (P.filter (IsAt .update p ·))

/-- What is left of the element at `p`. -/
def cell (D : List σ) (P : OpPack T) (p : ℕ) : List σ :=
  if Removed P p then [] else (D[p]?.map fun s => (winner P p).elim s (Slot.assign s)).toList

/-- The block of position `p`. -/
def block (D : List σ) (P : OpPack T) (p : ℕ) : List σ :=
  (insertsAt P p).map Slot.create ++ cell D P p

/-- **The merge** of the operations `P` into `D`. -/
def merge (D : List σ) (P : OpPack T) : List σ := flat (block D P) (D.length + 1)

/-- The index in the merge that an operation belongs to. -/
def index (D : List σ) (P : OpPack T) (op : OpDescriptor T) : ℕ :=
  (flat (block D P) op.pos.toNat).length +
    if op.typ = .insert then (insertsAt P op.pos.toNat).countP (cidKey · < cidKey op)
    else (insertsAt P op.pos.toNat).length

/-! ### Without operations -/

theorem block_nil (D : List σ) (p : ℕ) : block D ([] : OpPack T) p = D[p]?.toList := by
  have hr : ¬ Removed ([] : OpPack T) p := by simp [Removed]
  have hw : winner ([] : OpPack T) p = none := rfl
  simp [block, insertsAt, cell, hr, hw]

theorem merge_nil (D : List σ) : merge D ([] : OpPack T) = D := by
  unfold merge
  rw [flat_congr fun p _ => block_nil D p]
  exact flat_getElem? D (by omega)

/-! ### One more operation -/

section
variable {P : OpPack T} {op : OpDescriptor T} {p : ℕ}

theorem insertsAt_snoc : insertsAt (P ++ [op]) p =
    if IsAt .insert p op then (insertsAt P p).orderedInsert (KeyLE cidKey) op
    else insertsAt P p := by
  unfold insertsAt
  split_ifs with h <;> simp [h]

theorem length_insertsAt (P : OpPack T) (p : ℕ) :
    (insertsAt P p).length = P.countP (IsAt .insert p ·) := by
  simp [insertsAt, List.length_insertionSort, List.countP_eq_length_filter]

theorem pairwise_insertsAt (P : OpPack T) (p : ℕ) : (insertsAt P p).Pairwise (KeyLE cidKey) :=
  pairwise_insertionSort _

theorem lowerUpdate_iff {c : UInt32} :
    LowerUpdate P p c ↔ ∃ w, winner P p = some w ∧ w.cid < c := by
  constructor
  · rintro ⟨a, ha, hat, hlt⟩
    have ha' : a ∈ P.filter (IsAt .update p ·) := by simp [ha, hat]
    cases hw : winner P p with
    | none => rw [winner, lastMin_eq_none] at hw; rw [hw] at ha'; simp at ha'
    | some w =>
      have hle : cidKey w ≤ cidKey a := (lastMin_eq_some hw).2 a ha'
      exact ⟨w, rfl, UInt32.lt_iff_toNat_lt.mpr (hle.trans_lt (UInt32.lt_iff_toNat_lt.mp hlt))⟩
  · rintro ⟨w, hw, hlt⟩
    have hm := List.mem_filter.mp (lastMin_eq_some hw).1
    exact ⟨w, hm.1, of_decide_eq_true hm.2, hlt⟩

theorem winner_snoc : winner (P ++ [op]) p =
    if IsAt .update p op ∧ ¬ LowerUpdate P p op.cid then some op else winner P p := by
  by_cases hat : IsAt .update p op
  · have he : winner (P ++ [op]) p = lastMin cidKey (P.filter (IsAt .update p ·) ++ [op]) := by
      simp [winner, hat]
    have hl : LowerUpdate P p op.cid ↔ ∃ w, winner P p = some w ∧ w.cid < op.cid := lowerUpdate_iff
    rw [he, lastMin_snoc, show lastMin cidKey (P.filter (IsAt .update p ·)) = winner P p from rfl]
    cases hw : winner P p with
    | none => simp [hat, hl, hw]
    | some w =>
      have hlt : w.cid < op.cid ↔ cidKey w < cidKey op := UInt32.lt_iff_toNat_lt
      simp only [hw, Option.some.injEq, exists_eq_left', hlt] at hl
      simp only [hat, hl, true_and]
      split_ifs with h
      · rfl
      · rfl
  · simp [winner, hat]

/-! ### One more operation: the document -/

variable {D : List σ}

theorem length_cell (hp : p < D.length) : (cell D P p).length = if Removed P p then 0 else 1 := by
  unfold cell
  split_ifs with h
  · rfl
  · simp [List.getElem?_eq_getElem hp]

theorem cell_of_le (hp : D.length ≤ p) : cell D P p = [] := by
  unfold cell
  split_ifs with h
  · rfl
  · simp [List.getElem?_eq_none hp]

theorem cell_snoc [LawfulSlot T σ] : cell D (P ++ [op]) p =
    if IsAt .remove p op then []
    else if IsAt .update p op ∧ ¬ LowerUpdate P p op.cid then
      (cell D P p).map fun s => Slot.assign s op
    else cell D P p := by
  unfold cell
  simp only [removed_snoc, winner_snoc]
  by_cases hr : Removed P p
  · simp [hr]
  by_cases hop : IsAt .remove p op
  · simp [hop]
  simp only [hr, hop, or_self, if_false]
  split_ifs with hu
  · -- the new update hides the one before
    cases hD : D[p]? with
    | none => rfl
    | some s =>
      cases winner P p with
      | none => rfl
      | some w => simp [LawfulSlot.assign_assign]
  · rfl

theorem block_snoc_of_ne [LawfulSlot T σ] (h : op.pos.toNat ≠ p) :
    block D (P ++ [op]) p = block D P p := by
  have hat : ∀ t, ¬ IsAt t p op := fun t ht => h ht.2
  simp [block, insertsAt_snoc, cell_snoc, hat]

theorem merge_snoc_eq_flat [LawfulSlot T σ] (P : OpPack T) (op : OpDescriptor T) :
    merge D (P ++ [op]) = flat (Function.update (block D P) op.pos.toNat
      (block D (P ++ [op]) op.pos.toNat)) (D.length + 1) := by
  refine flat_congr fun p _ => ?_
  by_cases hp : p = op.pos.toNat
  · subst hp; rw [Function.update_self]
  · rw [Function.update_of_ne hp, block_snoc_of_ne (Ne.symm hp)]

theorem merge_snoc_insert [LawfulSlot T σ] (ht : op.typ = .insert)
    (hp : op.pos.toNat ≤ D.length) :
    merge D (P ++ [op]) = (merge D P).insertIdx (index D P op) (Slot.create op) := by
  have hk : (insertsAt P op.pos.toNat).countP (cidKey · < cidKey op) ≤
      (insertsAt P op.pos.toNat).length := List.countP_le_length
  have hat : IsAt .insert op.pos.toNat op := ⟨ht, rfl⟩
  have hb : block D (P ++ [op]) op.pos.toNat = (block D P op.pos.toNat).insertIdx
      ((insertsAt P op.pos.toNat).countP (cidKey · < cidKey op)) (Slot.create op) := by
    unfold block
    rw [insertsAt_snoc, if_pos hat, orderedInsert_eq_insertIdx (pairwise_insertsAt P _),
      insertIdx_append_left _ (by simpa using hk), List.map_insertIdx, cell_snoc]
    simp [IsAt, ht]
  rw [merge_snoc_eq_flat, hb, index, if_pos ht]
  exact flat_insertIdx _ (by omega) (by simp [block]; omega) _

theorem merge_snoc_remove [LawfulSlot T σ] (ht : op.typ = .remove)
    (hp : op.pos.toNat < D.length) (hr : ¬ Removed P op.pos.toNat) :
    merge D (P ++ [op]) = (merge D P).eraseIdx (index D P op) := by
  have hlen : (cell D P op.pos.toNat).length = 1 := by rw [length_cell hp, if_neg hr]
  obtain ⟨s, hs⟩ := List.length_eq_one_iff.mp hlen
  have hb : block D (P ++ [op]) op.pos.toNat =
      (block D P op.pos.toNat).eraseIdx (insertsAt P op.pos.toNat).length := by
    unfold block
    rw [List.eraseIdx_append_of_length_le (by simp), insertsAt_snoc, cell_snoc, hs]
    simp [IsAt, ht]
  rw [merge_snoc_eq_flat, hb, index, if_neg (by rw [ht]; decide)]
  exact flat_eraseIdx _ (by omega) (by simp [block, hs])

theorem merge_snoc_update [LawfulSlot T σ] (ht : op.typ = .update)
    (hp : op.pos.toNat < D.length) (hr : ¬ Removed P op.pos.toNat)
    (hl : ¬ LowerUpdate P op.pos.toNat op.cid) :
    merge D (P ++ [op]) = (merge D P).modify (index D P op) fun s => Slot.assign s op := by
  have hlen : (cell D P op.pos.toNat).length = 1 := by rw [length_cell hp, if_neg hr]
  obtain ⟨s, hs⟩ := List.length_eq_one_iff.mp hlen
  have hb : block D (P ++ [op]) op.pos.toNat = (block D P op.pos.toNat).modify
      (insertsAt P op.pos.toNat).length fun s => Slot.assign s op := by
    have hm := modify_append_right ((insertsAt P op.pos.toNat).map Slot.create)
      (cell D P op.pos.toNat) 0 fun s => Slot.assign s op
    simp only [List.length_map, Nat.add_zero] at hm
    unfold block
    rw [hm, insertsAt_snoc, cell_snoc, hs]
    simp [IsAt, ht, hl]
  rw [merge_snoc_eq_flat, hb, index, if_neg (by rw [ht]; decide)]
  exact flat_modify _ (by omega) (by simp [block, hs]) _

theorem merge_snoc_killed [LawfulSlot T σ] (hk : Killed P op) :
    merge D (P ++ [op]) = merge D P := by
  have hi : op.typ ≠ .insert := by
    rcases hk with hk | hk
    · exact hk.1
    · rw [hk.1]; decide
  refine flat_congr fun p _ => ?_
  by_cases hp : op.pos.toNat = p
  · subst hp
    unfold block
    rw [insertsAt_snoc, if_neg fun h => hi h.1, cell_snoc]
    rcases hk with ⟨-, hr⟩ | ⟨hu, hl⟩
    · simp [cell, hr]
    · simp [IsAt, hu, hl]
  · exact block_snoc_of_ne hp

theorem merge_snoc_inert [LawfulSlot T σ] (ht : op.typ = .nothing ∨ op.typ = .thelast) :
    merge D (P ++ [op]) = merge D P := by
  refine flat_congr fun p _ => ?_
  unfold block
  rw [insertsAt_snoc, cell_snoc]
  rcases ht with ht | ht <;> simp [IsAt, ht]

/-! ### The index of an operation -/

theorem length_block (hp : p < D.length) : (block D P p).length =
    P.countP (IsAt .insert p ·) + if Removed P p then 0 else 1 := by
  rw [block, List.length_append, List.length_map, length_insertsAt, length_cell hp]

/-- The length of the blocks before `p`: every element of `D` and every insertion, less what is
removed. -/
theorem length_flat_block (hp : p ≤ D.length) :
    (flat (block D P) p).length + removedBefore P p =
      P.countP (fun a => decide (a.typ = .insert ∧ a.pos.toNat < p)) + p := by
  have hins :=
    countP_lt_eq_sum (fun a : OpDescriptor T => a.typ = .insert) (fun a => a.pos.toNat) P p
  have hone : ∑ _r ∈ Finset.range p, 1 = p := by simp
  rw [hins, length_flat, removedBefore, ← Finset.sum_add_distrib]
  nth_rewrite 3 [← hone]
  rw [← Finset.sum_add_distrib]
  refine Finset.sum_congr rfl fun r hr => ?_
  rw [Finset.mem_range] at hr
  rw [length_block (by omega)]
  have he : P.countP (IsAt .insert r ·) =
      P.countP fun a => decide (a.typ = .insert ∧ a.pos.toNat = r) := rfl
  rw [he]
  split_ifs <;> omega

theorem countP_insLeft_eq (P : OpPack T) (op : OpDescriptor T) : P.countP (InsLeft op ·) =
    P.countP (fun a => decide (a.typ = .insert ∧ a.pos.toNat < op.pos.toNat)) +
      if op.typ = .insert then (insertsAt P op.pos.toNat).countP (cidKey · < cidKey op)
      else (insertsAt P op.pos.toNat).length := by
  have hsplit : P.countP (InsLeft op ·) =
      P.countP (fun a => decide (a.typ = .insert ∧ a.pos.toNat < op.pos.toNat)) +
        P.countP (fun a => decide ((op.typ ≠ .insert ∨ a.cid < op.cid) ∧
          IsAt .insert op.pos.toNat a)) := by
    rw [← countP_or fun a _ h1 h2 => by have := h1.2; have := h2.2.2; omega]
    refine List.countP_congr fun a _ => ?_
    rw [decide_eq_true_iff, decide_eq_true_iff]
    unfold InsLeft IsAt
    tauto
  rw [hsplit]
  congr 1
  split_ifs with ht
  · rw [insertsAt, (List.perm_insertionSort _ _).countP_eq, List.countP_reverse, List.countP_filter]
    refine List.countP_congr fun a _ => ?_
    have hlt : a.cid < op.cid ↔ cidKey a < cidKey op := UInt32.lt_iff_toNat_lt
    simp [ht, hlt]
  · rw [length_insertsAt]
    refine List.countP_congr fun a _ => ?_
    simp [ht]

theorem removedBefore_le (P : OpPack T) (p : ℕ) : removedBefore P p ≤ p := by
  calc removedBefore P p ≤ ∑ _r ∈ Finset.range p, 1 :=
        Finset.sum_le_sum fun r _ => by split_ifs <;> omega
    _ = p := by simp

theorem toNat_add_sub {a : UInt32} {m k : ℕ} (hk : k ≤ a.toNat + m) (hm : a.toNat + m < 2 ^ 32) :
    (a + UInt32.ofNat m - UInt32.ofNat k).toNat = a.toNat + m - k := by
  have hm' : (UInt32.ofNat m).toNat = m := UInt32.toNat_ofNat_of_lt' (by show m < 2 ^ 32; omega)
  have hk' : (UInt32.ofNat k).toNat = k := UInt32.toNat_ofNat_of_lt' (by show k < 2 ^ 32; omega)
  rw [UInt32.toNat_sub, UInt32.toNat_add, hm', hk']
  omega

/-- **The serial position** of an operation in range is the index it belongs to. -/
theorem toNat_effect_posser (hop : op.posser = op.pos) (hp : op.pos.toNat ≤ D.length)
    (hlen : D.length + P.length < 2 ^ 32) : (effect P op).posser.toNat = index D P op := by
  have hoff : (flat (block D P) op.pos.toNat).length + removedBefore P op.pos.toNat = _ :=
    length_flat_block hp
  have hins := countP_insLeft_eq P op
  have hle : P.countP (InsLeft op ·) ≤ P.length := List.countP_le_length
  have hrem := removedBefore_le P op.pos.toNat
  simp only [effect, hop]
  rw [toNat_add_sub (by omega) (by omega), index]
  omega

theorem length_merge_le_insert (D : List σ) (P : OpPack T) :
    (merge D P).length ≤ D.length + P.countP (·.typ = .insert) := by
  have hoff : (flat (block D P) D.length).length + removedBefore P D.length = _ :=
    length_flat_block le_rfl
  have hb : (block D P D.length).length = P.countP (IsAt .insert D.length ·) := by
    rw [block, cell_of_le le_rfl, List.append_nil, List.length_map, length_insertsAt]
  have hins : P.countP (fun a => decide (a.typ = .insert ∧ a.pos.toNat < D.length)) +
      P.countP (IsAt .insert D.length ·) ≤ P.countP (·.typ = .insert) := by
    have h := countP_lt_eq_sum (fun a : OpDescriptor T => a.typ = .insert) (fun a => a.pos.toNat) P
    have h1 := h (D.length + 1)
    rw [Finset.sum_range_succ, ← h] at h1
    have h2 : P.countP (fun a => decide (a.typ = .insert ∧ a.pos.toNat < D.length + 1)) ≤
        P.countP (·.typ = .insert) :=
      List.countP_mono_left fun a _ h => by
        rw [decide_eq_true_iff] at h ⊢; exact h.1
    exact h1 ▸ h2
  rw [merge, flat_succ, List.length_append, hb]
  omega

theorem length_merge_le (D : List σ) (P : OpPack T) : (merge D P).length ≤ D.length + P.length :=
  (length_merge_le_insert D P).trans (Nat.add_le_add_left List.countP_le_length _)

/-! ### Applying an operation -/

theorem index_le (ht : op.typ = .insert) (hp : op.pos.toNat ≤ D.length) :
    index D P op ≤ (merge D P).length := by
  have h := length_flat_add_le (block D P) (show op.pos.toNat < D.length + 1 by omega)
  have hk : (insertsAt P op.pos.toNat).countP (cidKey · < cidKey op) ≤
      (insertsAt P op.pos.toNat).length := List.countP_le_length
  simp only [block, List.length_append, List.length_map] at h
  rw [index, if_pos ht, merge]
  exact le_trans (by omega) h

theorem index_lt (ht : op.typ ≠ .insert) (hp : op.pos.toNat < D.length)
    (hr : ¬ Removed P op.pos.toNat) : index D P op < (merge D P).length := by
  have h := length_flat_add_le (block D P) (show op.pos.toNat < D.length + 1 by omega)
  rw [length_block hp, if_neg hr, ← length_insertsAt] at h
  rw [index, if_neg ht, merge]
  omega

theorem effect_inRange (hop : InRange D.length op) (hlen : D.length + P.length < 2 ^ 32) :
    ((effect P op).typ = .insert → (effect P op).posser.toNat ≤ (merge D P).length) ∧
    ((effect P op).typ = .remove ∨ (effect P op).typ = .update →
      (effect P op).posser.toNat < (merge D P).length) := by
  by_cases hk : Killed P op
  · have ht : (effect P op).typ = .nothing := if_pos hk
    rw [ht]; simp
  have ht : (effect P op).typ = op.typ := if_neg hk
  rw [ht]
  refine ⟨fun hi => ?_, fun hru => ?_⟩
  · rw [toNat_effect_posser hop.posser (hop.insert hi) hlen]
    exact index_le hi (hop.insert hi)
  · have hi : op.typ ≠ .insert := by rcases hru with h | h <;> rw [h] <;> decide
    have hp : op.pos.toNat < D.length := by
      rcases hru with h | h
      · exact hop.remove h
      · exact hop.update h
    rw [toNat_effect_posser hop.posser hp.le hlen]
    exact index_lt hi hp fun hr => hk (Or.inl ⟨hi, hr⟩)

theorem apply_effect [LawfulSlot T σ] (hop : InRange D.length op)
    (hlen : D.length + P.length < 2 ^ 32) :
    State.apply (merge D P) (effect P op) = merge D (P ++ [op]) := by
  obtain ⟨hins, hru⟩ := effect_inRange hop hlen
  have hm : (merge D P).length < 2 ^ 32 := (length_merge_le D P).trans_lt hlen
  by_cases hk : Killed P op
  · rw [State.apply_nothing (if_pos hk), merge_snoc_killed hk]
  have ht : (effect P op).typ = op.typ := if_neg hk
  rw [ht] at hins hru
  have hcreate : (Slot.create (effect P op) : σ) = Slot.create op := LawfulSlot.create_trans _ _ _
  have hassign : ∀ s : σ, Slot.assign s (effect P op) = Slot.assign s op :=
    fun s => LawfulSlot.assign_trans _ _ _ _
  cases hty : op.typ with
  | nothing => rw [State.apply_nothing (ht.trans hty), merge_snoc_inert (Or.inl hty)]
  | thelast => rw [State.apply_thelast (ht.trans hty), merge_snoc_inert (Or.inr hty)]
  | insert =>
    have hp := hop.insert hty
    rw [State.apply_insert (ht.trans hty) hm (hins hty), hcreate, merge_snoc_insert hty hp,
      toNat_effect_posser hop.posser hp hlen]
  | remove =>
    have hp := hop.remove hty
    have hi : op.typ ≠ .insert := by rw [hty]; decide
    have hr : ¬ Removed P op.pos.toNat := fun hr => hk (Or.inl ⟨hi, hr⟩)
    rw [State.apply_remove (ht.trans hty) hm (hru (Or.inl hty)), merge_snoc_remove hty hp hr,
      toNat_effect_posser hop.posser hp.le hlen]
  | update =>
    have hi : op.typ ≠ .insert := by rw [hty]; decide
    have hp := hop.update hty
    have hr : ¬ Removed P op.pos.toNat := fun hr => hk (Or.inl ⟨hi, hr⟩)
    have hl : ¬ LowerUpdate P op.pos.toNat op.cid := fun hl => hk (Or.inr ⟨hty, hl⟩)
    rw [State.apply_update (ht.trans hty) hm (hru (Or.inr hty)), merge_snoc_update hty hp hr hl,
      toNat_effect_posser hop.posser hp.le hlen]
    simp only [hassign]

/-! ### Applying a pack -/

theorem applyPut_merge [LawfulSlot T σ] {x : ℕ} {A : OpPack T} (h : Covers x A P)
    (hx : Within x op) (hop : InRange D.length op) (hlen : D.length + P.length < 2 ^ 32) :
    State.applyPut (merge D P) A op =
      (merge D (P ++ [op]), A ++ [A.foldl OpDescriptor.trans op]) := by
  simp only [State.applyPut, OpPack.transformAndPut]
  by_cases hi : op.typ = .nothing ∨ op.typ = .thelast
  · rw [merge_snoc_inert hi]
    have ht := foldl_trans_typ A op
    split_ifs at ht with hk
    · rw [State.apply_nothing ht]
    · rcases hi with hi | hi
      · rw [State.apply_nothing (ht.trans hi)]
      · rw [State.apply_thelast (ht.trans hi)]
  · rw [not_or] at hi
    rw [h.foldl_trans (hx hi.1 hi.2), apply_effect hop hlen]

/-- **Applying operations to a merge** gives the merge with them, and keeps the pack covering. -/
theorem applyAll_merge [LawfulSlot T σ] {x : ℕ} {A : OpPack T} (h : Covers x A P) (src : OpPack T)
    (hsrc : ∀ op ∈ src, InRange D.length op ∧ Within x op)
    (hlen : D.length + P.length + src.length < 2 ^ 32) :
    (State.applyAll (merge D P) A src).1 = merge D (P ++ src) ∧
      Covers x (State.applyAll (merge D P) A src).2 (P ++ src) := by
  induction src using List.reverseRecOn with
  | nil => simpa using h
  | append_singleton src op ih =>
    rw [List.length_append, List.length_singleton] at hlen
    obtain ⟨hdoc, hcov⟩ := ih (fun a ha => hsrc a (List.mem_append_left _ ha)) (by omega)
    obtain ⟨hop, hx⟩ := hsrc op (by simp)
    rw [State.applyAll_snoc, hdoc, applyPut_merge hcov hx hop (by simp; omega), ← List.append_assoc]
    exact ⟨rfl, hcov.put op⟩

theorem applyPack_eq_merge [LawfulSlot T σ] (hP : ∀ op ∈ P, InRange D.length op)
    (hlen : D.length + P.length < 2 ^ 32) : State.applyPack D P = merge D P := by
  have hnil : Covers D.length ([] : OpPack T) [] := Covers.nil
  have h : _ = merge D _ := (applyAll_merge hnil P (fun op hop => ⟨hP op hop, (hP op hop).within⟩)
    (by simpa using hlen)).1
  rwa [merge_nil] at h

end

/-! ### Merges that agree -/

/-- A merge depends on the operations of each client at each position, in their order. -/
theorem merge_congr (D : List σ) {P P' : OpPack T}
    (h : ∀ c p, P.filter (fun a => a.cid = c ∧ a.pos = p) =
      P'.filter (fun a => a.cid = c ∧ a.pos = p)) : merge D P = merge D P' := by
  have hmem : ∀ a, a ∈ P ↔ a ∈ P' := fun a => by
    have := congrArg (a ∈ ·) (h a.cid a.pos)
    simpa using this
  have hat : ∀ (t : OpType) (p : ℕ) (c : ℕ),
      (P.filter (IsAt t p ·)).filter (cidKey · = c) =
        (P'.filter (IsAt t p ·)).filter (cidKey · = c) := by
    intro t p c
    have hf : ∀ Q : OpPack T, (Q.filter (IsAt t p ·)).filter (cidKey · = c) =
        (Q.filter fun a => a.cid = UInt32.ofNat c ∧ a.pos = UInt32.ofNat p).filter
          fun a => IsAt t p a ∧ cidKey a = c := by
      intro Q
      rw [List.filter_filter, List.filter_filter]
      refine List.filter_congr fun a _ => ?_
      rw [Bool.eq_iff_iff]
      simp only [Bool.and_eq_true, decide_eq_true_eq]
      constructor
      · rintro ⟨hc, ht⟩
        refine ⟨⟨ht, hc⟩, ?_, ?_⟩
        · rw [← hc]; exact UInt32.ofNat_toNat.symm
        · rw [← ht.2]; exact UInt32.ofNat_toNat.symm
      · rintro ⟨⟨ht, hc⟩, -⟩
        exact ⟨hc, ht⟩
    rw [hf, hf, h]
  have hrem : ∀ p, Removed P p ↔ Removed P' p := fun p => by
    simp only [Removed, hmem]
  refine flat_congr fun p _ => ?_
  have hins : insertsAt P p = insertsAt P' p := by
    refine insertionSort_congr fun c => ?_
    rw [List.filter_reverse, List.filter_reverse, hat]
  have hwin : winner P p = winner P' p := lastMin_congr (hat .update p)
  simp only [block, cell, hins, hwin, hrem]

end OpTransform.Theory.Merge
