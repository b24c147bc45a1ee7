import Mathlib.Data.Nat.ModEq

/-! # A ring of cells

The cells of a ring follow each other cyclically. `slot m a i` is the `i`-th of `m` cells after the
cell `a`: steps forward and backward are steps of the index (`next_slot`, `prev_slot`), and the
first `m` indices are different cells (`slot_inj`), so that a change of one leaves the others alone
(`getElem?_set_slot`). -/

namespace OpTransform.Lib.Ring

universe u

/-! ### Cells -/

/-- The `i`-th cell after the cell `a`. -/
def slot (m a i : ℕ) : ℕ := (a + i) % m

/-- The next cell. -/
def next (m a : ℕ) : ℕ := if a = m - 1 then 0 else a + 1

/-- The cell before. -/
def prev (m a : ℕ) : ℕ := if a = 0 then m - 1 else a - 1

section
variable {m a i j k : ℕ}

theorem slot_zero (ha : a < m) : slot m a 0 = a := Nat.mod_eq_of_lt ha

theorem slot_lt (ha : a < m) (i : ℕ) : slot m a i < m := Nat.mod_lt _ (by omega)

/-- Without a division: the numbers of the cells start again at the end. -/
theorem slot_eq_ite (ha : a < m) (hi : i ≤ m) :
    slot m a i = if a + i < m then a + i else a + i - m := by
  unfold slot
  split_ifs with h
  · exact Nat.mod_eq_of_lt h
  · rw [Nat.mod_eq_sub_mod (by omega), Nat.mod_eq_of_lt (by omega)]

theorem slot_slot (m a i j : ℕ) : slot m (slot m a i) j = slot m a (i + j) := by
  unfold slot
  rw [Nat.mod_add_mod, Nat.add_assoc]

theorem next_eq (ha : a < m) : next m a = slot m a 1 := by
  unfold next slot
  split_ifs with h
  · rw [show a + 1 = m by omega, Nat.mod_self]
  · rw [Nat.mod_eq_of_lt (by omega)]

theorem prev_eq (ha : a < m) : prev m a = slot m a (m - 1) := by
  unfold prev slot
  split_ifs with h
  · rw [h, Nat.zero_add, Nat.mod_eq_of_lt (by omega)]
  · rw [show a + (m - 1) = a - 1 + m by omega, Nat.add_mod_right, Nat.mod_eq_of_lt (by omega)]

theorem slot_add_self (m a i : ℕ) : slot m a (i + m) = slot m a i := by
  unfold slot
  rw [← Nat.add_assoc, Nat.add_mod_right]

theorem slot_inj (hi : i < m) (hj : j < m) : slot m a i = slot m a j ↔ i = j := by
  refine ⟨fun h => ?_, fun h => by rw [h]⟩
  have hmod : i % m = j % m := Nat.ModEq.add_left_cancel' a h
  rwa [Nat.mod_eq_of_lt hi, Nat.mod_eq_of_lt hj] at hmod

theorem next_slot (ha : a < m) (i : ℕ) : next m (slot m a i) = slot m a (i + 1) := by
  rw [next_eq (slot_lt ha i), slot_slot]

theorem prev_slot (ha : a < m) (i : ℕ) : prev m (slot m a (i + 1)) = slot m a i := by
  rw [prev_eq (slot_lt ha _), slot_slot, show i + 1 + (m - 1) = i + m by omega, slot_add_self]

theorem next_lt (ha : a < m) : next m a < m := by
  rw [next_eq ha]
  exact slot_lt ha 1

theorem prev_lt (ha : a < m) : prev m a < m := by
  rw [prev_eq ha]
  exact slot_lt ha _

theorem slot_next (ha : a < m) (i : ℕ) : slot m (next m a) i = slot m a (i + 1) := by
  rw [next_eq ha, slot_slot, Nat.add_comm]

theorem slot_prev (ha : a < m) (i : ℕ) : slot m (prev m a) (i + 1) = slot m a i := by
  rw [prev_eq ha, slot_slot, show m - 1 + (i + 1) = i + m by omega, slot_add_self]

end

/-! ### Lists of cells -/

section
variable {α : Type u} {cells : List α} {m a i j : ℕ} {x : α}

theorem getElem?_set_slot (hm : cells.length = m) (ha : a < m) (hi : i < m) (hj : j < m) :
    (cells.set (slot m a j) x)[slot m a i]? = if i = j then some x else cells[slot m a i]? := by
  split_ifs with hij
  · subst hij
    exact List.getElem?_set_self (by rw [hm]; exact slot_lt ha i)
  · exact List.getElem?_set_ne fun h => hij ((slot_inj hi hj).mp h.symm)

end

end OpTransform.Lib.Ring
