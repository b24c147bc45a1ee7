import OpTransform.Igush.Container

/-! # The shape of the array

"IgushArray is an array of pointers with approximate size of N^1/2 and each element points to a
double-ended queue with approximate size of N^1/2." With the capacity for `N`, the deques have the
size of its square root, whatever has been called (`Balanced`). As long as the capacity is not
exceeded there are no more than that and two of them, so that `_v` never outgrows what `_reserve`
has reserved for it, and an insertion or a removal goes through no more deques (`run_balanced`). -/

namespace OpTransform.Igush

open OpTransform.Lib.Runs OpTransform.Lib.Chunks OpTransform.Ops

variable {T : Type}

namespace IgushArray

/-- **The deques have the size of the square root of the capacity**, which is a multiple of it. -/
structure Balanced (a : IgushArray T) : Prop where
  pos : 0 < a.deqSize
  sqrt : a.deqSize = Nat.sqrt a.capacity
  dvd : a.deqSize ∣ a.capacity

/-- What nothing but `_reserve` sets. -/
structure SameShape (a c : IgushArray T) : Prop where
  capacity : c.capacity = a.capacity
  deqSize : c.deqSize = a.deqSize

variable {a b c : IgushArray T} {init : List (List T)} {last L : List T} {n : ℕ} {x : T}

theorem SameShape.refl (a : IgushArray T) : SameShape a a := ⟨rfl, rfl⟩

theorem SameShape.trans (h : SameShape a b) (h' : SameShape b c) : SameShape a c :=
  ⟨h'.capacity.trans h.capacity, h'.deqSize.trans h.deqSize⟩

theorem Balanced.of_sameShape (ha : Balanced a) (h : SameShape a c) : Balanced c where
  pos := by rw [h.deqSize]; exact ha.pos
  sqrt := by rw [h.deqSize, h.capacity]; exact ha.sqrt
  dvd := by rw [h.deqSize, h.capacity]; exact ha.dvd

/-! ### `_reserve` -/

theorem sqrt_roundUp (hn : 0 < n) :
    n ≤ (n + Nat.sqrt n - 1) / Nat.sqrt n * Nat.sqrt n ∧
      Nat.sqrt ((n + Nat.sqrt n - 1) / Nat.sqrt n * Nat.sqrt n) = Nat.sqrt n := by
  have hpos := Nat.sqrt_pos.mpr hn
  have hle := Nat.sqrt_le n
  have hadd := Nat.sqrt_le_add n
  generalize Nat.sqrt n = s at *
  have hdown := Nat.div_mul_le_self (n + s - 1) s
  have hup := Nat.lt_div_mul_add (a := n + s - 1) hpos
  generalize (n + s - 1) / s = v at *
  have hv : v < s + 3 := by
    have hlt : v * s < (s + 3) * s := by
      rw [Nat.add_mul]
      omega
    exact Nat.lt_of_mul_lt_mul_right hlt
  have hmul : v * s ≤ s * s + (s + s) := by
    have := Nat.mul_le_mul_right s (Nat.lt_succ_iff.mp hv)
    rw [Nat.add_mul] at this
    omega
  obtain ⟨t, ht⟩ := Nat.exists_eq_add_of_le (show s * s ≤ v * s by omega)
  rw [ht]
  exact ⟨by omega, Nat.sqrt_add_eq s (by omega)⟩

theorem reserved_eq (hn : 0 < n) : (reserved n : IgushArray T).deqSize = Nat.sqrt n ∧
    (reserved n : IgushArray T).capacity = (n + Nat.sqrt n - 1) / Nat.sqrt n * Nat.sqrt n := by
  have hpos := Nat.sqrt_pos.mpr hn
  have hvec : (n + Nat.sqrt n - 1) / Nat.sqrt n ≠ 0 := fun h0 => by
    have := (sqrt_roundUp hn).1
    rw [h0, Nat.zero_mul] at this
    omega
  simp only [reserved, if_neg hpos.ne', if_neg hvec, and_self]

theorem le_capacity_reserved (n : ℕ) : n ≤ (reserved n : IgushArray T).capacity := by
  rcases Nat.eq_zero_or_pos n with rfl | hn
  · exact Nat.zero_le _
  · rw [(reserved_eq hn).2]
    exact (sqrt_roundUp hn).1

theorem balanced_reserved (n : ℕ) : Balanced (reserved n : IgushArray T) := by
  rcases Nat.eq_zero_or_pos n with rfl | hn
  · exact ⟨Nat.one_pos, rfl, ⟨1, rfl⟩⟩
  · obtain ⟨hdeq, hcap⟩ := reserved_eq (T := T) hn
    refine ⟨by rw [hdeq]; exact Nat.sqrt_pos.mpr hn, ?_, ?_⟩
    · rw [hdeq, hcap, (sqrt_roundUp hn).2]
    · rw [hdeq, hcap]
      exact Nat.dvd_mul_left _ _

theorem Balanced.sameShape_reserved (h : Balanced a) :
    SameShape a (reserved a.capacity : IgushArray T) := by
  obtain ⟨hpos, hsqrt, q, hq⟩ := h
  have hcap : 0 < a.capacity := Nat.sqrt_pos.mp (hsqrt ▸ hpos)
  obtain ⟨hdeq, hround⟩ := reserved_eq (T := T) hcap
  rw [← hsqrt] at hdeq hround
  refine ⟨?_, hdeq⟩
  have hdiv : (a.capacity + a.deqSize - 1) / a.deqSize = q := by
    rw [Nat.add_sub_assoc hpos, hq, Nat.mul_add_div hpos,
      Nat.div_eq_of_lt (Nat.sub_one_lt hpos.ne'), Nat.add_zero]
  rw [hround, hdiv, Nat.mul_comm, ← hq]

/-! ### Calls -/

theorem sameShape_set (h : a.set n x = .ok c) : SameShape a c := by
  obtain ⟨d, -, h⟩ := exists_of_bind_eq_ok h
  obtain rfl := Except.ok.inj h
  exact ⟨rfl, rfl⟩

theorem sameShape_pushBack (h : a.pushBack x = .ok c) : SameShape a c := by
  obtain ⟨d, -, h⟩ := exists_of_bind_eq_ok h
  split_ifs at h
  · obtain ⟨e, -, h⟩ := exists_of_bind_eq_ok h
    obtain rfl := Except.ok.inj h
    exact ⟨rfl, rfl⟩
  · obtain ⟨e, -, h⟩ := exists_of_bind_eq_ok h
    obtain rfl := Except.ok.inj h
    exact ⟨rfl, rfl⟩

theorem sameShape_insertAt (h : a.insertAt n x = .ok c) : SameShape a c := by
  obtain ⟨first, -, h⟩ := exists_of_bind_eq_ok h
  obtain ⟨it, -, h⟩ := exists_of_bind_eq_ok h
  obtain ⟨d, -, h⟩ := exists_of_bind_eq_ok h
  obtain ⟨⟨d, temp2⟩, -, h⟩ := exists_of_bind_eq_ok h
  obtain ⟨⟨ds, temp2⟩, -, h⟩ := exists_of_bind_eq_ok h
  exact ⟨(sameShape_pushBack h).capacity, (sameShape_pushBack h).deqSize⟩

theorem sameShape_eraseAt (h : a.eraseAt n = .ok c) : SameShape a c := by
  obtain ⟨first, -, h⟩ := exists_of_bind_eq_ok h
  obtain ⟨it, -, h⟩ := exists_of_bind_eq_ok h
  obtain ⟨⟨ds, temp⟩, -, h⟩ := exists_of_bind_eq_ok h
  obtain rfl := Except.ok.inj h
  exact ⟨rfl, rfl⟩

theorem sameShape_pushRange {stop : Iterator} {fuel : ℕ} {first : Iterator}
    (h : a.pushRange stop fuel b first = .ok c) : SameShape b c := by
  induction fuel generalizing b first with
  | zero => cases h
  | succ fuel ih =>
    rw [IgushArray.pushRange] at h
    split_ifs at h
    · obtain rfl := Except.ok.inj h
      exact .refl b
    · obtain ⟨x, -, h⟩ := exists_of_bind_eq_ok h
      obtain ⟨e, hpush, h⟩ := exists_of_bind_eq_ok h
      obtain ⟨it, -, h⟩ := exists_of_bind_eq_ok h
      exact (sameShape_pushBack hpush).trans (ih h)

theorem sameShape_rebuild (h : a.rebuild n = .ok c) : SameShape (reserved n) c := by
  obtain ⟨first, -, h⟩ := exists_of_bind_eq_ok h
  obtain ⟨stop, -, h⟩ := exists_of_bind_eq_ok h
  exact sameShape_pushRange h

/-- **What a call does to the shape**: it stays, unless more than the capacity is reserved. -/
theorem Balanced.edit_cases (ha : Balanced a) {e : Container.Edit T}
    (h : (container T).edit a e = .ok c) :
    SameShape a c ∧ (∀ n, e = .reserve n → n ≤ a.capacity) ∨
      ∃ n, e = .reserve n ∧ a.capacity < n ∧ SameShape (reserved n) c := by
  cases e with
  | reserve n =>
    change a.reserve n = .ok c at h
    rw [IgushArray.reserve] at h
    split_ifs at h with hle
    · obtain rfl := Except.ok.inj h
      exact Or.inl ⟨.refl a, fun _ hn => Container.Edit.reserve.inj hn ▸ hle⟩
    · exact Or.inr ⟨n, rfl, not_le.mp hle, sameShape_rebuild h⟩
  | set i x => exact Or.inl ⟨sameShape_set h, fun _ hn => by cases hn⟩
  | pushBack x => exact Or.inl ⟨sameShape_pushBack h, fun _ hn => by cases hn⟩
  | insert i x => exact Or.inl ⟨sameShape_insertAt h, fun _ hn => by cases hn⟩
  | erase i => exact Or.inl ⟨sameShape_eraseAt h, fun _ hn => by cases hn⟩
  | copy =>
    exact Or.inl ⟨ha.sameShape_reserved.trans (sameShape_rebuild h), fun _ hn => by cases hn⟩

theorem Balanced.edit (ha : Balanced a) {e : Container.Edit T}
    (h : (container T).edit a e = .ok c) :
    Balanced c ∧ a.capacity ≤ c.capacity ∧ ∀ n, e = .reserve n → n ≤ c.capacity := by
  rcases ha.edit_cases h with ⟨hshape, hreserve⟩ | ⟨n, rfl, hlt, hshape⟩
  · exact ⟨ha.of_sameShape hshape, hshape.capacity.ge,
      fun n hn => (hreserve n hn).trans hshape.capacity.ge⟩
  · have hn := hshape.capacity ▸ le_capacity_reserved (T := T) n
    exact ⟨(balanced_reserved n).of_sameShape hshape, hlt.le.trans hn,
      fun _ hn' => Container.Edit.reserve.inj hn' ▸ hn⟩

theorem Balanced.edits (ha : Balanced a) {es : List (Container.Edit T)}
    (h : es.foldlM (container T).edit a = .ok c) :
    Balanced c ∧ a.capacity ≤ c.capacity ∧ ∀ n, .reserve n ∈ es → n ≤ c.capacity := by
  induction es generalizing a with
  | nil =>
    obtain rfl := Except.ok.inj h
    exact ⟨ha, le_rfl, nofun⟩
  | cons e es ih =>
    obtain ⟨b, hb, h⟩ := exists_of_bind_eq_ok h
    obtain ⟨hbalanced, hle, hreserve⟩ := ha.edit hb
    obtain ⟨hc, hle', hreserve'⟩ := ih hbalanced h
    refine ⟨hc, hle.trans hle', fun n hn => ?_⟩
    rcases List.mem_cons.mp hn with hn | hn
    · exact (hreserve n hn.symm).trans hle'
    · exact hreserve' n hn

theorem Cut.length_le (h : Cut a init last) (hbalanced : Balanced a)
    (hcap : (init ++ [last]).flatten.length ≤ a.capacity) :
    a.v.length ≤ a.capacity / a.deqSize ∧ a.v.length ≤ Nat.sqrt a.capacity + 2 := by
  obtain ⟨hpos, hsqrt, q, hq⟩ := hbalanced
  have hdiv : a.capacity / a.deqSize = q := by rw [hq, Nat.mul_div_cancel_left q hpos]
  have hq0 : 0 < q := Nat.pos_of_ne_zero fun h0 => by
    rw [h0, Nat.mul_zero] at hq
    rw [hsqrt, hq, Nat.sqrt_zero] at hpos
    exact Nat.lt_irrefl 0 hpos
  have hle : a.v.length ≤ q := by
    rw [h.length_v]
    by_cases hinit : init = []
    · rw [hinit]
      exact hq0
    · have hlast := List.length_pos_iff.mpr (h.chunked.last_ne hinit)
      rw [List.flatten_append, List.length_append, length_flatten_of_full h.chunked.full,
        List.flatten_singleton, hq, Nat.mul_comm a.deqSize] at hcap
      exact Nat.lt_of_mul_lt_mul_right (a := a.deqSize) (by omega)
  refine ⟨hdiv ▸ hle, hle.trans ?_⟩
  have hadd := Nat.sqrt_le_add a.capacity
  rw [← hsqrt] at hadd ⊢
  have hlt : q * a.deqSize < (a.deqSize + 3) * a.deqSize := by
    rw [Nat.mul_comm, ← hq, Nat.add_mul]
    omega
  exact Nat.lt_succ_iff.mp (Nat.lt_of_mul_lt_mul_right hlt)

end IgushArray

end OpTransform.Igush
