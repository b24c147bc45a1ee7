import OpTransform.Theory.Effect

/-! # Packs built by `transformAndPut`

The pack built from a list of operations by `transformAndPut` covers the list (`covers_putAll`), so
what it does to a further operation does not depend on the order of the list (`trans_putAll_perm`).

The client keeps the list itself instead of the pack. Operations of other clients see the same
exactly when the list does not remove an element twice (`raw_pack_iff`). -/

namespace OpTransform.Theory.Packs

open OpTransform.Ops OpTransform.Lib.Blocks OpTransform.Theory.Effect

universe u

variable {T : Type u}

/-- The pack built by `transformAndPut` from the empty pack. -/
def putAll (S : OpPack T) : OpPack T :=
  S.foldl (fun pack op => (OpPack.transformAndPut pack op).2) []

/-- A pack built by appending operations that are no duplication. -/
inductive Filtered : OpPack T → Prop
  | nil : Filtered []
  | append {pack : OpPack T} {op : OpDescriptor T} : Filtered pack →
      OpPack.isDuplication pack op = false → Filtered (pack ++ [op])

theorem putAll_snoc (S : OpPack T) (op : OpDescriptor T) :
    putAll (S ++ [op]) = putAll S ++ [(putAll S).foldl OpDescriptor.trans op] := by
  simp [putAll, OpPack.transformAndPut]

theorem covers_putAll (x : ℕ) (S : OpPack T) : Covers x (putAll S) S := by
  induction S using List.reverseRecOn with
  | nil => exact Covers.nil
  | append_singleton S op ih => rw [putAll_snoc]; exact ih.put op

theorem trans_putAll (S : OpPack T) (op : OpDescriptor T) :
    (putAll S).foldl OpDescriptor.trans op = effect S op :=
  (covers_putAll op.pos.toNat S).foldl_trans le_rfl

/-! ### The order of the operations -/

/-- **The order in which a pack was built does not matter** to an operation transformed by it. -/
theorem trans_putAll_perm {S S' : OpPack T} (h : S.Perm S') (C : OpDescriptor T) :
    let a := (putAll S).foldl OpDescriptor.trans C
    let b := (putAll S').foldl OpDescriptor.trans C
    a.typ = b.typ ∧ a.posser = b.posser ∧
      (a.pos = C.pos ∧ a.cid = C.cid ∧ a.rev = C.rev ∧ a.value = C.value) ∧
      (b.pos = C.pos ∧ b.cid = C.cid ∧ b.rev = C.rev ∧ b.value = C.value) := by
  intro a b
  have ha : a = effect S C := trans_putAll S C
  have hb : b = effect S C := by rw [effect_perm h]; exact trans_putAll S' C
  rw [ha, hb]
  exact ⟨rfl, rfl, ⟨rfl, rfl, rfl, rfl⟩, rfl, rfl, rfl, rfl⟩

/-- Two clients remove one element, and a third one inserts before it. -/
theorem trans_putAll_perm_removals :
    let a := (putAll [.ofArgs .remove 0 0 1, .ofArgs .remove 0 0 2, .ofArgs .insert 0 7 3]).foldl
      OpDescriptor.trans (.ofArgs .update 1 (9 : ℕ) 4)
    let b := (putAll [.ofArgs .insert 0 7 3, .ofArgs .remove 0 0 2, .ofArgs .remove 0 0 1]).foldl
      OpDescriptor.trans (.ofArgs .update 1 (9 : ℕ) 4)
    a.typ = b.typ ∧ a.posser = b.posser := by
  have h := trans_putAll_perm (List.reverse_perm
    [OpDescriptor.ofArgs .insert 0 7 3, .ofArgs .remove 0 0 2, .ofArgs .remove 0 0 1])
    (.ofArgs .update 1 9 4)
  exact ⟨h.1, h.2.1⟩

/-! ### The raw pack -/

/-- No two operations of the pack remove the same element. -/
def NoDoubleRemove (P : OpPack T) : Prop :=
  P.Pairwise fun a b => ¬ (a.typ = .remove ∧ b.typ = .remove ∧ a.pos = b.pos)

theorem noDoubleRemove_iff {P : OpPack T} :
    NoDoubleRemove P ↔ ∀ p, P.countP (IsAt .remove p ·) ≤ 1 := by
  have h := pairwise_iff_countP_le_one (fun a : OpDescriptor T => a.typ = .remove)
    (fun a => a.pos.toNat) P
  simp only [UInt32.toNat_inj] at h
  exact h

theorem Filtered.noDoubleRemove {P : OpPack T} (h : Filtered P) : NoDoubleRemove P := by
  induction h with
  | nil => exact List.Pairwise.nil
  | @append pack op _ hd ih =>
    refine List.pairwise_append.mpr ⟨ih, List.pairwise_singleton _ _, ?_⟩
    rintro a ha b hb ⟨h1, h2, h3⟩
    obtain rfl := List.mem_singleton.mp hb
    simp only [OpPack.isDuplication, List.any_eq_false] at hd
    have := hd a ha
    simp [h2, h3] at this

theorem trans_raw (P : OpPack T) (op : OpDescriptor T) :
    P.foldl OpDescriptor.trans op = { effect P op with
      posser := (effect P op).posser - UInt32.ofNat (extraRemovals P op.pos.toNat) } := by
  rw [foldl_trans, effect, countP_remLeft_eq, UInt32.ofNat_add]
  simp only [exists_kills]
  congr 1
  grind

theorem extraRemovals_le (P : OpPack T) (op : OpDescriptor T) :
    extraRemovals P op.pos.toNat ≤ P.length := by
  have h1 := countP_remLeft_eq P op
  have h2 : P.countP (RemLeft op ·) ≤ P.length := List.countP_le_length
  omega

/-- **When a client may keep its raw pack.** Operations of other clients are transformed by the raw
pack as by the pack built from it, if and only if it removes no element twice. -/
theorem raw_pack_iff (c : UInt32) (P : OpPack T) (hlen : P.length < 2 ^ 32)
    (hpos : ∀ op ∈ P, op.pos < UINT_MAX) :
    ((∀ C : OpDescriptor T, C.cid ≠ c →
        (P.foldl OpDescriptor.trans C).typ = ((putAll P).foldl OpDescriptor.trans C).typ ∧
        (P.foldl OpDescriptor.trans C).posser = ((putAll P).foldl OpDescriptor.trans C).posser) ↔
      P.Pairwise fun a b => ¬ (a.typ = .remove ∧ b.typ = .remove ∧ a.pos = b.pos)) ∧
    (Filtered P → P.Pairwise fun a b => ¬ (a.typ = .remove ∧ b.typ = .remove ∧ a.pos = b.pos)) := by
  refine ⟨⟨fun h => ?_, fun h C _ => ?_⟩, Filtered.noDoubleRemove⟩
  · refine noDoubleRemove_iff.mpr fun p => ?_
    by_contra hp
    -- an insertion right of the element removed twice is shifted differently
    obtain ⟨a, ha, hat⟩ := List.countP_pos_iff.mp (show 0 < P.countP (IsAt .remove p ·) by omega)
    have hap : a.pos.toNat = p := (of_decide_eq_true hat).2
    have hmax : a.pos.toNat < 2 ^ 32 - 1 := UInt32.lt_iff_toNat_lt.mp (hpos a ha)
    obtain ⟨c', hc'⟩ : ∃ c' : UInt32, c' ≠ c := ⟨c + 1, by grind⟩
    set C : OpDescriptor T := .ofArgs .insert (a.pos + 1) a.value c' with hC
    have hCp : C.pos.toNat = p + 1 := by
      simp only [hC, OpDescriptor.ofArgs, UInt32.toNat_add, hap]
      simp; omega
    have hextra : 0 < extraRemovals P C.pos.toNat := by
      rw [Nat.pos_iff_ne_zero, ne_eq, extraRemovals_eq_zero]
      push Not
      exact ⟨p, by omega, by omega⟩
    have hle := extraRemovals_le P C
    have hpq := (h C hc').2
    rw [trans_raw, trans_putAll] at hpq
    have h0 : UInt32.ofNat (extraRemovals P C.pos.toNat) = 0 := by
      simp only at hpq; grind
    have := congrArg UInt32.toNat h0
    rw [UInt32.toNat_ofNat_of_lt' (by show _ < 2 ^ 32; omega)] at this
    simp at this; omega
  · have hr : Covers C.pos.toNat P P := Covers.refl fun p _ => noDoubleRemove_iff.mp h p
    rw [hr.foldl_trans le_rfl, trans_putAll]
    exact ⟨rfl, rfl⟩

/-- The raw pack of a client that removes one element twice. -/
theorem raw_pack_iff_double :
    ¬ ∀ C : OpDescriptor ℕ, C.cid ≠ 1 →
      ([.ofArgs .remove 0 0 1, .ofArgs .remove 0 0 1].foldl OpDescriptor.trans C).typ =
        ((putAll [.ofArgs .remove 0 0 1, .ofArgs .remove 0 0 1]).foldl OpDescriptor.trans C).typ ∧
      ([.ofArgs .remove 0 0 1, .ofArgs .remove 0 0 1].foldl OpDescriptor.trans C).posser =
        ((putAll [.ofArgs .remove 0 0 1, .ofArgs .remove 0 0 1]).foldl
          OpDescriptor.trans C).posser := by
  have hiff := (raw_pack_iff 1 [OpDescriptor.ofArgs .remove 0 0 1, .ofArgs .remove 0 0 1]
    (by decide) (by decide)).1
  exact fun h => absurd (hiff.mp h) (by decide)

end OpTransform.Theory.Packs
