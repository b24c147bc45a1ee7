import OpTransform.Theory.Merge

/-! # Confluence

Applying a pack of concurrent operations to a document gives the intended result
(`applyPack_eq_intended`). It does not depend on the order of the pack, as long as the operations of
one client at one position keep theirs (`confluence`); the orders of `orderPos` and `orderRev` are
such, if every client numbers its operations. -/

namespace OpTransform.Theory.Confluence

open OpTransform.Ops OpTransform.Theory.Effect OpTransform.Theory.Merge

universe u

variable {T : Type u}

/-! ### The intended result -/

/-- **The intended result** of the operations `P` on the values `D`: position by position the
inserted values, and the old element unless it is removed, with the value of the deciding update. -/
def intended (D : List T) (P : OpPack T) : List T :=
  (List.range (D.length + 1)).flatMap fun p =>
    (insertsAt P p).map (·.value) ++
      if h : p < D.length then
        if Removed P p then []
        else match winner P p with
          | some u => [u.value]
          | none => [D[p]]
      else []

theorem merge_eq_intended (D : List T) (P : OpPack T) : merge D P = intended D P := by
  refine List.flatMap_congr fun p _ => ?_
  have hcell : cell D P p = if h : p < D.length then
      if Removed P p then [] else match winner P p with | some u => [u.value] | none => [D[p]]
      else [] := by
    split_ifs with hp hr
    · simp [cell, hr]
    · cases hw : winner P p <;> simp [cell, hr, hw, List.getElem?_eq_getElem hp, Slot.assign]
    · exact cell_of_le (by omega)
  rw [block, hcell]
  rfl

/-- **A pack has the intended meaning.** -/
theorem applyPack_eq_intended (D : List T) (P : OpPack T) (hP : ∀ op ∈ P, InRange D.length op)
    (hlen : D.length + P.length < 2 ^ 32) : State.applyPack D P = intended D P := by
  rw [applyPack_eq_merge hP hlen, merge_eq_intended]

/-- Two clients write to a document of two elements. -/
theorem applyPack_eq_intended_two :
    State.applyPack [10, 20] [.ofArgs .insert 1 1 2, .ofArgs .insert 1 2 2, .ofArgs .insert 1 3 1,
      .ofArgs .update 1 4 2, .ofArgs .update 1 5 1, .ofArgs .remove 0 0 2] =
        ([3, 2, 1, 5] : List ℕ) := by
  rw [applyPack_eq_intended _ _ (by decide) (by decide)]
  decide

/-! ### Sorted packs -/

/-- A strict weak order, as `std::sort` requires it. -/
structure StrictWeakOrder {α : Type u} (less : α → α → Bool) : Prop where
  irrefl : ∀ a, less a a = false
  trans : ∀ a b c, less a b = true → less b c = true → less a c = true
  incomp : ∀ a b c, less a b = false → less b a = false → less b c = false → less c b = false →
    less a c = false

/-- What `std::sort` promises: a permutation, sorted if the order is strict and weak. -/
structure IsSort {α : Type u} (sort : (α → α → Bool) → List α → List α) : Prop where
  perm : ∀ less l, (sort less l).Perm l
  sorted : ∀ less l, StrictWeakOrder less → (sort less l).Pairwise fun a b => less b a = false

theorem lessPos_eq (a b : OpDescriptor T) : OpPack.lessPos a b = true ↔
    a.pos.toNat < b.pos.toNat ∨ a.pos.toNat = b.pos.toNat ∧ a.cid.toNat < b.cid.toNat ∨
      a.pos.toNat = b.pos.toNat ∧ a.cid.toNat = b.cid.toNat ∧ a.rev.toNat < b.rev.toNat := by
  simp only [OpPack.lessPos, Bool.or_eq_true, Bool.and_eq_true, decide_eq_true_eq, beq_iff_eq,
    UInt32.lt_iff_toNat_lt, ← UInt32.toNat_inj]
  tauto

theorem lessRev_eq (a b : OpDescriptor T) : OpPack.lessRev a b = true ↔
    a.rev.toNat < b.rev.toNat ∨ a.rev.toNat = b.rev.toNat ∧ a.cid.toNat < b.cid.toNat := by
  simp only [OpPack.lessRev, Bool.or_eq_true, Bool.and_eq_true, decide_eq_true_eq, beq_iff_eq,
    UInt32.lt_iff_toNat_lt, ← UInt32.toNat_inj]

theorem strictWeakOrder_lessPos : StrictWeakOrder (OpPack.lessPos (T := T)) := by
  refine ⟨fun a => ?_, fun a b c => ?_, fun a b c => ?_⟩ <;>
    simp only [← Bool.not_eq_true, lessPos_eq] <;> omega

theorem strictWeakOrder_lessRev : StrictWeakOrder (OpPack.lessRev (T := T)) := by
  refine ⟨fun a => ?_, fun a b c => ?_, fun a b c => ?_⟩ <;>
    simp only [← Bool.not_eq_true, lessRev_eq] <;> omega

/-- A permutation sorted by revision inside each client's operations at each position keeps their
order, if every client's revisions increase. -/
theorem filter_eq_of_sorted {P P' : OpPack T} (hperm : P'.Perm P)
    (hrev : ∀ c, (P.filter (·.cid = c)).Pairwise fun a b => a.rev < b.rev)
    (hsorted : P'.Pairwise fun a b => a.cid = b.cid → a.pos = b.pos → a.rev ≤ b.rev)
    (c p : UInt32) :
    P.filter (fun a => a.cid = c ∧ a.pos = p) = P'.filter fun a => a.cid = c ∧ a.pos = p := by
  have hlt : (P.filter fun a => a.cid = c ∧ a.pos = p).Pairwise fun a b => a.rev < b.rev := by
    have hsub : (P.filter fun a => a.cid = c ∧ a.pos = p) =
        (P.filter (·.cid = c)).filter (·.pos = p) := by
      rw [List.filter_filter]
      exact List.filter_congr fun a _ => by simp [Bool.decide_and, and_comm]
    rw [hsub]
    exact (hrev c).filter _
  have hle : (P.filter fun a => a.cid = c ∧ a.pos = p).Pairwise fun a b => a.rev ≤ b.rev :=
    hlt.imp fun h => UInt32.le_of_lt h
  have hle' : (P'.filter fun a => a.cid = c ∧ a.pos = p).Pairwise fun a b => a.rev ≤ b.rev := by
    refine (hsorted.filter _).imp_of_mem fun ha hb h => ?_
    simp only [List.mem_filter, decide_eq_true_eq] at ha hb
    exact h (ha.2.1.trans hb.2.1.symm) (ha.2.2.trans hb.2.2.symm)
  have hpf := hperm.symm.filter fun a => decide (a.cid = c ∧ a.pos = p)
  -- the revisions are distinct
  have hnd : ((P.filter fun a => a.cid = c ∧ a.pos = p).map (·.rev)).Nodup :=
    List.pairwise_map.mpr (hlt.imp fun h => UInt32.ne_of_lt h)
  refine List.Perm.eq_of_pairwise (fun a b ha hb hab hba => ?_) hle hle' hpf
  exact List.inj_on_of_nodup_map hnd ha (hpf.mem_iff.mpr hb) (UInt32.le_antisymm hab hba)

/-! ### Confluence -/

/-- **Confluence.** The order of a pack does not matter, as long as the operations of each client at
each position keep theirs. In particular the pack may be sorted by position or by revision. -/
theorem confluence (D : List T) (P : OpPack T) (hP : ∀ op ∈ P, InRange D.length op)
    (hlen : D.length + P.length < 2 ^ 32) :
    (∀ P', P'.Perm P →
      (∀ c p, P.filter (fun a => a.cid = c ∧ a.pos = p) =
        P'.filter fun a => a.cid = c ∧ a.pos = p) →
      State.applyPack D P' = State.applyPack D P) ∧
    (∀ sort, IsSort sort → (∀ c, (P.filter (·.cid = c)).Pairwise fun a b => a.rev < b.rev) →
      State.applyPack D (OpPack.orderPos sort P) = State.applyPack D P ∧
      State.applyPack D (OpPack.orderRev sort P) = State.applyPack D P) := by
  have hmain : ∀ P', P'.Perm P →
      (∀ c p, P.filter (fun a => a.cid = c ∧ a.pos = p) =
        P'.filter fun a => a.cid = c ∧ a.pos = p) →
      State.applyPack D P' = State.applyPack D P := by
    intro P' hperm hsame
    rw [applyPack_eq_merge hP hlen, applyPack_eq_merge (fun op hop => hP op (hperm.subset hop))
      (by rw [hperm.length_eq]; exact hlen), merge_congr D hsame]
  refine ⟨hmain, fun sort hsort hrev => ⟨?_, ?_⟩⟩
  · have hperm := hsort.perm OpPack.lessPos P
    refine hmain _ hperm (filter_eq_of_sorted hperm hrev ?_)
    refine (hsort.sorted _ P strictWeakOrder_lessPos).imp fun {a b} h hc hp => ?_
    rw [← Bool.not_eq_true, lessPos_eq] at h
    rw [UInt32.le_iff_toNat_le]
    rw [hc, hp] at h
    omega
  · have hperm := hsort.perm OpPack.lessRev P
    refine hmain _ hperm (filter_eq_of_sorted hperm hrev ?_)
    refine (hsort.sorted _ P strictWeakOrder_lessRev).imp fun {a b} h hc _ => ?_
    rw [← Bool.not_eq_true, lessRev_eq] at h
    rw [UInt32.le_iff_toNat_le]
    omega

theorem isSort_mergeSort {α : Type u} :
    IsSort fun (less : α → α → Bool) l => l.mergeSort fun a b => !less b a where
  perm less l := List.mergeSort_perm l _
  sorted less l h := by
    have htrans : ∀ a b c : α, (!less b a) = true → (!less c b) = true → (!less c a) = true := by
      intro a b c hab hbc
      rw [Bool.not_eq_true'] at hab hbc ⊢
      cases hca : less c a with
      | false => rfl
      | true =>
        -- `b` is neither before nor after one of them
        cases hab' : less a b with
        | true => exact absurd (h.trans c a b hca hab') (by rw [hbc]; decide)
        | false =>
          cases hbc' : less b c with
          | true => exact absurd (h.trans b c a hbc' hca) (by rw [hab]; decide)
          | false => exact absurd (h.incomp c b a hbc hbc' hab hab') (by rw [hca]; decide)
    have htotal : ∀ a b : α, ((!less b a) || (!less a b)) = true := by
      intro a b
      cases hab : less a b with
      | false => simp
      | true =>
        cases hba : less b a with
        | false => simp
        | true => exact absurd (h.trans a b a hab hba) (by rw [h.irrefl]; decide)
    exact (List.pairwise_mergeSort htrans htotal l).imp fun h => by simpa using h

/-- The merge sort by position of a pack of two clients. -/
theorem confluence_mergeSort :
    State.applyPack [10, 20] (OpPack.orderPos (fun less l => l.mergeSort fun a b => !less b a)
      [.ofArgs .insert 1 1 1 1, .ofArgs .remove 1 0 2 2, .ofArgs .update 0 4 1 3]) =
    State.applyPack [10, 20]
      [.ofArgs .insert 1 1 1 1, .ofArgs .remove 1 0 2 2, .ofArgs .update 0 (4 : ℕ) 1 3] :=
  ((confluence [10, 20]
    [.ofArgs .insert 1 1 1 1, .ofArgs .remove 1 0 2 2, .ofArgs .update 0 (4 : ℕ) 1 3] (by decide)
    (by decide)).2 _ isSort_mergeSort fun _ => List.Pairwise.filter _ (by decide)).1

end OpTransform.Theory.Confluence
