import OpTransform.Lib.Blocks
import OpTransform.Ops.Descriptor

/-! # The effect of a pack on an operation

`trans` looks at one earlier operation. Over a whole pack its effect is a count and two questions
(`foldl_trans`): the insertions and the removals left of the operation, whether a removal has its
position, and whether an update of a smaller cid has it.

The packs that replicas keep differ: the server keeps transformed operations, a client its own as it
sent them, and the order differs too. `Covers x A P` says that the pack `A`, whatever has become of
its operations, still stands for the operations `P`, as far as operations up to position `x` can
tell. All packs that cover `P` have the same effect (`Covers.foldl_trans`), and `transformAndPut`
keeps a pack covering (`Covers.put`). -/

namespace OpTransform.Theory.Effect

open OpTransform.Ops OpTransform.Lib.Blocks

universe u

variable {T : Type u}

/-! ### One operation -/

/-- `a` has type `t` and position `p`. -/
def IsAt (t : OpType) (p : ℕ) (a : OpDescriptor T) : Prop := a.typ = t ∧ a.pos.toNat = p

instance (t : OpType) (p : ℕ) (a : OpDescriptor T) : Decidable (IsAt t p a) :=
  inferInstanceAs (Decidable (_ ∧ _))

/-- `a` inserts left of `op`: before its position, or at it with priority over `op`. -/
def InsLeft (op a : OpDescriptor T) : Prop :=
  a.typ = .insert ∧ (a.pos.toNat < op.pos.toNat ∨
    a.pos.toNat = op.pos.toNat ∧ (op.typ ≠ .insert ∨ a.cid < op.cid))

instance (op a : OpDescriptor T) : Decidable (InsLeft op a) := inferInstanceAs (Decidable (_ ∧ _))

/-- `a` removes left of `op`. -/
def RemLeft (op a : OpDescriptor T) : Prop := a.typ = .remove ∧ a.pos.toNat < op.pos.toNat

instance (op a : OpDescriptor T) : Decidable (RemLeft op a) := inferInstanceAs (Decidable (_ ∧ _))

/-- `a` makes nothing of `op`: it removes the same element, or updates it with priority. -/
def Kills (op a : OpDescriptor T) : Prop :=
  a.pos.toNat = op.pos.toNat ∧
    (op.typ ≠ .insert ∧ a.typ = .remove ∨ op.typ = .update ∧ a.typ = .update ∧ a.cid < op.cid)

instance (op a : OpDescriptor T) : Decidable (Kills op a) := inferInstanceAs (Decidable (_ ∧ _))

theorem Kills.typ_ne {op a : OpDescriptor T} (h : Kills op a) : op.typ ≠ .insert := by
  rcases h.2 with h | h
  · exact h.1
  · rw [h.1]; decide

theorem trans_eq (op a : OpDescriptor T) :
    op.trans a = { op with
      typ := if Kills op a then .nothing else op.typ
      posser :=
        op.posser + (if InsLeft op a then 1 else 0) - (if RemLeft op a then 1 else 0) } := by
  obtain ⟨r, p, ps, v, t, c⟩ := op
  obtain ⟨r', p', ps', v', t', c'⟩ := a
  have hlt : p < p' ↔ p.toNat < p'.toNat := UInt32.lt_iff_toNat_lt
  have heq : p = p' ↔ p.toNat = p'.toNat := UInt32.toNat_inj.symm
  rcases Nat.lt_trichotomy p.toNat p'.toNat with h | h | h
  · -- `a` is right of the operation
    have h1 : ¬ p'.toNat = p.toNat := by omega
    have h2 : ¬ p'.toNat < p.toNat := by omega
    simp [OpDescriptor.trans, Kills, InsLeft, RemLeft, hlt, h, h1, h2]
  · -- the same position: two insertions and two updates compare the cids
    by_cases hc : c' < c
    · have hle : ¬ c ≤ c' := UInt32.not_le.mpr hc
      cases t <;> cases t' <;>
        simp [OpDescriptor.trans, Kills, InsLeft, RemLeft, hlt, heq, h, hc, hle]
    · have hle : c ≤ c' := UInt32.not_lt.mp hc
      cases t <;> cases t' <;>
        simp [OpDescriptor.trans, Kills, InsLeft, RemLeft, hlt, heq, h, hc, hle]
  · have h1 : ¬ p.toNat = p'.toNat := by omega
    have h2 : ¬ p'.toNat = p.toNat := by omega
    have h3 : ¬ p.toNat < p'.toNat := by omega
    cases t' <;> simp [OpDescriptor.trans, Kills, InsLeft, RemLeft, hlt, heq, h, h1, h2, h3]

/-! ### A pack of operations -/

theorem insLeft_congr {op op' a : OpDescriptor T} (hp : op'.pos = op.pos) (hc : op'.cid = op.cid)
    (ht : op'.typ = .insert ↔ op.typ = .insert) : InsLeft op' a ↔ InsLeft op a := by
  unfold InsLeft
  rw [hp, hc, ne_eq, ht]

/-- **The effect of a pack**, as a count and a question. -/
theorem foldl_trans (A : OpPack T) (op : OpDescriptor T) :
    A.foldl OpDescriptor.trans op = { op with
      typ := if ∃ a ∈ A, Kills op a then .nothing else op.typ
      posser := op.posser + UInt32.ofNat (A.countP (InsLeft op ·)) -
        UInt32.ofNat (A.countP (RemLeft op ·)) } := by
  induction A generalizing op with
  | nil => simp
  | cons a A ih =>
    have hpos : (op.trans a).pos = op.pos := by rw [trans_eq]
    have hcid : (op.trans a).cid = op.cid := by rw [trans_eq]
    have htyp : (op.trans a).typ = if Kills op a then .nothing else op.typ := by rw [trans_eq]
    have hins : ∀ b, InsLeft (op.trans a) b ↔ InsLeft op b := fun b => by
      refine insLeft_congr hpos hcid ?_
      rw [htyp]
      split_ifs with h
      · simp [h.typ_ne]
      · rfl
    have hrem : ∀ b, RemLeft (op.trans a) b ↔ RemLeft op b := fun b => by
      unfold RemLeft; rw [hpos]
    have hkill : (if ∃ b ∈ A, Kills (op.trans a) b then .nothing else (op.trans a).typ) =
        if ∃ b ∈ a :: A, Kills op b then .nothing else op.typ := by
      by_cases h : Kills op a
      · simp [htyp, h]
      · have : ∀ b, Kills (op.trans a) b ↔ Kills op b := fun b => by
          unfold Kills; rw [hpos, hcid, htyp, if_neg h]
        simp [htyp, h, this]
    rw [List.foldl_cons, ih, hkill]
    simp only [hins, hrem, List.countP_cons, decide_eq_true_eq, UInt32.ofNat_add]
    rw [trans_eq]
    congr 1
    split_ifs <;> simp <;> grind

/-! ### The effect of the operations a pack stands for -/

/-- Some operation of `P` removes the element at `p`. -/
def Removed (P : OpPack T) (p : ℕ) : Prop := ∃ a ∈ P, IsAt .remove p a

instance (P : OpPack T) (p : ℕ) : Decidable (Removed P p) :=
  inferInstanceAs (Decidable (∃ a ∈ P, _))

/-- Some update of `P` at `p` has priority over an update of cid `c`. -/
def LowerUpdate (P : OpPack T) (p : ℕ) (c : UInt32) : Prop := ∃ a ∈ P, IsAt .update p a ∧ a.cid < c

instance (P : OpPack T) (p : ℕ) (c : UInt32) : Decidable (LowerUpdate P p c) :=
  inferInstanceAs (Decidable (∃ a ∈ P, _))

/-- The number of elements left of `p` that `P` removes. -/
def removedBefore (P : OpPack T) (p : ℕ) : ℕ :=
  ∑ r ∈ Finset.range p, if Removed P r then 1 else 0

/-- The number of removals left of `p` that come on top of one for each element. -/
def extraRemovals (P : OpPack T) (p : ℕ) : ℕ :=
  ∑ r ∈ Finset.range p, (P.countP (IsAt .remove r ·) - 1)

/-- Among the operations `P`, nothing is left of `op`. -/
def Killed (P : OpPack T) (op : OpDescriptor T) : Prop :=
  op.typ ≠ .insert ∧ Removed P op.pos.toNat ∨
    op.typ = .update ∧ LowerUpdate P op.pos.toNat op.cid

instance (P : OpPack T) (op : OpDescriptor T) : Decidable (Killed P op) :=
  inferInstanceAs (Decidable (_ ∨ _))

/-- **The effect of the operations `P`** on `op`, whatever their order. -/
def effect (P : OpPack T) (op : OpDescriptor T) : OpDescriptor T :=
  { op with
    typ := if Killed P op then .nothing else op.typ
    posser := op.posser + UInt32.ofNat (P.countP (InsLeft op ·)) -
      UInt32.ofNat (removedBefore P op.pos.toNat) }

/-- Position and cid of the insertions. -/
def insKeys (P : OpPack T) : List (UInt32 × UInt32) :=
  (P.filter (·.typ = .insert)).map fun a => (a.pos, a.cid)

theorem exists_kills {A : OpPack T} {op : OpDescriptor T} :
    (∃ a ∈ A, Kills op a) ↔ Killed A op := by
  unfold Killed Removed LowerUpdate Kills IsAt
  constructor
  · rintro ⟨a, ha, hp, ⟨h1, h2⟩ | ⟨h1, h2, h3⟩⟩
    · exact Or.inl ⟨h1, a, ha, h2, hp⟩
    · exact Or.inr ⟨h1, a, ha, ⟨h2, hp⟩, h3⟩
  · rintro (⟨h1, a, ha, h2, hp⟩ | ⟨h1, a, ha, ⟨h2, hp⟩, h3⟩)
    · exact ⟨a, ha, hp, Or.inl ⟨h1, h2⟩⟩
    · exact ⟨a, ha, hp, Or.inr ⟨h1, h2, h3⟩⟩

theorem foldl_trans_typ (A : OpPack T) (op : OpDescriptor T) :
    (A.foldl OpDescriptor.trans op).typ = if Killed A op then .nothing else op.typ := by
  rw [foldl_trans]
  simp only [exists_kills]

theorem foldl_trans_typ_eq_insert {A : OpPack T} {op : OpDescriptor T} :
    (A.foldl OpDescriptor.trans op).typ = .insert ↔ op.typ = .insert := by
  rw [foldl_trans_typ]
  split_ifs with hk
  · rcases hk with hk | hk
    · simp [hk.1]
    · simp [hk.1]
  · rfl

theorem removed_snoc {P : OpPack T} {a : OpDescriptor T} {p : ℕ} :
    Removed (P ++ [a]) p ↔ Removed P p ∨ IsAt .remove p a := by
  simp [Removed, or_and_right, exists_or]

theorem lowerUpdate_snoc {P : OpPack T} {a : OpDescriptor T} {p : ℕ} {c : UInt32} :
    LowerUpdate (P ++ [a]) p c ↔ LowerUpdate P p c ∨ IsAt .update p a ∧ a.cid < c := by
  simp [LowerUpdate, or_and_right, exists_or]

theorem LowerUpdate.mono {P : OpPack T} {p : ℕ} {c d : UInt32} (h : LowerUpdate P p c)
    (hcd : c < d) : LowerUpdate P p d := by
  obtain ⟨a, ha, hat, hlt⟩ := h
  exact ⟨a, ha, hat, UInt32.lt_trans hlt hcd⟩

theorem countP_isAt_eq_zero {P : OpPack T} {p : ℕ} (h : ¬ Removed P p) :
    P.countP (IsAt .remove p ·) = 0 := by
  rw [List.countP_eq_zero]
  intro a ha hat
  exact h ⟨a, ha, by simpa using hat⟩

theorem countP_insLeft (P : OpPack T) (op : OpDescriptor T) :
    P.countP (InsLeft op ·) = (insKeys P).countP fun k => k.1.toNat < op.pos.toNat ∨
      k.1.toNat = op.pos.toNat ∧ (op.typ ≠ .insert ∨ k.2 < op.cid) := by
  rw [insKeys, List.countP_map, List.countP_filter]
  refine List.countP_congr fun a _ => ?_
  simp [InsLeft, and_comm]

theorem countP_remLeft (A : OpPack T) (op : OpDescriptor T) :
    A.countP (RemLeft op ·) = ∑ r ∈ Finset.range op.pos.toNat, A.countP (IsAt .remove r ·) :=
  countP_lt_eq_sum (fun a : OpDescriptor T => a.typ = .remove) (fun a => a.pos.toNat) A op.pos.toNat

theorem countP_isAt_pos {P : OpPack T} {p : ℕ} (h : Removed P p) :
    0 < P.countP (IsAt .remove p ·) := by
  obtain ⟨a, ha, hat⟩ := h
  exact List.countP_pos_iff.mpr ⟨a, ha, by simpa using hat⟩

/-- Removals are one for each removed element, and the extra ones. -/
theorem countP_remLeft_eq (A : OpPack T) (op : OpDescriptor T) :
    A.countP (RemLeft op ·) = removedBefore A op.pos.toNat + extraRemovals A op.pos.toNat := by
  rw [countP_remLeft, removedBefore, extraRemovals, ← Finset.sum_add_distrib]
  refine Finset.sum_congr rfl fun r _ => ?_
  split_ifs with h
  · have := countP_isAt_pos h
    omega
  · rw [countP_isAt_eq_zero h]

theorem extraRemovals_eq_zero {P : OpPack T} {p : ℕ} :
    extraRemovals P p = 0 ↔ ∀ r < p, P.countP (IsAt .remove r ·) ≤ 1 := by
  simp [extraRemovals, Finset.sum_eq_zero_iff, Nat.sub_eq_zero_iff_le]

theorem removed_perm {P P' : OpPack T} (h : P.Perm P') (p : ℕ) : Removed P p ↔ Removed P' p := by
  simp only [Removed, h.mem_iff]

theorem lowerUpdate_perm {P P' : OpPack T} (h : P.Perm P') (p : ℕ) (c : UInt32) :
    LowerUpdate P p c ↔ LowerUpdate P' p c := by
  simp only [LowerUpdate, h.mem_iff]

theorem effect_perm {P P' : OpPack T} (h : P.Perm P') (op : OpDescriptor T) :
    effect P op = effect P' op := by
  have hk : Killed P op ↔ Killed P' op := by
    unfold Killed; rw [removed_perm h, lowerUpdate_perm h]
  have hr : removedBefore P op.pos.toNat = removedBefore P' op.pos.toNat := by
    simp only [removedBefore, removed_perm h]
  simp only [effect, hk, hr, h.countP_eq]

/-! ### Packs that stand for the same operations -/

/-- **`A` covers the operations `P`**: it has their insertions and removes what they remove, below
position `x` with one removal each, and where nothing is removed it has an update of highest
priority. -/
structure Covers (x : ℕ) (A P : OpPack T) : Prop where
  ins : (insKeys A).Perm (insKeys P)
  removed : ∀ p, Removed A p ↔ Removed P p
  once : ∀ p < x, A.countP (IsAt .remove p ·) ≤ 1
  lower : ∀ p c, ¬ Removed P p → (LowerUpdate A p c ↔ LowerUpdate P p c)

namespace Covers

variable {x : ℕ} {A P : OpPack T} {op : OpDescriptor T}

protected theorem nil : Covers x ([] : OpPack T) [] :=
  ⟨List.Perm.refl _, fun _ => Iff.rfl, fun _ _ => by simp, fun _ _ _ => Iff.rfl⟩

/-- Operations that remove no element below `x` twice cover themselves, untransformed. -/
protected theorem refl (h : ∀ p < x, P.countP (IsAt .remove p ·) ≤ 1) : Covers x P P :=
  ⟨List.Perm.refl _, fun _ => Iff.rfl, h, fun _ _ _ => Iff.rfl⟩

theorem killed (h : Covers x A P) : Killed A op ↔ Killed P op := by
  unfold Killed
  rw [h.removed]
  by_cases hr : Removed P op.pos.toNat
  · by_cases hi : op.typ = .insert
    · simp [hi]
    · simp [hi, hr]
  · rw [h.lower _ _ hr]

/-- **Covering packs have the effect of the operations they cover.** -/
theorem foldl_trans (h : Covers x A P) (hx : op.pos.toNat ≤ x) :
    A.foldl OpDescriptor.trans op = effect P op := by
  have hrem : A.countP (RemLeft op ·) = removedBefore P op.pos.toNat := by
    have h0 : extraRemovals A op.pos.toNat = 0 :=
      extraRemovals_eq_zero.mpr fun r hr => h.once r (by omega)
    rw [countP_remLeft_eq, h0, Nat.add_zero]
    simp only [removedBefore, h.removed]
  rw [Effect.foldl_trans, effect, hrem, countP_insLeft, countP_insLeft, h.ins.countP_eq]
  simp only [exists_kills, h.killed]

theorem put (h : Covers x A P) (op : OpDescriptor T) :
    Covers x (A ++ [A.foldl OpDescriptor.trans op]) (P ++ [op]) := by
  set op' := A.foldl OpDescriptor.trans op with hop'
  have htyp : op'.typ = if Killed A op then .nothing else op.typ := foldl_trans_typ A op
  have hpos : op'.pos = op.pos := by rw [hop', Effect.foldl_trans]
  have hcid : op'.cid = op.cid := by rw [hop', Effect.foldl_trans]
  have hrem : ∀ p, IsAt .remove p op' ↔ IsAt .remove p op ∧ ¬ Removed A p := by
    intro p
    unfold IsAt
    rw [htyp, hpos]
    split_ifs with hk
    · rcases hk with ⟨-, hk⟩ | ⟨hu, -⟩
      · simp only [false_and, false_iff, not_and, not_not]
        rintro ⟨-, rfl⟩; exact hk
      · simp [hu]
    · refine ⟨fun ht => ⟨ht, fun hr => hk (Or.inl ⟨by rw [ht.1]; decide, ?_⟩)⟩, fun ht => ht.1⟩
      rw [ht.2]; exact hr
  have hupd : ∀ p, ¬ Removed A p →
      (IsAt .update p op' ↔ IsAt .update p op ∧ ¬ LowerUpdate A p op.cid) := by
    intro p hr
    unfold IsAt
    rw [htyp, hpos]
    split_ifs with hk
    · rcases hk with ⟨-, hk⟩ | ⟨-, hk⟩
      · simp only [false_and, false_iff, not_and, not_not]
        rintro ⟨-, rfl⟩; exact absurd hk hr
      · simp only [false_and, false_iff, not_and, not_not]
        rintro ⟨-, rfl⟩; exact hk
    · refine ⟨fun ht => ⟨ht, fun hl => hk (Or.inr ⟨ht.1, ?_⟩)⟩, fun ht => ht.1⟩
      rw [ht.2]; exact hl
  refine ⟨?_, fun p => ?_, fun p hp => ?_, fun p c hr => ?_⟩
  · have hi : op'.typ = .insert ↔ op.typ = .insert := foldl_trans_typ_eq_insert
    simp only [insKeys, List.filter_append, List.map_append]
    refine h.ins.append ?_
    by_cases ht : op.typ = .insert
    · simp [hi, ht, hpos, hcid]
    · simp [hi, ht]
  · rw [removed_snoc, removed_snoc, hrem, ← h.removed]
    tauto
  · rw [List.countP_append]
    by_cases hr : IsAt .remove p op'
    · rw [countP_isAt_eq_zero ((hrem p).mp hr).2]
      simp [hr]
    · have := h.once p hp
      simpa [hr] using this
  · rw [removed_snoc, not_or] at hr
    have hrA : ¬ Removed A p := by rw [h.removed]; exact hr.1
    rw [lowerUpdate_snoc, lowerUpdate_snoc, hupd p hrA, hcid, ← h.lower p c hr.1]
    constructor
    · rintro (hl | ⟨⟨hu, -⟩, hlt⟩)
      · exact Or.inl hl
      · exact Or.inr ⟨hu, hlt⟩
    · rintro (hl | ⟨hu, hlt⟩)
      · exact Or.inl hl
      · -- an update that is made nothing leaves one of higher priority
        by_cases hl : LowerUpdate A p op.cid
        · exact Or.inl (hl.mono hlt)
        · exact Or.inr ⟨⟨hu, hl⟩, hlt⟩

end Covers

end OpTransform.Theory.Effect
