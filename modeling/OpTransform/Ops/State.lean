import Mathlib.Algebra.Group.Nat.Defs
import OpTransform.Ops.Descriptor

/-! # The state: applying operations to a document

`State<C>` of `ops/state.hpp` edits an external container through a weak pointer. The functions here
take and return the container itself, a list; the pointers are in `Comm`.

What a document keeps at an index is a parameter. In the code it is the value (`Slot T T`). A ghost
document may keep more beside the value, such as which operation created the element, as long as the
same edits are made at the same indices. -/

namespace OpTransform.Ops

universe u

/-! ### What a document keeps at an index -/

/-- The element an insertion creates, and the element an assignment leaves. -/
class Slot (T σ : Type u) where
  /-- The element that `push_back(op.value)` or `insert(it, op.value)` puts in. -/
  create : OpDescriptor T → σ
  /-- The element after `(*data)[i] = op.value`. -/
  assign : σ → OpDescriptor T → σ

/-- A later assignment hides an earlier one, and neither an insertion nor an assignment shows how
the operation was transformed. -/
class LawfulSlot (T σ : Type u) [Slot T σ] : Prop where
  assign_assign (s : σ) (a b : OpDescriptor T) :
    Slot.assign (Slot.assign s a) b = Slot.assign s b
  create_trans (op : OpDescriptor T) (t : OpType) (p : UInt32) :
    (Slot.create { op with typ := t, posser := p } : σ) = Slot.create op
  assign_trans (s : σ) (op : OpDescriptor T) (t : OpType) (p : UInt32) :
    Slot.assign s { op with typ := t, posser := p } = Slot.assign s op

/-- The code's documents: the values themselves. -/
instance instSlotValue (T : Type u) : Slot T T where
  create op := op.value
  assign _ op := op.value

instance (T : Type u) : LawfulSlot T T where
  assign_assign _ _ _ := rfl
  create_trans _ _ _ := rfl
  assign_trans _ _ _ _ := rfl

variable {T σ : Type u} [Slot T σ]

/-! ### `State` -/

namespace State

/-- `size()`: the number of elements, cast to `unsigned`. -/
def size (data : List σ) : UInt32 := UInt32.ofNat data.length

/-- `apply(op)`: one operation, already transformed. An insertion past the end is appended, and any
other position past the end is moved to the last element. -/
def apply (data : List σ) (op : OpDescriptor T) : List σ :=
  if op.typ = .nothing then data
  else if op.typ = .insert ∧ op.posser ≥ size data then data ++ [Slot.create op]
  else if size data = 0 then data
  else
    let pos1 := if op.posser ≥ size data then size data - 1 else op.posser
    match op.typ with
    | .insert => data.insertIdx pos1.toNat (Slot.create op)
    | .remove => data.eraseIdx pos1.toNat
    | .update => data.modify pos1.toNat fun s => Slot.assign s op
    | _ => data

/-- `apply(pack, op)`: transform `op` by the pack, put it there, and apply it. -/
def applyPut (data : List σ) (pack : OpPack T) (op : OpDescriptor T) : List σ × OpPack T :=
  let put := OpPack.transformAndPut pack op
  (apply data put.1, put.2)

/-- `apply(pack)`: the concurrent operations of a pack, over a local pack that is dropped. -/
def applyPack (data : List σ) (pack : OpPack T) : List σ :=
  (pack.foldl (fun s op => applyPut s.1 s.2 op) (data, [])).1

/-- `applyFromOthers(cid, appliedPack, srcPack)`: the operations of `srcPack` that are not the
client's own. -/
def applyFromOthers (data : List σ) (cid : UInt32) (appliedPack srcPack : OpPack T) :
    List σ × OpPack T :=
  srcPack.foldl (fun s op => if cid = op.cid then s else applyPut s.1 s.2 op) (data, appliedPack)

/-! ### The loops -/

/-- Applying operations one after the other over a pack. -/
def applyAll (data : List σ) (pack src : OpPack T) : List σ × OpPack T :=
  src.foldl (fun s op => applyPut s.1 s.2 op) (data, pack)

theorem applyPack_eq (data : List σ) (pack : OpPack T) :
    applyPack data pack = (applyAll data [] pack).1 := rfl

theorem applyFromOthers_eq (data : List σ) (cid : UInt32) (appliedPack srcPack : OpPack T) :
    applyFromOthers data cid appliedPack srcPack =
      applyAll data appliedPack (srcPack.filter (cid ≠ ·.cid)) := by
  unfold applyFromOthers applyAll
  rw [List.foldl_filter]
  congr 1
  funext s op
  by_cases h : cid = op.cid <;> simp [h]

@[simp] theorem applyAll_nil (data : List σ) (pack : OpPack T) :
    applyAll data pack [] = (data, pack) := rfl

theorem applyAll_snoc (data : List σ) (pack src : OpPack T) (op : OpDescriptor T) :
    applyAll data pack (src ++ [op]) =
      applyPut (applyAll data pack src).1 (applyAll data pack src).2 op := by
  simp [applyAll]

theorem applyAll_append (data : List σ) (pack src src' : OpPack T) :
    applyAll data pack (src ++ src') =
      applyAll (applyAll data pack src).1 (applyAll data pack src).2 src' := by
  simp [applyAll]

/-! ### Operations in range -/

theorem toNat_size {data : List σ} (h : data.length < 2 ^ 32) : (size data).toNat = data.length :=
  UInt32.toNat_ofNat_of_lt' h

section
variable {data : List σ} {op : OpDescriptor T}

omit [Slot T σ] in
/-- A position inside the document is neither past the end nor in an empty document. -/
theorem inside (hlen : data.length < 2 ^ 32) (hpos : op.posser.toNat < data.length) :
    ¬ op.posser ≥ size data ∧ size data ≠ 0 := by
  have hs := toNat_size hlen
  refine ⟨?_, fun h0 => ?_⟩
  · rw [ge_iff_le, UInt32.le_iff_toNat_le]; omega
  · rw [h0] at hs; simp at hs; omega

theorem apply_nothing (h : op.typ = .nothing) : apply data op = data := by
  simp [apply, h]

theorem apply_thelast (h : op.typ = .thelast) : apply data op = data := by
  simp [apply, h]

theorem apply_insert_end (h : op.typ = .insert) (hlen : data.length < 2 ^ 32)
    (hpos : data.length ≤ op.posser.toNat) : apply data op = data ++ [Slot.create op] := by
  have hend : op.posser ≥ size data := by
    rw [ge_iff_le, UInt32.le_iff_toNat_le, toNat_size hlen]; exact hpos
  simp [apply, h, hend]

theorem apply_insert (h : op.typ = .insert) (hlen : data.length < 2 ^ 32)
    (hpos : op.posser.toNat ≤ data.length) :
    apply data op = data.insertIdx op.posser.toNat (Slot.create op) := by
  rcases Nat.lt_or_eq_of_le hpos with hlt | he
  · obtain ⟨hnge, h0⟩ := inside hlen hlt
    simp [apply, h, hnge, h0]
  · rw [apply_insert_end h hlen (Nat.le_of_eq he.symm), he, List.insertIdx_length_self]

theorem apply_remove (h : op.typ = .remove) (hlen : data.length < 2 ^ 32)
    (hpos : op.posser.toNat < data.length) :
    apply data op = data.eraseIdx op.posser.toNat := by
  obtain ⟨hnge, h0⟩ := inside hlen hpos
  simp [apply, h, hnge, h0]

theorem apply_update (h : op.typ = .update) (hlen : data.length < 2 ^ 32)
    (hpos : op.posser.toNat < data.length) :
    apply data op = data.modify op.posser.toNat fun s => Slot.assign s op := by
  obtain ⟨hnge, h0⟩ := inside hlen hpos
  simp [apply, h, hnge, h0]

end

end State

end OpTransform.Ops
