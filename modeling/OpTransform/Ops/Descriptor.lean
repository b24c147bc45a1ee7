import Mathlib.Data.Nat.Notation

/-! # Operations: descriptors and packs

The operations of `ops/ops.hpp`. An `OpDescriptor` inserts before, removes or updates the element at
`pos`, a position in the state its client saw; `posser` is the position to use once the concurrent
operations applied before it are taken into account. `trans` adjusts `posser` and the type by one
earlier operation, and `transformAndPut` by all operations of a pack.

All counters and positions are `unsigned`, so they are `UInt32` here and wrap as in the code. -/

namespace OpTransform.Ops

universe u

/-- The largest `unsigned`. -/
def UINT_MAX : UInt32 := 4294967295

/-- `OpType`. The last enumerator only bounds the loops of the tests. -/
inductive OpType
  | nothing
  | insert
  | remove
  | update
  | thelast
  deriving DecidableEq, Repr

/-- `OpDescriptor<T>`, with the default `CID = unsigned` that `OpPack` uses. -/
structure OpDescriptor (T : Type u) where
  rev : UInt32 := 0
  pos : UInt32 := 0
  posser : UInt32 := UINT_MAX
  value : T
  typ : OpType := .nothing
  cid : UInt32 := 0
  deriving DecidableEq, Repr

/-- `OpPack<T>`: the base class `std::vector<OpDescriptor<T>>`. -/
abbrev OpPack (T : Type u) := List (OpDescriptor T)

variable {T : Type u}

namespace OpDescriptor

/-- The constructor `OpDescriptor(t, p, v, c, r)`: the serial position starts as the position. -/
def ofArgs (t : OpType) (p : UInt32) (v : T) (c : UInt32) (r : UInt32 := 0) : OpDescriptor T where
  typ := t
  pos := p
  posser := p
  value := v
  cid := c
  rev := r

/-- `trans`: the effect of a concurrent operation `pre`, applied earlier, on this one. -/
def trans (op pre : OpDescriptor T) : OpDescriptor T :=
  if op.pos < pre.pos ∨ pre.typ = .nothing then op
  else if op.pos = pre.pos ∧ pre.typ = .remove then
    if op.typ ≠ .insert then { op with typ := .nothing } else op
  else if op.pos = pre.pos ∧ op.typ = .update ∧ pre.typ = .update ∧ op.cid > pre.cid then
    { op with typ := .nothing }
  else if op.pos = pre.pos ∧ op.typ = .insert ∧ pre.typ = .insert ∧ op.cid ≤ pre.cid then op
  -- from here the position is right of `pre`, or equal with `pre` no remove
  else if pre.typ = .remove then { op with posser := op.posser - 1 }
  else if pre.typ = .insert then { op with posser := op.posser + 1 }
  else op

end OpDescriptor

namespace OpPack

/-- `transformAndPut`: the new operation transformed by those of the pack in order, and the pack
with it appended. -/
def transformAndPut (pack : OpPack T) (newop : OpDescriptor T) : OpDescriptor T × OpPack T :=
  let newop := pack.foldl OpDescriptor.trans newop
  (newop, pack ++ [newop])

/-- `isDuplication`: some operation of the pack has the same position, not both being inserts. -/
def isDuplication (pack : OpPack T) (newop : OpDescriptor T) : Bool :=
  pack.any fun op =>
    !(newop.pos ≠ op.pos || (newop.typ == OpType.insert && op.typ == OpType.insert))

/-- The order of `orderPos`. -/
def lessPos (a b : OpDescriptor T) : Bool :=
  a.pos < b.pos || (a.pos == b.pos && a.cid < b.cid) ||
    (a.pos == b.pos && a.cid == b.cid && a.rev < b.rev)

/-- The order of `orderRev`. -/
def lessRev (a b : OpDescriptor T) : Bool :=
  a.rev < b.rev || (a.rev == b.rev && a.cid < b.cid)

/-- `orderPos`, over the library's `std::sort`. -/
def orderPos (sort : (OpDescriptor T → OpDescriptor T → Bool) → OpPack T → OpPack T)
    (pack : OpPack T) : OpPack T := sort lessPos pack

/-- `orderRev`, over the library's `std::sort`. -/
def orderRev (sort : (OpDescriptor T → OpDescriptor T → Bool) → OpPack T → OpPack T)
    (pack : OpPack T) : OpPack T := sort lessRev pack

end OpPack

end OpTransform.Ops
