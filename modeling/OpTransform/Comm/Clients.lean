import OpTransform.Comm.Programs

/-! # Clients without a server

`ConcurentClientsTest` of `tests/tests-clients.cpp`, a fixture with documents side by side and a
`State` for each. In every round the operations of all clients are collected in one pack, which the
first state applies as a server would; every other state applies the operations of its client, and
then those of the others. -/

namespace OpTransform.Comm

open OpTransform.Ops

/-- `ConcurentClientsTest`. The state at an index edits the document there. -/
structure ConcurentClientsTest (G : Type) where
  datas : List (List UInt32) := []
  value : UInt32 := 0
  gen : G
  passed : Bool := true

namespace ConcurentClientsTest

variable {G : Type} (uniform : UInt32 → UInt32 → G → UInt32 × G)

/-- `init`. -/
def init (t : ConcurentClientsTest G) (clients initialSize : UInt32) : ConcurentClientsTest G :=
  let d := (List.range initialSize.toNat).map (ConcurentClientServerTest.label initialSize.toNat)
  { t with datas := List.replicate (clients + 1).toNat d }

/-- `checkStates`. -/
def checkStates (t : ConcurentClientsTest G) : ConcurentClientsTest G :=
  { t with passed := t.passed && (t.datas.drop 1).all (stateEq (t.datas.headD [])) }

/-- `put`: the client's own pack, and the pack of all. -/
def put (packs : List (OpPack UInt32)) (op : OpDescriptor UInt32) : List (OpPack UInt32) :=
  (packs.modify op.cid.toNat (· ++ [op])).modify 0 (· ++ [op])

/-- The operation `i` of a client, for a document of a given size. -/
def createOp (size : ℕ) (cid rev : UInt32) (s : List (OpPack UInt32) × UInt32 × G) (i : ℕ) :
    List (OpPack UInt32) × UInt32 × G :=
  let (packs, value, g) := s
  let (p, g) := uniform 0 (UInt32.ofNat size) g
  let (n, g) := uniform 1 3 g
  let t := if size = 0 then .insert else castOpType n
  let p :=
    if p.toNat ≥ size then (if t = .insert ∧ rev % 2 ≠ 0 then UInt32.ofNat size else 0) else p
  (put packs (.ofArgs t p value cid (rev + UInt32.ofNat i)), value + 1, g)

/-- The operations of one client. -/
def createOps (opsPerRound : UInt32) (r : ℕ) (datas : List (List UInt32))
    (s : List (OpPack UInt32) × UInt32 × G) (cid : ℕ) : List (OpPack UInt32) × UInt32 × G :=
  (List.range opsPerRound.toNat).foldl
    (createOp uniform (datas.getD cid []).length (UInt32.ofNat cid)
      (UInt32.ofNat r * opsPerRound)) s

/-- `makeLocalOps`. -/
def makeLocalOps (opsPerRound : UInt32) (r : ℕ) (t : ConcurentClientsTest G) :
    List (OpPack UInt32) × UInt32 × G :=
  (List.range' 1 (t.datas.length - 1)).foldl (createOps uniform opsPerRound r t.datas)
    (List.replicate t.datas.length [], t.value, t.gen)

/-- The document at the index `cid` after a round. -/
def applyRound (packs : List (OpPack UInt32)) (cid : ℕ) (data : List UInt32) : List UInt32 :=
  if cid = 0 then (State.applyFromOthers data 0 [] (packs.headD [])).1
  else (State.applyFromOthers (State.applyPack data (packs.getD cid [])) (UInt32.ofNat cid)
    (packs.getD cid []) (packs.headD [])).1

/-- `round`. -/
def round (opsPerRound : UInt32) (t : ConcurentClientsTest G) (r : ℕ) : ConcurentClientsTest G :=
  let (packs, value, g) := makeLocalOps uniform opsPerRound r t
  { t with datas := t.datas.mapIdx (applyRound packs), value := value, gen := g }

/-- A turn of the loop of `run`. -/
def turn (opsPerRound : UInt32) (checkEachRound : Bool) (t : ConcurentClientsTest G) (r : ℕ) :
    ConcurentClientsTest G :=
  let t := round uniform opsPerRound t r
  if checkEachRound then t.checkStates else t

/-- `run`, with a generator that has been seeded, and the check after it. -/
def run (clients initialSize rounds opsPerRound : UInt32) (checkEachRound : Bool) (g : G) :
    ConcurentClientsTest G :=
  let t := init { gen := g } clients initialSize
  ((List.range rounds.toNat).foldl (turn uniform opsPerRound checkEachRound) t).checkStates

end ConcurentClientsTest

end OpTransform.Comm
