import OpTransform.Comm.System

/-! # Rounds

The programs that drive the system: the executable (`TrivialClientServer` of `main.cpp`) and the
test fixture (`ConcurentClientServerTest`). In every round a client may connect, every client makes
the operations that `createLocalOps` draws for it, and the server updates. The two differ in when a
client connects and in `createLocalOps`. -/

namespace OpTransform.Comm

open OpTransform.Ops

universe u

/-! ### The rounds -/

/-- What a program puts into a round. -/
structure Driver (T G : Type u) where
  /-- whether another client may connect in a round -/
  joins : ℕ → Bool
  /-- whether a client that is not connected is passed over -/
  skips : Bool
  /-- in a round, for a client with a size and a cid, drawing from a state -/
  createLocalOps : ℕ → UInt32 → UInt32 → G → OpPack T × G

namespace Driver

variable {T G : Type u} (w : Driver T G)

/-- The turn of the client at an address. -/
def turn (r : ℕ) (s : System T T × G) (addr : ℕ) : Except Failure (System T T × G) :=
  match s.1.clients[addr]? with
  | none => .error .noClient
  | some c =>
    if w.skips && !c.connected then .ok s
    else do
      let (pack, g) := w.createLocalOps r (State.size (s.1.server.doc c.state)) c.cid s.2
      let t ← step s.1 (.makeLocalOps addr pack)
      return (t, g)

/-- Another client, if there are fewer than `nClients`. -/
def join (nClients r : ℕ) (s : System T T) : Except Failure (System T T) :=
  if w.joins r && s.clients.length < nClients then step s .connect else .ok s

/-- The round `r`. -/
def round (nClients : ℕ) (s : System T T × G) (r : ℕ) : Except Failure (System T T × G) := do
  let t ← w.join nClients r s.1
  let (t, g) ← (List.range t.clients.length).foldlM (w.turn r) (t, s.2)
  let t ← update t
  return (t, g)

end Driver

/-! ### The check -/

variable {T : Type u} [DecidableEq T]

/-- `StateEq`. -/
def stateEq (v1 v2 : List T) : Bool :=
  v1.length == v2.length && (List.range v1.length).all fun i => v1[i]? == v2[i]?

/-- `checkStates`: all documents are the front document. -/
def checkStates (s : System T T) : Bool :=
  match s.server.datas with
  | none => true
  | some ds => (ds.drop 1).all (stateEq (ds.headD []))

theorem stateEq_iff {v1 v2 : List T} : stateEq v1 v2 = true ↔ v1 = v2 := by
  unfold stateEq
  rw [Bool.and_eq_true, beq_iff_eq, List.all_eq_true]
  constructor
  · rintro ⟨hlen, hall⟩
    refine List.ext_getElem? fun i => ?_
    by_cases hi : i < v1.length
    · exact beq_iff_eq.mp (hall i (List.mem_range.mpr hi))
    · rw [List.getElem?_eq_none (by omega), List.getElem?_eq_none (by omega)]
  · rintro rfl
    exact ⟨rfl, fun i _ => beq_iff_eq.mpr rfl⟩

/-! ### Random operations

`uniform lo hi` draws a number by a `uniform_int_distribution` from `lo` to `hi`, with a generator
of states `G`. Both belong to the library, and nothing is assumed of them. -/

/-- The cast `(OpType)` of a number. -/
def castOpType (n : UInt32) : OpType :=
  if n = 0 then .nothing else if n = 1 then .insert else if n = 2 then .remove
  else if n = 3 then .update else .thelast

/-- Type and position of an operation for a document of a given size. A position past the end is
moved to 0, or to the end for an insertion when `last` is set. -/
def drawPlace {G : Type} (uniform : UInt32 → UInt32 → G → UInt32 × G) (size : UInt32) (last : Bool)
    (g : G) : (OpType × UInt32) × G :=
  let (p, g) := uniform 0 size g
  let (n, g) := uniform 1 3 g
  let t := if size = 0 then .insert else castOpType n
  let p := if p ≥ size then (if t = .insert ∧ last then size else 0) else p
  ((t, p), g)

namespace Executable

variable {G : Type} (uniform : UInt32 → UInt32 → G → UInt32 × G)

/-- The operation `i` of `createLocalOps`. -/
def createOp (size cid : UInt32) (s : OpPack UInt32 × G) (i : ℕ) : OpPack UInt32 × G :=
  let ((t, p), g) := drawPlace uniform size (i % 2 ≠ 0) s.2
  let (v, g) := uniform 0 UINT_MAX g
  (s.1 ++ [.ofArgs t p v cid], g)

/-- `createLocalOps`. -/
def createLocalOps (opsPerRound size cid : UInt32) (g : G) : OpPack UInt32 × G :=
  (List.range opsPerRound.toNat).foldl (createOp uniform size cid) ([], g)

/-- The executable: another client may connect in every fourth round. -/
def driver (opsPerRound : UInt32) : Driver UInt32 G where
  joins r := r % 4 = 0
  skips := true
  createLocalOps _ := createLocalOps uniform opsPerRound

/-- The rounds in which `test` compares the documents. -/
def tested (testPeriod : UInt32) (r : ℕ) : Bool :=
  testPeriod > 0 && r % testPeriod.toNat = 0 || testPeriod = 0 && r % 1800 = 0

/-- The loop of `run` over the rounds to come. It ends early if a test fails. -/
def runFrom (nClients opsPerRound testPeriod : UInt32) (s : System UInt32 UInt32 × G) :
    List ℕ → Except Failure (System UInt32 UInt32 × G)
  | [] => .ok s
  | r :: rs => do
    let s ← (driver uniform opsPerRound).round nClients.toNat s r
    if tested testPeriod r && !checkStates s.1 then return s
    else runFrom nClients opsPerRound testPeriod s rs

/-- `run`, with the last round below the largest number. In the end it reports `checkStates`. -/
def run (nClients rounds opsPerRound testPeriod : UInt32) (s : System UInt32 UInt32 × G) :
    Except Failure (System UInt32 UInt32 × G) :=
  runFrom uniform nClients opsPerRound testPeriod s (List.range (rounds.toNat + 1))

end Executable

namespace Fixture

variable {G : Type} (uniform : UInt32 → UInt32 → G → UInt32 × G)

/-- The operation `i` of `createLocalOps`. The state has the next value beside the generator. An
operation that would be a duplication is left out. -/
def createOp (size cid rev : UInt32) (s : OpPack UInt32 × UInt32 × G) (i : ℕ) :
    OpPack UInt32 × UInt32 × G :=
  let (pack, value, g) := s
  let ((t, p), g) := drawPlace uniform size (rev % 2 ≠ 0) g
  let op := .ofArgs t p value cid (rev + UInt32.ofNat i)
  (if OpPack.isDuplication pack op then pack else pack ++ [op], value + 1, g)

/-- `createLocalOps`. -/
def createLocalOps (opsPerRound : UInt32) (r : ℕ) (size cid : UInt32) (s : UInt32 × G) :
    OpPack UInt32 × UInt32 × G :=
  (List.range opsPerRound.toNat).foldl
    (createOp uniform size cid (UInt32.ofNat r * opsPerRound)) ([], s)

/-- The test fixture: another client may connect in every round. -/
def driver (opsPerRound : UInt32) : Driver UInt32 (UInt32 × G) where
  joins _ := true
  skips := false
  createLocalOps := createLocalOps uniform opsPerRound

/-- `run`. -/
def run (nClients rounds opsPerRound : UInt32) (s : System UInt32 UInt32 × UInt32 × G) :
    Except Failure (System UInt32 UInt32 × UInt32 × G) :=
  (List.range rounds.toNat).foldlM ((driver uniform opsPerRound).round nClients.toNat) s

end Fixture

end OpTransform.Comm
