import OpTransform.Comm.Driver

/-! # The programs

What stands around the rounds: the constructor and the report of the executable, and `init`, `run`
and `reset` of the test fixture, with the test that makes many short runs in search of packets that
break the consistency (`DISABLED_CatchConcurentPackets`). -/

namespace OpTransform.Comm

open OpTransform.Ops

variable {G : Type} (uniform : UInt32 → UInt32 → G → UInt32 × G)

/-! ### The executable -/

namespace Executable

/-- One more element of the constructor. -/
def drawElement (s : List UInt32 × G) : List UInt32 × G :=
  let (v, g) := uniform 0 UINT_MAX s.2
  (s.1 ++ [v], g)

/-- The elements that the constructor draws. -/
def initialData (initialSize : UInt32) (g : G) : List UInt32 × G :=
  (List.range initialSize.toNat).foldl (fun s _ => drawElement uniform s) ([], g)

end Executable

/-! ### The test fixture -/

/-- `ConcurentClientServerTest`. `passed` is whether all checks so far have been successful. -/
structure ConcurentClientServerTest (G : Type) where
  system : System UInt32 UInt32 := { server := {}, clients := [] }
  value : UInt32 := 0
  gen : G
  passed : Bool := true

namespace ConcurentClientServerTest

/-- The value that `init` and `reset` give to the element `i` of a document of size `n`. -/
def label (n i : ℕ) : UInt32 := max 100 (UInt32.ofNat n) + UInt32.ofNat i

/-- `init`. The containers are created just once. -/
def init (t : ConcurentClientServerTest G) (initialSize : UInt32) :
    Except Failure (ConcurentClientServerTest G) :=
  if t.value ≠ 0 then .ok t
  else do
    let d := (List.range initialSize.toNat).map (label initialSize.toNat)
    let server ← t.system.server.init [d]
    return { t with system := { t.system with server := server } }

/-- A round of `run`, with a check if there is a seed. -/
def round (nClients opsPerRound seed : UInt32) (t : ConcurentClientServerTest G) (r : ℕ) :
    Except Failure (ConcurentClientServerTest G) := do
  let (system, value, gen) ← (Fixture.driver uniform opsPerRound).round nClients.toNat
    (t.system, t.value, t.gen) r
  let passed := if seed ≠ 0 then t.passed && checkStates system else t.passed
  return { system := system, value := value, gen := gen, passed := passed }

/-- `run`. -/
def run (nClients initialSize rounds opsPerRound seed : UInt32) (t : ConcurentClientServerTest G) :
    Except Failure (ConcurentClientServerTest G) := do
  let t ← t.init initialSize
  (List.range rounds.toNat).foldlM (round uniform nClients opsPerRound seed) t

/-- The front document. -/
def front (t : ConcurentClientServerTest G) : List UInt32 :=
  match t.system.server.datas with
  | none => []
  | some ds => ds.headD []

/-- `reset`: the front document stays, with new values. -/
def reset (t : ConcurentClientServerTest G) : Except Failure (ConcurentClientServerTest G) := do
  let d := (List.range t.front.length).foldl (fun d i => d.set i (label t.front.length i)) t.front
  let system ← Comm.reset t.system d
  return { t with system := system }

end ConcurentClientServerTest

end OpTransform.Comm
