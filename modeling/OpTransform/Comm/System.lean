import OpTransform.Comm.Client
import OpTransform.Lib.Runs

/-! # The system: one server and its clients

`Server::update`, and the steps the executable and the tests make: a new client connects, a client
makes local operations, the server updates everybody. -/

namespace OpTransform.Comm

open OpTransform.Ops OpTransform.Lib.Runs

universe u

/-- The server, and the client objects by address. -/
structure System (T σ : Type u) where
  server : Server T σ
  clients : List (Client T)
  deriving DecidableEq

/-- The calls from outside. -/
inductive Action (T : Type u)
  /-- `connect` of a new client -/
  | connect
  /-- `makeLocalOps` of the client at an address -/
  | makeLocalOps (addr : Nat) (pack : OpPack T)
  /-- `Server::update` -/
  | update
  deriving DecidableEq

variable {T σ : Type u} [Slot T σ]

/-- One round of the loop of `update`, for the client at address `pc`. -/
def updateClient (s : System T σ) (pc : Nat) : Except Failure (System T σ) :=
  match s.clients[pc]? with
  | none => .error .noClient
  | some c => do
    let (c, server) ← c.updateFromServer s.server s.server.rev s.server.accum
    return { server := server, clients := s.clients.set pc c }

/-- `Server::update`: the server's own document first, as cid 0, then every client. -/
def update (s : System T σ) : Except Failure (System T σ) := do
  let server ← s.server.edit s.server.state fun data =>
    (State.applyFromOthers data 0 [] s.server.accum).1
  let server := { server with rev := server.rev + 1 }
  let s ← server.clients.foldlM updateClient { s with server := server }
  return { s with server := { s.server with accum := [] } }

theorem accum_of_update {s s' : System T σ} (h : update s = .ok s') : s'.server.accum = [] := by
  obtain ⟨server, -, h⟩ := exists_of_bind_eq_ok h
  obtain ⟨t, -, h⟩ := exists_of_bind_eq_ok h
  cases h
  rfl

/-- One call. -/
def step (s : System T σ) : Action T → Except Failure (System T σ)
  | .connect => do
    let addr := s.clients.length
    let (c, server) ← ({} : Client T).connect addr s.server
    return { server := server, clients := s.clients ++ [c] }
  | .makeLocalOps addr pack =>
    match s.clients[addr]? with
    | none => .error .noClient
    | some c => do
      let (c, server) ← c.makeLocalOps s.server pack
      return { server := server, clients := s.clients.set addr c }
  | .update => update s

/-- A new server, initialised with a vector of one document, and no clients. -/
def start (d : List σ) : Except Failure (System T σ) := do
  let server ← ({} : Server T σ).init [d]
  return { server := server, clients := [] }

/-- `clear` and `init` with a vector of one document, the client objects discarded. -/
def reset (s : System T σ) (d : List σ) : Except Failure (System T σ) := do
  let server ← s.server.clear.init [d]
  return { server := server, clients := [] }

end OpTransform.Comm
