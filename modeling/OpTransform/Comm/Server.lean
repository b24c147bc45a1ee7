import OpTransform.Ops.State

/-! # The server

`Server<C>` of `comm/server.hpp`, without `update`, which calls the clients (`Comm.System`).

The documents stand in one vector, that of the `init` call; a `State` points to one of them, so it
is an index here. The vector is reserved in advance by the callers, so that growing it keeps the
addresses, and an index means the same document throughout. `none` is a null pointer. The `clients`
are addresses of client objects. -/

namespace OpTransform.Comm

open OpTransform.Ops

universe u

/-- The assertions of the code, and a dangling client address. -/
inductive Failure
  /-- `init`: `assert(!datas)` -/
  | alreadyInitialized
  /-- `clone`: `assert(datas)` -/
  | notInitialized
  /-- `push`: `assert(r == rev)` -/
  | revMismatch
  /-- `connect`: `assert(!connected())` -/
  | alreadyConnected
  /-- `makeLocalOps`, `updateFromServer`: `assert(connected())` -/
  | notConnected
  /-- `makeLocalOps`: `assert(applied.empty())` -/
  | appliedNotEmpty
  /-- `State`: `assert(data)` -/
  | noData
  /-- no client object at the address -/
  | noClient
  deriving DecidableEq, Repr

/-- `Server<C>`. -/
structure Server (T σ : Type u) where
  datas : Option (List (List σ)) := none
  state : Option Nat := none
  accum : OpPack T := []
  clients : List Nat := []
  rev : UInt32 := 0
  deriving DecidableEq

variable {T σ : Type u}

namespace Server

/-- `init`. -/
def init (s : Server T σ) (d : List (List σ)) : Except Failure (Server T σ) :=
  if s.datas.isSome then .error .alreadyInitialized
  else .ok { s with datas := some d, state := some 0 }

/-- `clear`: the accumulated operations stay. -/
def clear (s : Server T σ) : Server T σ := { s with datas := none, clients := [], rev := 0 }

/-- `clone`: a copy of the front document for the client at address `pc`. The result is the cid, the
revision and the pointer to the copy. -/
def clone (s : Server T σ) (pc : Nat) :
    Except Failure ((UInt32 × UInt32 × Nat) × Server T σ) :=
  match s.datas with
  | none => .error .notInitialized
  | some ds =>
    let ds' := ds ++ [ds.headD []]
    .ok ((UInt32.ofNat ds'.length - 1, s.rev, ds'.length - 1),
      { s with clients := s.clients ++ [pc], datas := some ds' })

/-- `push`. -/
def push (s : Server T σ) (r : UInt32) (pack : OpPack T) : Except Failure (Server T σ) :=
  if r = s.rev then .ok { s with accum := s.accum ++ pack } else .error .revMismatch

/-- An edit of the document that a `State` points to. The code asserts the pointer only where an
operation is applied (`State::apply(op)`): there an empty pack passes over a null pointer, as in an
`update` before the first `init`, and here it does not. After `clear` the `State` of the code still
points to the old document; here the documents are gone. No run of calls from `start` or `reset`
comes to either. -/
def edit (s : Server T σ) (p : Option Nat) (f : List σ → List σ) : Except Failure (Server T σ) :=
  match p, s.datas with
  | some i, some ds => .ok { s with datas := some (ds.modify i f) }
  | _, _ => .error .noData

/-- The document that a `State` points to. -/
def doc (s : Server T σ) (p : Option Nat) : List σ :=
  match p, s.datas with
  | some i, some ds => ds.getD i []
  | _, _ => []

end Server

end OpTransform.Comm
