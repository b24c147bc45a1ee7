import OpTransform.Comm.Server

/-! # The clients

`Client<C>` of `comm/client.hpp`. There is one server, so the pointer to it is a flag. A method that
changes the server takes it and returns it. -/

namespace OpTransform.Comm

open OpTransform.Ops

universe u

/-- `Client<C>`. -/
structure Client (T : Type u) where
  server : Bool := false
  state : Option Nat := none
  applied : OpPack T := []
  cid : UInt32 := 0
  rev : UInt32 := 0
  servRev : UInt32 := 0
  deriving DecidableEq

variable {T σ : Type u}

namespace Client

/-- `connected`. -/
def connected (c : Client T) : Bool := c.server

/-- `connect`, of the client at address `addr`. -/
def connect (c : Client T) (addr : Nat) (s : Server T σ) :
    Except Failure (Client T × Server T σ) := do
  if c.connected then throw .alreadyConnected
  let ((cid, r, buf), s) ← s.clone addr
  return ({ c with server := true, cid := cid, servRev := r, state := some buf }, s)

/-- The first loop of `makeLocalOps`: every operation is signed with the cid and the next revision.
The result is the signed pack and the revision after it. -/
def sign (cid : UInt32) : UInt32 → OpPack T → OpPack T × UInt32
  | rev, [] => ([], rev)
  | rev, op :: pack =>
    let (pack, rev') := sign cid (rev + 1) pack
    ({ op with cid := cid, rev := rev } :: pack, rev')

theorem sign_eq (cid rev : UInt32) (pack : OpPack T) : sign cid rev pack =
    (pack.mapIdx fun i op => { op with cid := cid, rev := rev + UInt32.ofNat i },
      rev + UInt32.ofNat pack.length) := by
  induction pack generalizing rev with
  | nil => simp [sign]
  | cons op pack ih =>
    have hadd : ∀ i, rev + 1 + UInt32.ofNat i = rev + UInt32.ofNat (i + 1) := fun i => by
      rw [UInt32.ofNat_add, UInt32.add_assoc, UInt32.add_comm 1]
      rfl
    simp [sign, ih, List.mapIdx_cons, hadd]

variable [Slot T σ]

/-- `makeLocalOps`: the signed pack is applied to the client's document, pushed to the server, and
kept in `applied` as it was pushed. -/
def makeLocalOps (c : Client T) (s : Server T σ) (pack : OpPack T) :
    Except Failure (Client T × Server T σ) := do
  if !c.connected then throw .notConnected
  if !c.applied.isEmpty then throw .appliedNotEmpty
  let (pack, rev) := sign c.cid c.rev pack
  let s ← s.edit c.state fun data => State.applyPack data pack
  let s ← s.push c.servRev pack
  return ({ c with rev := rev, applied := pack }, s)

/-- `updateFromServer`: the operations of the others are transformed by `applied` as it was kept. -/
def updateFromServer (c : Client T) (s : Server T σ) (r : UInt32) (pack : OpPack T) :
    Except Failure (Client T × Server T σ) := do
  if !c.connected then throw .notConnected
  let s ← s.edit c.state fun data => (State.applyFromOthers data c.cid c.applied pack).1
  return ({ c with servRev := r, applied := [] }, s)

/-! ### The calls that succeed -/

section
variable {c : Client T} {s : Server T σ}

omit [Slot T σ] in
theorem connect_eq {ds : List (List σ)} (hc : c.connected = false) (hs : s.datas = some ds)
    (addr : Nat) : c.connect addr s = .ok
      ({ c with
          server := true
          cid := UInt32.ofNat (ds ++ [ds.headD []]).length - 1
          servRev := s.rev
          state := some ((ds ++ [ds.headD []]).length - 1) },
        { s with clients := s.clients ++ [addr], datas := some (ds ++ [ds.headD []]) }) := by
  unfold connect Server.clone
  rw [hc, hs]
  rfl

theorem updateFromServer_eq (hc : c.connected = true) (r : UInt32) (pack : OpPack T) :
    c.updateFromServer s r pack =
      (s.edit c.state fun data => (State.applyFromOthers data c.cid c.applied pack).1).map
        fun s => ({ c with servRev := r, applied := [] }, s) := by
  unfold updateFromServer
  rw [hc]
  rfl

theorem makeLocalOps_eq (hc : c.connected = true) (ha : c.applied = []) (pack : OpPack T) :
    c.makeLocalOps s pack =
      ((s.edit c.state fun data => State.applyPack data (sign c.cid c.rev pack).1).bind
        fun s => s.push c.servRev (sign c.cid c.rev pack).1).map fun s =>
          ({ c with
              rev := (sign c.cid c.rev pack).2
              applied := (sign c.cid c.rev pack).1 }, s) := by
  unfold makeLocalOps
  rw [hc, ha]
  cases h : s.edit c.state fun data => State.applyPack data (sign c.cid c.rev pack).1 with
  | error e => simp [h]; rfl
  | ok s' => simp [h]; rfl

theorem makeLocalOps_appliedNotEmpty (hc : c.connected = true) (ha : c.applied ≠ [])
    (pack : OpPack T) : c.makeLocalOps s pack = .error .appliedNotEmpty := by
  have he : (!c.applied.isEmpty) = true := by simpa using ha
  unfold makeLocalOps
  rw [hc, he]
  rfl

end

end Client

end OpTransform.Comm
