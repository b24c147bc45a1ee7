import OpTransform.Comm.System

/-! # Sessions

The system without its pointers. Every client object is in the server's list from its `connect` on,
and edits a document of its own; a `Session` keeps the two together as one replica, and reads the
cid off the replica's place. The system takes the steps of the session (`step_toSystem`), so that
what a run of the system does can be seen in a session (`run_toSystem`). -/

namespace OpTransform.Comm

open OpTransform.Ops OpTransform.Lib.Runs

universe u

/-- A connected client with the document it edits. -/
structure Replica (T σ : Type u) where
  doc : List σ
  applied : OpPack T := []
  rev : UInt32 := 0

/-- The server's document and operations, and the replicas in the order they connected. -/
structure Session (T σ : Type u) where
  doc : List σ
  accum : OpPack T := []
  rev : UInt32 := 0
  replicas : List (Replica T σ) := []

variable {T σ : Type u}

namespace Replica

/-- The cid of the replica at place `i`. -/
def cid (i : ℕ) : UInt32 := UInt32.ofNat (i + 1)

/-- The client object, its `servRev` being `rev`. -/
def client (rev : UInt32) (i : ℕ) (r : Replica T σ) : Client T where
  server := true
  state := some (i + 1)
  applied := r.applied
  cid := cid i
  rev := r.rev
  servRev := rev

variable [Slot T σ]

/-- The replica at place `i` after it has made the operations of a pack. -/
def makeLocalOps (i : ℕ) (r : Replica T σ) (pack : OpPack T) : Replica T σ :=
  let (pack, rev) := Client.sign (cid i) r.rev pack
  { doc := State.applyPack r.doc pack, applied := pack, rev := rev }

/-- The replica at place `i` after an update from the server. -/
def update (accum : OpPack T) (i : ℕ) (r : Replica T σ) : Replica T σ :=
  { r with doc := (State.applyFromOthers r.doc (cid i) r.applied accum).1, applied := [] }

end Replica

namespace Session

/-- The server of a session. -/
def server (a : Session T σ) : Server T σ where
  datas := some (a.doc :: a.replicas.map (·.doc))
  state := some 0
  accum := a.accum
  clients := List.range a.replicas.length
  rev := a.rev

/-- The system of a session. -/
def toSystem (a : Session T σ) : System T σ where
  server := a.server
  clients := a.replicas.mapIdx (Replica.client a.rev)

/-- A session without replicas. -/
def start (d : List σ) : Session T σ where
  doc := d

variable [Slot T σ]

/-- The server's document after an update. -/
def updatedDoc (a : Session T σ) : List σ := (State.applyFromOthers a.doc 0 [] a.accum).1

/-- After `connect` of a new client. -/
def connect (a : Session T σ) : Session T σ :=
  { a with replicas := a.replicas ++ [{ doc := a.doc }] }

/-- After the replica `r` at place `i` has made the operations of a pack. -/
def makeLocalOps (a : Session T σ) (i : ℕ) (r : Replica T σ) (pack : OpPack T) : Session T σ :=
  let r' := r.makeLocalOps i pack
  { a with accum := a.accum ++ r'.applied, replicas := a.replicas.set i r' }

/-- After `update`. -/
def update (a : Session T σ) : Session T σ where
  doc := a.updatedDoc
  accum := []
  rev := a.rev + 1
  replicas := a.replicas.mapIdx (Replica.update a.accum)

/-- The steps. -/
def step (a : Session T σ) : Action T → Except Failure (Session T σ)
  | .connect => .ok a.connect
  | .makeLocalOps i pack =>
    match a.replicas[i]? with
    | none => .error .noClient
    | some r => if r.applied = [] then .ok (a.makeLocalOps i r pack) else .error .appliedNotEmpty
  | .update => .ok a.update

theorem step_cases {a b : Session T σ} {act : Action T} (h : a.step act = .ok b) :
    (act = .connect ∧ b = a.connect) ∨
    (∃ i pack r, act = .makeLocalOps i pack ∧ a.replicas[i]? = some r ∧ r.applied = [] ∧
      b = a.makeLocalOps i r pack) ∨
    (act = .update ∧ b = a.update) := by
  cases act with
  | connect => exact Or.inl ⟨rfl, (Except.ok.inj h).symm⟩
  | update => exact Or.inr (Or.inr ⟨rfl, (Except.ok.inj h).symm⟩)
  | makeLocalOps i pack =>
    simp only [step] at h
    cases hr : a.replicas[i]? with
    | none => rw [hr] at h; cases h
    | some r =>
      rw [hr] at h
      simp only at h
      split_ifs at h with ha
      exact Or.inr (Or.inl ⟨i, pack, r, rfl, hr, ha, (Except.ok.inj h).symm⟩)

theorem length_le_of_step {a b : Session T σ} {act : Action T} (h : a.step act = .ok b) :
    a.replicas.length ≤ b.replicas.length := by
  rcases step_cases h with ⟨-, rfl⟩ | ⟨i, pack, r, -, -, -, rfl⟩ | ⟨-, rfl⟩
  · simp [connect]
  · simp [makeLocalOps]
  · simp [update]

/-! ### The replicas after a step -/

section
variable {a : Session T σ} {i j : ℕ} {r q : Replica T σ}

omit [Slot T σ] in
theorem connect_cases (h : a.connect.replicas[i]? = some q) :
    a.replicas[i]? = some q ∨ i = a.replicas.length ∧ q = { doc := a.doc } := by
  rw [connect, List.getElem?_append] at h
  split_ifs at h with hi
  · exact Or.inl h
  · obtain ⟨h0, rfl⟩ := List.getElem?_eq_some_iff.mp h
    rw [List.length_singleton] at h0
    exact Or.inr ⟨by omega, by simp⟩

theorem makeLocalOps_cases {pack : OpPack T} (hr : a.replicas[i]? = some r)
    (h : (a.makeLocalOps i r pack).replicas[j]? = some q) :
    i ≠ j ∧ a.replicas[j]? = some q ∨ i = j ∧ q = r.makeLocalOps i pack := by
  obtain ⟨hi, -⟩ := List.getElem?_eq_some_iff.mp hr
  by_cases hij : i = j
  · subst hij
    rw [makeLocalOps, List.getElem?_set_self hi] at h
    exact Or.inr ⟨rfl, (Option.some.inj h).symm⟩
  · rw [makeLocalOps, List.getElem?_set_ne hij] at h
    exact Or.inl ⟨hij, h⟩

theorem update_cases (h : a.update.replicas[i]? = some q) :
    ∃ r, a.replicas[i]? = some r ∧ q = r.update a.accum i := by
  rw [update, List.getElem?_mapIdx, Option.map_eq_some_iff] at h
  obtain ⟨r, hr, rfl⟩ := h
  exact ⟨r, hr, rfl⟩

end

/-! ### The clients of the system -/

section
omit [Slot T σ]
variable {a : Session T σ}

theorem mem_clients {c : Client T} :
    c ∈ a.toSystem.clients ↔
      ∃ i, ∃ r : Replica T σ, a.replicas[i]? = some r ∧ c = r.client a.rev i := by
  simp only [toSystem, List.mem_mapIdx]
  constructor
  · rintro ⟨i, hi, rfl⟩
    exact ⟨i, _, List.getElem?_eq_getElem hi, rfl⟩
  · rintro ⟨i, r, hr, rfl⟩
    obtain ⟨hi, rfl⟩ := List.getElem?_eq_some_iff.mp hr
    exact ⟨i, hi, rfl⟩

theorem getElem?_clients (i : ℕ) :
    a.toSystem.clients[i]? = a.replicas[i]?.map (Replica.client a.rev i) := by
  simp [toSystem]

theorem doc_server : a.toSystem.server.doc a.toSystem.server.state = a.doc := rfl

theorem doc_succ (i : ℕ) :
    a.toSystem.server.doc (some (i + 1)) = (a.replicas[i]?.map (·.doc)).getD [] := by
  show (a.doc :: a.replicas.map (·.doc)).getD (i + 1) [] = _
  simp

theorem doc_client {i : ℕ} {r : Replica T σ} (hr : a.replicas[i]? = some r) :
    a.toSystem.server.doc (r.client a.rev i).state = r.doc := by
  show a.toSystem.server.doc (some (i + 1)) = r.doc
  rw [doc_succ, hr]
  rfl

end

/-! ### The system takes the steps of the session -/

omit [Slot T σ] in
theorem start_toSystem (d : List σ) : Comm.start (T := T) d = .ok (start d).toSystem := rfl

/-- The system inside `update`, when the clients at the first `k` places have been updated. -/
def updating (a : Session T σ) (k : ℕ) : System T σ where
  server := { a.server with
    datas := some (a.updatedDoc :: a.replicas.mapIdx fun i r =>
      if i < k then (r.update a.accum i).doc else r.doc)
    rev := a.rev + 1 }
  clients := a.replicas.mapIdx fun i r =>
    if i < k then (r.update a.accum i).client (a.rev + 1) i else r.client a.rev i

theorem updateClient_updating (a : Session T σ) {k : ℕ} (hk : k < a.replicas.length) :
    updateClient (a.updating k) k = .ok (a.updating (k + 1)) := by
  set r := a.replicas[k] with hr
  have hget : (a.updating k).clients[k]? = some (r.client a.rev k) := by
    simp [updating, hk, hr]
  have hclients : (a.updating k).clients.set k ((r.update a.accum k).client (a.rev + 1) k) =
      (a.updating (k + 1)).clients := by
    refine List.ext_getElem? fun i => ?_
    by_cases hi : k = i
    · subst hi; simp [updating, hk, hr]
    · have hlt : i < k + 1 ↔ i < k := by omega
      rw [List.getElem?_set_ne hi]
      simp only [updating, List.getElem?_mapIdx, hlt]
  have hdocs : (a.replicas.mapIdx fun i r =>
      if i < k then (r.update a.accum i).doc else r.doc).modify k
        (fun d => (State.applyFromOthers d (Replica.cid k) r.applied a.accum).1) =
      a.replicas.mapIdx fun i r => if i < k + 1 then (r.update a.accum i).doc else r.doc := by
    refine List.ext_getElem? fun i => ?_
    by_cases hi : k = i
    · subst hi; simp [hk, hr, Replica.update]
    · have hlt : i < k + 1 ↔ i < k := by omega
      rw [List.getElem?_modify_ne _ _ hi]
      simp only [List.getElem?_mapIdx, hlt]
  have hedit : (a.updating k).server.edit (some (k + 1))
      (fun d => (State.applyFromOthers d (Replica.cid k) r.applied a.accum).1) =
      .ok (a.updating (k + 1)).server := by
    simp only [Server.edit, updating, List.modify_succ_cons, hdocs]
  have hupdate : (r.client a.rev k).updateFromServer (a.updating k).server (a.rev + 1) a.accum =
      .ok ((r.update a.accum k).client (a.rev + 1) k, (a.updating (k + 1)).server) := by
    rw [Client.updateFromServer_eq rfl]
    show Except.map _ ((a.updating k).server.edit (some (k + 1)) fun d =>
      (State.applyFromOthers d (Replica.cid k) r.applied a.accum).1) = _
    rw [hedit]
    rfl
  unfold updateClient
  rw [hget]
  show (((r.client a.rev k).updateFromServer (a.updating k).server (a.rev + 1) a.accum).bind _) = _
  rw [hupdate]
  show Except.ok (System.mk _ ((a.updating k).clients.set k _)) = _
  rw [hclients]

theorem foldlM_updateClient (a : Session T σ) :
    (List.range a.replicas.length).foldlM updateClient (a.updating 0) =
      .ok (a.updating a.replicas.length) := by
  let P : ℕ → System T σ → Prop := fun k s => s = a.updating k
  have h0 : P 0 (a.updating 0) := rfl
  obtain ⟨t, ht, hP⟩ := foldlM_induct h0 fun k hk s hs => by
    rw [List.length_range] at hk
    rw [List.getElem_range, show s = a.updating k from hs]
    exact ⟨_, updateClient_updating a hk, rfl⟩
  rw [ht, show t = a.updating _ from hP, List.length_range]

theorem updating_zero (a : Session T σ) : a.updating 0 =
    { server := { a.server with
        datas := some (a.updatedDoc :: a.replicas.map (·.doc)), rev := a.rev + 1 }
      clients := a.replicas.mapIdx (Replica.client a.rev) } := by
  have hdocs : a.replicas.mapIdx (fun i r => if i < 0 then (r.update a.accum i).doc else r.doc) =
      a.replicas.map (·.doc) := by
    refine List.ext_getElem? fun i => ?_
    simp
  unfold updating
  rw [hdocs]
  simp only [Nat.not_lt_zero, if_false]

theorem updating_length (a : Session T σ) : a.updating a.replicas.length =
    { server := { a.server with
        datas := some (a.updatedDoc :: (a.replicas.mapIdx (Replica.update a.accum)).map (·.doc))
        rev := a.rev + 1 }
      clients := (a.replicas.mapIdx (Replica.update a.accum)).mapIdx
        (Replica.client (a.rev + 1)) } := by
  have hdocs : a.replicas.mapIdx (fun i r =>
      if i < a.replicas.length then (r.update a.accum i).doc else r.doc) =
        (a.replicas.mapIdx (Replica.update a.accum)).map (·.doc) := by
    refine List.mapIdx_eq_iff.mpr fun i => ?_
    by_cases hi : i < a.replicas.length <;> simp [hi]
  have hclients : a.replicas.mapIdx (fun i r => if i < a.replicas.length then
      (r.update a.accum i).client (a.rev + 1) i else r.client a.rev i) =
        (a.replicas.mapIdx (Replica.update a.accum)).mapIdx (Replica.client (a.rev + 1)) := by
    rw [List.mapIdx_mapIdx]
    refine List.mapIdx_eq_mapIdx_iff.mpr fun i hi => ?_
    rw [if_pos hi]
    rfl
  simp only [updating, hdocs, hclients]

theorem update_toSystem (a : Session T σ) :
    Comm.update a.toSystem = (a.step .update).map toSystem := by
  have hloop : Comm.update a.toSystem =
      ((List.range a.replicas.length).foldlM updateClient (a.updating 0)).map
        fun s => { s with server := { s.server with accum := [] } } := by
    rw [updating_zero]
    rfl
  rw [hloop, foldlM_updateClient a, updating_length]
  simp [Except.map, step, update, toSystem, server]

theorem connect_toSystem (a : Session T σ) :
    Comm.step a.toSystem .connect = (a.step .connect).map toSystem := by
  have hcid : UInt32.ofNat ((a.doc :: a.replicas.map (·.doc)) ++ [a.doc]).length - 1 =
      Replica.cid a.replicas.length := by
    simp [Replica.cid]
  have hconnect : ({} : Client T).connect a.toSystem.clients.length a.server = .ok
      (({ doc := a.doc } : Replica T σ).client a.rev a.replicas.length,
        a.connect.server) := by
    rw [Client.connect_eq rfl rfl]
    simp only [List.headD_cons, hcid]
    simp [server, connect, Replica.client, toSystem, List.range_succ]
  have hclients : a.toSystem.clients ++
      [({ doc := a.doc } : Replica T σ).client a.rev a.replicas.length] =
        a.connect.toSystem.clients := by
    simp [toSystem, connect]
  unfold Comm.step
  simp only [show a.toSystem.server = a.server from rfl, hconnect]
  show Except.ok (System.mk _ (a.toSystem.clients ++ [_])) = _
  rw [hclients]
  rfl

theorem makeLocalOps_toSystem (a : Session T σ) (i : ℕ) (pack : OpPack T) :
    Comm.step a.toSystem (.makeLocalOps i pack) = (a.step (.makeLocalOps i pack)).map toSystem := by
  unfold Comm.step step
  simp only [getElem?_clients]
  cases hr : a.replicas[i]? with
  | none => rfl
  | some r =>
    simp only [Option.map_some]
    split_ifs with ha
    · set r' := r.makeLocalOps i pack with hr'
      obtain ⟨hi, hri⟩ := List.getElem?_eq_some_iff.mp hr
      have hdocs : (a.replicas.map (·.doc)).modify i (fun d =>
          State.applyPack d r'.applied) = (a.replicas.set i r').map (·.doc) := by
        refine List.ext_getElem? fun j => ?_
        by_cases hj : i = j
        · subst hj; simp [hi, hri, hr', Replica.makeLocalOps]
        · simp [hj, List.getElem?_set_ne hj]
      have hmake : (r.client a.rev i).makeLocalOps a.server pack = .ok (r'.client a.rev i,
          (a.makeLocalOps i r pack).server) := by
        rw [Client.makeLocalOps_eq rfl ha]
        show Except.map _ (Server.push { a.server with datas := some (a.doc ::
          (a.replicas.map (·.doc)).modify i fun d => State.applyPack d r'.applied) }
          a.rev r'.applied) = _
        rw [hdocs]
        show Except.map _ (if a.rev = a.rev then _ else _) = _
        rw [if_pos rfl]
        simp [Except.map, makeLocalOps, server, Replica.client, hr', Replica.makeLocalOps]
      have hclients : a.toSystem.clients.set i (r'.client a.rev i) =
          (a.replicas.set i r').mapIdx (Replica.client a.rev) := by
        rw [List.mapIdx_set]; rfl
      show (((r.client a.rev i).makeLocalOps a.server pack).bind _) = _
      rw [hmake]
      show Except.ok (System.mk _ (a.toSystem.clients.set i _)) = _
      rw [hclients]
      rfl
    · show (((r.client a.rev i).makeLocalOps a.server pack).bind _) = _
      rw [Client.makeLocalOps_appliedNotEmpty rfl ha]
      rfl

/-- **The system takes the steps of the session.** -/
theorem step_toSystem (a : Session T σ) (act : Action T) :
    Comm.step a.toSystem act = (a.step act).map toSystem := by
  cases act with
  | connect => exact connect_toSystem a
  | makeLocalOps i pack => exact makeLocalOps_toSystem a i pack
  | update => exact update_toSystem a

/-- **What a run of the system does, a run of the session does**, from the same documents. -/
theorem run_toSystem {guard : System T σ → Action T → Prop} {a : Session T σ}
    {acts : List (Action T)} {s : System T σ} (h : Run Comm.step guard a.toSystem acts s) :
    ∃ b : Session T σ, s = b.toSystem ∧
      Run step (fun a act => guard a.toSystem act) a acts b :=
  h.image step_toSystem

end Session

end OpTransform.Comm
