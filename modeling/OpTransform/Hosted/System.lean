import OpTransform.Comm.System
import OpTransform.Ops.Container

/-! # The system over its containers

`Server<C>`, `Client<C>` and their calls once more, with documents in containers `C`. The clients
are those of `Comm`, where only a pointer leads to the document; the server has the documents.

Over containers that are sequences every call follows the call of the system over lists
(`step_follows`): it fails with an assertion where that one does, never inside a container, and the
containers hold the lists. -/

namespace OpTransform.Hosted

open OpTransform.Ops OpTransform.Comm OpTransform.Lib.Runs OpTransform.Lib.Simulation

/-- An assertion of the code that fails, or a failure in a container. -/
inductive Stop (F : Type)
  | failure (f : Failure)
  | fault (f : F)

variable {F C T : Type}

/-- A call of a container. -/
def call {A : Type} : Except F A → Except (Stop F) A
  | .ok a => .ok a
  | .error f => .error (.fault f)

/-- `Server<C>`. -/
structure Server (C T : Type) where
  datas : Option (List C) := none
  state : Option ℕ := none
  accum : OpPack T := []
  clients : List ℕ := []
  rev : UInt32 := 0

namespace Server

/-- `init`. -/
def init (s : Server C T) (d : List C) : Except (Stop F) (Server C T) :=
  if s.datas.isSome then .error (.failure .alreadyInitialized)
  else .ok { s with datas := some d, state := some 0 }

/-- `clone`. -/
def clone (K : Container F C T) (s : Server C T) (pc : ℕ) :
    Except (Stop F) ((UInt32 × UInt32 × ℕ) × Server C T) :=
  match s.datas with
  | none => .error (.failure .notInitialized)
  | some ds => do
    let c ← call (K.copy (ds.headD K.empty))
    let ds' := ds ++ [c]
    return ((UInt32.ofNat ds'.length - 1, s.rev, ds'.length - 1),
      { s with clients := s.clients ++ [pc], datas := some ds' })

/-- `push`. -/
def push (s : Server C T) (r : UInt32) (pack : OpPack T) : Except (Stop F) (Server C T) :=
  if r = s.rev then .ok { s with accum := s.accum ++ pack } else .error (.failure .revMismatch)

/-- An edit of the document that a `State` points to, with the null pointer as in `Comm.Server`. -/
def edit (s : Server C T) (p : Option ℕ) (f : C → Except F C) : Except (Stop F) (Server C T) :=
  match p, s.datas with
  | some i, some ds =>
    match ds[i]? with
    | none => .ok s
    | some c => do
      let c ← call (f c)
      return { s with datas := some (ds.set i c) }
  | _, _ => .error (.failure .noData)

/-- The document that a `State` points to. -/
def doc (K : Container F C T) (s : Server C T) (p : Option ℕ) : C :=
  match p, s.datas with
  | some i, some ds => ds.getD i K.empty
  | _, _ => K.empty

end Server

section
variable (K : Container F C T)

/-! ### The clients -/

/-- `connect`, of the client at address `addr`. -/
def connect (c : Client T) (addr : ℕ) (s : Server C T) :
    Except (Stop F) (Client T × Server C T) := do
  if c.connected then throw (.failure .alreadyConnected)
  let ((cid, r, buf), s) ← s.clone K addr
  return ({ c with server := true, cid := cid, servRev := r, state := some buf }, s)

/-- `makeLocalOps`. -/
def makeLocalOps (c : Client T) (s : Server C T) (pack : OpPack T) :
    Except (Stop F) (Client T × Server C T) := do
  if !c.connected then throw (.failure .notConnected)
  if !c.applied.isEmpty then throw (.failure .appliedNotEmpty)
  let (pack, rev) := Client.sign c.cid c.rev pack
  let s ← s.edit c.state fun data => K.applyPack data pack
  let s ← s.push c.servRev pack
  return ({ c with rev := rev, applied := pack }, s)

/-- `updateFromServer`. -/
def updateFromServer (c : Client T) (s : Server C T) (r : UInt32) (pack : OpPack T) :
    Except (Stop F) (Client T × Server C T) := do
  if !c.connected then throw (.failure .notConnected)
  let s ← s.edit c.state fun data => (K.applyFromOthers data c.cid c.applied pack).map (·.1)
  return ({ c with servRev := r, applied := [] }, s)

/-! ### The calls from outside -/

/-- The server, and the client objects by address. -/
structure System (C T : Type) where
  server : Server C T
  clients : List (Client T)

/-- One round of the loop of `update`, for the client at address `pc`. -/
def updateClient (s : System C T) (pc : ℕ) : Except (Stop F) (System C T) :=
  match s.clients[pc]? with
  | none => .error (.failure .noClient)
  | some c => do
    let (c, server) ← updateFromServer K c s.server s.server.rev s.server.accum
    return { server := server, clients := s.clients.set pc c }

/-- `Server::update`. -/
def update (s : System C T) : Except (Stop F) (System C T) := do
  let server ← s.server.edit s.server.state fun data =>
    (K.applyFromOthers data 0 [] s.server.accum).map (·.1)
  let server := { server with rev := server.rev + 1 }
  let s ← server.clients.foldlM (updateClient K) { s with server := server }
  return { s with server := { s.server with accum := [] } }

/-- One call. -/
def step (s : System C T) : Action T → Except (Stop F) (System C T)
  | .connect => do
    let addr := s.clients.length
    let (c, server) ← connect K ({} : Client T) addr s.server
    return { server := server, clients := s.clients ++ [c] }
  | .makeLocalOps addr pack =>
    match s.clients[addr]? with
    | none => .error (.failure .noClient)
    | some c => do
      let (c, server) ← makeLocalOps K c s.server pack
      return { server := server, clients := s.clients.set addr c }
  | .update => update K s

/-- A new server, initialised with a vector of one document, and no clients. -/
def start (d : C) : Except (Stop F) (System C T) := do
  let server ← ({} : Server C T).init [d]
  return { server := server, clients := [] }

end

/-! ### The lists that the containers hold -/

/-- **The server shows** the server over lists. -/
structure Shows (H : C → List T → Prop) (s : Server C T) (t : Comm.Server T T) : Prop where
  datas : Option.Rel (List.Forall₂ H) s.datas t.datas
  state : s.state = t.state
  accum : s.accum = t.accum
  clients : s.clients = t.clients
  rev : s.rev = t.rev

/-- The system shows the system over lists. -/
structure SystemShows (H : C → List T → Prop) (s : System C T) (t : Comm.System T T) : Prop where
  server : Shows H s.server t.server
  clients : s.clients = t.clients

/-- A call that returns a value beside the server. -/
def PairShows {A : Type} (H : C → List T → Prop) (x : A × Server C T) (y : A × Comm.Server T T) :
    Prop := x.1 = y.1 ∧ Shows H x.2 y.2

section
variable {K : Container F C T} {H : C → List T → Prop} {s : Server C T} {t : Comm.Server T T}

theorem call_eq_ok {A : Type} {x : Except F A} {a : A} (h : x = .ok a) : call x = .ok a := by
  rw [h, call]

theorem Shows.init (h : Shows H s t) {d : List C} {e : List (List T)} (hd : List.Forall₂ H d e) :
    Follows Stop.failure (Shows H) (s.init d : Except (Stop F) _) (t.init e) := by
  obtain ⟨sd, ss, sa, sc, sr⟩ := s
  obtain ⟨td, ts, ta, tc, tr⟩ := t
  obtain ⟨hdatas, rfl, rfl, rfl, rfl⟩ := h
  cases hdatas with
  | none => exact .ok ⟨.some hd, rfl, rfl, rfl, rfl⟩
  | some _ => exact .error _

theorem Shows.push (h : Shows H s t) (r : UInt32) (pack : OpPack T) :
    Follows Stop.failure (Shows H) (s.push r pack : Except (Stop F) _) (t.push r pack) := by
  obtain ⟨sd, ss, sa, sc, sr⟩ := s
  obtain ⟨td, ts, ta, tc, tr⟩ := t
  obtain ⟨hdatas, rfl, rfl, rfl, rfl⟩ := h
  simp only [Server.push, Comm.Server.push]
  split_ifs
  · exact .ok ⟨hdatas, rfl, rfl, rfl, rfl⟩
  · exact .error _

theorem Shows.edit (h : Shows H s t) (p : Option ℕ) {f : C → Except F C} {g : List T → List T}
    (hfg : ∀ c L, H c L → ∃ c', f c = .ok c' ∧ H c' (g L)) :
    Follows Stop.failure (Shows H) (s.edit p f) (t.edit p g) := by
  obtain ⟨sd, ss, sa, sc, sr⟩ := s
  obtain ⟨td, ts, ta, tc, tr⟩ := t
  obtain ⟨hd, rfl, rfl, rfl, rfl⟩ := h
  cases p with
  | none => exact .error _
  | some i =>
    cases hd with
    | none => exact .error _
    | @some ds es hd =>
      have hlen := hd.length_eq
      simp only [Server.edit]
      cases hi : ds[i]? with
      | none =>
        -- nothing is edited in the lists either
        have hge := List.getElem?_eq_none_iff.mp hi
        have hself : es.modify i g = es := List.modify_eq_self (by omega)
        exact .ok ⟨.some (hself.symm ▸ hd), rfl, rfl, rfl, rfl⟩
      | some c =>
        obtain ⟨L, hL, hcL⟩ := exists_getElem?_of_forall₂ hd hi
        obtain ⟨c', hc', hcL'⟩ := hfg c L hcL
        show Follows _ _ ((call (f c)).bind _) _
        rw [call_eq_ok hc']
        exact .ok ⟨.some (forall₂_set_modify hd hL hcL'), rfl, rfl, rfl, rfl⟩

theorem Shows.clone (hK : K.IsSequence H) (h : Shows H s t) (pc : ℕ) :
    Follows Stop.failure (PairShows H) (s.clone K pc) (t.clone pc) := by
  obtain ⟨sd, ss, sa, sc, sr⟩ := s
  obtain ⟨td, ts, ta, tc, tr⟩ := t
  obtain ⟨hd, rfl, rfl, rfl, rfl⟩ := h
  cases hd with
  | none => exact .error _
  | @some ds es hd =>
    have hfront : H (ds.headD K.empty) (es.headD []) := by
      cases hd with
      | nil => exact hK.empty
      | cons hd _ => exact hd
    obtain ⟨c, hc, hholds⟩ := hK.copy hfront
    have hall : List.Forall₂ H (ds ++ [c]) (es ++ [es.headD []]) :=
      List.rel_append hd (.cons hholds .nil)
    have hlen : (ds ++ [c]).length = (es ++ [es.headD []]).length := hall.length_eq
    show Follows _ _ ((call (K.copy (ds.headD K.empty))).bind _) _
    rw [call_eq_ok hc]
    refine .ok ⟨?_, .some hall, rfl, rfl, rfl, rfl⟩
    rw [hlen]

/-! ### The calls of the clients -/

theorem connect_follows (hK : K.IsSequence H) (h : Shows H s t) (c : Client T) (addr : ℕ) :
    Follows Stop.failure (PairShows H) (connect K c addr s) (c.connect addr t) := by
  unfold connect Client.connect
  cases c.connected with
  | true => exact .error _
  | false =>
    refine (h.clone hK addr).bind fun x y hxy => ?_
    obtain ⟨⟨cid, r, buf⟩, s'⟩ := x
    obtain ⟨y, t'⟩ := y
    obtain ⟨rfl, hs'⟩ := hxy
    exact .ok ⟨rfl, hs'⟩

theorem makeLocalOps_follows (hK : K.IsSequence H) (h : Shows H s t) (c : Client T)
    (pack : OpPack T) :
    Follows Stop.failure (PairShows H) (makeLocalOps K c s pack) (c.makeLocalOps t pack) := by
  unfold makeLocalOps Client.makeLocalOps
  cases c.connected with
  | false => exact .error _
  | true =>
    cases c.applied.isEmpty with
    | false => exact .error _
    | true =>
      refine (h.edit c.state fun d L hd => hK.applyPack hd _).bind fun s' t' h' => ?_
      refine (h'.push c.servRev _).bind fun s'' t'' h'' => ?_
      exact .ok ⟨rfl, h''⟩

theorem exists_applyFromOthers (hK : K.IsSequence H) (cid : UInt32) (applied pack : OpPack T)
    (d : C) (L : List T) (hd : H d L) :
    ∃ d', (K.applyFromOthers d cid applied pack).map (·.1) = .ok d' ∧
      H d' (State.applyFromOthers L cid applied pack).1 := by
  obtain ⟨x, hx, hholds⟩ := hK.applyFromOthers hd cid applied pack
  exact ⟨x.1, by rw [hx]; rfl, hholds⟩

theorem updateFromServer_follows (hK : K.IsSequence H) (h : Shows H s t) (c : Client T) (r : UInt32)
    (pack : OpPack T) : Follows Stop.failure (PairShows H) (updateFromServer K c s r pack)
      (c.updateFromServer t r pack) := by
  unfold updateFromServer Client.updateFromServer
  cases c.connected with
  | false => exact .error _
  | true =>
    refine (h.edit c.state (exists_applyFromOthers hK c.cid c.applied pack)).bind fun s' t' h' => ?_
    exact .ok ⟨rfl, h'⟩

end

/-! ### The calls from outside -/

section
variable {K : Container F C T} {H : C → List T → Prop} {s : System C T} {t : Comm.System T T}

theorem updateClient_follows (hK : K.IsSequence H) (h : SystemShows H s t) (pc : ℕ) :
    Follows Stop.failure (SystemShows H) (updateClient K s pc) (Comm.updateClient t pc) := by
  rw [updateClient, Comm.updateClient, h.clients]
  cases t.clients[pc]? with
  | none => exact .error _
  | some c =>
    rw [h.server.rev, h.server.accum]
    refine (updateFromServer_follows hK h.server c _ _).bind fun x y hxy => ?_
    obtain ⟨c', s'⟩ := x
    obtain ⟨d', t'⟩ := y
    obtain ⟨rfl, hs'⟩ := hxy
    exact .ok ⟨hs', rfl⟩

theorem update_follows (hK : K.IsSequence H) (h : SystemShows H s t) :
    Follows Stop.failure (SystemShows H) (update K s) (Comm.update t) := by
  rw [update, Comm.update, h.server.accum, h.server.state]
  refine (h.server.edit _ (exists_applyFromOthers hK 0 [] _)).bind fun s' t' h' => ?_
  obtain ⟨sd, ss, sa, sc, sr⟩ := s'
  obtain ⟨td, ts, ta, tc, tr⟩ := t'
  obtain ⟨hdatas, rfl, rfl, rfl, rfl⟩ := h'
  have hstart : SystemShows H { s with server := ⟨sd, ss, sa, sc, sr + 1⟩ }
      { t with server := ⟨td, ss, sa, sc, sr + 1⟩ } :=
    ⟨⟨hdatas, rfl, rfl, rfl, rfl⟩, h.clients⟩
  have hloop := Follows.foldlM (fun _ _ pc h => updateClient_follows hK h pc) sc hstart
  refine hloop.bind fun s'' t'' h'' => ?_
  exact .ok ⟨⟨h''.server.datas, h''.server.state, rfl, h''.server.clients, h''.server.rev⟩,
    h''.clients⟩

/-- **Every call follows the call over lists.** -/
theorem step_follows (hK : K.IsSequence H) (h : SystemShows H s t) (act : Action T) :
    Follows Stop.failure (SystemShows H) (step K s act) (Comm.step t act) := by
  cases act with
  | update => exact update_follows hK h
  | connect =>
    rw [step, Comm.step, h.clients]
    refine (connect_follows hK h.server {} _).bind fun x y hxy => ?_
    obtain ⟨c', s'⟩ := x
    obtain ⟨d', t'⟩ := y
    obtain ⟨rfl, hs'⟩ := hxy
    exact .ok ⟨hs', rfl⟩
  | makeLocalOps addr pack =>
    rw [step, Comm.step, h.clients]
    cases t.clients[addr]? with
    | none => exact .error _
    | some c =>
      refine (makeLocalOps_follows hK h.server c pack).bind fun x y hxy => ?_
      obtain ⟨c', s'⟩ := x
      obtain ⟨d', t'⟩ := y
      obtain ⟨rfl, hs'⟩ := hxy
      exact .ok ⟨hs', rfl⟩

theorem start_follows {d : C} {L : List T} (hd : H d L) :
    Follows Stop.failure (SystemShows H) (start d : Except (Stop F) _) (Comm.start L) := by
  have hnew : Shows H ({} : Server C T) {} := ⟨.none, rfl, rfl, rfl, rfl⟩
  unfold start Comm.start
  refine (hnew.init (.cons hd .nil)).bind fun s' t' h' => ?_
  exact .ok ⟨h', rfl⟩

theorem calls_follow (hK : K.IsSequence H) {d : C} {L : List T} (hd : H d L)
    (acts : List (Action T)) :
    Follows Stop.failure (SystemShows H) ((start d).bind fun s₀ => acts.foldlM (step K) s₀)
      ((Comm.start L).bind fun t₀ => acts.foldlM Comm.step t₀) :=
  (start_follows hd).bind fun _ _ h =>
    Follows.foldlM (fun _ _ act h => step_follows hK h act) acts h

end

/-! ### What the calls keep of the documents -/

/-- The server has documents, and all of them have the property `P`. -/
def Documents (P : C → Prop) (s : Server C T) : Prop :=
  ∃ ds, s.datas = some ds ∧ ds ≠ [] ∧ ∀ c ∈ ds, P c

section
variable {K : Container F C T} {P : C → Prop}

theorem eq_ok_of_call {A : Type} {x : Except F A} {a : A} (h : call x = .ok a) : x = .ok a := by
  cases x with
  | error f => cases h
  | ok b => rw [Except.ok.inj h]

theorem Documents.edit {s s' : Server C T} (h : Documents P s) {p : Option ℕ} {f : C → Except F C}
    (hf : ∀ c c', P c → f c = .ok c' → P c') (he : s.edit p f = .ok s') : Documents P s' := by
  obtain ⟨sd, ss, sa, sc, sr⟩ := s
  obtain ⟨ds, rfl, hne, hall⟩ := h
  cases p with
  | none => cases he
  | some i =>
    simp only [Server.edit] at he
    cases hi : ds[i]? with
    | none =>
      rw [hi] at he
      obtain rfl := Except.ok.inj he
      exact ⟨ds, rfl, hne, hall⟩
    | some c =>
      rw [hi] at he
      obtain ⟨c', hc', he⟩ := exists_of_bind_eq_ok he
      obtain rfl := Except.ok.inj he
      refine ⟨ds.set i c', rfl, by simpa using hne, fun d hd => ?_⟩
      rcases List.mem_or_eq_of_mem_set hd with hd | rfl
      · exact hall d hd
      · exact hf c _ (hall c (List.mem_of_getElem? hi)) (eq_ok_of_call hc')

theorem Documents.clone (hK : K.Keeps P) {s s' : Server C T} (h : Documents P s) {pc : ℕ}
    {x : UInt32 × UInt32 × ℕ} (he : s.clone K pc = .ok (x, s')) : Documents P s' := by
  obtain ⟨ds, hds, hne, hall⟩ := h
  rw [Server.clone, hds] at he
  obtain ⟨c, hc, he⟩ := exists_of_bind_eq_ok he
  obtain ⟨-, rfl⟩ := Prod.mk.inj (Except.ok.inj he)
  have hfront : P (ds.headD K.empty) := by
    obtain ⟨d, ds, rfl⟩ := List.exists_cons_of_ne_nil hne
    exact hall d List.mem_cons_self
  refine ⟨ds ++ [c], rfl, by simp, fun d hd => ?_⟩
  rcases List.mem_append.mp hd with hd | hd
  · exact hall d hd
  · rw [List.mem_singleton.mp hd]
    exact hK.copy hfront (eq_ok_of_call hc)

theorem Documents.updateFromServer (hK : K.Keeps P) {s s' : Server C T} (h : Documents P s)
    {c c' : Client T} {r : UInt32} {pack : OpPack T}
    (he : updateFromServer K c s r pack = .ok (c', s')) : Documents P s' := by
  unfold Hosted.updateFromServer at he
  cases hconnected : c.connected with
  | false => rw [hconnected] at he; cases he
  | true =>
    rw [hconnected] at he
    obtain ⟨t, ht, he⟩ := exists_of_bind_eq_ok he
    obtain ⟨-, rfl⟩ := Prod.mk.inj (Except.ok.inj he)
    exact h.edit (fun _ _ hd he => hK.applyFromOthers hd he) ht

theorem Documents.makeLocalOps (hK : K.Keeps P) {s s' : Server C T} (h : Documents P s)
    {c c' : Client T} {pack : OpPack T} (he : makeLocalOps K c s pack = .ok (c', s')) :
    Documents P s' := by
  unfold Hosted.makeLocalOps at he
  cases hconnected : c.connected with
  | false => rw [hconnected] at he; cases he
  | true =>
    cases happlied : c.applied.isEmpty with
    | false => rw [hconnected, happlied] at he; cases he
    | true =>
      rw [hconnected, happlied] at he
      obtain ⟨t, ht, he⟩ := exists_of_bind_eq_ok he
      obtain ⟨u, hu, he⟩ := exists_of_bind_eq_ok he
      obtain ⟨-, rfl⟩ := Prod.mk.inj (Except.ok.inj he)
      have hdocs := h.edit (fun _ _ hd he => hK.applyPack hd he) ht
      rw [Server.push] at hu
      split_ifs at hu
      obtain rfl := Except.ok.inj hu
      exact hdocs

theorem Documents.updateClient (hK : K.Keeps P) {s s' : System C T} (h : Documents P s.server)
    {pc : ℕ} (he : updateClient K s pc = .ok s') : Documents P s'.server := by
  rw [Hosted.updateClient] at he
  cases hc : s.clients[pc]? with
  | none => rw [hc] at he; cases he
  | some c =>
    rw [hc] at he
    obtain ⟨⟨c', t⟩, hupdate, he⟩ := exists_of_bind_eq_ok he
    obtain rfl := Except.ok.inj he
    exact h.updateFromServer hK hupdate

/-- **A call keeps what the calls of the containers keep**, of every document. -/
theorem Documents.step (hK : K.Keeps P) {s s' : System C T} (h : Documents P s.server)
    {act : Action T} (he : step K s act = .ok s') : Documents P s'.server := by
  cases act with
  | connect =>
    obtain ⟨⟨c, t⟩, hc, he⟩ := exists_of_bind_eq_ok he
    obtain rfl := Except.ok.inj he
    obtain ⟨⟨x, t'⟩, hclone, hc⟩ := exists_of_bind_eq_ok hc
    obtain ⟨-, rfl⟩ := Prod.mk.inj (Except.ok.inj hc)
    exact h.clone hK hclone
  | makeLocalOps addr pack =>
    rw [Hosted.step] at he
    cases hc : s.clients[addr]? with
    | none => rw [hc] at he; cases he
    | some c =>
      rw [hc] at he
      obtain ⟨⟨c', t⟩, hmake, he⟩ := exists_of_bind_eq_ok he
      obtain rfl := Except.ok.inj he
      exact h.makeLocalOps hK hmake
  | update =>
    obtain ⟨t, ht, he⟩ := exists_of_bind_eq_ok he
    obtain ⟨u, hu, he⟩ := exists_of_bind_eq_ok he
    obtain rfl := Except.ok.inj he
    have hdocs := h.edit (fun _ _ hd he => hK.applyFromOthers hd he) ht
    have hall : Documents P u.server :=
      foldlM_invariant (I := fun u : System C T => Documents P u.server) hu hdocs
        fun _ _ _ h he => h.updateClient hK he
    exact hall

end

end OpTransform.Hosted
