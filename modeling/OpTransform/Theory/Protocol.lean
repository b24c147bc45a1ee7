import Mathlib.Data.List.Nodup
import OpTransform.Comm.Session

/-! # The books of the protocol

The server hands out the cids and collects the operations, every client keeps its own operations
until the next update, and `applyFromOthers` skips operations by cid. `Bookkeeping` says what these
records have to do with each other in every state of a run: a client skips its own operations and no
others (`bookkeeping`), and its own ones are those its document has. -/

namespace OpTransform.Theory.Protocol

open OpTransform.Ops OpTransform.Comm OpTransform.Lib.Runs

universe u

variable {T σ : Type u}

/-- The calls the code expects: fewer than 2 ^ 32 clients in all, and local operations only by a
client without undelivered ones. -/
def Legal (s : System T σ) : Action T → Prop
  | .connect => s.clients.length + 1 < 2 ^ 32
  | .makeLocalOps addr _ => ∃ c, s.clients[addr]? = some c ∧ c.applied = []
  | .update => True

/-- **The books are in order.** -/
structure Bookkeeping [Slot T σ] (s : System T σ) : Prop where
  connected : ∀ c ∈ s.clients, c.connected = true
  cid_ne_zero : ∀ c ∈ s.clients, c.cid ≠ 0
  cid_nodup : (s.clients.map (·.cid)).Nodup
  servRev : ∀ c ∈ s.clients, c.servRev = s.server.rev
  /-- no assertion fails, that of `push` in particular -/
  succeeds : ∀ act, Legal s act → ∃ s', step s act = .ok s'
  applied : ∀ c ∈ s.clients, s.server.accum.filter (·.cid = c.cid) = c.applied
  signed : ∀ op ∈ s.server.accum, ∃ c ∈ s.clients, c.cid = op.cid
  /-- a client skips what was pushed by itself, and nothing else -/
  skips : ∀ (i j : ℕ) (ci cj : Client T), s.clients[i]? = some ci → s.clients[j]? = some cj →
    ∀ op ∈ cj.applied, (ci.cid = op.cid ↔ i = j)
  server_skips : ∀ op ∈ s.server.accum, (0 : UInt32) ≠ op.cid

/-! ### The cids -/

theorem toNat_cid {i n : ℕ} (hi : i < n) (hn : n < 2 ^ 32) : (Replica.cid i).toNat = i + 1 :=
  UInt32.toNat_ofNat_of_lt' (by show i + 1 < 2 ^ 32; omega)

theorem cid_ne_zero {i n : ℕ} (hi : i < n) (hn : n < 2 ^ 32) : Replica.cid i ≠ 0 := by
  intro h
  have := congrArg UInt32.toNat h
  rw [toNat_cid hi hn] at this
  simp at this

theorem cid_inj {i j n : ℕ} (hi : i < n) (hj : j < n) (hn : n < 2 ^ 32) :
    Replica.cid i = Replica.cid j ↔ i = j := by
  refine ⟨fun h => ?_, fun h => by rw [h]⟩
  have := congrArg UInt32.toNat h
  rw [toNat_cid hi hn, toNat_cid hj hn] at this
  omega

theorem cid_of_mem_sign {cid rev : UInt32} {pack : OpPack T} {op : OpDescriptor T}
    (h : op ∈ (Client.sign cid rev pack).1) : op.cid = cid := by
  rw [Client.sign_eq, List.mem_mapIdx] at h
  obtain ⟨i, hi, rfl⟩ := h
  rfl

theorem filter_sign_self (cid rev : UInt32) (pack : OpPack T) :
    (Client.sign cid rev pack).1.filter (·.cid = cid) = (Client.sign cid rev pack).1 :=
  List.filter_eq_self.mpr fun op hop => by simpa using cid_of_mem_sign hop

theorem filter_sign_ne {cid cid' : UInt32} (h : cid ≠ cid') (rev : UInt32) (pack : OpPack T) :
    (Client.sign cid rev pack).1.filter (·.cid = cid') = [] :=
  List.filter_eq_nil_iff.mpr fun op hop => by simpa [cid_of_mem_sign hop] using h

/-! ### The books of a session -/

/-- The books of a session: whose operations the server has, by the places of the replicas. -/
structure Books (a : Session T σ) : Prop where
  few : a.replicas.length < 2 ^ 32
  applied : ∀ (i : ℕ) (r : Replica T σ), a.replicas[i]? = some r →
    a.accum.filter (·.cid = Replica.cid i) = r.applied
  signed : ∀ op ∈ a.accum, ∃ i < a.replicas.length, op.cid = Replica.cid i

namespace Books

theorem start (d : List σ) : Books (Session.start (T := T) d) :=
  ⟨by simp [Session.start], nofun, nofun⟩

variable {a : Session T σ}

theorem connect (h : Books a) (hfew : a.replicas.length + 1 < 2 ^ 32) : Books a.connect := by
  have hlen : a.connect.replicas.length = a.replicas.length + 1 := by simp [Session.connect]
  refine ⟨by omega, fun i r hr => ?_, fun op hop => ?_⟩
  · rcases Session.connect_cases hr with hr | ⟨rfl, rfl⟩
    · exact h.applied i r hr
    · -- nobody has had the new cid
      refine List.filter_eq_nil_iff.mpr fun op hop => ?_
      obtain ⟨j, hj, hc⟩ := h.signed op hop
      have hne : ¬ j = a.replicas.length := by omega
      simpa [hc, cid_inj (show j < a.replicas.length + 1 by omega) (Nat.lt_succ_self _) hfew]
        using hne
  · obtain ⟨i, hi, hc⟩ := h.signed op hop
    exact ⟨i, by omega, hc⟩

theorem filter_zero (h : Books a) : a.accum.filter (0 ≠ ·.cid) = a.accum :=
  List.filter_eq_self.mpr fun op hop => by
    obtain ⟨i, hi, hc⟩ := h.signed op hop
    simpa [hc] using (cid_ne_zero hi h.few).symm

variable [Slot T σ]

theorem makeLocalOps (h : Books a) {i : ℕ} {r : Replica T σ} (hr : a.replicas[i]? = some r)
    (ha : r.applied = []) (pack : OpPack T) : Books (a.makeLocalOps i r pack) := by
  obtain ⟨hi, -⟩ := List.getElem?_eq_some_iff.mp hr
  have hlen : (a.makeLocalOps i r pack).replicas.length = a.replicas.length := by
    simp [Session.makeLocalOps]
  refine ⟨by rw [hlen]; exact h.few, fun j q hq => ?_, fun op hop => ?_⟩
  · show (a.accum ++ (Client.sign (Replica.cid i) r.rev pack).1).filter _ = _
    rw [List.filter_append]
    rcases Session.makeLocalOps_cases hr hq with ⟨hij, hq⟩ | ⟨rfl, rfl⟩
    · obtain ⟨hj, -⟩ := List.getElem?_eq_some_iff.mp hq
      rw [h.applied j q hq, filter_sign_ne fun hc => hij ((cid_inj hi hj h.few).mp hc),
        List.append_nil]
    · rw [h.applied i r hr, ha, filter_sign_self]
      rfl
  · rw [hlen]
    rcases List.mem_append.mp hop with hop | hop
    · exact h.signed op hop
    · exact ⟨i, hi, cid_of_mem_sign hop⟩

theorem update (h : Books a) : Books a.update := by
  refine ⟨by simpa [Session.update] using h.few, fun i r hr => ?_, nofun⟩
  obtain ⟨q, -, rfl⟩ := Session.update_cases hr
  rfl

theorem step (h : Books a) {act : Action T} (hl : Legal a.toSystem act) {b : Session T σ}
    (hs : a.step act = .ok b) : Books b := by
  rcases Session.step_cases hs with ⟨rfl, rfl⟩ | ⟨i, pack, r, rfl, hr, ha, rfl⟩ | ⟨rfl, rfl⟩
  · exact h.connect (by simpa [Legal, Session.toSystem] using hl)
  · exact h.makeLocalOps hr ha pack
  · exact h.update

/-- **The books of a session are in order in every run.** -/
theorem of_run {guard : Session T σ → Action T → Prop}
    (hg : ∀ a act, guard a act → Legal a.toSystem act) {d : List σ} {acts : List (Action T)}
    (h : Run Session.step guard (Session.start d) acts a) : Books a :=
  h.induct (start d) fun _ _ _ hb hga hs => hb.step (hg _ _ hga) hs

end Books

/-! ### The books of the system -/

variable [Slot T σ]

theorem Books.system {a : Session T σ} (h : Books a) : Bookkeeping a.toSystem := by
  have hlt : ∀ {i : ℕ} {r : Replica T σ}, a.replicas[i]? = some r → i < a.replicas.length :=
    fun hr => (List.getElem?_eq_some_iff.mp hr).1
  refine ⟨fun c hc => ?_, fun c hc => ?_, ?_, fun c hc => ?_, fun act hl => ?_, fun c hc => ?_,
    fun op hop => ?_, fun i j ci cj hi hj op hop => ?_, fun op hop => ?_⟩
  · obtain ⟨i, r, -, rfl⟩ := Session.mem_clients.mp hc
    rfl
  · obtain ⟨i, r, hr, rfl⟩ := Session.mem_clients.mp hc
    exact cid_ne_zero (hlt hr) h.few
  · refine List.pairwise_iff_getElem.mpr fun i j hi hj hij => ?_
    simp only [Session.toSystem, List.length_map, List.length_mapIdx] at hi hj
    simp only [Session.toSystem, List.getElem_map, List.getElem_mapIdx, Replica.client]
    exact fun hc => absurd ((cid_inj hi hj h.few).mp hc) (by omega)
  · obtain ⟨i, r, -, rfl⟩ := Session.mem_clients.mp hc
    rfl
  · rw [Session.step_toSystem]
    cases act with
    | connect => exact ⟨_, rfl⟩
    | update => exact ⟨_, rfl⟩
    | makeLocalOps i pack =>
      obtain ⟨c, hc, ha⟩ := hl
      rw [Session.getElem?_clients, Option.map_eq_some_iff] at hc
      obtain ⟨r, hr, rfl⟩ := hc
      have ha' : r.applied = [] := ha
      refine ⟨(a.makeLocalOps i r pack).toSystem, ?_⟩
      simp [Session.step, hr, ha', Except.map]
  · obtain ⟨i, r, hr, rfl⟩ := Session.mem_clients.mp hc
    exact h.applied i r hr
  · obtain ⟨i, hi, hc⟩ := h.signed op hop
    exact ⟨_, Session.mem_clients.mpr ⟨i, _, List.getElem?_eq_getElem hi, rfl⟩, hc.symm⟩
  · rw [Session.getElem?_clients, Option.map_eq_some_iff] at hi hj
    obtain ⟨ri, hri, rfl⟩ := hi
    obtain ⟨rj, hrj, rfl⟩ := hj
    have hmem : op ∈ a.accum.filter (·.cid = Replica.cid j) := by
      rw [h.applied j rj hrj]; exact hop
    have hc : op.cid = Replica.cid j := by simpa using (List.mem_filter.mp hmem).2
    rw [hc]
    exact cid_inj (hlt hri) (hlt hrj) h.few
  · obtain ⟨i, hi, hc⟩ := h.signed op hop
    rw [hc]
    exact (cid_ne_zero hi h.few).symm

/-- The operations a replica keeps have been applied to its document since the last update. -/
theorem already_applied {guard : Session T σ → Action T → Prop} {d : List σ}
    {acts : List (Action T)} {b : Session T σ}
    (h : Run Session.step guard (Session.start d) acts b) {i : ℕ} {r : Replica T σ}
    (hr : b.replicas[i]? = some r) :
    ∃ acts₁ acts₂ a₁ r₁, acts = acts₁ ++ acts₂ ∧ Action.update ∉ acts₂ ∧
      Run Session.step guard (Session.start d) acts₁ a₁ ∧ a₁.replicas[i]? = some r₁ ∧
      r₁.applied = [] ∧ r.doc = State.applyPack r₁.doc r.applied := by
  induction h generalizing r with
  | nil => cases hr
  | @snoc as t u act ht hg hs ih =>
    -- the operations made before the last step, or by it
    have hold : r.applied = [] → ∃ acts₁ acts₂ a₁ r₁, as ++ [act] = acts₁ ++ acts₂ ∧
        Action.update ∉ acts₂ ∧ Run Session.step guard (Session.start d) acts₁ a₁ ∧
        a₁.replicas[i]? = some r₁ ∧ r₁.applied = [] ∧ r.doc = State.applyPack r₁.doc r.applied :=
      fun ha => ⟨as ++ [act], [], u, r, by simp, by simp, .snoc ht hg hs, hr, ha, by rw [ha]; rfl⟩
    have hnew : act ≠ .update → t.replicas[i]? = some r → ∃ acts₁ acts₂ a₁ r₁,
        as ++ [act] = acts₁ ++ acts₂ ∧ Action.update ∉ acts₂ ∧
        Run Session.step guard (Session.start d) acts₁ a₁ ∧
        a₁.replicas[i]? = some r₁ ∧ r₁.applied = [] ∧ r.doc = State.applyPack r₁.doc r.applied := by
      intro hact hr'
      obtain ⟨acts₁, acts₂, a₁, r₁, rfl, hnot, hrest⟩ := ih hr'
      exact ⟨acts₁, acts₂ ++ [act], a₁, r₁, by simp, by simp [hnot, hact.symm], hrest⟩
    rcases Session.step_cases hs with ⟨rfl, rfl⟩ | ⟨j, pack, q, rfl, hq, ha, rfl⟩ | ⟨rfl, rfl⟩
    · rcases Session.connect_cases hr with hr | ⟨-, rfl⟩
      · exact hnew (by simp) hr
      · exact hold rfl
    · rcases Session.makeLocalOps_cases hq hr with ⟨-, hr⟩ | ⟨rfl, rfl⟩
      · exact hnew (by simp) hr
      · exact ⟨as, [_], t, q, rfl, by simp, ht, hq, ha, rfl⟩
    · obtain ⟨q, -, rfl⟩ := Session.update_cases hr
      exact hold rfl

/-- **The books are in order in every run**: and what a client skips at an update is what it has
applied to its document since the last one. -/
theorem bookkeeping {d : List σ} {s₀ s : System T σ} {acts : List (Action T)}
    (h₀ : start d = .ok s₀) (h : Run step Legal s₀ acts s) :
    Bookkeeping s ∧ ∀ (i : ℕ) (c : Client T), s.clients[i]? = some c →
      ∃ acts₁ acts₂ s₁ c₁, acts = acts₁ ++ acts₂ ∧ Action.update ∉ acts₂ ∧
        Run step Legal s₀ acts₁ s₁ ∧ s₁.clients[i]? = some c₁ ∧ c₁.applied = [] ∧
        s.server.doc c.state = State.applyPack (s₁.server.doc c₁.state) c.applied := by
  obtain rfl : (Session.start d).toSystem = s₀ := Except.ok.inj h₀
  obtain ⟨b, rfl, hb⟩ := Session.run_toSystem h
  refine ⟨(Books.of_run (fun _ _ hg => hg) hb).system, fun i c hc => ?_⟩
  rw [Session.getElem?_clients, Option.map_eq_some_iff] at hc
  obtain ⟨r, hr, rfl⟩ := hc
  obtain ⟨acts₁, acts₂, a₁, r₁, rfl, hnot, h₁, hr₁, ha₁, hdoc⟩ := already_applied hb hr
  refine ⟨acts₁, acts₂, a₁.toSystem, r₁.client a₁.rev i, rfl, hnot, ?_, ?_, ha₁, ?_⟩
  · exact h₁.map Session.step_toSystem fun _ _ hg => hg
  · rw [Session.getElem?_clients, hr₁]; rfl
  · rw [Session.doc_client hr, Session.doc_client hr₁]; exact hdoc

/-- Two clients, the first of which has undelivered operations. -/
theorem bookkeeping_two : ∃ s : System ℕ ℕ,
    (start [1, 2]).bind (fun s₀ => [Action.connect, .connect,
      .makeLocalOps 0 [.ofArgs .insert 0 7 0, .ofArgs .remove 1 0 0]].foldlM step s₀) = .ok s ∧
    Bookkeeping s := by
  have h : Run step Legal (Session.start [1, 2]).toSystem [Action.connect, .connect,
      .makeLocalOps 0 [.ofArgs .insert 0 7 0, .ofArgs .remove 1 0 0]] (_ : System ℕ ℕ) :=
    .cons (by unfold Legal; decide) rfl (.cons (by unfold Legal; decide) rfl
      (.cons ⟨_, rfl, rfl⟩ rfl .nil))
  exact ⟨_, h.foldlM_eq, (bookkeeping rfl h).1⟩

end OpTransform.Theory.Protocol
