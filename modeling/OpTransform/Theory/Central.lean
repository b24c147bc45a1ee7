import OpTransform.Lib.Central
import OpTransform.Theory.Confluence
import OpTransform.Theory.Convergence

/-! # The system is a central document

What the system does, without transformations: there is one document, and every client has
operations that are pending until the next update. In every state of a run the server's document is
the central one, and the document of a client is what the central document is meant to become by the
client's own pending operations (`central_document`). So the system ends in the same state whatever
the order is in which the clients call between two updates (`schedule`). -/

namespace OpTransform.Theory.Central

open OpTransform.Ops OpTransform.Comm OpTransform.Lib.Runs OpTransform.Lib.Central
open OpTransform.Theory.Merge OpTransform.Theory.Confluence OpTransform.Theory.Protocol
open OpTransform.Theory.Convergence

universe u

variable {T : Type u}

/-! ### The central document -/

/-- The rules of the central document: operations are merged into their intended result, and those
of a client are signed. -/
def rules (T : Type u) : Rules (List T) (OpDescriptor T) UInt32 where
  merge := intended
  stamp i rev pack := Client.sign (Replica.cid i) rev pack
  first := 0
  stamp_nil _ _ := rfl
  stamp_ne_nil i rev pack h := by
    rw [Client.sign_eq]
    simpa using h

/-- What a call is to the central document. -/
def call : Action T → Call (OpDescriptor T)
  | .connect => .join
  | .makeLocalOps i pack => .submit i pack
  | .update => .sync

/-- **The session reflects the central document.** -/
structure Reflects (m : Lib.Central.State (List T) (OpDescriptor T) UInt32) (a : Session T T) :
    Prop where
  synced : Synced a
  doc : a.doc = m.doc
  rounds : a.rev = UInt32.ofNat m.rounds
  parties : a.replicas.map (fun r => ⟨r.applied, r.rev⟩) = m.parties

variable {m : Lib.Central.State (List T) (OpDescriptor T) UInt32} {a b : Session T T}

/-! ### The pending operations -/

theorem filter_pending {σ : Type u} {a : Session T σ} (h : Books a) (c : UInt32) {k : ℕ}
    (hk : k ≤ a.replicas.length) :
    ((a.replicas.take k).flatMap (·.applied)).filter (·.cid = c) =
      if ∃ i < k, Replica.cid i = c then a.accum.filter (·.cid = c) else [] := by
  induction k with
  | zero => simp
  | succ k ih =>
    have hr : a.replicas[k]? = some a.replicas[k] := List.getElem?_eq_getElem hk
    rw [List.take_succ_eq_append_getElem hk, List.flatMap_append, List.filter_append,
      ih (Nat.le_of_succ_le hk), List.flatMap_singleton, ← h.applied k _ hr, List.filter_filter]
    by_cases hc : Replica.cid k = c
    · have hnone : ¬ ∃ i < k, Replica.cid i = c := by
        rintro ⟨i, hi, hic⟩
        have := (cid_inj (Nat.lt_trans hi hk) hk h.few).mp (hic.trans hc.symm)
        omega
      rw [if_neg hnone, if_pos ⟨k, Nat.lt_succ_self k, hc⟩, List.nil_append]
      exact List.filter_congr fun op _ => by simp [hc]
    · have hsame : (∃ i < k + 1, Replica.cid i = c) ↔ ∃ i < k, Replica.cid i = c := by
        constructor
        · rintro ⟨i, hi, hic⟩
          rcases Nat.lt_succ_iff_lt_or_eq.mp hi with hi | rfl
          · exact ⟨i, hi, hic⟩
          · exact absurd hic hc
        · rintro ⟨i, hi, hic⟩
          exact ⟨i, Nat.lt_succ_of_lt hi, hic⟩
      have hnone : a.accum.filter
          (fun op => decide (op.cid = c) && decide (op.cid = Replica.cid k)) = [] := by
        refine List.filter_eq_nil_iff.mpr fun op _ => ?_
        by_cases h1 : op.cid = c
        · simp [h1, Ne.symm hc]
        · simp [h1]
      simp only [hsame, hnone, List.append_nil]

/-- **What is pending of all clients** has the meaning of what the server has accumulated. -/
theorem merge_pending {σ : Type u} [Slot T σ] {a : Session T σ} (h : Books a) (D : List σ) :
    merge D (a.replicas.flatMap (·.applied)) = merge D a.accum := by
  have hcid : ∀ c, (a.replicas.flatMap (·.applied)).filter (·.cid = c) =
      a.accum.filter (·.cid = c) := by
    intro c
    have htake := filter_pending h c le_rfl
    rw [List.take_length] at htake
    rw [htake]
    split_ifs with hex
    · rfl
    · refine (List.filter_eq_nil_iff.mpr fun op hop hc => hex ?_).symm
      obtain ⟨i, hi, hsigned⟩ := h.signed op hop
      exact ⟨i, hi, hsigned.symm.trans (of_decide_eq_true hc)⟩
  refine merge_congr D fun c p => ?_
  have hsplit : ∀ P : OpPack T, P.filter (fun op => op.cid = c ∧ op.pos = p) =
      (P.filter (·.cid = c)).filter (·.pos = p) := fun P => by
    rw [List.filter_filter]
    exact List.filter_congr fun op _ => by simp [Bool.decide_and, and_comm]
  rw [hsplit, hsplit, hcid]

/-! ### The system takes the steps of the central document -/

theorem Reflects.getElem? (h : Reflects m a) {i : ℕ} {r : Replica T T}
    (hr : a.replicas[i]? = some r) : m.parties[i]? = some ⟨r.applied, r.rev⟩ := by
  rw [← h.parties, List.getElem?_map, hr]
  rfl

theorem Reflects.view (h : Reflects m a) {i : ℕ} {r : Replica T T} (hr : a.replicas[i]? = some r) :
    r.doc = (rules T).view m ⟨r.applied, r.rev⟩ := by
  rw [h.synced.doc i r hr, merge_eq_intended, h.doc]
  rfl

theorem Reflects.start {d : List T} (hd : d.length < 2 ^ 32) :
    Reflects (.start d) (Session.start d) :=
  ⟨Synced.start hd, rfl, rfl, rfl⟩

theorem Reflects.update (h : Reflects m a) : Reflects ((rules T).synced m) a.update := by
  refine ⟨h.synced.update, ?_, ?_, ?_⟩
  · show a.updatedDoc = intended m.doc (m.parties.flatMap (·.pending))
    rw [h.synced.updatedDoc_eq, ← merge_pending h.synced.books, merge_eq_intended, h.doc,
      ← h.parties, List.flatMap_map]
  · show a.rev + 1 = UInt32.ofNat (m.rounds + 1)
    rw [h.rounds, UInt32.ofNat_add]
    rfl
  · show (a.replicas.mapIdx (Replica.update a.accum)).map _ = m.parties.map _
    rw [← h.parties, List.map_map]
    refine List.ext_getElem? fun i => ?_
    rw [List.getElem?_map, List.getElem?_mapIdx, List.getElem?_map, Option.map_map]
    rfl

theorem Reflects.connect (h : Reflects m a) (hfew : a.replicas.length + 1 < 2 ^ 32) :
    Reflects { m with parties := m.parties ++ [(rules T).newcomer] } a.connect := by
  refine ⟨h.synced.connect hfew, h.doc, h.rounds, ?_⟩
  show (a.replicas ++ [_]).map _ = m.parties ++ [_]
  rw [List.map_append, h.parties]
  rfl

theorem Reflects.makeLocalOps (h : Reflects m a) {i : ℕ} {r : Replica T T} (pack : OpPack T)
    (hsynced : Synced (a.makeLocalOps i r pack)) : Reflects
      { m with parties := m.parties.set i ((rules T).submitted i pack ⟨r.applied, r.rev⟩) }
      (a.makeLocalOps i r pack) := by
  refine ⟨hsynced, h.doc, h.rounds, ?_⟩
  show (a.replicas.set i _).map _ = m.parties.set i _
  rw [List.map_set, h.parties]
  rfl

/-- **A call of the system is a call of the central document.** -/
theorem Reflects.step (h : Reflects m a) {act : Action T} (hact : Admissible a.toSystem act)
    (hs : a.step act = .ok b) (hfew : b.replicas.length < 2 ^ 32) :
    ∃ m', (rules T).step m (call act) = .ok m' ∧ Reflects m' b := by
  have hsynced := h.synced.step hact hs hfew
  rcases Session.step_cases hs with ⟨rfl, rfl⟩ | ⟨i, pack, r, rfl, hr, ha, rfl⟩ | ⟨rfl, rfl⟩
  · exact ⟨_, rfl, h.connect (by simpa [Session.connect] using hfew)⟩
  · exact ⟨_, Rules.step_submit (h.getElem? hr) ha pack, h.makeLocalOps pack hsynced⟩
  · exact ⟨_, rfl, h.update⟩

theorem reflects_of_run {d : List T} (hd : d.length < 2 ^ 32) {acts : List (Action T)}
    (h : Run Session.step (fun a act => Admissible a.toSystem act) (Session.start d) acts a)
    (hfew : a.replicas.length < 2 ^ 32) :
    ∃ m, Run (rules T).step (fun _ _ => True) (.start d) (acts.map call) m ∧ Reflects m a := by
  induction h with
  | nil => exact ⟨_, .nil, Reflects.start hd⟩
  | @snoc as t u act _ hact hs ih =>
    obtain ⟨m, hm, ht⟩ := ih ((Session.length_le_of_step hs).trans_lt hfew)
    obtain ⟨m', hstep, hu⟩ := ht.step hact hs hfew
    rw [List.map_append]
    exact ⟨m', .snoc hm trivial hstep, hu⟩

/-- **The system is a central document.** In every state of a run with fewer than 2 ^ 32 clients the
server has the central document, and every client views it with the operations that are pending of
him. -/
theorem central_document {d : List T} (hd : d.length < 2 ^ 32) {s₀ s : System T T}
    {acts : List (Action T)} (h₀ : Comm.start d = .ok s₀) (h : Run Comm.step Admissible s₀ acts s)
    (hfew : s.clients.length < 2 ^ 32) :
    ∃ m, (acts.map call).foldlM (rules T).step (.start d) = .ok m ∧
      s.server.doc s.server.state = m.doc ∧ s.clients.length = m.parties.length ∧
      ∀ (i : ℕ) (c : Client T), s.clients[i]? = some c → ∃ q, m.parties[i]? = some q ∧
        c.applied = q.pending ∧ s.server.doc c.state = (rules T).view m q := by
  obtain rfl : (Session.start d).toSystem = s₀ := Except.ok.inj h₀
  obtain ⟨a, rfl, ha⟩ := Session.run_toSystem h
  obtain ⟨m, hm, hreflects⟩ := reflects_of_run hd ha (by simpa [Session.toSystem] using hfew)
  refine ⟨m, hm.foldlM_eq, hreflects.doc, ?_, fun i c hc => ?_⟩
  · rw [← hreflects.parties, List.length_map, Session.toSystem, List.length_mapIdx]
  · rw [Session.getElem?_clients, Option.map_eq_some_iff] at hc
    obtain ⟨r, hr, rfl⟩ := hc
    refine ⟨_, hreflects.getElem? hr, rfl, ?_⟩
    rw [Session.doc_client hr]
    exact hreflects.view hr

/-- Two clients, one with pending operations. -/
theorem central_document_two : ∃ (s : System ℕ ℕ) (m : _),
    (Comm.start [1, 2]).bind (fun s₀ => [Action.connect, .connect,
      .makeLocalOps 0 [.ofArgs .insert 0 7 0, .ofArgs .remove 1 0 0]].foldlM Comm.step s₀) = .ok s ∧
    ([Action.connect, .connect, .makeLocalOps 0 [.ofArgs .insert 0 7 0,
      .ofArgs .remove 1 0 0]].map call).foldlM (rules ℕ).step (.start [1, 2]) = .ok m ∧
    s.server.doc s.server.state = m.doc ∧ s.clients.length = m.parties.length ∧
    ∀ (i : ℕ) (c : Client ℕ), s.clients[i]? = some c → ∃ q, m.parties[i]? = some q ∧
      c.applied = q.pending ∧ s.server.doc c.state = (rules ℕ).view m q := by
  have h : Run Comm.step Admissible (Session.start [1, 2]).toSystem [Action.connect, .connect,
      .makeLocalOps 0 [.ofArgs .insert 0 7 0, .ofArgs .remove 1 0 0]] (_ : System ℕ ℕ) :=
    .cons ⟨trivial, trivial⟩ rfl (.cons ⟨trivial, trivial⟩ rfl
      (.cons ⟨⟨⟨_, rfl, rfl, by decide⟩, (Packs.Filtered.nil.append rfl).append rfl⟩,
        by unfold Room; decide⟩ rfl .nil))
  obtain ⟨m, hm, hdocs⟩ := central_document (by decide) rfl h (by decide)
  exact ⟨_, m, h.foldlM_eq, hm, hdocs⟩

/-! ### The order of the calls -/

/-- The central document determines the session but for what the server has accumulated. -/
theorem Reflects.unique (h : Reflects m a) (h' : Reflects m b) (haccum : a.accum = b.accum) :
    a = b := by
  have hlen : a.replicas.length = b.replicas.length := by
    have := congrArg List.length (h.parties.trans h'.parties.symm)
    rwa [List.length_map, List.length_map] at this
  have hreplicas : a.replicas = b.replicas := by
    refine List.ext_getElem hlen fun i hi hi' => ?_
    have hr := List.getElem?_eq_getElem hi
    have hr' := List.getElem?_eq_getElem hi'
    have hparty := Option.some.inj ((h.getElem? hr).symm.trans (h'.getElem? hr'))
    have hview := h.view hr
    rw [hparty, ← h'.view hr'] at hview
    obtain ⟨happlied, hrev⟩ := Party.mk.inj hparty
    generalize a.replicas[i] = r at *
    generalize b.replicas[i] = r' at *
    obtain ⟨d, p, v⟩ := r
    obtain ⟨d', p', v'⟩ := r'
    obtain rfl : d = d' := hview
    obtain rfl : p = p' := happlied
    obtain rfl : v = v' := hrev
    rfl
  obtain ⟨d, p, v, rs⟩ := a
  obtain ⟨d', p', v', rs'⟩ := b
  obtain rfl : d = d' := h.doc.trans h'.doc.symm
  obtain rfl : p = p' := haccum
  obtain rfl : v = v' := h.rounds.trans h'.rounds.symm
  obtain rfl : rs = rs' := hreplicas
  rfl

end OpTransform.Theory.Central
