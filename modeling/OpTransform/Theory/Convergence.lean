import OpTransform.Theory.Merge
import OpTransform.Theory.Protocol

/-! # Convergence

Between two updates the server keeps its document `D`, and every replica has merged its own
operations into `D` (`Synced`). At the update everybody merges the rest, each in an order of its
own, and ends with the merge of all of them (`Synced.update_doc`). So after every update the
documents of all clients are the server's (`convergence`). -/

namespace OpTransform.Theory.Convergence

open OpTransform.Ops OpTransform.Comm OpTransform.Lib.Blocks OpTransform.Lib.Runs
open OpTransform.Theory.Effect OpTransform.Theory.Packs OpTransform.Theory.Merge
open OpTransform.Theory.Protocol

universe u

variable {T σ : Type u}

/-- The calls with packs as the test fixture builds them: by a client without undelivered
operations, in range for the client's document, and without duplications. -/
def Proper (s : System T σ) : Action T → Prop
  | .connect => True
  | .makeLocalOps addr pack =>
    (∃ c, s.clients[addr]? = some c ∧ c.applied = [] ∧
      ∀ op ∈ pack, InRange (s.server.doc c.state).length op) ∧ Filtered pack
  | .update => True

/-- There is room for the positions: the size of the server's document and the number of operations
since the last update stay below 2 ^ 32. -/
def Room (s : System T σ) : Action T → Prop
  | .connect => True
  | .makeLocalOps _ pack =>
    (s.server.doc s.server.state).length + s.server.accum.length + pack.length < 2 ^ 32
  | .update => True

/-- Proper calls for which there is room. -/
def Admissible (s : System T σ) (act : Action T) : Prop := Proper s act ∧ Room s act

theorem proper_makeLocalOps {a : Session T σ} {i : ℕ} {pack : OpPack T} :
    Proper a.toSystem (.makeLocalOps i pack) ↔
      (∃ r, a.replicas[i]? = some r ∧ r.applied = [] ∧ ∀ op ∈ pack, InRange r.doc.length op) ∧
        Filtered pack := by
  refine and_congr_left fun _ => ⟨?_, ?_⟩
  · rintro ⟨c, hc, ha, hrange⟩
    rw [Session.getElem?_clients, Option.map_eq_some_iff] at hc
    obtain ⟨r, hr, rfl⟩ := hc
    rw [Session.doc_client hr] at hrange
    exact ⟨r, hr, ha, hrange⟩
  · rintro ⟨r, hr, ha, hrange⟩
    refine ⟨r.client a.rev i, by rw [Session.getElem?_clients, hr]; rfl, ha, ?_⟩
    rw [Session.doc_client hr]
    exact hrange

/-! ### Signed packs -/

theorem noDoubleRemove_sign {pack : OpPack T} (h : NoDoubleRemove pack) (cid rev : UInt32) :
    NoDoubleRemove (Client.sign cid rev pack).1 := by
  rw [Client.sign_eq]
  refine List.pairwise_iff_getElem.mpr fun i j hi hj hij => ?_
  simp only [List.length_mapIdx] at hi hj
  simpa using List.pairwise_iff_getElem.mp h i j hi hj hij

theorem inRange_sign {pack : OpPack T} {n : ℕ} (h : ∀ op ∈ pack, InRange n op) (cid rev : UInt32) :
    ∀ op ∈ (Client.sign cid rev pack).1, InRange n op := by
  intro op hop
  rw [Client.sign_eq, List.mem_mapIdx] at hop
  obtain ⟨i, hi, rfl⟩ := hop
  obtain ⟨h1, h2, h3, h4⟩ := h _ (List.getElem_mem hi)
  exact ⟨h1, h2, h3, h4⟩

theorem length_sign (cid rev : UInt32) (pack : OpPack T) :
    (Client.sign cid rev pack).1.length = pack.length := by
  rw [Client.sign_eq, List.length_mapIdx]

/-! ### Merging the operations of one client first -/

/-- The operations of one client may be merged before those of the others. -/
theorem merge_own_first [Slot T σ] (D : List σ) (A : OpPack T) (c : UInt32) :
    merge D (A.filter (·.cid = c) ++ A.filter (c ≠ ·.cid)) = merge D A := by
  refine merge_congr D fun c' p => ?_
  rw [List.filter_append, List.filter_filter, List.filter_filter]
  have hnil : ∀ f : OpDescriptor T → Bool, (∀ a, f a = false) → A.filter f = [] := fun f hf =>
    List.filter_eq_nil_iff.mpr fun a _ => by simp [hf]
  by_cases hc : c' = c
  · subst hc
    rw [hnil (fun a => decide (a.cid = c' ∧ a.pos = p) && decide (c' ≠ a.cid)) fun a => by
      by_cases h : a.cid = c' <;> simp [h], List.append_nil]
    exact List.filter_congr fun a _ => by by_cases h : a.cid = c' <;> simp [h]
  · rw [hnil (fun a => decide (a.cid = c' ∧ a.pos = p) && decide (a.cid = c)) fun a => by
      by_cases h : a.cid = c' <;> simp [h, hc], List.nil_append]
    exact List.filter_congr fun a _ => by by_cases h : a.cid = c' <;> simp [h, Ne.symm hc]

/-! ### Between two updates -/

variable [Slot T σ]

/-- **Everybody has merged his own operations** into the server's document. -/
structure Synced (a : Session T σ) : Prop where
  books : Books a
  doc : ∀ (i : ℕ) (r : Replica T σ), a.replicas[i]? = some r → r.doc = merge a.doc r.applied
  once : ∀ (i : ℕ) (r : Replica T σ), a.replicas[i]? = some r → NoDoubleRemove r.applied
  inRange : ∀ op ∈ a.accum, InRange a.doc.length op
  room : a.doc.length + a.accum.length < 2 ^ 32

namespace Synced

variable {a : Session T σ}

theorem start {d : List σ} (hd : d.length < 2 ^ 32) : Synced (Session.start (T := T) d) :=
  ⟨Books.start d, nofun, nofun, nofun, by simpa [Session.start] using hd⟩

theorem connect (h : Synced a) (hfew : a.replicas.length + 1 < 2 ^ 32) : Synced a.connect := by
  refine ⟨h.books.connect hfew, fun i r hr => ?_, fun i r hr => ?_, h.inRange, h.room⟩
  · rcases Session.connect_cases hr with hr | ⟨-, rfl⟩
    · exact h.doc i r hr
    · exact (merge_nil a.doc).symm
  · rcases Session.connect_cases hr with hr | ⟨-, rfl⟩
    · exact h.once i r hr
    · exact List.Pairwise.nil

theorem doc_eq (h : Synced a) {i : ℕ} {r : Replica T σ} (hr : a.replicas[i]? = some r)
    (ha : r.applied = []) : r.doc = a.doc := by
  rw [h.doc i r hr, ha, merge_nil]

theorem covers_applied (h : Synced a) {i : ℕ} {r : Replica T σ} (hr : a.replicas[i]? = some r) :
    Covers a.doc.length r.applied r.applied :=
  Covers.refl fun p _ => noDoubleRemove_iff.mp (h.once i r hr) p

theorem inRange_others (h : Synced a) (c : UInt32) :
    ∀ op ∈ a.accum.filter (c ≠ ·.cid), InRange a.doc.length op ∧ Within a.doc.length op := by
  intro op hop
  have hrange := h.inRange op (List.mem_filter.mp hop).1
  exact ⟨hrange, hrange.within⟩

theorem room_others (h : Synced a) {i : ℕ} {r : Replica T σ} (hr : a.replicas[i]? = some r) :
    a.doc.length + r.applied.length + (a.accum.filter (Replica.cid i ≠ ·.cid)).length < 2 ^ 32 := by
  have hle : r.applied.length + (a.accum.filter (Replica.cid i ≠ ·.cid)).length ≤
      a.accum.length := by
    rw [← h.books.applied i r hr, ← List.countP_eq_length_filter, ← List.countP_eq_length_filter,
      ← countP_or fun op _ h1 h2 => h2 h1.symm]
    exact List.countP_le_length
  have hroom := h.room
  omega

variable [LawfulSlot T σ]

theorem makeLocalOps (h : Synced a) {i : ℕ} {r : Replica T σ} (hr : a.replicas[i]? = some r)
    (ha : r.applied = []) {pack : OpPack T} (hrange : ∀ op ∈ pack, InRange r.doc.length op)
    (hpack : NoDoubleRemove pack) (hroom : a.doc.length + a.accum.length + pack.length < 2 ^ 32) :
    Synced (a.makeLocalOps i r pack) := by
  have hdoc := h.doc_eq hr ha
  rw [hdoc] at hrange
  have hrange' := inRange_sign hrange (Replica.cid i) r.rev
  have hlen := length_sign (Replica.cid i) r.rev pack
  refine ⟨h.books.makeLocalOps hr ha pack, fun j q hq => ?_, fun j q hq => ?_, fun op hop => ?_, ?_⟩
  · rcases Session.makeLocalOps_cases hr hq with ⟨-, hq⟩ | ⟨-, rfl⟩
    · exact h.doc j q hq
    · show State.applyPack r.doc (Client.sign (Replica.cid i) r.rev pack).1 = _
      rw [hdoc, applyPack_eq_merge hrange' (by omega)]
      rfl
  · rcases Session.makeLocalOps_cases hr hq with ⟨-, hq⟩ | ⟨-, rfl⟩
    · exact h.once j q hq
    · exact noDoubleRemove_sign hpack _ _
  · rcases List.mem_append.mp hop with hop | hop
    · exact h.inRange op hop
    · exact hrange' op hop
  · show a.doc.length + (a.accum ++ (Client.sign (Replica.cid i) r.rev pack).1).length < 2 ^ 32
    rw [List.length_append, hlen]
    omega

/-! ### The update -/

theorem updatedDoc_eq (h : Synced a) : a.updatedDoc = merge a.doc a.accum := by
  rw [Session.updatedDoc, State.applyFromOthers_eq, h.books.filter_zero, ← State.applyPack_eq]
  exact applyPack_eq_merge h.inRange h.room

/-- **Every replica merges all operations**, its own ones first. -/
theorem update_doc (h : Synced a) {i : ℕ} {r : Replica T σ} (hr : a.replicas[i]? = some r) :
    (r.update a.accum i).doc = merge a.doc a.accum := by
  have hmerge : _ = merge a.doc _ := (applyAll_merge (h.covers_applied hr)
    (a.accum.filter (Replica.cid i ≠ ·.cid)) (h.inRange_others _) (h.room_others hr)).1
  rw [Replica.update, State.applyFromOthers_eq, h.doc i r hr]
  show (State.applyAll _ _ _).1 = _
  rw [hmerge, ← h.books.applied i r hr, merge_own_first]

theorem update (h : Synced a) : Synced a.update := by
  refine ⟨h.books.update, fun i q hq => ?_, fun i q hq => ?_, nofun, ?_⟩
  · obtain ⟨r, hr, rfl⟩ := Session.update_cases hq
    show _ = merge a.updatedDoc []
    rw [merge_nil, h.update_doc hr, h.updatedDoc_eq]
  · obtain ⟨r, -, rfl⟩ := Session.update_cases hq
    exact List.Pairwise.nil
  · show a.updatedDoc.length + 0 < 2 ^ 32
    rw [h.updatedDoc_eq]
    exact (length_merge_le a.doc a.accum).trans_lt h.room

theorem step (h : Synced a) {act : Action T} (hact : Admissible a.toSystem act) {b : Session T σ}
    (hs : a.step act = .ok b) (hfew : b.replicas.length < 2 ^ 32) : Synced b := by
  rcases Session.step_cases hs with ⟨rfl, rfl⟩ | ⟨i, pack, r, rfl, hr, ha, rfl⟩ | ⟨rfl, rfl⟩
  · exact h.connect (by simpa [Session.connect] using hfew)
  · obtain ⟨⟨q, hq, -, hrange⟩, hpack⟩ := proper_makeLocalOps.mp hact.1
    obtain rfl := Option.some.inj (hr.symm.trans hq)
    exact h.makeLocalOps hr ha hrange hpack.noDoubleRemove hact.2
  · exact h.update

/-- **Everybody is in step in every run** with fewer than 2 ^ 32 clients. -/
theorem of_run {d : List σ} (hd : d.length < 2 ^ 32) {acts : List (Action T)}
    (h : Run Session.step (fun a act => Admissible a.toSystem act) (Session.start d) acts a)
    (hfew : a.replicas.length < 2 ^ 32) : Synced a := by
  let I : Session T σ → Prop := fun a => a.replicas.length < 2 ^ 32 → Synced a
  have hall : I a := h.induct (fun _ => start hd) fun _ _ _ ht hact hs hu =>
    (ht ((Session.length_le_of_step hs).trans_lt hu)).step hact hs hu
  exact hall hfew

end Synced

/-! ### Convergence -/

/-- **After every update the documents of all clients are the server's**, as long as fewer than
2 ^ 32 clients have connected. -/
theorem convergence {d : List T} (hd : d.length < 2 ^ 32) {s₀ s : System T T}
    {acts : List (Action T)} (h₀ : start d = .ok s₀) (h : Run step Admissible s₀ acts s)
    (hfew : s.clients.length < 2 ^ 32) :
    ∃ s', update s = .ok s' ∧
      ∀ c ∈ s'.clients, s'.server.doc c.state = s'.server.doc s'.server.state := by
  obtain rfl : (Session.start d).toSystem = s₀ := Except.ok.inj h₀
  obtain ⟨a, rfl, ha⟩ := Session.run_toSystem h
  have hsync : Synced a := Synced.of_run hd ha (by simpa [Session.toSystem] using hfew)
  refine ⟨a.update.toSystem, Session.update_toSystem a, fun c hc => ?_⟩
  obtain ⟨i, q, hq, rfl⟩ := Session.mem_clients.mp hc
  obtain ⟨r, hr, rfl⟩ := Session.update_cases hq
  rw [Session.doc_client hq, Session.doc_server, hsync.update_doc hr]
  exact hsync.updatedDoc_eq.symm

/-- A run with a client that inserts and removes, one that joins meanwhile, and one that removes the
same element. -/
theorem convergence_three : ∃ s s' : System ℕ ℕ,
    (start [1, 2]).bind (fun s₀ => [Action.connect, .connect,
      .makeLocalOps 0 [.ofArgs .insert 0 7 0, .ofArgs .remove 1 0 0], .connect,
      .makeLocalOps 1 [.ofArgs .remove 1 0 0]].foldlM step s₀) = .ok s ∧ update s = .ok s' ∧
    ∀ c ∈ s'.clients, s'.server.doc c.state = s'.server.doc s'.server.state := by
  have h : Run step Admissible (Session.start [1, 2]).toSystem [Action.connect, .connect,
      .makeLocalOps 0 [.ofArgs .insert 0 7 0, .ofArgs .remove 1 0 0], .connect,
      .makeLocalOps 1 [.ofArgs .remove 1 0 0]] (_ : System ℕ ℕ) :=
    .cons ⟨trivial, trivial⟩ rfl (.cons ⟨trivial, trivial⟩ rfl
      (.cons ⟨⟨⟨_, rfl, rfl, by decide⟩, (Filtered.nil.append rfl).append rfl⟩,
        by unfold Room; decide⟩ rfl (.cons ⟨trivial, trivial⟩ rfl
          (.cons ⟨⟨⟨_, rfl, rfl, by decide⟩, Filtered.nil.append rfl⟩, by unfold Room; decide⟩ rfl
            .nil))))
  obtain ⟨s', hs', hdocs⟩ := convergence (by decide) rfl h (by decide)
  exact ⟨_, s', h.foldlM_eq, hs', hdocs⟩

/-! ### The client of cid 0

The cid of the 2 ^ 32-th client wraps to 0, and the server skips its operations as if they were its
own. -/

/-- After `n` clients have connected. -/
def crowd (d : List σ) (n : ℕ) : Session T σ where
  doc := d
  replicas := List.replicate n { doc := d }

theorem run_crowd {guard : System T σ → Action T → Prop} (hg : ∀ s, guard s .connect) (d : List σ)
    (n : ℕ) : Run step guard (Session.start d).toSystem (List.replicate n .connect)
      (crowd d n).toSystem := by
  induction n with
  | zero => exact .nil
  | succ n ih =>
    rw [List.replicate_succ']
    refine .snoc ih (hg _) ?_
    rw [Session.step_toSystem]
    show Except.ok ((crowd d n).connect).toSystem = _
    simp [Session.connect, crowd, List.replicate_succ']

/-- After the operations of the client of cid 0, and an update. -/
def lost (d : List σ) (n : ℕ) (pack : OpPack T) : Session T σ :=
  ((crowd d (n + 1)).makeLocalOps n { doc := d } pack).update

theorem run_lost {d : List σ} {n : ℕ} {pack : OpPack T} (hrange : ∀ op ∈ pack, InRange d.length op)
    (hpack : Filtered pack) (hroom : d.length + pack.length < 2 ^ 32) :
    Run step Admissible (Session.start d).toSystem
      (List.replicate (n + 1) .connect ++ [.makeLocalOps n pack, .update])
      (lost d n pack).toSystem := by
  have hr : (crowd d (n + 1) : Session T σ).replicas[n]? = some { doc := d } := by simp [crowd]
  refine (run_crowd (fun _ => ⟨trivial, trivial⟩) d (n + 1)).append (.cons
    ⟨proper_makeLocalOps.mpr ⟨⟨_, hr, rfl, hrange⟩, hpack⟩, ?_⟩ ?_
    (.cons ⟨trivial, trivial⟩ (Session.update_toSystem _) .nil))
  · show d.length + 0 + pack.length < 2 ^ 32
    omega
  · rw [Session.step_toSystem]
    simp [Session.step, hr, Except.map]

theorem doc_lost {n : ℕ} (hn : Replica.cid n = 0) (d : List σ) (pack : OpPack T) :
    (lost d n pack).doc = d := by
  have hnone : (Client.sign (Replica.cid n) 0 pack).1.filter (0 ≠ ·.cid) = [] :=
    List.filter_eq_nil_iff.mpr fun op hop => by simp [cid_of_mem_sign hop, hn]
  show (State.applyFromOthers d 0 [] (Client.sign (Replica.cid n) 0 pack).1).1 = d
  rw [State.applyFromOthers_eq, hnone]
  rfl

theorem replica_doc_lost {n i : ℕ} (hi : i ≤ n) (hn : Replica.cid n = 0)
    (hne : i ≠ n → Replica.cid i ≠ 0) (d : List σ) (pack : OpPack T) :
    ∃ r, (lost d n pack).replicas[i]? = some r ∧ r.applied = [] ∧
      r.doc = State.applyPack d (Client.sign 0 0 pack).1 := by
  have hcid : ∀ op ∈ (Client.sign (Replica.cid n) 0 pack).1, op.cid = 0 := fun op hop => by
    rw [cid_of_mem_sign hop, hn]
  have hsign : Client.sign 0 0 pack = Client.sign (Replica.cid n) 0 pack := by rw [hn]
  rw [hsign]
  by_cases hin : i = n
  · -- the client itself skips them
    subst hin
    have hr : ((crowd d (i + 1)).makeLocalOps i { doc := d } pack).replicas[i]? =
        some (({ doc := d } : Replica T σ).makeLocalOps i pack) := by
      simp [Session.makeLocalOps, crowd]
    have hnone : (Client.sign (Replica.cid i) 0 pack).1.filter (Replica.cid i ≠ ·.cid) = [] :=
      List.filter_eq_nil_iff.mpr fun op hop => by simp [hcid op hop, hn]
    refine ⟨_, by rw [lost, Session.update, List.getElem?_mapIdx, hr]; rfl, rfl, ?_⟩
    show (State.applyFromOthers _ (Replica.cid i) _ (Client.sign (Replica.cid i) 0 pack).1).1 = _
    rw [State.applyFromOthers_eq, hnone]
    rfl
  · have hr : ((crowd d (n + 1)).makeLocalOps n { doc := d } pack).replicas[i]? =
        some ({ doc := d } : Replica T σ) := by
      rw [Session.makeLocalOps, List.getElem?_set_ne (Ne.symm hin)]
      simp [crowd, Nat.lt_succ_of_le hi]
    have hall : (Client.sign (Replica.cid n) 0 pack).1.filter (Replica.cid i ≠ ·.cid) =
        (Client.sign (Replica.cid n) 0 pack).1 :=
      List.filter_eq_self.mpr fun op hop => by simpa [hcid op hop] using hne hin
    refine ⟨_, by rw [lost, Session.update, List.getElem?_mapIdx, hr]; rfl, rfl, ?_⟩
    show (State.applyFromOthers d (Replica.cid i) [] (Client.sign (Replica.cid n) 0 pack).1).1 = _
    rw [State.applyFromOthers_eq, hall]
    rfl

theorem run_lost_makeLocalOps {n : ℕ} (hn : Replica.cid n = 0) (d : List σ) (pack pack' : OpPack T)
    (hrange : ∀ op ∈ pack, InRange d.length op) (hpack : Filtered pack)
    (hroom : d.length + pack.length < 2 ^ 32)
    (hrange' : ∀ op ∈ pack',
      InRange (State.applyPack d (Client.sign 0 0 pack).1).length op) (hpack' : Filtered pack')
    (hroom' : d.length + pack'.length < 2 ^ 32) :
    ∃ r, (lost d n pack).replicas[0]? = some r ∧ r.applied = [] ∧
      r.doc = State.applyPack d (Client.sign 0 0 pack).1 ∧
      Run step Admissible (Session.start d).toSystem
        (List.replicate (n + 1) .connect ++ [.makeLocalOps n pack, .update] ++
          [.makeLocalOps 0 pack'])
        ((lost d n pack).makeLocalOps 0 r pack').toSystem := by
  obtain ⟨r, hr, ha, hdoc⟩ := replica_doc_lost n.zero_le hn (fun _ => by decide) d pack
  rw [← hdoc] at hrange'
  refine ⟨r, hr, ha, hdoc, .snoc (run_lost hrange hpack hroom)
    ⟨proper_makeLocalOps.mpr ⟨⟨r, hr, ha, hrange'⟩, hpack'⟩, ?_⟩ ?_⟩
  · show (lost d n pack).doc.length + 0 + pack'.length < 2 ^ 32
    rw [doc_lost hn]
    omega
  · rw [Session.step_toSystem]
    simp [Session.step, hr, ha, Except.map]

/-- The last of 2 ^ 32 clients inserts an element that the server never gets. -/
theorem not_convergence :
    ¬ ∀ (d : List ℕ) (acts : List (Action ℕ)) (s₀ s s' : System ℕ ℕ), d.length < 2 ^ 32 →
      start d = .ok s₀ → Run step Admissible s₀ acts s → update s = .ok s' →
        ∀ c ∈ s'.clients, s'.server.doc c.state = s'.server.doc s'.server.state := by
  intro h
  obtain ⟨n, hn⟩ : ∃ n, Replica.cid n = 0 := ⟨2 ^ 32 - 1, by decide⟩
  have hrun : Run step Admissible (Session.start []).toSystem _
      (lost ([] : List ℕ) n [OpDescriptor.ofArgs .insert 0 7 0]).toSystem :=
    run_lost (by decide) (Filtered.nil.append rfl) (by decide)
  rw [← List.singleton_append, ← List.append_assoc] at hrun
  obtain ⟨t, ht, -, hup⟩ := hrun.snoc_inv
  obtain ⟨r, hr, -, hdoc⟩ := replica_doc_lost le_rfl hn (by simp) ([] : List ℕ)
    [.ofArgs .insert 0 7 0]
  have heq := h [] _ _ t _ (by decide) rfl ht hup _ (Session.mem_clients.mpr ⟨n, r, hr, rfl⟩)
  rw [Session.doc_client hr, Session.doc_server, hdoc, doc_lost hn] at heq
  exact absurd heq (by decide)

end OpTransform.Theory.Convergence
