import OpTransform.Comm.Driver
import OpTransform.Theory.Convergence
import OpTransform.Theory.Reset

/-! # The programs stay consistent

A program that draws proper operations never finds a difference between the documents
(`rounds_consistent`): before every round nobody has undelivered operations (`Settled`), and in the
middle of it those whose turn is still to come have none (`Midway`).

The test fixture is such a program, whatever the generator draws (`fixture_consistent`). The
executable is one if clients make one operation at a time (`orderly_executable`). With more it may
lose consistency (`executable_inconsistent`). -/

namespace OpTransform.Theory.Rounds

open OpTransform.Ops OpTransform.Comm OpTransform.Lib.Runs
open OpTransform.Theory.Packs OpTransform.Theory.Merge OpTransform.Theory.Convergence
open OpTransform.Theory.Reset

universe u

variable {T G : Type u}

/-- **An orderly driver** makes at most `K` operations for a client, in range for its document, and
removes no element twice. -/
structure Orderly (w : Driver T G) (K : ℕ) : Prop where
  length : ∀ r size cid g, (w.createLocalOps r size cid g).1.length ≤ K
  inRange : ∀ r size cid g, ∀ op ∈ (w.createLocalOps r size cid g).1, InRange size.toNat op
  once : ∀ r size cid g, NoDoubleRemove (w.createLocalOps r size cid g).1

/-- Before a round: at most `N` clients, and nobody has undelivered operations. -/
structure Idle (N : ℕ) (a : Session T T) : Prop where
  applied : ∀ (i : ℕ) (q : Replica T T), a.replicas[i]? = some q → q.applied = []
  accum : a.accum = []
  clients : a.replicas.length ≤ N

/-- Before a round of an orderly driver: at most `L` elements, and everybody is in step. -/
structure Settled (N L : ℕ) (a : Session T T) : Prop extends Idle N a where
  synced : Synced a
  size : a.doc.length ≤ L

/-- In a round with `M` clients, when the first `k` of them have had their turn. -/
structure Waiting (M k : ℕ) (a : Session T T) : Prop where
  applied : ∀ (i : ℕ) (q : Replica T T), k ≤ i → a.replicas[i]? = some q → q.applied = []
  clients : a.replicas.length = M

/-- In a round of an orderly driver. -/
structure Midway (K L M k : ℕ) (a : Session T T) : Prop extends Waiting M k a where
  synced : Synced a
  accum : a.accum.length ≤ k * K
  size : a.doc.length ≤ L

variable {w : Driver T G} {K L M N k : ℕ} {a : Session T T}

/-! ### A round -/

/-- What is drawn for the replica `q` at place `i`. -/
def drawn (w : Driver T G) (r i : ℕ) (q : Replica T T) (g : G) : OpPack T × G :=
  w.createLocalOps r (State.size q.doc) (Replica.cid i) g

theorem turn_toSystem (w : Driver T G) (r : ℕ) (g : G) {i : ℕ} {q : Replica T T}
    (hq : a.replicas[i]? = some q) (ha : q.applied = []) : w.turn r (a.toSystem, g) i =
      .ok ((a.makeLocalOps i q (drawn w r i q g).1).toSystem, (drawn w r i q g).2) := by
  have hstep : step a.toSystem (.makeLocalOps i (drawn w r i q g).1) =
      .ok (a.makeLocalOps i q (drawn w r i q g).1).toSystem := by
    rw [Session.step_toSystem]
    simp [Session.step, hq, ha, Except.map]
  have hconnected : (w.skips && !(q.client a.rev i).connected) = false := by
    simp [Client.connected, Replica.client]
  simp only [Driver.turn, Session.getElem?_clients, hq, Option.map_some, hconnected,
    Session.doc_client hq]
  show (step a.toSystem (.makeLocalOps i (drawn w r i q g).1)).bind _ = _
  rw [hstep]
  rfl

/-- The session when another client has connected, if there may be one. -/
def afterJoin (w : Driver T G) (N r : ℕ) (a : Session T T) : Session T T :=
  if w.joins r && a.replicas.length < N then a.connect else a

theorem join_toSystem (w : Driver T G) (N r : ℕ) (a : Session T T) :
    w.join N r a.toSystem = .ok (afterJoin w N r a).toSystem := by
  have hlen : a.toSystem.clients.length = a.replicas.length := by
    rw [Session.toSystem, List.length_mapIdx]
  rw [Driver.join, afterJoin, hlen]
  split_ifs
  · exact Session.connect_toSystem a
  · rfl

/-- **The round rule.** What holds when a client has joined, and after `k + 1` turns if it holds
after `k`, holds before the update; and the round does not fail, if everybody's turn finds him
without undelivered operations. -/
theorem exists_round {r : ℕ} {g : G} {Q : ℕ → Session T T → G → Prop}
    (h0 : Q 0 (afterJoin w N r a) g)
    (hturn : ∀ k b g, k < (afterJoin w N r a).replicas.length → Q k b g →
      ∃ q, b.replicas[k]? = some q ∧ q.applied = [] ∧
        Q (k + 1) (b.makeLocalOps k q (drawn w r k q g).1) (drawn w r k q g).2) :
    ∃ b g', Q (afterJoin w N r a).replicas.length b g' ∧
      w.round N (a.toSystem, g) r = .ok (b.update.toSystem, g') := by
  set M := (afterJoin w N r a).replicas.length with hM
  let P : ℕ → System T T × G → Prop := fun k s => ∃ b g', s = (b.toSystem, g') ∧ Q k b g'
  have hstart : P 0 ((afterJoin w N r a).toSystem, g) := ⟨_, g, rfl, h0⟩
  obtain ⟨_, hturns, b, g', rfl, hQ⟩ : ∃ t, (List.range M).foldlM (w.turn r)
      ((afterJoin w N r a).toSystem, g) = .ok t ∧ P (List.range M).length t := by
    refine foldlM_induct hstart fun k hk s hs => ?_
    obtain ⟨b, g', rfl, hQ⟩ := hs
    rw [List.length_range] at hk
    obtain ⟨q, hq, ha, hQ'⟩ := hturn k b g' hk hQ
    rw [List.getElem_range]
    exact ⟨_, turn_toSystem w r g' hq ha, _, _, rfl, hQ'⟩
  rw [List.length_range] at hQ
  refine ⟨b, g', hQ, ?_⟩
  have hlen : (afterJoin w N r a).toSystem.clients.length = M := by
    rw [Session.toSystem, List.length_mapIdx]
  show (w.join N r a.toSystem).bind _ = _
  rw [join_toSystem]
  show ((List.range (afterJoin w N r a).toSystem.clients.length).foldlM (w.turn r)
    ((afterJoin w N r a).toSystem, g)).bind _ = _
  rw [hlen, hturns]
  show (update b.toSystem).bind _ = _
  rw [Session.update_toSystem]
  rfl

/-! ### Any driver -/

theorem Idle.connect (h : Idle N a) (hlt : a.replicas.length < N) : Idle N a.connect := by
  refine ⟨fun i q hq => ?_, h.accum, ?_⟩
  · rcases Session.connect_cases hq with hq | ⟨-, rfl⟩
    · exact h.applied i q hq
    · rfl
  · rw [Session.connect, List.length_append]
    exact hlt

theorem Idle.joined (h : Idle N a) (w : Driver T G) (r : ℕ) : Idle N (afterJoin w N r a) := by
  unfold afterJoin
  split_ifs with hj
  · rw [Bool.and_eq_true, decide_eq_true_eq] at hj
    exact h.connect hj.2
  · exact h

theorem Idle.waiting (h : Idle N a) : Waiting a.replicas.length 0 a :=
  ⟨fun i q _ hq => h.applied i q hq, rfl⟩

theorem Waiting.exists_replica (h : Waiting M k a) (hk : k < M) :
    ∃ q, a.replicas[k]? = some q ∧ q.applied = [] := by
  have hq : a.replicas[k]? = some _ := List.getElem?_eq_getElem (by rw [h.clients]; exact hk)
  exact ⟨_, hq, h.applied k _ le_rfl hq⟩

theorem Waiting.makeLocalOps (h : Waiting M k a) {q : Replica T T} (hq : a.replicas[k]? = some q)
    (pack : OpPack T) : Waiting M (k + 1) (a.makeLocalOps k q pack) := by
  refine ⟨fun i p hi hp => ?_, ?_⟩
  · rcases Session.makeLocalOps_cases hq hp with ⟨-, hp⟩ | ⟨rfl, -⟩
    · exact h.applied i p (by omega) hp
    · omega
  · rw [← h.clients]
    exact List.length_set

theorem Waiting.update (h : Waiting M k a) (hM : M ≤ N) : Idle N a.update := by
  refine ⟨fun i q hq => ?_, rfl, ?_⟩
  · obtain ⟨p, -, rfl⟩ := Session.update_cases hq
    rfl
  · rw [Session.update, List.length_mapIdx, h.clients]
    exact hM

theorem Idle.round (h : Idle N a) (w : Driver T G) (r : ℕ) (g : G) :
    ∃ b g', w.round N (a.toSystem, g) r = .ok (b.toSystem, g') ∧ Idle N b := by
  let Q : ℕ → Session T T → G → Prop := fun k b _ => Waiting (afterJoin w N r a).replicas.length k b
  have h0 : Q 0 (afterJoin w N r a) g := (h.joined w r).waiting
  obtain ⟨b, g', hQ, hround⟩ := exists_round h0 fun k b g hk hQ => by
    obtain ⟨q, hq, ha⟩ := Waiting.exists_replica hQ hk
    exact ⟨q, hq, ha, Waiting.makeLocalOps hQ hq _⟩
  exact ⟨b.update, g', hround, Waiting.update hQ (h.joined w r).clients⟩

theorem Idle.start (d : List T) (N : ℕ) : Idle N (Session.start d) :=
  ⟨nofun, rfl, Nat.zero_le N⟩

theorem Idle.reserved (h : Idle N a) : a.toSystem.clients.length ≤ N ∧
    ∃ ds, a.toSystem.server.datas = some ds ∧ ds.length ≤ N + 1 ∧
      ∀ c ∈ a.toSystem.clients, ∃ i < ds.length, c.state = some i := by
  have hlen : (a.doc :: a.replicas.map (·.doc)).length = a.replicas.length + 1 := by simp
  have hN := h.clients
  refine ⟨?_, _, rfl, by omega, fun c hc => ?_⟩
  · rw [Session.toSystem, List.length_mapIdx]
    exact hN
  · obtain ⟨i, q, hq, rfl⟩ := Session.mem_clients.mp hc
    obtain ⟨hi, -⟩ := List.getElem?_eq_some_iff.mp hq
    exact ⟨i + 1, by omega, rfl⟩

theorem Midway.makeLocalOps (h : Midway K L M k a) (hw : Orderly w K) (hk : k < M)
    (hroom : L + M * K < 2 ^ 32) {q : Replica T T} (hq : a.replicas[k]? = some q)
    (ha : q.applied = []) (r : ℕ) (g : G) :
    Midway K L M (k + 1) (a.makeLocalOps k q (drawn w r k q g).1) := by
  have hdoc := h.synced.doc_eq hq ha
  have hle : (k + 1) * K ≤ M * K := Nat.mul_le_mul_right K hk
  rw [Nat.succ_mul] at hle
  have hsize := h.size
  have haccum := h.accum
  have hlen := hw.length r (State.size q.doc) (Replica.cid k) g
  have hrange := hw.inRange r (State.size q.doc) (Replica.cid k) g
  rw [State.toNat_size (by rw [hdoc]; omega)] at hrange
  have hlen' : (drawn w r k q g).1.length ≤ K := hlen
  refine ⟨h.toWaiting.makeLocalOps hq _,
    h.synced.makeLocalOps hq ha hrange (hw.once _ _ _ _) (by omega), ?_, h.size⟩
  show (a.accum ++ (Client.sign (Replica.cid k) q.rev _).1).length ≤ (k + 1) * K
  rw [List.length_append, length_sign, Nat.succ_mul]
  omega

theorem Settled.connect (h : Settled N L a) (hlt : a.replicas.length < N) (hN : N < 2 ^ 32) :
    Settled N L a.connect :=
  ⟨h.toIdle.connect hlt, h.synced.connect (by omega), h.size⟩

theorem Settled.joined (h : Settled N L a) (hN : N < 2 ^ 32) (w : Driver T G) (r : ℕ) :
    Settled N L (afterJoin w N r a) := by
  unfold afterJoin
  split_ifs with hj
  · rw [Bool.and_eq_true, decide_eq_true_eq] at hj
    exact h.connect hj.2 hN
  · exact h

theorem Midway.update (h : Midway K L M M a) (hM : M ≤ N) : Settled N (L + N * K) a.update := by
  refine ⟨h.toWaiting.update hM, h.synced.update, ?_⟩
  show a.updatedDoc.length ≤ L + N * K
  rw [h.synced.updatedDoc_eq]
  have hle := length_merge_le a.doc a.accum
  have hsize := h.size
  have haccum := h.accum
  have hMN : M * K ≤ N * K := Nat.mul_le_mul_right K hM
  omega

/-- **A round** of an orderly driver succeeds, and leaves nothing undelivered. If every turn takes
the generator from `I k` to `I (k + 1)`, it is in `I` of the number of clients in the end. -/
theorem Settled.round (h : Settled N L a) (hw : Orderly w K) (hN : N < 2 ^ 32)
    (hroom : L + N * K < 2 ^ 32) (r : ℕ) {g : G} {I : ℕ → G → Prop} (hI : I 0 g)
    (hdraw : ∀ k size cid g, I k g → I (k + 1) (w.createLocalOps r size cid g).2) :
    ∃ b g', w.round N (a.toSystem, g) r = .ok (b.toSystem, g') ∧ Settled N (L + N * K) b ∧
      b.replicas.length = (afterJoin w N r a).replicas.length ∧ I b.replicas.length g' := by
  have h' := h.joined hN w r
  set M := (afterJoin w N r a).replicas.length with hM
  have hMN : M * K ≤ N * K := Nat.mul_le_mul_right K h'.clients
  let Q : ℕ → Session T T → G → Prop := fun k b g => Midway K L M k b ∧ I k g
  have h0 : Q 0 (afterJoin w N r a) g :=
    ⟨⟨h'.toIdle.waiting, h'.synced, by rw [h'.accum, Nat.zero_mul]; exact le_rfl, h'.size⟩, hI⟩
  obtain ⟨b, g', ⟨hmid, hIM⟩, hround⟩ := exists_round h0 fun k b g hk ⟨hmid, hIk⟩ => by
    obtain ⟨q, hq, ha⟩ := hmid.exists_replica hk
    exact ⟨q, hq, ha, hmid.makeLocalOps hw hk (by omega) hq ha r g, hdraw k _ _ g hIk⟩
  have hlen : b.update.replicas.length = M := by
    rw [Session.update, List.length_mapIdx, hmid.clients]
  exact ⟨b.update, g', hround, hmid.update h'.clients, hlen, hlen.symm ▸ hIM⟩

theorem Settled.consistent [DecidableEq T] (h : Settled N L a) : checkStates a.toSystem = true := by
  show (a.replicas.map (·.doc)).all (stateEq a.doc) = true
  refine List.all_eq_true.mpr fun d hd => stateEq_iff.mpr ?_
  obtain ⟨q, hq, rfl⟩ := List.mem_map.mp hd
  obtain ⟨i, hi⟩ := List.mem_iff_getElem?.mp hq
  exact (h.synced.doc_eq hi (h.applied i q hi)).symm

/-! ### All rounds -/

theorem Settled.start {d : List T} (hd : d.length < 2 ^ 32) (N : ℕ) :
    Settled N d.length (Session.start d) :=
  ⟨Idle.start d N, Synced.start hd, le_rfl⟩

/-- **An orderly driver stays consistent**: no call fails, and after every number of rounds all
documents are equal. -/
theorem rounds_consistent [DecidableEq T] (hw : Orderly w K) {d : List T} {rs : List ℕ}
    (hN : N < 2 ^ 32) (hroom : d.length + rs.length * (N * K) < 2 ^ 32) (g : G) :
    ∃ s, (start d).bind (fun s₀ => rs.foldlM (w.round N) (s₀, g)) = .ok s ∧
      checkStates s.1 = true := by
  let P : ℕ → System T T × G → Prop := fun k s =>
    ∃ b g', s = (b.toSystem, g') ∧ Settled N (d.length + k * (N * K)) b
  have h0 : P 0 ((Session.start d).toSystem, g) :=
    ⟨_, g, rfl, by rw [Nat.zero_mul]; exact Settled.start (by omega) N⟩
  obtain ⟨_, hrounds, b, g', rfl, hb⟩ := foldlM_induct h0 fun k hk s hs => by
    obtain ⟨b, g', rfl, hb⟩ := hs
    have hle : (k + 1) * (N * K) ≤ rs.length * (N * K) := Nat.mul_le_mul_right _ hk
    rw [Nat.succ_mul] at hle
    obtain ⟨b', g'', hround, hb', -⟩ := hb.round hw hN (by omega) rs[k] (I := fun _ _ => True)
      trivial fun _ _ _ _ _ => trivial
    exact ⟨_, hround, b', g'', rfl, by rw [Nat.succ_mul, ← Nat.add_assoc]; exact hb'⟩
  exact ⟨_, hrounds, hb.consistent⟩

/-- A program that clears the server after a round may go on as with a new one. -/
theorem sameAsNew_of_round {s t : System T T × G} {r : ℕ} (h : w.round N s r = .ok t) :
    SameAsNew t.1 := by
  obtain ⟨s₁, -, h⟩ := exists_of_bind_eq_ok h
  obtain ⟨s₂, -, h⟩ := exists_of_bind_eq_ok h
  obtain ⟨s₃, hupdate, h⟩ := exists_of_bind_eq_ok h
  cases h
  exact sameAsNew_of_update hupdate

/-! ### What is drawn -/

section
variable {G : Type} (uniform : UInt32 → UInt32 → G → UInt32 × G)

theorem drawPlace_le (size : UInt32) (last : Bool) (g : G) :
    (drawPlace uniform size last g).1.2 ≤ size ∧
      ((drawPlace uniform size last g).1.1 ≠ .insert →
        (drawPlace uniform size last g).1.2 < size) := by
  simp only [drawPlace]
  generalize (uniform 0 size g).1 = p
  generalize castOpType (uniform 1 3 (uniform 0 size g).2).1 = t
  have h0 : 0 ≤ size := UInt32.le_iff_toNat_le.mpr (Nat.zero_le _)
  by_cases hp : p ≥ size
  · rw [if_pos hp]
    refine ⟨by split_ifs <;> first | exact h0 | exact UInt32.le_refl _, fun ht => ?_⟩
    rw [if_neg fun h => ht h.1]
    -- only insertions are drawn for the empty document
    have hne : size ≠ 0 := fun hs => ht (if_pos hs)
    exact UInt32.lt_of_le_of_ne h0 hne.symm
  · rw [if_neg hp]
    exact ⟨UInt32.le_of_lt (UInt32.not_le.mp hp), fun _ => UInt32.not_le.mp hp⟩

theorem inRange_drawPlace (size : UInt32) (last : Bool) (g : G) (v cid rev : UInt32) :
    InRange size.toNat (OpDescriptor.ofArgs (drawPlace uniform size last g).1.1
      (drawPlace uniform size last g).1.2 v cid rev) := by
  obtain ⟨hle, hlt⟩ := drawPlace_le uniform size last g
  have hne : ∀ t, t ≠ OpType.insert → (drawPlace uniform size last g).1.1 = t →
      (drawPlace uniform size last g).1.2.toNat < size.toNat := fun t ht h =>
    UInt32.lt_iff_toNat_lt.mp (hlt (h ▸ ht))
  exact ⟨rfl, fun _ => UInt32.le_iff_toNat_le.mp hle, hne _ (by decide), hne _ (by decide)⟩

/-! ### The test fixture -/

theorem fixture_createLocalOps (opsPerRound : UInt32) (r : ℕ) (size cid : UInt32) (s : UInt32 × G) :
    let pack := (Fixture.createLocalOps uniform opsPerRound r size cid s).1
    pack.length ≤ opsPerRound.toNat ∧ Filtered pack ∧ ∀ op ∈ pack, InRange size.toNat op := by
  unfold Fixture.createLocalOps
  generalize UInt32.ofNat r * opsPerRound = rev
  generalize opsPerRound.toNat = n
  induction n with
  | zero => exact ⟨le_rfl, Filtered.nil, nofun⟩
  | succ n ih =>
    obtain ⟨hlen, hfiltered, hrange⟩ := ih
    rw [List.range_succ, List.foldl_append, List.foldl_cons, List.foldl_nil]
    set t := (List.range n).foldl (Fixture.createOp uniform size cid rev) ([], s)
    simp only [Fixture.createOp]
    split_ifs with hdup
    · exact ⟨by omega, hfiltered, hrange⟩
    · refine ⟨by simp; omega, hfiltered.append (by simpa using hdup), fun op hop => ?_⟩
      rcases List.mem_append.mp hop with hop | hop
      · exact hrange op hop
      · rw [List.mem_singleton.mp hop]
        exact inRange_drawPlace uniform _ _ _ _ _ _

theorem orderly_fixture (opsPerRound : UInt32) :
    Orderly (Fixture.driver uniform opsPerRound) opsPerRound.toNat where
  length r size cid s := (fixture_createLocalOps uniform opsPerRound r size cid s).1
  inRange r size cid s := (fixture_createLocalOps uniform opsPerRound r size cid s).2.2
  once r size cid s := (fixture_createLocalOps uniform opsPerRound r size cid s).2.1.noDoubleRemove

/-- **The test fixture never finds a difference**, whatever is drawn. -/
theorem fixture_consistent {d : List UInt32} {nClients rounds opsPerRound : UInt32}
    (hroom : d.length + rounds.toNat * (nClients.toNat * opsPerRound.toNat) < 2 ^ 32)
    (s : UInt32 × G) :
    ∃ t, (start d).bind (fun s₀ => Fixture.run uniform nClients rounds opsPerRound (s₀, s)) =
      .ok t ∧ checkStates t.1 = true :=
  rounds_consistent (orderly_fixture uniform opsPerRound) nClients.toNat_lt
    (by rwa [List.length_range]) s

/-! ### The executable -/

theorem executable_createLocalOps (opsPerRound size cid : UInt32) (g : G) :
    let pack := (Executable.createLocalOps uniform opsPerRound size cid g).1
    pack.length = opsPerRound.toNat ∧ ∀ op ∈ pack, InRange size.toNat op := by
  unfold Executable.createLocalOps
  generalize opsPerRound.toNat = n
  induction n with
  | zero => exact ⟨rfl, nofun⟩
  | succ n ih =>
    obtain ⟨hlen, hrange⟩ := ih
    rw [List.range_succ, List.foldl_append, List.foldl_cons, List.foldl_nil]
    set t := (List.range n).foldl (Executable.createOp uniform size cid) ([], g)
    refine ⟨by simp [Executable.createOp, hlen], fun op hop => ?_⟩
    rcases List.mem_append.mp hop with hop | hop
    · exact hrange op hop
    · rw [List.mem_singleton.mp hop]
      exact inRange_drawPlace uniform _ _ _ _ _ _

theorem orderly_executable {opsPerRound : UInt32} (h : opsPerRound ≤ 1) :
    Orderly (Executable.driver uniform opsPerRound) opsPerRound.toNat where
  length _ size cid g := (executable_createLocalOps uniform opsPerRound size cid g).1.le
  inRange _ size cid g := (executable_createLocalOps uniform opsPerRound size cid g).2
  once _ size cid g := by
    have hlen := (executable_createLocalOps uniform opsPerRound size cid g).1
    have hle : opsPerRound.toNat ≤ 1 := UInt32.le_iff_toNat_le.mp h
    refine List.pairwise_iff_getElem.mpr fun i j hi hj hij => ?_
    simp only [Executable.driver] at hj
    omega

theorem Settled.runFrom {a : Session UInt32 UInt32} {nClients opsPerRound : UInt32} {L : ℕ}
    (h : Settled nClients.toNat L a) (hops : opsPerRound ≤ 1) (testPeriod : UInt32) {rs : List ℕ}
    (hroom : L + rs.length * (nClients.toNat * opsPerRound.toNat) < 2 ^ 32) (g : G) :
    ∃ b g' L', Executable.runFrom uniform nClients opsPerRound testPeriod (a.toSystem, g) rs =
      .ok (b.toSystem, g') ∧ Settled nClients.toNat L' b := by
  induction rs generalizing a L g with
  | nil => exact ⟨a, g, L, rfl, h⟩
  | cons r rs ih =>
    rw [List.length_cons, Nat.succ_mul] at hroom
    obtain ⟨b, g', hround, hb, -⟩ := h.round (orderly_executable uniform hops) nClients.toNat_lt
      (by omega) r (I := fun _ _ => True) trivial fun _ _ _ _ _ => trivial
    obtain ⟨c, g'', L', hrun, hc⟩ := ih hb (by omega) g'
    refine ⟨c, g'', L', ?_, hc⟩
    rw [Executable.runFrom]
    show (((Executable.driver uniform opsPerRound).round
      nClients.toNat (a.toSystem, g) r).bind _) = _
    rw [hround]
    show (if Executable.tested testPeriod r && !checkStates b.toSystem then _ else _) = _
    rw [hb.consistent, Bool.not_true, Bool.and_false]
    exact hrun

end

/-- Draws that are written down, kept inside the bounds. -/
def script (lo hi : UInt32) : List UInt32 → UInt32 × List UInt32
  | [] => (lo, [])
  | x :: xs => (if lo ≤ x ∧ x ≤ hi then x else lo, xs)

theorem script_bounds {lo hi : UInt32} (h : lo ≤ hi) (xs : List UInt32) :
    lo ≤ (script lo hi xs).1 ∧ (script lo hi xs).1 ≤ hi := by
  cases xs with
  | nil => exact ⟨UInt32.le_refl lo, h⟩
  | cons x xs =>
    simp only [script]
    split_ifs with hx
    · exact hx
    · exact ⟨UInt32.le_refl lo, h⟩

/-- **The executable can lose consistency** with two operations a round: a client may remove the
first of three elements twice, while another one updates the last element. -/
theorem executable_inconsistent : ∃ (G : Type) (uniform : UInt32 → UInt32 → G → UInt32 × G) (g : G),
    (∀ lo hi g, lo ≤ hi → lo ≤ (uniform lo hi g).1 ∧ (uniform lo hi g).1 ≤ hi) ∧
      ((start [1, 2, 3]).bind fun s₀ => Executable.run uniform 2 4 2 30 (s₀, g)).map
        (fun t => checkStates t.1) = .ok false := by
  refine ⟨List UInt32, script, [0, 3, 1, 1, 3, 2, 0, 3, 1, 1, 3, 2, 0, 3, 1, 1, 3, 2, 0, 3, 1, 1, 3,
    2, 0, 2, 0, 0, 2, 0, 2, 3, 9, 2, 3, 9], fun lo hi g h => script_bounds h g, ?_⟩
  decide

end OpTransform.Theory.Rounds
