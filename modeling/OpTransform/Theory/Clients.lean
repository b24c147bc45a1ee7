import OpTransform.Comm.Clients
import OpTransform.Theory.Rounds

/-! # Clients without a server stay consistent

A round of the fixture without a server applies its operations in as many orders as there are
clients, everybody's own pack in front. All documents become the merge of all operations
(`Level.round`). So with one operation a round for each client no check of the fixture ever fails,
whatever is drawn (`run_passes`). -/

namespace OpTransform.Theory.Clients

open OpTransform.Ops OpTransform.Comm OpTransform.Lib.Blocks OpTransform.Lib.Runs
open OpTransform.Theory.Effect OpTransform.Theory.Packs OpTransform.Theory.Merge
open OpTransform.Theory.Convergence OpTransform.Theory.Rounds

/-! ### The operations of all clients, in two orders -/

section
variable {T : Type} {D : List T} {P : OpPack T}

theorem applyFromOthers_all (hP : ∀ op ∈ P, InRange D.length op) (hcid : ∀ op ∈ P, op.cid ≠ 0)
    (hroom : D.length + P.length < 2 ^ 32) : (State.applyFromOthers D 0 [] P).1 = merge D P := by
  have hfilter : P.filter (0 ≠ ·.cid) = P :=
    List.filter_eq_self.mpr fun op hop => by simpa using (hcid op hop).symm
  rw [State.applyFromOthers_eq, hfilter, ← State.applyPack_eq]
  exact applyPack_eq_merge hP hroom

/-- **The state of a client** applies those of the client first, and ends in the same document. -/
theorem applyFromOthers_own (c : UInt32) (hP : ∀ op ∈ P, InRange D.length op)
    (honce : NoDoubleRemove (P.filter (·.cid = c))) (hroom : D.length + P.length < 2 ^ 32) :
    (State.applyFromOthers (State.applyPack D (P.filter (·.cid = c))) c
      (P.filter (·.cid = c)) P).1 = merge D P := by
  set own := P.filter (·.cid = c) with hown
  have hlen : own.length + (P.filter (c ≠ ·.cid)).length ≤ P.length := by
    rw [hown, ← List.countP_eq_length_filter, ← List.countP_eq_length_filter,
      ← countP_or fun op _ h1 h2 => h2 h1.symm]
    exact List.countP_le_length
  have hdoc : State.applyPack D own = merge D own :=
    applyPack_eq_merge (fun op hop => hP op (List.mem_filter.mp hop).1) (by omega)
  have hcovers : Covers D.length own own := Covers.refl fun p _ => noDoubleRemove_iff.mp honce p
  have hmerge : _ = merge D _ := (applyAll_merge hcovers (P.filter (c ≠ ·.cid)) (fun op hop => by
    have hrange := hP op (List.mem_filter.mp hop).1
    exact ⟨hrange, hrange.within⟩) (by omega)).1
  rw [State.applyFromOthers_eq, hdoc, hmerge, merge_own_first]

end

/-! ### The packs of a round -/

section
variable {G : Type} (uniform : UInt32 → UInt32 → G → UInt32 × G)

/-- The packs of a round on documents of size `L` with `n` clients, when the clients below `k` have
made their `K` operations, and the client `k` has made `i`. -/
structure Collected (L n K k i : ℕ) (packs : List (OpPack UInt32)) : Prop where
  length : packs.length = n + 1
  own : ∀ c : UInt32, c ≠ 0 → c.toNat ≤ n →
    packs.getD c.toNat [] = (packs.headD []).filter (·.cid = c)
  inRange : ∀ op ∈ packs.headD [], InRange L op
  cid : ∀ op ∈ packs.headD [], op.cid ≠ 0
  few : ∀ c : UInt32, (packs.headD []).countP (·.cid = c) ≤
    if c.toNat < k then K else if c.toNat = k then i else 0
  size : (packs.headD []).length ≤ (k - 1) * K + i

variable {L n K k i : ℕ} {packs : List (OpPack UInt32)}

theorem Collected.start (L n K : ℕ) : Collected L n K 1 0 (List.replicate (n + 1) []) := by
  refine ⟨List.length_replicate, fun c _ hn => ?_, nofun, nofun, fun c => Nat.zero_le _,
    Nat.zero_le _⟩
  rw [List.getD_eq_getElem?_getD, List.getElem?_replicate, if_pos (by omega)]
  rfl

theorem headD_put (hlen : packs.length = n + 1) {op : OpDescriptor UInt32} (hcid : op.cid ≠ 0) :
    (ConcurentClientsTest.put packs op).headD [] = packs.headD [] ++ [op] := by
  obtain ⟨P, ps, rfl⟩ := List.exists_cons_of_length_eq_add_one hlen
  obtain ⟨m, hm⟩ : ∃ m, op.cid.toNat = m + 1 :=
    Nat.exists_eq_succ_of_ne_zero fun h => hcid (UInt32.toNat_inj.mp h)
  simp [ConcurentClientsTest.put, hm]

theorem Collected.put (h : Collected L n K k i packs) {op : OpDescriptor UInt32}
    (hk : op.cid.toNat = k) (hpos : 1 ≤ k) (hrange : InRange L op) :
    Collected L n K k (i + 1) (ConcurentClientsTest.put packs op) := by
  have hcid : op.cid ≠ 0 := fun h0 => by
    rw [h0] at hk
    exact absurd hk (by simp; omega)
  have hhead := headD_put h.length hcid
  refine ⟨?_, fun c hc hcn => ?_, fun a ha => ?_, fun a ha => ?_, fun c => ?_, ?_⟩
  · simpa [ConcurentClientsTest.put] using h.length
  · have hc0 : c.toNat ≠ 0 := fun h0 => hc (UInt32.toNat_inj.mp h0)
    have hget : (ConcurentClientsTest.put packs op).getD c.toNat [] =
        if op.cid = c then packs.getD c.toNat [] ++ [op] else packs.getD c.toNat [] := by
      have hlt : c.toNat < packs.length := by
        rw [h.length]
        omega
      rw [List.getD_eq_getElem?_getD, List.getD_eq_getElem?_getD, ConcurentClientsTest.put,
        List.getElem?_modify, List.getElem?_modify, List.getElem?_eq_getElem hlt]
      simp only [Ne.symm hc0, if_false, UInt32.toNat_inj]
      split_ifs <;> rfl
    rw [hget, hhead, List.filter_append, h.own c hc hcn]
    split_ifs with hop <;> simp [hop]
  · rw [hhead] at ha
    rcases List.mem_append.mp ha with ha | ha
    · exact h.inRange a ha
    · rwa [List.mem_singleton.mp ha]
  · rw [hhead] at ha
    rcases List.mem_append.mp ha with ha | ha
    · exact h.cid a ha
    · rwa [List.mem_singleton.mp ha]
  · have hfew := h.few c
    rw [hhead, List.countP_append, List.countP_singleton]
    by_cases hop : op.cid = c
    · subst hop
      simp only [hk, lt_irrefl, if_false, if_true, decide_true] at hfew ⊢
      omega
    · have hne : c.toNat ≠ k := fun hck => hop (UInt32.toNat_inj.mp (hk.trans hck.symm))
      simpa [hop, hne] using hfew
  · rw [hhead, List.length_append, List.length_singleton]
    have hsize := h.size
    omega

theorem Collected.next (h : Collected L n K k K packs) (hpos : 1 ≤ k) :
    Collected L n K (k + 1) 0 packs := by
  refine ⟨h.length, h.own, h.inRange, h.cid, fun c => ?_, ?_⟩
  · have hfew := h.few c
    split_ifs at hfew ⊢ <;> omega
  · have hsize := h.size
    obtain ⟨m, rfl⟩ : ∃ m, k = m + 1 := Nat.exists_eq_add_of_le' hpos
    rw [Nat.add_sub_cancel] at hsize ⊢
    rw [Nat.succ_mul]
    exact hsize

theorem exists_createOp (hL : L < 2 ^ 32) (cid rev : UInt32)
    (s : List (OpPack UInt32) × UInt32 × G) (i : ℕ) : ∃ op v g,
      ConcurentClientsTest.createOp uniform L cid rev s i =
        (ConcurentClientsTest.put s.1 op, v, g) ∧
        op.cid = cid ∧ InRange L op := by
  obtain ⟨packs, v, g⟩ := s
  have hsize : (UInt32.ofNat L).toNat = L := by
    rw [UInt32.toNat_ofNat']
    exact Nat.mod_eq_of_lt hL
  have hzero : UInt32.ofNat L = 0 ↔ L = 0 := by
    rw [← UInt32.toNat_inj, hsize]
    rfl
  have hrange := inRange_drawPlace uniform (UInt32.ofNat L) (rev % 2 ≠ 0) g v cid
    (rev + UInt32.ofNat i)
  rw [hsize] at hrange
  refine ⟨_, v + 1, (uniform 1 3 (uniform 0 (UInt32.ofNat L) g).2).2, ?_, ?_, hrange⟩
  · simp [ConcurentClientsTest.createOp, drawPlace, hzero, UInt32.le_iff_toNat_le, hsize]
  · rfl

theorem collected_makeLocalOps {t : ConcurentClientsTest G} {D : List UInt32} {n : ℕ}
    (hdatas : t.datas = List.replicate (n + 1) D) (hn : n + 1 < 2 ^ 32) (hD : D.length < 2 ^ 32)
    (opsPerRound : UInt32) (r : ℕ) :
    Collected D.length n opsPerRound.toNat (n + 1) 0
      (ConcurentClientsTest.makeLocalOps uniform opsPerRound r t).1 := by
  have hstart := Collected.start D.length n opsPerRound.toNat
  unfold ConcurentClientsTest.makeLocalOps
  rw [hdatas, List.length_replicate, Nat.add_sub_cancel, Nat.add_comm n 1]
  rw [Nat.add_comm n 1] at hstart
  refine foldl_range'_induct
    (P := fun k (s : List (OpPack UInt32) × UInt32 × G) =>
      Collected D.length n opsPerRound.toNat k 0 s.1)
    hstart fun k s hk hkn h => ?_
  -- the turn of the client `k`
  have hdata : ((List.replicate (1 + n) D).getD k []).length = D.length := by
    simp [List.getD_eq_getElem?_getD, hkn]
  have hcid : (UInt32.ofNat k).toNat = k := by
    rw [UInt32.toNat_ofNat']
    exact Nat.mod_eq_of_lt (by omega)
  refine Collected.next ?_ hk
  unfold ConcurentClientsTest.createOps
  rw [hdata, List.range_eq_range']
  have hturn := foldl_range'_induct
    (P := fun i (s : List (OpPack UInt32) × UInt32 × G) =>
      Collected D.length n opsPerRound.toNat k i s.1)
    (f := ConcurentClientsTest.createOp uniform D.length (UInt32.ofNat k)
      (UInt32.ofNat r * opsPerRound)) (k := 0) (n := opsPerRound.toNat) h fun i s _ _ hs => by
    obtain ⟨op, v, g, heq, hop, hrange⟩ := exists_createOp uniform hD (UInt32.ofNat k)
      (UInt32.ofNat r * opsPerRound) s i
    rw [heq]
    exact hs.put (by rw [hop, hcid]) hk hrange
  rwa [Nat.zero_add] at hturn

/-! ### The rounds -/

/-- All documents are the same one, of at most `L` elements, and no check has failed. -/
structure Level (n L : ℕ) (t : ConcurentClientsTest G) : Prop where
  datas : ∃ D, t.datas = List.replicate (n + 1) D ∧ D.length ≤ L
  passed : t.passed = true

variable {t : ConcurentClientsTest G} {opsPerRound : UInt32}

theorem Level.round (h : Level n L t) (hn : n + 1 < 2 ^ 32) (hops : opsPerRound ≤ 1)
    (hroom : L + n * opsPerRound.toNat < 2 ^ 32) (r : ℕ) :
    Level n (L + n * opsPerRound.toNat) (t.round uniform opsPerRound r) := by
  obtain ⟨D, hdatas, hD⟩ := h.datas
  have hpacks := collected_makeLocalOps uniform hdatas hn (by omega) opsPerRound r
  set packs := (t.makeLocalOps uniform opsPerRound r).1 with hdef
  have hsize := hpacks.size
  rw [Nat.add_sub_cancel, Nat.add_zero] at hsize
  refine ⟨⟨merge D (packs.headD []), ?_, (length_merge_le D _).trans (by omega)⟩, h.passed⟩
  show t.datas.mapIdx (ConcurentClientsTest.applyRound packs) = _
  rw [hdatas]
  refine List.ext_getElem (by simp) fun c hc _ => ?_
  rw [List.length_mapIdx, List.length_replicate] at hc
  rw [List.getElem_mapIdx, List.getElem_replicate, List.getElem_replicate,
    ConcurentClientsTest.applyRound]
  split_ifs with h0
  · exact applyFromOthers_all hpacks.inRange hpacks.cid (by omega)
  · have hcid : (UInt32.ofNat c).toNat = c := by
      rw [UInt32.toNat_ofNat']
      exact Nat.mod_eq_of_lt (by omega)
    have hown := hpacks.own (UInt32.ofNat c) (fun hz => h0 (by rw [← hcid, hz]; rfl)) (by omega)
    rw [hcid] at hown
    rw [hown]
    refine applyFromOthers_own _ hpacks.inRange ?_ (by omega)
    -- a pack of one operation
    have hone : ((packs.headD []).filter (·.cid = UInt32.ofNat c)).length ≤ 1 := by
      have hfew := hpacks.few (UInt32.ofNat c)
      rw [hcid, if_pos (by omega), List.countP_eq_length_filter] at hfew
      exact hfew.trans (UInt32.le_iff_toNat_le.mp hops)
    refine List.pairwise_iff_getElem.mpr fun i j hi hj hij => ?_
    omega

theorem Level.checkStates (h : Level n L t) : Level n L t.checkStates := by
  refine ⟨h.datas, ?_⟩
  obtain ⟨D, hdatas, -⟩ := h.datas
  show (t.passed && (t.datas.drop 1).all (stateEq (t.datas.headD []))) = true
  rw [h.passed, Bool.true_and, hdatas, List.all_eq_true]
  intro d hd
  rw [List.drop_replicate] at hd
  rw [List.eq_of_mem_replicate hd]
  exact stateEq_iff.mpr rfl

theorem Level.turn (h : Level n L t) (hn : n + 1 < 2 ^ 32) (hops : opsPerRound ≤ 1)
    (hroom : L + n * opsPerRound.toNat < 2 ^ 32) (checkEachRound : Bool) (r : ℕ) :
    Level n (L + n * opsPerRound.toNat) (t.turn uniform opsPerRound checkEachRound r) := by
  have hround := h.round uniform hn hops hroom r
  unfold ConcurentClientsTest.turn
  cases checkEachRound with
  | false => exact hround
  | true => exact hround.checkStates

theorem Level.init {clients : UInt32} (hclients : clients.toNat + 1 < 2 ^ 32) (initialSize : UInt32)
    (g : G) : Level clients.toNat initialSize.toNat
      (ConcurentClientsTest.init { gen := g } clients initialSize) := by
  refine ⟨⟨(List.range initialSize.toNat).map (ConcurentClientServerTest.label initialSize.toNat),
    ?_, by simp⟩, rfl⟩
  show List.replicate (clients + 1).toNat _ = _
  rw [UInt32.toNat_add, UInt32.toNat_one, Nat.mod_eq_of_lt hclients]

end

end OpTransform.Theory.Clients
