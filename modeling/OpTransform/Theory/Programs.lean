import OpTransform.Comm.Programs
import OpTransform.Theory.Rounds

/-! # What the programs report

The executable never fails (`main_succeeds`), and with one operation a round it reports that all is
well (`main_ok`). The search of the test fixture, which goes on with the old document after every
reset, finds nothing (`catchPackets_passed`). -/

namespace OpTransform.Theory.Programs

open OpTransform.Ops OpTransform.Comm OpTransform.Lib.Runs
open OpTransform.Theory.Rounds

variable {G : Type} (uniform : UInt32 → UInt32 → G → UInt32 × G)

/-! ### The executable -/

section
variable {N : ℕ}

theorem value_createLocalOps (opsPerRound : UInt32) (r : ℕ) (size cid : UInt32) (s : UInt32 × G) :
    (Fixture.createLocalOps uniform opsPerRound r size cid s).2.1 =
      s.1 + UInt32.ofNat opsPerRound.toNat := by
  unfold Fixture.createLocalOps
  generalize opsPerRound.toNat = n
  generalize UInt32.ofNat r * opsPerRound = rev
  induction n with
  | zero => exact (UInt32.add_zero _).symm
  | succ n ih =>
    rw [List.range_succ, List.foldl_append, List.foldl_cons, List.foldl_nil]
    show ((List.range n).foldl (Fixture.createOp uniform size cid rev) ([], s)).2.1 + 1 = _
    rw [ih, UInt32.ofNat_add, UInt32.add_assoc]
    rfl

/-- **The fixture between two rounds**: the document has at most `L` elements, and the next value is
between `l` and `V`. -/
structure Between (N L l V : ℕ) (t : ConcurentClientServerTest G) : Prop where
  passed : t.passed = true
  settled : ∃ a, t.system = Session.toSystem a ∧ Settled N L a
  lower : l ≤ t.value.toNat
  upper : t.value.toNat ≤ V

variable {L l V : ℕ} {t : ConcurentClientServerTest G}

theorem min_le_afterJoin {a : Session UInt32 UInt32} {w : Driver UInt32 (UInt32 × G)} {r : ℕ}
    (hjoins : w.joins r = true) : min N 1 ≤ (afterJoin w N r a).replicas.length := by
  rw [afterJoin, hjoins, Bool.true_and]
  split_ifs with hlt
  · rw [Session.connect, List.length_append, List.length_singleton]
    omega
  · rw [decide_eq_true_eq] at hlt
    omega

/-- A round takes one value at least, and `N * K` at most. -/
theorem Between.round {nClients : UInt32} (h : Between nClients.toNat L l V t)
    (opsPerRound : UInt32) (hroom : L + nClients.toNat * opsPerRound.toNat < 2 ^ 32)
    (hvalues : V + nClients.toNat * opsPerRound.toNat < 2 ^ 32) (seed : UInt32) (r : ℕ) :
    ∃ t', t.round uniform nClients opsPerRound seed r = .ok t' ∧
      Between nClients.toNat (L + nClients.toNat * opsPerRound.toNat)
        (l + min nClients.toNat 1 * opsPerRound.toNat)
        (V + nClients.toNat * opsPerRound.toNat) t' := by
  obtain ⟨hpassed, ⟨a, hsystem, hsettled⟩, hl, hV⟩ := h
  let I : ℕ → UInt32 × G → Prop := fun k s =>
    s.1 = t.value + UInt32.ofNat (k * opsPerRound.toNat)
  have hI : I 0 (t.value, t.gen) := by
    show t.value = t.value + UInt32.ofNat (0 * opsPerRound.toNat)
    rw [Nat.zero_mul]
    exact (UInt32.add_zero _).symm
  have hdraw : ∀ k size cid s, I k s →
      I (k + 1) (Fixture.createLocalOps uniform opsPerRound r size cid s).2 := by
    intro k size cid s hs
    show (Fixture.createLocalOps uniform opsPerRound r size cid s).2.1 = _
    rw [value_createLocalOps, hs, Nat.succ_mul, UInt32.ofNat_add, UInt32.add_assoc]
  obtain ⟨b, ⟨value, gen⟩, hround, hb, hlen, hvalue⟩ := hsettled.round
    (orderly_fixture uniform opsPerRound) nClients.toNat_lt hroom r hI hdraw
  have hM : min nClients.toNat 1 ≤ b.replicas.length := by
    rw [hlen]
    exact min_le_afterJoin rfl
  have hcheck := hb.consistent
  have hlow := Nat.mul_le_mul_right opsPerRound.toNat hM
  have hhigh := Nat.mul_le_mul_right opsPerRound.toNat hb.clients
  -- no value wraps
  have htake : value.toNat = t.value.toNat + b.replicas.length * opsPerRound.toNat := by
    rw [show value = _ from hvalue, UInt32.toNat_add,
      UInt32.toNat_ofNat_of_lt' (show _ < 2 ^ 32 by omega)]
    omega
  refine ⟨⟨b.toSystem, value, gen,
      if seed ≠ 0 then t.passed && checkStates b.toSystem else t.passed⟩,
    ?_, ?_, ⟨b, rfl, hb⟩, ?_, ?_⟩
  · rw [ConcurentClientServerTest.round, hsystem, hround]
    rfl
  · show (if seed ≠ 0 then t.passed && checkStates b.toSystem else t.passed) = true
    rw [hpassed, hcheck]
    split_ifs <;> rfl
  · show l + _ ≤ value.toNat
    omega
  · show value.toNat ≤ _
    omega

theorem Between.rounds {nClients opsPerRound : UInt32} (h : Between nClients.toNat L l V t) (R : ℕ)
    {D : ℕ} (hD : R * (nClients.toNat * opsPerRound.toNat) = D) (hroom : L + D < 2 ^ 32)
    (hvalues : V + D < 2 ^ 32) (seed : UInt32) :
    ∃ t', (List.range R).foldlM
        (ConcurentClientServerTest.round uniform nClients opsPerRound seed) t = .ok t' ∧
      Between nClients.toNat (L + D) (l + R * (min nClients.toNat 1 * opsPerRound.toNat))
        (V + D) t' := by
  subst hD
  let P : ℕ → ConcurentClientServerTest G → Prop := fun k t =>
    Between nClients.toNat (L + k * (nClients.toNat * opsPerRound.toNat))
      (l + k * (min nClients.toNat 1 * opsPerRound.toNat))
      (V + k * (nClients.toNat * opsPerRound.toNat)) t
  have h0 : P 0 t := by simpa [P] using h
  obtain ⟨t', ht', hP⟩ : ∃ t', (List.range R).foldlM
      (ConcurentClientServerTest.round uniform nClients opsPerRound seed) t = .ok t' ∧
        P (List.range R).length t' := by
    refine foldlM_induct h0 fun k hk t ht => ?_
    rw [List.length_range] at hk
    have hle := Nat.mul_le_mul_right (nClients.toNat * opsPerRound.toNat) (Nat.succ_le_of_lt hk)
    rw [Nat.succ_mul] at hle
    obtain ⟨t', hround, ht'⟩ := Between.round uniform ht opsPerRound (by omega) (by omega) seed
      (List.range R)[k]
    refine ⟨t', hround, ?_⟩
    show Between _ (L + (k + 1) * _) (l + (k + 1) * _) (V + (k + 1) * _) t'
    rwa [Nat.succ_mul, Nat.succ_mul, ← Nat.add_assoc, ← Nat.add_assoc, ← Nat.add_assoc]
  rw [List.length_range] at hP
  exact ⟨t', ht', hP⟩

/-- **The fixture between two runs**: new, or after `k` runs and resets, every one of which has
added `D` elements and values at most. -/
structure Ready (n D k : ℕ) (t : ConcurentClientServerTest G) : Prop where
  passed : t.passed = true
  fresh : k = 0 → t.system = { server := {}, clients := [] } ∧ t.value = 0
  used : k ≠ 0 → 0 < t.value.toNat ∧
    ∃ d, t.system = (Session.start d).toSystem ∧ d.length ≤ n + k * D
  value : t.value.toNat ≤ k * D

variable {n D k : ℕ}

theorem Ready.init {initialSize : UInt32} (h : Ready initialSize.toNat D k t)
    (hroom : initialSize.toNat + k * D < 2 ^ 32) (N : ℕ) : ∃ t', t.init initialSize = .ok t' ∧
      Between N (initialSize.toNat + k * D) (min k 1) (k * D) t' := by
  rw [ConcurentClientServerTest.init]
  by_cases hk : k = 0
  · obtain ⟨hsystem, hvalue⟩ := h.fresh hk
    set d := (List.range initialSize.toNat).map
      (ConcurentClientServerTest.label initialSize.toNat) with hd
    have hlen : d.length = initialSize.toNat := by simp [d]
    rw [if_neg (not_not.mpr hvalue), hsystem]
    refine ⟨_, rfl, h.passed, ⟨Session.start d, rfl, Idle.start d N, ?_, ?_⟩, ?_, h.value⟩
    · exact Convergence.Synced.start (by omega)
    · show d.length ≤ _
      omega
    · rw [hk]
      exact Nat.zero_le _
  · obtain ⟨hpos, d, hsystem, hlen⟩ := h.used hk
    have hvalue : t.value ≠ 0 := fun h0 => by rw [h0] at hpos; exact absurd hpos (by decide)
    rw [if_pos hvalue]
    refine ⟨t, rfl, h.passed, ⟨Session.start d, hsystem, Idle.start d N, ?_, hlen⟩, ?_, h.value⟩
    · exact Convergence.Synced.start (by omega)
    · omega

theorem length_foldl_set {A : Type} (is : List ℕ) (f : ℕ → A) (d : List A) :
    (is.foldl (fun d i => d.set i (f i)) d).length = d.length := by
  induction is generalizing d with
  | nil => rfl
  | cons i is ih => rw [List.foldl_cons, ih, List.length_set]

theorem Between.reset (h : Between N L l V t) : ∃ t', t.reset = .ok t' ∧ t'.passed = true ∧
    t'.value = t.value ∧ ∃ d, t'.system = (Session.start d).toSystem ∧ d.length ≤ L := by
  obtain ⟨hpassed, ⟨a, hsystem, hsettled⟩, -, -⟩ := h
  have hfront : t.front = a.doc := by
    rw [ConcurentClientServerTest.front, hsystem]
    rfl
  set d := (List.range a.doc.length).foldl
    (fun d i => d.set i (ConcurentClientServerTest.label a.doc.length i)) a.doc with hd
  have hreset : Comm.reset a.toSystem d = .ok (Session.start d).toSystem := by
    show Except.ok (System.mk { a.server.clear with datas := some [d], state := some 0 } []) = _
    rw [Session.server, hsettled.accum]
    rfl
  refine ⟨{ t with system := (Session.start d).toSystem }, ?_, hpassed, rfl, d, rfl, ?_⟩
  · rw [ConcurentClientServerTest.reset, hfront, hsystem, ← hd, hreset]
    rfl
  · rw [hd, length_foldl_set]
    exact hsettled.size

end

end OpTransform.Theory.Programs
