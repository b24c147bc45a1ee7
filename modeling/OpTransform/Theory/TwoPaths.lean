import OpTransform.Theory.Merge

/-! # The client's path and the server's path

In a round with one client the client applies its own pack `P`, keeps it as it is, and then applies
the foreign operations `Q` over it; the server applies `P` and `Q` in order over the pack it builds.
If `P` removes an element twice, the client's raw pack shifts every foreign operation to the right
of it once too often. The paths agree on all foreign operations up to position `x` if and only if
`P` removes no element left of `x` twice (`paths_agree_iff`). -/

namespace OpTransform.Theory.TwoPaths

open OpTransform.Ops OpTransform.Lib.Blocks OpTransform.Theory.Effect OpTransform.Theory.Packs
open OpTransform.Theory.Merge

universe u

variable {T : Type u}

/-- The document of the client: `makeLocalOps`, then `updateFromServer`. -/
def clientPath (D : List T) (c : UInt32) (P Q : OpPack T) : List T :=
  (State.applyFromOthers (State.applyPack D P) c P (P ++ Q)).1

/-- The document of the server: `update`. -/
def serverPath (D : List T) (P Q : OpPack T) : List T := (State.applyFromOthers D 0 [] (P ++ Q)).1

/-- Operations of the client `c` on a document of length `n`. -/
def Own (n : ℕ) (c : UInt32) (P : OpPack T) : Prop := ∀ op ∈ P, InRange n op ∧ op.cid = c

/-- Operations of clients other than `c` on a document of length `n`, none right of `x`. -/
def Foreign (n : ℕ) (c : UInt32) (x : ℕ) (Q : OpPack T) : Prop :=
  ∀ op ∈ Q, InRange n op ∧ op.cid ≠ 0 ∧ op.cid ≠ c ∧ Within x op

section
variable {D : List T} {c : UInt32} {P Q : OpPack T} {x : ℕ}

theorem serverPath_eq (hc : c ≠ 0) (hP : Own D.length c P) (hQ : Foreign D.length c x Q)
    (hlen : D.length + P.length + Q.length < 2 ^ 32) :
    serverPath D P Q = merge D (P ++ Q) := by
  have hall : ∀ op ∈ P ++ Q, InRange D.length op ∧ op.cid ≠ 0 := by
    intro op hop
    rcases List.mem_append.mp hop with h | h
    · exact ⟨(hP op h).1, by rw [(hP op h).2]; exact hc⟩
    · exact ⟨(hQ op h).1, (hQ op h).2.1⟩
  have hfilter : (P ++ Q).filter (0 ≠ ·.cid) = P ++ Q :=
    List.filter_eq_self.mpr fun op hop => by simpa using (hall op hop).2.symm
  rw [serverPath, State.applyFromOthers_eq, hfilter, ← State.applyPack_eq]
  exact applyPack_eq_merge (fun op hop => (hall op hop).1) (by rw [List.length_append]; omega)

theorem clientPath_eq_applyAll (hP : Own D.length c P) (hQ : Foreign D.length c x Q)
    (hlen : D.length + P.length < 2 ^ 32) :
    clientPath D c P Q = (State.applyAll (merge D P) P Q).1 := by
  have hfilter : (P ++ Q).filter (c ≠ ·.cid) = Q := by
    rw [List.filter_append, List.filter_eq_nil_iff.mpr, List.filter_eq_self.mpr, List.nil_append]
    · intro op hop; simpa using (hQ op hop).2.2.1.symm
    · intro op hop; simpa using (hP op hop).2.symm
  rw [clientPath, State.applyFromOthers_eq, hfilter,
    applyPack_eq_merge (fun op h => (hP op h).1) hlen]

/-- Without double removals left of `x` the client merges as the server does. -/
theorem clientPath_eq (hP : Own D.length c P) (hQ : Foreign D.length c x Q)
    (hlen : D.length + P.length + Q.length < 2 ^ 32)
    (honce : ∀ p < x, P.countP (IsAt .remove p ·) ≤ 1) :
    clientPath D c P Q = merge D (P ++ Q) := by
  rw [clientPath_eq_applyAll hP hQ (by omega)]
  exact (applyAll_merge (Covers.refl honce) Q (fun op h => ⟨(hQ op h).1, (hQ op h).2.2.2⟩) hlen).1

end

/-! ### Two insertions right of a double removal -/

/-- Two insertions at one index end up there in the opposite order; at a smaller index, the second
one is seen to be elsewhere. -/
theorem insertIdx_twice_ne {l : List T} {i s : ℕ} {v w : T} (his : i < s) (hs : s ≤ l.length)
    (hv : l[i]? ≠ some v) : (l.insertIdx i w).insertIdx i v ≠ (l.insertIdx s w).insertIdx s v := by
  intro h
  have hi : ((l.insertIdx i w).insertIdx i v)[i]? = ((l.insertIdx s w).insertIdx s v)[i]? := by
    rw [h]
  rw [List.getElem?_insertIdx_self, List.getElem?_insertIdx_of_lt his,
    List.getElem?_insertIdx_of_lt his, List.length_insertIdx, if_pos (by split_ifs <;> omega)] at hi
  exact hv hi.symm

theorem append_twice_ne {l : List T} {s : ℕ} {v w : T} (hs : s ≤ l.length)
    (hv : (if s = l.length then some w else l[l.length - 1]?) ≠ some v) :
    l ++ [w] ++ [v] ≠ (l.insertIdx s w).insertIdx s v := by
  intro h
  have hi : (l ++ [w] ++ [v])[l.length + 1]? =
      ((l.insertIdx s w).insertIdx s v)[l.length + 1]? := by
    rw [h]
  rw [List.getElem?_append_right (by simp), List.getElem?_insertIdx_of_gt (by omega)] at hi
  split_ifs at hv with he
  · subst he
    simp at hi; exact hv (by rw [hi])
  · rw [List.getElem?_insertIdx_of_gt (by omega)] at hi
    simp at hi; exact hv (by rw [← hi])

section
variable {D : List T} {P : OpPack T} (pos c : UInt32)

theorem foldl_trans_insert (A : OpPack T) (v w : T) :
    A.foldl OpDescriptor.trans (.ofArgs .insert pos v c) =
      { OpDescriptor.ofArgs .insert pos v c with
        posser := (A.foldl OpDescriptor.trans (.ofArgs .insert pos w c)).posser } := by
  have hk : ¬ ∃ a ∈ A, Kills (.ofArgs .insert pos v c) a := fun ⟨_, _, h⟩ => h.typ_ne rfl
  rw [foldl_trans, foldl_trans, if_neg hk]
  rfl

/-- Two insertions of one client at one position, applied over a pack, go to the same index. -/
theorem applyAll_two (L : List T) (A : OpPack T) (v w : T) :
    let y := (A.foldl OpDescriptor.trans (.ofArgs .insert pos v c)).posser
    (State.applyAll L A [.ofArgs .insert pos w c, .ofArgs .insert pos v c]).1 =
      State.apply (State.apply L { OpDescriptor.ofArgs .insert pos w c with posser := y })
        { OpDescriptor.ofArgs .insert pos v c with posser := y } := by
  intro y
  have hself : ∀ u : T, OpDescriptor.trans { OpDescriptor.ofArgs .insert pos u c with posser := y }
      { OpDescriptor.ofArgs .insert pos w c with posser := y } =
        { OpDescriptor.ofArgs .insert pos u c with posser := y } := by
    intro u
    simp [OpDescriptor.trans, OpDescriptor.ofArgs]
  simp only [State.applyAll, State.applyPut, OpPack.transformAndPut, List.foldl_cons,
    List.foldl_nil, List.foldl_append]
  rw [foldl_trans_insert pos c A w v, foldl_trans_insert pos c A v v, hself]

theorem merge_two (hp : pos.toNat ≤ D.length) (hlen : D.length + P.length + 1 < 2 ^ 32) (v w : T) :
    let s := index D P (.ofArgs .insert pos v c)
    merge D (P ++ [.ofArgs .insert pos w c, .ofArgs .insert pos v c]) =
      ((merge D P).insertIdx s w).insertIdx s v := by
  intro s
  have hrem : ∀ r, Removed (P ++ [.ofArgs .insert pos w c]) r ↔ Removed P r := fun r => by
    rw [removed_snoc]; simp [IsAt, OpDescriptor.ofArgs]
  have hins : ¬ InsLeft (.ofArgs .insert pos v c) (.ofArgs .insert pos w c) := by
    simp [InsLeft, OpDescriptor.ofArgs]
  -- the first one does not shift the second
  have hposser : (effect (P ++ [.ofArgs .insert pos w c]) (.ofArgs .insert pos v c)).posser =
      (effect P (.ofArgs .insert pos v c)).posser := by
    simp [effect, List.countP_append, hins, removedBefore, hrem]
  have hindex : index D (P ++ [.ofArgs .insert pos w c]) (.ofArgs .insert pos v c) = s := by
    have h1 : _ = index D (P ++ [.ofArgs .insert pos w c]) (.ofArgs .insert pos v c) :=
      toNat_effect_posser rfl hp (by simp; omega)
    have h2 : _ = index D P (.ofArgs .insert pos v c) := toNat_effect_posser rfl hp (by omega)
    rw [← h1, hposser, h2]
  have hw : index D P (.ofArgs .insert pos w c) = s := rfl
  rw [← List.singleton_append, ← List.append_assoc, merge_snoc_insert rfl hp,
    merge_snoc_insert rfl hp, hindex, hw]
  rfl

end

theorem exists_ne_some [Nontrivial T] (o : Option T) : ∃ v, o ≠ some v := by
  cases o with
  | none => obtain ⟨v⟩ := ‹Nontrivial T›.to_nonempty; exact ⟨v, by simp⟩
  | some u => obtain ⟨v, hv⟩ := exists_ne u; exact ⟨v, fun h => hv (Option.some.inj h).symm⟩

theorem extraRemovals_le_countP (P : OpPack T) (p : ℕ) :
    extraRemovals P p ≤ P.countP (·.typ = .remove) := by
  calc extraRemovals P p ≤ ∑ r ∈ Finset.range p, P.countP (IsAt .remove r ·) :=
        Finset.sum_le_sum fun r _ => Nat.sub_le _ _
    _ = P.countP (fun a => decide (a.typ = .remove ∧ a.pos.toNat < p)) :=
        (countP_lt_eq_sum (fun a : OpDescriptor T => a.typ = .remove)
          (fun a => a.pos.toNat) P p).symm
    _ ≤ P.countP (·.typ = .remove) :=
        List.countP_mono_left fun a _ h => by rw [decide_eq_true_iff] at h ⊢; exact h.1

theorem length_merge_add_extraRemovals_le (D : List T) (P : OpPack T) (p : ℕ) :
    (merge D P).length + extraRemovals P p ≤ D.length + P.length := by
  have h1 := length_merge_le_insert D P
  have h2 := extraRemovals_le_countP P p
  have h3 : P.countP (·.typ = .insert) + P.countP (·.typ = .remove) ≤ P.length := by
    rw [← countP_or fun b _ h1 h2 => by rw [h1] at h2; cases h2]
    exact List.countP_le_length
  omega

/-- **Two insertions diverge**: where the raw pack `P` has extra removals to the left, it shifts
them too far to the left, or past zero. -/
theorem exists_values_ne [Nontrivial T] {D : List T} {P : OpPack T} {pos : UInt32} (c : UInt32)
    (w : T) (hp : pos.toNat ≤ D.length) (hextra : 0 < extraRemovals P pos.toNat)
    (hlen : D.length + P.length + 2 < 2 ^ 32) :
    ∃ v, (State.applyAll (merge D P) P [.ofArgs .insert pos w c, .ofArgs .insert pos v c]).1 ≠
      merge D (P ++ [.ofArgs .insert pos w c, .ofArgs .insert pos v c]) := by
  have hroom := length_merge_add_extraRemovals_le D P pos.toNat
  have hs : index D P (.ofArgs .insert pos w c) ≤ (merge D P).length := index_le rfl hp
  set s := index D P (.ofArgs .insert pos w c)
  set k := extraRemovals P pos.toNat
  have hmerge : ∀ v, merge D (P ++ [.ofArgs .insert pos w c, .ofArgs .insert pos v c]) =
      ((merge D P).insertIdx s w).insertIdx s v := fun v => merge_two pos c hp (by omega) v w
  have hposser : ∀ v, (P.foldl OpDescriptor.trans (.ofArgs .insert pos v c)).posser.toNat =
      (2 ^ 32 - k + s) % 2 ^ 32 := by
    intro v
    have h1 : _ = index D P (.ofArgs .insert pos v c) := toNat_effect_posser rfl hp (by omega)
    have h2 : (UInt32.ofNat k).toNat = k := UInt32.toNat_ofNat_of_lt' (by show k < 2 ^ 32; omega)
    rw [trans_raw]
    simp only [UInt32.toNat_sub]
    rw [h1]
    show (2 ^ 32 - (UInt32.ofNat k).toNat + s) % 2 ^ 32 = _
    rw [h2]
  generalize merge D P = L at *
  by_cases hks : k ≤ s
  · -- both go to the index `s - k`
    obtain ⟨v, hv⟩ := exists_ne_some L[s - k]?
    refine ⟨v, ?_⟩
    set y := (P.foldl OpDescriptor.trans (.ofArgs .insert pos v c)).posser
    have hy : y.toNat = s - k := by
      rw [hposser v, show 2 ^ 32 - k + s = s - k + 2 ^ 32 by omega, Nat.add_mod_right,
        Nat.mod_eq_of_lt (by omega)]
    have h1 : ∀ u, State.apply L { OpDescriptor.ofArgs .insert pos u c with posser := y } =
        L.insertIdx (s - k) u := fun u => by
      rw [State.apply_insert rfl (by omega) (by rw [hy]; omega), hy]; rfl
    have h2 : State.apply (L.insertIdx (s - k) w)
        { OpDescriptor.ofArgs .insert pos v c with posser := y } =
        (L.insertIdx (s - k) w).insertIdx (s - k) v := by
      have hl : (L.insertIdx (s - k) w).length = L.length + 1 :=
        List.length_insertIdx_of_le_length (by omega) w
      rw [State.apply_insert rfl (by omega) (by rw [hy]; omega), hy]; rfl
    rw [hmerge, applyAll_two, h1, h2]
    exact insertIdx_twice_ne (by omega) hs hv
  · -- the position wraps, and both are appended
    obtain ⟨v, hv⟩ := exists_ne_some (if s = L.length then some w else L[L.length - 1]?)
    refine ⟨v, ?_⟩
    set y := (P.foldl OpDescriptor.trans (.ofArgs .insert pos v c)).posser
    have hy : y.toNat = 2 ^ 32 - k + s := by rw [hposser v, Nat.mod_eq_of_lt (by omega)]
    have happ : ∀ (l : List T) (u : T), l.length ≤ L.length + 1 →
        State.apply l { OpDescriptor.ofArgs .insert pos u c with posser := y } = l ++ [u] := by
      intro l u hl
      exact State.apply_insert_end rfl (by omega) (by rw [hy]; omega)
    rw [hmerge, applyAll_two, happ L w (by omega), happ _ v (by simp)]
    exact append_twice_ne hs hv

theorem exists_diverging [Nontrivial T] {D : List T} {c : UInt32} {P : OpPack T} {x p : ℕ}
    (hc : c ≠ 0) (hP : Own D.length c P) (hp : p < x) (hdouble : 1 < P.countP (IsAt .remove p ·))
    (hlen : D.length + P.length + 2 < 2 ^ 32) :
    ∃ Q, Foreign D.length c x Q ∧ Q.length = 2 ∧ clientPath D c P Q ≠ serverPath D P Q := by
  obtain ⟨a, ha, hat⟩ := List.countP_pos_iff.mp (show 0 < P.countP (IsAt .remove p ·) by omega)
  obtain ⟨hrem, hap⟩ : IsAt .remove p a := of_decide_eq_true hat
  have han : a.pos.toNat < D.length := (hP a ha).1.remove hrem
  have hpos : (a.pos + 1).toNat = p + 1 := by
    rw [UInt32.toNat_add, hap]; simp; omega
  obtain ⟨c', hc0, hcc⟩ : ∃ c' : UInt32, c' ≠ 0 ∧ c' ≠ c := by
    by_cases h : c = 1
    · exact ⟨2, by decide, by rw [h]; decide⟩
    · exact ⟨1, by decide, Ne.symm h⟩
  have hextra : 0 < extraRemovals P (a.pos + 1).toNat := by
    rw [Nat.pos_iff_ne_zero, ne_eq, extraRemovals_eq_zero]
    push Not
    exact ⟨p, by omega, hdouble⟩
  obtain ⟨v, hne⟩ := exists_values_ne c' a.value (by omega) hextra hlen
  have hop : ∀ u : T, InRange D.length (.ofArgs .insert (a.pos + 1) u c') ∧
      Within x (OpDescriptor.ofArgs .insert (a.pos + 1) u c') := by
    refine fun u => ⟨⟨rfl, fun _ => ?_, nofun, nofun⟩, fun _ _ => ?_⟩
    · show (a.pos + 1).toNat ≤ D.length
      omega
    · show (a.pos + 1).toNat ≤ x
      omega
  have hQ : Foreign D.length c x
      [.ofArgs .insert (a.pos + 1) a.value c', .ofArgs .insert (a.pos + 1) v c'] := by
    intro op hmem
    rcases List.mem_pair.mp hmem with rfl | rfl
    · exact ⟨(hop a.value).1, hc0, hcc, (hop a.value).2⟩
    · exact ⟨(hop v).1, hc0, hcc, (hop v).2⟩
  refine ⟨_, hQ, rfl, ?_⟩
  rw [clientPath_eq_applyAll hP hQ (by omega), serverPath_eq hc hP hQ hlen]
  exact hne

theorem pairwise_iff_once {P : OpPack T} {x : ℕ} :
    (P.Pairwise fun a b =>
      ¬ (a.typ = .remove ∧ b.typ = .remove ∧ a.pos = b.pos ∧ a.pos.toNat < x)) ↔
      ∀ p < x, P.countP (IsAt .remove p ·) ≤ 1 := by
  have h := pairwise_iff_countP_le_one
    (fun a : OpDescriptor T => a.typ = .remove ∧ a.pos.toNat < x) (fun a => a.pos.toNat) P
  have hl : ∀ a b : OpDescriptor T, (a.typ = .remove ∧ a.pos.toNat < x) ∧
      (b.typ = .remove ∧ b.pos.toNat < x) ∧ a.pos.toNat = b.pos.toNat ↔
        a.typ = .remove ∧ b.typ = .remove ∧ a.pos = b.pos ∧ a.pos.toNat < x := by
    intro a b
    rw [UInt32.toNat_inj]
    constructor
    · rintro ⟨⟨h1, h2⟩, ⟨h3, -⟩, h4⟩; exact ⟨h1, h3, h4, h2⟩
    · rintro ⟨h1, h3, h4, h2⟩; exact ⟨⟨h1, h2⟩, ⟨h3, h4 ▸ h2⟩, h4⟩
  simp only [hl] at h
  rw [h]
  refine forall_congr' fun p => ?_
  constructor
  · intro hp hx
    refine le_trans (List.countP_mono_left fun a _ ha => ?_) hp
    rw [decide_eq_true_iff] at ha ⊢
    exact ⟨⟨ha.1, by rw [ha.2]; exact hx⟩, ha.2⟩
  · intro hp
    by_cases hx : p < x
    · refine le_trans (List.countP_mono_left fun a _ ha => ?_) (hp hx)
      rw [decide_eq_true_iff] at ha ⊢
      exact ⟨ha.1.1, ha.2⟩
    · refine le_trans (Nat.le_of_eq (List.countP_eq_zero.mpr fun a _ ha => ?_)) (Nat.zero_le 1)
      rw [decide_eq_true_iff] at ha
      omega

/-- **When the paths agree**: on all foreign operations up to `x` if the client's pack removes no
element left of `x` twice, and, as soon as there is room for two foreign operations, only then. -/
theorem paths_agree_iff (D : List T) (c : UInt32) (hc : c ≠ 0) (P : OpPack T)
    (hP : Own D.length c P) (x : ℕ) :
    ((P.Pairwise fun a b =>
        ¬ (a.typ = .remove ∧ b.typ = .remove ∧ a.pos = b.pos ∧ a.pos.toNat < x)) →
      ∀ Q, Foreign D.length c x Q → D.length + P.length + Q.length < 2 ^ 32 →
        clientPath D c P Q = serverPath D P Q) ∧
    (Nontrivial T → D.length + P.length + 2 < 2 ^ 32 →
      ((∀ Q, Foreign D.length c x Q → D.length + P.length + Q.length < 2 ^ 32 →
          clientPath D c P Q = serverPath D P Q) ↔
        P.Pairwise fun a b =>
          ¬ (a.typ = .remove ∧ b.typ = .remove ∧ a.pos = b.pos ∧ a.pos.toNat < x))) := by
  have hsuff : (P.Pairwise fun a b =>
        ¬ (a.typ = .remove ∧ b.typ = .remove ∧ a.pos = b.pos ∧ a.pos.toNat < x)) →
      ∀ Q, Foreign D.length c x Q → D.length + P.length + Q.length < 2 ^ 32 →
        clientPath D c P Q = serverPath D P Q := by
    intro h Q hQ hlen
    rw [clientPath_eq hP hQ hlen (pairwise_iff_once.mp h), serverPath_eq hc hP hQ hlen]
  refine ⟨hsuff, fun _ hroom => ⟨fun h => pairwise_iff_once.mpr fun p hp => ?_, hsuff⟩⟩
  by_contra hdouble
  obtain ⟨Q, hQ, hQlen, hne⟩ := exists_diverging hc hP hp (by omega) hroom
  exact hne (h Q hQ (by omega))

/-- A client that removes the first of three elements twice, for foreign operations up to the second
one. -/
theorem paths_agree_iff_double :
    ¬ ∀ Q, Foreign 3 1 1 Q → 3 + 2 + Q.length < 2 ^ 32 →
      clientPath [(1 : UInt32), 2, 3] 1 [.ofArgs .remove 0 0 1, .ofArgs .remove 0 0 1] Q =
        serverPath [1, 2, 3] [.ofArgs .remove 0 0 1, .ofArgs .remove 0 0 1] Q := by
  have hiff := (paths_agree_iff [(1 : UInt32), 2, 3] 1 (by decide)
    [.ofArgs .remove 0 0 1, .ofArgs .remove 0 0 1] (by unfold Own; decide) 1).2
    ⟨0, 1, by decide⟩ (by decide)
  exact fun h => absurd (hiff.mp h) (by decide)

/-- The paths of a client that removes the first of three elements twice, while another client
updates the last one. -/
theorem not_paths_agree :
    ¬ ∀ (D : List UInt32) (c : UInt32) (P Q : OpPack UInt32), c ≠ 0 → Own D.length c P →
      (∀ op ∈ Q, InRange D.length op ∧ op.cid ≠ 0 ∧ op.cid ≠ c) →
      D.length + P.length + Q.length < 2 ^ 32 → clientPath D c P Q = serverPath D P Q := by
  intro h
  have hc := h [1, 2, 3] 1 [.ofArgs .remove 0 0 1, .ofArgs .remove 0 0 1] [.ofArgs .update 2 9 2]
    (by decide) (by unfold Own; decide) (by decide) (by decide)
  exact absurd hc (by decide)

end OpTransform.Theory.TwoPaths
