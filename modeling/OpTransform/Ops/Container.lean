import OpTransform.Lib.Runs
import OpTransform.Lib.Simulation
import OpTransform.Ops.State

/-! # The state over its container

`State<C>` of `ops/state.hpp` once more, over a container `C` that is not a list. `Container` is
what the code calls of it, and a container is a sequence if it holds a list and every call does to
the list what its name says. Over such a container `apply` has the same effect as over the list, and
no call is ever made out of range (`IsSequence.apply`). -/

namespace OpTransform.Ops

open OpTransform.Lib.Runs OpTransform.Lib.Simulation

/-- What the code calls of a container `C` of elements `T`; a call may fail with an `F`. -/
structure Container (F C T : Type) where
  /-- the default constructor -/
  empty : C
  reserve : C → ℕ → Except F C
  size : C → ℕ
  /-- `operator[]` -/
  get : C → ℕ → Except F T
  /-- an assignment to `operator[]` -/
  set : C → ℕ → T → Except F C
  pushBack : C → T → Except F C
  /-- `insert(begin() + i, x)` -/
  insert : C → ℕ → T → Except F C
  /-- `erase(begin() + i)` -/
  erase : C → ℕ → Except F C
  /-- the copy constructor -/
  copy : C → Except F C

namespace Container

variable {F C T : Type}

/-- **The container is a sequence.** -/
structure IsSequence (K : Container F C T) (Holds : C → List T → Prop) : Prop where
  empty : Holds K.empty []
  reserve {c L} (n : ℕ) : Holds c L → ∃ c', K.reserve c n = .ok c' ∧ Holds c' L
  size {c L} : Holds c L → K.size c = L.length
  get {c L} {i : ℕ} (hi : i < L.length) : Holds c L → K.get c i = .ok L[i]
  set {c L} {i : ℕ} (hi : i < L.length) (x : T) :
    Holds c L → ∃ c', K.set c i x = .ok c' ∧ Holds c' (L.set i x)
  pushBack {c L} (x : T) : Holds c L → ∃ c', K.pushBack c x = .ok c' ∧ Holds c' (L ++ [x])
  insert {c L} {i : ℕ} (hi : i ≤ L.length) (x : T) :
    Holds c L → ∃ c', K.insert c i x = .ok c' ∧ Holds c' (L.insertIdx i x)
  erase {c L} {i : ℕ} (hi : i < L.length) :
    Holds c L → ∃ c', K.erase c i = .ok c' ∧ Holds c' (L.eraseIdx i)
  copy {c L} : Holds c L → ∃ c', K.copy c = .ok c' ∧ Holds c' L

variable (K : Container F C T)

/-- `size()` of `State`. -/
def stateSize (data : C) : UInt32 := UInt32.ofNat (K.size data)

/-- `apply(op)`. -/
def apply (data : C) (op : OpDescriptor T) : Except F C :=
  if op.typ = .nothing then .ok data
  else if op.typ = .insert ∧ op.posser ≥ K.stateSize data then K.pushBack data op.value
  else if K.stateSize data = 0 then .ok data
  else
    let pos1 := if op.posser ≥ K.stateSize data then K.stateSize data - 1 else op.posser
    match op.typ with
    | .insert => K.insert data pos1.toNat op.value
    | .remove => K.erase data pos1.toNat
    | .update => K.set data pos1.toNat op.value
    | _ => .ok data

/-- `apply(pack, op)`. -/
def applyPut (s : C × OpPack T) (op : OpDescriptor T) : Except F (C × OpPack T) := do
  let put := OpPack.transformAndPut s.2 op
  let data ← K.apply s.1 put.1
  return (data, put.2)

/-- `apply(pack)`. -/
def applyPack (data : C) (pack : OpPack T) : Except F C := do
  let s ← pack.foldlM K.applyPut (data, [])
  return s.1

/-- The body of the loop of `applyFromOthers`. -/
def applyOther (cid : UInt32) (s : C × OpPack T) (op : OpDescriptor T) : Except F (C × OpPack T) :=
  if cid = op.cid then .ok s else K.applyPut s op

/-- `applyFromOthers(cid, appliedPack, srcPack)`. -/
def applyFromOthers (data : C) (cid : UInt32) (appliedPack srcPack : OpPack T) :
    Except F (C × OpPack T) :=
  srcPack.foldlM (K.applyOther cid) (data, appliedPack)

/-- The calls that change a container. -/
inductive Edit (T : Type)
  | reserve (n : ℕ)
  | set (i : ℕ) (x : T)
  | pushBack (x : T)
  | insert (i : ℕ) (x : T)
  | erase (i : ℕ)
  /-- go on with a copy -/
  | copy

/-- A call. -/
def edit (c : C) : Edit T → Except F C
  | .reserve n => K.reserve c n
  | .set i x => K.set c i x
  | .pushBack x => K.pushBack c x
  | .insert i x => K.insert c i x
  | .erase i => K.erase c i
  | .copy => K.copy c

/-- What the call does to a list, if it is in range for it. -/
def editList (L : List T) : Edit T → Option (List T)
  | .reserve _ => some L
  | .set i x => if i < L.length then some (L.set i x) else none
  | .pushBack x => some (L ++ [x])
  | .insert i x => if i ≤ L.length then some (L.insertIdx i x) else none
  | .erase i => if i < L.length then some (L.eraseIdx i) else none
  | .copy => some L

/-- The loop of `StateEq`. -/
def stateEqFrom [DecidableEq T] (v1 v2 : C) : List ℕ → Except F Bool
  | [] => .ok true
  | i :: is => do
    let x ← K.get v1 i
    let y ← K.get v2 i
    if x ≠ y then return false else stateEqFrom v1 v2 is

/-- `StateEq`. -/
def stateEq [DecidableEq T] (v1 v2 : C) : Except F Bool :=
  if K.size v1 ≠ K.size v2 then .ok false else K.stateEqFrom v1 v2 (List.range (K.size v1))

/-! ### Sequences -/

section
variable {K} {H : C → List T → Prop} {c : C} {L : List T}

namespace IsSequence

theorem stateSize (h : K.IsSequence H) (hc : H c L) : K.stateSize c = State.size L := by
  rw [Container.stateSize, h.size hc, State.size]

theorem pushBacks (h : K.IsSequence H) (hc : H c L) (xs : List T) :
    ∃ c', xs.foldlM K.pushBack c = .ok c' ∧ H c' (L ++ xs) := by
  induction xs generalizing c L with
  | nil => exact ⟨c, rfl, (List.append_nil L).symm ▸ hc⟩
  | cons x xs ih =>
    obtain ⟨c₁, hc₁, hholds⟩ := h.pushBack x hc
    obtain ⟨c', hc', hholds'⟩ := ih hholds
    rw [List.append_assoc] at hholds'
    rw [List.foldlM_cons, hc₁]
    exact ⟨c', hc', hholds'⟩

theorem edit (h : K.IsSequence H) (hc : H c L) {e : Edit T} {L' : List T}
    (he : editList L e = some L') : ∃ c', K.edit c e = .ok c' ∧ H c' L' := by
  cases e with
  | reserve n =>
    obtain rfl := Option.some.inj he
    exact h.reserve n hc
  | copy =>
    obtain rfl := Option.some.inj he
    exact h.copy hc
  | pushBack x =>
    obtain rfl := Option.some.inj he
    exact h.pushBack x hc
  | set i x =>
    obtain ⟨hi, hL⟩ := Option.ite_none_right_eq_some.mp he
    obtain rfl := Option.some.inj hL
    exact h.set hi x hc
  | insert i x =>
    obtain ⟨hi, hL⟩ := Option.ite_none_right_eq_some.mp he
    obtain rfl := Option.some.inj hL
    exact h.insert hi x hc
  | erase i =>
    obtain ⟨hi, hL⟩ := Option.ite_none_right_eq_some.mp he
    obtain rfl := Option.some.inj hL
    exact h.erase hi hc

theorem edits (h : K.IsSequence H) (hc : H c L) {es : List (Edit T)} {L' : List T}
    (hes : es.foldlM editList L = some L') : ∃ c', es.foldlM K.edit c = .ok c' ∧ H c' L' := by
  induction es generalizing c L with
  | nil =>
    obtain rfl := Option.some.inj hes
    exact ⟨c, rfl, hc⟩
  | cons e es ih =>
    rw [List.foldlM_cons] at hes
    obtain ⟨L₁, he, hrest⟩ := Option.bind_eq_some_iff.mp hes
    obtain ⟨c₁, hc₁, hholds⟩ := h.edit hc he
    rw [List.foldlM_cons, hc₁]
    exact ih hholds hrest

/-- **`apply` has the effect it has on the list**, whatever the operation. -/
theorem apply (h : K.IsSequence H) (hc : H c L) (op : OpDescriptor T) :
    ∃ c', K.apply c op = .ok c' ∧ H c' (State.apply L op) := by
  have hsize : (State.size L).toNat ≤ L.length := by
    rw [State.size, UInt32.toNat_ofNat']
    exact Nat.mod_le _ _
  rw [Container.apply, State.apply, h.stateSize hc]
  by_cases hnothing : op.typ = .nothing
  · rw [if_pos hnothing, if_pos hnothing]
    exact ⟨c, rfl, hc⟩
  rw [if_neg hnothing, if_neg hnothing]
  by_cases hend : op.typ = .insert ∧ op.posser ≥ State.size L
  · rw [if_pos hend, if_pos hend]
    exact h.pushBack op.value hc
  rw [if_neg hend, if_neg hend]
  by_cases h0 : State.size L = 0
  · rw [if_pos h0, if_pos h0]
    exact ⟨c, rfl, hc⟩
  rw [if_neg h0, if_neg h0]
  -- the position is inside the document
  generalize hpos : (if op.posser ≥ State.size L then State.size L - 1 else op.posser) = pos
  have hpos0 : 0 < (State.size L).toNat :=
    Nat.pos_of_ne_zero fun hz => h0 (UInt32.toNat_inj.mp hz)
  have hlt : pos.toNat < L.length := by
    refine Nat.lt_of_lt_of_le ?_ hsize
    rw [← hpos]
    split_ifs with hge
    · have hone : (1 : UInt32) ≤ State.size L := UInt32.le_iff_toNat_le.mpr hpos0
      rw [UInt32.toNat_sub_of_le _ _ hone]
      exact Nat.sub_lt hpos0 Nat.one_pos
    · exact UInt32.lt_iff_toNat_lt.mp (UInt32.not_le.mp hge)
  cases op.typ with
  | nothing => exact ⟨c, rfl, hc⟩
  | thelast => exact ⟨c, rfl, hc⟩
  | insert => exact h.insert (Nat.le_of_lt hlt) op.value hc
  | remove => exact h.erase hlt hc
  | update =>
    have hmodify : L.modify pos.toNat (fun s => Slot.assign s op) = L.set pos.toNat op.value := by
      refine List.ext_getElem? fun i => ?_
      rw [List.getElem?_modify, List.getElem?_set]
      by_cases hi : pos.toNat = i
      · subst hi
        simp [hlt, Slot.assign]
      · simp [hi]
    show ∃ c', K.set c pos.toNat op.value = .ok c' ∧ H c' (L.modify pos.toNat _)
    rw [hmodify]
    exact h.set hlt op.value hc

theorem applyPut (h : K.IsSequence H) {s : C × OpPack T} {t : List T × OpPack T}
    (hst : H s.1 t.1 ∧ s.2 = t.2) (op : OpDescriptor T) :
    ∃ s', K.applyPut s op = .ok s' ∧ H s'.1 (State.applyPut t.1 t.2 op).1 ∧
      s'.2 = (State.applyPut t.1 t.2 op).2 := by
  obtain ⟨c', hc', hholds⟩ := h.apply hst.1 (OpPack.transformAndPut s.2 op).1
  refine ⟨(c', (OpPack.transformAndPut s.2 op).2), ?_, ?_⟩
  · rw [Container.applyPut, hc']
    rfl
  · rw [hst.2] at hholds ⊢
    exact ⟨hholds, rfl⟩

theorem applyPack (h : K.IsSequence H) (hc : H c L) (pack : OpPack T) :
    ∃ c', K.applyPack c pack = .ok c' ∧ H c' (State.applyPack L pack) := by
  let R : C × OpPack T → List T × OpPack T → Prop := fun s t => H s.1 t.1 ∧ s.2 = t.2
  have h0 : R (c, []) (L, []) := ⟨hc, rfl⟩
  have hstep : ∀ s t op, R s t →
      ∃ s', K.applyPut s op = .ok s' ∧ R s' (State.applyPut t.1 t.2 op) :=
    fun s t op hst => h.applyPut hst op
  obtain ⟨s, hs, hR⟩ := exists_foldlM_eq_ok hstep pack h0
  refine ⟨s.1, ?_, hR.1⟩
  rw [Container.applyPack, hs]
  rfl

theorem applyFromOthers (h : K.IsSequence H) (hc : H c L) (cid : UInt32)
    (appliedPack srcPack : OpPack T) :
    ∃ s, K.applyFromOthers c cid appliedPack srcPack = .ok s ∧
      H s.1 (State.applyFromOthers L cid appliedPack srcPack).1 := by
  let R : C × OpPack T → List T × OpPack T → Prop := fun s t => H s.1 t.1 ∧ s.2 = t.2
  have h0 : R (c, appliedPack) (L, appliedPack) := ⟨hc, rfl⟩
  have hstep : ∀ s t op, R s t → ∃ s', K.applyOther cid s op = .ok s' ∧
      R s' (if cid = op.cid then t else State.applyPut t.1 t.2 op) := by
    intro s t op hst
    rw [applyOther]
    split_ifs with hown
    · exact ⟨s, rfl, hst⟩
    · exact h.applyPut hst op
  obtain ⟨s, hs, hR⟩ := exists_foldlM_eq_ok hstep srcPack h0
  exact ⟨s, hs, hR.1⟩

theorem stateEq [DecidableEq T] (h : K.IsSequence H) {c' : C} {L' : List T} (hc : H c L)
    (hc' : H c' L') : K.stateEq c c' = .ok (decide (L = L')) := by
  rw [Container.stateEq, h.size hc, h.size hc']
  by_cases hlen : L.length = L'.length
  · rw [if_neg (not_not.mpr hlen)]
    -- the elements before `k` are equal
    have hloop : ∀ g k, k + g = L.length → L.take k = L'.take k →
        K.stateEqFrom c c' (List.range' k g) = .ok (decide (L = L')) := by
      intro g
      induction g with
      | zero =>
        intro k hk htake
        have heq : L = L' := by
          rwa [List.take_of_length_le (by omega), List.take_of_length_le (by omega)] at htake
        rw [List.range'_zero, stateEqFrom, decide_eq_true heq]
      | succ g ih =>
        intro k hk htake
        have hkL : k < L.length := by omega
        have hkL' : k < L'.length := by omega
        rw [List.range'_succ, stateEqFrom, h.get hkL hc, h.get hkL' hc']
        show (if L[k] ≠ L'[k] then Except.ok false else _) = _
        by_cases hx : L[k] = L'[k]
        · rw [if_neg (not_not.mpr hx)]
          refine ih (k + 1) (by omega) ?_
          rw [List.take_succ_eq_append_getElem hkL, List.take_succ_eq_append_getElem hkL', htake,
            hx]
        · rw [if_pos hx]
          have hne : L ≠ L' := fun heq => hx (by simp only [heq])
          rw [decide_eq_false hne]
    rw [List.range_eq_range']
    exact hloop L.length 0 (Nat.zero_add _) rfl
  · rw [if_pos hlen, decide_eq_false fun heq => hlen (by rw [heq])]

end IsSequence

/-! ### What the calls keep -/

variable (K) in
/-- The calls of the state and the copies keep a property of containers. -/
structure Keeps (P : C → Prop) : Prop where
  set {c c'} {i : ℕ} {x : T} : P c → K.set c i x = .ok c' → P c'
  pushBack {c c'} {x : T} : P c → K.pushBack c x = .ok c' → P c'
  insert {c c'} {i : ℕ} {x : T} : P c → K.insert c i x = .ok c' → P c'
  erase {c c'} {i : ℕ} : P c → K.erase c i = .ok c' → P c'
  copy {c c'} : P c → K.copy c = .ok c' → P c'

namespace Keeps

variable {P : C → Prop} {c' : C}

theorem apply (h : K.Keeps P) (hc : P c) {op : OpDescriptor T} (he : K.apply c op = .ok c') :
    P c' := by
  rw [Container.apply] at he
  generalize (if op.posser ≥ K.stateSize c then K.stateSize c - 1 else op.posser) = pos at he
  split_ifs at he
  · exact Except.ok.inj he ▸ hc
  · exact h.pushBack hc he
  · exact Except.ok.inj he ▸ hc
  · cases ht : op.typ with
    | nothing => rw [ht] at he; exact Except.ok.inj he ▸ hc
    | thelast => rw [ht] at he; exact Except.ok.inj he ▸ hc
    | insert => rw [ht] at he; exact h.insert hc he
    | remove => rw [ht] at he; exact h.erase hc he
    | update => rw [ht] at he; exact h.set hc he

theorem applyPut (h : K.Keeps P) {s s' : C × OpPack T} (hs : P s.1) {op : OpDescriptor T}
    (he : K.applyPut s op = .ok s') : P s'.1 := by
  obtain ⟨d, hd, he⟩ := exists_of_bind_eq_ok he
  obtain rfl := Except.ok.inj he
  exact h.apply hs hd

theorem applyPack (h : K.Keeps P) (hc : P c) {pack : OpPack T} (he : K.applyPack c pack = .ok c') :
    P c' := by
  obtain ⟨s, hs, he⟩ := exists_of_bind_eq_ok he
  obtain rfl := Except.ok.inj he
  exact foldlM_invariant (I := fun s => P s.1) hs hc fun _ _ _ hs he => h.applyPut hs he

theorem applyFromOthers (h : K.Keeps P) (hc : P c) {cid : UInt32} {appliedPack srcPack : OpPack T}
    (he : (K.applyFromOthers c cid appliedPack srcPack).map (·.1) = .ok c') : P c' := by
  cases hs : K.applyFromOthers c cid appliedPack srcPack with
  | error f => rw [hs] at he; cases he
  | ok s =>
    rw [hs] at he
    obtain rfl := Except.ok.inj he
    refine foldlM_invariant (I := fun s => P s.1) hs hc fun s op t hP he => ?_
    rw [applyOther] at he
    split_ifs at he
    · exact Except.ok.inj he ▸ hP
    · exact h.applyPut hP he

end Keeps

end

end Container

end OpTransform.Ops
