import OpTransform.Lib.Ring

/-! # The deque of fixed capacity

`FixedDeque<T>` of `igush/fixed_deque.h`, as far as `IgushArray` needs it: a ring of cells, one more
than the capacity. Iterators are numbers of cells. A cell is `none` as long as nothing has been
constructed in it; `_move` constructs or assigns, which is a write in both cases.

A deque `Holds` a list of elements, and every operation does to the deque what its name says of the
list. No operation reads a raw cell. -/

namespace OpTransform.Igush

open OpTransform.Lib.Ring

/-- What an operation can fail with. -/
inductive Fault
  /-- `std::out_of_range`, with its text -/
  | outOfRange (what : String)
  /-- a read of a raw cell, or outside the storage -/
  | rawMemory
  /-- a loop that does not end -/
  | loop
  deriving DecidableEq

/-- `FixedDeque<T>`: the cells from `_storage_begin` to `_storage_end`, and the cells `_begin` and
`_end`. -/
structure FixedDeque (T : Type) where
  storage : List (Option T)
  beginPos : ℕ
  endPos : ℕ
  begin_lt : beginPos < storage.length
  end_lt : endPos < storage.length

variable {T : Type}

namespace FixedDeque

/-- `FixedDeque(n)`. -/
def new (n : ℕ) : FixedDeque T where
  storage := List.replicate (n + 1) none
  beginPos := 0
  endPos := 0
  begin_lt := by simp
  end_lt := by simp

/-- `empty`. -/
def empty (d : FixedDeque T) : Bool := d.beginPos = d.endPos

/-- `size`. -/
def size (d : FixedDeque T) : ℕ :=
  if d.endPos < d.beginPos then d.endPos + d.storage.length - d.beginPos else d.endPos - d.beginPos

/-- `_max_size`. -/
def maxSize (d : FixedDeque T) : ℕ := d.storage.length - 1

/-! ### Cells and iterators -/

/-- The contents of a cell. -/
def read (d : FixedDeque T) (p : ℕ) : Except Fault T :=
  match d.storage[p]? with
  | some (some x) => .ok x
  | _ => .error .rawMemory

/-- After a write to a cell. -/
def write (d : FixedDeque T) (p : ℕ) (x : T) : FixedDeque T where
  storage := d.storage.set p (some x)
  beginPos := d.beginPos
  endPos := d.endPos
  begin_lt := by rw [List.length_set]; exact d.begin_lt
  end_lt := by rw [List.length_set]; exact d.end_lt

/-- `operator+`. -/
def plus (d : FixedDeque T) (p n : ℕ) : ℕ :=
  if p + n > d.storage.length - 1 then p + n - d.storage.length else p + n

/-- `operator-` of a number. -/
def minus (d : FixedDeque T) (p n : ℕ) : ℕ :=
  if p < n then p + d.storage.length - n else p - n

/-- `_special_lower`: the first cell is in the part up to the end of the storage, and the second one
in the part from its beginning on. -/
def specialLower (d : FixedDeque T) (p q : ℕ) : Bool :=
  p ≥ d.beginPos && d.beginPos > d.endPos && d.endPos ≥ q

/-- `operator-` of an iterator. -/
def distance (d : FixedDeque T) (p q : ℕ) : ℤ :=
  let res : ℤ := p - q
  if d.specialLower p q then res - d.storage.length
  else if d.specialLower q p then res + d.storage.length
  else res

/-- `operator<`. -/
def less (d : FixedDeque T) (p q : ℕ) : Bool :=
  if d.specialLower p q then true
  else if d.specialLower q p then false
  else p < q

/-- `operator>`. -/
def greater (d : FixedDeque T) (p q : ℕ) : Bool :=
  if d.specialLower p q then false
  else if d.specialLower q p then true
  else p > q

/-! ### Operations -/

/-- `operator[]`. -/
def get (d : FixedDeque T) (n : ℕ) : Except Fault T := d.read (d.plus d.beginPos n)

/-- `at`. -/
def getChecked (d : FixedDeque T) (n : ℕ) : Except Fault T :=
  if n ≥ d.size then .error (.outOfRange "at(): The size has been exceeded") else d.get n

/-- An assignment to `operator[]`. -/
def set (d : FixedDeque T) (n : ℕ) (x : T) : FixedDeque T := d.write (d.plus d.beginPos n) x

/-- `front`. -/
def front (d : FixedDeque T) : Except Fault T := d.read d.beginPos

/-- `back`. -/
def back (d : FixedDeque T) : Except Fault T := d.read (d.minus d.endPos 1)

/-- `_end` goes to the next cell. -/
def incEnd (d : FixedDeque T) : FixedDeque T where
  storage := d.storage
  beginPos := d.beginPos
  endPos := next d.storage.length d.endPos
  begin_lt := d.begin_lt
  end_lt := next_lt d.end_lt

/-- `_end` goes to the cell before, which is destroyed. -/
def decEnd (d : FixedDeque T) : FixedDeque T where
  storage := d.storage.set (prev d.storage.length d.endPos) none
  beginPos := d.beginPos
  endPos := prev d.storage.length d.endPos
  begin_lt := by rw [List.length_set]; exact d.begin_lt
  end_lt := by rw [List.length_set]; exact prev_lt d.end_lt

/-- `push_back`. -/
def pushBack (d : FixedDeque T) (val : T) : Except Fault (FixedDeque T) :=
  if d.size = d.maxSize then .error (.outOfRange "push_back(): The size has been exceeded")
  else .ok (d.write d.endPos val).incEnd

/-- `pop_back`. -/
def popBack (d : FixedDeque T) : Except Fault (FixedDeque T) :=
  if d.beginPos = d.endPos then .error (.outOfRange "pop_back(): The size has been exceeded")
  else .ok d.decEnd

/-- `push_front`. -/
def pushFront (d : FixedDeque T) (val : T) : Except Fault (FixedDeque T) :=
  if d.size = d.maxSize then .error (.outOfRange "push_front(): Container is empty")
  else .ok
    { storage := d.storage.set (prev d.storage.length d.beginPos) (some val)
      beginPos := prev d.storage.length d.beginPos
      endPos := d.endPos
      begin_lt := by rw [List.length_set]; exact prev_lt d.begin_lt
      end_lt := by rw [List.length_set]; exact d.end_lt }

/-- `pop_front`. -/
def popFront (d : FixedDeque T) : Except Fault (FixedDeque T) :=
  if d.beginPos = d.endPos then .error (.outOfRange "pop_front(): Container is empty")
  else .ok
    { storage := d.storage.set d.beginPos none
      beginPos := next d.storage.length d.beginPos
      endPos := d.endPos
      begin_lt := by rw [List.length_set]; exact next_lt d.begin_lt
      end_lt := by rw [List.length_set]; exact d.end_lt }

/-- The loop of `insert`: `while (from != it) _move(--to, *--from)`. It visits every cell at most
once. -/
def insertLoop (it : ℕ) : ℕ → FixedDeque T → ℕ → ℕ → Except Fault (FixedDeque T)
  | 0, _, _, _ => .error .loop
  | fuel + 1, d, dst, src =>
    if src = it then .ok d
    else do
      let x ← d.read (d.minus src 1)
      insertLoop it fuel (d.write (d.minus dst 1) x) (d.minus dst 1) (d.minus src 1)

/-- `insert`. -/
def insert (d : FixedDeque T) (it : ℕ) (val : T) : Except Fault (FixedDeque T) :=
  if d.size + 1 > d.maxSize then .error (.outOfRange "insert(): The size has been exceeded")
  else do
    let d ← insertLoop it d.storage.length d (d.plus d.endPos 1) d.endPos
    return (d.write it val).incEnd

/-- The loop of `erase`: `while (from != end()) *to++ = *from++`. -/
def eraseLoop : ℕ → FixedDeque T → ℕ → ℕ → Except Fault (FixedDeque T)
  | 0, _, _, _ => .error .loop
  | fuel + 1, d, dst, src =>
    if src = d.endPos then .ok d
    else do
      let x ← d.read src
      eraseLoop fuel (d.write dst x) (d.plus dst 1) (d.plus src 1)

/-- `erase`. -/
def erase (d : FixedDeque T) (it : ℕ) : Except Fault (FixedDeque T) :=
  if d.empty then .error (.outOfRange "erase(): Container is empty")
  else do
    let d ← eraseLoop d.storage.length d it (d.plus it 1)
    return d.decEnd

/-- `clear`. The cells of the elements are destroyed. -/
def clear (d : FixedDeque T) : FixedDeque T where
  storage := d.storage.mapIdx fun p c =>
    if d.beginPos > d.endPos then if d.beginPos ≤ p ∨ p < d.endPos then none else c
    else if d.beginPos ≤ p ∧ p < d.endPos then none else c
  beginPos := 0
  endPos := 0
  begin_lt := by rw [List.length_mapIdx]; exact Nat.zero_lt_of_lt d.begin_lt
  end_lt := by rw [List.length_mapIdx]; exact Nat.zero_lt_of_lt d.begin_lt

/-- The loop of `resize` that constructs elements. -/
def constructLoop (value : T) : ℕ → List (Option T) → ℕ → List (Option T)
  | 0, storage, _ => storage
  | k + 1, storage, it =>
    constructLoop value k (storage.set it (some value)) (next storage.length it)

/-- The loop of `resize` that destroys elements. -/
def destroyLoop : ℕ → List (Option T) → ℕ → List (Option T)
  | 0, storage, _ => storage
  | k + 1, storage, it => destroyLoop k (storage.set (prev storage.length it) none)
      (prev storage.length it)

theorem length_constructLoop (value : T) (k : ℕ) (storage : List (Option T)) (it : ℕ) :
    (constructLoop value k storage it).length = storage.length := by
  induction k generalizing storage it with
  | zero => rfl
  | succ k ih => rw [constructLoop, ih, List.length_set]

theorem length_destroyLoop (k : ℕ) (storage : List (Option T)) (it : ℕ) :
    (destroyLoop k storage it).length = storage.length := by
  induction k generalizing storage it with
  | zero => rfl
  | succ k ih => rw [destroyLoop, ih, List.length_set]

theorem plus_lt (d : FixedDeque T) {p n : ℕ} (hp : p < d.storage.length) (hn : n ≤ d.maxSize) :
    d.plus p n < d.storage.length := by
  unfold plus maxSize at *
  split_ifs <;> omega

theorem minus_lt (d : FixedDeque T) {p : ℕ} (hp : p < d.storage.length) (n : ℕ) :
    d.minus p n < d.storage.length := by
  unfold minus
  split_ifs <;> omega

/-- `resize`. -/
def resize (d : FixedDeque T) (n : ℕ) (value : T) : Except Fault (FixedDeque T) :=
  if n > d.size then
    if h : n > d.maxSize then .error (.outOfRange "resize(): The size has been exceeded")
    else .ok
      { storage := constructLoop value (n - d.size) d.storage d.endPos
        beginPos := d.beginPos
        endPos := d.plus d.endPos (n - d.size)
        begin_lt := by rw [length_constructLoop]; exact d.begin_lt
        end_lt := by rw [length_constructLoop]; exact d.plus_lt d.end_lt (by omega) }
  else if n < d.size then .ok
    { storage := destroyLoop (d.size - n) d.storage d.endPos
      beginPos := d.beginPos
      endPos := d.minus d.endPos (d.size - n)
      begin_lt := by rw [length_destroyLoop]; exact d.begin_lt
      end_lt := by rw [length_destroyLoop]; exact d.minus_lt d.end_lt _ }
  else .ok d

/-! ### What a deque holds -/

/-- **A deque of capacity `n` holds the list `L`.** -/
structure Holds (n : ℕ) (d : FixedDeque T) (L : List T) : Prop where
  cells : d.storage.length = n + 1
  length_le : L.length ≤ n
  endPos : d.endPos = slot (n + 1) d.beginPos L.length
  contents : ∀ i < L.length, d.storage[slot (n + 1) d.beginPos i]? = some L[i]?

theorem holds_new (n : ℕ) : Holds n (new n : FixedDeque T) [] :=
  ⟨by simp [new], Nat.zero_le n, by simp [new, slot], nofun⟩

section
variable {n : ℕ} {d : FixedDeque T} {L : List T} {i k : ℕ} {x : T}

theorem Holds.begin_lt (h : Holds n d L) : d.beginPos < n + 1 := h.cells ▸ d.begin_lt

theorem Holds.size_eq (h : Holds n d L) : d.size = L.length := by
  have hb := h.begin_lt
  have hlen := h.length_le
  rw [size, h.endPos, h.cells, slot_eq_ite hb (by omega)]
  split_ifs <;> omega

theorem Holds.distance_slot (h : Holds n d L) {j : ℕ} (hi : i ≤ L.length) (hj : j ≤ L.length) :
    d.distance (slot (n + 1) d.beginPos i) (slot (n + 1) d.beginPos j) = (i : ℤ) - j := by
  have hb := h.begin_lt
  have hlen := h.length_le
  have hend := h.endPos
  have hcells := h.cells
  rw [slot_eq_ite hb (by omega)] at hend
  rw [slot_eq_ite hb (by omega), slot_eq_ite hb (by omega)]
  simp only [distance, specialLower, ge_iff_le, gt_iff_lt, Bool.and_eq_true, decide_eq_true_eq]
  split_ifs at hend ⊢ <;> omega

theorem Holds.less_slot (h : Holds n d L) {j : ℕ} (hi : i ≤ L.length) (hj : j ≤ L.length) :
    d.less (slot (n + 1) d.beginPos i) (slot (n + 1) d.beginPos j) = decide (i < j) := by
  have hb := h.begin_lt
  have hlen := h.length_le
  have hend := h.endPos
  have hcells := h.cells
  rw [slot_eq_ite hb (by omega)] at hend
  rw [slot_eq_ite hb (by omega), slot_eq_ite hb (by omega), Bool.eq_iff_iff, decide_eq_true_eq]
  simp only [less, specialLower, ge_iff_le, gt_iff_lt, Bool.and_eq_true, decide_eq_true_eq]
  split_ifs at hend ⊢ <;> simp <;> omega

theorem Holds.greater_slot (h : Holds n d L) {j : ℕ} (hi : i ≤ L.length) (hj : j ≤ L.length) :
    d.greater (slot (n + 1) d.beginPos i) (slot (n + 1) d.beginPos j) = decide (j < i) := by
  have hb := h.begin_lt
  have hlen := h.length_le
  have hend := h.endPos
  have hcells := h.cells
  rw [slot_eq_ite hb (by omega)] at hend
  rw [slot_eq_ite hb (by omega), slot_eq_ite hb (by omega), Bool.eq_iff_iff, decide_eq_true_eq]
  simp only [greater, specialLower, ge_iff_le, gt_iff_lt, Bool.and_eq_true, decide_eq_true_eq]
  split_ifs at hend ⊢ <;> simp <;> omega

theorem Holds.maxSize_eq (h : Holds n d L) : d.maxSize = n := by
  rw [maxSize, h.cells, Nat.add_sub_cancel]

theorem Holds.read_slot (h : Holds n d L) (hx : L[i]? = some x) :
    d.read (slot (n + 1) d.beginPos i) = .ok x := by
  obtain ⟨hi, -⟩ := List.getElem?_eq_some_iff.mp hx
  rw [read, h.contents i hi, hx]

theorem plus_eq {p : ℕ} (hcells : d.storage.length = n + 1) (hp : p < n + 1) (hi : i ≤ n + 1) :
    d.plus p i = slot (n + 1) p i := by
  rw [plus, hcells, slot_eq_ite hp hi]
  split_ifs <;> omega

theorem minus_slot (hcells : d.storage.length = n + 1) {p : ℕ} (hp : p < n + 1) (i : ℕ) :
    d.minus (slot (n + 1) p (i + 1)) 1 = slot (n + 1) p i := by
  have hprev := prev_slot hp i
  unfold prev at hprev
  rw [minus, hcells, ← hprev]
  split_ifs <;> omega

theorem minus_slot_sub (hcells : d.storage.length = n + 1) {p : ℕ} (hp : p < n + 1) (hki : k ≤ i)
    (hi : i ≤ n) : d.minus (slot (n + 1) p i) k = slot (n + 1) p (i - k) := by
  rw [minus, hcells, slot_eq_ite hp (by omega), slot_eq_ite hp (by omega)]
  split_ifs <;> omega

theorem Holds.get (h : Holds n d L) (hx : L[i]? = some x) : d.get i = .ok x := by
  have hlen := h.length_le
  obtain ⟨hi, -⟩ := List.getElem?_eq_some_iff.mp hx
  rw [FixedDeque.get, plus_eq h.cells h.begin_lt (by omega), h.read_slot hx]

theorem Holds.set (h : Holds n d L) (hi : i < L.length) (x : T) :
    Holds n (d.set i x) (L.set i x) where
  cells := by simp [FixedDeque.set, write, h.cells]
  length_le := by simpa using h.length_le
  endPos := by rw [List.length_set]; exact h.endPos
  contents j hj := by
    have hlen := h.length_le
    rw [List.length_set] at hj
    show (d.storage.set (d.plus d.beginPos i) (some x))[slot (n + 1) d.beginPos j]? = _
    rw [plus_eq h.cells h.begin_lt (by omega),
      getElem?_set_slot h.cells h.begin_lt (by omega) (by omega), List.getElem?_set,
      h.contents j hj]
    by_cases hij : i = j
    · subst hij; simp [hi]
    · simp [hij, Ne.symm hij]

/-! ### Both ends -/

theorem Holds.front (h : Holds n d (x :: L)) : d.front = .ok x := by
  have hread := h.read_slot (show (x :: L)[0]? = some x from rfl)
  rwa [slot_zero h.begin_lt] at hread

theorem Holds.back (h : Holds n d (L ++ [x])) : d.back = .ok x := by
  have hend := h.endPos
  rw [List.length_append, List.length_singleton] at hend
  rw [FixedDeque.back, hend, minus_slot h.cells h.begin_lt]
  exact h.read_slot (by simp)

theorem Holds.pushBack (h : Holds n d L) (hlt : L.length < n) (x : T) :
    ∃ d', d.pushBack x = .ok d' ∧ Holds n d' (L ++ [x]) := by
  refine ⟨(d.write d.endPos x).incEnd, ?_, ?_, ?_, ?_, fun i hi => ?_⟩
  · rw [FixedDeque.pushBack, h.size_eq, h.maxSize_eq, if_neg (by omega)]
  · simp [incEnd, write, h.cells]
  · rw [List.length_append, List.length_singleton]
    exact hlt
  · show next (d.storage.set _ _).length d.endPos = slot (n + 1) d.beginPos _
    rw [List.length_set, h.cells, h.endPos, next_slot h.begin_lt, List.length_append,
      List.length_singleton]
  · show (d.storage.set d.endPos (some x))[slot (n + 1) d.beginPos i]? = _
    rw [List.length_append, List.length_singleton] at hi
    rw [h.endPos, getElem?_set_slot h.cells h.begin_lt (by omega) (by omega)]
    split_ifs with hij
    · subst hij; simp
    · rw [h.contents i (by omega), List.getElem?_append_left (by omega)]

theorem Holds.decEnd (h : Holds n d (L ++ [x])) : Holds n d.decEnd L := by
  have hlen := h.length_le
  have hend := h.endPos
  rw [List.length_append, List.length_singleton] at hlen hend
  have hprev : prev d.storage.length d.endPos = slot (n + 1) d.beginPos L.length := by
    rw [hend, h.cells, prev_slot h.begin_lt]
  refine ⟨by simp [FixedDeque.decEnd, h.cells], by omega, hprev, fun i hi => ?_⟩
  show (d.storage.set (prev d.storage.length d.endPos) none)[slot (n + 1) d.beginPos i]? = _
  rw [hprev, getElem?_set_slot h.cells h.begin_lt (by omega) (by omega), if_neg (by omega),
    h.contents i (by simp; omega), List.getElem?_append_left hi]

theorem Holds.begin_ne_end (h : Holds n d L) (hL : L ≠ []) : d.beginPos ≠ d.endPos := by
  have hpos := List.length_pos_iff.mpr hL
  have hlen := h.length_le
  intro heq
  rw [h.endPos] at heq
  have h0 := heq
  rw [← slot_zero h.begin_lt, slot_slot, Nat.zero_add, slot_inj (by omega) (by omega)] at h0
  omega

theorem Holds.empty_iff (h : Holds n d L) : d.empty = true ↔ L = [] := by
  rw [FixedDeque.empty, decide_eq_true_eq]
  refine ⟨fun heq => by_contra fun hL => h.begin_ne_end hL heq, ?_⟩
  rintro rfl
  have hend := h.endPos
  rw [List.length_nil, slot_zero h.begin_lt] at hend
  exact hend.symm

theorem Holds.popBack (h : Holds n d (L ++ [x])) : d.popBack = .ok d.decEnd := by
  rw [FixedDeque.popBack, if_neg (h.begin_ne_end (by simp))]

theorem Holds.pushFront (h : Holds n d L) (hlt : L.length < n) (x : T) :
    ∃ d', d.pushFront x = .ok d' ∧ Holds n d' (x :: L) := by
  have hprev : prev d.storage.length d.beginPos = prev (n + 1) d.beginPos := by rw [h.cells]
  have hp := prev_lt h.begin_lt
  rw [FixedDeque.pushFront, h.size_eq, h.maxSize_eq, if_neg (by omega)]
  refine ⟨_, rfl, ?_, hlt, ?_, fun i hi => ?_⟩
  · simp [h.cells]
  · show d.endPos = slot (n + 1) (prev d.storage.length d.beginPos) (L.length + 1)
    rw [hprev, slot_prev h.begin_lt, h.endPos]
  · show (d.storage.set (prev d.storage.length d.beginPos) (some x))[slot (n + 1)
      (prev d.storage.length d.beginPos) i]? = _
    rw [List.length_cons] at hi
    rw [hprev]
    cases i with
    | zero => rw [slot_zero hp, List.getElem?_set_self (by rw [h.cells]; exact hp)]; rfl
    | succ i =>
      have h0 : slot (n + 1) (prev (n + 1) d.beginPos) 0 = prev (n + 1) d.beginPos := slot_zero hp
      nth_rewrite 1 [← h0]
      rw [getElem?_set_slot h.cells hp (by omega) (by omega), if_neg (by omega),
        slot_prev h.begin_lt, h.contents i (by omega), List.getElem?_cons_succ]

theorem Holds.popFront (h : Holds n d (x :: L)) :
    ∃ d', d.popFront = .ok d' ∧ Holds n d' L := by
  have hlen := h.length_le
  rw [List.length_cons] at hlen
  have hnext : next d.storage.length d.beginPos = next (n + 1) d.beginPos := by rw [h.cells]
  rw [FixedDeque.popFront, if_neg (h.begin_ne_end (by simp))]
  refine ⟨_, rfl, ?_, by omega, ?_, fun i hi => ?_⟩
  · simp [h.cells]
  · show d.endPos = slot (n + 1) (next d.storage.length d.beginPos) L.length
    rw [hnext, slot_next h.begin_lt, h.endPos, List.length_cons]
  · show (d.storage.set d.beginPos none)[slot (n + 1) (next d.storage.length d.beginPos) i]? = _
    have h0 : slot (n + 1) d.beginPos 0 = d.beginPos := slot_zero h.begin_lt
    rw [hnext, slot_next h.begin_lt]
    nth_rewrite 1 [← h0]
    rw [getElem?_set_slot h.cells h.begin_lt (by omega) (by omega), if_neg (by omega),
      h.contents (i + 1) (by simpa using hi), List.getElem?_cons_succ]

/-! ### In the middle -/

/-- What the loops of `insert` and `erase` leave alone. -/
structure SameEnds (d d' : FixedDeque T) : Prop where
  cells : d'.storage.length = d.storage.length
  beginPos : d'.beginPos = d.beginPos
  endPos : d'.endPos = d.endPos

theorem SameEnds.refl (d : FixedDeque T) : SameEnds d d := ⟨rfl, rfl, rfl⟩

theorem SameEnds.trans {d' d'' : FixedDeque T} (h : SameEnds d d') (h' : SameEnds d' d'') :
    SameEnds d d'' :=
  ⟨h'.cells.trans h.cells, h'.beginPos.trans h.beginPos, h'.endPos.trans h.endPos⟩

theorem sameEnds_write (d : FixedDeque T) (p : ℕ) (x : T) : SameEnds d (d.write p x) :=
  ⟨List.length_set, rfl, rfl⟩

theorem write_slot {p j : ℕ} (hcells : d.storage.length = n + 1) (hp : p < n + 1) (hi : i ≤ n)
    (hj : j ≤ n) : (d.write (slot (n + 1) p i) x).storage[slot (n + 1) p j]? =
      if j = i then some (some x) else d.storage[slot (n + 1) p j]? :=
  getElem?_set_slot hcells hp (by omega) (by omega)

/-- The loop of `insert` moves the elements from `k` up to `k + g` one cell on. -/
theorem insertLoop_eq {b g : ℕ} (fuel : ℕ) (hcells : d.storage.length = n + 1) (hb : b < n + 1)
    (hkg : k + g < n) (hfuel : g < fuel)
    (hread : ∀ j, k ≤ j → j < k + g → ∃ x, d.storage[slot (n + 1) b j]? = some (some x)) :
    ∃ d', insertLoop (slot (n + 1) b k) fuel d (slot (n + 1) b (k + g + 1))
        (slot (n + 1) b (k + g)) = .ok d' ∧ SameEnds d d' ∧
      ∀ j ≤ n, d'.storage[slot (n + 1) b j]? =
        if k < j ∧ j ≤ k + g then d.storage[slot (n + 1) b (j - 1)]?
        else d.storage[slot (n + 1) b j]? := by
  induction g generalizing d fuel with
  | zero =>
    obtain ⟨fuel, rfl⟩ := Nat.exists_eq_succ_of_ne_zero (Nat.ne_of_gt hfuel)
    have hit : slot (n + 1) b (k + 0) = slot (n + 1) b k := rfl
    refine ⟨d, by rw [insertLoop, if_pos hit], .refl d, fun j hj => ?_⟩
    rw [if_neg (by omega)]
  | succ g ih =>
    obtain ⟨fuel, rfl⟩ := Nat.exists_eq_succ_of_ne_zero (Nat.ne_of_gt (Nat.zero_lt_of_lt hfuel))
    obtain ⟨x, hx⟩ := hread (k + g) (by omega) (by omega)
    have hne : slot (n + 1) b (k + (g + 1)) ≠ slot (n + 1) b k := by
      rw [Ne, slot_inj (by omega) (by omega)]
      omega
    have hwrite := fun j hj =>
      write_slot (x := x) (i := k + (g + 1)) (j := j) hcells hb (by omega) hj
    obtain ⟨d', hloop, hsame, hcell⟩ := ih
      (d := d.write (slot (n + 1) b (k + (g + 1))) x) fuel (by simpa [write] using hcells)
      (by omega) (by omega) fun j hkj hj => by
        rw [hwrite j (by omega), if_neg (by omega)]
        exact hread j hkj (by omega)
    refine ⟨d', ?_, (sameEnds_write d _ x).trans hsame, fun j hj => ?_⟩
    · rw [insertLoop, if_neg hne, ← Nat.add_assoc k g 1, minus_slot hcells hb, minus_slot hcells hb,
        read, hx]
      exact hloop
    · -- the cell that this turn has written is not written again
      rw [hcell j hj, hwrite j hj, hwrite (j - 1) (by omega)]
      rcases Nat.lt_trichotomy j (k + (g + 1)) with hlt | rfl | hgt
      · rw [if_neg (show ¬ j - 1 = k + (g + 1) by omega), if_neg (show ¬ j = k + (g + 1) by omega)]
        congr 1
        exact propext ⟨fun h => ⟨h.1, by omega⟩, fun h => ⟨h.1, by omega⟩⟩
      · rw [if_neg (by omega), if_pos rfl, if_pos ⟨by omega, Nat.le_refl _⟩, ← hx]
        rfl
      · rw [if_neg (by omega), if_neg (by omega), if_neg (by omega)]

theorem Holds.insert (h : Holds n d L) (hlt : L.length < n) (hk : k ≤ L.length) (x : T) :
    ∃ d', d.insert (slot (n + 1) d.beginPos k) x = .ok d' ∧ Holds n d' (L.insertIdx k x) := by
  have hb := h.begin_lt
  have hlen : (L.insertIdx k x).length = L.length + 1 := List.length_insertIdx_of_le_length hk x
  have hdst : d.plus d.endPos 1 = slot (n + 1) d.beginPos (k + (L.length - k) + 1) := by
    rw [h.endPos, plus_eq h.cells (slot_lt hb _) (by omega), slot_slot]
    congr 1
    omega
  have hsrc : d.endPos = slot (n + 1) d.beginPos (k + (L.length - k)) := by
    rw [h.endPos]
    congr 1
    omega
  obtain ⟨e, hloop, hsame, hcell⟩ := insertLoop_eq (k := k) (g := L.length - k)
    d.storage.length h.cells hb (by omega) (by rw [h.cells]; omega) fun j hkj hj =>
      ⟨L[j], by rw [h.contents j (by omega), List.getElem?_eq_getElem (by omega)]⟩
  have hecells : e.storage.length = n + 1 := hsame.cells.trans h.cells
  refine ⟨(e.write (slot (n + 1) d.beginPos k) x).incEnd, ?_, ?_, ?_, ?_, fun i hi => ?_⟩
  · rw [FixedDeque.insert, h.size_eq, h.maxSize_eq, if_neg (by omega), hdst, hsrc, hloop]
    rfl
  · simpa [incEnd, write] using hecells
  · rw [hlen]
    exact hlt
  · show next (e.storage.set _ _).length e.endPos = slot (n + 1) e.beginPos _
    rw [List.length_set, hecells, hsame.endPos, hsame.beginPos, h.endPos, next_slot hb, hlen]
  · show (e.write (slot (n + 1) d.beginPos k) x).storage[slot (n + 1) e.beginPos i]? = _
    rw [hlen] at hi
    rw [hsame.beginPos, write_slot hecells hb (by omega) (by omega), hcell i (by omega),
      List.getElem?_insertIdx]
    rcases Nat.lt_trichotomy i k with hik | rfl | hik
    · rw [if_neg (by omega), if_neg (by omega), if_pos hik, h.contents i (by omega)]
    · rw [if_pos rfl, if_neg (Nat.lt_irrefl i), if_pos rfl, if_pos hk]
    · rw [if_neg (by omega), if_pos ⟨hik, by omega⟩, if_neg (by omega), if_neg (by omega),
        h.contents (i - 1) (by omega)]

/-- The loop of `erase` moves the elements after `k` one cell back. -/
theorem eraseLoop_eq {b g : ℕ} (fuel : ℕ) (hcells : d.storage.length = n + 1) (hb : b < n + 1)
    (hkg : k + 1 + g ≤ n) (hend : d.endPos = slot (n + 1) b (k + 1 + g)) (hfuel : g < fuel)
    (hread : ∀ j, k < j → j < k + 1 + g → ∃ x, d.storage[slot (n + 1) b j]? = some (some x)) :
    ∃ d', eraseLoop fuel d (slot (n + 1) b k) (slot (n + 1) b (k + 1)) = .ok d' ∧ SameEnds d d' ∧
      ∀ j ≤ n, d'.storage[slot (n + 1) b j]? =
        if k ≤ j ∧ j < k + g then d.storage[slot (n + 1) b (j + 1)]?
        else d.storage[slot (n + 1) b j]? := by
  induction g generalizing d k fuel with
  | zero =>
    obtain ⟨fuel, rfl⟩ := Nat.exists_eq_succ_of_ne_zero (Nat.ne_of_gt hfuel)
    refine ⟨d, by rw [eraseLoop, if_pos hend.symm], .refl d, fun j hj => ?_⟩
    rw [if_neg (by omega)]
  | succ g ih =>
    obtain ⟨fuel, rfl⟩ := Nat.exists_eq_succ_of_ne_zero (Nat.ne_of_gt (Nat.zero_lt_of_lt hfuel))
    obtain ⟨x, hx⟩ := hread (k + 1) (by omega) (by omega)
    have hne : slot (n + 1) b (k + 1) ≠ d.endPos := by
      rw [hend, Ne, slot_inj (by omega) (by omega)]
      omega
    have hwrite := fun j hj => write_slot (x := x) (i := k) (j := j) hcells hb (by omega) hj
    obtain ⟨d', hloop, hsame, hcell⟩ := ih
      (d := d.write (slot (n + 1) b k) x) (k := k + 1) fuel
      (by simpa [write] using hcells) (by omega)
      (by rw [show k + 1 + 1 + g = k + 1 + (g + 1) by omega]; exact hend) (by omega)
      fun j hkj hj => by
        rw [hwrite j (by omega), if_neg (by omega)]
        exact hread j (by omega) (by omega)
    refine ⟨d', ?_, (sameEnds_write d _ x).trans hsame, fun j hj => ?_⟩
    · rw [eraseLoop, if_neg hne, plus_eq hcells (slot_lt hb _) (by omega), slot_slot,
        plus_eq hcells (slot_lt hb _) (by omega), slot_slot, read, hx]
      exact hloop
    · rw [hcell j hj, hwrite j hj]
      rcases Nat.lt_trichotomy j k with hlt | rfl | hgt
      · rw [if_neg (by omega), if_neg (by omega), if_neg (by omega)]
      · rw [if_neg (by omega), if_pos rfl, if_pos ⟨Nat.le_refl _, by omega⟩, ← hx]
      · by_cases hj' : j < k + (g + 1)
        · rw [if_pos ⟨hgt, by omega⟩, if_pos ⟨by omega, hj'⟩, hwrite (j + 1) (by omega),
            if_neg (by omega)]
        · rw [if_neg (by omega), if_neg (by omega), if_neg (by omega)]

theorem Holds.erase (h : Holds n d L) (hk : k < L.length) :
    ∃ d', d.erase (slot (n + 1) d.beginPos k) = .ok d' ∧ Holds n d' (L.eraseIdx k) := by
  have hb := h.begin_lt
  have hle := h.length_le
  have hlen : (L.eraseIdx k).length = L.length - 1 := List.length_eraseIdx_of_lt hk
  obtain ⟨e, hloop, hsame, hcell⟩ := eraseLoop_eq (k := k) (g := L.length - 1 - k)
    d.storage.length h.cells hb (by omega)
    (by rw [h.endPos, show k + 1 + (L.length - 1 - k) = L.length by omega])
    (by rw [h.cells]; omega) fun j hkj hj =>
      ⟨L[j], by rw [h.contents j (by omega), List.getElem?_eq_getElem (by omega)]⟩
  -- the last element is still in its cell when the loop ends, and then given up
  have hheld : Holds n e (L.eraseIdx k ++ [L[L.length - 1]]) := by
    refine ⟨hsame.cells.trans h.cells, ?_, ?_, fun i hi => ?_⟩
    · rw [List.length_append, hlen, List.length_singleton]
      omega
    · rw [hsame.endPos, hsame.beginPos, h.endPos, List.length_append, hlen, List.length_singleton]
      congr 1
      omega
    · rw [List.length_append, hlen, List.length_singleton] at hi
      rw [hsame.beginPos, hcell i (by omega), List.getElem?_append, hlen, List.getElem?_eraseIdx]
      by_cases hki : k ≤ i ∧ i < L.length - 1
      · rw [if_pos ⟨hki.1, by omega⟩, if_pos hki.2, if_neg (by omega), h.contents _ (by omega)]
      · rw [if_neg (by omega), h.contents i (by omega)]
        by_cases hlast : i < L.length - 1
        · rw [if_pos hlast, if_pos (by omega)]
        · rw [if_neg hlast, show i = L.length - 1 by omega, Nat.sub_self,
            List.getElem?_eq_getElem (by omega)]
          rfl
  refine ⟨e.decEnd, ?_, hheld.decEnd⟩
  have hne : ¬ d.empty = true := by
    rw [h.empty_iff]
    exact List.ne_nil_of_length_pos (by omega)
  rw [FixedDeque.erase, if_neg hne, plus_eq h.cells (slot_lt hb k) (by omega), slot_slot, hloop]
  rfl

/-! ### Another size -/

theorem Holds.getChecked (h : Holds n d L) : d.getChecked i = if hi : i < L.length then .ok L[i]
    else .error (.outOfRange "at(): The size has been exceeded") := by
  rw [FixedDeque.getChecked, h.size_eq]
  split_ifs with hge hlt hlt
  · omega
  · rfl
  · exact h.get (List.getElem?_eq_getElem hlt)
  · omega

theorem Holds.clear (h : Holds n d L) : Holds n d.clear [] := by
  refine ⟨?_, Nat.zero_le n, ?_, nofun⟩
  · rw [FixedDeque.clear, List.length_mapIdx, h.cells]
  · exact (slot_zero (Nat.succ_pos n)).symm

theorem constructLoop_eq {b k : ℕ} {cells : List (Option T)} (hcells : cells.length = n + 1)
    (hb : b < n + 1) (hk : L.length + k ≤ n)
    (hread : ∀ i < L.length, cells[slot (n + 1) b i]? = some L[i]?) :
    ∀ i < (L ++ List.replicate k x).length,
      (constructLoop x k cells (slot (n + 1) b L.length))[slot (n + 1) b i]? =
        some (L ++ List.replicate k x)[i]? := by
  induction k generalizing cells L with
  | zero => simpa [constructLoop] using hread
  | succ k ih =>
    have hnext : next cells.length (slot (n + 1) b L.length) =
        slot (n + 1) b (L ++ [x]).length := by
      rw [hcells, next_slot hb, List.length_append, List.length_singleton]
    have hlist : L ++ List.replicate (k + 1) x = L ++ [x] ++ List.replicate k x := by
      rw [List.append_assoc]
      rfl
    rw [constructLoop, hnext, hlist]
    refine ih (by rw [List.length_set, hcells]) (by simp; omega) fun i hi => ?_
    rw [List.length_append, List.length_singleton] at hi
    rw [getElem?_set_slot hcells hb (by omega) (by omega)]
    split_ifs with hij
    · subst hij
      simp
    · rw [hread i (by omega), List.getElem?_append_left (by omega)]

theorem destroyLoop_eq {b k m : ℕ} {cells : List (Option T)} (hcells : cells.length = n + 1)
    (hb : b < n + 1) (hm : m + k ≤ n) (hi : i < m) :
    (destroyLoop k cells (slot (n + 1) b (m + k)))[slot (n + 1) b i]? =
      cells[slot (n + 1) b i]? := by
  induction k generalizing cells with
  | zero => rfl
  | succ k ih =>
    have hprev : prev cells.length (slot (n + 1) b (m + (k + 1))) = slot (n + 1) b (m + k) := by
      rw [hcells]
      exact prev_slot hb (m + k)
    rw [destroyLoop, hprev, ih (by rw [List.length_set, hcells]) (by omega),
      getElem?_set_slot hcells hb (by omega) (by omega), if_neg (by omega)]

theorem Holds.resize (h : Holds n d L) (hk : k ≤ n) (x : T) :
    ∃ d', d.resize k x = .ok d' ∧ Holds n d' (L.take k ++ List.replicate (k - L.length) x) := by
  have hb := h.begin_lt
  have hlen := h.length_le
  have hend := h.endPos
  have hsize := h.size_eq
  have hmax := h.maxSize_eq
  rw [FixedDeque.resize]
  rcases Nat.lt_trichotomy L.length k with hlt | rfl | hgt
  · rw [if_pos (by omega), dif_neg (by omega), List.take_of_length_le hlt.le]
    refine ⟨_, rfl, ?_, by simp; omega, ?_, fun i hi => ?_⟩
    · rw [length_constructLoop, h.cells]
    · show d.plus d.endPos (k - d.size) = slot (n + 1) d.beginPos _
      rw [hsize, hend, plus_eq h.cells (slot_lt hb _) (by omega), slot_slot]
      simp
    · show (constructLoop x (k - d.size) d.storage d.endPos)[slot (n + 1) d.beginPos i]? = _
      rw [hsize, hend]
      exact constructLoop_eq h.cells hb (by omega) h.contents i hi
  · rw [if_neg (by omega), if_neg (by omega), List.take_length, Nat.sub_self]
    exact ⟨d, rfl, by simpa using h⟩
  · have hlist : L.take k ++ List.replicate (k - L.length) x = L.take k := by
      rw [Nat.sub_eq_zero_of_le hgt.le]
      exact List.append_nil _
    rw [if_neg (by omega), if_pos (by omega), hlist]
    refine ⟨_, rfl, ?_, by simp; omega, ?_, fun i hi => ?_⟩
    · rw [length_destroyLoop, h.cells]
    · show d.minus d.endPos (d.size - k) = slot (n + 1) d.beginPos (L.take k).length
      rw [hend, minus_slot_sub h.cells hb (by omega) hlen, List.length_take]
      congr 1
      omega
    · rw [List.length_take] at hi
      have hcells : d.endPos = slot (n + 1) d.beginPos (k + (d.size - k)) := by
        rw [hend]
        congr 1
        omega
      show (destroyLoop (d.size - k) d.storage d.endPos)[slot (n + 1) d.beginPos i]? = _
      rw [hcells, destroyLoop_eq h.cells hb (by omega) (by omega), h.contents i (by omega),
        List.getElem?_take_of_lt (by omega)]

end

end FixedDeque

end OpTransform.Igush
