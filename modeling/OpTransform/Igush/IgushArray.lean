import Mathlib.Data.Nat.Sqrt
import OpTransform.Igush.FixedDeque
import OpTransform.Lib.Chunks
import OpTransform.Lib.Runs

/-! # The array of deques

`IgushArray<T>` of `igush/igush_array.h`, with the operations that the documents use. All deques but
the last one are full, so that an index is found by a division, and an insertion or a removal moves
one element from each deque behind to the next or from the next.

An array `Holds` a list, and its operations are those of the list. -/

namespace OpTransform.Igush

open OpTransform.Lib.Ring OpTransform.Lib.Chunks OpTransform.Lib.Blocks

/-- `IgushArray<T>`: `_capacity`, the deques `_v`, and `_deq_size`. -/
structure IgushArray (T : Type) where
  capacity : ℕ
  v : List (FixedDeque T)
  deqSize : ℕ

/-- `IgushArrayIterator`: `_vec_it`, a number of a deque, and `_deq_it`, one of its cells. -/
@[ext]
structure Iterator where
  vecIt : ℕ
  deqIt : ℕ
  deriving DecidableEq

variable {T : Type}

namespace IgushArray

/-- `_reserve`: the deques for `n` elements, so far one. -/
def reserved (n : ℕ) : IgushArray T :=
  let deqSize := if Nat.sqrt n = 0 then 1 else Nat.sqrt n
  let vecSize := if (n + deqSize - 1) / deqSize = 0 then 1 else (n + deqSize - 1) / deqSize
  { capacity := vecSize * deqSize, v := [.new deqSize], deqSize := deqSize }

/-- `size`. -/
def size (a : IgushArray T) : ℕ :=
  match a.v.getLast? with
  | none => 0
  | some d => (a.v.length - 1) * a.deqSize + d.size

/-- A deque of `_v`. -/
def deque (a : IgushArray T) (i : ℕ) : Except Fault (FixedDeque T) :=
  match a.v[i]? with
  | none => .error .rawMemory
  | some d => .ok d

/-! ### Iterators -/

/-- `begin`. -/
def beginIt (a : IgushArray T) : Except Fault Iterator := do
  let d ← a.deque 0
  return ⟨0, d.beginPos⟩

/-- `end`. -/
def endIt (a : IgushArray T) : Except Fault Iterator := do
  let d ← a.deque (a.v.length - 1)
  return ⟨a.v.length - 1, d.endPos⟩

/-- `operator*`. -/
def read (a : IgushArray T) (it : Iterator) : Except Fault T := do
  let d ← a.deque it.vecIt
  d.read it.deqIt

/-- `operator++`. -/
def next (a : IgushArray T) (it : Iterator) : Except Fault Iterator := do
  let d ← a.deque it.vecIt
  if d.plus it.deqIt 1 = d.endPos ∧ it.vecIt < a.v.length - 1 then do
    let e ← a.deque (it.vecIt + 1)
    return ⟨it.vecIt + 1, e.beginPos⟩
  else return ⟨it.vecIt, d.plus it.deqIt 1⟩

/-- The number of whole deques that `operator+=` passes over behind the first one, from the deque
`vecIt` on. -/
def incrVec (a : IgushArray T) (vecIt incr : ℕ) : ℕ :=
  if vecIt + incr / a.deqSize ≥ a.v.length then a.v.length - vecIt - 1 else incr / a.deqSize

/-- `operator+=` from the beginning of the deque `vecIt` on, of the number `incr` that is left. -/
def leap (a : IgushArray T) (vecIt incr : ℕ) : Except Fault Iterator := do
  let e ← a.deque (vecIt + a.incrVec vecIt incr)
  return ⟨vecIt + a.incrVec vecIt incr,
    e.plus e.beginPos (incr - a.incrVec vecIt incr * a.deqSize)⟩

/-- `operator+=` of a number that is not negative. -/
def plus (a : IgushArray T) (it : Iterator) (incr : ℕ) : Except Fault Iterator :=
  if incr = 0 then .ok it
  else do
    let d ← a.deque it.vecIt
    let rest := d.distance d.endPos it.deqIt
    if incr ≥ rest ∧ it.vecIt ≠ a.v.length - 1 then a.leap (it.vecIt + 1) (incr - rest : ℤ).toNat
    else return ⟨it.vecIt, d.plus it.deqIt incr⟩

/-! ### Operations -/

/-- `operator[]`. -/
def get (a : IgushArray T) (n : ℕ) : Except Fault T := do
  let d ← a.deque (n / a.deqSize)
  d.get (n - n / a.deqSize * a.deqSize)

/-- An assignment to `operator[]`. -/
def set (a : IgushArray T) (n : ℕ) (x : T) : Except Fault (IgushArray T) := do
  let d ← a.deque (n / a.deqSize)
  return { a with v := a.v.set (n / a.deqSize) (d.set (n - n / a.deqSize * a.deqSize) x) }

/-- `push_back`. -/
def pushBack (a : IgushArray T) (val : T) : Except Fault (IgushArray T) := do
  let d ← a.deque (a.v.length - 1)
  if d.size = a.deqSize then do
    let e ← (FixedDeque.new a.deqSize).pushBack val
    return { a with v := a.v ++ [e] }
  else do
    let e ← d.pushBack val
    return { a with v := a.v.set (a.v.length - 1) e }

/-- `insert` at the deque of the iterator: the deque, and the element that has no place in it. -/
def insertHere (d : FixedDeque T) (it : ℕ) (val : T) : Except Fault (FixedDeque T × T) :=
  if it = d.endPos then .ok (d, val)
  else if it = d.minus d.endPos 1 then do
    let temp2 ← d.back
    let d ← d.popBack
    let d ← d.pushBack val
    return (d, temp2)
  else do
    let temp2 ← d.back
    let d ← d.popBack
    let d ← d.insert it val
    return (d, temp2)

/-- `insert`, "move the rest of elements to the end": the deques behind, from the next one on. -/
def moveToEnd : List (FixedDeque T) → T → Except Fault (List (FixedDeque T) × T)
  | [], temp2 => .ok ([], temp2)
  | d :: ds, temp2 => do
    let temp1 ← d.back
    let d ← d.popBack
    let d ← d.pushFront temp2
    let (ds, temp2) ← moveToEnd ds temp1
    return (d :: ds, temp2)

/-- `insert`. -/
def insert (a : IgushArray T) (it : Iterator) (val : T) : Except Fault (IgushArray T) := do
  let d ← a.deque it.vecIt
  let (d, temp2) ← insertHere d it.deqIt val
  let (ds, temp2) ← moveToEnd (a.v.drop (it.vecIt + 1)) temp2
  pushBack { a with v := a.v.take it.vecIt ++ d :: ds } temp2

/-- A deque of `erase` takes over the element of the deque behind. The last deque has none behind,
and `temp2` is not set. -/
def takeOver (d : FixedDeque T) : Option T → Except Fault (FixedDeque T)
  | none => .ok d
  | some temp2 => d.pushBack temp2

/-- `erase`, "move one element up": the deques from that of the iterator on, which loses an element
by `out`. The loop begins with the last deque. -/
def moveUp (out : FixedDeque T → Except Fault (FixedDeque T)) :
    List (FixedDeque T) → Except Fault (List (FixedDeque T) × Option T)
  | [] => .ok ([], none)
  | d :: ds => do
    let (ds, temp2) ← moveUp FixedDeque.popFront ds
    let temp1 ← d.front
    let d ← out d
    let d ← takeOver d temp2
    return (d :: ds, some temp1)

/-- The end of `erase`: the last deque goes if it is empty and not the only one. -/
def dropEmpty (v : List (FixedDeque T)) : List (FixedDeque T) :=
  match v.getLast? with
  | none => v
  | some d => if d.empty ∧ v.length > 1 then v.dropLast else v

/-- `erase`. -/
def erase (a : IgushArray T) (it : Iterator) : Except Fault (IgushArray T) := do
  let (ds, _) ← moveUp (·.erase it.deqIt) (a.v.drop it.vecIt)
  return { a with v := dropEmpty (a.v.take it.vecIt ++ ds) }

/-- `_push_back` of a range of another array. The loop makes no more turns than `src`
has elements. -/
def pushRange (src : IgushArray T) (last : Iterator) :
    ℕ → IgushArray T → Iterator → Except Fault (IgushArray T)
  | 0, _, _ => .error .loop
  | fuel + 1, a, first =>
    if first = last then .ok a
    else do
      let x ← src.read first
      let a ← a.pushBack x
      let first ← src.next first
      pushRange src last fuel a first

/-- A new array with the elements of `a`, for `n` elements. -/
def rebuild (a : IgushArray T) (n : ℕ) : Except Fault (IgushArray T) := do
  let first ← a.beginIt
  let last ← a.endIt
  pushRange a last (a.size + 1) (reserved n) first

/-- The copy constructor. -/
def copy (a : IgushArray T) : Except Fault (IgushArray T) := a.rebuild a.capacity

/-- `reserve`. -/
def reserve (a : IgushArray T) (n : ℕ) : Except Fault (IgushArray T) :=
  if n ≤ a.capacity then .ok a else a.rebuild n

/-! ### What an array holds -/

/-- **The array holds the chunks `init` and `last`.** -/
structure Cut (a : IgushArray T) (init : List (List T)) (last : List T) : Prop where
  pos : 0 < a.deqSize
  chunked : Chunked a.deqSize init last
  deques : List.Forall₂ (FixedDeque.Holds a.deqSize) a.v (init ++ [last])

/-- **The array holds the list `L`.** -/
def Holds (a : IgushArray T) (L : List T) : Prop :=
  ∃ init last, a.Cut init last ∧ (init ++ [last]).flatten = L

/-- The iterator `it` is at the index `p`: the index `j` of the chunk `b`, in the deque `d`. -/
structure IsAt (a : IgushArray T) (it : Iterator) (bs : List (List T)) (p : ℕ) (pre : List (List T))
    (b : List T) (post : List (List T)) (j : ℕ) (ds : List (FixedDeque T)) (d : FixedDeque T)
    (es : List (FixedDeque T)) : Prop where
  place : Place bs p pre b post j
  v_eq : a.v = ds ++ d :: es
  vecIt : it.vecIt = ds.length
  deqIt : it.deqIt = slot (a.deqSize + 1) d.beginPos j
  length_eq : ds.length = pre.length
  before : List.Forall₂ (FixedDeque.Holds a.deqSize) ds pre
  here : FixedDeque.Holds a.deqSize d b
  behind : List.Forall₂ (FixedDeque.Holds a.deqSize) es post

section
variable {a : IgushArray T} {init bs pre post : List (List T)} {last b : List T} {p j : ℕ}
  {it : Iterator} {ds es : List (FixedDeque T)} {d : FixedDeque T} {L : List T} {x : T}

theorem deque_eq {i : ℕ} (h : a.v[i]? = some d) : a.deque i = .ok d := by
  rw [deque, h]

theorem Cut.length_v (h : Cut a init last) : a.v.length = init.length + 1 := by
  rw [h.deques.length_eq, List.length_append, List.length_singleton]

theorem Cut.isAt (h : Cut a init last) (hplace : Place (init ++ [last]) p pre b post j) :
    ∃ ds d es, IsAt a ⟨pre.length, slot (a.deqSize + 1) d.beginPos j⟩ (init ++ [last])
      p pre b post j ds d es := by
  obtain ⟨ds, d, es, hv, hlen, hds, hd, hes⟩ :=
    exists_of_forall₂_append_cons (hplace.eq ▸ h.deques)
  exact ⟨ds, d, es, hplace, hv, hlen.symm, rfl, hlen, hds, hd, hes⟩

theorem IsAt.getElem? (h : IsAt a it bs p pre b post j ds d es) : a.v[it.vecIt]? = some d := by
  rw [h.v_eq, h.vecIt, List.getElem?_append_right (Nat.le_refl _), Nat.sub_self]
  rfl

theorem IsAt.deque (h : IsAt a it bs p pre b post j ds d es) : a.deque it.vecIt = .ok d :=
  deque_eq h.getElem?

theorem IsAt.last_iff (h : IsAt a it bs p pre b post j ds d es) :
    it.vecIt = a.v.length - 1 ↔ post = [] := by
  have hlen := h.behind.length_eq
  rw [h.vecIt, h.v_eq, List.length_append, List.length_cons, ← List.length_eq_zero_iff, ← hlen]
  omega

theorem IsAt.j_le (h : IsAt a it bs p pre b post j ds d es) : j ≤ a.deqSize :=
  h.place.le.trans h.here.length_le

theorem IsAt.unique (h : Cut a init last) (hat : IsAt a it (init ++ [last]) p pre b post j ds d es)
    {it' : Iterator} {pre' post' : List (List T)} {b' : List T} {j' : ℕ}
    {ds' es' : List (FixedDeque T)} {d' : FixedDeque T}
    (hat' : IsAt a it' (init ++ [last]) p pre' b' post' j' ds' d' es') : it = it' := by
  obtain ⟨hpre, rfl⟩ := h.chunked.place_unique h.pos hat.place
  obtain ⟨hpre', rfl⟩ := h.chunked.place_unique h.pos hat'.place
  have hvec : it.vecIt = it'.vecIt := by
    rw [hat.vecIt, hat'.vecIt, hat.length_eq, hat'.length_eq, hpre, hpre']
  obtain rfl : d = d' := Option.some.inj (hat.getElem?.symm.trans (hvec ▸ hat'.getElem?))
  exact Iterator.ext hvec (hat.deqIt.trans hat'.deqIt.symm)

theorem Cut.begin (h : Cut a init last) : ∃ first pre b post ds d es, a.beginIt = .ok first ∧
    IsAt a first (init ++ [last]) 0 pre b post 0 ds d es := by
  obtain ⟨pre, b, post, hplace, hpre⟩ := h.chunked.exists_place h.pos (Nat.zero_le _)
  rw [Nat.zero_div, Nat.zero_min] at hplace hpre
  obtain ⟨ds, d, es, hat⟩ := h.isAt hplace
  have hd := hat.getElem?
  rw [hpre, Nat.zero_sub, slot_zero hat.here.begin_lt] at hat
  rw [hpre] at hd
  refine ⟨_, pre, b, post, ds, d, es, ?_, hat⟩
  rw [beginIt, deque_eq hd]
  rfl

theorem add_incrVec {n q k r : ℕ} (hn : 0 < n) (hqk : q < k) (hp : p = (q + 1) * n + r)
    (hdeq : a.deqSize = n) (hlen : a.v.length = k + 1) :
    q + 1 + a.incrVec (q + 1) r = min (p / n) k := by
  have hdiv : p / n = q + 1 + r / n := by rw [hp, Nat.mul_comm, Nat.mul_add_div hn]
  rw [incrVec, hdeq, hlen, hdiv]
  split_ifs <;> omega

theorem IsAt.move (hat : IsAt a it bs p pre b post j ds d es) {p' j' : ℕ} (hp : p' + j = p + j')
    (hle : j' ≤ b.length) (hlt : post ≠ [] → j' < b.length) :
    IsAt a ⟨it.vecIt, slot (a.deqSize + 1) d.beginPos j'⟩ bs p' pre b post j' ds d es :=
  ⟨hat.place.move hp hle hlt, hat.v_eq, hat.vecIt, rfl, hat.length_eq, hat.before, hat.here,
    hat.behind⟩

theorem Cut.advance (h : Cut a init last) (hat : IsAt a it (init ++ [last]) p pre b post j ds d es)
    {k : ℕ} (hk : p + k ≤ (init ++ [last]).flatten.length) :
    ∃ it' pre' b' post' j' ds' d' es', a.plus it k = .ok it' ∧
      IsAt a it' (init ++ [last]) (p + k) pre' b' post' j' ds' d' es' := by
  obtain ⟨hindex, hlast, hinit⟩ := h.chunked.place_spec hat.place
  have hj := hat.place.le
  have hn := hat.here.length_le
  have hlenv := h.length_v
  rw [IgushArray.plus]
  by_cases hk0 : k = 0
  · subst hk0
    exact ⟨it, pre, b, post, j, ds, d, es, if_pos rfl, hat⟩
  rw [if_neg hk0, hat.deque]
  show ∃ it' pre' b' post' j' ds' d' es', (if (k : ℤ) ≥ d.distance d.endPos it.deqIt ∧
    it.vecIt ≠ a.v.length - 1 then _ else _) = Except.ok it' ∧ _
  have hbehind : it.vecIt ≠ a.v.length - 1 ↔ post ≠ [] := not_congr hat.last_iff
  rw [hat.deqIt, hat.here.endPos, hat.here.distance_slot le_rfl hj]
  by_cases hout : post ≠ [] ∧ b.length ≤ j + k
  · -- behind the deque of the iterator
    obtain ⟨hlt, hb⟩ := hinit hout.1
    obtain ⟨pre', b', post', hplace', hpre'⟩ := h.chunked.exists_place h.pos hk
    obtain ⟨ds', d', es', hat'⟩ := h.isAt hplace'
    refine ⟨_, pre', b', post', _, ds', d', es', ?_, hat'⟩
    have hskip : (↑k - ((b.length : ℤ) - ↑j)).toNat = j + k - a.deqSize := by omega
    have hp : p + k = (pre.length + 1) * a.deqSize + (j + k - a.deqSize) := by
      rw [Nat.succ_mul]
      omega
    have hadd := add_incrVec h.pos hlt hp rfl hlenv
    have hrest : j + k - a.deqSize - a.incrVec (pre.length + 1) (j + k - a.deqSize) * a.deqSize =
        p + k - min ((p + k) / a.deqSize) init.length * a.deqSize := by
      rw [← hadd, Nat.add_mul]
      omega
    have hplus := FixedDeque.plus_eq hat'.here.cells hat'.here.begin_lt
      (hat'.j_le.trans (Nat.le_succ _))
    rw [if_pos ⟨by omega, hbehind.mpr hout.1⟩, hskip, hat.vecIt, hat.length_eq, leap, hrest, hadd,
      ← hpre', deque_eq hat'.getElem?, hpre', ← hplus]
    rfl
  · have hstay : post ≠ [] → j + k < b.length := fun hne => not_le.mp fun hle => hout ⟨hne, hle⟩
    have hjk : j + k ≤ b.length := by
      by_cases hpost : post = []
      · have hend := hat.place.index
        have hbs := hat.place.eq
        rw [hpost] at hbs
        rw [hbs, List.flatten_append, List.flatten_singleton, List.length_append] at hk
        omega
      · exact (hstay hpost).le
    refine ⟨_, pre, b, post, _, ds, d, es, ?_, hat.move (by omega) hjk hstay⟩
    rw [if_neg fun hcond => hout ⟨hbehind.mp hcond.2, by omega⟩,
      FixedDeque.plus_eq hat.here.cells (slot_lt hat.here.begin_lt j) (by omega), slot_slot]
    rfl

theorem Cut.plus (h : Cut a init last) (hp : p ≤ (init ++ [last]).flatten.length) :
    ∃ first it pre b post j ds d es, a.beginIt = .ok first ∧ a.plus first p = .ok it ∧
      IsAt a it (init ++ [last]) p pre b post j ds d es := by
  obtain ⟨first, _, _, _, _, _, _, hfirst, hat⟩ := h.begin
  obtain ⟨it, pre, b, post, j, ds, d, es, hplus, hat'⟩ := h.advance hat ((Nat.zero_add p).symm ▸ hp)
  rw [Nat.zero_add] at hat'
  exact ⟨first, it, pre, b, post, j, ds, d, es, hfirst, hplus, hat'⟩

/-! ### Access -/

theorem Holds.get (h : Holds a L) (hp : p < L.length) : a.get p = .ok L[p] := by
  obtain ⟨init, last, hcut, rfl⟩ := h
  obtain ⟨pre, b, post, hplace, hpre⟩ := hcut.chunked.exists_place hcut.pos hp.le
  rw [Nat.min_eq_left (hcut.chunked.div_le hcut.pos hp)] at hplace hpre
  obtain ⟨ds, d, es, hat⟩ := hcut.isAt hplace
  have hb : b[p - p / a.deqSize * a.deqSize]? = some (init ++ [last]).flatten[p] := by
    rw [← hplace.getElem? (hplace.lt_length hp), List.getElem?_eq_getElem hp]
  rw [IgushArray.get, ← hpre, deque_eq hat.getElem?, hpre]
  exact hat.here.get hb

theorem Cut.holds_of_lengths (h : Cut a init last) {v : List (FixedDeque T)}
    (hv : List.Forall₂ (FixedDeque.Holds a.deqSize) v bs)
    (hlen : bs.map List.length = (init ++ [last]).map List.length) :
    Holds { a with v := v } bs.flatten := by
  obtain ⟨init', last', rfl, hchunked⟩ := h.chunked.of_lengths hlen
  exact ⟨init', last', ⟨h.pos, hchunked, hv⟩, rfl⟩

theorem Holds.set (h : Holds a L) (hp : p < L.length) (x : T) :
    ∃ a', a.set p x = .ok a' ∧ Holds a' (L.set p x) := by
  obtain ⟨init, last, hcut, rfl⟩ := h
  obtain ⟨pre, b, post, hplace, hpre⟩ := hcut.chunked.exists_place hcut.pos hp.le
  rw [Nat.min_eq_left (hcut.chunked.div_le hcut.pos hp)] at hplace hpre
  obtain ⟨ds, d, es, hat⟩ := hcut.isAt hplace
  generalize hj : p - p / a.deqSize * a.deqSize = j at hplace hat
  have hjb := hplace.lt_length hp
  refine ⟨{ a with v := ds ++ d.set j x :: es }, ?_, ?_⟩
  · rw [IgushArray.set, ← hpre, deque_eq hat.getElem?, hpre, hj, hat.v_eq, ← hpre, ← hat.length_eq]
    show Except.ok _ = _
    rw [List.set_append_right _ _ (Nat.le_refl _), Nat.sub_self, List.set_cons_zero]
  · rw [hplace.set hjb]
    refine hcut.holds_of_lengths (List.rel_append hat.before
      (.cons (hat.here.set hjb x) hat.behind)) ?_
    rw [hplace.eq]
    simp

/-! ### `push_back` -/

theorem Cut.exists_last (h : Cut a init last) :
    ∃ ds d, a.v = ds ++ [d] ∧ List.Forall₂ (FixedDeque.Holds a.deqSize) ds init ∧
      FixedDeque.Holds a.deqSize d last := by
  obtain ⟨ds, d, es, hv, -, hds, hd, hes⟩ := exists_of_forall₂_append_cons h.deques
  rw [List.forall₂_nil_right_iff.mp hes] at hv
  exact ⟨ds, d, hv, hds, hd⟩

theorem Holds.pushBack (h : Holds a L) (x : T) :
    ∃ a', a.pushBack x = .ok a' ∧ Holds a' (L ++ [x]) := by
  obtain ⟨init, last, hcut, rfl⟩ := h
  obtain ⟨ds, d, hv, hds, hd⟩ := hcut.exists_last
  have hback : a.v[a.v.length - 1]? = some d := by rw [hv]; simp
  rw [IgushArray.pushBack, deque_eq hback]
  show ∃ a', (if d.size = a.deqSize then _ else _) = Except.ok a' ∧ _
  by_cases hfull : last.length = a.deqSize
  · obtain ⟨e, he, hholds⟩ := (FixedDeque.holds_new a.deqSize).pushBack hcut.pos x
    refine ⟨{ a with v := a.v ++ [e] }, ?_, init ++ [last], [x],
      ⟨hcut.pos, hcut.chunked.append hfull hcut.pos x, ?_⟩, by simp⟩
    · rw [hd.size_eq, if_pos hfull, he]
      rfl
    · exact List.rel_append hcut.deques (.cons hholds .nil)
  · have hlt := Nat.lt_of_le_of_ne hd.length_le hfull
    obtain ⟨e, he, hholds⟩ := hd.pushBack hlt x
    refine ⟨{ a with v := ds ++ [e] }, ?_, init, last ++ [x],
      ⟨hcut.pos, hcut.chunked.extend hfull x, ?_⟩, by simp⟩
    · rw [hd.size_eq, if_neg hfull, he, hv]
      show Except.ok _ = _
      simp
    · exact List.rel_append hds (.cons hholds .nil)

/-! ### `insert` -/

theorem insertHere_eq {n : ℕ} (h : FixedDeque.Holds n d b) (hj : j ≤ b.length) (x : T) :
    ∃ d' b' t, insertHere d (slot (n + 1) d.beginPos j) x = .ok (d', t) ∧
      FixedDeque.Holds n d' b' ∧ b' ++ [t] = b.insertIdx j x := by
  have hlen := h.length_le
  rcases Nat.eq_or_lt_of_le hj with rfl | hlt
  · refine ⟨d, b, x, ?_, h, List.insertIdx_length_self.symm⟩
    rw [insertHere, if_pos h.endPos.symm]
  · obtain rfl | ⟨c, y, rfl⟩ := List.eq_nil_or_concat' b
    · exact absurd hlt (Nat.not_lt_zero j)
    · rw [List.length_append, List.length_singleton] at hlt hlen
      have hend : slot (n + 1) d.beginPos j ≠ d.endPos := by
        rw [h.endPos, Ne, slot_inj (by omega) (by simp; omega), List.length_append,
          List.length_singleton]
        omega
      have hlast : d.minus d.endPos 1 = slot (n + 1) d.beginPos c.length := by
        rw [h.endPos, List.length_append, List.length_singleton,
          FixedDeque.minus_slot h.cells h.begin_lt]
      rw [insertHere, if_neg hend, hlast, h.back, h.popBack]
      rcases Nat.eq_or_lt_of_le (Nat.lt_succ_iff.mp hlt) with rfl | hlt
      · obtain ⟨d', hd', hholds⟩ := h.decEnd.pushBack (by omega) x
        refine ⟨d', c ++ [x], y, ?_, hholds, ?_⟩
        · rw [if_pos rfl]
          show (d.decEnd.pushBack x).bind _ = _
          rw [hd']
          rfl
        · rw [insertIdx_append_left [y] (Nat.le_refl _) x, List.insertIdx_length_self]
      · obtain ⟨d', hd', hholds⟩ := h.decEnd.insert (by omega) hlt.le x
        have hne : slot (n + 1) d.beginPos j ≠ slot (n + 1) d.beginPos c.length := by
          rw [Ne, slot_inj (by omega) (by omega)]
          omega
        refine ⟨d', c.insertIdx j x, y, ?_, hholds, (insertIdx_append_left [y] hlt.le x).symm⟩
        rw [if_neg hne]
        show (d.decEnd.insert (slot (n + 1) d.decEnd.beginPos j) x).bind _ = _
        rw [hd']
        rfl

/-- The deques behind keep their lengths, and one element leaves them at the end. -/
theorem moveToEnd_eq {n : ℕ} (t : T) (h : List.Forall₂ (FixedDeque.Holds n) ds bs)
    (hne : ∀ b ∈ bs, b ≠ []) :
    ∃ ds' bs' t', moveToEnd ds t = .ok (ds', t') ∧ List.Forall₂ (FixedDeque.Holds n) ds' bs' ∧
      bs'.map List.length = bs.map List.length ∧ bs'.flatten ++ [t'] = t :: bs.flatten := by
  induction h generalizing t with
  | nil => exact ⟨[], [], t, rfl, .nil, rfl, rfl⟩
  | @cons d b ds bs hd _ ih =>
    obtain ⟨c, y, rfl⟩ := (List.eq_nil_or_concat' b).resolve_left (hne b List.mem_cons_self)
    have hlen := hd.length_le
    rw [List.length_append, List.length_singleton] at hlen
    obtain ⟨d', hd', hholds⟩ := hd.decEnd.pushFront (by omega) t
    obtain ⟨ds', bs', t', hloop, hds', hlens, hflat⟩ :=
      ih y fun b hb => hne b (List.mem_cons_of_mem _ hb)
    refine ⟨d' :: ds', (t :: c) :: bs', t', ?_, .cons hholds hds', ?_, ?_⟩
    · rw [moveToEnd, hd.back, hd.popBack]
      show (d.decEnd.pushFront t).bind _ = _
      rw [hd']
      show (moveToEnd ds y).bind _ = _
      rw [hloop]
      rfl
    · rw [List.map_cons, List.map_cons, hlens, List.length_cons, List.length_append,
        List.length_singleton]
    · rw [List.flatten_cons, List.append_assoc, hflat, List.flatten_cons]
      simp

theorem Cut.insert (h : Cut a init last) (hat : IsAt a it (init ++ [last]) p pre b post j ds d es)
    (x : T) :
    ∃ a', a.insert it x = .ok a' ∧ Holds a' ((init ++ [last]).flatten.insertIdx p x) := by
  obtain ⟨d', b', t, hhere, hd', hb'⟩ := insertHere_eq hat.here hat.place.le x
  have hpost : ∀ c ∈ post, c ≠ [] := h.chunked.ne_nil_of_behind h.pos hat.place.eq
  obtain ⟨es', post', t', hloop, hes', hlens, hflat⟩ := moveToEnd_eq t hat.behind hpost
  have hlen : b'.length = b.length := by
    have := congrArg List.length hb'
    rw [List.length_append, List.length_singleton,
      List.length_insertIdx_of_le_length hat.place.le] at this
    omega
  have hmoved := h.holds_of_lengths (List.rel_append hat.before (.cons hd' hes')) (by
    rw [hat.place.eq, List.map_append, List.map_append, List.map_cons, List.map_cons, hlen, hlens])
  obtain ⟨a', ha', hholds⟩ := hmoved.pushBack t'
  refine ⟨a', ?_, ?_⟩
  · rw [IgushArray.insert, hat.deque]
    show (insertHere d it.deqIt x).bind _ = _
    rw [hat.deqIt, hhere]
    show (moveToEnd (a.v.drop (it.vecIt + 1)) t).bind _ = _
    rw [hat.v_eq, hat.vecIt, List.drop_append, List.drop_eq_nil_of_le (Nat.le_succ _),
      Nat.add_sub_cancel_left, List.drop_one, List.tail_cons, List.nil_append, hloop, ← ha']
    show IgushArray.pushBack _ t' = _
    rw [List.take_left']
    rfl
  · have hlist : (init ++ [last]).flatten.insertIdx p x = (pre ++ b' :: post').flatten ++ [t'] := by
      rw [hat.place.insertIdx, ← hb', List.flatten_append, List.flatten_cons, List.append_assoc,
        List.append_assoc, List.append_assoc, hflat]
      rfl
    rw [hlist]
    exact hholds

/-! ### `erase` -/

theorem moveUp_cons {n : ℕ} {out : FixedDeque T → Except Fault (FixedDeque T)} {c : List T}
    {d' d'' : FixedDeque T} {temp2 : Option T} (hd : FixedDeque.Holds n d (x :: c))
    (hloop : moveUp FixedDeque.popFront ds = .ok (es, temp2)) (hout : out d = .ok d')
    (htake : takeOver d' temp2 = .ok d'') : moveUp out (d :: ds) = .ok (d'' :: es, some x) := by
  rw [moveUp, hloop]
  show (d.front).bind _ = _
  rw [hd.front]
  show (out d).bind _ = _
  rw [hout]
  show (takeOver d' temp2).bind _ = _
  rw [htake]
  rfl

/-- One element leaves the first deque by `out`, at the index `j`, and every deque but the last one
keeps its length. -/
theorem moveUp_eq {n : ℕ} (out : FixedDeque T → Except Fault (FixedDeque T)) {c : List T}
    {d' : FixedDeque T} (hd : FixedDeque.Holds n d (x :: c)) (hout : out d = .ok d')
    (hd' : FixedDeque.Holds n d' ((x :: c).eraseIdx j)) (hj : j < (x :: c).length)
    (hds : List.Forall₂ (FixedDeque.Holds n) ds bs) (hne : ∀ b ∈ bs, b ≠ []) :
    ∃ ds' init' last', moveUp out (d :: ds) = .ok (ds', some x) ∧
      List.Forall₂ (FixedDeque.Holds n) ds' (init' ++ [last']) ∧
      (init' ++ [last']).flatten = (x :: c ++ bs.flatten).eraseIdx j ∧
      init'.map List.length = ((x :: c) :: bs).dropLast.map List.length := by
  have hlen := hd.length_le
  have hlen' := List.length_eraseIdx_of_lt hj
  rw [List.length_cons] at hlen hlen'
  induction hds generalizing d d' out j x c with
  | nil => exact ⟨[d'], [], _, moveUp_cons hd rfl hout rfl, .cons hd' .nil, by simp, rfl⟩
  | @cons e b ds bs he _ ih =>
    -- the deques behind lose their first element, which goes to the end of this one
    obtain ⟨y, c', rfl⟩ := List.exists_cons_of_ne_nil (hne b List.mem_cons_self)
    obtain ⟨e', hpop, he'⟩ := he.popFront
    obtain ⟨ds', init', last', hloop, hholds, hflat, hlens⟩ :=
      ih (j := 0) _ he hpop he' (Nat.zero_lt_succ _)
        (fun b hb => hne b (List.mem_cons_of_mem _ hb)) he.length_le rfl
    obtain ⟨d'', hpush, hd''⟩ := hd'.pushBack (by omega) y
    refine ⟨d'' :: ds', ((x :: c).eraseIdx j ++ [y]) :: init', last',
      moveUp_cons hd hloop hout hpush, .cons hd'' hholds, ?_, ?_⟩
    · rw [List.cons_append, List.flatten_cons, hflat, List.flatten_cons,
        List.eraseIdx_append_of_lt_length hj, List.append_assoc]
      rfl
    · rw [List.map_cons, hlens, List.dropLast_cons_cons, List.map_cons, List.length_append,
        List.length_singleton, hlen', List.length_cons, Nat.add_sub_cancel]

theorem Cut.dropEmpty (h : Cut a init last) {init' : List (List T)} {last' : List T}
    {v : List (FixedDeque T)} (hinit : init'.map List.length = init.map List.length)
    (hlast : last'.length ≤ last.length)
    (hv : List.Forall₂ (FixedDeque.Holds a.deqSize) v (init' ++ [last'])) :
    Holds { a with v := dropEmpty v } (init' ++ [last']).flatten := by
  obtain ⟨ds, d, es, rfl, hlen, hds, hd, hes⟩ := exists_of_forall₂_append_cons hv
  rw [List.forall₂_nil_right_iff.mp hes] at hv ⊢
  have hmore : (ds ++ [d]).length > 1 ↔ init' ≠ [] := by
    rw [List.length_append, List.length_singleton, hlen, gt_iff_lt, Nat.lt_add_left_iff_pos,
      List.length_pos_iff]
  rw [IgushArray.dropEmpty, List.getLast?_concat]
  show Holds { a with v := if d.empty = true ∧ (ds ++ [d]).length > 1 then _ else _ } _
  have hcond := and_congr hd.empty_iff hmore
  by_cases hdrop : last' = [] ∧ init' ≠ []
  · obtain ⟨rfl, hne⟩ := hdrop
    obtain ⟨init'', last'', rfl⟩ := (List.eq_nil_or_concat' init').resolve_left hne
    rw [if_pos (hcond.mpr ⟨rfl, hne⟩), List.dropLast_concat]
    exact ⟨init'', last'', ⟨h.pos, h.chunked.drop h.pos hinit, hds⟩, by simp⟩
  · rw [if_neg fun hc => hdrop (hcond.mp hc)]
    refine ⟨init', last', ⟨h.pos, h.chunked.shrink hinit hlast fun hne hnil => ?_, hv⟩, rfl⟩
    exact hdrop ⟨hnil, hne⟩

theorem Cut.erase (h : Cut a init last) (hat : IsAt a it (init ++ [last]) p pre b post j ds d es)
    (hp : p < (init ++ [last]).flatten.length) :
    ∃ a', a.erase it = .ok a' ∧ Holds a' ((init ++ [last]).flatten.eraseIdx p) := by
  have hj := hat.place.lt_length hp
  have hpost : ∀ c ∈ post, c ≠ [] := h.chunked.ne_nil_of_behind h.pos hat.place.eq
  obtain ⟨d', hout, hd'⟩ := hat.here.erase hj
  obtain ⟨x, c, rfl⟩ := List.exists_cons_of_ne_nil
    (List.ne_nil_of_length_pos (Nat.zero_lt_of_lt hj))
  rw [← hat.deqIt] at hout
  obtain ⟨ds', init', last', hloop, hholds, hflat, hlens⟩ :=
    moveUp_eq (·.erase it.deqIt) hat.here hout hd' hj hat.behind hpost
  have hlist : (init ++ [last]).flatten.eraseIdx p = (pre ++ init' ++ [last']).flatten := by
    rw [hat.place.eraseIdx, ← hflat]
    simp
  have hinit : (pre ++ init').map List.length = init.map List.length := by
    have heq := congrArg List.dropLast hat.place.eq
    rw [List.dropLast_concat, List.dropLast_append_of_ne_nil (List.cons_ne_nil _ _)] at heq
    rw [heq, List.map_append, List.map_append, hlens]
  have hlast : last'.length ≤ last.length := by
    have hsum : (pre ++ init').flatten.length = init.flatten.length := by
      rw [List.length_flatten, List.length_flatten, hinit]
    have hle := congrArg List.length hlist
    rw [List.length_eraseIdx_of_lt hp, List.flatten_append, List.flatten_append, List.length_append,
      List.length_append, hsum, List.flatten_singleton, List.flatten_singleton] at hle
    omega
  have hv : List.Forall₂ (FixedDeque.Holds a.deqSize) (ds ++ ds') (pre ++ init' ++ [last']) := by
    rw [List.append_assoc]
    exact List.rel_append hat.before hholds
  refine ⟨_, ?_, hlist ▸ h.dropEmpty hinit hlast hv⟩
  rw [IgushArray.erase, hat.v_eq, hat.vecIt, List.drop_left', hloop, List.take_left']
  · rfl
  · rfl
  · rfl

/-! ### Walking -/

theorem Cut.size_eq (h : Cut a init last) : a.size = (init ++ [last]).flatten.length := by
  obtain ⟨ds, d, hv, -, hd⟩ := h.exists_last
  have hlen := h.length_v
  rw [size, hlen, hv, List.getLast?_concat]
  show (init.length + 1 - 1) * a.deqSize + d.size = _
  rw [Nat.add_sub_cancel, hd.size_eq, List.flatten_append, List.length_append,
    length_flatten_of_full h.chunked.full, List.flatten_singleton]

theorem IsAt.read (h : IsAt a it bs p pre b post j ds d es) (hp : p < bs.flatten.length) :
    a.read it = .ok bs.flatten[p] := by
  have hj := h.place.lt_length hp
  have hb : b[j]? = some bs.flatten[p] := by
    rw [← h.place.getElem? hj, List.getElem?_eq_getElem hp]
  rw [IgushArray.read, h.deque, h.deqIt]
  exact h.here.read_slot hb

theorem IsAt.endIt (h : IsAt a it bs p pre b post j ds d es) (hp : p = bs.flatten.length) :
    a.endIt = .ok it := by
  obtain ⟨hpost, rfl⟩ := h.place.at_end hp
  have hlast := h.last_iff.mpr hpost
  rw [IgushArray.endIt, ← hlast, h.deque]
  show Except.ok (Iterator.mk it.vecIt d.endPos) = _
  rw [h.here.endPos, ← h.deqIt]

theorem IsAt.ne_end (h : IsAt a it bs p pre b post j ds d es) (hp : p < bs.flatten.length)
    {stop : Iterator} (hstop : a.endIt = .ok stop) : it ≠ stop := by
  rintro rfl
  have hj := h.place.lt_length hp
  have hle := h.here.length_le
  -- at the end, the cell would be that behind the last element
  have hvec : it.vecIt = a.v.length - 1 := by
    rw [IgushArray.endIt] at hstop
    obtain ⟨e, -, he⟩ := Lib.Runs.exists_of_bind_eq_ok hstop
    exact (congrArg Iterator.vecIt (Except.ok.inj he)).symm
  rw [IgushArray.endIt, ← hvec, h.deque] at hstop
  have hcell : d.endPos = it.deqIt := congrArg Iterator.deqIt (Except.ok.inj hstop)
  rw [h.here.endPos, h.deqIt, slot_inj (by omega) (by omega)] at hcell
  omega

theorem Cut.next (h : Cut a init last) (hat : IsAt a it (init ++ [last]) p pre b post j ds d es)
    (hp : p < (init ++ [last]).flatten.length) :
    ∃ it' pre' b' post' j' ds' d' es', a.next it = .ok it' ∧
      IsAt a it' (init ++ [last]) (p + 1) pre' b' post' j' ds' d' es' := by
  have hj := hat.place.lt_length hp
  have hle := hat.here.length_le
  have hb := hat.here.begin_lt
  have hstep : d.plus it.deqIt 1 = slot (a.deqSize + 1) d.beginPos (j + 1) := by
    rw [hat.deqIt, FixedDeque.plus_eq hat.here.cells (slot_lt hb j) (by omega), slot_slot]
  have hend : d.plus it.deqIt 1 = d.endPos ↔ j + 1 = b.length := by
    rw [hstep, hat.here.endPos, slot_inj (by omega) (by omega)]
  have hlast : it.vecIt < a.v.length - 1 ↔ post ≠ [] := by
    have hlt := (List.getElem?_eq_some_iff.mp hat.getElem?).1
    rw [Ne, ← hat.last_iff]
    omega
  rw [IgushArray.next, hat.deque]
  show ∃ it' pre' b' post' j' ds' d' es', (if d.plus it.deqIt 1 = d.endPos ∧
    it.vecIt < a.v.length - 1 then _ else _) = Except.ok it' ∧ _
  by_cases hcross : j + 1 = b.length ∧ post ≠ []
  · rw [if_pos ⟨hend.mpr hcross.1, hlast.mpr hcross.2⟩]
    obtain ⟨c, post', rfl⟩ := List.exists_cons_of_ne_nil hcross.2
    have hc := h.chunked.ne_nil_of_behind h.pos hat.place.eq c List.mem_cons_self
    obtain ⟨e, es', he, hes', rfl⟩ := List.forall₂_cons_right_iff.mp hat.behind
    have hget : a.v[it.vecIt + 1]? = some e := by
      rw [hat.v_eq, hat.vecIt]
      simp
    refine ⟨⟨it.vecIt + 1, e.beginPos⟩, pre ++ [b], c, post', 0, ds ++ [d], e, es', ?_,
      hat.place.next_chunk hcross.1 hc, ?_, ?_, (slot_zero he.begin_lt).symm, ?_,
      List.rel_append hat.before (.cons hat.here .nil), he, hes'⟩
    · rw [deque_eq hget]
      rfl
    · rw [hat.v_eq, List.append_assoc, List.singleton_append]
    · rw [List.length_append, List.length_singleton, ← hat.vecIt]
    · rw [List.length_append, List.length_append, hat.length_eq]
      rfl
  · rw [if_neg fun hcond => hcross ⟨hend.mp hcond.1, hlast.mp hcond.2⟩, hstep]
    refine ⟨_, pre, b, post, j + 1, ds, d, es, rfl, hat.move (by omega) hj fun hpost => ?_⟩
    exact Nat.lt_of_le_of_ne hj fun hlen => hcross ⟨hlen, hpost⟩

/-! ### Copies -/

theorem holds_reserved (n : ℕ) : Holds (reserved n : IgushArray T) [] := by
  refine ⟨[], [], ⟨?_, ⟨nofun, Nat.zero_le _, fun h => absurd rfl h⟩, .cons ?_ .nil⟩, rfl⟩
  · show 0 < if Nat.sqrt n = 0 then 1 else Nat.sqrt n
    split_ifs <;> omega
  · exact FixedDeque.holds_new _

theorem Cut.pushRange (h : Cut a init last) {stop : Iterator} (hstop : a.endIt = .ok stop)
    {g fuel : ℕ} (hg : p + g = (init ++ [last]).flatten.length) (hfuel : g < fuel)
    {c : IgushArray T} {M : List T} (hc : Holds c M)
    (hat : IsAt a it (init ++ [last]) p pre b post j ds d es) :
    ∃ c', a.pushRange stop fuel c it = .ok c' ∧
      Holds c' (M ++ (init ++ [last]).flatten.drop p) := by
  induction g generalizing p fuel c M it pre b post j ds d es with
  | zero =>
    obtain ⟨fuel, rfl⟩ := Nat.exists_eq_succ_of_ne_zero (Nat.ne_of_gt hfuel)
    have hit : it = stop := Except.ok.inj ((hat.endIt hg).symm.trans hstop)
    refine ⟨c, by rw [IgushArray.pushRange, if_pos hit], ?_⟩
    rw [List.drop_of_length_le (by omega), List.append_nil]
    exact hc
  | succ g ih =>
    obtain ⟨fuel, rfl⟩ := Nat.exists_eq_succ_of_ne_zero (Nat.ne_of_gt (Nat.zero_lt_of_lt hfuel))
    have hp : p < (init ++ [last]).flatten.length := by omega
    obtain ⟨e, hpush, he⟩ := hc.pushBack (init ++ [last]).flatten[p]
    obtain ⟨it', _, _, _, _, _, _, _, hnext, hat'⟩ := h.next hat hp
    obtain ⟨c', hloop, hc'⟩ := ih (p := p + 1) (by omega) (Nat.lt_of_succ_lt_succ hfuel) he
      hat'
    refine ⟨c', ?_, ?_⟩
    · rw [IgushArray.pushRange, if_neg (hat.ne_end hp hstop), hat.read hp]
      show (c.pushBack _).bind _ = _
      rw [hpush]
      show (a.next it).bind _ = _
      rw [hnext]
      exact hloop
    · rw [List.drop_eq_getElem_cons hp, ← List.singleton_append, ← List.append_assoc]
      exact hc'

theorem Holds.rebuild (h : Holds a L) (n : ℕ) : ∃ c, a.rebuild n = .ok c ∧ Holds c L := by
  obtain ⟨init, last, hcut, rfl⟩ := h
  obtain ⟨first, it, pre, b, post, j, ds, d, es, hfirst, hplus, hat⟩ := hcut.plus (Nat.zero_le _)
  have hit : it = first := (Except.ok.inj hplus).symm
  subst hit
  obtain ⟨_, stop, _, _, _, _, _, _, _, -, -, hend⟩ := hcut.plus le_rfl
  have hstop := hend.endIt rfl
  obtain ⟨c, hloop, hc⟩ := hcut.pushRange hstop (Nat.zero_add _) (Nat.lt_succ_self _)
    (holds_reserved n) hat
  refine ⟨c, ?_, by rwa [List.nil_append, List.drop_zero] at hc⟩
  rw [IgushArray.rebuild, hfirst]
  show (a.endIt).bind _ = _
  rw [hstop, hcut.size_eq]
  exact hloop

end

end IgushArray

end OpTransform.Igush
