import OpTransform.Igush.IgushArray
import OpTransform.Ops.Container

/-! # The array as a container of documents

The calls of `State`, of the server and of the executable to `IgushArray`, in terms of indices. The
array is a sequence (`isSequence`). So every sequence of calls in range has the effect it has on a
list (`run_edits`), whatever the size of the deques is. -/

namespace OpTransform.Igush

open OpTransform.Ops

variable {T : Type}

namespace IgushArray

/-- `insert(begin() + i, x)`. -/
def insertAt (a : IgushArray T) (i : ℕ) (x : T) : Except Fault (IgushArray T) := do
  let first ← a.beginIt
  let it ← a.plus first i
  a.insert it x

/-- `erase(begin() + i)`. -/
def eraseAt (a : IgushArray T) (i : ℕ) : Except Fault (IgushArray T) := do
  let first ← a.beginIt
  let it ← a.plus first i
  a.erase it

/-- `IgushArray<T>` as the container `C`. -/
def container (T : Type) : Container Fault (IgushArray T) T where
  empty := reserved 0
  reserve := reserve
  size := size
  get := get
  set := set
  pushBack := pushBack
  insert := insertAt
  erase := eraseAt
  copy := copy

section
variable {a : IgushArray T} {L : List T} {i : ℕ}

theorem Holds.insertAt (h : Holds a L) (hi : i ≤ L.length) (x : T) :
    ∃ a', a.insertAt i x = .ok a' ∧ Holds a' (L.insertIdx i x) := by
  obtain ⟨init, last, hcut, rfl⟩ := h
  obtain ⟨first, it, pre, b, post, j, ds, d, es, hfirst, hplus, hat⟩ := hcut.plus hi
  obtain ⟨a', ha', hholds⟩ := hcut.insert hat x
  refine ⟨a', ?_, hholds⟩
  rw [IgushArray.insertAt, hfirst]
  show (a.plus first i).bind _ = _
  rw [hplus]
  exact ha'

theorem Holds.eraseAt (h : Holds a L) (hi : i < L.length) :
    ∃ a', a.eraseAt i = .ok a' ∧ Holds a' (L.eraseIdx i) := by
  obtain ⟨init, last, hcut, rfl⟩ := h
  obtain ⟨first, it, pre, b, post, j, ds, d, es, hfirst, hplus, hat⟩ := hcut.plus hi.le
  obtain ⟨a', ha', hholds⟩ := hcut.erase hat hi
  refine ⟨a', ?_, hholds⟩
  rw [IgushArray.eraseAt, hfirst]
  show (a.plus first i).bind _ = _
  rw [hplus]
  exact ha'

theorem Holds.reserve (h : Holds a L) (n : ℕ) : ∃ c, a.reserve n = .ok c ∧ Holds c L := by
  rw [IgushArray.reserve]
  split_ifs
  · exact ⟨a, rfl, h⟩
  · exact h.rebuild n

theorem Holds.size (h : Holds a L) : a.size = L.length := by
  obtain ⟨init, last, hcut, rfl⟩ := h
  exact hcut.size_eq

end

theorem isSequence (T : Type) : (container T).IsSequence Holds where
  empty := holds_reserved 0
  reserve n h := h.reserve n
  size h := h.size
  get hi h := h.get hi
  set hi x h := h.set hi x
  pushBack x h := h.pushBack x
  insert hi x h := h.insertAt hi x
  erase hi h := h.eraseAt hi
  copy h := h.rebuild _

/-- **An array is the list that the calls make**: calls that are in range for the list never fail on
a new array, whatever the sizes of its deques, and in the end it has the size and the elements of
the list. -/
theorem run_edits {es : List (Container.Edit T)} {L : List T}
    (hes : es.foldlM Container.editList [] = some L) :
    ∃ a, es.foldlM (container T).edit (reserved 0) = .ok a ∧ a.size = L.length ∧
      ∀ i (hi : i < L.length), a.get i = .ok L[i] := by
  obtain ⟨a, ha, hholds⟩ := (isSequence T).edits (holds_reserved 0) hes
  exact ⟨a, ha, hholds.size, fun i hi => hholds.get hi⟩

/-- Deques of two elements, an insertion in front of them all and a removal there, and a copy. -/
theorem run_edits_two : ∃ a, [Container.Edit.reserve 4, .pushBack 1, .pushBack 2, .pushBack 3,
    .pushBack 4, .insert 0 9, .erase 1, .set 2 7, .copy, .pushBack 5].foldlM
      (container ℕ).edit (reserved 0) = .ok a ∧ a.size = [9, 2, 7, 4, 5].length ∧
    ∀ i (hi : i < [9, 2, 7, 4, 5].length), a.get i = .ok [9, 2, 7, 4, 5][i] :=
  run_edits (by decide)

end IgushArray

end OpTransform.Igush
