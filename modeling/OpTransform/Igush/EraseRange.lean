import OpTransform.Igush.Iterator

/-! # `erase` of a range

`erase(first, last)` of the array keeps the deques full without a rebuild. The elements that leave
the deques behind the range to the front, those behind the range in its last deque and those in
front of it in its first deque are gathered in a temporary deque. As many deques of the range as
they need take them, and the others go. The array holds the list without the range
(`Cut.eraseRange`). -/

namespace OpTransform.Igush

open OpTransform.Lib.Ring OpTransform.Lib.Chunks

variable {T : Type}

namespace IgushArray

/-! ### Operations -/

/-- `operator>`. -/
def greater (a : IgushArray T) (it iai : Iterator) : Except Fault Bool :=
  if it.vecIt > iai.vecIt then .ok true
  else if it.vecIt = iai.vecIt then do
    let d ← a.deque it.vecIt
    return d.greater it.deqIt iai.deqIt
  else .ok false

/-- `operator>=`. -/
def greaterEq (a : IgushArray T) (it iai : Iterator) : Except Fault Bool := do
  let gt ← a.greater it iai
  return gt || it = iai

/-- "Move some elements up": up to `move` elements leave the front of a deque. -/
def takeFronts : ℕ → FixedDeque T → List T → Except Fault (FixedDeque T × List T)
  | 0, d, temp2 => .ok (d, temp2)
  | move + 1, d, temp2 =>
    if d.size = 0 then .ok (d, temp2)
    else do
      let x ← d.front
      let d ← d.popFront
      takeFronts move d (temp2 ++ [x])

/-- Up to `move` elements that have left the deque behind come to the end. -/
def putBacks : ℕ → FixedDeque T → List T → Except Fault (FixedDeque T × List T)
  | 0, d, temp1 => .ok (d, temp1)
  | _ + 1, d, [] => .ok (d, [])
  | move + 1, d, x :: temp1 => do
    let d ← d.pushBack x
    putBacks move d temp1

/-- The deques behind that of `it_last`, with `temp1` and `temp2`. The loop begins with the last
deque. A deque that is empty goes; it is never the only one, as that of `it_last` is in front
of it. -/
def shiftUp (move : ℕ) : List (FixedDeque T) → Except Fault (List (FixedDeque T) × List T × List T)
  | [] => .ok ([], [], [])
  | d :: ds => do
    let (ds, temp1, temp2) ← shiftUp move ds
    let (d, temp2) ← takeFronts move d temp2
    let (d, temp1) ← putBacks move d temp1
    return (if d.empty then ds else d :: ds, temp2, temp1)

/-- "Save the rest of elements": from `it` back to `stop`, to the front of `temp1`. The loop visits
every cell at most once. -/
def save (d : FixedDeque T) (stop : ℕ) : ℕ → ℕ → List T → Except Fault (List T)
  | 0, _, _ => .error .loop
  | fuel + 1, it, temp1 =>
    if it = stop then .ok temp1
    else do
      let x ← d.read (d.minus it 1)
      save d stop fuel (d.minus it 1) (x :: temp1)

/-- "Put elements that have been moved up" to a deque, and when it is full to the next one, which is
cleared. -/
def putMoved (deqSize : ℕ) :
    FixedDeque T → List (FixedDeque T) → List T → Except Fault (List (FixedDeque T))
  | d, ds, [] => .ok (d :: ds)
  | d, ds, x :: temp1 => do
    let d ← d.pushBack x
    if d.size = deqSize ∧ temp1 ≠ [] then
      match ds with
      | [] => .error .rawMemory
      | e :: ds => do
        let ds ← putMoved deqSize e.clear ds temp1
        return d :: ds
    else putMoved deqSize d ds temp1

/-- `it_last`, which is not at the beginning of a deque. -/
def rangeStop (a : IgushArray T) (itLast : Iterator) : Except Fault Iterator := do
  let d ← a.deque itLast.vecIt
  if itLast.deqIt = d.beginPos then
    let e ← a.deque (itLast.vecIt - 1)
    return ⟨itLast.vecIt - 1, e.endPos⟩
  else return itLast

/-- `move`, the number of elements that leave a deque behind the range. -/
def rangeMove (a : IgushArray T) (itFirst itLast : Iterator) : Except Fault ℕ := do
  let n ← a.difference itLast itFirst
  let eraseElements := n.toNat - n.toNat / a.deqSize * a.deqSize
  let stop ← a.endIt
  let totalToEnd ← a.difference stop itLast
  return if eraseElements < totalToEnd.toNat then eraseElements else totalToEnd.toNat

/-- "Erase deques": the deques that are left of `v`, and `_vec_it`. If all were to go, the first one
is cleared instead. -/
def eraseDeques (v : List (FixedDeque T)) (firstErased lastErased : ℕ) : List (FixedDeque T) × ℕ :=
  let allVectors := lastErased - firstErased ≥ v.length
  let kept := if allVectors then ((v.drop firstErased).take 1).map FixedDeque.clear else []
  (v.take firstErased ++ kept ++ v.drop lastErased,
    if lastErased - (firstErased + kept.length) > 0 then firstErased + kept.length else firstErased)

/-- "Put elements that have been moved up", from the deque `vecIt` on, which is cleared. -/
def fillUp (deqSize : ℕ) (v : List (FixedDeque T)) (vecIt : ℕ) (temp1 : List T) :
    Except Fault (List (FixedDeque T)) :=
  if temp1 = [] then .ok v
  else
    match v.drop vecIt with
    | [] => .error .rawMemory
    | d :: ds => do
      let ds ← putMoved deqSize d.clear ds temp1
      return v.take vecIt ++ ds

/-- The end of `erase`, with the range in the deques from `firstVec` to `lastVec`. As many of them
as the elements in `temp1` need are safe. -/
def closeUp (deqSize : ℕ) (v : List (FixedDeque T)) (firstVec lastVec : ℕ) (temp1 : List T) :
    Except Fault (List (FixedDeque T)) :=
  let toSafe := (temp1.length + deqSize - 1) / deqSize
  if lastVec + 1 < firstVec + toSafe then .error .rawMemory
  else
    let (v, vecIt) := eraseDeques v (firstVec + toSafe) (lastVec + 1)
    fillUp deqSize v (vecIt - toSafe) temp1

/-- The deques up to that of `it_last` and those behind, and the elements that have
been gathered. -/
def gather (a : IgushArray T) (move : ℕ) (itFirst itLast : Iterator) :
    Except Fault (List (FixedDeque T) × List T) := do
  let (behind, temp1, _) ← shiftUp move (a.v.drop (itLast.vecIt + 1))
  let d ← a.deque itLast.vecIt
  let temp1 ← save d itLast.deqIt (d.size + 1) d.endPos temp1
  let d ← a.deque itFirst.vecIt
  let temp1 ← save d d.beginPos (d.size + 1) itFirst.deqIt temp1
  return (a.v.take (itLast.vecIt + 1) ++ behind, temp1)

/-- `erase` of a range. -/
def eraseRange (a : IgushArray T) (itFirst itLast : Iterator) : Except Fault (IgushArray T) := do
  if ← a.greaterEq itFirst itLast then return a
  else
    let move ← a.rangeMove itFirst itLast
    let itLast ← a.rangeStop itLast
    let (v, temp1) ← a.gather move itFirst itLast
    let v ← closeUp a.deqSize v itFirst.vecIt itLast.vecIt temp1
    return { a with v := v }

/-- `erase` of a range, with the iterator that it returns. -/
def eraseRangeIt (a : IgushArray T) (itFirst itLast : Iterator) :
    Except Fault (IgushArray T × Iterator) := do
  if ← a.greaterEq itFirst itLast then return (a, itFirst)
  else a.returning itFirst (a.eraseRange itFirst itLast)

section
variable {a : IgushArray T} {init bs pre post : List (List T)} {last b temp1 temp2 : List T}
  {n p q j k move : ℕ} {it it' : Iterator} {ds es : List (FixedDeque T)} {d : FixedDeque T}
  {L : List T}

/-! ### The order of iterators -/

theorem Points.greater (h : Cut a init last) (hit : Points a (init ++ [last]) p it)
    (hit' : Points a (init ++ [last]) q it') : a.greater it it' = .ok (decide (q < p)) := by
  obtain ⟨pre, b, post, j, ds, d, es, hat⟩ := hit
  obtain ⟨pre', b', post', j', ds', d', es', hat'⟩ := hit'
  have hvec : it.vecIt = pre.length := hat.vecIt.trans hat.length_eq
  have hvec' : it'.vecIt = pre'.length := hat'.vecIt.trans hat'.length_eq
  rw [IgushArray.greater]
  rcases Nat.lt_trichotomy it.vecIt it'.vecIt with hlt | heq | hgt
  · obtain ⟨-, hpq⟩ := h.chunked.place_lt hat.place hat'.place (by rwa [← hvec, ← hvec'])
    rw [if_neg (Nat.lt_asymm hlt), if_neg (Nat.ne_of_lt hlt), decide_eq_false (Nat.lt_asymm hpq)]
  · obtain ⟨rfl, rfl, hsum⟩ := hat.same hat' heq
    rw [if_neg (Nat.not_lt.mpr heq.le), if_pos heq, hat.deque]
    show Except.ok (d'.greater it.deqIt it'.deqIt) = _
    rw [hat.deqIt, hat'.deqIt, hat.here.greater_slot hat.place.le hat'.place.le]
    congr 2
    exact propext ⟨fun _ => by omega, fun _ => by omega⟩
  · obtain ⟨-, hpq⟩ := h.chunked.place_lt hat'.place hat.place (by rwa [← hvec, ← hvec'])
    rw [if_pos hgt, decide_eq_true hpq]

theorem Points.greaterEq (h : Cut a init last) (hit : Points a (init ++ [last]) p it)
    (hit' : Points a (init ++ [last]) q it') : a.greaterEq it it' = .ok (decide (q ≤ p)) := by
  rw [IgushArray.greaterEq, hit.greater h hit']
  have heq := hit.eq_iff h hit'
  show Except.ok (decide (q < p) || decide (it = it')) = _
  rw [← Bool.decide_or]
  congr 1
  exact decide_eq_decide.mpr (by rw [heq, le_iff_lt_or_eq, eq_comm])

/-! ### The loops -/

theorem takeFronts_eq (move : ℕ) (h : FixedDeque.Holds n d b) (temp2 : List T) :
    ∃ d', takeFronts move d temp2 = .ok (d', temp2 ++ b.take move) ∧
      FixedDeque.Holds n d' (b.drop move) := by
  induction move generalizing d b temp2 with
  | zero => exact ⟨d, by rw [takeFronts, List.take_zero, List.append_nil], h⟩
  | succ move ih =>
    rw [takeFronts, h.size_eq]
    cases b with
    | nil => exact ⟨d, by simp, h⟩
    | cons x b =>
      obtain ⟨e, hpop, he⟩ := h.popFront
      obtain ⟨d', hloop, hd'⟩ := ih he (temp2 ++ [x])
      refine ⟨d', ?_, hd'⟩
      rw [if_neg (by simp), h.front]
      show (d.popFront).bind _ = _
      rw [hpop]
      show takeFronts move e (temp2 ++ [x]) = _
      rw [hloop, List.append_assoc]
      rfl

theorem putBacks_eq (h : FixedDeque.Holds n d b) (hmove : temp1.length ≤ move)
    (hroom : b.length + temp1.length ≤ n) :
    ∃ d', putBacks move d temp1 = .ok (d', []) ∧ FixedDeque.Holds n d' (b ++ temp1) := by
  induction temp1 generalizing d b move with
  | nil =>
    refine ⟨d, ?_, by rwa [List.append_nil]⟩
    cases move <;> rfl
  | cons x temp1 ih =>
    rw [List.length_cons] at hmove hroom
    obtain ⟨move, rfl⟩ := Nat.exists_eq_succ_of_ne_zero (Nat.ne_of_gt (Nat.zero_lt_of_lt hmove))
    obtain ⟨e, hpush, he⟩ := h.pushBack (by omega) x
    obtain ⟨d', hloop, hd'⟩ := ih he (Nat.le_of_succ_le_succ hmove) (by simp; omega)
    refine ⟨d', ?_, by rwa [List.append_assoc] at hd'⟩
    rw [putBacks, hpush]
    exact hloop

/-- **The deques behind the range** lose their first `move` elements, and stay full. -/
theorem shiftUp_eq (hds : List.Forall₂ (FixedDeque.Holds n) ds bs) (hbs : Behind n bs)
    (hmove : move < n) :
    ∃ ds' bs', shiftUp move ds = .ok (ds', bs.flatten.take move, []) ∧
      List.Forall₂ (FixedDeque.Holds n) ds' bs' ∧ bs'.flatten = bs.flatten.drop move ∧
      Behind n bs' := by
  induction hds with
  | nil => exact ⟨[], [], by simp [shiftUp], .nil, by simp, .nil⟩
  | @cons d b ds bs hd _ ih =>
    obtain _ | ⟨hne, hle, hfull, hbehind⟩ := hbs
    obtain ⟨ds', bs', hloop, hds', hflat, hbehind'⟩ := ih hbehind
    obtain ⟨e, htake, he⟩ := takeFronts_eq move hd []
    have hlen : (bs.flatten.take move).length ≤ move := List.length_take_le _ _
    -- a deque in front of others is full, and has more than `move` elements
    have hmore : bs ≠ [] → move < b.length := fun hnil => by rw [hfull hnil]; exact hmove
    have hnil : bs = [] → bs' = [] := by
      rintro rfl
      by_contra hbs'
      exact hbehind'.flatten_ne_nil hbs' (by rw [hflat]; simp)
    obtain ⟨d', hput, hd'⟩ := putBacks_eq he hlen (by
      by_cases hbsnil : bs = []
      · subst hbsnil
        simp
        omega
      · rw [List.length_drop, hfull hbsnil]
        omega)
    have hshift : shiftUp move (d :: ds) =
        .ok (if d'.empty then ds' else d' :: ds', b.take move, []) := by
      rw [shiftUp, hloop]
      show (takeFronts move d []).bind _ = _
      rw [htake]
      show (putBacks move e (bs.flatten.take move)).bind _ = _
      rw [hput]
      rfl
    have htemp : (b :: bs).flatten.take move = b.take move := by
      by_cases hbsnil : bs = []
      · subst hbsnil
        simp
      · rw [List.flatten_cons, List.take_append_of_le_length (hmore hbsnil).le]
    have hrest : b.drop move ++ bs.flatten.take move ++ bs'.flatten =
        (b :: bs).flatten.drop move := by
      rw [hflat, List.append_assoc, List.take_append_drop, List.flatten_cons]
      by_cases hbsnil : bs = []
      · subst hbsnil
        simp
      · rw [List.drop_append_of_le_length (hmore hbsnil).le]
    rw [hshift, htemp, ← hrest]
    by_cases hempty : b.drop move ++ bs.flatten.take move = []
    · refine ⟨ds', bs', ?_, hds', by rw [hempty, List.nil_append], hbehind'⟩
      rw [if_pos (hd'.empty_iff.mpr hempty)]
    · refine ⟨d' :: ds', (b.drop move ++ bs.flatten.take move) :: bs', ?_, .cons hd' hds', rfl,
        .cons hempty hd'.length_le (fun hbs' => ?_) hbehind'⟩
      · rw [if_neg fun h => hempty (hd'.empty_iff.mp h)]
      · have hbsnil : bs ≠ [] := fun h => hbs' (hnil h)
        have hpos := List.length_pos_iff.mpr (hbehind'.flatten_ne_nil hbs')
        rw [hflat, List.length_drop] at hpos
        rw [List.length_append, List.length_drop, List.length_take, hfull hbsnil]
        omega

theorem saveLoop_eq {g fuel : ℕ} (h : FixedDeque.Holds n d b) (hg : j + g ≤ b.length)
    (hfuel : g < fuel) (temp1 : List T) :
    save d (slot (n + 1) d.beginPos j) fuel (slot (n + 1) d.beginPos (j + g)) temp1 =
      .ok ((b.take (j + g)).drop j ++ temp1) := by
  have hlen := h.length_le
  induction g generalizing fuel temp1 with
  | zero =>
    obtain ⟨fuel, rfl⟩ := Nat.exists_eq_succ_of_ne_zero (Nat.ne_of_gt hfuel)
    rw [save, if_pos (congrArg _ (Nat.add_zero j))]
    simp
  | succ g ih =>
    obtain ⟨fuel, rfl⟩ := Nat.exists_eq_succ_of_ne_zero (Nat.ne_of_gt (Nat.zero_lt_of_lt hfuel))
    have hlt : j + g < b.length := by omega
    have hne : slot (n + 1) d.beginPos (j + (g + 1)) ≠ slot (n + 1) d.beginPos j := by
      rw [Ne, slot_inj (by omega) (by omega)]
      omega
    rw [save, if_neg hne, ← Nat.add_assoc, FixedDeque.minus_slot h.cells h.begin_lt,
      h.read_slot (List.getElem?_eq_getElem hlt)]
    show save d _ fuel (slot (n + 1) d.beginPos (j + g)) (b[j + g] :: temp1) = _
    rw [ih (by omega) (Nat.lt_of_succ_lt_succ hfuel), List.take_add_one,
      List.getElem?_eq_getElem hlt, List.drop_append_of_le_length (by simp; omega)]
    simp

theorem save_eq (h : FixedDeque.Holds n d b) (hjk : j ≤ k) (hk : k ≤ b.length) (temp1 : List T) :
    save d (slot (n + 1) d.beginPos j) (d.size + 1) (slot (n + 1) d.beginPos k) temp1 =
      .ok ((b.take k).drop j ++ temp1) := by
  obtain ⟨g, rfl⟩ := Nat.exists_eq_add_of_le hjk
  exact saveLoop_eq h hk (by rw [h.size_eq]; omega) temp1

/-- The elements that have been gathered fill `es.length + 1` deques. -/
theorem putMoved_eq (hn : 0 < n) (hd : FixedDeque.Holds n d b) (hlt : b.length < n)
    (hes : List.Forall₂ (FixedDeque.Holds n) es bs) (htemp : temp1 ≠ [])
    (hmin : es.length * n < b.length + temp1.length)
    (hmax : b.length + temp1.length ≤ (es.length + 1) * n) (rest : List (FixedDeque T)) :
    ∃ ds' bs', putMoved n d (es ++ rest) temp1 = .ok (ds' ++ rest) ∧
      List.Forall₂ (FixedDeque.Holds n) ds' bs' ∧ bs'.flatten = b ++ temp1 ∧ Behind n bs' := by
  induction temp1 generalizing d b es bs with
  | nil => exact absurd rfl htemp
  | cons x temp1 ih =>
    obtain ⟨d', hpush, hd'⟩ := hd.pushBack hlt x
    have hsize : d'.size = b.length + 1 := by
      rw [hd'.size_eq, List.length_append, List.length_singleton]
    rw [List.length_cons] at hmin hmax
    rw [putMoved, hpush]
    show ∃ ds' bs', (if d'.size = n ∧ temp1 ≠ [] then _ else _) = Except.ok (ds' ++ rest) ∧ _
    have hne : b ++ [x] ≠ [] := by simp
    by_cases hlast : temp1 = []
    · -- the last element, in the last deque
      subst hlast
      have hnil : es = [] := by
        refine List.length_eq_zero_iff.mp (Nat.eq_zero_of_not_pos fun hpos => ?_)
        have hmul := Nat.mul_le_mul_right n hpos
        simp at hmin
        omega
      subst hnil
      refine ⟨[d'], [b ++ [x]], ?_, .cons hd' .nil, by simp,
        .cons hne hd'.length_le (fun h => absurd rfl h) .nil⟩
      rw [if_neg fun h => h.2 rfl]
      rfl
    · by_cases hfull : b.length + 1 = n
      · -- the deque is full, and the next one is cleared
        rw [if_pos ⟨hsize.trans hfull, hlast⟩]
        have hpos := List.length_pos_iff.mpr hlast
        cases hes with
        | nil => simp at hmax; omega
        | @cons e c es bs he hes =>
          rw [List.length_cons, Nat.succ_mul] at hmin hmax
          obtain ⟨ds', bs', hloop, hds', hflat, hbehind⟩ := ih he.clear hn hes hlast
            (by simp; omega) (by simp; rw [Nat.succ_mul] at hmax ⊢; omega)
          refine ⟨d' :: ds', (b ++ [x]) :: bs', ?_, .cons hd' hds', by simp [hflat],
            .cons hne hd'.length_le (fun _ => by simpa using hfull) hbehind⟩
          show (putMoved n e.clear (es ++ rest) temp1).bind _ = _
          rw [hloop]
          rfl
      · rw [if_neg fun h => hfull (hsize.symm.trans h.1)]
        have hlen : (b ++ [x]).length = b.length + 1 := by simp
        obtain ⟨ds', bs', hloop, hds', hflat, hbehind⟩ := ih hd' (by omega) hes hlast (by omega)
          (by omega)
        exact ⟨ds', bs', hloop, hds', by simpa using hflat, hbehind⟩

/-! ### The deques of the range -/

theorem roundUp_spec (hn : 0 < n) (k : ℕ) :
    k ≤ (k + n - 1) / n * n ∧ (k + n - 1) / n * n < k + n := by
  have hdown := Nat.div_mul_le_self (k + n - 1) n
  have hup := Nat.lt_div_mul_add (a := k + n - 1) hn
  omega

theorem eraseDeques_of_lt {v : List (FixedDeque T)} {i k : ℕ} (h : k - i < v.length) :
    eraseDeques v i k = (v.take i ++ v.drop k, i) := by
  simp [eraseDeques, Nat.not_le.mpr h]

theorem eraseDeques_all (d : FixedDeque T) (ds : List (FixedDeque T)) :
    (eraseDeques (d :: ds) 0 (ds.length + 1)).1 = [d.clear] := by
  simp [eraseDeques]

/-- The deques `v` hold the list `L`, in chunks of `n`. -/
def HoldsAll (n : ℕ) (v : List (FixedDeque T)) (L : List T) : Prop :=
  ∃ init last, List.Forall₂ (FixedDeque.Holds n) v (init ++ [last]) ∧ Chunked n init last ∧
    (init ++ [last]).flatten = L

theorem holdsAll_of_behind {v : List (FixedDeque T)} (hv : List.Forall₂ (FixedDeque.Holds n) v bs)
    (hbs : Behind n bs) (hne : bs ≠ []) : HoldsAll n v bs.flatten := by
  obtain ⟨init, last, rfl, hchunked⟩ := hbs.chunked hne
  exact ⟨init, last, hv, hchunked, rfl⟩

section
variable {ms : List (FixedDeque T)} {mid : List (List T)} {lastVec : ℕ} (hn : 0 < n)
  (hds : List.Forall₂ (FixedDeque.Holds n) ds pre) (hpre : ∀ b ∈ pre, b.length = n)
  (hms : List.Forall₂ (FixedDeque.Holds n) ms mid) (hmid : ms ≠ [])
  (hes : List.Forall₂ (FixedDeque.Holds n) es post) (hpost : Behind n post)
  (hlast : lastVec + 1 = ds.length + ms.length)
include hn hds hpre hms hmid hes hpost hlast

theorem closeUp_nil : ∃ v', closeUp n (ds ++ ms ++ es) ds.length lastVec [] = .ok v' ∧
    HoldsAll n v' (pre ++ post).flatten := by
  have hsafe : (([] : List T).length + n - 1) / n = 0 := by
    rw [List.length_nil, Nat.zero_add]
    exact Nat.div_eq_of_lt (Nat.sub_one_lt hn.ne')
  have hpos := List.length_pos_iff.mpr hmid
  rw [closeUp, hlast, hsafe, if_neg (by omega)]
  show ∃ v', fillUp n (eraseDeques (ds ++ ms ++ es) ds.length (ds.length + ms.length)).1 _ [] =
    .ok v' ∧ _
  rw [fillUp, if_pos rfl]
  refine ⟨_, rfl, ?_⟩
  by_cases hall : ds = [] ∧ es = []
  · -- the first deque of the array stays
    obtain ⟨rfl, rfl⟩ := hall
    obtain ⟨d, ms, rfl⟩ := List.exists_cons_of_ne_nil hmid
    obtain ⟨b, mid', hd, -, rfl⟩ := List.forall₂_cons_left_iff.mp hms
    rw [List.forall₂_nil_left_iff.mp hds, List.forall₂_nil_left_iff.mp hes]
    have herase := eraseDeques_all d ms
    rw [← List.length_cons (a := d)] at herase
    simp only [List.nil_append, List.append_nil, List.length_nil, Nat.zero_add, herase]
    exact ⟨[], [], .cons hd.clear .nil, ⟨nofun, Nat.zero_le n, fun h => absurd rfl h⟩, rfl⟩
  · have hsome : ds.length + ms.length - ds.length < (ds ++ ms ++ es).length := by
      rw [List.length_append, List.length_append]
      by_contra hle
      refine hall ⟨List.length_eq_zero_iff.mp ?_, List.length_eq_zero_iff.mp ?_⟩ <;> omega
    have hv : (ds ++ ms ++ es).take ds.length ++ (ds ++ ms ++ es).drop (ds.length + ms.length) =
        ds ++ es := by
      rw [← List.length_append, List.drop_left' rfl, List.append_assoc, List.take_left' rfl]
    rw [eraseDeques_of_lt hsome, hv]
    refine holdsAll_of_behind (List.rel_append hds hes) (hpost.append_full hn hpre) fun hnil => ?_
    obtain ⟨rfl, rfl⟩ := List.append_eq_nil_iff.mp hnil
    exact hall ⟨List.forall₂_nil_right_iff.mp hds, List.forall₂_nil_right_iff.mp hes⟩

/-- **The range is closed**: the deques of the range take the elements that have been gathered. If
there are deques behind, these elements fill whole deques. -/
theorem closeUp_eq (hroom : temp1.length ≤ ms.length * n) (hdvd : post ≠ [] → n ∣ temp1.length) :
    ∃ v', closeUp n (ds ++ ms ++ es) ds.length lastVec temp1 = .ok v' ∧
      HoldsAll n v' (pre.flatten ++ temp1 ++ post.flatten) := by
  by_cases htemp : temp1 = []
  · subst htemp
    rw [List.append_nil, ← List.flatten_append]
    exact closeUp_nil hn hds hpre hms hmid hes hpost hlast
  obtain ⟨hup, hdown⟩ := roundUp_spec hn temp1.length
  rw [closeUp, hlast]
  set s := (temp1.length + n - 1) / n with hs
  have hpos := List.length_pos_iff.mpr htemp
  obtain ⟨r, hr⟩ : ∃ r, s = r + 1 := Nat.exists_eq_succ_of_ne_zero fun h0 => by
    rw [h0, Nat.zero_mul] at hup
    omega
  have hsm : s ≤ ms.length := by
    have hlt : s * n < (ms.length + 1) * n := by
      rw [Nat.succ_mul]
      omega
    exact Nat.lt_succ_iff.mp (Nat.lt_of_mul_lt_mul_right hlt)
  have hsome : ds.length + ms.length - (ds.length + s) < (ds ++ ms ++ es).length := by
    rw [List.length_append, List.length_append]
    omega
  have hv : (ds ++ ms ++ es).take (ds.length + s) ++ (ds ++ ms ++ es).drop (ds.length + ms.length) =
      ds ++ (ms.take s ++ es) := by
    rw [← List.length_append, List.drop_left' rfl, List.append_assoc, List.take_length_add_append,
      List.take_append_of_le_length hsm, List.append_assoc]
  rw [if_neg (by omega), eraseDeques_of_lt hsome, hv]
  show ∃ v', fillUp n (ds ++ (ms.take s ++ es)) (ds.length + s - s) temp1 = .ok v' ∧ _
  obtain ⟨d, ms', hms'⟩ : ∃ d ms', ms.take s = d :: ms' :=
    List.exists_cons_of_ne_nil fun hnil => by simp [hr, hmid] at hnil
  have hmslen : ms'.length = r := by
    have := congrArg List.length hms'
    rw [List.length_take, List.length_cons] at this
    omega
  obtain ⟨b, mid', hd, hrest, -⟩ := List.forall₂_cons_left_iff.mp (hms' ▸ List.forall₂_take s hms)
  obtain ⟨ds', bs', hput, hds', hflat, hbehind⟩ := putMoved_eq hn hd.clear hn hrest htemp
    (by rw [hmslen, List.length_nil]; rw [hr, Nat.succ_mul] at hdown; omega)
    (by rwa [hmslen, ← hr, List.length_nil, Nat.zero_add]) es
  rw [List.nil_append] at hflat
  have hall : Behind n (pre ++ (bs' ++ post)) := by
    refine Behind.append_full ?_ hn hpre
    by_cases hpostnil : post = []
    · rwa [hpostnil, List.append_nil]
    · exact hpost.append_full hn (hbehind.full_of_dvd (hflat ▸ hdvd hpostnil))
  have hbs' : bs' ≠ [] := by
    rintro rfl
    exact htemp hflat.symm
  refine ⟨ds ++ (ds' ++ es), ?_, ?_⟩
  · rw [fillUp, if_neg htemp, Nat.add_sub_cancel, List.drop_left' rfl, hms', List.take_left' rfl]
    show (putMoved n d.clear (ms' ++ es) temp1).bind _ = _
    rw [hput]
    rfl
  · have hlist : pre.flatten ++ temp1 ++ post.flatten = (pre ++ (bs' ++ post)).flatten := by
      rw [List.flatten_append, List.flatten_append, hflat, List.append_assoc]
    rw [hlist]
    exact holdsAll_of_behind (List.rel_append hds (List.rel_append hds' hes)) hall (by simp [hbs'])

end

/-! ### The range -/

/-- The iterator `it` is at the index `p`, in the deque `d` of the element in front of it. -/
structure StopsAt (a : IgushArray T) (it : Iterator) (bs : List (List T)) (p : ℕ)
    (pre : List (List T)) (b : List T) (post : List (List T)) (j : ℕ) (ds : List (FixedDeque T))
    (d : FixedDeque T)
    (es : List (FixedDeque T)) : Prop where
  eq : bs = pre ++ b :: post
  index : pre.flatten.length + j = p
  pos : 0 < j
  le : j ≤ b.length
  v_eq : a.v = ds ++ d :: es
  vecIt : it.vecIt = ds.length
  deqIt : it.deqIt = slot (a.deqSize + 1) d.beginPos j
  length_eq : ds.length = pre.length
  before : List.Forall₂ (FixedDeque.Holds a.deqSize) ds pre
  here : FixedDeque.Holds a.deqSize d b
  behind : List.Forall₂ (FixedDeque.Holds a.deqSize) es post

/-- **`it_last`** goes back to the end of the deque before, if it is at the beginning of one. -/
theorem Points.rangeStop (h : Cut a init last) (hit : Points a (init ++ [last]) q it) (hq : 0 < q) :
    ∃ it' pre b post j ds d es, a.rangeStop it = .ok it' ∧
      StopsAt a it' (init ++ [last]) q pre b post j ds d es := by
  obtain ⟨pre, b, post, j, ds, d, es, hat⟩ := hit
  have hj := hat.place.le
  have hlen := hat.here.length_le
  have hindex := hat.place.index
  have hbegin : it.deqIt = d.beginPos ↔ j = 0 := by
    have hinj := slot_inj (m := a.deqSize + 1) (a := d.beginPos) (i := j) (j := 0) (by omega)
      (by omega)
    rwa [slot_zero hat.here.begin_lt, ← hat.deqIt] at hinj
  rw [IgushArray.rangeStop, hat.deque]
  show ∃ it' pre b post j ds d es, (if it.deqIt = _ then _ else _) = Except.ok it' ∧ _
  by_cases hj0 : j = 0
  · subst hj0
    -- the deque before is full
    obtain ⟨pre', c, rfl⟩ := (List.eq_nil_or_concat' pre).resolve_left fun hnil => by
      rw [hnil] at hindex
      simp at hindex
      omega
    have hbefore : List.Forall₂ (FixedDeque.Holds a.deqSize) ds (pre' ++ c :: []) := hat.before
    obtain ⟨ds', d', es', hds, hlen', hds', hd', hes'⟩ := exists_of_forall₂_append_cons hbefore
    rw [List.forall₂_nil_right_iff.mp hes'] at hds
    have heq := hat.place.eq
    have hfull := h.chunked.full_before heq c (by simp)
    have hget : a.v[it.vecIt - 1]? = some d' := by
      rw [hat.v_eq, hat.vecIt, hds]
      simp
    refine ⟨⟨it.vecIt - 1, d'.endPos⟩, pre', c, b :: post, c.length, ds', d', d :: es, ?_, ?_, ?_,
      ?_, le_rfl, ?_, ?_, ?_, hlen', hds', hd', .cons hat.here hat.behind⟩
    · rw [if_pos (hbegin.mpr rfl), deque_eq hget]
      rfl
    · rw [heq, List.append_assoc, List.singleton_append]
    · rw [← hindex, List.flatten_append, List.flatten_singleton, List.length_append, Nat.add_zero]
    · rw [hfull]
      exact h.pos
    · rw [hat.v_eq, hds, List.append_assoc, List.singleton_append]
    · rw [hat.vecIt, hds, List.length_append, List.length_singleton, Nat.add_sub_cancel]
    · exact hd'.endPos
  · refine ⟨it, pre, b, post, j, ds, d, es, ?_, hat.place.eq, hindex, Nat.pos_of_ne_zero hj0, hj,
      hat.v_eq, hat.vecIt, hat.deqIt, hat.length_eq, hat.before, hat.here, hat.behind⟩
    rw [if_neg fun h => hj0 (hbegin.mp h)]
    rfl

/-- **`move`** is what the range has beyond whole deques, or all that is behind it. -/
theorem Points.rangeMove (h : Cut a init last) (hit : Points a (init ++ [last]) p it)
    (hit' : Points a (init ++ [last]) q it') (hpq : p ≤ q)
    (hq : q ≤ (init ++ [last]).flatten.length) : a.rangeMove it it' =
      .ok (min ((q - p) % a.deqSize) ((init ++ [last]).flatten.length - q)) := by
  obtain ⟨stop, hstop⟩ := h.exists_points le_rfl
  have hend : a.endIt = .ok stop := by
    obtain ⟨_, _, _, _, _, _, _, hat⟩ := hstop
    exact hat.endIt rfl
  have hn : ((q : ℤ) - p).toNat = q - p := by omega
  have htotal : (((init ++ [last]).flatten.length : ℤ) - q).toNat =
      (init ++ [last]).flatten.length - q := by omega
  have hmod : (q - p) - (q - p) / a.deqSize * a.deqSize = (q - p) % a.deqSize := by
    have := Nat.div_add_mod' (q - p) a.deqSize
    omega
  rw [IgushArray.rangeMove, hit'.difference h hit]
  show (a.endIt).bind _ = _
  rw [hend]
  show (a.difference stop it').bind _ = _
  rw [hstop.difference h hit']
  show Except.ok (if (q - p : ℤ).toNat - (q - p : ℤ).toNat / a.deqSize * a.deqSize <
    (((init ++ [last]).flatten.length : ℤ) - q).toNat then _ else _) = _
  rw [hn, htotal, hmod]
  congr 1
  split_ifs <;> omega

/-- How many elements are gathered: `i` in front of the range, those behind it in its last deque,
and what has come from the deques behind. They have room in the deques of the range, and fill whole
ones if there is more behind. -/
theorem gathered_le {E i l c S : ℕ} (hE : E + i = k * n + l) (hl : l ≤ c) (hc : c ≤ n)
    (hfull : 0 < S → c = n) :
    i + (c - l) + min (min (E % n) (c - l + S)) S ≤ (k + 1) * n ∧
      (min (E % n) (c - l + S) < S → n ∣ i + (c - l) + min (min (E % n) (c - l + S)) S) := by
  have hdiv := Nat.div_add_mod' E n
  rw [Nat.succ_mul]
  generalize hr : E % n = r at *
  rcases Nat.eq_zero_or_pos S with rfl | hS
  · exact ⟨by omega, fun h => absurd h (Nat.not_lt_zero _)⟩
  · have hcn := hfull hS
    refine ⟨by omega, fun hlt => ?_⟩
    have hsum : i + (c - l) + min (min r (c - l + S)) S + E / n * n = (k + 1) * n := by
      rw [Nat.succ_mul]
      omega
    exact (Nat.dvd_add_left (Nat.dvd_mul_left n _)).mp (hsum ▸ Nat.dvd_mul_left n _)

theorem gather_eq {preF preL postF postL : List (List T)} {bF bL : List T} {i l : ℕ}
    {dsF dsL esF esL : List (FixedDeque T)} {dF dL : FixedDeque T}
    (hat : IsAt a it bs p preF bF postF i dsF dF esF)
    (hat' : StopsAt a it' bs q preL bL postL l dsL dL esL) (hbehind : Behind a.deqSize postL)
    (hmove : move < a.deqSize) :
    ∃ es' post', a.gather move it it' =
        .ok (dsL ++ [dL] ++ es', bF.take i ++ (bL.drop l ++ postL.flatten.take move)) ∧
      List.Forall₂ (FixedDeque.Holds a.deqSize) es' post' ∧
      post'.flatten = postL.flatten.drop move ∧ Behind a.deqSize post' := by
  obtain ⟨es', post', hshift, hes', hflat, hbehind'⟩ := shiftUp_eq hat'.behind hbehind hmove
  have hsave := save_eq hat'.here hat'.le le_rfl (postL.flatten.take move)
  rw [List.take_length, ← hat'.deqIt, ← hat'.here.endPos] at hsave
  have hsave' := save_eq hat.here (Nat.zero_le i) hat.place.le
    (bL.drop l ++ postL.flatten.take move)
  rw [List.drop_zero, slot_zero hat.here.begin_lt, ← hat.deqIt] at hsave'
  have hget : a.v[it'.vecIt]? = some dL := by
    rw [hat'.v_eq, hat'.vecIt]
    simp
  have hv : a.v = dsL ++ [dL] ++ esL := by
    rw [hat'.v_eq, List.append_assoc, List.singleton_append]
  have hlen : it'.vecIt + 1 = (dsL ++ [dL]).length := by
    rw [hat'.vecIt, List.length_append, List.length_singleton]
  refine ⟨es', post', ?_, hes', hflat, hbehind'⟩
  rw [IgushArray.gather, hlen, deque_eq hget, hat.deque, hv, List.drop_left' rfl,
    List.take_left' rfl, hshift]
  show (save dL it'.deqIt (dL.size + 1) dL.endPos (postL.flatten.take move)).bind _ = _
  rw [hsave]
  show (save dF dF.beginPos (dF.size + 1) it.deqIt _).bind _ = _
  rw [hsave']
  rfl

theorem Cut.room {preF preL postF postL : List (List T)} {bF bL : List T} {i l : ℕ}
    {dsF dsL esF esL : List (FixedDeque T)} {dF dL : FixedDeque T} (h : Cut a init last)
    (hat : IsAt a it (init ++ [last]) p preF bF postF i dsF dF esF)
    (hat' : StopsAt a it' (init ++ [last]) q preL bL postL l dsL dL esL) (hlt : p < q)
    (hq : q ≤ (init ++ [last]).flatten.length)
    (hmove : move = min ((q - p) % a.deqSize) ((init ++ [last]).flatten.length - q)) :
    ∃ k, preL.length = preF.length + k ∧
      i + (bL.length - l) + min move postL.flatten.length ≤ (k + 1) * a.deqSize ∧
      (move < postL.flatten.length →
        a.deqSize ∣ i + (bL.length - l) + min move postL.flatten.length) := by
  have hi := hat.place.lt_length (hlt.trans_le hq)
  have hbF := hat.here.length_le
  have hl := hat'.le
  have hbL := hat'.here.length_le
  have hindex := hat.place.index
  have hindex' := hat'.index
  have hlen : (init ++ [last]).flatten.length - q = bL.length - l + postL.flatten.length := by
    rw [hat'.eq, List.flatten_append, List.flatten_cons, List.length_append, List.length_append]
    omega
  rw [length_flatten_of_full (h.chunked.full_before hat.place.eq)] at hindex
  rw [length_flatten_of_full (h.chunked.full_before hat'.eq)] at hindex'
  obtain ⟨k, hk⟩ : ∃ k, preL.length = preF.length + k := Nat.exists_eq_add_of_le <| by
    by_contra hgt
    have := Nat.mul_le_mul_right a.deqSize (not_le.mp hgt)
    rw [Nat.succ_mul] at this
    omega
  have hE : q - p + i = k * a.deqSize + l := by
    rw [hk, Nat.add_mul] at hindex'
    omega
  have hfull : 0 < postL.flatten.length → bL.length = a.deqSize := fun hS => by
    obtain ⟨c, post, rfl⟩ := List.exists_cons_of_ne_nil (l := postL) fun hnil => by
      simp [hnil] at hS
    exact h.chunked.full_before (hat'.eq.trans (List.append_cons preL bL _)) bL (by simp)
  rw [hmove, hlen]
  exact ⟨k, hk, gathered_le hE hl hbL hfull⟩

theorem Cut.eraseRange (h : Cut a init last) (hit : Points a (init ++ [last]) p it)
    (hit' : Points a (init ++ [last]) q it') (hpq : p ≤ q)
    (hq : q ≤ (init ++ [last]).flatten.length) : ∃ a', a.eraseRange it it' = .ok a' ∧
      Holds a' ((init ++ [last]).flatten.take p ++ (init ++ [last]).flatten.drop q) := by
  rw [IgushArray.eraseRange, hit.greaterEq h hit']
  show ∃ a', (if decide (q ≤ p) = true then Except.ok a else _) = Except.ok a' ∧ _
  rcases Nat.eq_or_lt_of_le hpq with rfl | hlt
  · exact ⟨a, by simp, init, last, h, (List.take_append_drop _ _).symm⟩
  have hn := h.pos
  have hmove := hit.rangeMove h hit' hpq hq
  generalize hm : min ((q - p) % a.deqSize) ((init ++ [last]).flatten.length - q) = move at hmove
  have hlt' : move < a.deqSize := hm ▸ (min_le_left _ _).trans_lt (Nat.mod_lt _ hn)
  obtain ⟨itL, preL, bL, postL, l, dsL, dL, esL, hstop, hat'⟩ := hit'.rangeStop h (by omega)
  obtain ⟨preF, bF, postF, i, dsF, dF, esF, hat⟩ := hit
  obtain ⟨k, hk, hroom, hdvd⟩ := h.room hat hat' hlt hq hm.symm
  obtain ⟨es', post', hgather, hes', hflat, hbehind'⟩ :=
    gather_eq hat hat' (h.chunked.behind hn hat'.eq) hlt'
  -- the deques in front of the range, and those of the range
  have hv : List.Forall₂ (FixedDeque.Holds a.deqSize) (dsL ++ [dL]) (preL ++ [bL]) :=
    List.rel_append hat'.before (.cons hat'.here .nil)
  have hlen : (dsL ++ [dL]).length = preF.length + (k + 1) := by
    rw [List.length_append, List.length_singleton, hat'.length_eq, hk]
    rfl
  have hpreF : (preL ++ [bL]).take preF.length = preF := by
    have heq := congrArg (List.take preF.length) (hat.place.eq.symm.trans hat'.eq)
    rw [List.take_left' rfl, ← List.singleton_append (x := bL), ← List.append_assoc,
      List.take_append_of_le_length (by simp; omega)] at heq
    exact heq.symm
  have hds := List.forall₂_take preF.length hv
  rw [hpreF] at hds
  have hdslen : ((dsL ++ [dL]).take preF.length).length = it.vecIt := by
    rw [hds.length_eq, ← hat.length_eq, hat.vecIt]
  have hmslen : ((dsL ++ [dL]).drop preF.length).length = k + 1 := by
    rw [List.length_drop, hlen, Nat.add_sub_cancel_left]
  have hgathered : (bF.take i ++ (bL.drop l ++ postL.flatten.take move)).length =
      i + (bL.length - l) + min move postL.flatten.length := by
    have hi := hat.place.le
    rw [List.length_append, List.length_append, List.length_take, List.length_drop,
      List.length_take]
    omega
  have hlast : itL.vecIt + 1 =
      ((dsL ++ [dL]).take preF.length).length + ((dsL ++ [dL]).drop preF.length).length := by
    rw [hdslen, hmslen, hat'.vecIt, hat.vecIt, hat.length_eq, hat'.length_eq]
    omega
  obtain ⟨v', hclose, hall⟩ := closeUp_eq hn hds (h.chunked.full_before hat.place.eq)
    (List.forall₂_drop preF.length hv) (List.ne_nil_of_length_pos (by omega)) hes' hbehind' hlast
    (hgathered ▸ hmslen ▸ hroom) fun hne => by
      have hpos := List.length_pos_iff.mpr (hbehind'.flatten_ne_nil hne)
      rw [hflat, List.length_drop] at hpos
      exact hgathered ▸ hdvd (by omega)
  rw [List.take_append_drop, hdslen] at hclose
  obtain ⟨init', last', hholds, hchunked, hlist⟩ := hall
  refine ⟨{ a with v := v' }, ?_, init', last', ⟨hn, hchunked, hholds⟩, ?_⟩
  · rw [if_neg (by simpa using hlt)]
    show (a.rangeMove it it').bind _ = _
    rw [hmove]
    show (a.rangeStop it').bind _ = _
    rw [hstop]
    show (a.gather move it itL).bind _ = _
    rw [hgather]
    show (closeUp a.deqSize _ it.vecIt itL.vecIt _).bind _ = _
    rw [hclose]
    rfl
  · have htake : (init ++ [last]).flatten.take p = preF.flatten ++ bF.take i := by
      rw [hat.place.eq, ← hat.place.index, take_flatten _ _ hat.place.le]
    have hdrop : (init ++ [last]).flatten.drop q = bL.drop l ++ postL.flatten := by
      rw [hat'.eq, ← hat'.index, drop_flatten _ _ hat'.le]
    rw [hlist, htake, hdrop, hflat]
    simp only [List.append_assoc, List.take_append_drop]

theorem Cut.eraseRangeIt (h : Cut a init last) (hit : Points a (init ++ [last]) p it)
    (hit' : Points a (init ++ [last]) q it') (hpq : p ≤ q)
    (hq : q ≤ (init ++ [last]).flatten.length) :
    ∃ c iter, a.eraseRangeIt it it' = .ok (c, iter p) ∧
      Indexed c ((init ++ [last]).flatten.take p ++ (init ++ [last]).flatten.drop q) iter := by
  rw [IgushArray.eraseRangeIt, hit.greaterEq h hit']
  show ∃ c, ∃ iter : ℕ → Iterator,
    (if decide (q ≤ p) = true then Except.ok (a, it) else _) = Except.ok (c, iter p) ∧ _
  rcases Nat.eq_or_lt_of_le hpq with rfl | hlt
  · obtain ⟨iter, hindexed, hiter⟩ := h.exists_indexed
    refine ⟨a, iter, ?_, by rwa [List.take_append_drop]⟩
    rw [if_pos (by simp), hit.unique h (hiter p hq)]
  · obtain ⟨c, herase, hc⟩ := h.eraseRange hit hit' hpq hq
    have hlen : ((init ++ [last]).flatten.take p).length = p :=
      List.length_take_of_le (hpq.trans hq)
    rw [if_neg (by simpa using hlt)]
    obtain ⟨iter, hreturn, hindexed⟩ := hit.returning h herase hc (by
      rw [List.length_append, hlen]
      exact Nat.le_add_right p _)
    exact ⟨c, iter, hreturn, hindexed⟩

end

end IgushArray

end OpTransform.Igush
