import Mathlib.Tactic.Ring
import OpTransform.Igush.Container

/-! # Iterators of the array

The rest of `IgushArrayIterator`: `-=`, `--`, the difference of two iterators and their order, and
the iterators that `insert` and `erase` return. An iterator is an index: `Indexed` says so of each
of its operations, and it holds of every array that calls in range make (`run_iterators`). -/

namespace OpTransform.Igush

open OpTransform.Lib.Ring OpTransform.Lib.Chunks OpTransform.Ops

variable {T : Type}

namespace IgushArray

/-! ### Operations -/

/-- The number of whole deques that `operator-=` passes over in front of the deque `vecIt`. -/
def decrVec (a : IgushArray T) (vecIt decr : ℕ) : ℕ :=
  if vecIt < decr / a.deqSize then vecIt else decr / a.deqSize

/-- `operator-=` from the last element of the deque `vecIt` on, of the number `decr` that
is left. -/
def leapBack (a : IgushArray T) (vecIt decr : ℕ) : Except Fault Iterator := do
  let e ← a.deque (vecIt - a.decrVec vecIt decr)
  return ⟨vecIt - a.decrVec vecIt decr,
    e.minus (e.minus e.endPos 1) (decr - a.decrVec vecIt decr * a.deqSize)⟩

/-- `operator-=` of a number that is not negative. There is no deque in front of the first one. -/
def minus (a : IgushArray T) (it : Iterator) (decr : ℕ) : Except Fault Iterator :=
  if decr = 0 then .ok it
  else do
    let d ← a.deque it.vecIt
    let rest := d.distance it.deqIt d.beginPos
    if decr > rest then
      if it.vecIt = 0 then .error .rawMemory
      else a.leapBack (it.vecIt - 1) (decr - (rest + 1) : ℤ).toNat
    else return ⟨it.vecIt, d.minus it.deqIt decr⟩

/-- `operator+=`. -/
def add (a : IgushArray T) (it : Iterator) (incr : ℤ) : Except Fault Iterator :=
  if incr < 0 then a.minus it (-incr).toNat else a.plus it incr.toNat

/-- `operator-=`. -/
def sub (a : IgushArray T) (it : Iterator) (decr : ℤ) : Except Fault Iterator :=
  if decr < 0 then a.plus it (-decr).toNat else a.minus it decr.toNat

/-- `operator--`. -/
def prev (a : IgushArray T) (it : Iterator) : Except Fault Iterator := do
  let d ← a.deque it.vecIt
  if it.deqIt = d.beginPos ∧ it.vecIt ≠ 0 then do
    let e ← a.deque (it.vecIt - 1)
    return ⟨it.vecIt - 1, e.minus e.endPos 1⟩
  else return ⟨it.vecIt, d.minus it.deqIt 1⟩

/-- `operator<`. -/
def less (a : IgushArray T) (it iai : Iterator) : Except Fault Bool :=
  if it.vecIt < iai.vecIt then .ok true
  else if it.vecIt = iai.vecIt then do
    let d ← a.deque it.vecIt
    return d.less it.deqIt iai.deqIt
  else .ok false

/-- `operator-` of an iterator that is not greater. -/
def ahead (a : IgushArray T) (it iai : Iterator) : Except Fault ℤ := do
  let d ← a.deque it.vecIt
  if it.vecIt > iai.vecIt then do
    let e ← a.deque iai.vecIt
    return ((it.vecIt - iai.vecIt - 1 : ℤ) * a.deqSize + d.distance it.deqIt d.beginPos +
      e.distance e.endPos iai.deqIt)
  else return d.distance it.deqIt iai.deqIt

/-- `operator-` of an iterator. Of two iterators that were less than each other, it would call
itself for ever. -/
def difference (a : IgushArray T) (it iai : Iterator) : Except Fault ℤ := do
  if ← a.less it iai then
    if ← a.less iai it then .error .loop
    else
      let res ← a.ahead iai it
      return -res
  else a.ahead it iai

/-- An edit at an iterator, with the iterator that it returns: the one at the same distance from the
beginning. -/
def returning (a : IgushArray T) (it : Iterator) (edit : Except Fault (IgushArray T)) :
    Except Fault (IgushArray T × Iterator) := do
  let first ← a.beginIt
  let result ← a.difference it first
  let c ← edit
  let first ← c.beginIt
  let it ← c.add first result
  return (c, it)

/-- `insert`, with the iterator that it returns. -/
def insertIt (a : IgushArray T) (it : Iterator) (val : T) :
    Except Fault (IgushArray T × Iterator) := a.returning it (a.insert it val)

/-- `erase`, with the iterator that it returns. -/
def eraseIt (a : IgushArray T) (it : Iterator) : Except Fault (IgushArray T × Iterator) :=
  a.returning it (a.erase it)

/-! ### Indices -/

/-- **Iterators are indices**: `iter p` is the iterator of an array of the elements `L` at the index
`p`, up to the end. -/
structure Indexed (a : IgushArray T) (L : List T) (iter : ℕ → Iterator) : Prop where
  start : a.beginIt = .ok (iter 0)
  stop : a.endIt = .ok (iter L.length)
  read : ∀ p (hp : p < L.length), a.read (iter p) = .ok L[p]
  next : ∀ p < L.length, a.next (iter p) = .ok (iter (p + 1))
  prev : ∀ p < L.length, a.prev (iter (p + 1)) = .ok (iter p)
  add : ∀ p ≤ L.length, ∀ q ≤ L.length, a.add (iter p) (q - p) = .ok (iter q)
  sub : ∀ p ≤ L.length, ∀ q ≤ L.length, a.sub (iter p) (p - q) = .ok (iter q)
  difference : ∀ p ≤ L.length, ∀ q ≤ L.length, a.difference (iter p) (iter q) = .ok (p - q : ℤ)
  less : ∀ p ≤ L.length, ∀ q ≤ L.length, a.less (iter p) (iter q) = .ok (decide (p < q))
  eq_iff : ∀ p ≤ L.length, ∀ q ≤ L.length, (iter p = iter q ↔ p = q)

/-- The iterator `it` is at the index `p` of the chunks `bs`. -/
def Points (a : IgushArray T) (bs : List (List T)) (p : ℕ) (it : Iterator) : Prop :=
  ∃ pre b post j ds d es, IsAt a it bs p pre b post j ds d es

section
variable {a : IgushArray T} {init pre post : List (List T)} {last b : List T} {p q j : ℕ}
  {it it' : Iterator} {ds es : List (FixedDeque T)} {d : FixedDeque T} {L : List T}

theorem Cut.exists_points (h : Cut a init last) (hp : p ≤ (init ++ [last]).flatten.length) :
    ∃ it, Points a (init ++ [last]) p it := by
  obtain ⟨-, it, pre, b, post, j, ds, d, es, -, -, hat⟩ := h.plus hp
  exact ⟨it, pre, b, post, j, ds, d, es, hat⟩

theorem Points.unique (h : Cut a init last) (hit : Points a (init ++ [last]) p it)
    (hit' : Points a (init ++ [last]) p it') : it = it' := by
  obtain ⟨_, _, _, _, _, _, _, hat⟩ := hit
  obtain ⟨_, _, _, _, _, _, _, hat'⟩ := hit'
  exact hat.unique h hat'

/-! ### Backwards -/

theorem Cut.retreat (h : Cut a init last) (hit : Points a (init ++ [last]) p it) {k : ℕ}
    (hk : k ≤ p) :
    ∃ it', a.minus it k = .ok it' ∧ Points a (init ++ [last]) (p - k) it' := by
  obtain ⟨pre, b, post, j, ds, d, es, hat⟩ := hit
  obtain ⟨hindex, hlast, hinit⟩ := h.chunked.place_spec hat.place
  have hj := hat.place.le
  have hn := hat.here.length_le
  have hzero := slot_zero hat.here.begin_lt
  rw [IgushArray.minus]
  by_cases hk0 : k = 0
  · subst hk0
    exact ⟨it, if_pos rfl, pre, b, post, j, ds, d, es, hat⟩
  rw [if_neg hk0, hat.deque]
  show ∃ it', (if (k : ℤ) > d.distance it.deqIt d.beginPos then
    if it.vecIt = 0 then _ else a.leapBack (it.vecIt - 1)
      (↑k - (d.distance it.deqIt d.beginPos + 1) : ℤ).toNat else _) = Except.ok it' ∧ _
  have hdist : d.distance it.deqIt d.beginPos = j := by
    have := hat.here.distance_slot hj (Nat.zero_le _)
    rwa [hzero, ← hat.deqIt, Int.natCast_zero, Int.sub_zero] at this
  rw [hdist]
  by_cases hout : j < k
  · -- in front of the deque of the iterator, where all deques are full
    have hm : 0 < pre.length := Nat.pos_of_ne_zero fun h0 => by
      rw [h0] at hindex
      omega
    obtain ⟨r, rfl⟩ : ∃ r, k = j + r + 1 := ⟨k - j - 1, by omega⟩
    have hskip : (↑(j + r + 1) - ((j : ℤ) + 1)).toNat = r := by omega
    have hpk : p - (j + r + 1) = pre.length * a.deqSize - (r + 1) := by omega
    have hr : r < pre.length * a.deqSize := by omega
    have hpre : pre.length ≤ init.length := by
      by_cases hpost : post = []
      · exact (hlast hpost).le
      · exact (hinit hpost).1.le
    obtain ⟨pre', b', post', hplace', hpre', hb'⟩ := h.chunked.exists_place_before h.pos hpre hr
    obtain ⟨ds', d', es', hat'⟩ := h.isAt hplace'
    have hdecr : a.decrVec (pre.length - 1) r = r / a.deqSize := by
      have hlt : r / a.deqSize < pre.length := Nat.div_lt_of_lt_mul (by rwa [Nat.mul_comm])
      rw [decrVec, if_neg (by omega)]
    have hmod : r - r / a.deqSize * a.deqSize = r % a.deqSize := by
      have := Nat.div_add_mod' r a.deqSize
      omega
    refine ⟨_, ?_, pre', b', post', _, ds', d', es', hpk ▸ hat'⟩
    have hend : d'.minus d'.endPos 1 = slot (a.deqSize + 1) d'.beginPos (a.deqSize - 1) := by
      rw [hat'.here.endPos, hb', FixedDeque.minus_slot_sub hat'.here.cells hat'.here.begin_lt h.pos
        le_rfl]
    rw [if_pos (by omega), hat.vecIt, hat.length_eq, if_neg hm.ne', hskip, leapBack, hdecr, hmod,
      ← hpre', deque_eq hat'.getElem?]
    show Except.ok (Iterator.mk _ (d'.minus (d'.minus d'.endPos 1) _)) = _
    rw [hend, FixedDeque.minus_slot_sub hat'.here.cells hat'.here.begin_lt]
    · have := Nat.mod_lt r h.pos
      omega
    · omega
  · have hstay : post ≠ [] → j - k < b.length := fun hne => by
      have := hat.place.lt hne
      omega
    refine ⟨_, ?_, pre, b, post, j - k, ds, d, es, hat.move (by omega) (by omega) hstay⟩
    rw [if_neg (by omega), hat.deqIt, FixedDeque.minus_slot_sub hat.here.cells hat.here.begin_lt
      (by omega) (by omega)]
    rfl

theorem Points.prev_eq (hit : Points a (init ++ [last]) p it) (hp : 0 < p) (h : Cut a init last) :
    a.prev it = a.minus it 1 := by
  obtain ⟨pre, b, post, j, ds, d, es, hat⟩ := hit
  obtain ⟨hindex, -, -⟩ := h.chunked.place_spec hat.place
  have hj := hat.place.le
  have hn := hat.here.length_le
  have hzero := slot_zero hat.here.begin_lt
  have hdist := hat.here.distance_slot hj (Nat.zero_le _)
  rw [hzero, ← hat.deqIt] at hdist
  have hbegin : it.deqIt = d.beginPos ↔ j = 0 := by
    have hinj := slot_inj (m := a.deqSize + 1) (a := d.beginPos) (i := j) (j := 0) (by omega)
      (by omega)
    rwa [hzero, ← hat.deqIt] at hinj
  rw [IgushArray.prev, IgushArray.minus, if_neg Nat.one_ne_zero, hat.deque]
  show (if it.deqIt = d.beginPos ∧ it.vecIt ≠ 0 then _ else _) =
    if ((1 : ℕ) : ℤ) > d.distance it.deqIt d.beginPos then
      if it.vecIt = 0 then _ else a.leapBack (it.vecIt - 1)
        (((1 : ℕ) : ℤ) - (d.distance it.deqIt d.beginPos + 1)).toNat else _
  rw [hdist]
  by_cases hj0 : j = 0
  · have hvec : it.vecIt ≠ 0 := by
      rw [hat.vecIt, hat.length_eq]
      rintro h0
      rw [h0] at hindex
      omega
    have hdecr : a.decrVec (it.vecIt - 1) 0 = 0 := by
      rw [decrVec, Nat.zero_div, if_neg (Nat.not_lt_zero _)]
    have hskip : (((1 : ℕ) : ℤ) - ((j : ℤ) - ((0 : ℕ) : ℤ) + 1)).toNat = 0 := by omega
    rw [if_pos ⟨hbegin.mpr hj0, hvec⟩, if_pos (by omega), if_neg hvec, hskip, leapBack, hdecr]
    simp [FixedDeque.minus]
  · rw [if_neg fun hcond => hj0 (hbegin.mp hcond.1), if_neg (by omega)]

/-! ### The difference and the order -/

theorem IsAt.same (hat : IsAt a it (init ++ [last]) p pre b post j ds d es)
    {pre' post' : List (List T)} {b' : List T} {j' : ℕ} {ds' es' : List (FixedDeque T)}
    {d' : FixedDeque T} (hat' : IsAt a it' (init ++ [last]) q pre' b' post' j' ds' d' es')
    (hvec : it.vecIt = it'.vecIt) : d' = d ∧ b' = b ∧ p + j' = q + j := by
  have hlen : pre.length = pre'.length := by
    rw [← hat.length_eq, ← hat'.length_eq, ← hat.vecIt, ← hat'.vecIt, hvec]
  obtain ⟨rfl, hcons⟩ := List.append_inj (hat.place.eq.symm.trans hat'.place.eq) hlen
  have hindex := hat.place.index
  have hindex' := hat'.place.index
  refine ⟨?_, (List.cons_eq_cons.mp hcons).1.symm, by omega⟩
  exact (Option.some.inj (hat.getElem?.symm.trans (hvec ▸ hat'.getElem?))).symm

theorem Points.less (h : Cut a init last) (hit : Points a (init ++ [last]) p it)
    (hit' : Points a (init ++ [last]) q it') : a.less it it' = .ok (decide (p < q)) := by
  obtain ⟨pre, b, post, j, ds, d, es, hat⟩ := hit
  obtain ⟨pre', b', post', j', ds', d', es', hat'⟩ := hit'
  have hvec : it.vecIt = pre.length := hat.vecIt.trans hat.length_eq
  have hvec' : it'.vecIt = pre'.length := hat'.vecIt.trans hat'.length_eq
  rw [IgushArray.less]
  rcases Nat.lt_trichotomy it.vecIt it'.vecIt with hlt | heq | hgt
  · obtain ⟨-, hpq⟩ := h.chunked.place_lt hat.place hat'.place (by rwa [← hvec, ← hvec'])
    rw [if_pos hlt, decide_eq_true hpq]
  · obtain ⟨rfl, rfl, hsum⟩ := hat.same hat' heq
    rw [if_neg (Nat.ne_of_lt' · heq.symm), if_pos heq, hat.deque]
    show Except.ok (d'.less it.deqIt it'.deqIt) = _
    rw [hat.deqIt, hat'.deqIt, hat.here.less_slot hat.place.le hat'.place.le]
    congr 2
    exact propext ⟨fun _ => by omega, fun _ => by omega⟩
  · obtain ⟨-, hpq⟩ := h.chunked.place_lt hat'.place hat.place (by rwa [← hvec, ← hvec'])
    rw [if_neg (Nat.lt_asymm hgt), if_neg (Nat.ne_of_gt hgt), decide_eq_false (Nat.lt_asymm hpq)]

theorem Points.ahead (h : Cut a init last) (hit : Points a (init ++ [last]) p it)
    (hit' : Points a (init ++ [last]) q it') (hpq : q ≤ p) : a.ahead it it' = .ok (p - q : ℤ) := by
  obtain ⟨pre, b, post, j, ds, d, es, hat⟩ := hit
  obtain ⟨pre', b', post', j', ds', d', es', hat'⟩ := hit'
  have hvec : it.vecIt = pre.length := hat.vecIt.trans hat.length_eq
  have hvec' : it'.vecIt = pre'.length := hat'.vecIt.trans hat'.length_eq
  obtain ⟨hindex, -, -⟩ := h.chunked.place_spec hat.place
  obtain ⟨hindex', -, -⟩ := h.chunked.place_spec hat'.place
  rw [IgushArray.ahead, hat.deque]
  show (if it.vecIt > it'.vecIt then _ else Except.ok (d.distance it.deqIt it'.deqIt)) = _
  rcases Nat.lt_trichotomy it.vecIt it'.vecIt with hlt | heq | hgt
  · obtain ⟨-, hlt'⟩ := h.chunked.place_lt hat.place hat'.place (by rwa [← hvec, ← hvec'])
    exact absurd hlt' (Nat.not_lt.mpr hpq)
  · obtain ⟨rfl, rfl, hsum⟩ := hat.same hat' heq
    rw [if_neg (Nat.not_lt.mpr heq.le), hat.deqIt, hat'.deqIt,
      hat.here.distance_slot hat.place.le hat'.place.le]
    congr 1
    omega
  · obtain ⟨hb, -⟩ := h.chunked.place_lt hat'.place hat.place (by rwa [← hvec, ← hvec'])
    have hdist := hat.here.distance_slot hat.place.le (Nat.zero_le _)
    rw [slot_zero hat.here.begin_lt, ← hat.deqIt] at hdist
    rw [if_pos hgt, hat'.deque]
    show Except.ok ((it.vecIt - it'.vecIt - 1 : ℤ) * a.deqSize + d.distance it.deqIt d.beginPos +
      d'.distance d'.endPos it'.deqIt) = _
    rw [hdist, hat'.here.endPos, hat'.deqIt, hat'.here.distance_slot le_rfl hat'.place.le, hb, hvec,
      hvec', ← hindex, ← hindex']
    congr 1
    push_cast
    ring

theorem Points.difference (h : Cut a init last) (hit : Points a (init ++ [last]) p it)
    (hit' : Points a (init ++ [last]) q it') : a.difference it it' = .ok (p - q : ℤ) := by
  rw [IgushArray.difference, hit.less h hit']
  show (if decide (p < q) = true then _ else _) = _
  by_cases hpq : p < q
  · rw [if_pos (decide_eq_true hpq), hit'.less h hit]
    show (if decide (q < p) = true then _ else (a.ahead it' it).bind _) = _
    rw [if_neg (by simpa using hpq.le), hit'.ahead h hit hpq.le]
    show Except.ok (-((q : ℤ) - p)) = _
    rw [neg_sub]
  · rw [if_neg (by simpa using hpq), hit.ahead h hit' (not_lt.mp hpq)]

theorem Points.eq_iff (h : Cut a init last) (hit : Points a (init ++ [last]) p it)
    (hit' : Points a (init ++ [last]) q it') : it = it' ↔ p = q := by
  constructor
  · rintro rfl
    have heq := (hit.difference h hit').symm.trans (hit.difference h hit)
    have := Except.ok.inj heq
    omega
  · rintro rfl
    exact hit.unique h hit'

/-! ### Sums -/

theorem Points.plus (h : Cut a init last) (hit : Points a (init ++ [last]) p it)
    (hit' : Points a (init ++ [last]) q it') (hpq : p ≤ q)
    (hq : q ≤ (init ++ [last]).flatten.length) : a.plus it (q - p) = .ok it' := by
  obtain ⟨_, _, _, _, _, _, _, hat⟩ := hit
  obtain ⟨it'', pre, b, post, j, ds, d, es, hok, hat'⟩ := h.advance hat (k := q - p) (by omega)
  rw [Nat.add_sub_cancel' hpq] at hat'
  rw [hok, Points.unique h ⟨pre, b, post, j, ds, d, es, hat'⟩ hit']

theorem Points.minus (h : Cut a init last) (hit : Points a (init ++ [last]) p it)
    (hit' : Points a (init ++ [last]) q it') (hqp : q ≤ p) : a.minus it (p - q) = .ok it' := by
  obtain ⟨it'', hok, hit''⟩ := h.retreat hit (Nat.sub_le p q)
  rw [Nat.sub_sub_self hqp] at hit''
  rw [hok, hit''.unique h hit']

theorem Points.add (h : Cut a init last) (hit : Points a (init ++ [last]) p it)
    (hit' : Points a (init ++ [last]) q it') (hq : q ≤ (init ++ [last]).flatten.length) :
    a.add it (q - p) = .ok it' := by
  rw [IgushArray.add]
  by_cases hpq : p ≤ q
  · rw [if_neg (by omega), ← hit.plus h hit' hpq hq]
    congr 1
    omega
  · rw [if_pos (by omega), ← hit.minus h hit' (by omega)]
    congr 1
    omega

theorem Points.sub (h : Cut a init last) (hit : Points a (init ++ [last]) p it)
    (hit' : Points a (init ++ [last]) q it') (hq : q ≤ (init ++ [last]).flatten.length) :
    a.sub it (p - q) = .ok it' := by
  rw [IgushArray.sub]
  by_cases hpq : p < q
  · rw [if_pos (by omega), ← hit.plus h hit' hpq.le hq]
    congr 1
    omega
  · rw [if_neg (by omega), ← hit.minus h hit' (by omega)]
    congr 1
    omega

/-! ### Every iterator -/

theorem Cut.exists_indexed (h : Cut a init last) : ∃ iter, Indexed a (init ++ [last]).flatten iter ∧
    ∀ p ≤ (init ++ [last]).flatten.length, Points a (init ++ [last]) p (iter p) := by
  have : Nonempty Iterator := ⟨⟨0, 0⟩⟩
  choose! iter hiter using fun p hp => h.exists_points (p := p) hp
  refine ⟨iter, ?_, hiter⟩
  constructor
  case start =>
    obtain ⟨first, pre, b, post, ds, d, es, hfirst, hat⟩ := h.begin
    rw [hfirst, Points.unique h ⟨pre, b, post, 0, ds, d, es, hat⟩ (hiter 0 (Nat.zero_le _))]
  case stop =>
    obtain ⟨_, _, _, _, _, _, _, hat⟩ := hiter _ le_rfl
    exact hat.endIt rfl
  case read =>
    intro p hp
    obtain ⟨_, _, _, _, _, _, _, hat⟩ := hiter p hp.le
    exact hat.read hp
  case next =>
    intro p hp
    obtain ⟨_, _, _, _, _, _, _, hat⟩ := hiter p hp.le
    obtain ⟨it, pre, b, post, j, ds, d, es, hok, hat'⟩ := h.next hat hp
    rw [hok, Points.unique h ⟨pre, b, post, j, ds, d, es, hat'⟩ (hiter (p + 1) hp)]
  case prev =>
    intro p hp
    have hone := (hiter (p + 1) hp).minus h (hiter p hp.le) (Nat.le_succ p)
    rw [Nat.add_sub_cancel_left] at hone
    rw [(hiter (p + 1) hp).prev_eq (Nat.succ_pos p) h, hone]
  case add => exact fun p hp q hq => (hiter p hp).add h (hiter q hq) hq
  case sub => exact fun p hp q hq => (hiter p hp).sub h (hiter q hq) hq
  case difference => exact fun p hp q hq => (hiter p hp).difference h (hiter q hq)
  case less => exact fun p hp q hq => (hiter p hp).less h (hiter q hq)
  case eq_iff => exact fun p hp q hq => (hiter p hp).eq_iff h (hiter q hq)

theorem Points.returning (h : Cut a init last) (hit : Points a (init ++ [last]) p it)
    {edit : Except Fault (IgushArray T)} {c : IgushArray T} {M : List T} (hedit : edit = .ok c)
    (hc : Holds c M) (hp : p ≤ M.length) :
    ∃ iter, a.returning it edit = .ok (c, iter p) ∧ Indexed c M iter := by
  obtain ⟨init', last', hcut, rfl⟩ := hc
  obtain ⟨first, pre, b, post, ds, d, es, hfirst, hat⟩ := h.begin
  obtain ⟨iter, hindexed, -⟩ := hcut.exists_indexed
  have hdiff := hit.difference h ⟨pre, b, post, 0, ds, d, es, hat⟩
  refine ⟨iter, ?_, hindexed⟩
  rw [IgushArray.returning, hfirst]
  show (a.difference it first).bind _ = _
  rw [hdiff]
  show edit.bind _ = _
  rw [hedit]
  show (c.beginIt).bind _ = _
  rw [hindexed.start]
  show (c.add (iter 0) ((p : ℤ) - (0 : ℕ))).bind _ = _
  rw [hindexed.add 0 (Nat.zero_le _) p hp]
  rfl

/-- **Iterators are indices**, of every array that holds a list: they add, subtract and compare as
the indices do, `insert` returns the iterator of the new element, and `erase` that of the element
behind the one that it has removed. -/
theorem Holds.exists_indexed (h : Holds a L) : ∃ iter, Indexed a L iter ∧
    (∀ p ≤ L.length, ∀ x, ∃ c iter', a.insertIt (iter p) x = .ok (c, iter' p) ∧
      Indexed c (L.insertIdx p x) iter') ∧
    ∀ p < L.length, ∃ c iter', a.eraseIt (iter p) = .ok (c, iter' p) ∧
      Indexed c (L.eraseIdx p) iter' := by
  obtain ⟨init, last, hcut, rfl⟩ := h
  obtain ⟨iter, hindexed, hiter⟩ := hcut.exists_indexed
  refine ⟨iter, hindexed, fun p hp x => ?_, fun p hp => ?_⟩
  · obtain ⟨_, _, _, _, _, _, _, hat⟩ := hiter p hp
    obtain ⟨c, hinsert, hc⟩ := hcut.insert hat x
    have hlen := List.length_insertIdx_of_le_length hp x
    obtain ⟨iter', hreturn, hindexed'⟩ := (hiter p hp).returning hcut hinsert hc (by omega)
    exact ⟨c, iter', hreturn, hindexed'⟩
  · obtain ⟨_, _, _, _, _, _, _, hat⟩ := hiter p hp.le
    obtain ⟨c, herase, hc⟩ := hcut.erase hat hp
    have hlen := List.length_eraseIdx_of_lt hp
    obtain ⟨iter', hreturn, hindexed'⟩ := (hiter p hp.le).returning hcut herase hc (by omega)
    exact ⟨c, iter', hreturn, hindexed'⟩

end

/-- **The iterators of every array that calls in range make** are the indices of its list. -/
theorem run_iterators {es : List (Container.Edit T)} {L : List T}
    (hes : es.foldlM Container.editList [] = some L) :
    ∃ a iter, es.foldlM (container T).edit (reserved 0) = .ok a ∧ Indexed a L iter ∧
      (∀ p ≤ L.length, ∀ x, ∃ c iter', a.insertIt (iter p) x = .ok (c, iter' p) ∧
        Indexed c (L.insertIdx p x) iter') ∧
      ∀ p < L.length, ∃ c iter', a.eraseIt (iter p) = .ok (c, iter' p) ∧
        Indexed c (L.eraseIdx p) iter' := by
  obtain ⟨a, ha, hholds⟩ := (isSequence T).edits (holds_reserved 0) hes
  obtain ⟨iter, hindexed, hedits⟩ := Holds.exists_indexed hholds
  exact ⟨a, iter, ha, hindexed, hedits⟩

/-- Three deques of two elements, the first one with its elements around the end of the storage. -/
theorem run_iterators_five : ∃ a iter, [Container.Edit.reserve 4, .pushBack 1, .pushBack 2,
    .pushBack 3, .pushBack 4, .erase 0, .pushBack 5, .pushBack 6].foldlM (container ℕ).edit
      (reserved 0) = .ok a ∧ Indexed a [2, 3, 4, 5, 6] iter ∧
    (∀ p ≤ [2, 3, 4, 5, 6].length, ∀ x, ∃ c iter', a.insertIt (iter p) x = .ok (c, iter' p) ∧
      Indexed c ([2, 3, 4, 5, 6].insertIdx p x) iter') ∧
    ∀ p < [2, 3, 4, 5, 6].length, ∃ c iter', a.eraseIt (iter p) = .ok (c, iter' p) ∧
      Indexed c ([2, 3, 4, 5, 6].eraseIdx p) iter' :=
  run_iterators (by decide)

end IgushArray

end OpTransform.Igush
