import OpTransform.Igush.EraseRange

/-! # The array as a vector

"The IgushArray class fully implements std::vector interface." The rest of that interface: the
constructor with a value, `at`, `front`, `back`, `pop_back`, `resize` in its reserve modes, and
`clear`. A run of all operations does to the array what it does to a vector (`run_vector`), but for
two of them. `resize` counts the elements that it appends in an `int`, and gives the size that is
asked for only if there are less than 2 ^ 31 of them (`resize_size_iff`). And `clear` leaves an
array that no operation can fill again (`clear_fails`). -/

namespace OpTransform.Igush

open OpTransform.Lib.Chunks OpTransform.Ops

/-- `ReserveMode`. -/
inductive ReserveMode
  | no
  | ifNeeded
  | yes
  deriving DecidableEq

variable {T : Type}

namespace IgushArray

/-! ### Operations -/

/-- `empty`. -/
def empty (a : IgushArray T) : Bool :=
  match a.v with
  | [d] => d.empty
  | _ => false

/-- `front`. -/
def front (a : IgushArray T) : Except Fault T := do
  let d ← a.deque 0
  d.front

/-- `back`. -/
def back (a : IgushArray T) : Except Fault T := do
  let d ← a.deque (a.v.length - 1)
  d.back

/-- `at`. What the exception of the vector says is up to the library. -/
def getChecked (a : IgushArray T) (n : ℕ) : Except Fault T :=
  match a.v[n / a.deqSize]? with
  | none => .error (.outOfRange "vector")
  | some d => d.getChecked (n - n / a.deqSize * a.deqSize)

/-- `pop_back`. -/
def popBack (a : IgushArray T) : Except Fault (IgushArray T) := do
  let d ← a.deque (a.v.length - 1)
  let d ← d.popBack
  return { a with v := dropEmpty (a.v.set (a.v.length - 1) d) }

/-- `clear`. -/
def clear (a : IgushArray T) : IgushArray T := { a with v := [] }

/-- How many steps there are from `OneValueIterator(0, value)` to `OneValueIterator(n, value)`. The
number comes as an `int`, and goes back to a number of 64 bits. -/
def steps (n : ℕ) : ℕ :=
  if n % 2 ^ 32 < 2 ^ 31 then n % 2 ^ 32 else n % 2 ^ 32 + (2 ^ 64 - 2 ^ 32)

/-- `_push_back` of so many steps of a `OneValueIterator`. -/
def pushValues (value : T) : ℕ → IgushArray T → Except Fault (IgushArray T)
  | 0, a => .ok a
  | k + 1, a => do
    let a ← a.pushBack value
    pushValues value k a

/-- `_push_back` of a number of elements of another array. -/
def pushCount (src : IgushArray T) : ℕ → IgushArray T → Iterator → Except Fault (IgushArray T)
  | 0, a, _ => .ok a
  | n + 1, a, first => do
    let x ← src.read first
    let a ← a.pushBack x
    let first ← src.next first
    pushCount src n a first

/-- The constructor with a value. -/
def ofValue (n : ℕ) (value : T) : Except Fault (IgushArray T) :=
  pushValues value (steps n) (reserved n)

/-- `_decrease_size`. The vector of deques may not grow. -/
def decreaseSize [Inhabited T] (a : IgushArray T) (n : ℕ) : Except Fault (IgushArray T) :=
  let vecSize := if (n + a.deqSize - 1) / a.deqSize = 0 then 1 else (n + a.deqSize - 1) / a.deqSize
  match a.v[vecSize - 1]? with
  | none => .error .rawMemory
  | some d => do
    let d ← d.resize (n - (vecSize - 1) * a.deqSize) default
    return { a with v := (a.v.take vecSize).set (vecSize - 1) d }

/-- `resize`. The sizes are calculated again in the mode `YES`, and in the mode `IF_NEEDED` if the
capacity is exceeded. -/
def resize [Inhabited T] (a : IgushArray T) (n : ℕ) (value : T) (mode : ReserveMode) :
    Except Fault (IgushArray T) :=
  if n > a.capacity ∧ mode ≠ .no ∨ mode = .yes then
    if n ≥ a.size then do
      let ia ← a.rebuild n
      pushValues value (steps (n - a.size)) ia
    else do
      let first ← a.beginIt
      pushCount a n (reserved n) first
  else if n ≥ a.size then pushValues value (steps (n - a.size)) a
  else a.decreaseSize n

/-- `erase(begin() + i, begin() + j)`. -/
def eraseBetween (a : IgushArray T) (i j : ℕ) : Except Fault (IgushArray T) := do
  let first ← a.beginIt
  let itFirst ← a.plus first i
  let itLast ← a.plus first j
  a.eraseRange itFirst itLast

/-- The calls that change an array and leave it usable. -/
inductive Call (T : Type)
  | edit (e : Container.Edit T)
  | popBack
  | resize (n : ℕ) (value : T) (mode : ReserveMode)
  | eraseBetween (i j : ℕ)

/-- A call. -/
def call [Inhabited T] (a : IgushArray T) : Call T → Except Fault (IgushArray T)
  | .edit e => (container T).edit a e
  | .popBack => a.popBack
  | .resize n value mode => a.resize n value mode
  | .eraseBetween i j => a.eraseBetween i j

/-- What the call does to a vector, if it is defined and appends less than 2 ^ 31 elements. -/
def callList (L : List T) : Call T → Option (List T)
  | .edit e => Container.editList L e
  | .popBack => if L = [] then none else some L.dropLast
  | .resize n value _ =>
    if n < L.length + 2 ^ 31 then some (L.take n ++ List.replicate (n - L.length) value) else none
  | .eraseBetween i j => if i ≤ j ∧ j ≤ L.length then some (L.take i ++ L.drop j) else none

section
variable {a : IgushArray T} {L M : List T} {n p : ℕ} {x : T}

/-! ### Access -/

theorem Holds.empty_iff (h : Holds a L) : a.empty = true ↔ L = [] := by
  obtain ⟨init, last, hcut, rfl⟩ := h
  obtain ⟨ds, d, hv, hds, hd⟩ := hcut.exists_last
  rw [IgushArray.empty, hv]
  by_cases hinit : init = []
  · subst hinit
    rw [List.forall₂_nil_right_iff.mp hds]
    show d.empty = true ↔ _
    rw [hd.empty_iff]
    simp
  · obtain ⟨b, init', rfl⟩ := List.exists_cons_of_ne_nil hinit
    obtain ⟨e, ds', -, -, rfl⟩ := List.forall₂_cons_right_iff.mp hds
    have hlast := hcut.chunked.last_ne hinit
    cases ds' <;> simp [hlast]

theorem Holds.front (h : Holds a (x :: L)) : a.front = .ok x := by
  obtain ⟨init, last, hcut, hL⟩ := h
  obtain ⟨first, pre, b, post, ds, d, es, hfirst, hat⟩ := hcut.begin
  have hpos : 0 < (init ++ [last]).flatten.length := by rw [hL]; exact Nat.succ_pos _
  have hread := hat.read hpos
  simp only [hL, List.getElem_cons_zero] at hread
  have hfront : a.front = (a.beginIt).bind a.read := by
    rw [IgushArray.front, IgushArray.beginIt]
    cases hdeque : a.deque 0 with
    | error e => rfl
    | ok d =>
      show d.front = (a.deque 0).bind fun d' => d'.read d.beginPos
      rw [hdeque]
      rfl
  rw [hfront, hfirst]
  exact hread

theorem Holds.back (h : Holds a (L ++ [x])) : a.back = .ok x := by
  obtain ⟨init, last, hcut, hL⟩ := h
  obtain ⟨ds, d, hv, -, hd⟩ := hcut.exists_last
  have hget : a.v[a.v.length - 1]? = some d := by rw [hv]; simp
  have hlast : last ≠ [] := by
    rintro rfl
    have hinit : init = [] := by_contra fun hne => hcut.chunked.last_ne hne rfl
    rw [hinit] at hL
    simp at hL
  obtain ⟨c, y, rfl⟩ := (List.eq_nil_or_concat' last).resolve_left hlast
  rw [List.flatten_append, List.flatten_singleton, ← List.append_assoc] at hL
  obtain rfl : y = x := by simpa using (List.append_inj' hL rfl).2
  rw [IgushArray.back, deque_eq hget]
  exact hd.back

theorem Holds.getChecked (h : Holds a L) (i : ℕ) :
    (∀ hi : i < L.length, a.getChecked i = .ok L[i]) ∧
      (L.length ≤ i → ∃ what, a.getChecked i = .error (.outOfRange what)) := by
  obtain ⟨init, last, hcut, rfl⟩ := h
  refine ⟨fun hi => ?_, fun hi => ?_⟩
  · obtain ⟨pre, b, post, hplace, hpre⟩ := hcut.chunked.exists_place hcut.pos hi.le
    rw [Nat.min_eq_left (hcut.chunked.div_le hcut.pos hi)] at hplace hpre
    obtain ⟨ds, d, es, hat⟩ := hcut.isAt hplace
    have hj := hplace.lt_length hi
    have hget := hat.getElem?
    rw [hpre] at hget
    have hb := hplace.getElem? hj
    rw [List.getElem?_eq_getElem hi, List.getElem?_eq_getElem hj] at hb
    rw [IgushArray.getChecked, hget]
    show d.getChecked _ = _
    rw [hat.here.getChecked, dif_pos hj, Option.some.inj hb]
  · rw [IgushArray.getChecked]
    cases hget : a.v[i / a.deqSize]? with
    | none => exact ⟨_, rfl⟩
    | some d =>
      obtain ⟨b, hb, hd⟩ := Lib.Simulation.exists_getElem?_of_forall₂ hcut.deques hget
      obtain ⟨ht, rfl⟩ := List.getElem?_eq_some_iff.mp hb
      have hout : ¬ i - i / a.deqSize * a.deqSize < (init ++ [last])[i / a.deqSize].length := by
        intro hlt
        have heq : init ++ [last] = (init ++ [last]).take (i / a.deqSize) ++
            (init ++ [last])[i / a.deqSize] :: (init ++ [last]).drop (i / a.deqSize + 1) := by
          rw [← List.drop_eq_getElem_cons ht, List.take_append_drop]
        have hlen := length_flatten_of_full (hcut.chunked.full_before heq)
        have hdiv := Nat.div_mul_le_self i a.deqSize
        rw [List.length_take_of_le ht.le] at hlen
        rw [heq, List.flatten_append, List.flatten_cons, List.length_append, List.length_append,
          hlen] at hi
        omega
      refine ⟨"at(): The size has been exceeded", ?_⟩
      show d.getChecked _ = _
      rw [hd.getChecked, dif_neg hout]

/-! ### `pop_back` -/

theorem Holds.popBack (h : Holds a L) (hL : L ≠ []) :
    ∃ c, a.popBack = .ok c ∧ Holds c L.dropLast := by
  obtain ⟨init, last, hcut, rfl⟩ := h
  obtain ⟨ds, d, hv, hds, hd⟩ := hcut.exists_last
  have hget : a.v[a.v.length - 1]? = some d := by rw [hv]; simp
  have hlast : last ≠ [] := by
    rintro rfl
    have hinit : init = [] := by_contra fun hne => hcut.chunked.last_ne hne rfl
    exact hL (by rw [hinit]; rfl)
  obtain ⟨b, y, rfl⟩ := (List.eq_nil_or_concat' last).resolve_left hlast
  have hlist : (init ++ [b ++ [y]]).flatten.dropLast = (init ++ [b]).flatten := by
    rw [List.flatten_append, List.flatten_singleton, ← List.append_assoc, List.dropLast_concat,
      List.flatten_append, List.flatten_singleton]
  have hpop : a.popBack = .ok { a with v := dropEmpty (ds ++ [d.decEnd]) } := by
    rw [IgushArray.popBack, deque_eq hget]
    show (d.popBack).bind _ = _
    rw [hd.popBack, hv]
    show Except.ok _ = _
    simp
  rw [hpop, hlist]
  exact ⟨_, rfl, hcut.dropEmpty rfl (by simp) (List.rel_append hds (.cons hd.decEnd .nil))⟩

/-! ### `resize` -/

theorem steps_of_lt (h : n < 2 ^ 31) : steps n = n := by
  rw [steps, Nat.mod_eq_of_lt (by omega), if_pos h]

theorem pushValues_eq (h : Holds a L) (x : T) (k : ℕ) :
    ∃ c, pushValues x k a = .ok c ∧ Holds c (L ++ List.replicate k x) := by
  induction k generalizing a L with
  | zero => exact ⟨a, rfl, by simpa using h⟩
  | succ k ih =>
    obtain ⟨b, hpush, hb⟩ := h.pushBack x
    obtain ⟨c, hloop, hc⟩ := ih hb
    refine ⟨c, ?_, by rwa [List.append_assoc] at hc⟩
    rw [pushValues, hpush]
    exact hloop

theorem Cut.pushCount {init : List (List T)} {last : List T} (h : Cut a init last) {it : Iterator}
    (hit : Points a (init ++ [last]) p it) {k : ℕ} (hk : p + k ≤ (init ++ [last]).flatten.length)
    {b : IgushArray T} (hb : Holds b M) : ∃ c, a.pushCount k b it = .ok c ∧
      Holds c (M ++ ((init ++ [last]).flatten.drop p).take k) := by
  induction k generalizing p b M it with
  | zero => exact ⟨b, rfl, by simpa using hb⟩
  | succ k ih =>
    have hp : p < (init ++ [last]).flatten.length := by omega
    obtain ⟨_, _, _, _, _, _, _, hat⟩ := hit
    obtain ⟨e, hpush, he⟩ := hb.pushBack (init ++ [last]).flatten[p]
    obtain ⟨it', pre, c, post, j, ds, d, es, hnext, hat'⟩ := h.next hat hp
    obtain ⟨c, hloop, hc⟩ := ih ⟨pre, c, post, j, ds, d, es, hat'⟩ (by omega) he
    refine ⟨c, ?_, ?_⟩
    · rw [IgushArray.pushCount, hat.read hp]
      show (b.pushBack _).bind _ = _
      rw [hpush]
      show (a.next it).bind _ = _
      rw [hnext]
      exact hloop
    · rw [List.drop_eq_getElem_cons hp, List.take_succ_cons, ← List.singleton_append,
        ← List.append_assoc]
      exact hc

theorem Cut.exists_end {init : List (List T)} {last : List T} (h : Cut a init last)
    (hn : n ≤ (init ++ [last]).flatten.length) : ∃ pre b post j, init ++ [last] = pre ++ b :: post ∧
      pre.flatten.length + j = n ∧ j ≤ b.length ∧ (pre ≠ [] → 0 < j) := by
  rcases Nat.eq_zero_or_pos n with rfl | hpos
  · obtain ⟨b, post, heq⟩ := List.exists_cons_of_ne_nil (l := init ++ [last]) (by simp)
    exact ⟨[], b, post, 0, heq, rfl, Nat.zero_le _, fun h => absurd rfl h⟩
  · obtain ⟨it, hit⟩ := h.exists_points hn
    obtain ⟨_, pre, b, post, j, _, _, _, -, hat⟩ := hit.rangeStop h hpos
    exact ⟨pre, b, post, j, hat.eq, hat.index, hat.le, fun _ => hat.pos⟩

theorem vecSize_eq {k m j : ℕ} (hm : 0 < m) (hj : j ≤ m) (hpos : k ≠ 0 → 0 < j) :
    (if (k * m + j + m - 1) / m = 0 then 1 else (k * m + j + m - 1) / m) = k + 1 := by
  rcases Nat.eq_zero_or_pos j with rfl | hj0
  · obtain rfl : k = 0 := by_contra fun hk => Nat.lt_irrefl 0 (hpos hk)
    rw [Nat.zero_mul, Nat.zero_add, Nat.zero_add, Nat.div_eq_of_lt (Nat.sub_one_lt hm.ne'),
      if_pos rfl]
  · have hdiv : (k * m + j + m - 1) / m = k + 1 := by
      refine Nat.div_eq_of_lt_le ?_ ?_ <;> rw [Nat.succ_mul] <;> [skip; rw [Nat.succ_mul]] <;> omega
    rw [hdiv, if_neg (Nat.succ_ne_zero k)]

theorem Holds.decreaseSize [Inhabited T] (h : Holds a L) (hn : n ≤ L.length) :
    ∃ c, a.decreaseSize n = .ok c ∧ Holds c (L.take n) := by
  obtain ⟨init, last, hcut, rfl⟩ := h
  obtain ⟨pre, b, post, j, heq, hindex, hj, hpos⟩ := hcut.exists_end hn
  obtain ⟨ds, d, es, hv, hlen, hds, hd, -⟩ := exists_of_forall₂_append_cons (heq ▸ hcut.deques)
  have hfull := hcut.chunked.full_before heq
  have hb := hd.length_le
  have hindex' := hindex
  rw [length_flatten_of_full hfull] at hindex'
  have hvec := vecSize_eq (k := pre.length) hcut.pos (hj.trans hb) fun h => hpos fun hnil =>
    h (by rw [hnil]; rfl)
  rw [hindex'] at hvec
  have hget : a.v[pre.length]? = some d := by
    rw [hv, ← hlen]
    simp
  have hsize : n - pre.length * a.deqSize = j := by omega
  obtain ⟨d', hresize, hd'⟩ := hd.resize (hj.trans hb) default
  rw [Nat.sub_eq_zero_of_le hj, List.replicate_zero, List.append_nil] at hd'
  refine ⟨{ a with v := ds ++ [d'] }, ?_, pre, b.take j,
    ⟨hcut.pos, ⟨hfull, ?_, fun hne => ?_⟩, ?_⟩, ?_⟩
  · simp only [IgushArray.decreaseSize, hvec, Nat.add_sub_cancel, hget, hsize]
    show (d.resize j default).bind _ = _
    rw [hresize]
    have hv' : a.v.take (pre.length + 1) = ds ++ [d] := by
      rw [hv, List.append_cons, List.take_left']
      rw [List.length_append, List.length_singleton, hlen]
    rw [hv', ← hlen]
    show Except.ok _ = _
    simp
  · rw [List.length_take_of_le hj]
    exact hj.trans hb
  · exact List.ne_nil_of_length_pos (by rw [List.length_take_of_le hj]; exact hpos hne)
  · exact List.rel_append hds (.cons hd' .nil)
  · rw [heq, ← hindex, take_flatten _ _ hj, List.flatten_append, List.flatten_singleton]

/-- **`resize` cuts off, or appends** as many elements as an `int` says. -/
theorem Holds.resize [Inhabited T] (h : Holds a L) (n : ℕ) (x : T) (mode : ReserveMode) :
    ∃ c, a.resize n x mode = .ok c ∧
      Holds c (L.take n ++ List.replicate (steps (n - L.length)) x) := by
  have hzero : steps 0 = 0 := steps_of_lt (by decide)
  rw [IgushArray.resize, h.size]
  split_ifs with hmode hge hge
  · obtain ⟨b, hb, hholds⟩ := h.rebuild n
    rw [hb, List.take_of_length_le hge]
    exact pushValues_eq hholds x _
  · have hlt := not_le.mp hge
    rw [Nat.sub_eq_zero_of_le hlt.le, hzero, List.replicate_zero, List.append_nil]
    obtain ⟨init, last, hcut, rfl⟩ := h
    obtain ⟨first, pre, b, post, ds, d, es, hfirst, hat⟩ := hcut.begin
    rw [hfirst]
    have hcount := hcut.pushCount ⟨pre, b, post, 0, ds, d, es, hat⟩ (k := n) (by omega)
      (holds_reserved n)
    rwa [List.nil_append, List.drop_zero] at hcount
  · rw [List.take_of_length_le hge]
    exact pushValues_eq h x _
  · have hlt := not_le.mp hge
    rw [Nat.sub_eq_zero_of_le hlt.le, hzero, List.replicate_zero, List.append_nil]
    exact h.decreaseSize hlt.le

/-- **`resize` gives the size that is asked for** if and only if it appends less than 2 ^ 31
elements. -/
theorem resize_size_iff [Inhabited T] (h : Holds a L) (hn : n < 2 ^ 63) (x : T)
    (mode : ReserveMode) :
    (∃ c, a.resize n x mode = .ok c ∧ c.size = n) ↔ n < L.length + 2 ^ 31 := by
  obtain ⟨c, hc, hholds⟩ := h.resize n x mode
  have hsize := hholds.size
  rw [List.length_append, List.length_take, List.length_replicate] at hsize
  rw [hc]
  have hsteps : c.size = n ↔ n < L.length + 2 ^ 31 := by
    rw [hsize, steps]
    split_ifs <;> omega
  rw [← hsteps]
  exact ⟨fun ⟨d, hd, hdn⟩ => Except.ok.inj hd ▸ hdn, fun hcn => ⟨c, rfl, hcn⟩⟩

/-- 2 ^ 31 elements are too many for an empty array. -/
theorem resize_size_iff_empty :
    ¬ ∃ c, (reserved 0 : IgushArray ℕ).resize (2 ^ 31) 5 .no = .ok c ∧ c.size = 2 ^ 31 :=
  fun h => absurd ((resize_size_iff (holds_reserved 0) (by decide) 5 .no).mp h) (by decide)

/-! ### `clear` -/

theorem Holds.call [Inhabited T] (h : Holds a L) {e : Call T} (he : callList L e = some M) :
    ∃ c, a.call e = .ok c ∧ Holds c M := by
  cases e with
  | edit e => exact (isSequence T).edit h he
  | popBack =>
    obtain ⟨hL, hM⟩ := Option.ite_none_left_eq_some.mp he
    obtain rfl := Option.some.inj hM
    exact h.popBack hL
  | resize n x mode =>
    obtain ⟨hn, hM⟩ := Option.ite_none_right_eq_some.mp he
    obtain rfl := Option.some.inj hM
    have hresize := h.resize n x mode
    rwa [steps_of_lt (by omega)] at hresize
  | eraseBetween i j =>
    obtain ⟨⟨hij, hj⟩, hM⟩ := Option.ite_none_right_eq_some.mp he
    obtain rfl := Option.some.inj hM
    obtain ⟨init, last, hcut, rfl⟩ := h
    obtain ⟨iter, hindexed, hiter⟩ := hcut.exists_indexed
    have hfirst := (hiter 0 (Nat.zero_le _)).plus hcut (hiter i (hij.trans hj)) (Nat.zero_le i)
      (hij.trans hj)
    have hlast := (hiter 0 (Nat.zero_le _)).plus hcut (hiter j hj) (Nat.zero_le j) hj
    rw [Nat.sub_zero] at hfirst hlast
    show ∃ c, a.eraseBetween i j = .ok c ∧ _
    rw [IgushArray.eraseBetween, hindexed.start]
    show ∃ c, (a.plus (iter 0) i).bind _ = Except.ok c ∧ _
    rw [hfirst]
    show ∃ c, (a.plus (iter 0) j).bind _ = Except.ok c ∧ _
    rw [hlast]
    exact hcut.eraseRange (hiter i (hij.trans hj)) (hiter j hj) hij hj

theorem Holds.calls [Inhabited T] (h : Holds a L) {es : List (Call T)}
    (hes : es.foldlM callList L = some M) :
    ∃ c, es.foldlM IgushArray.call a = .ok c ∧ Holds c M := by
  induction es generalizing a L with
  | nil =>
    obtain rfl := Option.some.inj hes
    exact ⟨a, rfl, h⟩
  | cons e es ih =>
    rw [List.foldlM_cons] at hes
    obtain ⟨L₁, he, hrest⟩ := Option.bind_eq_some_iff.mp hes
    obtain ⟨b, hb, hholds⟩ := h.call he
    rw [List.foldlM_cons, hb]
    exact ih hholds hrest

theorem exists_run [Inhabited T] (hn : n < 2 ^ 31) (x : T) {es : List (Call T)}
    (hes : es.foldlM callList (List.replicate n x) = some L) :
    ∃ a, ((ofValue n x).bind fun a => es.foldlM IgushArray.call a) = .ok a ∧ Holds a L := by
  obtain ⟨a₀, hvalue, hholds⟩ := pushValues_eq (holds_reserved n) x (steps n)
  rw [List.nil_append, steps_of_lt hn] at hholds
  obtain ⟨a, hcalls, hL⟩ := hholds.calls hes
  refine ⟨a, ?_, hL⟩
  rw [ofValue, hvalue]
  exact hcalls

/-- **The array is a vector**: from any number of equal elements on, a run of calls that are defined
for a vector, none of which appends 2 ^ 31 elements, never fails, and in the end the array has the
elements of the vector, and `at` fails for all other indices. -/
theorem run_vector [Inhabited T] (hn : n < 2 ^ 31) (x : T) {es : List (Call T)}
    (hes : es.foldlM callList (List.replicate n x) = some L) :
    ∃ a, ((ofValue n x).bind fun a => es.foldlM call a) = .ok a ∧ a.size = L.length ∧
      (a.empty = true ↔ L = []) ∧ (∀ y, L.head? = some y → a.front = .ok y) ∧
      (∀ y, L.getLast? = some y → a.back = .ok y) ∧ ∀ i,
        (∀ hi : i < L.length, a.getChecked i = .ok L[i]) ∧
        (L.length ≤ i → ∃ what, a.getChecked i = .error (.outOfRange what)) := by
  obtain ⟨a, hrun, hL⟩ := exists_run hn x hes
  refine ⟨a, hrun, hL.size, hL.empty_iff, fun y hy => ?_, fun y hy => ?_, hL.getChecked⟩
  · obtain ⟨L', rfl⟩ := List.head?_eq_some_iff.mp hy
    exact hL.front
  · obtain ⟨L', rfl⟩ := List.getLast?_eq_some_iff.mp hy
    exact hL.back

/-- Deques of two elements lose a range of five, another one at the end, and grow again. -/
theorem run_vector_seven : ∃ a, ((ofValue 7 1).bind fun a => [Call.edit (.set 0 2),
    .edit (.insert 3 4), .eraseBetween 1 6, .resize 5 9 .ifNeeded, .popBack, .resize 9 3 .yes,
    .eraseBetween 4 9].foldlM call a) = .ok a ∧ a.size = [2, 1, 1, 9].length ∧
    (a.empty = true ↔ [2, 1, 1, 9] = []) ∧
    (∀ y, [2, 1, 1, 9].head? = some y → a.front = .ok y) ∧
    (∀ y, [2, 1, 1, 9].getLast? = some y → a.back = .ok y) ∧ ∀ i,
      (∀ hi : i < [2, 1, 1, 9].length, a.getChecked i = .ok [2, 1, 1, 9][i]) ∧
      ([2, 1, 1, 9].length ≤ i → ∃ what, a.getChecked i = .error (.outOfRange what)) :=
  run_vector (by decide) 1 (by decide)

/-- **The iterator that the `erase` of a range returns** is at the place of the range, and all
iterators of the array are the indices of the list that is left. -/
theorem run_erased [Inhabited T] (hn : n < 2 ^ 31) (x : T) {es : List (Call T)}
    (hes : es.foldlM callList (List.replicate n x) = some L) :
    ∃ a iter, ((ofValue n x).bind fun a => es.foldlM call a) = .ok a ∧ Indexed a L iter ∧
      ∀ p q, p ≤ q → q ≤ L.length → ∃ c iter', a.eraseRangeIt (iter p) (iter q) = .ok (c, iter' p) ∧
        Indexed c (L.take p ++ L.drop q) iter' := by
  obtain ⟨a, hrun, init, last, hcut, rfl⟩ := exists_run hn x hes
  obtain ⟨iter, hindexed, hiter⟩ := hcut.exists_indexed
  exact ⟨a, iter, hrun, hindexed, fun p q hpq hq =>
    hcut.eraseRangeIt (hiter p (hpq.trans hq)) (hiter q hq) hpq hq⟩

/-- Three deques of two elements, the first one with its elements around the end of the storage. -/
theorem run_erased_five : ∃ a iter, ((ofValue 4 1).bind fun a => [Call.edit (.erase 0),
    .edit (.pushBack 2), .resize 6 3 .no, .eraseBetween 2 3].foldlM call a) = .ok a ∧
    Indexed a [1, 1, 2, 3, 3] iter ∧ ∀ p q, p ≤ q → q ≤ [1, 1, 2, 3, 3].length → ∃ c iter',
      a.eraseRangeIt (iter p) (iter q) = .ok (c, iter' p) ∧
      Indexed c ([1, 1, 2, 3, 3].take p ++ [1, 1, 2, 3, 3].drop q) iter' :=
  run_erased (by decide) 1 (by decide)

end

end IgushArray

end OpTransform.Igush
