import Mathlib.Algebra.Order.Group.Nat
import Mathlib.Data.List.Forall2
import OpTransform.Lib.Blocks

/-! # A list in chunks

A list is cut into chunks of one length `n`; the last chunk may be shorter, and is empty only when
it is the only one. Whether a list of chunks is cut like this depends on the lengths of its chunks
(`Chunked.of_lengths`), so an edit that moves elements from chunk to chunk has to be followed at the
last chunk only (`Chunked.append`, `Chunked.extend`, `Chunked.shrink`, `Chunked.drop`). An index of
the whole list is a place in one chunk, found by a division (`Chunked.exists_place`), and an edit of
the list is an edit at that place (`Place.insertIdx`, `Place.eraseIdx`, `Place.set`). -/

namespace OpTransform.Lib.Chunks

open OpTransform.Lib.Blocks

universe u

variable {α : Type u}

/-- **The chunks `init` and, at the end, `last`.** -/
structure Chunked (n : ℕ) (init : List (List α)) (last : List α) : Prop where
  full : ∀ b ∈ init, b.length = n
  last_le : last.length ≤ n
  last_ne : init ≠ [] → last ≠ []

section
variable {n : ℕ} {init init' : List (List α)} {last last' : List α} {x : α}

theorem length_flatten_of_full (h : ∀ b ∈ init, b.length = n) :
    init.flatten.length = init.length * n := by
  induction init with
  | nil => simp
  | cons b init ih =>
    rw [List.flatten_cons, List.length_append, h b List.mem_cons_self,
      ih fun c hc => h c (List.mem_cons_of_mem b hc), List.length_cons, Nat.succ_mul, Nat.add_comm]

theorem full_of_lengths (hlen : init'.map List.length = init.map List.length)
    (h : ∀ b ∈ init, b.length = n) : ∀ b ∈ init', b.length = n := by
  intro b hb
  have hmem : b.length ∈ init.map List.length := hlen ▸ List.mem_map_of_mem hb
  obtain ⟨c, hc, hcb⟩ := List.mem_map.mp hmem
  rw [← hcb, h c hc]

theorem Chunked.ne_nil (h : Chunked n init last) (hn : 0 < n) (hinit : init ≠ []) :
    ∀ b ∈ init ++ [last], b ≠ [] := by
  intro b hb
  rcases List.mem_append.mp hb with hb | hb
  · exact List.ne_nil_of_length_pos (by rw [h.full b hb]; exact hn)
  · rw [List.mem_singleton.mp hb]
    exact h.last_ne hinit

theorem Chunked.ne_nil_of_behind (h : Chunked n init last) (hn : 0 < n) {pre post : List (List α)}
    {b : List α} (heq : init ++ [last] = pre ++ b :: post) : ∀ c ∈ post, c ≠ [] := by
  intro c hc
  have hinit : init ≠ [] := by
    rintro rfl
    have hlen := congrArg List.length heq
    have hpost := List.length_pos_of_mem hc
    rw [List.length_append, List.length_append, List.length_cons] at hlen
    simp at hlen
    omega
  exact h.ne_nil hn hinit c (heq ▸ by simp [hc])

/-! ### Changes at the end -/

theorem Chunked.of_lengths (h : Chunked n init last) {bs : List (List α)}
    (hlen : bs.map List.length = (init ++ [last]).map List.length) :
    ∃ init' last', bs = init' ++ [last'] ∧ Chunked n init' last' := by
  rcases List.eq_nil_or_concat' bs with rfl | ⟨init', last', rfl⟩
  · simp at hlen
  · rw [List.map_append, List.map_append, List.map_singleton, List.map_singleton] at hlen
    obtain ⟨hinit, hlast⟩ := List.append_inj' hlen rfl
    have hlast' : last'.length = last.length := by simpa using hlast
    refine ⟨init', last', rfl, full_of_lengths hinit h.full, hlast' ▸ h.last_le, fun hne => ?_⟩
    have hne' : init ≠ [] := by
      rintro rfl
      exact hne (List.map_eq_nil_iff.mp hinit)
    exact List.ne_nil_of_length_pos (hlast' ▸ List.length_pos_iff.mpr (h.last_ne hne'))

theorem Chunked.append (h : Chunked n init last) (hfull : last.length = n) (hn : 0 < n) (x : α) :
    Chunked n (init ++ [last]) [x] where
  full b hb := by
    rcases List.mem_append.mp hb with hb | hb
    · exact h.full b hb
    · rw [List.mem_singleton.mp hb, hfull]
  last_le := hn
  last_ne _ := List.cons_ne_nil x []

theorem Chunked.extend (h : Chunked n init last) (hlt : last.length ≠ n) (x : α) :
    Chunked n init (last ++ [x]) where
  full := h.full
  last_le := by
    have := h.last_le
    rw [List.length_append, List.length_singleton]
    omega
  last_ne _ := by simp

theorem Chunked.shrink (h : Chunked n init last)
    (hinit : init'.map List.length = init.map List.length) (hlast : last'.length ≤ last.length)
    (hne : init' ≠ [] → last' ≠ []) : Chunked n init' last' :=
  ⟨full_of_lengths hinit h.full, hlast.trans h.last_le, hne⟩

theorem Chunked.drop (h : Chunked n init last) (hn : 0 < n)
    (hinit : (init' ++ [last']).map List.length = init.map List.length) :
    Chunked n init' last' := by
  have hfull := full_of_lengths hinit h.full
  have hlast := hfull last' (by simp)
  refine ⟨fun b hb => hfull b (List.mem_append_left _ hb), Nat.le_of_eq hlast, fun _ => ?_⟩
  exact List.ne_nil_of_length_pos (by omega)

end

theorem exists_of_forall₂_append_cons {β : Type*} {R : β → α → Prop} {l : List β}
    {pre post : List α} {b : α} (h : List.Forall₂ R l (pre ++ b :: post)) :
    ∃ ds d es, l = ds ++ d :: es ∧ ds.length = pre.length ∧ List.Forall₂ R ds pre ∧ R d b ∧
      List.Forall₂ R es post := by
  have hpre := List.forall₂_take_append l pre _ h
  obtain ⟨d, es, hd, hes, heq⟩ := List.forall₂_cons_right_iff.mp
    (List.forall₂_drop_append l pre _ h)
  refine ⟨l.take pre.length, d, es, ?_, hpre.length_eq, hpre, hd, hes⟩
  rw [← heq, List.take_append_drop]

theorem take_flatten (pre : List (List α)) {b : List α} (post : List (List α)) {j : ℕ}
    (hj : j ≤ b.length) :
    (pre ++ b :: post).flatten.take (pre.flatten.length + j) = pre.flatten ++ b.take j := by
  rw [List.flatten_append, List.flatten_cons, List.take_length_add_append,
    List.take_append_of_le_length hj]

theorem drop_flatten (pre : List (List α)) {b : List α} (post : List (List α)) {j : ℕ}
    (hj : j ≤ b.length) :
    (pre ++ b :: post).flatten.drop (pre.flatten.length + j) = b.drop j ++ post.flatten := by
  rw [List.flatten_append, List.flatten_cons, List.drop_length_add_append,
    List.drop_append_of_le_length hj]

/-! ### The chunks at the end -/

/-- **Chunks at the end of a list in chunks**: all but the last one are full, and none is empty. -/
inductive Behind (n : ℕ) : List (List α) → Prop
  | nil : Behind n []
  | cons {b : List α} {bs : List (List α)} : b ≠ [] → b.length ≤ n → (bs ≠ [] → b.length = n) →
      Behind n bs → Behind n (b :: bs)

section
variable {n : ℕ} {init pre post bs : List (List α)} {last b : List α}

theorem Behind.append_full (h : Behind n bs) (hn : 0 < n) (hpre : ∀ b ∈ pre, b.length = n) :
    Behind n (pre ++ bs) := by
  induction pre with
  | nil => exact h
  | cons b pre ih =>
    have hb := hpre b List.mem_cons_self
    exact .cons (List.ne_nil_of_length_pos (hb ▸ hn)) hb.le (fun _ => hb)
      (ih fun c hc => hpre c (List.mem_cons_of_mem b hc))

theorem Behind.of_append (h : Behind n (pre ++ post)) : Behind n post := by
  induction pre with
  | nil => exact h
  | cons b pre ih =>
    cases h with
    | cons _ _ _ h => exact ih h

theorem Behind.chunked (h : Behind n bs) (hbs : bs ≠ []) :
    ∃ init last, bs = init ++ [last] ∧ Chunked n init last := by
  induction h with
  | nil => exact absurd rfl hbs
  | @cons b bs hne hle hfull hbehind ih =>
    by_cases hnil : bs = []
    · subst hnil
      exact ⟨[], b, rfl, nofun, hle, fun h => absurd rfl h⟩
    · obtain ⟨init, last, rfl, hchunked⟩ := ih hnil
      refine ⟨b :: init, last, rfl, fun c hc => ?_, hchunked.last_le, fun _ => ?_⟩
      · rcases List.mem_cons.mp hc with rfl | hc
        · exact hfull hnil
        · exact hchunked.full c hc
      · by_cases hinit : init = []
        · subst hinit
          cases hbehind with
          | cons hne _ _ _ => exact hne
        · exact hchunked.last_ne hinit

theorem Chunked.behind (h : Chunked n init last) (hn : 0 < n)
    (heq : init ++ [last] = pre ++ b :: post) : Behind n post := by
  by_cases hinit : init = []
  · subst hinit
    have hlen := congrArg List.length heq
    rw [List.length_append, List.length_append, List.length_cons] at hlen
    obtain rfl : post = [] := List.length_eq_zero_iff.mp (by simp at hlen; omega)
    exact .nil
  · have hlast : Behind n [last] :=
      .cons (h.last_ne hinit) h.last_le (fun hne => absurd rfl hne) .nil
    have hall := hlast.append_full hn h.full
    rw [heq, ← List.singleton_append, ← List.append_assoc] at hall
    exact hall.of_append

theorem Behind.flatten_ne_nil (h : Behind n bs) (hbs : bs ≠ []) : bs.flatten ≠ [] := by
  cases h with
  | nil => exact absurd rfl hbs
  | cons hne _ _ _ =>
    rw [List.flatten_cons]
    exact List.append_ne_nil_of_left_ne_nil hne _

theorem Chunked.full_before (h : Chunked n init last) (heq : init ++ [last] = pre ++ b :: post) :
    ∀ c ∈ pre, c.length = n := by
  intro c hc
  refine h.full c ?_
  have hdrop := congrArg List.dropLast heq
  rw [List.dropLast_concat, List.dropLast_append_of_ne_nil (List.cons_ne_nil _ _)] at hdrop
  rw [hdrop]
  exact List.mem_append_left _ hc

/-- Chunks of a multiple of `n` elements are full. -/
theorem Behind.full_of_dvd (h : Behind n bs) (hdvd : n ∣ bs.flatten.length) :
    ∀ b ∈ bs, b.length = n := by
  induction h with
  | nil => exact nofun
  | @cons b bs hne hle hfull _ ih =>
    rw [List.flatten_cons, List.length_append] at hdvd
    have hb : b.length = n := by
      by_cases hbs : bs = []
      · subst hbs
        exact Nat.le_antisymm hle (Nat.le_of_dvd (List.length_pos_iff.mpr hne) hdvd)
      · exact hfull hbs
    rw [hb] at hdvd
    intro c hc
    rcases List.mem_cons.mp hc with rfl | hc
    · exact hb
    · exact ih ((Nat.dvd_add_right (Nat.dvd_refl n)).mp hdvd) c hc

end

/-! ### Places -/

/-- The index `p` of the whole list is the index `j` of the chunk `b`. An index where one chunk ends
and another begins is in the chunk that begins. -/
structure Place (bs : List (List α)) (p : ℕ) (pre : List (List α)) (b : List α)
    (post : List (List α)) (j : ℕ) : Prop where
  eq : bs = pre ++ b :: post
  index : pre.flatten.length + j = p
  le : j ≤ b.length
  lt : post ≠ [] → j < b.length

section
variable {n p j : ℕ} {init bs pre post : List (List α)} {last b : List α} {x : α}

/-- **Every index has a place, found by a division.** -/
theorem Chunked.exists_place (h : Chunked n init last) (hn : 0 < n)
    (hp : p ≤ (init ++ [last]).flatten.length) :
    ∃ pre b post, Place (init ++ [last]) p pre b post (p - min (p / n) init.length * n) ∧
      pre.length = min (p / n) init.length := by
  have hdiv := Nat.div_add_mod' p n
  have hmod := Nat.mod_lt p hn
  have hflat := length_flatten_of_full h.full
  rw [List.flatten_append, List.length_append, hflat, List.flatten_singleton] at hp
  rcases Nat.lt_or_ge (p / n) init.length with hlt | hge
  · rw [Nat.min_eq_left hlt.le]
    have htake : (init.take (p / n)).flatten.length = p / n * n := by
      rw [length_flatten_of_full fun b hb => h.full b (List.mem_of_mem_take hb), List.length_take,
        Nat.min_eq_left hlt.le]
    have hb := h.full init[p / n] (List.getElem_mem hlt)
    refine ⟨init.take (p / n), init[p / n], init.drop (p / n + 1) ++ [last],
      ⟨?_, ?_, ?_, fun _ => ?_⟩, by rw [List.length_take, Nat.min_eq_left hlt.le]⟩
    · rw [← List.cons_append, ← List.drop_eq_getElem_cons hlt, ← List.append_assoc,
        List.take_append_drop]
    · rw [htake]; omega
    · omega
    · omega
  · rw [Nat.min_eq_right hge]
    have hmul := Nat.mul_le_mul_right n hge
    exact ⟨init, last, [], ⟨rfl, by omega, by omega, fun hne => absurd rfl hne⟩, rfl⟩

/-- What a place says of the lengths: the chunks before are full, and so is its own, unless it is
the last one. -/
theorem Chunked.place_spec (h : Chunked n init last)
    (hplace : Place (init ++ [last]) p pre b post j) :
    pre.length * n + j = p ∧ (post = [] → pre.length = init.length) ∧
      (post ≠ [] → pre.length < init.length ∧ b.length = n) := by
  have hindex := hplace.index
  rcases List.eq_nil_or_concat' post with rfl | ⟨post', c, rfl⟩
  · obtain ⟨rfl, -⟩ := List.append_inj' hplace.eq rfl
    rw [length_flatten_of_full h.full] at hindex
    exact ⟨hindex, fun _ => rfl, fun hne => absurd rfl hne⟩
  · have heq := hplace.eq
    rw [← List.cons_append, ← List.append_assoc] at heq
    obtain ⟨rfl, -⟩ := List.append_inj' heq rfl
    rw [length_flatten_of_full fun c hc => h.full c (List.mem_append_left _ hc)] at hindex
    refine ⟨hindex, fun hnil => absurd hnil (by simp), fun _ => ⟨by simp, h.full b (by simp)⟩⟩

theorem Chunked.place_unique (h : Chunked n init last) (hn : 0 < n)
    (hplace : Place (init ++ [last]) p pre b post j) :
    pre.length = min (p / n) init.length ∧ j = p - min (p / n) init.length * n := by
  obtain ⟨hindex, hlast, hinit⟩ := h.place_spec hplace
  have hlen : pre.length = min (p / n) init.length := by
    by_cases hpost : post = []
    · have hle : pre.length ≤ p / n := (Nat.le_div_iff_mul_le hn).mpr (by omega)
      rw [hlast hpost] at hle ⊢
      exact (Nat.min_eq_right hle).symm
    · obtain ⟨hlt, hb⟩ := hinit hpost
      have hj := hplace.lt hpost
      have hdiv : p / n = pre.length := by
        rw [← hindex, Nat.mul_comm, Nat.mul_add_div hn, Nat.div_eq_of_lt (by omega), Nat.add_zero]
      rw [hdiv, Nat.min_eq_left hlt.le]
  exact ⟨hlen, by rw [← hlen]; omega⟩

/-- Of two places in different chunks, the first one is in a full chunk, and its index is less. -/
theorem Chunked.place_lt (h : Chunked n init last) {q j' : ℕ} {pre' post' : List (List α)}
    {b' : List α} (hplace : Place (init ++ [last]) p pre b post j)
    (hplace' : Place (init ++ [last]) q pre' b' post' j') (hlt : pre.length < pre'.length) :
    b.length = n ∧ p < q := by
  obtain ⟨hindex, hlast, hinit⟩ := h.place_spec hplace
  obtain ⟨hindex', hlast', hinit'⟩ := h.place_spec hplace'
  have hle' : pre'.length ≤ init.length := by
    by_cases hpost' : post' = []
    · exact (hlast' hpost').le
    · exact (hinit' hpost').1.le
  have hpost : post ≠ [] := fun hnil => by
    have := hlast hnil
    omega
  obtain ⟨-, hb⟩ := hinit hpost
  have hj := hplace.lt hpost
  have hmul : (pre.length + 1) * n ≤ pre'.length * n := Nat.mul_le_mul_right n hlt
  rw [Nat.succ_mul] at hmul
  exact ⟨hb, by omega⟩

theorem Chunked.exists_place_before (h : Chunked n init last) (hn : 0 < n) {m r : ℕ}
    (hm : m ≤ init.length) (hr : r < m * n) :
    ∃ pre b post, Place (init ++ [last]) (m * n - (r + 1)) pre b post (n - 1 - r % n) ∧
      pre.length = m - 1 - r / n ∧ b.length = n := by
  have hdiv := Nat.div_add_mod' r n
  have hmod := Nat.mod_lt r hn
  have hlt : r / n < m := Nat.div_lt_of_lt_mul (by rwa [Nat.mul_comm])
  have hindex : m * n - (r + 1) = (m - 1 - r / n) * n + (n - 1 - r % n) := by
    have hsum : m * n = (m - 1 - r / n) * n + r / n * n + n := by
      rw [← Nat.add_mul, ← Nat.succ_mul]
      congr 1
      omega
    omega
  have hq : (m * n - (r + 1)) / n = m - 1 - r / n := by
    have hsmall : (n - 1 - r % n) / n = 0 := Nat.div_eq_of_lt (by omega)
    rw [hindex, Nat.mul_comm, Nat.mul_add_div hn, hsmall, Nat.add_zero]
  have hle : m * n ≤ (init ++ [last]).flatten.length := by
    rw [List.flatten_append, List.length_append, length_flatten_of_full h.full]
    exact (Nat.mul_le_mul_right n hm).trans (Nat.le_add_right _ _)
  obtain ⟨pre, b, post, hplace, hpre⟩ := h.exists_place hn ((Nat.sub_le _ (r + 1)).trans hle)
  have hqm : m - 1 - r / n < init.length :=
    (Nat.sub_le _ _).trans_lt ((Nat.sub_lt (Nat.zero_lt_of_lt hlt) Nat.one_pos).trans_le hm)
  rw [hq, Nat.min_eq_left hqm.le] at hplace hpre
  have hpost : post ≠ [] := fun hnil => by
    have := (h.place_spec hplace).2.1 hnil
    omega
  refine ⟨pre, b, post, ?_, hpre, ((h.place_spec hplace).2.2 hpost).2⟩
  have hj : m * n - (r + 1) - (m - 1 - r / n) * n = n - 1 - r % n := by omega
  rwa [hj] at hplace

/-- The place of an element is found by the division alone. -/
theorem Chunked.div_le (h : Chunked n init last) (hn : 0 < n)
    (hp : p < (init ++ [last]).flatten.length) : p / n ≤ init.length := by
  have hlast := h.last_le
  rw [List.flatten_append, List.length_append, length_flatten_of_full h.full,
    List.flatten_singleton] at hp
  refine Nat.lt_succ_iff.mp ((Nat.div_lt_iff_lt_mul hn).mpr ?_)
  rw [Nat.succ_mul]
  omega

theorem Place.at_end (h : Place bs p pre b post j) (hp : p = bs.flatten.length) :
    post = [] ∧ j = b.length := by
  have hle := h.le
  have hindex := h.index
  rw [h.eq, List.flatten_append, List.flatten_cons, List.length_append, List.length_append] at hp
  refine ⟨?_, by omega⟩
  by_contra hne
  have := h.lt hne
  omega

theorem Place.lt_length (h : Place bs p pre b post j) (hp : p < bs.flatten.length) :
    j < b.length := by
  have hindex := h.index
  by_cases hpost : post = []
  · subst hpost
    rw [h.eq, List.flatten_append, List.flatten_singleton, List.length_append] at hp
    omega
  · exact h.lt hpost

theorem Place.next_chunk {c : List α} (h : Place bs p pre b (c :: post) j) (hj : j + 1 = b.length)
    (hc : c ≠ []) : Place bs (p + 1) (pre ++ [b]) c post 0 where
  eq := by rw [h.eq, List.append_assoc, List.singleton_append]
  index := by
    have := h.index
    rw [List.flatten_append, List.flatten_singleton, List.length_append]
    omega
  le := Nat.zero_le _
  lt _ := List.length_pos_iff.mpr hc

theorem Place.move (h : Place bs p pre b post j) {p' j' : ℕ} (hp : p' + j = p + j')
    (hle : j' ≤ b.length) (hlt : post ≠ [] → j' < b.length) : Place bs p' pre b post j' where
  eq := h.eq
  index := by
    have := h.index
    omega
  le := hle
  lt := hlt

theorem Place.getElem? (h : Place bs p pre b post j) (hj : j < b.length) :
    bs.flatten[p]? = b[j]? := by
  rw [h.eq, ← h.index, List.flatten_append, List.flatten_cons,
    List.getElem?_append_right (by omega), Nat.add_sub_cancel_left, List.getElem?_append_left hj]

theorem Place.insertIdx (h : Place bs p pre b post j) (x : α) :
    bs.flatten.insertIdx p x = pre.flatten ++ (b.insertIdx j x ++ post.flatten) := by
  rw [h.eq, ← h.index, List.flatten_append, List.flatten_cons, insertIdx_append_right,
    insertIdx_append_left _ h.le]

theorem Place.eraseIdx (h : Place bs p pre b post j) :
    bs.flatten.eraseIdx p = pre.flatten ++ (b ++ post.flatten).eraseIdx j := by
  have hindex := h.index
  rw [h.eq, List.flatten_append, List.flatten_cons, List.eraseIdx_append_of_length_le (by omega),
    ← hindex, Nat.add_sub_cancel_left]

theorem Place.set (h : Place bs p pre b post j) (hj : j < b.length) (x : α) :
    bs.flatten.set p x = (pre ++ b.set j x :: post).flatten := by
  have hindex := h.index
  rw [h.eq, List.flatten_append, List.flatten_cons, List.flatten_append, List.flatten_cons,
    List.set_append_right _ _ (by omega), ← hindex, Nat.add_sub_cancel_left,
    List.set_append_left _ _ hj]

end

end OpTransform.Lib.Chunks
