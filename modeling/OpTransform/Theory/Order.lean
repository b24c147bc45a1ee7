import OpTransform.Comm.Erasure
import OpTransform.Lib.Amalgam
import OpTransform.Theory.Convergence

/-! # One order of all elements

Every element of a document gets an identity when it is created, and keeps it (`Tagged`). The weave
of a round is the merge of its insertions alone: the server's document with everything that has been
inserted since, removed elements included. It is a common extension of what the replicas see in the
round (`idents_merge_sublist`), and the next insertions extend it (`weave_sublist_append`). The
weaves of all rounds fit into one list without repetitions (`Woven`), and so all documents of a run
list their elements in one order (`one_order`). -/

namespace OpTransform.Theory.Order

open OpTransform.Ops OpTransform.Comm OpTransform.Lib.Blocks OpTransform.Lib.Keys
open OpTransform.Lib.Runs OpTransform.Lib.Amalgam
open OpTransform.Theory.Effect OpTransform.Theory.Packs OpTransform.Theory.Merge
open OpTransform.Theory.Protocol OpTransform.Theory.Convergence

universe u

variable {T : Type u}

/-! ### Identities -/

/-- The identity of an element: its index in the initial document, or the cid and the revision of
the insertion that created it. -/
inductive Ident
  | initial (i : ℕ)
  | op (cid rev : UInt32)
  deriving DecidableEq

/-- A value with the identity of its element. -/
structure Tagged (T : Type u) where
  value : T
  ident : Ident

/-- The identity of what an insertion creates. -/
def ident (op : OpDescriptor T) : Ident := .op op.cid op.rev

instance : Slot T (Tagged T) where
  create op := ⟨op.value, ident op⟩
  assign s op := { s with value := op.value }

instance : LawfulSlot T (Tagged T) where
  assign_assign _ _ _ := rfl
  create_trans _ _ _ := rfl
  assign_trans _ _ _ _ := rfl

/-- The initial document. -/
def tag (d : List T) : List (Tagged T) := d.mapIdx fun i v => ⟨v, .initial i⟩

/-- The identities of a document. -/
def idents (l : List (Tagged T)) : List Ident := l.map (·.ident)

theorem erases_value : Erases T (Tagged.value (T := T)) := ⟨fun _ => rfl, fun _ _ => rfl⟩

theorem map_value_tag (d : List T) : (tag d).map (·.value) = d := by
  refine List.ext_getElem? fun i => ?_
  simp [tag, Function.comp_def]

/-! ### The weave -/

/-- The insertions of a pack. -/
def inserts (A : OpPack T) : OpPack T := A.filter (·.typ = .insert)

/-- **The weave** of the operations `A` into `D`. -/
def weave (D : List (Tagged T)) (A : OpPack T) : List Ident := idents (merge D (inserts A))

section
variable {D : List (Tagged T)} {A P S : OpPack T} {op : OpDescriptor T}

theorem weave_nil (D : List (Tagged T)) : weave D [] = idents D := by
  rw [weave, inserts, List.filter_nil, merge_nil]

theorem inserts_snoc : inserts (A ++ [op]) =
    if op.typ = .insert then inserts A ++ [op] else inserts A := by
  unfold inserts
  split_ifs with ht <;> simp [ht]

theorem weave_snoc (hp : op.typ = .insert → op.pos.toNat ≤ D.length) :
    weave D (A ++ [op]) = if op.typ = .insert then
      (weave D A).insertIdx (index D (inserts A) op) (ident op) else weave D A := by
  unfold weave
  rw [inserts_snoc]
  split_ifs with ht
  · rw [merge_snoc_insert ht (hp ht)]
    exact List.map_insertIdx _ _ _ _
  · rfl

theorem weave_sublist_append (hS : ∀ op ∈ S, InRange D.length op) :
    (weave D A).Sublist (weave D (A ++ S)) := by
  induction S using List.reverseRecOn with
  | nil => simp
  | append_singleton S op ih =>
    refine (ih fun o ho => hS o (List.mem_append_left _ ho)).trans ?_
    rw [← List.append_assoc, weave_snoc (hS op (by simp)).insert]
    split_ifs
    · exact List.sublist_insertIdx _ _ _
    · exact List.Sublist.refl _

theorem weave_perm_append (hS : ∀ op ∈ S, InRange D.length op) :
    (weave D (A ++ S)).Perm ((inserts S).map ident ++ weave D A) := by
  induction S using List.reverseRecOn with
  | nil => simp [inserts]
  | append_singleton S op ih =>
    have hop := (hS op (by simp)).insert
    have hperm := ih fun o ho => hS o (List.mem_append_left _ ho)
    rw [← List.append_assoc, weave_snoc hop]
    split_ifs with ht
    · have hle : index D (inserts (A ++ S)) op ≤ (weave D (A ++ S)).length := by
        rw [weave, idents, List.length_map]
        exact index_le ht (hop ht)
      have hins : inserts (S ++ [op]) = inserts S ++ [op] := by rw [inserts_snoc, if_pos ht]
      refine (List.perm_insertIdx _ _ hle).trans ((hperm.cons _).trans ?_)
      rw [hins, List.map_append, List.append_assoc]
      exact List.perm_middle.symm
    · rw [inserts_snoc, if_neg ht]
      exact hperm

theorem insertsAt_inserts (A : OpPack T) (p : ℕ) : insertsAt (inserts A) p = insertsAt A p := by
  unfold insertsAt inserts
  rw [List.filter_filter]
  congr 2
  exact List.filter_congr fun a _ => by by_cases h : a.typ = .insert <;> simp [IsAt, h]

theorem cell_inserts (D : List (Tagged T)) (A : OpPack T) (p : ℕ) :
    cell D (inserts A) p = D[p]?.toList := by
  have hr : ¬ Removed (inserts A) p := by
    rintro ⟨a, ha, ht⟩
    have hi := of_decide_eq_true (List.mem_filter.mp ha).2
    rw [ht.1] at hi; cases hi
  have hw : winner (inserts A) p = none := by
    refine lastMin_eq_none.mpr (List.filter_eq_nil_iff.mpr fun a ha ht => ?_)
    have hi := of_decide_eq_true (List.mem_filter.mp ha).2
    rw [(of_decide_eq_true ht).1] at hi; cases hi
  simp [cell, hr, hw]

theorem idents_cell_sublist (D : List (Tagged T)) (P : OpPack T) (p : ℕ) :
    (idents (cell D P p)).Sublist (idents D[p]?.toList) := by
  unfold cell
  split_ifs
  · exact List.nil_sublist _
  · cases D[p]? with
    | none => exact List.Sublist.refl _
    | some s => cases winner P p <;> exact List.Sublist.refl _

/-- **The weave extends every merge** of some of its operations. -/
theorem idents_merge_sublist (h : ∀ p, (insertsAt P p).Sublist (insertsAt A p)) :
    (idents (merge D P)).Sublist (weave D A) := by
  unfold weave idents merge
  rw [map_flat, map_flat]
  refine flat_sublist fun p _ => ?_
  unfold block
  rw [insertsAt_inserts, cell_inserts, List.map_append, List.map_append]
  exact (((h p).map _).map _).append (idents_cell_sublist D P p)

theorem insertsAt_filter_sublist (A : OpPack T) (c : UInt32) (p : ℕ) :
    (insertsAt (A.filter (·.cid = c)) p).Sublist (insertsAt A p) := by
  have hown : ((A.filter (·.cid = c)).filter (IsAt .insert p ·)).reverse =
      (A.filter (IsAt .insert p ·)).reverse.filter (cidKey · = c.toNat) := by
    rw [List.filter_reverse, List.filter_filter, List.filter_filter]
    congr 1
    refine List.filter_congr fun a _ => ?_
    rw [Bool.and_comm]
    simp [cidKey, UInt32.toNat_inj]
  have hsorted : ((A.filter (IsAt .insert p ·)).reverse.filter (cidKey · = c.toNat)).Pairwise
      (KeyLE cidKey) := by
    refine List.Pairwise.imp_of_mem (fun {a b} ha hb _ => ?_)
      (List.pairwise_of_forall fun _ _ => trivial)
    have h1 : cidKey a = c.toNat := of_decide_eq_true (List.mem_filter.mp ha).2
    have h2 : cidKey b = c.toNat := of_decide_eq_true (List.mem_filter.mp hb).2
    exact (h1.trans h2.symm).le
  rw [insertsAt, hown, hsorted.insertionSort_eq, ← filter_insertionSort]
  exact List.filter_sublist

end

/-! ### The identities of a signed pack -/

theorem map_ident_sign (cid rev : UInt32) (pack : OpPack T) :
    (Client.sign cid rev pack).1.map ident =
      (List.range pack.length).map fun k => Ident.op cid (rev + UInt32.ofNat k) := by
  rw [Client.sign_eq]
  refine List.ext_getElem? fun k => ?_
  by_cases hk : k < pack.length <;> simp [hk, ident]

theorem toNat_rev_add {rev : UInt32} {k n : ℕ} (hk : k ≤ n) (hn : rev.toNat + n < 2 ^ 32) :
    (rev + UInt32.ofNat k).toNat = rev.toNat + k := by
  rw [UInt32.toNat_add, UInt32.toNat_ofNat_of_lt' (by show k < 2 ^ 32; omega)]
  omega

/-- As long as the revisions do not wrap, no identity is signed twice. -/
theorem nodup_ident_sign {rev : UInt32} {pack : OpPack T} (hn : rev.toNat + pack.length < 2 ^ 32)
    (cid : UInt32) : ((Client.sign cid rev pack).1.map ident).Nodup := by
  rw [map_ident_sign]
  refine List.Nodup.map_on (fun k hk l hl h => ?_) List.nodup_range
  have hk' := toNat_rev_add (List.mem_range.mp hk).le hn
  have hl' := toNat_rev_add (List.mem_range.mp hl).le hn
  have hrev := congrArg UInt32.toNat (Ident.op.inj h).2
  omega

theorem of_mem_ident_sign {rev cid : UInt32} {pack : OpPack T}
    (hn : rev.toNat + pack.length < 2 ^ 32) {e : Ident}
    (he : e ∈ (Client.sign cid rev pack).1.map ident) :
    ∃ v : UInt32, e = .op cid v ∧ rev.toNat ≤ v.toNat ∧ v.toNat < rev.toNat + pack.length := by
  rw [map_ident_sign, List.mem_map] at he
  obtain ⟨k, hk, rfl⟩ := he
  rw [List.mem_range] at hk
  have hk' := toNat_rev_add hk.le hn
  exact ⟨_, rfl, by omega, by omega⟩

/-! ### One list for all documents of a run -/

/-- The operations of a call. -/
def numOps : Action T → ℕ
  | .makeLocalOps _ pack => pack.length
  | _ => 0

/-- The operations of a run. -/
def totalOps (acts : List (Action T)) : ℕ := (acts.map numOps).sum

theorem totalOps_snoc (acts : List (Action T)) (act : Action T) :
    totalOps (acts ++ [act]) = totalOps acts + numOps act := by
  simp [totalOps]

/-- **The list `W` has all identities so far**: the weave of this round in its order, and no
identity that is still to be given out. The run has begun with `n` elements and made
`N` operations. -/
structure Woven (n N : ℕ) (a : Session T (Tagged T)) (W : List Ident) : Prop where
  synced : Synced a
  nodup : W.Nodup
  weave : (weave a.doc a.accum).Sublist W
  given : ∀ c v, Ident.op c v ∈ W →
    ∃ j, ∃ r : Replica T (Tagged T), a.replicas[j]? = some r ∧ c = Replica.cid j ∧
      v.toNat < r.rev.toNat
  revs : ∀ (j : ℕ) (r : Replica T (Tagged T)), a.replicas[j]? = some r → r.rev.toNat ≤ N
  size : a.doc.length + a.accum.length ≤ n + N

/-- All documents list their elements in the order of `W`. -/
def InLine (W : List Ident) (a : Session T (Tagged T)) : Prop :=
  (idents a.doc).Sublist W ∧
    ∀ (i : ℕ) (r : Replica T (Tagged T)), a.replicas[i]? = some r → (idents r.doc).Sublist W

namespace Woven

variable {n N : ℕ} {a : Session T (Tagged T)} {W : List Ident}

theorem inLine (h : Woven n N a W) : InLine W a := by
  refine ⟨?_, fun i r hr => ?_⟩
  · have hnil : ∀ p, (insertsAt ([] : OpPack T) p).Sublist (insertsAt a.accum p) := fun p =>
      List.nil_sublist _
    have hsub : (idents (merge a.doc ([] : OpPack T))).Sublist _ := idents_merge_sublist hnil
    rw [merge_nil] at hsub
    exact hsub.trans h.weave
  · rw [h.synced.doc i r hr, ← h.synced.books.applied i r hr]
    exact (idents_merge_sublist fun p => insertsAt_filter_sublist _ _ p).trans h.weave

theorem start {d : List T} (hd : d.length < 2 ^ 32) :
    Woven d.length 0 (Session.start (tag d)) (idents (tag d)) := by
  have hlen : (tag d).length = d.length := by simp [tag]
  have hidents : idents (tag d) = (List.range d.length).map Ident.initial := by
    refine List.ext_getElem? fun i => ?_
    by_cases hi : i < d.length <;> simp [idents, tag, hi]
  refine ⟨Synced.start (by omega), ?_, ?_, fun c v hv => ?_, nofun, ?_⟩
  · rw [hidents]
    exact List.nodup_range.map fun i j h => Ident.initial.inj h
  · exact (weave_nil (tag d)) ▸ List.Sublist.refl _
  · rw [hidents] at hv
    simp at hv
  · show (tag d).length + 0 ≤ d.length + 0
    omega

theorem connect (h : Woven n N a W) (hfew : a.replicas.length + 1 < 2 ^ 32) :
    Woven n N a.connect W := by
  refine ⟨h.synced.connect hfew, h.nodup, h.weave, fun c v hv => ?_, fun j r hr => ?_, h.size⟩
  · obtain ⟨j, r, hr, hc, hlt⟩ := h.given c v hv
    obtain ⟨hj, -⟩ := List.getElem?_eq_some_iff.mp hr
    exact ⟨j, r, by rw [Session.connect, List.getElem?_append_left hj]; exact hr, hc, hlt⟩
  · rcases Session.connect_cases hr with hr | ⟨-, rfl⟩
    · exact h.revs j r hr
    · exact Nat.zero_le N

theorem update (h : Woven n N a W) : Woven n N a.update W := by
  refine ⟨h.synced.update, h.nodup, ?_, fun c v hv => ?_, fun j q hq => ?_, ?_⟩
  · show (Order.weave a.updatedDoc []).Sublist W
    rw [weave_nil, h.synced.updatedDoc_eq]
    exact (idents_merge_sublist fun p => List.Sublist.refl _).trans h.weave
  · obtain ⟨j, r, hr, hc, hlt⟩ := h.given c v hv
    refine ⟨j, r.update a.accum j, ?_, hc, hlt⟩
    rw [Session.update, List.getElem?_mapIdx, hr]
    rfl
  · obtain ⟨r, hr, rfl⟩ := Session.update_cases hq
    exact h.revs j r hr
  · show a.updatedDoc.length + 0 ≤ n + N
    rw [h.synced.updatedDoc_eq]
    exact (length_merge_le a.doc a.accum).trans h.size

theorem makeLocalOps (h : Woven n N a W) {i : ℕ} {r : Replica T (Tagged T)}
    (hr : a.replicas[i]? = some r) (ha : r.applied = []) {pack : OpPack T}
    (hrange : ∀ op ∈ pack, InRange r.doc.length op) (hpack : NoDoubleRemove pack)
    (htotal : n + (N + pack.length) < 2 ^ 32) :
    ∃ W', W.Sublist W' ∧ Woven n (N + pack.length) (a.makeLocalOps i r pack) W' := by
  set S := (Client.sign (Replica.cid i) r.rev pack).1 with hS
  have hrev : r.rev.toNat + pack.length < 2 ^ 32 := by
    have := h.revs i r hr
    omega
  have hsize := h.size
  obtain ⟨hi, -⟩ := List.getElem?_eq_some_iff.mp hr
  have hrangeS : ∀ op ∈ S, InRange a.doc.length op := by
    rw [h.synced.doc_eq hr ha] at hrange
    exact inRange_sign hrange _ _
  have hperm : (Order.weave a.doc (a.accum ++ S)).Perm _ := weave_perm_append hrangeS
  have hsub : ((inserts S).map ident).Sublist (S.map ident) := List.filter_sublist.map _
  have hsigned : ∀ e ∈ (inserts S).map ident, ∃ v : UInt32, e = .op (Replica.cid i) v ∧
      r.rev.toNat ≤ v.toNat ∧ v.toNat < r.rev.toNat + pack.length := fun e he =>
    of_mem_ident_sign hrev (hsub.subset he)
  -- the signed identities are new
  have hfresh : ∀ e ∈ (inserts S).map ident, e ∉ W := by
    intro e he heW
    obtain ⟨v, rfl, hle, -⟩ := hsigned e he
    obtain ⟨j, q, hq, hc, hlt⟩ := h.given _ _ heW
    obtain ⟨hj, -⟩ := List.getElem?_eq_some_iff.mp hq
    obtain rfl := (cid_inj hi hj h.synced.books.few).mp hc
    rw [hr] at hq
    obtain rfl := Option.some.inj hq
    omega
  have hnodup : (Order.weave a.doc (a.accum ++ S)).Nodup := by
    rw [hperm.nodup_iff, List.nodup_append']
    exact ⟨(nodup_ident_sign hrev _).sublist hsub, h.nodup.sublist h.weave, fun e he heX =>
      hfresh e he (h.weave.subset heX)⟩
  obtain ⟨V, hWV, hMV, hV, hmem⟩ := exists_nodup_amalgam h.weave
    (weave_sublist_append hrangeS) h.nodup hnodup fun e heW heM => by
      rcases List.mem_append.mp (hperm.subset heM) with he | he
      · exact absurd heW (hfresh e he)
      · exact he
  have hself : (a.makeLocalOps i r pack).replicas[i]? = some (r.makeLocalOps i pack) :=
    List.getElem?_set_self hi
  have hnewrev : (r.makeLocalOps i pack).rev.toNat = r.rev.toNat + pack.length := by
    rw [Replica.makeLocalOps, Client.sign_eq]
    exact toNat_rev_add le_rfl hrev
  refine ⟨V, hWV, h.synced.makeLocalOps hr ha hrange hpack (by omega), hV, hMV, fun c v hv => ?_,
    fun j q hq => ?_, ?_⟩
  · have hcases : Ident.op c v ∈ W ∨ Ident.op c v ∈ (inserts S).map ident := by
      rcases hmem _ hv with he | he
      · exact Or.inl he
      · rcases List.mem_append.mp (hperm.subset he) with he | he
        · exact Or.inr he
        · exact Or.inl (h.weave.subset he)
    rcases hcases with he | he
    · obtain ⟨j, q, hq, hc, hlt⟩ := h.given c v he
      by_cases hij : i = j
      · subst hij
        rw [hr] at hq
        obtain rfl := Option.some.inj hq
        exact ⟨i, _, hself, hc, by omega⟩
      · exact ⟨j, q, by rw [Session.makeLocalOps, List.getElem?_set_ne hij]; exact hq, hc, hlt⟩
    · obtain ⟨v', hv', -, hlt⟩ := hsigned _ he
      obtain ⟨rfl, rfl⟩ := Ident.op.inj hv'
      exact ⟨i, _, hself, rfl, by omega⟩
  · rcases Session.makeLocalOps_cases hr hq with ⟨-, hq⟩ | ⟨-, rfl⟩
    · exact (h.revs j q hq).trans (Nat.le_add_right _ _)
    · have := h.revs i r hr
      omega
  · show a.doc.length + (a.accum ++ S).length ≤ n + (N + pack.length)
    rw [List.length_append, hS, length_sign]
    omega

theorem step (h : Woven n N a W) {act : Action T} (hact : Proper a.toSystem act)
    {b : Session T (Tagged T)} (hs : a.step act = .ok b) (hfew : b.replicas.length < 2 ^ 32)
    (htotal : n + (N + numOps act) < 2 ^ 32) :
    ∃ W', W.Sublist W' ∧ Woven n (N + numOps act) b W' := by
  rcases Session.step_cases hs with ⟨rfl, rfl⟩ | ⟨i, pack, r, rfl, hr, ha, rfl⟩ | ⟨rfl, rfl⟩
  · exact ⟨W, List.Sublist.refl W, h.connect (by simpa [Session.connect] using hfew)⟩
  · obtain ⟨⟨q, hq, -, hrange⟩, hpack⟩ := proper_makeLocalOps.mp hact
    obtain rfl := Option.some.inj (hr.symm.trans hq)
    exact h.makeLocalOps hr ha hrange hpack.noDoubleRemove htotal
  · exact ⟨W, List.Sublist.refl W, h.update⟩

/-- **One list for a whole run**, in whose order all documents of all its states list their
elements. -/
theorem of_run {d : List T} {acts : List (Action T)}
    (h : Run Session.step (fun a act => Proper a.toSystem act) (Session.start (tag d)) acts a)
    (hfew : a.replicas.length < 2 ^ 32) (htotal : d.length + totalOps acts < 2 ^ 32) :
    ∃ W, Woven d.length (totalOps acts) a W ∧ ∀ acts₁ acts₂ b, acts = acts₁ ++ acts₂ →
      Run Session.step (fun a act => Proper a.toSystem act) (Session.start (tag d)) acts₁ b →
        InLine W b := by
  induction h with
  | nil =>
    have hstart : Woven d.length 0 (Session.start (tag d)) (idents (tag d)) := start (by omega)
    refine ⟨_, hstart, fun acts₁ acts₂ b he hb => ?_⟩
    obtain ⟨rfl, -⟩ := List.append_eq_nil_iff.mp he.symm
    have hnil : Run Session.step (fun (a : Session T (Tagged T)) (act : Action T) =>
        Proper a.toSystem act) (Session.start (tag d)) [] _ := .nil
    rw [hb.unique hnil]
    exact hstart.inLine
  | @snoc as t u act ht hact hs ih =>
    rw [totalOps_snoc] at htotal
    obtain ⟨W, hW, hline⟩ := ih ((Session.length_le_of_step hs).trans_lt hfew) (by omega)
    obtain ⟨W', hWW', hW'⟩ := hW.step hact hs hfew htotal
    refine ⟨W', by rw [totalOps_snoc]; exact hW', fun acts₁ acts₂ b he hb => ?_⟩
    -- a state of the run so far, or the new one
    rcases List.eq_nil_or_concat acts₂ with rfl | ⟨acts₂, act', rfl⟩
    · rw [List.append_nil] at he
      subst he
      rw [hb.unique (.snoc ht hact hs)]
      exact hW'.inLine
    · rw [List.concat_eq_append, ← List.append_assoc] at he
      obtain ⟨rfl, -⟩ := List.append_singleton_inj.mp he
      obtain ⟨hdoc, hdocs⟩ := hline acts₁ acts₂ b rfl hb
      exact ⟨hdoc.trans hWW', fun i r hr => (hdocs i r hr).trans hWW'⟩

end Woven

/-! ### One order -/

/-- All documents of the system list their identities in strictly increasing order. -/
def Increasing (ord : LinearOrder Ident) (t : System T (Tagged T)) : Prop :=
  (idents (t.server.doc t.server.state)).Pairwise (fun a b => ord.lt a b) ∧
    ∀ c ∈ t.clients, (idents (t.server.doc c.state)).Pairwise fun a b => ord.lt a b

theorem InLine.increasing {W : List Ident} {a : Session T (Tagged T)} (h : InLine W a)
    {ord : LinearOrder Ident}
    (hord : ∀ l : List Ident, l.Sublist W → l.Pairwise fun a b => ord.lt a b) :
    Increasing ord a.toSystem := by
  refine ⟨hord _ h.1, fun c hc => ?_⟩
  obtain ⟨i, r, hr, rfl⟩ := Session.mem_clients.mp hc
  rw [Session.doc_client hr]
  exact hord _ (h.2 i r hr)

theorem proper_map {t : System T (Tagged T)} {act : Action T} (h : Proper (t.map (·.value)) act) :
    Proper t act := by
  cases act with
  | connect => trivial
  | update => trivial
  | makeLocalOps addr pack =>
    obtain ⟨⟨c, hc, ha, hrange⟩, hpack⟩ := h
    rw [doc_map, List.length_map] at hrange
    exact ⟨⟨c, hc, ha, hrange⟩, hpack⟩

/-- **One order of all elements.** The run of the code is what a run on tagged documents shows of
its values, and in every state of that run all documents list their elements in one and the same
order. -/
theorem one_order {d : List T} {s₀ s : System T T} {acts : List (Action T)} (h₀ : start d = .ok s₀)
    (h : Run step Proper s₀ acts s) (hfew : s.clients.length < 2 ^ 32)
    (htotal : d.length + totalOps acts < 2 ^ 32) :
    ∃ ord : LinearOrder Ident, ∀ acts₁ acts₂, acts = acts₁ ++ acts₂ →
      ∃ t : System T (Tagged T), (start (tag d)).bind (fun t₀ => acts₁.foldlM step t₀) = .ok t ∧
        acts₁.foldlM step s₀ = .ok (t.map (·.value)) ∧ Increasing ord t := by
  have hstart : ((Session.start (tag d)).map (·.value)).toSystem = s₀ := by
    rw [← Except.ok.inj h₀, Session.map, Session.start, map_value_tag]
    rfl
  subst hstart
  obtain ⟨b, rfl, hb⟩ := Session.run_map erases_value h
  have hb' : Run Session.step (fun a act => Proper a.toSystem act) (Session.start (tag d)) acts b :=
    hb.mono fun a act hact => proper_map (Session.toSystem_map _ a ▸ hact)
  obtain ⟨W, hW, hline⟩ := Woven.of_run hb'
    (by simpa [Session.toSystem, Session.map] using hfew) htotal
  obtain ⟨ord, hord⟩ := exists_linearOrder hW.nodup
  refine ⟨ord, fun acts₁ acts₂ he => ?_⟩
  subst he
  obtain ⟨t, ht, -⟩ := hb'.split
  have htagged : Run step Proper (Session.start (tag d)).toSystem acts₁ t.toSystem :=
    ht.map Session.step_toSystem fun _ _ hact => hact
  have hvalues : Run step (fun _ _ => True) ((Session.start (tag d)).map (·.value)).toSystem acts₁
      (t.map (·.value)).toSystem :=
    ht.map (Session.step_map_toSystem erases_value) fun _ _ _ => trivial
  refine ⟨t.toSystem, htagged.foldlM_eq, ?_, (hline acts₁ acts₂ t rfl ht).increasing hord⟩
  rw [← Session.toSystem_map]
  exact hvalues.foldlM_eq

/-- Two clients that insert at the same place of the same document, before the update. -/
theorem one_order_two : ∃ ord : LinearOrder Ident, ∃ t : System ℕ (Tagged ℕ),
    (start (tag [1, 2])).bind (fun t₀ => [Action.connect, .connect,
      .makeLocalOps 0 [.ofArgs .insert 1 7 0, .ofArgs .insert 1 8 0],
      .makeLocalOps 1 [.ofArgs .insert 1 9 0]].foldlM step t₀) = .ok t ∧ Increasing ord t := by
  have h : Run step Proper (Session.start [1, 2]).toSystem [Action.connect, .connect,
      .makeLocalOps 0 [.ofArgs .insert 1 7 0, .ofArgs .insert 1 8 0],
      .makeLocalOps 1 [.ofArgs .insert 1 9 0]] (_ : System ℕ ℕ) :=
    .cons trivial rfl (.cons trivial rfl
      (.cons ⟨⟨_, rfl, rfl, by decide⟩, (Filtered.nil.append rfl).append rfl⟩ rfl
        (.cons ⟨⟨_, rfl, rfl, by decide⟩, Filtered.nil.append rfl⟩ rfl .nil)))
  obtain ⟨ord, hord⟩ := one_order rfl h (by decide) (by decide)
  obtain ⟨t, ht, -, hinc⟩ := hord _ [] (List.append_nil _).symm
  exact ⟨ord, t, ht, hinc⟩

/-- A client inserts behind an element that the server has never got, and before the one that the
server puts in front. -/
theorem not_one_order :
    ¬ ∀ (d : List ℕ) (acts : List (Action ℕ)) (s₀ s : System ℕ ℕ), start d = .ok s₀ →
      Run step Proper s₀ acts s → d.length + totalOps acts < 2 ^ 32 →
        ∃ ord : LinearOrder Ident, ∀ acts₁ acts₂, acts = acts₁ ++ acts₂ →
          ∃ t : System ℕ (Tagged ℕ),
            (start (tag d)).bind (fun t₀ => acts₁.foldlM step t₀) = .ok t ∧
            acts₁.foldlM step s₀ = .ok (t.map (·.value)) ∧ Increasing ord t := by
  intro h
  obtain ⟨n, hn⟩ : ∃ n, Replica.cid n = 0 := ⟨2 ^ 32 - 1, by decide⟩
  let pack : OpPack ℕ := [.ofArgs .insert 0 7 0]
  let pack' : OpPack ℕ := [.ofArgs .insert 1 9 0]
  obtain ⟨r, -, -, -, hrun⟩ := run_lost_makeLocalOps hn ([5] : List ℕ) pack pack' (by decide)
    (Filtered.nil.append rfl) (by decide) (by decide) (Filtered.nil.append rfl) (by decide)
  obtain ⟨q, hq, ha, hdoc, htag⟩ := run_lost_makeLocalOps hn (tag [5]) pack pack' (by decide)
    (Filtered.nil.append rfl) (by decide) (by decide) (Filtered.nil.append rfl) (by decide)
  set R : List (Action ℕ) :=
    List.replicate (n + 1) .connect ++ [.makeLocalOps n pack, .update] ++ [.makeLocalOps 0 pack']
  set b := (lost (tag [5]) n pack).makeLocalOps 0 q pack' with hb
  have hvalues : Run step Proper (Session.start [5]).toSystem (R ++ [.update])
      ((lost ([5] : List ℕ) n pack).makeLocalOps 0 r pack').update.toSystem :=
    .snoc (hrun.mono fun _ _ hact => hact.1) trivial (Session.update_toSystem _)
  have htags : Run step Admissible (Session.start (tag [5])).toSystem (R ++ [.update])
      b.update.toSystem :=
    .snoc htag ⟨trivial, trivial⟩ (Session.update_toSystem _)
  obtain ⟨ord, hord⟩ := h [5] _ _ _ rfl hvalues (by simp [R, totalOps, numOps, pack, pack'])
  obtain ⟨t, ht, -, -, hclients⟩ := hord R [.update] rfl
  obtain rfl : b.toSystem = t := Except.ok.inj (htag.foldlM_eq.symm.trans ht)
  obtain ⟨t, ht, -, hserver, -⟩ := hord (R ++ [.update]) [] (List.append_nil _).symm
  obtain rfl : b.update.toSystem = t := Except.ok.inj (htags.foldlM_eq.symm.trans ht)
  -- the client has its element before the initial one
  have hclient : ord.lt (.op 1 q.rev) (.initial 0) := by
    have hget : b.replicas[0]? = some (q.makeLocalOps 0 pack') :=
      List.getElem?_set_self (List.getElem?_eq_some_iff.mp hq).1
    have hinc := hclients _ (Session.mem_clients.mpr ⟨0, _, hget, rfl⟩)
    rw [Session.doc_client hget] at hinc
    have hids : idents (q.makeLocalOps 0 pack').doc = [.op 0 0, .op 1 q.rev, .initial 0] := by
      show idents (State.applyPack q.doc _) = _
      rw [hdoc]
      rfl
    rw [hids] at hinc
    exact List.rel_of_pairwise_cons hinc.of_cons (by simp)
  -- and the server has it after
  have hafter : ord.lt (.initial 0) (.op 1 q.rev) := by
    have hids : idents b.update.doc = [.initial 0, .op 1 q.rev] := by
      show idents (State.applyFromOthers (lost (tag [5]) n pack).doc 0 [] _).1 = _
      rw [doc_lost hn]
      rfl
    rw [Session.doc_server, hids] at hserver
    exact List.rel_of_pairwise_cons hserver (by simp)
  exact absurd hafter (lt_asymm hclient)

end OpTransform.Theory.Order
