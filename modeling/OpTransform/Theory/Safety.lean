import OpTransform.Theory.Convergence

/-! # Positions

Every call of `State::apply(pack, op)` that a step makes, with the document and the pack it finds
(`calls`); they make the documents after the step (`edits_of_step`). In a run of admissible calls
each of them is safe (`safety`): no counting of the serial position wraps, and an operation that
still edits does so inside the document, so that `State::apply` neither returns for an empty
document nor moves a position. -/

namespace OpTransform.Theory.Safety

open OpTransform.Ops OpTransform.Comm OpTransform.Lib.Blocks OpTransform.Lib.Runs
open OpTransform.Theory.Effect OpTransform.Theory.Packs OpTransform.Theory.Merge
open OpTransform.Theory.Protocol OpTransform.Theory.Convergence

universe u

variable {T σ : Type u}

/-! ### The calls of a step -/

/-- A call of `apply(pack, op)`: the document, the pack and the operation. -/
structure Call (T σ : Type u) where
  data : List σ
  pack : OpPack T
  op : OpDescriptor T

/-- The operation that `apply(op)` gets. -/
def Call.transformed (c : Call T σ) : OpDescriptor T := c.pack.foldl OpDescriptor.trans c.op

section
variable [Slot T σ]

/-- The calls of `applyFromOthers(cid, pack, srcPack)`. -/
def othersCalls (data : List σ) (cid : UInt32) (pack : OpPack T) : OpPack T → List (Call T σ)
  | [] => []
  | op :: src =>
    if cid = op.cid then othersCalls data cid pack src
    else
      let s := State.applyPut data pack op
      ⟨data, pack, op⟩ :: othersCalls s.1 cid s.2 src

/-- The calls of `apply(pack)`, from the pack it has built so far. -/
def packCalls (data : List σ) (pack : OpPack T) : OpPack T → List (Call T σ)
  | [] => []
  | op :: src =>
    let s := State.applyPut data pack op
    ⟨data, pack, op⟩ :: packCalls s.1 s.2 src

/-- The calls of a step, on the server's document and on the clients'. -/
def calls (s : System T σ) : Action T → List (Call T σ)
  | .connect => []
  | .makeLocalOps addr pack =>
    match s.clients[addr]? with
    | none => []
    | some c => packCalls (s.server.doc c.state) [] (Client.sign c.cid c.rev pack).1
  | .update =>
    othersCalls (s.server.doc s.server.state) 0 [] s.server.accum ++
      s.server.clients.flatMap fun pc =>
        match s.clients[pc]? with
        | none => []
        | some c => othersCalls (s.server.doc c.state) c.cid c.applied s.server.accum

theorem othersCalls_eq (data : List σ) (cid : UInt32) (pack src : OpPack T) :
    othersCalls data cid pack src = packCalls data pack (src.filter (cid ≠ ·.cid)) := by
  induction src generalizing data pack with
  | nil => rfl
  | cons op src ih =>
    by_cases h : cid = op.cid
    · rw [othersCalls, if_pos h, ih, List.filter_cons_of_neg (by simpa using h)]
    · rw [othersCalls, if_neg h, List.filter_cons_of_pos (by simpa using h), packCalls]
      simp only [ih]

/-- Calls one after the other on a document, each on what the one before has left. -/
inductive Edits : List σ → List (Call T σ) → List σ → Prop
  | nil {data : List σ} : Edits data [] data
  | cons {c : Call T σ} {cs : List (Call T σ)} {data : List σ}
      (h : Edits (State.apply c.data c.transformed) cs data) : Edits c.data (c :: cs) data

theorem edits_packCalls (data : List σ) (pack src : OpPack T) :
    Edits data (packCalls data pack src) (State.applyAll data pack src).1 := by
  induction src generalizing data pack with
  | nil => exact .nil
  | cons op src ih =>
    exact Edits.cons (c := ⟨data, pack, op⟩) (ih _ _)

theorem edits_othersCalls (data : List σ) (cid : UInt32) (pack src : OpPack T) :
    Edits data (othersCalls data cid pack src) (State.applyFromOthers data cid pack src).1 := by
  rw [othersCalls_eq, State.applyFromOthers_eq]
  exact edits_packCalls _ _ _

/-! ### The documents after a step -/

/-- The calls of an update, document by document. -/
def updateCalls (a : Session T σ) : ℕ → List (Call T σ)
  | 0 => othersCalls a.doc 0 [] a.accum
  | i + 1 =>
    match a.replicas[i]? with
    | none => []
    | some r => othersCalls r.doc (Replica.cid i) r.applied a.accum

theorem calls_update (a : Session T σ) :
    calls a.toSystem .update = flat (updateCalls a) (a.replicas.length + 1) := by
  unfold flat calls
  rw [List.range_succ_eq_map, List.flatMap_cons, List.flatMap_map]
  refine congrArg (othersCalls a.doc 0 [] a.accum ++ ·) ?_
  show (List.range a.replicas.length).flatMap _ = _
  refine List.flatMap_congr fun i _ => ?_
  rw [Session.getElem?_clients]
  cases hr : a.replicas[i]? with
  | none => simp only [Option.map_none, updateCalls, hr]
  | some r =>
    simp only [Option.map_some, Session.doc_client hr, updateCalls, hr]
    rfl

/-- **What the calls of a step do**, in every run: they fall into the calls on each document, and
every document afterwards is what the calls on it make of it. A document that the step adds is not
there before. -/
theorem edits_of_step {guard : System T σ → Action T → Prop} {d : List σ} {s₀ s s' : System T σ}
    {acts : List (Action T)} {act : Action T} (h₀ : start d = .ok s₀) (h : Run step guard s₀ acts s)
    (hstep : step s act = .ok s') :
    ∃ on : ℕ → List (Call T σ), calls s act = flat on (s.clients.length + 1) ∧
      ∀ i ≤ s.clients.length, Edits (s.server.doc (some i)) (on i) (s'.server.doc (some i)) := by
  obtain rfl : (Session.start d).toSystem = s₀ := Except.ok.inj h₀
  obtain ⟨a, rfl, -⟩ := Session.run_toSystem h
  rw [Session.step_toSystem] at hstep
  obtain ⟨b, hb, rfl⟩ := exists_of_map_eq_ok hstep
  have hlen : a.toSystem.clients.length = a.replicas.length := by simp [Session.toSystem]
  rw [hlen]
  rcases Session.step_cases hb with ⟨rfl, rfl⟩ | ⟨k, pack, r, rfl, hr, -, rfl⟩ | ⟨rfl, rfl⟩
  · -- connect
    refine ⟨fun _ => [], by simp [calls, flat], fun i hi => ?_⟩
    cases i with
    | zero => exact .nil
    | succ i =>
      rw [Session.doc_succ, Session.doc_succ, Session.connect, List.getElem?_append_left (by omega)]
      exact .nil
  · -- makeLocalOps
    obtain ⟨hk, -⟩ := List.getElem?_eq_some_iff.mp hr
    set cs := packCalls r.doc [] (Client.sign (Replica.cid k) r.rev pack).1 with hcs
    refine ⟨fun i => if i = k + 1 then cs else [], ?_, fun i hi => ?_⟩
    · rw [flat_single cs (by omega), hcs]
      simp only [calls, Session.getElem?_clients, hr, Option.map_some, Session.doc_client hr]
      rfl
    · cases i with
      | zero => exact .nil
      | succ i =>
        rw [Session.doc_succ, Session.doc_succ, Session.makeLocalOps]
        by_cases hik : i = k
        · subst hik
          simp only [List.getElem?_set_self hk, hr, if_true]
          exact edits_packCalls _ _ _
        · have hne : i + 1 ≠ k + 1 := by omega
          simp only [List.getElem?_set_ne (Ne.symm hik), if_neg hne]
          exact .nil
  · -- update
    refine ⟨updateCalls a, calls_update a, fun i hi => ?_⟩
    cases i with
    | zero => exact edits_othersCalls _ _ _ _
    | succ i =>
      have hi' : i < a.replicas.length := by omega
      simp only [Session.doc_succ, Session.update, updateCalls, List.getElem?_mapIdx,
        List.getElem?_eq_getElem hi', Option.map_some]
      exact edits_othersCalls _ _ _ _

end

/-! ### Safe calls -/

/-- An operation that edits. -/
def Effective (op : OpDescriptor T) : Prop :=
  op.typ = .insert ∨ op.typ = .remove ∨ op.typ = .update

/-- The serial position, as a number, changes by one at most: it does not wrap. -/
def NoWrap (op a : OpDescriptor T) : Prop :=
  (op.trans a).posser.toNat + 1 = op.posser.toNat ∨
    (op.trans a).posser.toNat = op.posser.toNat ∨
    (op.trans a).posser.toNat = op.posser.toNat + 1

/-- **A safe call.** If the operation still edits when it is transformed, then no step of its
transformation has wrapped, and its position is inside the document. -/
structure Call.Safe (c : Call T σ) : Prop where
  noWrap : Effective c.transformed → ∀ (A : OpPack T) (a : OpDescriptor T) (B : OpPack T),
    c.pack = A ++ a :: B → NoWrap (A.foldl OpDescriptor.trans c.op) a
  insert : c.transformed.typ = .insert → c.transformed.posser ≤ State.size c.data
  inside : c.transformed.typ = .remove ∨ c.transformed.typ = .update →
    c.transformed.posser < State.size c.data
  /-- neither the return for the empty document nor the move to the last element -/
  noClamp : Effective c.transformed →
    c.transformed.typ = .insert ∧ c.transformed.posser ≥ State.size c.data ∨
      State.size c.data ≠ 0 ∧ ¬ c.transformed.posser ≥ State.size c.data

/-- The serial position counts the insertions and removals of the pack so far. -/
theorem toNat_posser_foldl {A B : OpPack T} {op : OpDescriptor T} (hop : op.posser = op.pos)
    (honce : ∀ p < op.pos.toNat, (A ++ B).countP (IsAt .remove p ·) ≤ 1)
    (hlen : op.pos.toNat + (A ++ B).countP (InsLeft op ·) < 2 ^ 32) :
    (A.foldl OpDescriptor.trans op).posser.toNat + A.countP (RemLeft op ·) =
      op.pos.toNat + A.countP (InsLeft op ·) := by
  have hrem : A.countP (RemLeft op ·) ≤ op.pos.toNat := by
    calc A.countP (RemLeft op ·) = ∑ r ∈ Finset.range op.pos.toNat, A.countP (IsAt .remove r ·) :=
          countP_remLeft A op
      _ ≤ ∑ _r ∈ Finset.range op.pos.toNat, 1 := Finset.sum_le_sum fun r hr => by
          have h := honce r (Finset.mem_range.mp hr)
          rw [List.countP_append] at h
          omega
      _ = op.pos.toNat := by simp
  rw [List.countP_append] at hlen
  rw [foldl_trans]
  simp only [hop]
  rw [toNat_add_sub (by omega) (by omega)]
  omega

theorem noWrap {A B : OpPack T} {a op : OpDescriptor T} (hop : op.posser = op.pos)
    (honce : ∀ p < op.pos.toNat, (A ++ a :: B).countP (IsAt .remove p ·) ≤ 1)
    (hlen : op.pos.toNat + (A ++ a :: B).countP (InsLeft op ·) < 2 ^ 32) :
    NoWrap (A.foldl OpDescriptor.trans op) a := by
  have h1 := toNat_posser_foldl hop honce hlen
  rw [List.append_cons] at honce hlen
  have h2 := toNat_posser_foldl hop honce hlen
  rw [List.foldl_append, List.countP_append, List.countP_append, List.countP_singleton,
    List.countP_singleton] at h2
  simp only [List.foldl_cons, List.foldl_nil] at h2
  unfold NoWrap
  by_cases hi : InsLeft op a <;> by_cases hr : RemLeft op a <;> simp [hi, hr] at h2 <;> omega

/-! ### Calls on a merge -/

section
variable [Slot T σ] {D : List σ} {A P : OpPack T} {op : OpDescriptor T} {x : ℕ}

/-- A call on the merge of `P`, over a pack that covers `P`. -/
theorem safe_of_covers (hcov : Covers x A P) (hop : InRange D.length op) (hx : Within x op)
    (hlen : D.length + P.length < 2 ^ 32) : (⟨merge D P, A, op⟩ : Call T σ).Safe := by
  set c : Call T σ := ⟨merge D P, A, op⟩ with hc
  have hm : (merge D P).length < 2 ^ 32 := (length_merge_le D P).trans_lt hlen
  have hsize : (State.size c.data).toNat = (merge D P).length := State.toNat_size hm
  have htyp : ∀ t, t ≠ .nothing → c.transformed.typ = t → op.typ = t := by
    intro t ht h
    have h' := foldl_trans_typ A op
    rw [show (A.foldl OpDescriptor.trans op).typ = t from h] at h'
    split_ifs at h' with hk
    · exact absurd h' ht
    · exact h'.symm
  have heff : Effective c.transformed → op.typ ≠ .nothing ∧ op.typ ≠ .thelast := by
    rintro (h | h | h) <;> rw [htyp _ (by decide) h] <;> decide
  have heq : Effective c.transformed → c.transformed = effect P op := fun h =>
    hcov.foldl_trans (hx (heff h).1 (heff h).2)
  obtain ⟨hins, hru⟩ := effect_inRange hop hlen
  have hinsert : c.transformed.typ = .insert → c.transformed.posser ≤ State.size c.data := by
    intro h
    rw [UInt32.le_iff_toNat_le, hsize, heq (Or.inl h)]
    exact hins (heq (Or.inl h) ▸ h)
  have hinside : c.transformed.typ = .remove ∨ c.transformed.typ = .update →
      c.transformed.posser < State.size c.data := by
    intro h
    rw [UInt32.lt_iff_toNat_lt, hsize, heq (Or.inr h)]
    exact hru (heq (Or.inr h) ▸ h)
  have hnot : c.transformed.posser < State.size c.data →
      State.size c.data ≠ 0 ∧ ¬ c.transformed.posser ≥ State.size c.data := by
    intro h
    rw [UInt32.lt_iff_toNat_lt] at h
    refine ⟨fun h0 => ?_, fun hge => ?_⟩
    · rw [h0] at h; simp at h
    · rw [ge_iff_le, UInt32.le_iff_toNat_le] at hge; omega
  refine ⟨fun h B a B' hA => ?_, hinsert, hinside, fun h => ?_⟩
  · have hpx := hx (heff h).1 (heff h).2
    have hpD := hop.within (heff h).1 (heff h).2
    obtain rfl : A = B ++ a :: B' := hA
    show NoWrap (B.foldl OpDescriptor.trans op) a
    refine noWrap hop.posser (fun p hp => hcov.once p (by omega)) ?_
    rw [countP_insLeft, hcov.ins.countP_eq, ← countP_insLeft]
    have : P.countP (InsLeft op ·) ≤ P.length := List.countP_le_length
    omega
  · by_cases hge : c.transformed.posser ≥ State.size c.data
    · rcases h with h | h
      · exact Or.inl ⟨h, hge⟩
      · exact absurd hge (hnot (hinside h)).2
    · exact Or.inr (hnot (UInt32.not_le.mp hge))

theorem safe_packCalls [LawfulSlot T σ] (src : OpPack T) (hcov : Covers x A P)
    (hsrc : ∀ op ∈ src, InRange D.length op ∧ Within x op)
    (hlen : D.length + P.length + src.length < 2 ^ 32) :
    ∀ c ∈ packCalls (merge D P) A src, c.Safe := by
  induction src generalizing A P with
  | nil => nofun
  | cons op src ih =>
    rw [List.length_cons] at hlen
    obtain ⟨hop, hx⟩ := hsrc op (by simp)
    intro c hc
    rw [packCalls, List.mem_cons, applyPut_merge hcov hx hop (by omega)] at hc
    rcases hc with rfl | hc
    · exact safe_of_covers hcov hop hx (by omega)
    · exact ih (hcov.put op) (fun op h => hsrc op (List.mem_cons_of_mem _ h)) (by simp; omega) c hc

end

/-! ### Runs -/

theorem safe_of_synced [Slot T σ] [LawfulSlot T σ] {a : Session T σ} (h : Synced a) {act : Action T}
    (hact : Admissible a.toSystem act) : ∀ c ∈ calls a.toSystem act, c.Safe := by
  have hnil : Covers a.doc.length ([] : OpPack T) [] := Covers.nil
  have hD : merge a.doc ([] : OpPack T) = a.doc := merge_nil a.doc
  cases act with
  | connect => nofun
  | makeLocalOps i pack =>
    obtain ⟨⟨r, hr, ha, hrange⟩, -⟩ := proper_makeLocalOps.mp hact.1
    have hroom : a.doc.length + a.accum.length + pack.length < 2 ^ 32 := hact.2
    have hdoc : r.doc = a.doc := h.doc_eq hr ha
    rw [hdoc] at hrange
    have hsign := inRange_sign hrange (Replica.cid i) r.rev
    have hlen := length_sign (Replica.cid i) r.rev pack
    have hcalls : calls a.toSystem (.makeLocalOps i pack) =
        packCalls a.doc [] (Client.sign (Replica.cid i) r.rev pack).1 := by
      simp only [calls, Session.getElem?_clients, hr, Option.map_some, Session.doc_client hr, hdoc]
      rfl
    rw [hcalls]
    nth_rewrite 1 [← hD]
    exact safe_packCalls _ hnil (fun op hop => ⟨hsign op hop, (hsign op hop).within⟩)
      (by simp only [List.length_nil]; omega)
  | update =>
    intro c hc
    rcases List.mem_append.mp hc with hc | hc
    · -- the server
      rw [othersCalls_eq] at hc
      have hc' : c ∈ packCalls (merge a.doc ([] : OpPack T)) [] (a.accum.filter (0 ≠ ·.cid)) := by
        rw [hD]; exact hc
      rw [h.books.filter_zero] at hc'
      exact safe_packCalls a.accum hnil
        (fun op hop => ⟨h.inRange op hop, (h.inRange op hop).within⟩) (by simpa using h.room) c hc'
    · obtain ⟨i, hi, hc⟩ := List.mem_flatMap.mp hc
      have hi' : i < a.replicas.length := List.mem_range.mp hi
      set r := a.replicas[i] with hri
      have hr : a.replicas[i]? = some r := List.getElem?_eq_getElem hi'
      simp only [Session.getElem?_clients, hr, Option.map_some, Session.doc_client hr] at hc
      rw [othersCalls_eq, h.doc i r hr] at hc
      exact safe_packCalls _ (h.covers_applied hr) (h.inRange_others _) (h.room_others hr) c hc

/-- **Every call is safe in every run** of admissible calls, as long as fewer than 2 ^ 32 clients
have connected. -/
theorem safety {d : List T} (hd : d.length < 2 ^ 32) {s₀ s : System T T} {acts : List (Action T)}
    (h₀ : start d = .ok s₀) (h : Run step Admissible s₀ acts s) (hfew : s.clients.length < 2 ^ 32)
    {act : Action T} (hact : Admissible s act) : ∀ c ∈ calls s act, c.Safe := by
  obtain rfl : (Session.start d).toSystem = s₀ := Except.ok.inj h₀
  obtain ⟨a, rfl, ha⟩ := Session.run_toSystem h
  exact safe_of_synced (Synced.of_run hd ha (by simpa [Session.toSystem] using hfew)) hact

/-- The update after two clients have removed the same element. -/
theorem safety_two : ∃ s : System ℕ ℕ,
    (start [1, 2]).bind (fun s₀ => [Action.connect, .connect,
      .makeLocalOps 0 [.ofArgs .remove 1 0 0], .makeLocalOps 1 [.ofArgs .remove 1 0 0]].foldlM
        step s₀) = .ok s ∧ (calls s .update).length = 4 ∧ ∀ c ∈ calls s .update, c.Safe := by
  have h : Run step Admissible (Session.start [1, 2]).toSystem [Action.connect, .connect,
      .makeLocalOps 0 [.ofArgs .remove 1 0 0], .makeLocalOps 1 [.ofArgs .remove 1 0 0]]
      (_ : System ℕ ℕ) :=
    .cons ⟨trivial, trivial⟩ rfl (.cons ⟨trivial, trivial⟩ rfl
      (.cons ⟨⟨⟨_, rfl, rfl, by decide⟩, Filtered.nil.append rfl⟩, by unfold Room; decide⟩ rfl
        (.cons ⟨⟨⟨_, rfl, rfl, by decide⟩, Filtered.nil.append rfl⟩, by unfold Room; decide⟩ rfl
          .nil)))
  exact ⟨_, h.foldlM_eq, rfl, safety (by decide) rfl h (by decide) ⟨trivial, trivial⟩⟩

/-- A client removes an element that stands behind one the server has never got. -/
theorem not_safety :
    ¬ ∀ (d : List ℕ) (acts : List (Action ℕ)) (s₀ s : System ℕ ℕ) (act : Action ℕ),
      d.length < 2 ^ 32 → start d = .ok s₀ → Run step Admissible s₀ acts s → Admissible s act →
        ∀ c ∈ calls s act, c.Safe := by
  intro h
  obtain ⟨n, hn⟩ : ∃ n, Replica.cid n = 0 := ⟨2 ^ 32 - 1, by decide⟩
  obtain ⟨r, hr, -, -, hrun⟩ := run_lost_makeLocalOps hn ([5] : List ℕ) [.ofArgs .insert 0 7 0]
    [.ofArgs .remove 1 0 0] (by decide) (Filtered.nil.append rfl) (by decide) (by decide)
    (Filtered.nil.append rfl) (by decide)
  -- the call on the server's document
  let c : Call ℕ ℕ := ⟨[5], [], { OpDescriptor.ofArgs .remove 1 0 0 with cid := 1, rev := r.rev }⟩
  have hdoc : (lost ([5] : List ℕ) n [OpDescriptor.ofArgs .insert 0 7 0]).doc = [5] :=
    doc_lost hn _ _
  have hc : c ∈ calls ((lost ([5] : List ℕ) n [.ofArgs .insert 0 7 0]).makeLocalOps 0 r
      [.ofArgs .remove 1 0 0]).toSystem .update := by
    refine List.mem_append_left _ ?_
    show c ∈ othersCalls (lost ([5] : List ℕ) n [OpDescriptor.ofArgs .insert 0 7 0]).doc 0 []
      [{ OpDescriptor.ofArgs .remove 1 0 0 with cid := 1, rev := r.rev }]
    rw [hdoc]
    exact List.mem_singleton.mpr rfl
  have hsafe := h [5] _ _ _ .update (by decide) rfl hrun ⟨trivial, trivial⟩ c hc
  have hlt : (1 : UInt32) < State.size [5] := hsafe.inside (Or.inl rfl)
  exact absurd hlt (by decide)

end OpTransform.Theory.Safety
