import Mathlib.Logic.Nontrivial.Basic
import OpTransform.Theory.Packs
import OpTransform.Theory.Protocol

/-! # A cleared server

`clear` forgets the documents, the clients and the revision, but the operations pushed since the
last update stay. The next `update` applies them to documents they were not made for. A cleared
server is as good as a new one exactly when none of them can change a document (`sameAsNew_iff`), as
after an update (`sameAsNew_of_update`).

If one of them can, a document of at most one element and one round show it: a new client repeats
the removal of an element, or does nothing at all (`exists_shows`). -/

namespace OpTransform.Theory.Reset

open OpTransform.Ops OpTransform.Ops.State OpTransform.Comm OpTransform.Lib.Runs
open OpTransform.Theory.Effect OpTransform.Theory.Packs OpTransform.Theory.Protocol

universe u

variable {T : Type u}

/-- The documents: the server's and the clients'. -/
def docs (s : System T T) : List (List T) :=
  s.server.doc s.server.state :: s.clients.map fun c => s.server.doc c.state

/-- After `clear` and `init` all documents are, whatever is called, those of a new server. -/
def SameAsNew (s : System T T) : Prop :=
  ∀ (d : List T) (acts : List (Action T)),
    ((reset s d).bind fun t => acts.foldlM step t).map docs =
      ((start d).bind fun t => acts.foldlM step t).map docs

/-- The operation can change a document. An update cannot if there is only one value. -/
def Live (op : OpDescriptor T) : Prop :=
  op.typ = .insert ∨ op.typ = .remove ∨ op.typ = .update ∧ Nontrivial T

/-! ### Lengths -/

theorem length_apply (data : List T) {op : OpDescriptor T} (h : op.typ ≠ .remove) :
    (apply data op).length = data.length + if op.typ = .insert then 1 else 0 := by
  have hsize : (size data).toNat ≤ data.length := by
    rw [size, UInt32.toNat_ofNat']
    exact Nat.mod_le _ _
  cases ht : op.typ with
  | nothing => rw [apply_nothing ht]; rfl
  | thelast => rw [apply_thelast ht]; rfl
  | remove => exact absurd ht h
  | update =>
    simp only [apply, ht]
    split_ifs <;> simp_all
  | insert =>
    by_cases hend : op.posser ≥ size data
    · simp [apply, ht, hend]
    · have hlt : op.posser.toNat < (size data).toNat :=
        UInt32.lt_iff_toNat_lt.mp (UInt32.not_le.mp hend)
      have h0 : size data ≠ 0 := fun h0 => by rw [h0] at hlt; simp at hlt
      simp only [apply, ht, hend, h0]
      simp [List.length_insertIdx, Nat.le_of_lt (Nat.lt_of_lt_of_le hlt hsize)]

theorem foldl_trans_typ_ne (A : OpPack T) {op : OpDescriptor T} {t : OpType} (ht : t ≠ .nothing)
    (h : op.typ ≠ t) : (A.foldl OpDescriptor.trans op).typ ≠ t := by
  rw [foldl_trans_typ]
  split_ifs
  · exact ht.symm
  · exact h

theorem length_applyAll {S : OpPack T} (hS : ∀ op ∈ S, op.typ ≠ .remove) (data : List T)
    (pack : OpPack T) :
    (applyAll data pack S).1.length = data.length + S.countP (·.typ = .insert) := by
  induction S using List.reverseRecOn with
  | nil => rfl
  | append_singleton S op ih =>
    have hop : op.typ ≠ .remove := hS op (by simp)
    have hput := length_apply (applyAll data pack S).1
      (foldl_trans_typ_ne (applyAll data pack S).2 (by decide) hop)
    simp only [foldl_trans_typ_eq_insert] at hput
    rw [ih fun a ha => hS a (by simp [ha])] at hput
    rw [applyAll_snoc, List.countP_append, ← Nat.add_assoc, List.countP_singleton]
    simp only [decide_eq_true_eq]
    exact hput

/-! ### Operations that change nothing -/

/-- Equal, or neither can change a document. -/
def Alike (a b : OpDescriptor T) : Prop := a = b ∨ ¬ Live a ∧ ¬ Live b

section
variable {op op' a a' : OpDescriptor T}

theorem apply_of_not_live (h : ¬ Live op) (data : List T) : apply data op = data := by
  have hrem : op.typ ≠ .remove := fun ht => h (Or.inr (Or.inl ht))
  cases ht : op.typ with
  | nothing => exact apply_nothing ht
  | thelast => exact apply_thelast ht
  | insert => exact absurd (Or.inl ht) h
  | remove => exact absurd ht hrem
  | update =>
    -- of one value, lists of one length are equal
    have hT : Subsingleton T :=
      not_nontrivial_iff_subsingleton.mp fun hT => h (Or.inr (Or.inr ⟨ht, hT⟩))
    have hlen := length_apply data hrem
    rw [ht] at hlen
    exact List.ext_getElem hlen fun _ _ _ => Subsingleton.elim _ _

theorem Alike.apply_eq (h : Alike op op') (data : List T) : apply data op = apply data op' := by
  rcases h with rfl | ⟨h, h'⟩
  · rfl
  · rw [apply_of_not_live h, apply_of_not_live h']

theorem not_live_trans (h : ¬ Live op) (a : OpDescriptor T) : ¬ Live (op.trans a) := by
  have htyp : (op.trans a).typ = if Kills op a then .nothing else op.typ := by rw [trans_eq]
  unfold Live
  rw [htyp]
  split_ifs
  · simp
  · exact h

theorem trans_of_not_live (ha : ¬ Live a) (hop : Live op) : op.trans a = op := by
  have hins : ¬ InsLeft op a := fun h => ha (Or.inl h.1)
  have hrem : ¬ RemLeft op a := fun h => ha (Or.inr (Or.inl h.1))
  have hkill : ¬ Kills op a := by
    rintro ⟨-, ⟨-, h⟩ | ⟨ht, h, -⟩⟩
    · exact ha (Or.inr (Or.inl h))
    · rcases hop with h' | h' | ⟨-, hT⟩
      · rw [ht] at h'; cases h'
      · rw [ht] at h'; cases h'
      · exact ha (Or.inr (Or.inr ⟨h, hT⟩))
  rw [trans_eq, if_neg hkill, if_neg hins, if_neg hrem]
  simp

theorem Alike.trans (h : Alike op op') (ha : Alike a a') : Alike (op.trans a) (op'.trans a') := by
  rcases h with rfl | ⟨h, h'⟩
  · rcases ha with rfl | ⟨ha, ha'⟩
    · exact Or.inl rfl
    · by_cases hop : Live op
      · rw [trans_of_not_live ha hop, trans_of_not_live ha' hop]
        exact Or.inl rfl
      · exact Or.inr ⟨not_live_trans hop _, not_live_trans hop _⟩
  · exact Or.inr ⟨not_live_trans h _, not_live_trans h' _⟩

theorem Alike.trans_left (h : Alike op op') (ha : ¬ Live a) : Alike (op.trans a) op' := by
  rcases h with rfl | ⟨h, h'⟩
  · by_cases hop : Live op
    · exact Or.inl (trans_of_not_live ha hop)
    · exact Or.inr ⟨not_live_trans hop _, hop⟩
  · exact Or.inr ⟨not_live_trans h _, h'⟩

end

theorem not_live_foldl_trans {op : OpDescriptor T} (h : ¬ Live op) (A : OpPack T) :
    ¬ Live (A.foldl OpDescriptor.trans op) := by
  induction A generalizing op with
  | nil => exact h
  | cons a A ih => exact ih (not_live_trans h a)

/-- Packs that transform every operation alike. -/
def SameEffect (p q : OpPack T) : Prop :=
  ∀ op, Alike (p.foldl OpDescriptor.trans op) (q.foldl OpDescriptor.trans op)

theorem applyAll_sameEffect {p q : OpPack T} (h : SameEffect p q) (data : List T) (src : OpPack T) :
    (applyAll data p src).1 = (applyAll data q src).1 ∧
      SameEffect (applyAll data p src).2 (applyAll data q src).2 := by
  induction src using List.reverseRecOn with
  | nil => exact ⟨rfl, h⟩
  | append_singleton src op ih =>
    obtain ⟨hdoc, hpack⟩ := ih
    rw [applyAll_snoc, applyAll_snoc]
    refine ⟨?_, fun x => ?_⟩
    · show apply _ _ = apply _ _
      rw [hdoc]
      exact (hpack op).apply_eq _
    · simp only [applyPut, OpPack.transformAndPut, List.foldl_append, List.foldl_cons,
        List.foldl_nil]
      exact (hpack x).trans (hpack op)

theorem applyAll_of_not_live {S : OpPack T} (hS : ∀ op ∈ S, ¬ Live op) (data : List T)
    (pack : OpPack T) :
    (applyAll data pack S).1 = data ∧ SameEffect (applyAll data pack S).2 pack := by
  induction S using List.reverseRecOn with
  | nil => exact ⟨rfl, fun op => Or.inl rfl⟩
  | append_singleton S op ih =>
    obtain ⟨hdoc, hpack⟩ := ih fun a ha => hS a (by simp [ha])
    have hput := not_live_foldl_trans (hS op (by simp)) (applyAll data pack S).2
    rw [applyAll_snoc]
    refine ⟨?_, fun x => ?_⟩
    · show apply _ _ = data
      rw [hdoc]
      exact apply_of_not_live hput _
    · simp only [applyPut, OpPack.transformAndPut, List.foldl_append, List.foldl_cons,
        List.foldl_nil]
      exact (hpack x).trans_left hput

/-- **Operations that cannot change a document do not matter** to those that come after them. -/
theorem applyFromOthers_append {S : OpPack T} (hS : ∀ op ∈ S, ¬ Live op) (data : List T)
    (cid : UInt32) (pack A : OpPack T) :
    (applyFromOthers data cid pack (S ++ A)).1 = (applyFromOthers data cid pack A).1 := by
  obtain ⟨hdoc, hpack⟩ := applyAll_of_not_live
    (fun op hop => hS op (List.mem_filter.mp hop).1) data pack
  rw [applyFromOthers_eq, applyFromOthers_eq, List.filter_append, applyAll_append, hdoc]
  exact (applyAll_sameEffect hpack data _).1

/-! ### Operations that show -/

theorem applyAll_snd (data : List T) (S : OpPack T) : (applyAll data [] S).2 = putAll S := by
  induction S using List.reverseRecOn with
  | nil => rfl
  | append_singleton S op ih =>
    rw [applyAll_snoc, putAll_snoc, ← ih]
    rfl

/-- The document `d` and the pack `X` of a client tell `S` from no operations. -/
def Shows (S : OpPack T) (d : List T) (X : OpPack T) : Prop :=
  ∀ cid rev, (applyAll d [] (S ++ (Client.sign cid rev X).1)).1 ≠
    (applyAll d [] (Client.sign cid rev X).1).1

theorem shows_nil {S : OpPack T} {d : List T} (h : (applyAll d [] S).1 ≠ d) : Shows S d [] :=
  fun _ _ => by simpa [Client.sign] using h

section
variable {S : OpPack T} {op : OpDescriptor T}

theorem shows_of_remove (hop : op ∈ S) (ht : op.typ = .remove) : ∃ d X, Shows S d X := by
  by_cases hF : (applyAll [op.value] [] S).1 = [op.value]
  · refine ⟨[op.value], [{ op with posser := 0 }], fun cid rev => ?_⟩
    set x : OpDescriptor T := { op with posser := 0, cid := cid, rev := rev } with hx
    have hkilled : Killed (putAll S) x := by
      refine Or.inl ⟨by rw [hx, ht]; decide, ?_⟩
      exact ((covers_putAll 0 S).removed _).mpr ⟨op, hop, ht, rfl⟩
    have hnothing : ((putAll S).foldl OpDescriptor.trans x).typ = .nothing := by
      rw [foldl_trans_typ, if_pos hkilled]
    have hleft : (applyAll [op.value] [] (S ++ [x])).1 = [op.value] := by
      rw [applyAll_snoc, hF, applyAll_snd]
      exact apply_nothing hnothing
    have hright : (applyAll [op.value] [] [x]).1 = [] := by
      have happly : apply [op.value] x = [op.value].eraseIdx x.posser.toNat :=
        apply_remove ht (by simp) (by simp [hx])
      exact happly
    show (applyAll [op.value] [] (S ++ [x])).1 ≠ (applyAll [op.value] [] [x]).1
    rw [hleft, hright]
    exact List.cons_ne_nil _ _
  · exact ⟨_, _, shows_nil hF⟩

theorem shows_of_insert (hS : ∀ a ∈ S, a.typ ≠ .remove) (hop : op ∈ S) (ht : op.typ = .insert) :
    ∃ d X, Shows S d X := by
  refine ⟨[], [], shows_nil fun h => ?_⟩
  have hlen := length_applyAll hS [] []
  have hpos : 0 < S.countP (·.typ = .insert) := List.countP_pos_iff.mpr ⟨op, hop, by simpa using ht⟩
  rw [h, List.length_nil] at hlen
  omega

theorem apply_update_singleton (ht : op.typ = .update) (w : T) : apply [w] op = [op.value] := by
  have hsize : size [w] = 1 := rfl
  by_cases hend : op.posser ≥ 1
  · simp [apply, ht, hsize, hend, Slot.assign]
  · have h0 : op.posser = 0 := by
      rw [ge_iff_le, UInt32.le_iff_toNat_le] at hend
      exact UInt32.toNat_inj.mp (by simpa using hend)
    simp [apply, ht, hsize, h0, Slot.assign]

/-- Updates leave one value in a document of one element, whatever it was before. -/
theorem applyAll_updates (hrem : ∀ a ∈ S, a.typ ≠ .remove) (hins : ∀ a ∈ S, a.typ ≠ .insert) :
    (∀ a ∈ S, ¬ Live a) ∨ ∃ u : T, ∀ w, (applyAll [w] [] S).1 = [u] := by
  induction S using List.reverseRecOn with
  | nil => exact Or.inl fun a ha => by cases ha
  | append_singleton S op ih =>
    have hop1 : op.typ ≠ .insert := hins op (by simp)
    have hop2 : op.typ ≠ .remove := hrem op (by simp)
    set put := (putAll S).foldl OpDescriptor.trans op with hput
    have hsnoc : ∀ w : T, (applyAll [w] [] (S ++ [op])).1 = apply (applyAll [w] [] S).1 put :=
      fun w => by rw [applyAll_snoc, hput, ← applyAll_snd [w]]; rfl
    rcases ih (fun a ha => hrem a (by simp [ha])) (fun a ha => hins a (by simp [ha]))
      with h | ⟨u, hu⟩
    · by_cases hop : Live op
      · -- the first update
        right
        obtain ⟨hdoc, hpack⟩ := applyAll_of_not_live h [op.value] []
        have hup : op.typ = .update := by
          rcases hop with ht | ht | ht
          · exact absurd ht hop1
          · exact absurd ht hop2
          · exact ht.1
        have heq : put = op := by
          rw [applyAll_snd] at hpack
          exact (hpack op).resolve_right fun hn => hn.2 hop
        refine ⟨op.value, fun w => ?_⟩
        rw [hsnoc, heq, (applyAll_of_not_live h [w] []).1, apply_update_singleton hup]
      · left
        intro a ha
        rcases List.mem_append.mp ha with ha | ha
        · exact h a ha
        · rwa [List.mem_singleton.mp ha]
    · right
      by_cases ht : put.typ = .update
      · exact ⟨put.value, fun w => by rw [hsnoc, hu, apply_update_singleton ht]⟩
      · have hnot : ¬ Live put := by
          rintro (h | h | h)
          · exact foldl_trans_typ_ne _ (by decide) hop1 h
          · exact foldl_trans_typ_ne _ (by decide) hop2 h
          · exact ht h.1
        exact ⟨u, fun w => by rw [hsnoc, hu, apply_of_not_live hnot]⟩

/-- **Operations show** as soon as one of them can change a document. -/
theorem exists_shows (hop : op ∈ S) (hlive : Live op) : ∃ d X, Shows S d X := by
  by_cases hrem : ∀ a ∈ S, a.typ ≠ .remove
  · by_cases hins : ∀ a ∈ S, a.typ ≠ .insert
    · rcases applyAll_updates hrem hins with h | ⟨u, hu⟩
      · exact absurd hlive (h op hop)
      · have hT : Nontrivial T := by
          rcases hlive with ht | ht | ht
          · exact absurd ht (hins op hop)
          · exact absurd ht (hrem op hop)
          · exact ht.2
        obtain ⟨w, hw⟩ := exists_ne u
        refine ⟨[w], [], shows_nil fun h => hw ?_⟩
        rw [hu] at h
        exact (List.singleton_inj.mp h).symm
    · push Not at hins
      obtain ⟨a, ha, ht⟩ := hins
      exact shows_of_insert hrem ha ht
  · push Not at hrem
    obtain ⟨a, ha, ht⟩ := hrem
    exact shows_of_remove ha ht

end

/-! ### The cleared server -/

/-- A session with the operations `S` left over. -/
def withAccum (S : OpPack T) (a : Session T T) : Session T T := { a with accum := S ++ a.accum }

theorem reset_eq (s : System T T) (d : List T) :
    reset s d = .ok (withAccum s.server.accum (Session.start d)).toSystem := by
  rw [withAccum, show (Session.start (T := T) d).accum = [] from rfl, List.append_nil]
  rfl

/-- An update forgets what was left over, any other step keeps it. -/
theorem step_withAccum {S : OpPack T} (hS : ∀ op ∈ S, ¬ Live op) (a : Session T T)
    (act : Action T) :
    (withAccum S a).step act = (a.step act).map (withAccum S) ∨
      (withAccum S a).step act = a.step act := by
  cases act with
  | connect => exact Or.inl rfl
  | makeLocalOps i pack =>
    left
    simp only [Session.step, withAccum]
    cases a.replicas[i]? with
    | none => rfl
    | some r =>
      simp only
      split_ifs
      · simp [Except.map, Session.makeLocalOps, withAccum]
      · rfl
  | update =>
    right
    simp only [Session.step, Session.update, Session.updatedDoc, withAccum]
    have hreplica : Replica.update (S ++ a.accum) = Replica.update (σ := T) a.accum := by
      funext i r
      rw [Replica.update, Replica.update, applyFromOthers_append hS]
    rw [hreplica, applyFromOthers_append hS]

theorem foldlM_withAccum {S : OpPack T} (hS : ∀ op ∈ S, ¬ Live op) (a : Session T T)
    (acts : List (Action T)) :
    (acts.foldlM Session.step (withAccum S a)).map (fun b => docs b.toSystem) =
      (acts.foldlM Session.step a).map fun b => docs b.toSystem := by
  induction acts generalizing a with
  | nil => rfl
  | cons act acts ih =>
    rw [List.foldlM_cons, List.foldlM_cons]
    rcases step_withAccum hS a act with h | h
    · rw [h]
      cases a.step act with
      | error e => rfl
      | ok b => exact ih b
    · rw [h]

/-- One round of two new clients, the second one with local operations. -/
def round (X : OpPack T) : List (Action T) := [.connect, .connect, .makeLocalOps 1 X, .update]

/-- The server and the first client get the operations left over and those of the second client. -/
theorem round_eq (S : OpPack T) (d : List T) (X : OpPack T) :
    ∃ D, ((round X).foldlM Session.step { doc := d, accum := S }).map (fun b => docs b.toSystem) =
      .ok [(applyFromOthers d 0 [] (S ++ (Client.sign 2 0 X).1)).1,
        (applyFromOthers d 1 [] (S ++ (Client.sign 2 0 X).1)).1, D] :=
  ⟨_, rfl⟩

theorem applyFromOthers_sign {cid : UInt32} (hcid : cid ≠ 2) (S : OpPack T) (d : List T)
    (X : OpPack T) :
    (applyFromOthers d cid [] (S ++ (Client.sign 2 0 X).1)).1 =
      (applyAll d [] (S.filter (cid ≠ ·.cid) ++ (Client.sign 2 0 X).1)).1 := by
  have hX : (Client.sign 2 0 X).1.filter (cid ≠ ·.cid) = (Client.sign 2 0 X).1 :=
    List.filter_eq_self.mpr fun op hop => by simpa [cid_of_mem_sign hop] using hcid
  rw [applyFromOthers_eq, List.filter_append, hX]

theorem sameAsNew_iff_withAccum {s : System T T} :
    SameAsNew s ↔ ∀ (d : List T) (acts : List (Action T)),
    (acts.foldlM Session.step (withAccum s.server.accum (Session.start d))).map
        (fun b => docs b.toSystem) =
      (acts.foldlM Session.step (Session.start d)).map fun b => docs b.toSystem := by
  have hmap : ∀ (a : Session T T) (acts : List (Action T)),
      ((Except.ok a.toSystem).bind fun t => acts.foldlM step t).map docs =
        (acts.foldlM Session.step a).map fun b => docs b.toSystem := by
    intro a acts
    show (acts.foldlM step a.toSystem).map docs = _
    rw [foldlM_map Session.step_toSystem]
    cases acts.foldlM Session.step a <;> rfl
  simp only [SameAsNew, reset_eq, Session.start_toSystem, hmap]

/-- What the server and the first client get of the operations left over does not show. -/
theorem not_shows_of_sameAsNew {s : System T T} (h : SameAsNew s) (d : List T) (X : OpPack T) :
    ¬ Shows (s.server.accum.filter (0 ≠ ·.cid)) d X ∧
      ¬ Shows (s.server.accum.filter (1 ≠ ·.cid)) d X := by
  have hround := sameAsNew_iff_withAccum.mp h d (round X)
  obtain ⟨D, hD⟩ := round_eq s.server.accum d X
  obtain ⟨D', hD'⟩ := round_eq [] d X
  rw [withAccum, Session.start, List.append_nil, hD, hD'] at hround
  obtain ⟨h0, htail⟩ := List.cons.inj (Except.ok.inj hround)
  obtain ⟨h1, -⟩ := List.cons.inj htail
  rw [applyFromOthers_sign (by decide), applyFromOthers_sign (by decide)] at h0 h1
  exact ⟨fun hshow => hshow 2 0 h0, fun hshow => hshow 2 0 h1⟩

theorem sameAsNew_of_not_live {s : System T T} (hS : ∀ op ∈ s.server.accum, ¬ Live op) :
    SameAsNew s :=
  sameAsNew_iff_withAccum.mpr fun d acts => foldlM_withAccum hS (Session.start d) acts

theorem sameAsNew_of_update {s s' : System T T} (h : update s = .ok s') : SameAsNew s' :=
  sameAsNew_of_not_live fun op hop => by rw [accum_of_update h] at hop; cases hop

/-- **When a cleared server is as good as a new one**: if none of the operations pushed since the
last update can change a document, and only then. -/
theorem sameAsNew_iff (s : System T T) : SameAsNew s ↔ ∀ op ∈ s.server.accum, ¬ Live op := by
  constructor
  · intro h op hop hlive
    by_cases hc : (0 : UInt32) = op.cid
    · -- the server skips the operation, and the first client gets it
      have hmem : op ∈ s.server.accum.filter (1 ≠ ·.cid) :=
        List.mem_filter.mpr ⟨hop, by simp [← hc]⟩
      obtain ⟨d, X, hshow⟩ := exists_shows hmem hlive
      exact (not_shows_of_sameAsNew h d X).2 hshow
    · have hmem : op ∈ s.server.accum.filter (0 ≠ ·.cid) :=
        List.mem_filter.mpr ⟨hop, by simpa using hc⟩
      obtain ⟨d, X, hshow⟩ := exists_shows hmem hlive
      exact (not_shows_of_sameAsNew h d X).1 hshow
  · exact sameAsNew_of_not_live

/-- An insertion into an empty document, left over, goes into the next document too. -/
theorem not_sameAsNew :
    ¬ ∀ (d : List ℕ) (acts : List (Action ℕ)) (s₀ s : System ℕ ℕ), start d = .ok s₀ →
      Run step (fun _ _ => True) s₀ acts s → SameAsNew s := by
  intro h
  have hsame := h [] [.connect, .makeLocalOps 0 [.ofArgs .insert 0 7 0]] _ _ rfl
    (.cons trivial rfl (.cons trivial rfl .nil))
  have hdocs : Except.ok [[7, 1]] = Except.ok [[1]] := hsame [1] [.update]
  exact absurd (Except.ok.inj hdocs) (by decide)

end OpTransform.Theory.Reset
