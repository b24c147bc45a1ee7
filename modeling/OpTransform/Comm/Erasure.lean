import Mathlib.Data.List.InsertIdx
import Mathlib.Data.List.Induction
import OpTransform.Comm.Session

/-! # Documents that keep more than values

A document may keep more at an index than the code does, if forgetting it is no matter to the
operations (`Erases`). The system then takes the same steps, with the same failures, on what is left
(`step_map_toSystem`), and every run of the code is the image of a run that keeps
more (`run_map`). -/

namespace OpTransform.Comm

open OpTransform.Ops OpTransform.Lib.Runs

universe u

variable {T σ σ' : Type u} [Slot T σ] [Slot T σ']

/-- Elements are created and assigned alike with `f` and without. -/
structure Erases (T : Type u) {σ σ' : Type u} [Slot T σ] [Slot T σ'] (f : σ → σ') : Prop where
  create : ∀ op : OpDescriptor T, f (Slot.create op) = Slot.create op
  assign : ∀ (s : σ) (op : OpDescriptor T), f (Slot.assign s op) = Slot.assign (f s) op

/-! ### Documents -/

section
variable {f : σ → σ'} (hf : Erases T f)
include hf

theorem apply_map (data : List σ) (op : OpDescriptor T) :
    State.apply (data.map f) op = (State.apply data op).map f := by
  have hsize : State.size (data.map f) = State.size data := by simp [State.size]
  have hmodify : ∀ i, (data.map f).modify i (fun s => Slot.assign s op) =
      (data.modify i fun s => Slot.assign s op).map f := by
    intro i
    refine List.ext_getElem? fun j => ?_
    by_cases hij : i = j
    · subst hij; simp [hf.assign, Function.comp_def]
    · simp [List.getElem?_modify_ne _ _ hij]
  unfold State.apply
  rw [hsize]
  split_ifs
  · rfl
  · simp [hf.create]
  · rfl
  -- the edits at an index, whatever the index
  all_goals
    cases op.typ with
    | nothing => rfl
    | thelast => rfl
    | insert => simp [List.map_insertIdx, hf.create]
    | remove => exact List.eraseIdx_map f data _
    | update => exact hmodify _

theorem applyAll_map (data : List σ) (pack src : OpPack T) :
    State.applyAll (data.map f) pack src =
      ((State.applyAll data pack src).1.map f, (State.applyAll data pack src).2) := by
  induction src using List.reverseRecOn with
  | nil => rfl
  | append_singleton src op ih =>
    rw [State.applyAll_snoc, State.applyAll_snoc, ih]
    simp only [State.applyPut, apply_map hf]

theorem applyPack_map (data : List σ) (pack : OpPack T) :
    State.applyPack (data.map f) pack = (State.applyPack data pack).map f := by
  rw [State.applyPack_eq, applyAll_map hf, State.applyPack_eq]

theorem applyFromOthers_map (data : List σ) (cid : UInt32) (pack src : OpPack T) :
    (State.applyFromOthers (data.map f) cid pack src).1 =
      (State.applyFromOthers data cid pack src).1.map f := by
  rw [State.applyFromOthers_eq, applyAll_map hf, State.applyFromOthers_eq]

end

/-! ### Sessions and systems -/

/-- What is left of a replica. -/
def Replica.map (f : σ → σ') (r : Replica T σ) : Replica T σ' :=
  { r with doc := r.doc.map f }

/-- What is left of a session. -/
def Session.map (f : σ → σ') (a : Session T σ) : Session T σ' :=
  { a with doc := a.doc.map f, replicas := a.replicas.map (Replica.map f) }

/-- What is left of a system. -/
def System.map (f : σ → σ') (s : System T σ) : System T σ' where
  server := { s.server with datas := s.server.datas.map (List.map (List.map f)) }
  clients := s.clients

omit [Slot T σ] [Slot T σ'] in
theorem doc_map (f : σ → σ') (s : System T σ) (p : Option ℕ) :
    (s.map f).server.doc p = (s.server.doc p).map f := by
  cases p with
  | none => rfl
  | some i =>
    simp only [System.map, Server.doc]
    cases s.server.datas with
    | none => rfl
    | some ds =>
      show (ds.map (List.map f)).getD i [] = (ds.getD i []).map f
      simp only [List.getD_eq_getElem?_getD, List.getElem?_map]
      cases ds[i]? <;> rfl

namespace Session

omit [Slot T σ] [Slot T σ'] in
theorem toSystem_map (f : σ → σ') (a : Session T σ) : (a.map f).toSystem = a.toSystem.map f := by
  have hclients : (a.replicas.map (Replica.map f)).mapIdx (Replica.client a.rev) =
      a.replicas.mapIdx (Replica.client a.rev) := by
    refine List.ext_getElem? fun i => ?_
    rw [List.getElem?_mapIdx, List.getElem?_mapIdx, List.getElem?_map]
    cases a.replicas[i]? <;> rfl
  simp [toSystem, System.map, server, map, hclients, Replica.map, Function.comp_def]

variable {f : σ → σ'} (hf : Erases T f)
include hf

theorem step_map (a : Session T σ) (act : Action T) :
    (a.map f).step act = (a.step act).map (Session.map f) := by
  cases act with
  | connect => simp [step, connect, map, Except.map, Replica.map]
  | makeLocalOps i pack =>
    have hget : (a.map f).replicas[i]? = a.replicas[i]?.map (Replica.map f) := by simp [map]
    simp only [step, hget]
    cases hr : a.replicas[i]? with
    | none => rfl
    | some r =>
      simp only [Option.map_some]
      have hmake : (r.map f).makeLocalOps i pack = (r.makeLocalOps i pack).map f := by
        simp [Replica.makeLocalOps, Replica.map, applyPack_map hf]
      have hgo : (a.map f).makeLocalOps i (r.map f) pack = (a.makeLocalOps i r pack).map f := by
        simp only [makeLocalOps, map, hmake, List.map_set]
        rfl
      rw [hgo]
      show (if r.applied = [] then _ else _) = Except.map _ (if r.applied = [] then _ else _)
      split_ifs <;> rfl
  | update =>
    have hupdate : ∀ i (r : Replica T σ), (r.map f).update a.accum i =
        (r.update a.accum i).map f := by
      intro i r
      simp [Replica.update, Replica.map, applyFromOthers_map hf]
    have hreplicas : (a.replicas.map (Replica.map f)).mapIdx (Replica.update a.accum) =
        (a.replicas.mapIdx (Replica.update a.accum)).map (Replica.map f) := by
      refine List.ext_getElem? fun i => ?_
      simp [hupdate, Function.comp_def]
    simp [step, update, updatedDoc, map, Except.map, applyFromOthers_map hf, hreplicas]

theorem step_map_toSystem (a : Session T σ) (act : Action T) :
    Comm.step (a.map f).toSystem act = (a.step act).map fun a => (a.map f).toSystem := by
  rw [step_toSystem, step_map hf]
  cases a.step act <;> rfl

/-- Every run keeps more, if the documents do from the start. -/
theorem run_map {guard : System T σ' → Action T → Prop} {a : Session T σ} {acts : List (Action T)}
    {s : System T σ'} (h : Run Comm.step guard (a.map f).toSystem acts s) :
    ∃ b : Session T σ, s = (b.map f).toSystem ∧
      Run step (fun a act => guard (a.map f).toSystem act) a acts b :=
  h.image (step_map_toSystem hf)

end Session

end OpTransform.Comm
