import OpTransform.Theory.Arrays

/-! # Which calls fail

The code asserts that a client makes operations only when those before have come back with an
update. This is the one assertion that the calls of a system can fail, whatever the operations are:
a sequence of calls succeeds if and only if every client makes operations in turn (`calls_ok_iff`).
A session follows its turns (`session_calls`), and the system over arrays a session. -/

namespace OpTransform.Theory.Turns

open OpTransform.Ops OpTransform.Comm OpTransform.Hosted OpTransform.Igush
open OpTransform.Lib.Runs OpTransform.Lib.Simulation

variable {T : Type}

/-! ### Turns -/

/-- The client at address `i` has made operations since the last update. -/
def Undelivered (acts : List (Action T)) (i : ℕ) : Prop :=
  ∃ as pack bs, acts = as ++ .makeLocalOps i pack :: bs ∧ pack ≠ [] ∧ .update ∉ bs

/-- The call is `connect`. -/
def isConnect : Action T → Bool
  | .connect => true
  | _ => false

/-- **Every client makes operations in turn**: once it has connected, and when it has no operations
that no update has delivered. -/
def InTurn (acts : List (Action T)) : Prop :=
  ∀ as i pack bs, acts = as ++ .makeLocalOps i pack :: bs →
    i < as.countP isConnect ∧ ¬ Undelivered as i

section
variable {acts : List (Action T)} {i j : ℕ} {pack : OpPack T}

/-- The last call either is the one that has left operations, or is no update. -/
theorem undelivered_snoc {act : Action T} : Undelivered (acts ++ [act]) i ↔
    (∃ pack, act = .makeLocalOps i pack ∧ pack ≠ []) ∨ Undelivered acts i ∧ act ≠ .update := by
  constructor
  · rintro ⟨as, pack, bs, h, hne, hnot⟩
    rcases List.eq_nil_or_concat' bs with rfl | ⟨bs, b, rfl⟩
    · obtain ⟨-, hact⟩ := List.append_inj' h rfl
      exact Or.inl ⟨pack, List.singleton_inj.mp hact, hne⟩
    · rw [← List.cons_append, ← List.append_assoc] at h
      obtain ⟨hacts, hact⟩ := List.append_inj' h rfl
      obtain rfl := List.singleton_inj.mp hact
      refine Or.inr ⟨⟨as, pack, bs, hacts, hne, fun hb => hnot (List.mem_append_left _ hb)⟩, ?_⟩
      rintro rfl
      exact hnot (by simp)
  · rintro (⟨pack, rfl, hne⟩ | ⟨⟨as, pack, bs, rfl, hne, hnot⟩, hact⟩)
    · exact ⟨acts, pack, [], rfl, hne, List.not_mem_nil⟩
    · refine ⟨as, pack, bs ++ [act], by simp, hne, fun hb => ?_⟩
      rcases List.mem_append.mp hb with hb | hb
      · exact hnot hb
      · exact hact (List.mem_singleton.mp hb).symm

theorem inTurn_snoc {act : Action T} : InTurn (acts ++ [act]) ↔ InTurn acts ∧
    ∀ i pack, act = .makeLocalOps i pack → i < acts.countP isConnect ∧ ¬ Undelivered acts i := by
  constructor
  · intro h
    refine ⟨?_, ?_⟩
    · rintro as i pack bs rfl
      exact h as i pack (bs ++ [act]) (by simp)
    · rintro i pack rfl
      exact h acts i pack [] rfl
  · rintro ⟨h, hlast⟩ as i pack bs heq
    rcases List.eq_nil_or_concat' bs with rfl | ⟨bs, b, rfl⟩
    · obtain ⟨rfl, hact⟩ := List.append_inj' heq rfl
      exact hlast i pack (List.singleton_inj.mp hact)
    · rw [← List.cons_append, ← List.append_assoc] at heq
      obtain ⟨hacts, -⟩ := List.append_inj' heq rfl
      exact h as i pack bs hacts

theorem InTurn.lt_of_undelivered (h : InTurn acts) (hi : Undelivered acts i) :
    i < acts.countP isConnect := by
  obtain ⟨as, pack, bs, rfl, -, -⟩ := hi
  obtain ⟨hlt, -⟩ := h as i pack bs rfl
  rw [List.countP_append]
  omega

/-! ### The session -/

/-- The session is that of a sequence of calls, as far as turns are concerned. -/
structure Tracks (acts : List (Action T)) (a : Session T T) : Prop where
  clients : a.replicas.length = acts.countP isConnect
  applied : ∀ i r, a.replicas[i]? = some r → (r.applied ≠ [] ↔ Undelivered acts i)

variable {a b : Session T T}

theorem Tracks.connect (h : Tracks acts a) (hturn : InTurn acts) :
    Tracks (acts ++ [.connect]) a.connect := by
  refine ⟨?_, fun i r hr => ?_⟩
  · rw [Session.connect, List.length_append, h.clients, List.countP_append]
    rfl
  · rw [undelivered_snoc]
    rcases Session.connect_cases hr with hr | ⟨rfl, rfl⟩
    · rw [h.applied i r hr]
      simp
    · have hnot : ¬ Undelivered acts a.replicas.length := fun hi => by
        have := hturn.lt_of_undelivered hi
        rw [h.clients] at this
        exact Nat.lt_irrefl _ this
      simp [hnot]

theorem Tracks.makeLocalOps (h : Tracks acts a) {r : Replica T T} (hr : a.replicas[i]? = some r)
    (happlied : r.applied = []) (pack : OpPack T) :
    Tracks (acts ++ [.makeLocalOps i pack]) (a.makeLocalOps i r pack) := by
  refine ⟨?_, fun j q hq => ?_⟩
  · rw [Session.makeLocalOps, List.length_set, h.clients, List.countP_append]
    rfl
  · rw [undelivered_snoc]
    rcases Session.makeLocalOps_cases hr hq with ⟨hij, hq⟩ | ⟨rfl, rfl⟩
    · rw [h.applied j q hq]
      simp [hij]
    · have hnot : ¬ Undelivered acts i := fun hi => (h.applied i r hr).mpr hi happlied
      have hsign : (r.makeLocalOps i pack).applied ≠ [] ↔ pack ≠ [] := by
        show (Client.sign (Replica.cid i) r.rev pack).1 ≠ [] ↔ _
        rw [Client.sign_eq]
        simp
      rw [hsign]
      simp [hnot]

theorem Tracks.update (h : Tracks acts a) : Tracks (acts ++ [.update]) a.update := by
  refine ⟨?_, fun i q hq => ?_⟩
  · rw [Session.update, List.length_mapIdx, h.clients, List.countP_append]
    rfl
  · obtain ⟨r, -, rfl⟩ := Session.update_cases hq
    rw [undelivered_snoc]
    simp [Replica.update]

/-- **A call succeeds in turn**, and fails out of turn. -/
theorem Tracks.step (h : Tracks acts a) (hturn : InTurn acts) (act : Action T) :
    (InTurn (acts ++ [act]) ∧ ∃ b, a.step act = .ok b ∧ Tracks (acts ++ [act]) b) ∨
      ¬ InTurn (acts ++ [act]) ∧
        (a.step act = .error .noClient ∨ a.step act = .error .appliedNotEmpty) := by
  rw [inTurn_snoc]
  cases act with
  | connect =>
    exact Or.inl ⟨⟨hturn, fun i pack hact => by cases hact⟩, _, rfl, h.connect hturn⟩
  | update => exact Or.inl ⟨⟨hturn, fun i pack hact => by cases hact⟩, _, rfl, h.update⟩
  | makeLocalOps i pack =>
    simp only [Session.step]
    cases hr : a.replicas[i]? with
    | none =>
      refine Or.inr ⟨fun hin => ?_, Or.inl rfl⟩
      obtain ⟨hlt, -⟩ := hin.2 i pack rfl
      have := List.getElem?_eq_none_iff.mp hr
      rw [h.clients] at this
      omega
    | some r =>
      obtain ⟨hlt, -⟩ := List.getElem?_eq_some_iff.mp hr
      rw [h.clients] at hlt
      by_cases happlied : r.applied = []
      · have hnot : ¬ Undelivered acts i := fun hi => (h.applied i r hr).mpr hi happlied
        refine Or.inl ⟨⟨hturn, fun j pack' hact => ?_⟩, _, if_pos happlied,
          h.makeLocalOps hr happlied pack⟩
        obtain ⟨rfl, rfl⟩ := Action.makeLocalOps.inj hact
        exact ⟨hlt, hnot⟩
      · refine Or.inr ⟨fun hin => ?_, Or.inr (if_neg happlied)⟩
        exact (hin.2 i pack rfl).2 ((h.applied i r hr).mp happlied)

theorem session_calls (d : List T) (acts : List (Action T)) :
    (InTurn acts ∧ ∃ a, acts.foldlM Session.step (Session.start d) = .ok a ∧ Tracks acts a) ∨
      ¬ InTurn acts ∧ (acts.foldlM Session.step (Session.start d) = .error .noClient ∨
        acts.foldlM Session.step (Session.start d) = .error .appliedNotEmpty) := by
  induction acts using List.reverseRecOn with
  | nil =>
    refine Or.inl ⟨fun as i pack bs heq => ?_, _, rfl, rfl, nofun⟩
    simp at heq
  | append_singleton acts act ih =>
    rw [foldlM_snoc]
    rcases ih with ⟨hturn, a, ha, htracks⟩ | ⟨hnot, herror⟩
    · rw [ha]
      exact htracks.step hturn act
    · refine Or.inr ⟨fun hin => hnot (inTurn_snoc.mp hin).1, ?_⟩
      rcases herror with herror | herror
      · rw [herror]
        exact Or.inl rfl
      · rw [herror]
        exact Or.inr rfl

end

/-! ### The system -/

/-- **Exactly the calls out of turn fail.** For every sequence of calls, whatever the operations
are: the system over arrays gets to the end if and only if every client makes operations in turn,
and otherwise it is for a client that has never connected, or for the assertion that `applied` is
empty. -/
theorem calls_ok_iff (L : List T) (acts : List (Action T)) :
    ∃ d, L.foldlM IgushArray.pushBack (IgushArray.reserved 0) = .ok d ∧
      ((∃ s, ((Hosted.start d).bind fun s₀ =>
        acts.foldlM (Hosted.step (IgushArray.container T)) s₀) = .ok s) ↔ InTurn acts) ∧
      ∀ e, ((Hosted.start d).bind fun s₀ => acts.foldlM (Hosted.step (IgushArray.container T)) s₀) =
        .error e → e = .failure .noClient ∨ e = .failure .appliedNotEmpty := by
  obtain ⟨d, hd, hfollows⟩ := Arrays.system_follows L acts
  have hsession : ((Comm.start L).bind fun t₀ => acts.foldlM Comm.step t₀) =
      (acts.foldlM Session.step (Session.start L)).map Session.toSystem :=
    foldlM_map Session.step_toSystem (Session.start L) acts
  rw [hsession] at hfollows
  refine ⟨d, hd, ?_⟩
  rcases session_calls L acts with ⟨hturn, a, ha, -⟩ | ⟨hnot, herror⟩
  · obtain ⟨s, hs, -⟩ := hfollows.exists_ok (b := a.toSystem) (by rw [ha]; rfl)
    rw [hs]
    exact ⟨⟨fun _ => hturn, fun _ => ⟨s, rfl⟩⟩, nofun⟩
  · have hfails : ∃ e, (e = .failure .noClient ∨ e = .failure .appliedNotEmpty) ∧
        ((Hosted.start d).bind fun s₀ => acts.foldlM (Hosted.step (IgushArray.container T)) s₀) =
          .error e := by
      rcases herror with herror | herror
      · exact ⟨_, Or.inl rfl, hfollows.eq_error (by rw [herror]; rfl)⟩
      · exact ⟨_, Or.inr rfl, hfollows.eq_error (by rw [herror]; rfl)⟩
    obtain ⟨e, he, heq⟩ := hfails
    rw [heq]
    refine ⟨⟨nofun, fun hin => absurd hin hnot⟩, fun e' he' => ?_⟩
    obtain rfl := Except.error.inj he'
    exact he

end OpTransform.Theory.Turns
