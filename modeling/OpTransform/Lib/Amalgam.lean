import Mathlib.Data.List.Nodup
import Mathlib.Data.Prod.Lex
import Mathlib.SetTheory.Cardinal.Order

/-! # Common extensions of two lists

Two lists with a common sublist `X` have a common extension that lists `X` once (`exists_amalgam`).
If they share nothing beyond `X`, the extension is without repetition (`exists_nodup_amalgam`): two
partial views of one order, which agree on what both see, fit into one order.

A list without repetition gives a linear order on the whole type in which its sublists are strictly
increasing (`exists_linearOrder`). -/

namespace OpTransform.Lib.Amalgam

universe u

variable {α : Type u}

theorem exists_amalgam {X W M : List α} (hW : X.Sublist W) (hM : X.Sublist M) :
    ∃ V, W.Sublist V ∧ M.Sublist V ∧ (V ++ X).Perm (W ++ M) := by
  induction hW generalizing M with
  | slnil => exact ⟨M, List.nil_sublist M, List.Sublist.refl M, by simp⟩
  | cons w _ ih =>
    obtain ⟨V, hV, hMV, hp⟩ := ih hM
    exact ⟨w :: V, hV.cons_cons w, hMV.cons w, hp.cons w⟩
  | @cons_cons X W x _ ih =>
    -- the part of `M` up to `x` goes before `x`
    obtain ⟨r₁, r₂, rfl, hx, hr⟩ := List.cons_sublist_iff.mp hM
    obtain ⟨s, t, rfl⟩ := List.append_of_mem hx
    obtain ⟨V, hV, hMV, hp⟩ := ih (hr.trans (List.sublist_append_right t r₂))
    refine ⟨s ++ x :: V, ?_, ?_, ?_⟩
    · exact (hV.cons_cons x).trans (List.sublist_append_right s _)
    · rw [List.append_assoc, List.cons_append]
      exact List.Sublist.append (List.Sublist.refl s) (hMV.cons_cons x)
    · classical
      refine List.perm_iff_count.mpr fun a => ?_
      have := hp.count_eq a
      simp only [List.count_append, List.count_cons] at this ⊢
      omega

theorem exists_nodup_amalgam {X W M : List α} (hW : X.Sublist W) (hM : X.Sublist M)
    (hWn : W.Nodup) (hMn : M.Nodup) (hX : ∀ a ∈ W, a ∈ M → a ∈ X) :
    ∃ V, W.Sublist V ∧ M.Sublist V ∧ V.Nodup ∧ ∀ a ∈ V, a ∈ W ∨ a ∈ M := by
  classical
  obtain ⟨V, hV, hMV, hp⟩ := exists_amalgam hW hM
  refine ⟨V, hV, hMV, List.nodup_iff_count_le_one.mpr fun a => ?_, fun a ha => ?_⟩
  · have hc := hp.count_eq a
    have h1 := List.nodup_iff_count_le_one.mp hWn a
    have h2 := List.nodup_iff_count_le_one.mp hMn a
    simp only [List.count_append] at hc
    by_cases haX : a ∈ X
    · have := List.count_pos_iff.mpr haX
      omega
    · -- `a` is in one of the two lists at most
      have h0 : List.count a W = 0 ∨ List.count a M = 0 := by
        by_contra hn
        push Not at hn
        exact haX (hX a (List.count_pos_iff.mp (by omega)) (List.count_pos_iff.mp (by omega)))
      omega
  · exact List.mem_append.mp (hp.subset (List.mem_append_left X ha))

theorem pairwise_idxOf_lt [DecidableEq α] {W : List α} (hW : W.Nodup) :
    W.Pairwise fun a b => W.idxOf a < W.idxOf b := by
  refine List.pairwise_iff_getElem.mpr fun i j hi hj hij => ?_
  rw [hW.idxOf_getElem, hW.idxOf_getElem]
  exact hij

theorem exists_linearOrder {W : List α} (hW : W.Nodup) :
    ∃ ord : LinearOrder α, ∀ l : List α, l.Sublist W → l.Pairwise fun a b => ord.lt a b := by
  classical
  let := IsWellOrder.linearOrder (WellOrderingRel : α → α → Prop)
  -- first the place in the list, then any order, for what the list does not mention
  let key : α → ℕ ×ₗ α := fun a => toLex (W.idxOf a, a)
  have hkey : Function.Injective key := fun a b h => congrArg (fun k => (ofLex k).2) h
  refine ⟨LinearOrder.lift' key hkey, fun l hl => ?_⟩
  refine ((pairwise_idxOf_lt hW).sublist hl).imp fun h => ?_
  exact Prod.Lex.toLex_lt_toLex.mpr (Or.inl h)

end OpTransform.Lib.Amalgam
