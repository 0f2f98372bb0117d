import Mathlib.Data.List.Forall2
import Mathlib.Data.List.Sort
import Mathlib.Data.String.Basic
import Workboard.Sorted

/-!
# What a sort yields

The sorted list has the same elements as the given one, each as often, and it is
ascending if the order is one. An ascending list without repetitions is known by its
members. Lists that are related element by element stand at the end.
-/
namespace Workboard

section Sorting
variable {α : Type} {le : α → α → Bool}

theorem perm_insertBy (x : α) (ys : List α) : (insertBy le x ys).Perm (x :: ys) := by
  induction ys with
  | nil => exact .refl _
  | cons y ys ih =>
    simp only [insertBy]
    split
    · exact .refl _
    · exact (List.Perm.cons y ih).trans (.swap x y ys)

theorem perm_sortBy (xs : List α) : (sortBy le xs).Perm xs := by
  induction xs with
  | nil => exact .refl _
  | cons x xs ih => exact (perm_insertBy x (sortBy le xs)).trans (.cons x ih)

variable (htotal : ∀ x y, le x y = true ∨ le y x = true)
  (htrans : ∀ x y z, le x y = true → le y z = true → le x z = true)
include htotal htrans

theorem pairwise_insertBy {x : α} {ys : List α} (h : ys.Pairwise fun a b => le a b = true) :
    (insertBy le x ys).Pairwise fun a b => le a b = true := by
  induction ys with
  | nil => exact List.pairwise_singleton _ x
  | cons y ys ih =>
    obtain ⟨hy, hys⟩ := List.pairwise_cons.mp h
    simp only [insertBy]
    split
    · rename_i hxy
      refine List.pairwise_cons.mpr ⟨fun z hz => ?_, h⟩
      rcases List.mem_cons.mp hz with rfl | hz
      · exact hxy
      · exact htrans x y z hxy (hy z hz)
    · rename_i hxy
      have hyx : le y x = true := (htotal x y).resolve_left hxy
      refine List.pairwise_cons.mpr ⟨fun z hz => ?_, ih hys⟩
      rcases mem_insertBy.mp hz with rfl | hz
      · exact hyx
      · exact hy z hz

theorem pairwise_sortBy (xs : List α) : (sortBy le xs).Pairwise fun a b => le a b = true := by
  induction xs with
  | nil => exact .nil
  | cons x xs ih => exact pairwise_insertBy htotal htrans ih

end Sorting

/-- Texts without repetitions are sorted strictly. -/
theorem pairwise_sortBy_text {xs : List String} (h : xs.Nodup) :
    (sortBy (· ≤ ·) xs).Pairwise (· < ·) := by
  have hle : (sortBy (fun a b : String => decide (a ≤ b)) xs).Pairwise fun a b => decide (a ≤ b) = true :=
    pairwise_sortBy (fun a b => by simpa using le_total a b)
      (fun a b c hab hbc => by simpa using le_trans (of_decide_eq_true hab) (of_decide_eq_true hbc)) xs
  have hnodup : (sortBy (fun a b : String => decide (a ≤ b)) xs).Nodup :=
    (perm_sortBy xs).nodup_iff.mpr h
  exact (hle.and hnodup).imp fun hab => lt_of_le_of_ne (of_decide_eq_true hab.1) hab.2

theorem TextSet.nodup (s : TextSet) : s.toList.Nodup := s.ascending.imp ne_of_lt

section Related
variable {α β γ : Type} {R : α → β → Prop} {S : α → γ → Prop} {as : List α} {bs : List β}
  {cs : List γ}

theorem exists_left_of_forall₂ (h : List.Forall₂ R as bs) {b : β} (hb : b ∈ bs) :
    ∃ a ∈ as, R a b := by
  induction h with
  | nil => cases hb
  | cons hr _ ih =>
    rcases List.mem_cons.mp hb with rfl | hb
    · exact ⟨_, List.mem_cons_self, hr⟩
    · obtain ⟨a, ha, hab⟩ := ih hb
      exact ⟨a, List.mem_cons_of_mem _ ha, hab⟩

theorem exists_right_of_forall₂ (h : List.Forall₂ R as bs) {a : α} (ha : a ∈ as) :
    ∃ b ∈ bs, R a b :=
  exists_left_of_forall₂ h.flip ha

/-- What two lists have to do with a third one, they have to do with each other. -/
theorem forall₂_of_common (hb : List.Forall₂ R as bs) (hc : List.Forall₂ S as cs) :
    List.Forall₂ (fun b c => ∃ a, R a b ∧ S a c) bs cs := by
  induction hb generalizing cs with
  | nil =>
    cases hc
    exact .nil
  | cons hr _ ih =>
    cases hc with
    | cons hs hcs => exact .cons ⟨_, hr, hs⟩ (ih hcs)

end Related

end Workboard
