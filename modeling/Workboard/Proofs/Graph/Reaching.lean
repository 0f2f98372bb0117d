import Mathlib.Logic.Relation
import Workboard.Graph

/-!
# What the graph of requirements reaches

Ids are searched level by level, in at most as many levels as there are tasks. Each level that is
not empty takes an id off those that are still to be found, so the search comes to its end. Main
statements: it finds exactly the ids that a chain of requirements leads to, and an id is on a cycle
exactly if a chain leads from it back to itself.
-/
namespace Workboard
open Relation

section Spread
variable {next : String → List String} {n : Nat} {seen level : List String}

theorem spread_cons (x : String) (xs : List String) : spread next (n + 1) seen (x :: xs) =
    spread next n (seen ++ ((x :: xs).flatMap next).eraseDups.filter fun x => !seen.contains x)
      (((x :: xs).flatMap next).eraseDups.filter fun x => !seen.contains x) := rfl

theorem spread_nil : spread next n seen [] = seen := by
  cases n <;> rfl

theorem mem_new {x : String} : x ∈ (level.flatMap next).eraseDups.filter (fun x => !seen.contains x) ↔
    (∃ y ∈ level, x ∈ next y) ∧ x ∉ seen := by
  simp [List.mem_eraseDups]

theorem subset_spread : seen ⊆ spread next n seen level := by
  induction n generalizing seen level with
  | zero => exact List.Subset.refl seen
  | succ n ih =>
    cases level with
    | nil => exact List.Subset.refl seen
    | cons x xs => exact fun y hy => ih (List.mem_append_left _ hy)

/-- Nothing is found that does not follow step by step from what was there. -/
theorem forall_mem_spread {P : String → Prop} (hnext : ∀ x y, P x → y ∈ next x → P y) (hseen : ∀ x ∈ seen, P x)
    (hlevel : ∀ x ∈ level, P x) : ∀ x ∈ spread next n seen level, P x := by
  induction n generalizing seen level with
  | zero => exact hseen
  | succ n ih =>
    cases level with
    | nil => exact hseen
    | cons x xs =>
      have hnew : ∀ y ∈ ((x :: xs).flatMap next).eraseDups.filter (fun x => !seen.contains x), P y := by
        intro y hy
        obtain ⟨⟨z, hz, hstep⟩, -⟩ := mem_new.mp hy
        exact hnext z y (hlevel z hz) hstep
      exact ih (List.forall_mem_append.mpr ⟨hseen, hnew⟩) hnew

/-- If there are levels enough for all that is still to be found, everything that follows from what is
found is found. -/
theorem spread_closed {univ : List String} (huniv : ∀ x, next x ⊆ univ)
    (hfuel : (univ.filter fun x => !seen.contains x).length ≤ n)
    (hclosed : ∀ x ∈ seen, x ∉ level → next x ⊆ seen) :
    ∀ x ∈ spread next n seen level, next x ⊆ spread next n seen level := by
  induction n generalizing seen level with
  | zero =>
    have hall : ∀ y ∈ univ, y ∈ seen := by
      simpa [List.filter_eq_nil_iff] using List.length_eq_zero_iff.mp (Nat.le_zero.mp hfuel)
    exact fun x _ y hy => hall y (huniv x hy)
  | succ n ih =>
    cases level with
    | nil => exact fun x hx => hclosed x hx List.not_mem_nil
    | cons x xs =>
      rw [spread_cons]
      have hmem : ∀ {y}, y ∈ ((x :: xs).flatMap next).eraseDups.filter (fun x => !seen.contains x) ↔
        (∃ z ∈ x :: xs, y ∈ next z) ∧ y ∉ seen := mem_new
      generalize ((x :: xs).flatMap next).eraseDups.filter (fun x => !seen.contains x) = new at hmem ⊢
      -- what was seen before leads to what was seen before or just now
      have hclosed' : ∀ y ∈ seen, next y ⊆ seen ++ new := by
        intro y hy z hz
        by_cases hlevel : y ∈ x :: xs
        · by_cases hz' : z ∈ seen
          · exact List.mem_append_left _ hz'
          · exact List.mem_append_right _ (hmem.mpr ⟨⟨y, hlevel, hz⟩, hz'⟩)
        · exact List.mem_append_left _ (hclosed y hy hlevel hz)
      cases new with
      | nil =>
        rw [spread_nil]
        rw [List.append_nil] at hclosed' ⊢
        exact hclosed'
      | cons y ys =>
        refine ih ?_ fun z hz hnew => hclosed' z ((List.mem_append.mp hz).resolve_right hnew)
        obtain ⟨⟨z, -, hz⟩, hy⟩ := hmem.mp List.mem_cons_self
        have hsplit : (univ.filter fun x => !(seen ++ y :: ys).contains x) =
            (univ.filter fun x => !seen.contains x).filter fun x => !(y :: ys).contains x := by
          rw [List.filter_filter]
          refine List.filter_congr fun x _ => ?_
          simp [Bool.and_comm]
        have hless : ((univ.filter fun x => !seen.contains x).filter fun x => !(y :: ys).contains x).length <
            (univ.filter fun x => !seen.contains x).length :=
          List.length_filter_lt_length_iff_exists.mpr
            ⟨y, List.mem_filter.mpr ⟨huniv z hz, by simpa using hy⟩, by simp⟩
        rw [hsplit]
        omega

end Spread

namespace Snapshot
variable {all : Snapshot} {id x y : String}

/-- The search finds what a chain of requirements leads to. -/
theorem mem_reach : x ∈ all.reach id ↔ TransGen all.Requires id x := by
  have hfuel : ((all.map Task.id).filter fun x => !(all.next id).contains x).length ≤ all.length := by
    have hle := List.length_filter_le (fun x => !(all.next id).contains x) (all.map Task.id)
    rwa [List.length_map] at hle
  have hclosed := @spread_closed all.next all.length (all.next id) (all.next id) (all.map Task.id) next_subset hfuel
    fun x hx hnot => absurd hx hnot
  constructor
  · intro hx
    have hfirst : ∀ y ∈ all.next id, TransGen all.Requires id y := fun y hy => .single hy
    exact forall_mem_spread (fun y z hy hz => hy.tail hz) hfirst hfirst x hx
  · intro hx
    induction hx with
    | single hstep => exact subset_spread hstep
    | tail _ hstep ih => exact hclosed _ ih hstep

/-- A chain from what was visited to an id that was not leads through the stack. -/
theorem leaves_visited {visited todo : List String}
    (hclosed : ∀ x ∈ visited, x ≠ id ∧ ∀ y ∈ all.next x, y ∈ visited ∨ y ∈ todo) (hx : x ∈ visited)
    (hreach : ReflTransGen all.Requires x id) : ∃ y ∈ todo, ReflTransGen all.Requires y id := by
  induction hreach using ReflTransGen.head_induction_on with
  | refl => exact absurd rfl (hclosed id hx).1
  | head hstep hrest ih =>
    rcases (hclosed _ hx).2 _ hstep with hvisited | htodo
    · exact ih hvisited
    · exact ⟨_, htodo, hrest⟩

/-- The search of a stack finds an id if one on the stack leads there, as far as those visited before lead
to what was visited or is on the stack. -/
theorem comesTo_iff {visited todo : List String}
    (hclosed : ∀ x ∈ visited, x ≠ id ∧ ∀ y ∈ all.next x, y ∈ visited ∨ y ∈ todo) :
    all.comesTo id visited todo = true ↔ ∃ x ∈ todo, ReflTransGen all.Requires x id := by
  induction visited, todo using comesTo.induct all id with
  | case1 visited => simp [comesTo]
  | case2 visited stack => 
    rw [comesTo, if_pos rfl]
    exact iff_of_true rfl ⟨id, List.mem_cons_self, .refl⟩
  | case3 visited x stack hne hvisited ih =>
    have hclosed' : ∀ y ∈ visited, y ≠ id ∧ ∀ z ∈ all.next y, z ∈ visited ∨ z ∈ stack := by
      intro y hy
      refine ⟨(hclosed y hy).1, fun z hz => ?_⟩
      rcases (hclosed y hy).2 z hz with hz | hz
      · exact .inl hz
      · rcases List.mem_cons.mp hz with rfl | hz
        · exact .inl hvisited
        · exact .inr hz
    rw [comesTo, if_neg hne, dif_pos hvisited, ih hclosed']
    constructor
    · rintro ⟨y, hy, hreach⟩
      exact ⟨y, List.mem_cons_of_mem _ hy, hreach⟩
    · rintro ⟨y, hy, hreach⟩
      rcases List.mem_cons.mp hy with rfl | hy
      · exact leaves_visited hclosed' hvisited hreach
      · exact ⟨y, hy, hreach⟩
  | case4 visited x stack hne hvisited ih =>
    have hclosed' : ∀ y ∈ x :: visited, y ≠ id ∧
        ∀ z ∈ all.next y, z ∈ x :: visited ∨ z ∈ (all.next x).reverse ++ stack := by
      intro y hy
      rcases List.mem_cons.mp hy with rfl | hy
      · exact ⟨hne, fun z hz => .inr (List.mem_append_left _ (List.mem_reverse.mpr hz))⟩
      · refine ⟨(hclosed y hy).1, fun z hz => ?_⟩
        rcases (hclosed y hy).2 z hz with hz | hz
        · exact .inl (List.mem_cons_of_mem _ hz)
        · rcases List.mem_cons.mp hz with rfl | hz
          · exact .inl List.mem_cons_self
          · exact .inr (List.mem_append_right _ hz)
    rw [comesTo, if_neg hne, dif_neg hvisited, ih hclosed']
    constructor
    · rintro ⟨y, hy, hreach⟩
      rcases List.mem_append.mp hy with hy | hy
      · exact ⟨x, List.mem_cons_self, .head (List.mem_reverse.mp hy) hreach⟩
      · exact ⟨y, List.mem_cons_of_mem _ hy, hreach⟩
    · rintro ⟨y, hy, hreach⟩
      rcases List.mem_cons.mp hy with rfl | hy
      · exact leaves_visited hclosed' List.mem_cons_self hreach
      · exact ⟨y, List.mem_append_right _ hy, hreach⟩

theorem onCycle_iff : all.onCycle id = true ↔ TransGen all.Requires id id := by
  rw [onCycle, comesTo_iff fun x hx => absurd hx List.not_mem_nil, TransGen.head'_iff]
  simp [Requires]

theorem cycleOf?_eq_none : all.cycleOf? id = none ↔ ¬ TransGen all.Requires id id := by
  simp [cycleOf?, mem_reach]

/-- What a chain of requirements leads to is in the snapshot. -/
theorem mem_ids_of_transGen (h : TransGen all.Requires x y) : y ∈ all.ids := by
  have hmem : y ∈ all.map Task.id := by
    cases h with
    | single hstep => exact next_subset _ hstep
    | tail _ hstep => exact next_subset _ hstep
  exact TextSet.mem_ofList.mpr hmem

/-- The cycle of an id has the ids to which a chain leads from it and from which one leads back. -/
theorem mem_of_cycleOf? {cycle : List String} (h : all.cycleOf? id = some cycle) :
    x ∈ cycle ↔ TransGen all.Requires id x ∧ TransGen all.Requires x id := by
  simp only [cycleOf?, Option.ite_none_right_eq_some, Option.some.injEq] at h
  obtain ⟨-, rfl⟩ := h
  rw [List.mem_filter, Bool.and_eq_true, List.contains_iff_mem, List.contains_iff_mem, mem_reach, mem_reach]
  exact and_iff_right_of_imp fun h => mem_ids_of_transGen h.1

/-- The ids of a cycle have it in common. -/
theorem cycleOf?_of_mem {cycle : List String} (h : all.cycleOf? id = some cycle) (hx : x ∈ cycle) :
    all.cycleOf? x = some cycle := by
  obtain ⟨hto, hback⟩ := (mem_of_cycleOf? h).mp hx
  have hsame : ∀ j, TransGen all.Requires x j ∧ TransGen all.Requires j x ↔
      TransGen all.Requires id j ∧ TransGen all.Requires j id := fun j =>
    ⟨fun hj => ⟨hto.trans hj.1, hj.2.trans hback⟩, fun hj => ⟨hback.trans hj.1, hj.2.trans hto⟩⟩
  simp only [cycleOf?, Option.ite_none_right_eq_some, Option.some.injEq] at h ⊢
  obtain ⟨-, rfl⟩ := h
  refine ⟨?_, List.filter_congr fun j _ => ?_⟩
  · rw [List.contains_iff_mem, mem_reach]
    exact hback.trans hto
  · rw [Bool.eq_iff_iff]
    simp only [Bool.and_eq_true, List.contains_iff_mem, mem_reach]
    exact hsame j

end Snapshot

end Workboard
