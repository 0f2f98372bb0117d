import Mathlib.Data.List.Nodup
import Workboard.Board.Reconcile

/-!
# What a repair finds to do

The completion of a task frees tasks that waited for it, and a task that was freed once is
not freed again, whatever else is completed. So where nothing was left to do before a task
was completed, a repair after it frees exactly those of its dependents that were not freed
yet.
-/
namespace Workboard

namespace Task
variable {id other : String} {now : Instant} {t u : Task}

/-- The task after the completion of `id`, if that changes it. -/
def freed? (id : String) (now : Instant) (t : Task) : Option Task :=
  if t.id ≠ id && !t.state.isTerminal && (t.waitingFor = some id || id ∈ t.requires) then
    Snapshot.unblocked? id now t
  else none

/-- The tasks have the same id and are related to the same tasks. -/
def SameLinks (t u : Task) : Prop := u.id = t.id ∧ u.requires = t.requires ∧ u.blocks = t.blocks

theorem SameLinks.refl (t : Task) : t.SameLinks t := ⟨rfl, rfl, rfl⟩

theorem freed?_of_not_waiting (hfor : t.waitingFor = none) (hstate : t.state ≠ .waiting) :
    t.freed? id now = none := by
  have hunblocked : Snapshot.unblocked? id now t = none := by simp [Snapshot.unblocked?, hfor, hstate]
  rw [freed?, hunblocked, ite_self]

theorem freed?_of_isTerminal (h : t.state.isTerminal = true) : t.freed? id now = none := by
  simp [freed?, h]

/-- A task that is freed is not at its end, waits for nothing any more, and is active if it was. -/
theorem not_waiting_of_freed? (h : t.freed? id now = some u) :
    u.waitingFor = none ∧ u.state ≠ .waiting ∧ u.state ≠ .done ∧
      (u.state = .active ↔ t.state = .active) ∧ t.SameLinks u := by
  rw [freed?, Option.ite_none_right_eq_some] at h
  obtain ⟨hcond, h⟩ := h
  have hopen : t.state ≠ .done := by
    rintro heq
    simp [heq, TaskState.isTerminal] at hcond
  unfold Snapshot.unblocked? at h
  simp only at h
  by_cases hfor : t.waitingFor = some id
  · simp only [if_pos hfor] at h
    by_cases hstate : t.state = .waiting
    · rw [if_pos (by simp [hstate]), Option.some.injEq] at h
      subst h
      simp [moved, touch, SameLinks, hstate]
    · rw [if_neg (by simp [hstate]), Option.some.injEq] at h
      subst h
      simp [touch, SameLinks, hstate, hopen]
  · simp only [if_neg hfor] at h
    rw [Option.ite_none_right_eq_some, Bool.and_eq_true, decide_eq_true_eq, decide_eq_true_eq] at h
    obtain ⟨⟨hstate, -⟩, h⟩ := h
    rw [Option.some.injEq] at h
    subst h
    simp [moved, touch, SameLinks, hstate]

theorem sameLinks_of_freed? (h : t.freed? id now = some u) : t.SameLinks u :=
  (not_waiting_of_freed? h).2.2.2.2

theorem active_of_freed? (h : t.freed? id now = some u) : u.state = .active ↔ t.state = .active :=
  (not_waiting_of_freed? h).2.2.2.1

/-- A task that is freed is not freed again. -/
theorem freed?_of_freed? (h : t.freed? id now = some u) : u.freed? other now = none :=
  have hfreed := not_waiting_of_freed? h
  freed?_of_not_waiting hfreed.1 hfreed.2.1

end Task

namespace Snapshot
variable {all : Snapshot} {now : Instant}

section Upsert
variable {t : Task} {ts : List Task}

theorem upsertAll_cons_of_ne (h : ∀ u ∈ ts, t.id ≠ u.id) :
    Snapshot.upsertAll ts (t :: all) = t :: Snapshot.upsertAll ts all := by
  induction ts generalizing all with
  | nil => rfl
  | cons u ts ih =>
    have hupsert : upsert u (t :: all) = t :: upsert u all := if_neg (h u List.mem_cons_self)
    change Snapshot.upsertAll ts (upsert u (t :: all)) = t :: Snapshot.upsertAll ts (upsert u all)
    rw [hupsert, ih fun v hv => h v (List.mem_cons_of_mem _ hv)]

/-- Updates of some records of a snapshot stand in the places of these records. -/
theorem upsertAll_filterMap {upd : Task → Option Task} (hid : ∀ t u, upd t = some u → u.id = t.id)
    (hnodup : (all.map Task.id).Nodup) :
    Snapshot.upsertAll (all.filterMap upd) all = all.map fun t => (upd t).getD t := by
  induction all with
  | nil => rfl
  | cons t all ih =>
    obtain ⟨hnot, hnodup⟩ := List.nodup_cons.mp hnodup
    have hne : ∀ s : Task, s.id = t.id → ∀ u ∈ all.filterMap upd, s.id ≠ u.id := by
      intro s hs u hu heq
      obtain ⟨v, hv, hvu⟩ := List.mem_filterMap.mp hu
      exact hnot (List.mem_map.mpr ⟨v, hv, by rw [← hid v u hvu, ← heq, hs]⟩)
    cases hupd : upd t with
    | none =>
      rw [List.filterMap_cons_none hupd, upsertAll_cons_of_ne (hne t rfl), ih hnodup]
      simp [hupd]
    | some u =>
      have hu := hid t u hupd
      rw [List.filterMap_cons_some hupd]
      change Snapshot.upsertAll (all.filterMap upd) (upsert u (t :: all)) = _
      rw [upsert, if_pos hu.symm, upsertAll_cons_of_ne (hne u hu), ih hnodup]
      simp [hupd]

/-- Updates of records that are not there are added at the end. -/
theorem upsertAll_of_nodup (h : ((all ++ ts).map Task.id).Nodup) :
    Snapshot.upsertAll ts all = all ++ ts := by
  induction ts generalizing all with
  | nil => exact (List.append_nil all).symm
  | cons t ts ih =>
    have hupsert : ∀ us : Snapshot, (∀ u ∈ us, u.id ≠ t.id) → upsert t us = us ++ [t] := by
      intro us hus
      induction us with
      | nil => rfl
      | cons u us ih =>
        rw [upsert, if_neg (hus u List.mem_cons_self), ih fun v hv => hus v (List.mem_cons_of_mem _ hv)]
        rfl
    have hne : ∀ u ∈ all, u.id ≠ t.id := by
      intro u hu heq
      rw [List.map_append, List.map_cons] at h
      exact (List.nodup_append.mp h).2.2 _ (List.mem_map.mpr ⟨u, hu, rfl⟩) _ List.mem_cons_self heq
    change Snapshot.upsertAll ts (upsert t all) = _
    rw [hupsert all hne, ih (by simpa using h), List.append_assoc]
    rfl

theorem mem_upsertAll {u : Task} (h : u ∈ Snapshot.upsertAll ts all) : u ∈ ts ∨ u ∈ all := by
  have hupsert : ∀ (t : Task) (us : Snapshot), u ∈ upsert t us → u = t ∨ u ∈ us := by
    intro t us hu
    induction us with
    | nil => exact .inl (List.mem_singleton.mp hu)
    | cons v us ih =>
      rw [upsert] at hu
      split at hu
      · exact (List.mem_cons.mp hu).imp_right (List.mem_cons_of_mem _)
      · obtain rfl | hu := List.mem_cons.mp hu
        · exact .inr List.mem_cons_self
        · exact (ih hu).imp_right (List.mem_cons_of_mem _)
  induction ts generalizing all with
  | nil => exact .inr h
  | cons t ts ih =>
    obtain hu | hu := ih h
    · exact .inl (List.mem_cons_of_mem _ hu)
    · obtain rfl | hu := hupsert t all hu
      · exact .inl List.mem_cons_self
      · exact .inr hu

theorem upsert_ne_nil (t : Task) (all : Snapshot) : upsert t all ≠ [] := by
  cases all with
  | nil => simp [upsert]
  | cons u us =>
    rw [upsert]
    split <;> simp

theorem upsertAll_eq_nil : Snapshot.upsertAll ts all = [] ↔ ts = [] ∧ all = [] := by
  induction ts generalizing all with
  | nil => simp [Snapshot.upsertAll]
  | cons t ts ih =>
    change Snapshot.upsertAll ts (upsert t all) = [] ↔ _
    simp [ih, upsert_ne_nil]

end Upsert

theorem cascade_eq_filterMap {id : String} (hdone : ∀ t ∈ all, t.id = id → t.state = .done) (now : Instant) :
    all.cascade id now = all.filterMap (Task.freed? id now) := by
  have hfirst : ¬ (all.find? (·.id = id)).any (·.state ≠ .done) = true := by
    rw [Option.any_eq_true]
    rintro ⟨t, hfind, hstate⟩
    have hid : t.id = id := by simpa using List.find?_some hfind
    simp [hdone t (List.mem_of_find?_eq_some hfind) hid] at hstate
  rw [cascade, if_neg hfirst]
  rfl

section Distinct
variable (hnodup : (all.map Task.id).Nodup)
include hnodup

theorem eq_of_mem_of_id {t u : Task} (ht : t ∈ all) (hu : u ∈ all) (h : t.id = u.id) : t = u :=
  List.inj_on_of_nodup_map hnodup ht hu h

theorem find?_of_mem {t : Task} (ht : t ∈ all) : all.find? (·.id = t.id) = some t := by
  cases hfind : all.find? (·.id = t.id) with
  | none =>
    have hnone := List.find?_eq_none.mp hfind t ht
    simp at hnone
  | some u =>
    have hid : u.id = t.id := by simpa using List.find?_some hfind
    rw [eq_of_mem_of_id hnodup (List.mem_of_find?_eq_some hfind) ht hid]

/-- The tasks that the completion of a task frees. -/
theorem cascade_of_done {t : Task} (ht : t ∈ all) (hdone : t.state = .done) :
    all.cascade t.id now = all.filterMap (Task.freed? t.id now) :=
  cascade_eq_filterMap (fun _ hu hid => eq_of_mem_of_id hnodup hu ht hid ▸ hdone) now

end Distinct

theorem exists_of_mem_cascade {id : String} {t : Task} (h : t ∈ all.cascade id now) :
    ∃ u ∈ all, u.freed? id now = some t := by
  unfold cascade at h
  split at h
  · cases h
  · exact List.mem_filterMap.mp h

theorem cascade_eq_nil {id : String} (h : ∀ t ∈ all, t.freed? id now = none) :
    all.cascade id now = [] := by
  have hnil : all.filterMap (Task.freed? id now) = [] := List.filterMap_eq_nil_iff.mpr h
  rw [cascade]
  split
  · rfl
  · exact hnil

theorem requirers_map {φ : Task → Task} (hφ : ∀ t ∈ all, (φ t).id = t.id ∧ (φ t).requires = t.requires)
    (id : String) : Snapshot.requirers (all.map φ) id = all.requirers id := by
  have hids : ((all.map φ).filter (id ∈ ·.requires)).map Task.id =
      (all.filter (id ∈ ·.requires)).map Task.id := by
    induction all with
    | nil => rfl
    | cons t ts ih =>
      obtain ⟨hid, hrequires⟩ := hφ t List.mem_cons_self
      have ih := ih fun u hu => hφ u (List.mem_cons_of_mem _ hu)
      by_cases h : id ∈ t.requires
      · rw [List.map_cons, List.filter_cons_of_pos (by simpa [hrequires] using h),
          List.filter_cons_of_pos (by simpa using h), List.map_cons, List.map_cons, ih, hid]
      · rw [List.map_cons, List.filter_cons_of_neg (by simpa [hrequires] using h),
          List.filter_cons_of_neg (by simpa using h), ih]
  rw [requirers, requirers, hids]

section Links
variable {φ : Task → Task} (hφ : ∀ t ∈ all, t.SameLinks (φ t))
include hφ

theorem map_id_of_sameLinks : (all.map φ).map Task.id = all.map Task.id := by
  rw [List.map_map]
  exact List.map_congr_left fun t ht => (hφ t ht).1

/-- The noted dependents stay right as long as nobody's links change. -/
theorem staleBlocks_map (h : all.staleBlocks now = []) :
    Snapshot.staleBlocks (all.map φ) now = [] := by
  refine List.filterMap_eq_nil_iff.mpr fun u hu => ?_
  obtain ⟨t, ht, rfl⟩ := List.mem_map.mp hu
  have hright := List.filterMap_eq_nil_iff.mp h t ht
  obtain ⟨hid, -, hblocks⟩ := hφ t ht
  simp only [ite_eq_left_iff, reduceCtorEq, imp_false, not_not] at hright ⊢
  rw [requirers_map fun v hv => ⟨(hφ v hv).1, (hφ v hv).2.1⟩, hid, hblocks, hright]

end Links

end Snapshot

namespace Repair
variable {now : Instant} {ids : List String} {r : Repair}

theorem cascades_append (more : List String) :
    r.cascades now (ids ++ more) = (r.cascades now ids).cascades now more := List.foldl_append

theorem cascades_cons (id : String) :
    r.cascades now (id :: ids) = (r.apply (r.all.cascade id now)).cascades now ids := rfl

/-- Where no id frees anything, nothing changes. -/
theorem cascades_of_nil (h : ∀ id ∈ ids, r.all.cascade id now = []) : r.cascades now ids = r := by
  induction ids with
  | nil => rfl
  | cons id ids ih =>
    have hnone : r.apply (r.all.cascade id now) = r := by
      rw [h id List.mem_cons_self]
      rfl
    rw [cascades_cons, hnone, ih fun other ho => h other (List.mem_cons_of_mem _ ho)]

/-- If nothing has changed in the end, then nothing had changed in the beginning, and no id
freed anything. -/
theorem nil_of_changed_cascades (h : (r.cascades now ids).changed = []) :
    r.changed = [] ∧ ∀ id ∈ ids, r.all.cascade id now = [] := by
  induction ids generalizing r with
  | nil => exact ⟨h, fun id hid => by cases hid⟩
  | cons id ids ih =>
    rw [cascades_cons] at h
    obtain ⟨hchanged, hrest⟩ := ih h
    obtain ⟨hnone, hempty⟩ := Snapshot.upsertAll_eq_nil.mp hchanged
    rw [hnone] at hrest
    refine ⟨hempty, fun other ho => ?_⟩
    rcases List.mem_cons.mp ho with rfl | ho
    · exact hnone
    · exact hrest other ho

/-- What holds of all records of a repair, and what of those that it has changed. -/
def All (P Q : Task → Prop) (r : Repair) : Prop := (∀ t ∈ r.all, P t) ∧ ∀ t ∈ r.changed, Q t

section All
variable {P Q : Task → Prop}

theorem All.apply (h : r.All P Q) {ts : List Task} (hts : ∀ t ∈ ts, P t ∧ Q t) : (r.apply ts).All P Q :=
  ⟨fun t ht => (Snapshot.mem_upsertAll ht).elim (fun ht => (hts t ht).1) (h.1 t),
    fun t ht => (Snapshot.mem_upsertAll ht).elim (fun ht => (hts t ht).2) (h.2 t)⟩

theorem All.cascades (h : r.All P Q) (hfreed : ∀ id t u, P t → t.freed? id now = some u → P u ∧ Q u)
    (ids : List String) : (r.cascades now ids).All P Q := by
  induction ids generalizing r with
  | nil => exact h
  | cons id ids ih =>
    rw [cascades_cons]
    refine ih (h.apply fun u hu => ?_)
    obtain ⟨t, ht, hfree⟩ := Snapshot.exists_of_mem_cascade hu
    exact hfreed id t u (h.1 t ht) hfree

theorem All.links (h : r.All P Q)
    (hblocks : ∀ t blocks, P t → P ({ t with blocks }.touch now) ∧ Q ({ t with blocks }.touch now)) :
    (r.links now).All P Q := by
  refine h.apply fun u hu => ?_
  obtain ⟨t, ht, hupd⟩ := List.mem_filterMap.mp hu
  simp only [Option.ite_none_left_eq_some, Option.some.injEq] at hupd
  obtain ⟨-, rfl⟩ := hupd
  exact hblocks t _ (h.1 t ht)

end All

end Repair

namespace Snapshot
variable {all : Snapshot} {now : Instant}

/-- Where there is nothing to repair, no task that is done frees another, and the noted
dependents are right. -/
theorem settled_of_repairs (hnodup : (all.map Task.id).Nodup) (h : all.repairs now = []) :
    (∀ t ∈ all, t.state = .done → ∀ u ∈ all, u.freed? t.id now = none) ∧ all.staleBlocks now = [] := by
  obtain ⟨hlinks, hcascades⟩ := Snapshot.upsertAll_eq_nil.mp h
  obtain ⟨-, hnone⟩ := Repair.nil_of_changed_cascades hcascades
  refine ⟨fun t ht hdone u hu => ?_, ?_⟩
  · have hcascade := hnone t.id (List.mem_map.mpr ⟨t, List.mem_filter.mpr ⟨ht, by simpa using hdone⟩, rfl⟩)
    change all.cascade t.id now = [] at hcascade
    rw [cascade_of_done hnodup ht hdone] at hcascade
    exact List.filterMap_eq_nil_iff.mp hcascade u hu
  · rw [Repair.cascades_of_nil hnone] at hlinks
    exact hlinks

/-- What holds of all records still holds of those that are freed or get other dependents; what else
holds of each such change holds of all records that a repair changes. -/
theorem forall_mem_repairs_of_changed {P Q : Task → Prop} (hall : ∀ t ∈ all, P t)
    (hfreed : ∀ id t u, P t → t.freed? id now = some u → P u ∧ Q u)
    (hblocks : ∀ t blocks, P t → P ({ t with blocks }.touch now) ∧ Q ({ t with blocks }.touch now)) :
    ∀ t ∈ all.repairs now, Q t := by
  have hbegin : ({ all : Repair }).All P Q := ⟨hall, fun t ht => nomatch ht⟩
  exact ((hbegin.cascades hfreed _).links hblocks).2

/-- What holds of all records, and still holds of those that are freed or get other dependents,
holds of all records that a repair changes. -/
theorem forall_mem_repairs {P : Task → Prop} (hall : ∀ t ∈ all, P t)
    (hfreed : ∀ id t u, P t → t.freed? id now = some u → P u)
    (hblocks : ∀ t blocks, P t → P ({ t with blocks }.touch now)) : ∀ t ∈ all.repairs now, P t :=
  forall_mem_repairs_of_changed hall (fun id t u ht hfree => and_self_iff.mpr (hfreed id t u ht hfree))
    fun t blocks ht => and_self_iff.mpr (hblocks t blocks ht)

/-- A repair changes records that were there. -/
theorem exists_of_mem_repairs {t : Task} (h : t ∈ all.repairs now) : ∃ u ∈ all, u.id = t.id := by
  refine forall_mem_repairs (P := fun t => ∃ u ∈ all, u.id = t.id) (fun t ht => ⟨t, ht, rfl⟩) ?_
    (fun t blocks ht => ht) t h
  rintro id t u ⟨v, hv, hid⟩ hfreed
  exact ⟨v, hv, hid.trans (Task.sameLinks_of_freed? hfreed).1.symm⟩

section Updated
variable {upd : Task → Option Task} (hupd : ∀ t u, upd t = some u → t.SameLinks u)
include hupd

theorem sameLinks_getD (t : Task) : t.SameLinks ((upd t).getD t) := by
  cases h : upd t with
  | none => exact .refl t
  | some u => exact hupd t u h

theorem map_id_updated (all : Snapshot) :
    (all.map fun t => (upd t).getD t).map Task.id = all.map Task.id :=
  map_id_of_sameLinks fun t _ => sameLinks_getD hupd t

end Updated

theorem nodup_filterMap {upd : Task → Option Task} (hid : ∀ t u, upd t = some u → u.id = t.id)
    (hnodup : (all.map Task.id).Nodup) : ((all.filterMap upd).map Task.id).Nodup := by
  rw [List.nodup_iff_pairwise_ne, List.pairwise_map] at hnodup ⊢
  rw [List.pairwise_filterMap]
  refine hnodup.imp fun {t t'} hne u hu u' hu' => ?_
  rwa [hid t u hu, hid t' u' hu']

/-- Where only the completion of one task is still to be carried on, a repair does this. -/
theorem repairs_of_one (hnodup : (all.map Task.id).Nodup) {d : Task} (hd : d ∈ all)
    (hdone : d.state = .done)
    (hsettled : ∀ t ∈ all, t.state = .done → t.id ≠ d.id → ∀ u ∈ all, u.freed? t.id now = none)
    (hlinks : all.staleBlocks now = []) :
    all.repairs now = all.filterMap (Task.freed? d.id now) := by
  have hfreed : ∀ t u : Task, t.freed? d.id now = some u → t.SameLinks u :=
    fun _ _ => Task.sameLinks_of_freed?
  have hid : ∀ t u : Task, t.freed? d.id now = some u → u.id = t.id := fun t u h => (hfreed t u h).1
  -- the only step of the repair that finds something
  have hstep : ({ all : Repair }).apply (all.cascade d.id now) =
      ⟨all.map fun t => (t.freed? d.id now).getD t, all.filterMap (Task.freed? d.id now)⟩ := by
    rw [cascade_of_done hnodup hd hdone, Repair.apply, upsertAll_filterMap hid hnodup,
      upsertAll_of_nodup (by simpa using nodup_filterMap hid hnodup)]
    rfl
  have hnone : ∀ t ∈ all, t.state = .done → t.id ≠ d.id → all.cascade t.id now = [] :=
    fun t ht htdone hne => cascade_eq_nil (hsettled t ht htdone hne)
  -- the ids before that of the task, and those after it
  have hdoneIds : ∀ id, id ∈ (all.filter (·.state = .done)).map Task.id ↔
      ∃ t ∈ all, t.state = .done ∧ t.id = id := by simp [and_assoc]
  obtain ⟨before, after, hsplit, hbefore⟩ :=
    List.eq_append_cons_of_mem ((hdoneIds d.id).mpr ⟨d, hd, hdone, rfl⟩)
  have hids : ∀ id ∈ before ++ d.id :: after, ∃ t ∈ all, t.state = .done ∧ t.id = id :=
    fun id hmem => (hdoneIds id).mp (hsplit ▸ hmem)
  have hfirst : ({ all : Repair }).cascades now before = { all } := by
    refine Repair.cascades_of_nil fun id hmem => ?_
    obtain ⟨t, ht, htdone, rfl⟩ := hids id (List.mem_append_left _ hmem)
    exact hnone t ht htdone fun heq => hbefore (heq ▸ hmem)
  have hlast : ∀ r : Repair, r.all = all.map (fun t => (t.freed? d.id now).getD t) →
      r.cascades now after = r := by
    intro r hr
    refine Repair.cascades_of_nil fun id hmem => cascade_eq_nil fun u hu => ?_
    obtain ⟨t, ht, htdone, rfl⟩ := hids id (by simp [hmem])
    rw [hr] at hu
    obtain ⟨v, hv, rfl⟩ := List.mem_map.mp hu
    cases hvfreed : v.freed? d.id now with
    | some u => exact Task.freed?_of_freed? hvfreed
    | none =>
      by_cases heq : t.id = d.id
      · rw [heq]
        exact hvfreed
      · exact hsettled t ht htdone heq v hv
  have hcascades : ({ all : Repair }).cascades now ((all.filter (·.state = .done)).map Task.id) =
      ⟨all.map fun t => (t.freed? d.id now).getD t, all.filterMap (Task.freed? d.id now)⟩ := by
    rw [hsplit, Repair.cascades_append, hfirst, Repair.cascades_cons, hstep, hlast _ rfl]
  have hstale : Snapshot.staleBlocks (all.map fun t => (t.freed? d.id now).getD t) now = [] :=
    staleBlocks_map (fun t _ => sameLinks_getD hfreed t) hlinks
  change (Repair.links now (({ all : Repair }).cascades now _)).changed = _
  rw [hcascades, Repair.links, hstale]
  rfl

theorem upsert_eq_map (hnodup : (all.map Task.id).Nodup) {d : Task} (hmem : d.id ∈ all.map Task.id) :
    all.upsert d = all.map fun t => if t.id = d.id then d else t := by
  induction all with
  | nil => cases hmem
  | cons t all ih =>
    obtain ⟨hnot, hnodup⟩ := List.nodup_cons.mp hnodup
    by_cases hid : t.id = d.id
    · have hrest : (all.map fun t => if t.id = d.id then d else t) = all := by
        have hne : ∀ u ∈ all, (if u.id = d.id then d else u) = u := fun u hu =>
          if_neg fun heq => hnot (List.mem_map.mpr ⟨u, hu, heq.trans hid.symm⟩)
        rw [List.map_congr_left hne, List.map_id']
      rw [upsert, if_pos hid, List.map_cons, if_pos hid, hrest]
    · have hmem : d.id ∈ all.map Task.id := by
        obtain h | h := List.mem_cons.mp hmem
        · exact absurd h.symm hid
        · exact h
      rw [upsert, if_neg hid, ih hnodup hmem, List.map_cons, if_neg hid]

theorem nodup_upsert (hnodup : (all.map Task.id).Nodup) {d : Task} (hmem : d.id ∈ all.map Task.id) :
    ((all.upsert d).map Task.id).Nodup := by
  rw [upsert_eq_map hnodup hmem, List.map_map]
  have hid : ∀ t ∈ all, (Task.id ∘ fun t => if t.id = d.id then d else t) t = t.id := by
    intro t _
    by_cases h : t.id = d.id <;> simp [h]
  rwa [List.map_congr_left hid]

theorem nodup_cascade (hnodup : (all.map Task.id).Nodup) (id : String) :
    ((all.cascade id now).map Task.id).Nodup := by
  unfold cascade
  split
  · exact List.nodup_nil
  · exact nodup_filterMap (fun t u h => (Task.sameLinks_of_freed? h).1) hnodup

/-- If some of the tasks that a completion frees have been updated already, a repair updates
the others. -/
theorem repairs_of_rest (hnodup : (all.map Task.id).Nodup) {d : Task} (hd : d ∈ all)
    (hdone : d.state = .done)
    (hsettled : ∀ t ∈ all, t.state = .done → t.id ≠ d.id → ∀ u ∈ all, u.freed? t.id now = none)
    (hlinks : all.staleBlocks now = []) (p : Task → Bool) :
    Snapshot.repairs (Snapshot.upsertAll ((all.filterMap (Task.freed? d.id now)).filter p) all) now =
      (all.filterMap (Task.freed? d.id now)).filter fun t => !p t := by
  let upd (t : Task) : Option Task := (t.freed? d.id now).filter p
  have hupd : ∀ t u, upd t = some u → t.freed? d.id now = some u := fun t u h =>
    (Option.filter_eq_some_iff.mp h).1
  have hsame : ∀ t u, upd t = some u → t.SameLinks u := fun t u h =>
    Task.sameLinks_of_freed? (hupd t u h)
  have hfilter : (all.filterMap (Task.freed? d.id now)).filter p = all.filterMap upd :=
    List.filter_filterMap
  rw [hfilter, upsertAll_filterMap (fun t u h => (hsame t u h).1) hnodup]
  -- a task that has been updated is not freed by any completion
  have hafter : ∀ t, (upd t).getD t = t ∨
      ((upd t).getD t).state ≠ .done ∧ ∀ id, ((upd t).getD t).freed? id now = none := by
    intro t
    cases h : upd t with
    | none => exact .inl rfl
    | some u =>
      exact .inr ⟨(Task.not_waiting_of_freed? (hupd t u h)).2.2.1,
        fun id => Task.freed?_of_freed? (hupd t u h)⟩
  have hfree : d.freed? d.id now = none := Task.freed?_of_isTerminal (by rw [hdone]; rfl)
  have hd' : d ∈ all.map fun t => (upd t).getD t :=
    List.mem_map.mpr ⟨d, hd, by simp [upd, hfree]⟩
  rw [repairs_of_one (map_id_updated hsame all ▸ hnodup) hd' hdone ?_
    (staleBlocks_map (fun t _ => sameLinks_getD hsame t) hlinks)]
  · rw [List.filterMap_map, List.filter_filterMap]
    refine List.filterMap_congr fun t _ => ?_
    change ((upd t).getD t).freed? d.id now = _
    cases h : t.freed? d.id now with
    | none => simp [upd, h]
    | some u =>
      by_cases hp : p u = true
      · simp [upd, h, hp, Option.filter, Task.freed?_of_freed? h]
      · simp [upd, h, hp, Option.filter]
  · intro t ht htdone hne u hu
    obtain ⟨t, htall, rfl⟩ := List.mem_map.mp ht
    obtain ⟨u, huall, rfl⟩ := List.mem_map.mp hu
    obtain heq | ⟨hopen, -⟩ := hafter t
    · rw [heq] at htdone hne ⊢
      obtain hu | ⟨-, hu⟩ := hafter u
      · rw [hu]
        exact hsettled t htall htdone hne u huall
      · exact hu t.id
    · exact absurd htdone hopen

/-- After a task was completed in a snapshot where nothing was left to repair, and some of the
tasks that this frees were updated, a repair updates the others. -/
theorem repairs_after_completion (hnodup : (all.map Task.id).Nodup) (hnil : all.repairs now = [])
    {a d : Task} (ha : a ∈ all) (hlinks : a.SameLinks d) (hdone : d.state = .done) (p : Task → Bool) :
    Snapshot.repairs (Snapshot.upsertAll (((all.upsert d).cascade d.id now).filter p) (all.upsert d)) now =
      ((all.upsert d).cascade d.id now).filter fun t => !p t := by
  obtain ⟨hsettled, hstale⟩ := settled_of_repairs hnodup hnil
  have hmem : d.id ∈ all.map Task.id := List.mem_map.mpr ⟨a, ha, hlinks.1.symm⟩
  have hupsert := upsert_eq_map hnodup hmem
  have hnodup' := nodup_upsert hnodup hmem
  have hsame : ∀ t ∈ all, t.SameLinks (if t.id = d.id then d else t) := by
    intro t ht
    split
    · rename_i hid
      rwa [eq_of_mem_of_id hnodup ht ha (hid.trans hlinks.1)]
    · exact .refl t
  have hd : d ∈ all.upsert d := by
    rw [hupsert]
    exact List.mem_map.mpr ⟨a, ha, if_pos hlinks.1.symm⟩
  have hafter : ∀ t ∈ all.upsert d, t = d ∨ t ∈ all := by
    intro t ht
    rw [hupsert] at ht
    obtain ⟨u, hu, rfl⟩ := List.mem_map.mp ht
    split
    · exact .inl rfl
    · exact .inr hu
  rw [cascade_of_done hnodup' hd hdone]
  refine repairs_of_rest hnodup' hd hdone (fun t ht htdone hne u hu => ?_)
    (hupsert ▸ staleBlocks_map hsame hstale) p
  obtain rfl | ht := hafter t ht
  · exact absurd rfl hne
  · obtain rfl | hu := hafter u hu
    · exact Task.freed?_of_isTerminal (by rw [hdone]; rfl)
    · exact hsettled t ht htdone u hu

end Snapshot

end Workboard
