import Workboard.Proofs.Graph.Repairing

/-!
# What a repair leaves

A repair goes once through the tasks that are done and lets the dependents of each go on, and
then puts the noted dependents right. One pass is enough: a task that was freed is not freed
again, freeing changes nobody's links, and correcting the noted dependents frees nobody. Main
statement: after a repair there is nothing left to repair, at any instant.
-/
namespace Workboard

namespace Task
variable {id : String} {ids : List String} {now : Instant} {t u : Task}

/-- What a repair may change in a task: a wait may be over, and the noted dependents and the time
of the last change may be others. -/
structure Repaired (t u : Task) : Prop where
  state : u.state = t.state ∨ t.state = .waiting ∧ u.state = .todo
  others : u = { t with
    state := u.state, waitingFor := u.waitingFor, blocks := u.blocks, updatedAt := u.updatedAt }

theorem Repaired.refl (t : Task) : t.Repaired t := ⟨.inl rfl, rfl⟩

theorem Repaired.trans {v : Task} (h : t.Repaired u) (h' : u.Repaired v) : t.Repaired v := by
  refine ⟨?_, ?_⟩
  · obtain hu | ⟨hwaiting, hu⟩ := h.state
    · rw [← hu]
      exact h'.state
    · obtain hv | ⟨hv, -⟩ := h'.state
      · exact .inr ⟨hwaiting, hv.trans hu⟩
      · rw [hu] at hv
        cases hv
  · have hv := h'.others
    rw [h.others] at hv
    exact hv

theorem Repaired.id_eq (h : t.Repaired u) : u.id = t.id := by
  rw [h.others]

theorem Repaired.requires_eq (h : t.Repaired u) : u.requires = t.requires := by
  rw [h.others]

/-- A done task stays done, and no other task is done by a repair. -/
theorem Repaired.done_iff (h : t.Repaired u) : u.state = .done ↔ t.state = .done := by
  obtain hu | ⟨hwaiting, hu⟩ := h.state
  · rw [hu]
  · simp [hwaiting, hu]

theorem repaired_of_freed? (h : t.freed? id now = some u) : t.Repaired u := by
  rw [freed?, Option.ite_none_right_eq_some] at h
  obtain ⟨-, h⟩ := h
  unfold Snapshot.unblocked? at h
  by_cases hfor : t.waitingFor = some id
  · simp only [if_pos hfor] at h
    by_cases hstate : t.state = .waiting
    · rw [if_pos (by simp [hstate]), Option.some.injEq] at h
      subst h
      exact ⟨.inr ⟨hstate, by simp [moved, touch]⟩, by simp [moved, touch, hstate]⟩
    · rw [if_neg (by simp [hstate]), Option.some.injEq] at h
      subst h
      exact ⟨.inl rfl, rfl⟩
  · simp only [if_neg hfor, Option.ite_none_right_eq_some, Bool.and_eq_true,
      decide_eq_true_eq, Option.some.injEq] at h
    obtain ⟨⟨hstate, -⟩, rfl⟩ := h
    exact ⟨.inr ⟨hstate, by simp [moved, touch]⟩, by simp [moved, touch, hstate]⟩

/-- The task is not at its end and waits for `id`, or it waits for nothing but its requirements, and
`id` is one of them. -/
def Awaits (id : String) (t : Task) : Prop :=
  t.id ≠ id ∧ t.state.isTerminal = false ∧
    (t.waitingFor = some id ∨ t.state = .waiting ∧ t.waitingFor = none ∧ id ∈ t.requires)

/-- Exactly the tasks that await an id are freed by its completion, whenever it is. -/
theorem freed?_eq_none_iff : t.freed? id now = none ↔ ¬ t.Awaits id := by
  unfold freed? Snapshot.unblocked? Awaits
  by_cases hfor : t.waitingFor = some id
  · by_cases hstate : t.state = .waiting <;> simp [hfor, hstate]
  · by_cases hstate : t.state = .waiting <;> simp [hfor, hstate]
    tauto

/-- The task once each of the ids, one after the other, has let it go on. -/
def settled (ids : List String) (now : Instant) (t : Task) : Task :=
  ids.foldl (fun t id => (t.freed? id now).getD t) t

@[simp] theorem settled_nil : t.settled [] now = t := rfl

theorem settled_cons : t.settled (id :: ids) now = ((t.freed? id now).getD t).settled ids now := rfl

theorem settled_of_forall (h : ∀ id ∈ ids, t.freed? id now = none) : t.settled ids now = t := by
  induction ids with
  | nil => rfl
  | cons id ids ih =>
    rw [settled_cons, h id List.mem_cons_self]
    exact ih fun other ho => h other (List.mem_cons_of_mem _ ho)

/-- The first id that frees the task is the only one. -/
theorem settled_cases (t : Task) (ids : List String) (now : Instant) :
    (t.settled ids now = t ∧ ∀ id ∈ ids, t.freed? id now = none) ∨
      ∃ id ∈ ids, t.freed? id now = some (t.settled ids now) := by
  induction ids with
  | nil => exact .inl ⟨rfl, fun id hid => by cases hid⟩
  | cons id ids ih =>
    rw [settled_cons]
    cases hfreed : t.freed? id now with
    | none =>
      obtain ⟨hsame, hnone⟩ | ⟨other, hother, hfree⟩ := ih
      · exact .inl ⟨hsame, List.forall_mem_cons.mpr ⟨hfreed, hnone⟩⟩
      · exact .inr ⟨other, List.mem_cons_of_mem _ hother, hfree⟩
    | some u =>
      have hrest : u.settled ids now = u := settled_of_forall fun other _ => freed?_of_freed? hfreed
      exact .inr ⟨id, List.mem_cons_self, by rw [Option.getD_some, hrest, hfreed]⟩

theorem repaired_settled (t : Task) (ids : List String) (now : Instant) :
    t.Repaired (t.settled ids now) := by
  obtain ⟨hsame, -⟩ | ⟨id, -, hfree⟩ := settled_cases t ids now
  · rw [hsame]
    exact .refl t
  · exact repaired_of_freed? hfree

/-- None of the ids frees the task once more. -/
theorem not_awaits_settled (hid : id ∈ ids) : ¬ (t.settled ids now).Awaits id := by
  obtain ⟨hsame, hnone⟩ | ⟨other, -, hfree⟩ := settled_cases t ids now
  · rw [hsame]
    exact freed?_eq_none_iff.mp (hnone id hid)
  · exact freed?_eq_none_iff.mp (@freed?_of_freed? _ id _ _ _ hfree)

/-- The task with its noted dependents put right, if they were not. -/
def relinked (all : Snapshot) (now : Instant) (t : Task) : Task :=
  if t.blocks = all.requirers t.id then t else { t with blocks := all.requirers t.id }.touch now

theorem repaired_relinked (all : Snapshot) (now : Instant) (t : Task) :
    t.Repaired (t.relinked all now) := by
  unfold relinked
  split
  · exact .refl t
  · exact ⟨.inl rfl, rfl⟩

theorem blocks_relinked (all : Snapshot) (now : Instant) (t : Task) :
    (t.relinked all now).blocks = all.requirers t.id := by
  unfold relinked
  split
  · assumption
  · rfl

theorem awaits_relinked {all : Snapshot} : (t.relinked all now).Awaits id ↔ t.Awaits id := by
  unfold relinked
  split <;> exact Iff.rfl

end Task

namespace Snapshot
variable {all changed : Snapshot} {t u : Task} {ts : List Task}

section Upsert

/-- Later updates of a record count. -/
theorem upsert_upsert (h : u.id = t.id) : (all.upsert u).upsert t = all.upsert t := by
  induction all with
  | nil => simp [upsert, h]
  | cons v all ih =>
    by_cases hv : v.id = t.id
    · simp [upsert, hv, h]
    · have hu : v.id ≠ u.id := fun heq => hv (heq.trans h)
      simp [upsert, hv, hu, ih]

/-- Updates of different records can be made in any order. -/
theorem upsert_comm (h : u.id ≠ t.id) (hmem : t.id ∈ all.map Task.id) :
    (all.upsert u).upsert t = (all.upsert t).upsert u := by
  induction all with
  | nil => cases hmem
  | cons v all ih =>
    by_cases hv : v.id = t.id
    · have hu : v.id ≠ u.id := fun heq => h (heq.symm.trans hv)
      simp [upsert, hv, h.symm]
    · by_cases hu : v.id = u.id
      · simp [upsert, hu, h]
      · have hmem : t.id ∈ all.map Task.id := (List.mem_cons.mp hmem).resolve_left (Ne.symm hv)
        simp [upsert, hv, hu, ih hmem]

theorem map_id_upsert (h : t.id ∈ all.map Task.id) : (all.upsert t).map Task.id = all.map Task.id := by
  induction all with
  | nil => cases h
  | cons v all ih =>
    by_cases hv : v.id = t.id
    · simp [upsert, hv]
    · have h : t.id ∈ all.map Task.id := (List.mem_cons.mp h).resolve_left (Ne.symm hv)
      simp only [upsert, if_neg hv, List.map_cons, ih h]

theorem map_id_upsertAll (h : ∀ t ∈ ts, t.id ∈ all.map Task.id) :
    (Snapshot.upsertAll ts all).map Task.id = all.map Task.id := by
  induction ts generalizing all with
  | nil => rfl
  | cons t ts ih =>
    have hsame := map_id_upsert (h t List.mem_cons_self)
    change (Snapshot.upsertAll ts (upsert t all)).map Task.id = _
    rw [ih fun u hu => hsame ▸ h u (List.mem_cons_of_mem _ hu), hsame]

/-- An update of another record can be made before some updates or after them. -/
theorem upsert_upsertAll (h : ∀ u ∈ ts, u.id ≠ t.id) (hmem : t.id ∈ all.map Task.id)
    (hts : ∀ u ∈ ts, u.id ∈ all.map Task.id) :
    (Snapshot.upsertAll ts all).upsert t = Snapshot.upsertAll ts (all.upsert t) := by
  induction ts generalizing all with
  | nil => rfl
  | cons u ts ih =>
    have hsame := map_id_upsert (hts u List.mem_cons_self)
    change (Snapshot.upsertAll ts (upsert u all)).upsert t = Snapshot.upsertAll ts ((upsert t all).upsert u)
    rw [ih (fun v hv => h v (List.mem_cons_of_mem _ hv)) (hsame ▸ hmem)
      fun v hv => hsame ▸ hts v (List.mem_cons_of_mem _ hv), upsert_comm (h u List.mem_cons_self) hmem]

end Upsert

theorem nodup_map_id_upsert (hnodup : (all.map Task.id).Nodup) : ((all.upsert t).map Task.id).Nodup := by
  by_cases hmem : t.id ∈ all.map Task.id
  · rwa [map_id_upsert hmem]
  · have hnew : ((all ++ [t]).map Task.id).Nodup := by
      rw [List.map_append, List.nodup_append]
      refine ⟨hnodup, List.nodup_singleton _, fun id hid other ho heq => hmem ?_⟩
      rwa [← List.mem_singleton.mp ho, ← heq]
    have happend : all.upsert t = all ++ [t] := @upsertAll_of_nodup _ [t] hnew
    rwa [happend]

theorem mem_upsert_self (t : Task) (all : Snapshot) : t ∈ all.upsert t := by
  induction all with
  | nil => exact List.mem_singleton_self t
  | cons v all ih =>
    rw [upsert]
    split
    · exact List.mem_cons_self
    · exact List.mem_cons_of_mem _ ih

theorem mem_upsert_of_ne (h : u ∈ all) (hne : u.id ≠ t.id) : u ∈ all.upsert t := by
  induction all with
  | nil => cases h
  | cons v all ih =>
    rw [upsert]
    obtain rfl | h := List.mem_cons.mp h
    · rw [if_neg hne]
      exact List.mem_cons_self
    · split
      · exact List.mem_cons_of_mem _ h
      · exact List.mem_cons_of_mem _ (ih h)

/-- Updates of different records are all there in the end. -/
theorem mem_upsertAll_of_nodup (hnodup : (ts.map Task.id).Nodup) (h : t ∈ ts ∨ t ∈ all ∧ t.id ∉ ts.map Task.id) :
    t ∈ Snapshot.upsertAll ts all := by
  induction ts generalizing all with
  | nil => simpa [Snapshot.upsertAll] using h
  | cons u ts ih =>
    obtain ⟨hnot, hnodup⟩ := List.nodup_cons.mp hnodup
    refine @ih (all.upsert u) hnodup ?_
    obtain h | ⟨h, hother⟩ := h
    · obtain rfl | h := List.mem_cons.mp h
      · exact .inr ⟨mem_upsert_self t all, hnot⟩
      · exact .inl h
    · rw [List.map_cons, List.mem_cons, not_or] at hother
      exact .inr ⟨mem_upsert_of_ne h hother.1, hother.2⟩

/-- Updates of a record that was updated before can be made in the place of that update. -/
theorem upsertAll_upsert (hnodup : (changed.map Task.id).Nodup) (hmem : t.id ∈ all.map Task.id)
    (hknown : ∀ u ∈ changed, u.id ∈ all.map Task.id) :
    Snapshot.upsertAll (changed.upsert t) all = (Snapshot.upsertAll changed all).upsert t := by
  induction changed generalizing all with
  | nil => rfl
  | cons c changed ih =>
    obtain ⟨hc, hrest⟩ := List.forall_mem_cons.mp hknown
    obtain ⟨hnot, hnodup⟩ := List.nodup_cons.mp hnodup
    have hsame := map_id_upsert hc
    by_cases hct : c.id = t.id
    · have hother : ∀ u ∈ changed, u.id ≠ t.id := fun u hu heq =>
        hnot (List.mem_map.mpr ⟨u, hu, heq.trans hct.symm⟩)
      have hkept : ∀ u ∈ changed, u.id ∈ (all.upsert c).map Task.id := fun u hu => hsame ▸ hrest u hu
      rw [upsert, if_pos hct]
      change Snapshot.upsertAll changed (all.upsert t) = (Snapshot.upsertAll changed (all.upsert c)).upsert t
      rw [upsert_upsertAll hother (hsame ▸ hmem) hkept, upsert_upsert hct]
    · rw [upsert, if_neg hct]
      exact ih hnodup (hsame ▸ hmem) fun u hu => hsame ▸ hrest u hu

theorem mem_requirers {id other : String} :
    other ∈ all.requirers id ↔ ∃ t ∈ all, t.id = other ∧ id ∈ t.requires := by
  rw [requirers, TextSet.mem_ofList, List.mem_map]
  simp only [List.mem_filter, decide_eq_true_eq, and_assoc, and_comm]

end Snapshot

namespace Repair
variable {all : Snapshot} {r : Repair} {now : Instant} {ids : List String}

/-- The repair of a snapshot has got somewhere: its tasks are those of the snapshot with the
changed ones in their places, and no task is among the changed ones twice. -/
structure Follows (all : Snapshot) (r : Repair) : Prop where
  all_eq : r.all = Snapshot.upsertAll r.changed all
  nodup : (r.changed.map Task.id).Nodup
  known : ∀ t ∈ r.changed, t.id ∈ all.map Task.id

theorem Follows.map_id (h : r.Follows all) : r.all.map Task.id = all.map Task.id := by
  rw [h.all_eq, Snapshot.map_id_upsertAll h.known]

theorem Follows.apply (h : r.Follows all) {ts : List Task} (hts : ∀ t ∈ ts, t.id ∈ all.map Task.id) :
    (r.apply ts).Follows all := by
  induction ts generalizing r with
  | nil => exact h
  | cons t ts ih =>
    obtain ⟨ht, hts⟩ := List.forall_mem_cons.mp hts
    refine @ih ⟨r.all.upsert t, r.changed.upsert t⟩ ⟨?_, ?_, fun u hu => ?_⟩ hts
    · rw [Snapshot.upsertAll_upsert h.nodup ht h.known, ← h.all_eq]
    · exact Snapshot.nodup_map_id_upsert h.nodup
    · obtain hu | hu := @Snapshot.mem_upsertAll _ [t] _ hu
      · rw [List.mem_singleton.mp hu]
        exact ht
      · exact h.known u hu

theorem Follows.cascades (h : r.Follows all) (now : Instant) (ids : List String) :
    (r.cascades now ids).Follows all := by
  induction ids generalizing r with
  | nil => exact h
  | cons id ids ih =>
    rw [cascades_cons]
    refine ih (h.apply fun u hu => ?_)
    obtain ⟨t, ht, hfree⟩ := Snapshot.exists_of_mem_cascade hu
    rw [(Task.sameLinks_of_freed? hfree).1, ← h.map_id]
    exact List.mem_map_of_mem ht

theorem Follows.links (h : r.Follows all) (now : Instant) : (r.links now).Follows all := by
  refine h.apply fun u hu => ?_
  obtain ⟨t, ht, hupd⟩ := List.mem_filterMap.mp hu
  simp only [Option.ite_none_left_eq_some, Option.some.injEq] at hupd
  obtain ⟨-, rfl⟩ := hupd
  change t.id ∈ all.map Task.id
  rw [← h.map_id]
  exact List.mem_map_of_mem ht

/-- Every task is let go on by the done tasks, one after the other. -/
theorem all_cascades (hnodup : (r.all.map Task.id).Nodup)
    (hdone : ∀ id ∈ ids, ∃ d ∈ r.all, d.state = .done ∧ d.id = id) :
    (r.cascades now ids).all = r.all.map (Task.settled ids now) := by
  induction ids generalizing r with
  | nil => exact (List.map_id' _).symm
  | cons id ids ih =>
    have hid : ∀ t u : Task, t.freed? id now = some u → u.id = t.id := fun t u h =>
      (Task.sameLinks_of_freed? h).1
    obtain ⟨d, hd, hstate, rfl⟩ := hdone id List.mem_cons_self
    -- what the first id does to every task
    have hfirst : (r.apply (r.all.cascade d.id now)).all = r.all.map fun t => (t.freed? d.id now).getD t := by
      rw [Snapshot.cascade_of_done hnodup hd hstate]
      exact Snapshot.upsertAll_filterMap hid hnodup
    rw [cascades_cons, ih, hfirst, List.map_map]
    · rfl
    · rw [hfirst, Snapshot.map_id_updated fun _ _ => Task.sameLinks_of_freed?]
      exact hnodup
    · intro other ho
      obtain ⟨e, he, hedone, rfl⟩ := hdone other (List.mem_cons_of_mem _ ho)
      have hkept : e.freed? d.id now = none := Task.freed?_of_isTerminal (by rw [hedone]; rfl)
      rw [hfirst]
      exact ⟨e, List.mem_map.mpr ⟨e, he, by rw [hkept, Option.getD_none]⟩, hedone, rfl⟩

/-- The noted dependents of every task are put right. -/
theorem all_links (hnodup : (r.all.map Task.id).Nodup) :
    (r.links now).all = r.all.map (Task.relinked r.all now) := by
  refine (Snapshot.upsertAll_filterMap (fun t u h => ?_) hnodup).trans (List.map_congr_left fun t _ => ?_)
  · simp only [Option.ite_none_left_eq_some, Option.some.injEq] at h
    rw [← h.2]
    rfl
  · simp only [Task.relinked]
    split <;> rfl

end Repair

namespace Snapshot
variable {all : Snapshot} {now later : Instant} {t u : Task}

/-- The ids of the tasks that are done. -/
def doneIds (all : Snapshot) : List String := (all.filter (·.state = .done)).map Task.id

theorem mem_doneIds {id : String} : id ∈ all.doneIds ↔ ∃ t ∈ all, t.state = .done ∧ t.id = id := by
  simp [doneIds, and_assoc]

/-- A snapshot after its repair. -/
def repaired (all : Snapshot) (now : Instant) : Snapshot :=
  let freed := all.map (Task.settled all.doneIds now)
  freed.map (Task.relinked freed now)

/-- What a repair of the snapshot makes of a task. -/
theorem exists_repaired (all : Snapshot) (now : Instant) :
    ∃ φ : Task → Task, (∀ t : Task, t.Repaired (φ t)) ∧ all.repaired now = all.map φ :=
  ⟨_, fun t => (t.repaired_settled _ _).trans (Task.repaired_relinked _ _ _), List.map_map⟩

theorem follows_cascades (all : Snapshot) (now : Instant) :
    (({ all : Repair }).cascades now all.doneIds).Follows all :=
  have hbegin : ({ all : Repair }).Follows all := ⟨rfl, List.nodup_nil, fun t ht => by cases ht⟩
  hbegin.cascades now all.doneIds

/-- With the tasks that a repair changes in their places, the snapshot is repaired. -/
theorem upsertAll_repairs (hnodup : (all.map Task.id).Nodup) (now : Instant) :
    Snapshot.upsertAll (all.repairs now) all = all.repaired now := by
  have hcascades := follows_cascades all now
  have hdone : ∀ id ∈ all.doneIds, ∃ d ∈ all, d.state = .done ∧ d.id = id := fun id => mem_doneIds.mp
  refine (hcascades.links now).all_eq.symm.trans ?_
  rw [Repair.all_links (hcascades.map_id ▸ hnodup), Repair.all_cascades hnodup hdone]
  rfl

theorem mem_repaired_of_mem_repairs (hnodup : (all.map Task.id).Nodup) (h : t ∈ all.repairs now) :
    t ∈ all.repaired now := by
  rw [← upsertAll_repairs hnodup]
  exact mem_upsertAll_of_nodup ((follows_cascades all now).links now).nodup (.inl h)

/-- No done task has anybody to let go on, and the noted dependents are right. -/
structure IsSettled (all : Snapshot) : Prop where
  nobody : ∀ d ∈ all, d.state = .done → ∀ t ∈ all, ¬ t.Awaits d.id
  blocks : ∀ t ∈ all, t.blocks = all.requirers t.id

/-- One pass of a repair settles everything. -/
theorem isSettled_repaired (all : Snapshot) (now : Instant) : (all.repaired now).IsSettled := by
  refine ⟨fun d hd hdone t ht => ?_, fun t ht => ?_⟩
  · obtain ⟨d, hdfreed, rfl⟩ := List.mem_map.mp hd
    obtain ⟨d, hdall, rfl⟩ := List.mem_map.mp hdfreed
    obtain ⟨t, htfreed, rfl⟩ := List.mem_map.mp ht
    obtain ⟨t, -, rfl⟩ := List.mem_map.mp htfreed
    have hrepaired := (d.repaired_settled all.doneIds now).trans
      (Task.repaired_relinked (all.map (Task.settled all.doneIds now)) now _)
    rw [Task.awaits_relinked, hrepaired.id_eq]
    exact Task.not_awaits_settled (mem_doneIds.mpr ⟨d, hdall, hrepaired.done_iff.mp hdone, rfl⟩)
  · have hlinks : ∀ t ∈ all.map (Task.settled all.doneIds now),
        (t.relinked (all.map (Task.settled all.doneIds now)) now).id = t.id ∧
          (t.relinked (all.map (Task.settled all.doneIds now)) now).requires = t.requires := fun t _ =>
      have hrepaired := Task.repaired_relinked (all.map (Task.settled all.doneIds now)) now t
      ⟨hrepaired.id_eq, hrepaired.requires_eq⟩
    obtain ⟨t, -, rfl⟩ := List.mem_map.mp ht
    rw [Task.blocks_relinked, (Task.repaired_relinked _ now t).id_eq]
    exact (requirers_map hlinks _).symm

/-- Where everything is settled, there is nothing to repair. -/
theorem IsSettled.repairs_eq_nil (h : all.IsSettled) (now : Instant) : all.repairs now = [] := by
  have hcascades : ∀ id ∈ all.doneIds, all.cascade id now = [] := by
    intro id hid
    obtain ⟨d, hd, hdone, rfl⟩ := mem_doneIds.mp hid
    exact cascade_eq_nil fun t ht => Task.freed?_eq_none_iff.mpr (h.nobody d hd hdone t ht)
  have hlinks : all.staleBlocks now = [] :=
    List.filterMap_eq_nil_iff.mpr fun t ht => if_pos (h.blocks t ht)
  have hnone : ({ all : Repair }).cascades now all.doneIds = { all } := Repair.cascades_of_nil hcascades
  change (Repair.links now (({ all : Repair }).cascades now all.doneIds)).changed = []
  rw [hnone, Repair.links, hlinks]
  rfl

end Snapshot

end Workboard
