import Workboard.Proofs.Board.Lifetimes
import Workboard.Proofs.Graph.Components

/-!
# Boards without cycles

Requirements change where a task is inserted or its requirements are set, and there the cycle is
looked for that the task would be on. An absent task that others require already gets its place in
the graph only when it is inserted, with the edges in both directions at once. Main statement: no run
of turns on an empty board makes a cycle, and a task is refused for a cycle exactly if it would be on
one.
-/
namespace Workboard
open Relation

/-- If a relation differs from another one at `x` only, and leads from `x` never back to it, then its
cycles are cycles of the other one. -/
theorem transGen_of_not_through {α : Type} {R R' : α → α → Prop} {x : α}
    (hstep : ∀ a c, R' a c → a ≠ x → c ≠ x → R a c) (hx : ¬ TransGen R' x x) {a : α} (h : TransGen R' a a) :
    TransGen R a a := by
  have hcases : ∀ c, TransGen R' a c → TransGen R a c ∨ ReflTransGen R' a x ∧ ReflTransGen R' x c := by
    intro c hc
    induction hc with
    | @single c hac =>
      by_cases ha : a = x
      · exact .inr ⟨ha ▸ .refl, ha ▸ .single hac⟩
      · by_cases hcx : c = x
        · exact .inr ⟨hcx ▸ .single hac, hcx ▸ .refl⟩
        · exact .inl (.single (hstep a c hac ha hcx))
    | @tail c d hac hcd ih =>
      obtain hchain | ⟨hax, hxc⟩ := ih
      · by_cases hcx : c = x
        · exact .inr ⟨hcx ▸ hac.to_reflTransGen, hcx ▸ .single hcd⟩
        · by_cases hdx : d = x
          · exact .inr ⟨hdx ▸ (hac.tail hcd).to_reflTransGen, hdx ▸ .refl⟩
          · exact .inl (hchain.tail (hstep c d hcd hcx hdx))
      · exact .inr ⟨hax, hxc.tail hcd⟩
  obtain hchain | ⟨hax, hxa⟩ := hcases a h
  · exact hchain
  · exact absurd ((TransGen.trans_right hxa h).trans_left hax) hx

namespace Snapshot
variable {all : Snapshot} {m : Task} {S S' : Task → Prop} {x y : String}

/-- The step of the graph that some tasks make up. -/
def Links (S : Task → Prop) (x y : String) : Prop := ∃ t u, S t ∧ S u ∧ t.id = x ∧ u.id = y ∧ y ∈ t.requires

/-- Only ids and requirements count. -/
theorem Links.mono (h : ∀ t, S t → ∃ u, S' u ∧ u.id = t.id ∧ u.requires = t.requires) (hxy : Links S x y) :
    Links S' x y := by
  obtain ⟨t, u, ht, hu, rfl, rfl, hmem⟩ := hxy
  obtain ⟨t', ht', htid, hrequires⟩ := h t ht
  obtain ⟨u', hu', huid, -⟩ := h u hu
  exact ⟨t', u', ht', hu', htid, huid, hrequires ▸ hmem⟩

theorem get?_eq_some (hnodup : (all.map Task.id).Nodup) {id : String} {t : Task} :
    all.get? id = some t ↔ t ∈ all ∧ t.id = id := by
  constructor
  · intro h
    refine ⟨List.mem_reverse.mp (List.mem_of_find?_eq_some h), ?_⟩
    simpa using List.find?_some h
  · rintro ⟨ht, rfl⟩
    refine @find?_of_mem all.reverse ?_ t (List.mem_reverse.mpr ht)
    rw [List.map_reverse]
    exact List.nodup_reverse.mpr hnodup

theorem requires_iff (hnodup : (all.map Task.id).Nodup) : all.Requires x y ↔ Links (· ∈ all) x y := by
  rw [Requires, mem_next]
  constructor
  · rintro ⟨t, ht, hmem, hsome⟩
    obtain ⟨ht, htid⟩ := (get?_eq_some hnodup).mp ht
    obtain ⟨u, hu, huid⟩ := isSome_get?.mp hsome
    exact ⟨t, u, ht, hu, htid, huid, hmem⟩
  · rintro ⟨t, u, ht, hu, htid, huid, hmem⟩
    exact ⟨t, (get?_eq_some hnodup).mpr ⟨ht, htid⟩, hmem, isSome_get?.mpr ⟨u, hu, huid⟩⟩

theorem requires_eq (hnodup : (all.map Task.id).Nodup) : all.Requires = Links (· ∈ all) :=
  funext fun _ => funext fun _ => propext (requires_iff hnodup)

/-- The tasks once `m` is among them, in the place of the task of its id. -/
def With (all : Snapshot) (m u : Task) : Prop := u = m ∨ u ∈ all ∧ u.id ≠ m.id

theorem modifyFirst_eq_map (hnodup : (all.map Task.id).Nodup) (id : String) (f : Task → Task) :
    all.modifyFirst id f = all.map fun t => if t.id = id then f t else t := by
  induction all with
  | nil => rfl
  | cons t all ih =>
    obtain ⟨hnot, hnodup⟩ := List.nodup_cons.mp hnodup
    rw [modifyFirst, List.map_cons]
    split
    · rename_i hid
      have hrest : all.map (fun t => if t.id = id then f t else t) = all.map fun t => t :=
        List.map_congr_left fun u hu =>
          if_neg fun heq => hnot (List.mem_map.mpr ⟨u, hu, heq.trans hid.symm⟩)
      rw [hrest, List.map_id']
    · rw [ih hnodup]

/-- The cycle that is looked for is one through `m` once it is among the tasks. -/
theorem cycleWith?_eq_none (hnodup : (all.map Task.id).Nodup) (hmem : m.id ∈ all.map Task.id) :
    all.cycleWith? m.id m.requires = none ↔ ¬ TransGen (Links (all.With m)) m.id m.id := by
  have hmap := modifyFirst_eq_map hnodup m.id fun t => { t with requires := m.requires }
  have hids : (all.modifyFirst m.id fun t => { t with requires := m.requires }).map Task.id = all.map Task.id := by
    rw [hmap, List.map_map]
    refine List.map_congr_left fun t _ => ?_
    simp only [Function.comp_apply]
    split <;> rfl
  have hlinks : ∀ x y, (all.modifyFirst m.id fun t => { t with requires := m.requires }).Requires x y ↔
      Links (all.With m) x y := by
    intro x y
    rw [requires_iff (hids ▸ hnodup), hmap]
    constructor
    · refine Links.mono fun u hu => ?_
      obtain ⟨t, ht, rfl⟩ := List.mem_map.mp hu
      split
      · rename_i hid
        exact ⟨m, .inl rfl, hid.symm, rfl⟩
      · rename_i hid
        exact ⟨t, .inr ⟨ht, hid⟩, rfl, rfl⟩
    · refine Links.mono fun u hu => ?_
      obtain rfl | ⟨hu, hne⟩ := hu
      · obtain ⟨t, ht, hid⟩ := List.mem_map.mp hmem
        exact ⟨_, List.mem_map.mpr ⟨t, ht, if_pos hid⟩, hid, rfl⟩
      · exact ⟨u, List.mem_map.mpr ⟨u, hu, if_neg hne⟩, rfl, rfl⟩
  rw [cycleWith?, cycleOf?_eq_none, not_iff_not, funext fun x => funext fun y => propext (hlinks x y)]

/-- A task that was not there is put behind the others. -/
theorem cycleWith?_append_eq_none (hnodup : (all.map Task.id).Nodup) (hnew : m.id ∉ all.map Task.id) :
    Snapshot.cycleWith? (all ++ [m]) m.id m.requires = none ↔ ¬ TransGen (Links (all.With m)) m.id m.id := by
  have hnodup' : ((all ++ [m]).map Task.id).Nodup := by
    rw [List.map_append, List.nodup_append]
    refine ⟨hnodup, List.nodup_singleton _, fun id hid other ho heq => hnew ?_⟩
    rwa [← List.mem_singleton.mp ho, ← heq]
  have hwith : Snapshot.With (all ++ [m]) m = all.With m := by
    funext u
    refine propext (or_congr_right (and_congr_left fun hne => ?_))
    rw [List.mem_append, List.mem_singleton]
    exact or_iff_left fun heq => hne (congrArg Task.id heq)
  rw [← hwith]
  exact cycleWith?_eq_none hnodup' (by simp)

end Snapshot

namespace Board
open Workboard.Action Snapshot
variable {b : Board} {w w' : World Files} {id : String} {t m : Task} {ds : List Task}

theorem nodup_tasks (hw : w.Steady) (b : Board) : ((b.tasks w).map Task.id).Nodup :=
  Records.nodup_allAt hw.proper b.root

/-- No task leads back to itself. -/
def Acyclic (b : Board) (w : World Files) : Prop := ∀ x, ¬ TransGen (Links (· ∈ b.tasks w)) x x

theorem acyclic_iff (hw : w.Steady) : b.Acyclic w ↔ (b.tasks w).cycles = [] := by
  rw [cycles_eq_nil_iff, requires_eq (nodup_tasks hw b), Acyclic]

theorem Acyclic.mono (h : b.Acyclic w)
    (hsub : ∀ u ∈ b.tasks w', ∃ t ∈ b.tasks w, t.id = u.id ∧ t.requires = u.requires) : b.Acyclic w' :=
  fun x hx => h x (TransGen.mono (fun _ _ => Links.mono hsub) x x hx)

/-- A task that was admitted is on no cycle. -/
theorem Admitted.not_onCycle (h : b.Admitted w m) (hw : w.Steady) :
    ¬ TransGen (Links ((b.tasks w).With m)) m.id m.id := by
  obtain ⟨hnone, hcheck⟩ | ⟨⟨t, ht, hsucceeds⟩, hcheck⟩ := h
  · refine (cycleWith?_append_eq_none (nodup_tasks hw b) fun hmem => ?_).mp hcheck
    obtain ⟨t, ht, hid⟩ := List.mem_map.mp hmem
    obtain ⟨-, content, hcontent, -⟩ := Records.loadAt_eq_ok.mp (Records.mem_allAt.mp ht)
    rw [hid, hnone] at hcontent
    cases hcontent
  · refine (cycleWith?_eq_none (nodup_tasks hw b) ?_).mp hcheck
    rw [hsucceeds.1.id_eq]
    exact List.mem_map_of_mem ht

/-- What an operation saves makes no cycle. -/
theorem Acyclic.of_gradual (h : b.Acyclic w) (hw : w.Steady) (hw' : w'.Steady) (hds : b.Gradual w ds)
    (hsub : ∀ u ∈ b.tasks w', u ∈ b.tasks w ∨ u ∈ ds) : b.Acyclic w' := by
  obtain hds | ⟨m, hm, hds⟩ := hds
  · refine h.mono fun u hu => ?_
    obtain hu | hu := hsub u hu
    · exact ⟨u, hu, rfl, rfl⟩
    · obtain ⟨t, ht, hfollows⟩ := hds u hu
      exact ⟨t, ht, hfollows.1.1.id_eq.symm, hfollows.2.symm⟩
  -- the task is there with its new requirements, or its record is as it was
  by_cases hput : ∃ u ∈ b.tasks w', u.id = m.id ∧ u.requires = m.requires
  · obtain ⟨v, hv, hvid, hvrequires⟩ := hput
    have hlinks : ∀ x y, Links (· ∈ b.tasks w') x y → Links ((b.tasks w).With m) x y := by
      refine fun x y => Links.mono fun u hu => ?_
      by_cases hid : u.id = m.id
      · obtain rfl := eq_of_mem_of_id (nodup_tasks hw' b) hu hv (hid.trans hvid.symm)
        exact ⟨m, .inl rfl, hid.symm, hvrequires.symm⟩
      · obtain hu | hu := hsub u hu
        · exact ⟨u, .inr ⟨hu, hid⟩, rfl, rfl⟩
        · obtain rfl | ⟨now, rfl⟩ | ⟨t, ht, hfollows⟩ := hds u hu
          · exact absurd rfl hid
          · exact absurd rfl hid
          · have htid := hfollows.1.1.id_eq
            exact ⟨t, .inr ⟨ht, fun heq => hid (htid.trans heq)⟩, htid.symm, hfollows.2.symm⟩
    have hstep : ∀ x y, Links ((b.tasks w).With m) x y → x ≠ m.id → y ≠ m.id → Links (· ∈ b.tasks w) x y := by
      rintro x y ⟨t, u, ht, hu, rfl, rfl, hmem⟩ hx hy
      obtain rfl | ⟨ht, -⟩ := ht
      · exact absurd rfl hx
      · obtain rfl | ⟨hu, -⟩ := hu
        · exact absurd rfl hy
        · exact ⟨t, u, ht, hu, rfl, rfl, hmem⟩
    exact fun x hx => h x (transGen_of_not_through hstep (hm.not_onCycle hw) (TransGen.mono hlinks x x hx))
  · refine h.mono fun u hu => ?_
    obtain hu' | hu' := hsub u hu
    · exact ⟨u, hu', rfl, rfl⟩
    · obtain rfl | ⟨now, rfl⟩ | ⟨t, ht, hfollows⟩ := hds u hu'
      · exact absurd ⟨u, hu, rfl, rfl⟩ hput
      · exact absurd ⟨_, hu, rfl, rfl⟩ hput
      · exact ⟨t, ht, hfollows.1.1.id_eq.symm, hfollows.2.symm⟩

/-- No turn makes a cycle. -/
theorem Turn.acyclic {turn : Turn} (hw : w.Steady) (hfaithful : ∀ d ∈ turn.drafts b w, d.Faithful)
    (h : b.Acyclic w) : b.Acyclic (turn.perform b w) := by
  have hwrites := Turn.writes hw hfaithful
  have hopening : b.Acyclic (turn.opening w) := h
  refine hopening.of_gradual (turn.steady_opening hw) hwrites.steady
    (Operation.gradual_drafts turn.operation b (turn.opening w)) fun u hu => ?_
  obtain ⟨-, hload⟩ | hdraft := hwrites.loadAt_cases hfaithful (Records.mem_allAt.mp hu)
  · exact .inl (Records.mem_allAt.mpr hload)
  · exact .inr hdraft

theorem acyclic_afterTurns (hw : w.Steady) {turns : List Turn} (hfaithful : b.FaithfulTurns w turns)
    (h : b.Acyclic w) : b.Acyclic (b.afterTurns w turns) := by
  induction turns generalizing w with
  | nil => exact h
  | cons turn turns ih =>
    exact ih (Turn.writes hw hfaithful.1).steady hfaithful.2 (Turn.acyclic hw hfaithful.1 h)

section Exact
variable {n : NewTask} {parent : Option String}

/-- The world with the record of the task in its place, and nothing else done. -/
def accepting (b : Board) (w : World Files) (t : Task) : World Files :=
  { w with store := w.store.put (Records.path b.root t.id).names (Record.render t) }

theorem mem_tasks_accepting (hvalid : isValidId t.id = true) (hread : t.ReadsBack) {u : Task} :
    u ∈ b.tasks (b.accepting w t) ↔ (b.tasks w).With t u := by
  have hsaved : Records.Saved w.store (b.accepting w t).store b.root t := by
    funext names
    rw [accepting, Files.text?_put, Function.update_apply]
  have hself := hsaved.loadAt_self hvalid hread
  by_cases hid : u.id = t.id
  · have hiff : u ∈ b.tasks (b.accepting w t) ↔ u = t := by
      rw [tasks, Records.mem_allAt, hid, hself, Except.ok.injEq]
      exact eq_comm
    rw [hiff, With]
    exact (or_iff_left fun h => h.2 hid).symm
  · have hiff : u ∈ b.tasks (b.accepting w t) ↔ u ∈ b.tasks w := by
      rw [tasks, tasks, Records.mem_allAt, Records.mem_allAt, hsaved.loadAt_other hid]
    rw [hiff, With]
    exact ⟨fun h => .inr ⟨h, hid⟩, fun h => (h.resolve_left fun heq => hid (congrArg Task.id heq)).1⟩

/-- The action is refused for a cycle exactly if the task would be on one, once its record were in its
place. -/
def RefusesCycle (b : Board) (w : World Files) (a : Action Task) (t : Task) : Prop :=
  a.Ends w fun r _ => (∃ cycle, r = .error (.refused t.id (.wouldCycle cycle))) ↔
    TransGen (b.tasks (b.accepting w t)).Requires t.id t.id

theorem transGen_accepting (hw : w.Steady) (hvalid : isValidId t.id = true) (hread : t.ReadsBack) :
    TransGen (b.tasks (b.accepting w t)).Requires t.id t.id ↔
      TransGen (Links ((b.tasks w).With t)) t.id t.id := by
  have hnodup : ((b.tasks (b.accepting w t)).map Task.id).Nodup :=
    Records.nodup_allAt (Files.proper_put hw.proper _ _) b.root
  have hmem : (· ∈ b.tasks (b.accepting w t)) = (b.tasks w).With t :=
    funext fun u => propext (mem_tasks_accepting hvalid hread)
  rw [requires_eq hnodup, hmem]

theorem ends_insert_refusing (hw : w.Steady)
    (hnew : b.newTask (b.tasks w) n parent (idOfNew w n) w.clock = .ok t) (hvalid : isValidId t.id = true)
    (hfree : Records.holdsAt w.store b.root t.id = false) (hread : t.ReadsBack) :
    b.RefusesCycle w (b.insert n parent) t := by
  have hid := (of_newTask hnew).1
  have hnone : t.id ∉ (b.tasks w).map Task.id := by
    intro hmem
    obtain ⟨u, hu, huid⟩ := List.mem_map.mp hmem
    obtain ⟨-, content, hcontent, -⟩ := Records.loadAt_eq_ok.mp (Records.mem_allAt.mp hu)
    rw [huid, Records.text?_of_holdsAt hfree hvalid] at hcontent
    cases hcontent
  have hcheck := cycleWith?_append_eq_none (nodup_tasks hw b) hnone
  unfold RefusesCycle
  rw [transGen_accepting hw hvalid hread]
  rw [hid] at hcheck hvalid hfree ⊢
  refine ends_insert_new hw (fun hbad => absurd hnew (hbad hvalid hfree t)) (fun u c w' hu hsome _ => ?_)
    (fun u e w' hu hnone hno _ => ?_) fun u w₁ hu hnone _ _ _ => ?_
  all_goals obtain rfl := Except.ok.inj (hnew.symm.trans hu)
  · refine iff_of_true ⟨c, rfl⟩ (by_contra fun hcycle => ?_)
    rw [tasks] at hcheck
    rw [hcheck.mpr hcycle] at hsome
    cases hsome
  · exact iff_of_false (not_exists.mpr fun c hc => hno c (Except.error.inj hc)) (hcheck.mp hnone)
  · refine Ends.of_neverRefuses (neverRefuses_link _ _ _) (ends_of_forall fun r w' hno => ?_)
    have hacyclic := hcheck.mp hnone
    cases r with
    | ok _ =>
      rw [andThen_ok]
      refine ends_pure (iff_of_false ?_ hacyclic)
      rintro ⟨c, hc⟩
      cases hc
    | error e =>
      exact iff_of_false (not_exists.mpr fun c hc => hno _ _ (congrArg Except.error (Except.error.inj hc))) hacyclic

theorem ends_spawn_refusing (hw : w.Steady) {p : Task} {id : String}
    (hload : Records.loadAt w.store b.root id = .ok p) (hopen : p.state.isTerminal = false)
    (hnew : b.newTask (b.tasks w) n (some id) (idOfNew w n) w.clock = .ok t) (hvalid : isValidId t.id = true)
    (hfree : Records.holdsAt w.store b.root t.id = false) (hread : t.ReadsBack) :
    b.RefusesCycle w (b.spawn id n) t := by
  refine ends_bind (Records.ends_load ?_)
  rw [hload, andThen_ok, hopen]
  refine ends_bind ((ends_insert_refusing hw hnew hvalid hfree hread).mono fun r w₁ hiff => ?_)
  cases r with
  | error e => exact hiff
  | ok child =>
    have hacyclic : ¬ TransGen (b.tasks (b.accepting w t)).Requires t.id t.id := by
      refine mt hiff.mpr ?_
      rintro ⟨c, hc⟩
      cases hc
    rw [andThen_ok]
    refine ends_bind (ends_now ?_)
    rw [andThen_ok]
    refine ends_bind (Ends.of_neverRefuses (Records.neverRefuses_save _) (ends_of_forall fun r w₂ hno => ?_))
    cases r with
    | ok _ =>
      rw [andThen_ok]
      refine ends_pure (iff_of_false ?_ hacyclic)
      rintro ⟨c, hc⟩
      cases hc
    | error e =>
      exact iff_of_false (not_exists.mpr fun c hc => hno _ _ (congrArg Except.error (Except.error.inj hc))) hacyclic

theorem ends_editRequires_refusing (hw : w.Steady) {text : String} {now : Instant} {requires : TextSet}
    (hload : Records.loadAt w.store b.root t.id = .ok t) (hrequires : requirementsOf t.id (idsOfText text) = .ok requires)
    (hm : m = Task.touch now { t with requires }) (hread : m.ReadsBack) :
    b.RefusesCycle w (b.editRequires t now text) m := by
  have hid : m.id = t.id := by rw [hm]; rfl
  have hmrequires : m.requires = requires := by rw [hm]; rfl
  obtain ⟨hvalid, -⟩ := Records.loadAt_eq_ok.mp hload
  have hcheck := cycleWith?_eq_none (m := m) (nodup_tasks hw b)
    (hid ▸ List.mem_map_of_mem (Records.mem_allAt_of_loadAt hload))
  rw [hid, hmrequires] at hcheck
  rw [RefusesCycle, transGen_accepting hw (hid ▸ hvalid) hread, hid, editRequires]
  refine ends_bind (ends_settle ?_)
  rw [hrequires, andThen_ok]
  refine ends_bind (Records.ends_scan ?_)
  rw [andThen_ok]
  split
  · rename_i c hsome
    refine ends_throw (iff_of_true ⟨c, rfl⟩ (by_contra fun hcycle => ?_))
    rw [tasks] at hcheck
    rw [hcheck.mpr hcycle] at hsome
    cases hsome
  · rename_i hnone
    rw [← hm]
    refine Ends.of_neverRefuses ((Records.neverRefuses_save _).bind fun _ =>
      (neverRefuses_link _ _ _).bind fun _ => neverRefuses_pure _) (ends_of_forall fun r w₁ hno => ?_)
    refine iff_of_false ?_ (hcheck.mp hnone)
    rintro ⟨c, hc⟩
    exact hno _ _ hc

theorem ends_edit_refusing (hw : w.Steady) {id value : String} {requires : TextSet}
    (hload : Records.loadAt w.store b.root id = .ok t)
    (hrequires : requirementsOf id (idsOfText (Text.trim value)) = .ok requires)
    (hread : (Task.touch w.clock { t with requires }).ReadsBack) :
    b.RefusesCycle w (b.edit id "requires" value) (Task.touch w.clock { t with requires }) := by
  obtain rfl := Records.id_of_loadAt hload
  refine ends_bind (Records.ends_load ?_)
  rw [hload, andThen_ok]
  refine ends_bind (ends_now ?_)
  rw [andThen_ok, if_neg (by decide), if_neg (by decide), if_pos rfl]
  exact ends_editRequires_refusing hw hload hrequires rfl hread

end Exact

/-- No turns on an empty board make a cycle, whatever they fail in; and a task that is created, split off
or given other requirements is refused for a cycle exactly if it would be on one. -/
theorem cycles_avoided (b : Board) :
    (∀ w turns, w.store.entries = [] → b.FaithfulTurns w turns → (b.tasks (b.afterTurns w turns)).cycles = []) ∧
    ∀ w : World Files, w.Steady →
      (∀ n t, b.newTask (b.tasks w) n none (idOfNew w n) w.clock = .ok t → isValidId t.id = true →
        Records.holdsAt w.store b.root t.id = false → t.ReadsBack → b.RefusesCycle w (b.create n) t) ∧
      (∀ id p n t, Records.loadAt w.store b.root id = .ok p → p.state.isTerminal = false →
        b.newTask (b.tasks w) n (some id) (idOfNew w n) w.clock = .ok t → isValidId t.id = true →
        Records.holdsAt w.store b.root t.id = false → t.ReadsBack → b.RefusesCycle w (b.spawn id n) t) ∧
      ∀ id value t requires, Records.loadAt w.store b.root id = .ok t →
        requirementsOf id (idsOfText (Text.trim value)) = .ok requires →
        (Task.touch w.clock { t with requires }).ReadsBack →
        b.RefusesCycle w (b.edit id "requires" value) (Task.touch w.clock { t with requires }) := by
  refine ⟨fun w turns hempty hfaithful => ?_, fun w hw => ⟨?_, ?_, ?_⟩⟩
  · have hnone : ∀ names, w.store.text? names = none := fun names => by
      rw [Files.text?, hempty, List.lookup_nil]
    have hw : w.Steady := ⟨by simp [Files.Proper, hempty], fun _ names _ _ => hnone names⟩
    refine (acyclic_iff (steady_afterTurns hw hfaithful)).mp (acyclic_afterTurns hw hfaithful fun x hx => ?_)
    obtain ⟨t, _, ht, _⟩ : ∃ t u, t ∈ b.tasks w ∧ u ∈ b.tasks w := by
      cases hx with
      | single hstep => exact ⟨_, _, hstep.choose_spec.choose_spec.1, hstep.choose_spec.choose_spec.2.1⟩
      | tail _ hstep => exact ⟨_, _, hstep.choose_spec.choose_spec.1, hstep.choose_spec.choose_spec.2.1⟩
    obtain ⟨-, content, hcontent, -⟩ := Records.loadAt_eq_ok.mp (Records.mem_allAt.mp ht)
    rw [hnone] at hcontent
    cases hcontent
  · exact fun n t => ends_insert_refusing hw
  · exact fun id p n t => ends_spawn_refusing hw
  · exact fun id value t requires => ends_edit_refusing hw

section Lone

/-- A world in which a task requires one that is not there yet. -/
def promised : World Files :=
  ⟨⟨[(["/", "store", "tasks", "a.md"], "---\nid: a\ntitle: A\nstate: todo\nrequires:\n- c\n" ++
      "created_at: 2025-03-01T09:00:00Z\nupdated_at: 2025-03-01T09:00:00Z\n---\n")], []⟩, Lone.begun, 0, 4, 0⟩

def promising : Task :=
  { id := "a", title := "A", state := .todo, requires := .ofList ["c"], createdAt := Lone.begun, updatedAt := Lone.begun }

/-- The task that is not there yet, which requires the other one. -/
def asked : Task :=
  { id := "c", title := "C", state := .todo, requires := .ofList ["a"], blocks := .ofList ["a"],
    createdAt := Lone.begun, updatedAt := Lone.begun }

def asking : NewTask := { id := some "c", title := "C", requires := ["a"] }

theorem steady_promised : promised.Steady := by
  refine World.steady_of_isPublic (by unfold Files.Proper; decide) fun names hnames => ?_
  simp only [promised, List.map_cons, List.map_nil, List.mem_cons, List.not_mem_nil, or_false] at hnames
  obtain rfl := hnames
  exact isPublic_of_getLast? rfl (by decide)

theorem tasks_promised : Lone.board.tasks promised = [promising] := by decide +kernel

theorem readsBack_promising : promising.ReadsBack := by
  unfold Task.ReadsBack
  decide +kernel

theorem cycles_avoided_promised :
    (Lone.board.tasks (Lone.board.afterTurns ⟨⟨[], []⟩, Lone.begun, 0, 4, 0⟩
      [⟨Lone.begun, [], .create { id := some "a", title := "A", requires := ["c"] }⟩])).cycles = [] ∧
    Lone.board.RefusesCycle promised (Lone.board.create asking) asked ∧
    Lone.board.RefusesCycle promised (Lone.board.spawn "a" asking) { asked with spawnedFrom := some "a" } ∧
    Lone.board.RefusesCycle promised (Lone.board.edit "a" "requires" "c") promising := by
  obtain ⟨hrun, hexact⟩ := cycles_avoided Lone.board
  obtain ⟨hcreate, hspawn, hedit⟩ := hexact promised steady_promised
  have hmem : promising ∈ Records.allAt promised.store Lone.board.root := by
    rw [← Board.tasks, tasks_promised]
    exact List.mem_singleton_self _
  have hid : promising.id = "a" := rfl
  have hload := Records.mem_allAt.mp hmem
  rw [hid] at hload
  refine ⟨hrun _ _ rfl ⟨?_, trivial⟩, hcreate asking asked ?_ rfl (by decide +kernel) ?_,
    hspawn "a" promising asking _ hload rfl ?_ rfl (by decide +kernel) ?_,
    ?_⟩
  · have hdrafts : (Turn.mk Lone.begun [] (.create { id := some "a", title := "A", requires := ["c"] })).drafts
        Lone.board ⟨⟨[], []⟩, Lone.begun, 0, 4, 0⟩ = [promising] := by decide +kernel
    rw [hdrafts]
    exact List.forall_mem_singleton.mpr readsBack_promising.faithful
  · rw [tasks_promised]
    decide +kernel
  · unfold Task.ReadsBack
    decide +kernel
  · rw [tasks_promised]
    decide +kernel
  · unfold Task.ReadsBack
    decide +kernel
  · have hsame : Task.touch promised.clock { promising with requires := promising.requires } = promising := rfl
    have hedited := hedit "a" "c" promising promising.requires hload (by decide +kernel)
    rw [hsame] at hedited
    exact hedited readsBack_promising

end Lone

end Board

end Workboard
