import Workboard.Proofs.Board.Steps
import Workboard.Proofs.Graph.Readiness
import Workboard.Proofs.Graph.SameNodes

/-!
# Agents that share a board

Any number of agents with different names claim one task after the other until there is
none left, and their calls on the files mix in any order. A lock that an agent has taken
stays, and the record of the task is then the agent's alone: it is as it was at the
beginning, or it is as the agent saved it. So an agent that sees a task in todo and gets
its lock is the only one to start it, and an agent that does not get it leaves it to
somebody else. Main statement: when all agents have found nothing left, each task that
could be claimed at the beginning was given to one agent once, and no other task was.
-/
namespace Workboard.Board

/-- What the agents ask for: always the next task, until there is none. -/
def agents {ι : Type} (b : Board) (owner : ι → String) :
    Rules ι Unit (Except Error (Option Task)) where
  body i _ := (b.claimNext (owner i)).run
  may _ past _ := ((), .ok none) ∉ past
  permit i := Undistorted (Task.started · (owner i))

/-- The tasks that an agent was given, in their order. -/
def given (past : List (Unit × Except Error (Option Task))) : List Task :=
  past.filterMap fun turn => match turn.2 with
    | .ok t => t
    | .error _ => none

section Sharing
variable {ι : Type} (b : Board) (owner : ι → String) (all : Snapshot) (f₀ : Files)

/-- The record of a task that could be claimed, as an agent saved it. -/
def StartedBy (k : ι) (f : Files) (id : String) : Prop :=
  ∃ t ∈ all.claimable, t.id = id ∧ ∃ now,
    b.recordAt f id = some (Record.render (t.started (owner k) now)) ∧
    Record.parse (Record.render (t.started (owner k) now)) = .ok (t.started (owner k) now)

/-- Each lock is that of an agent, and each record is as it was at the beginning or as the
owner of its lock saved it. -/
structure Orderly (f : Files) : Prop where
  refusing : f.refusing = []
  proper : f.Proper
  lock : ∀ id, f.text? (Locks.path b.root id).names = none ∨ ∃ k, b.ownerAt f id = some (owner k)
  record : ∀ id, b.recordAt f id = b.recordAt f₀ id ∨
    ∃ k, b.ownerAt f id = some (owner k) ∧ b.StartedBy owner all k f id

/-- What an agent relies on: the locks that name it stay the same ones, all locks keep their
owners, and the records under its own locks are left alone. -/
structure Leaves (i : ι) (f g : Files) : Prop where
  mine : ∀ id, b.ownerAt f id = some (owner i) ↔ b.ownerAt g id = some (owner i)
  owned : ∀ id y, b.ownerAt f id = some y → b.ownerAt g id = some y
  record : ∀ id, b.ownerAt f id = some (owner i) → b.recordAt g id = b.recordAt f id
  orderly : b.Orderly owner all f₀ f → b.Orderly owner all f₀ g

/-- What may be found under an id: the task of the beginning, or one that could be claimed
and was started by the owner of its lock. -/
def Finds (f : Files) (id : String) (u : Task) : Prop :=
  Records.loadAt f₀ b.root id = .ok u ∨
    ∃ t ∈ all.claimable, t.id = id ∧ ∃ k now, u = t.started (owner k) now ∧
      b.ownerAt f id = some (owner k)

/-- A task, and what may be found under its id. -/
def Goes (f : Files) (t u : Task) : Prop :=
  u = t ∨ t.state = .todo ∧ ∃ k now, u = t.started (owner k) now ∧ b.ownerAt f t.id = some (owner k)

variable {b owner all f₀} {f g : Files}

theorem Goes.sameNode {t u : Task} (h : b.Goes owner f t u) : t.SameNode u := by
  rcases h with rfl | ⟨htodo, k, now, rfl, -⟩
  · exact .refl u
  · exact ⟨by simp, by simp, by simp [htodo]⟩

/-- Files with the same records, locks and refusals are in the same order. -/
theorem Orderly.congr (h : b.Orderly owner all f₀ f) (hsame : f.SamePublic g) :
    b.Orderly owner all f₀ g := by
  have hlock : ∀ id, g.text? (Locks.path b.root id).names = f.text? (Locks.path b.root id).names :=
    fun id => hsame.text _ (Locks.isPublic_path b.root id)
  have hrecord : ∀ id, b.recordAt g id = b.recordAt f id :=
    fun id => hsame.text _ (Records.isPublic_path b.root id)
  refine ⟨hsame.refusing.trans h.refusing, hsame.proper h.proper, fun id => ?_, fun id => ?_⟩
  · rw [hlock id, ownerAt_congr (hlock id)]
    exact h.lock id
  · simp only [StartedBy, hrecord id, ownerAt_congr (hlock id)]
    exact h.record id

theorem leaves_of_samePublic (i : ι) (hsame : f.SamePublic g) : b.Leaves owner all f₀ i f g := by
  have hlock : ∀ id, b.ownerAt g id = b.ownerAt f id :=
    fun id => ownerAt_congr (hsame.text _ (Locks.isPublic_path b.root id))
  refine ⟨fun id => by rw [hlock], fun id y h => by rw [hlock, h], fun id _ => ?_,
    fun h => h.congr hsame⟩
  exact hsame.text _ (Records.isPublic_path b.root id)

theorem Leaves.refl (i : ι) (f : Files) : b.Leaves owner all f₀ i f f :=
  leaves_of_samePublic i (.refl f)

theorem Leaves.trans {i : ι} {f g h : Files} (hfg : b.Leaves owner all f₀ i f g)
    (hgh : b.Leaves owner all f₀ i g h) : b.Leaves owner all f₀ i f h := by
  refine ⟨fun id => (hfg.mine id).trans (hgh.mine id), fun id y hy => hgh.owned id y (hfg.owned id y hy),
    fun id hi => ?_, fun ho => hgh.orderly (hfg.orderly ho)⟩
  exact (hgh.record id ((hfg.mine id).mp hi)).trans (hfg.record id hi)

section Taken
variable {id text : String}

variable {i : ι} (hread : (Locks.Slot.ofText text).owner? = some (owner i))
include hread

/-- A free lock is taken by an agent. -/
theorem orderly_taken (h : b.Orderly owner all f₀ f)
    (hnone : f.text? (Locks.path b.root id).names = none) :
    b.Orderly owner all f₀ (f.put (Locks.path b.root id).names text) := by
  refine ⟨h.refusing, Files.proper_put h.proper _ _, fun other => ?_, fun other => ?_⟩
  · by_cases ho : other = id
    · subst other
      exact .inr ⟨i, ownerAt_taken_self.trans hread⟩
    · rw [text?_lock_taken ho, ownerAt_taken ho]
      exact h.lock other
  · simp only [StartedBy, recordAt_taken]
    rcases h.record other with hr | ⟨k, hk, hs⟩
    · exact .inl hr
    · have ho : other ≠ id := by
        rintro rfl
        rw [ownerAt_of_missing hnone] at hk
        cases hk
      rw [ownerAt_taken ho]
      exact .inr ⟨k, hk, hs⟩

/-- No other agent minds that. -/
theorem leaves_taken (howner : Function.Injective owner) {j : ι} (hij : j ≠ i)
    (h : b.Orderly owner all f₀ f) (hnone : f.text? (Locks.path b.root id).names = none) :
    b.Leaves owner all f₀ j f (f.put (Locks.path b.root id).names text) := by
  refine ⟨fun other => ?_, fun other y hy => ?_, fun other _ => recordAt_taken other,
    fun _ => orderly_taken hread h hnone⟩
  · by_cases ho : other = id
    · subst other
      rw [ownerAt_taken_self, hread, ownerAt_of_missing hnone]
      simp [howner.ne_iff.mpr hij.symm]
    · rw [ownerAt_taken ho]
  · by_cases ho : other = id
    · subst other
      rw [ownerAt_of_missing hnone] at hy
      cases hy
    · rw [ownerAt_taken ho]
      exact hy

end Taken

section Saved
variable {id token text : String}

variable {i : ι} {t : Task} {now : Instant} (ht : t ∈ all.claimable)
  (hparse : Record.parse (Record.render (t.started (owner i) now)) = .ok (t.started (owner i) now))
  (hmine : b.ownerAt f t.id = some (owner i))
include ht hparse hmine

/-- The owner of a lock saves the task it has started. -/
theorem orderly_saved (h : b.Orderly owner all f₀ f) :
    b.Orderly owner all f₀ (Protocol.renamed f ((Records.path b.root t.id).staged token).names
      (Records.path b.root t.id).names (Record.render (t.started (owner i) now))) := by
  refine ⟨h.refusing, Files.proper_put (Files.proper_erase h.proper _) _ _, fun other => ?_,
    fun other => ?_⟩
  · rw [text?_lock_saved, ownerAt_saved]
    exact h.lock other
  · simp only [StartedBy, recordAt_saved, ownerAt_saved]
    by_cases ho : other = t.id
    · subst other
      exact .inr ⟨i, hmine, t, ht, rfl, now, by rw [if_pos rfl], hparse⟩
    · simp only [if_neg ho]
      exact h.record other

/-- No other agent minds that either. -/
theorem leaves_saved (howner : Function.Injective owner) {j : ι} (hij : j ≠ i)
    (h : b.Orderly owner all f₀ f) :
    b.Leaves owner all f₀ j f (Protocol.renamed f ((Records.path b.root t.id).staged token).names
      (Records.path b.root t.id).names (Record.render (t.started (owner i) now))) := by
  refine ⟨fun other => by rw [ownerAt_saved], fun other y hy => by rw [ownerAt_saved, hy],
    fun other hj => ?_, fun _ => orderly_saved ht hparse hmine h⟩
  have ho : other ≠ t.id := by
    rintro rfl
    exact hij (howner (Option.some.inj (hj.symm.trans hmine)))
  rw [recordAt_saved, if_neg ho]

end Saved

section Snapshots
variable (hloads : List.Forall₂ (fun id t => Records.loadAt f₀ b.root id = .ok t)
  (Records.idsAt f₀ b.root) all)
include hloads

theorem loadAt_of_mem {t : Task} (ht : t ∈ all) : Records.loadAt f₀ b.root t.id = .ok t := by
  obtain ⟨id, -, hid⟩ := exists_left_of_forall₂ hloads ht
  obtain ⟨-, content, -, hread⟩ := Records.loadAt_eq_ok.mp hid
  rwa [Records.id_of_read hread]

/-- In orderly files each record of the beginning can be loaded. -/
theorem exists_finds (h : b.Orderly owner all f₀ f) {id : String}
    (hid : id ∈ Records.idsAt f₀ b.root) :
    ∃ u, Records.loadAt f b.root id = .ok u ∧ b.Finds owner all f₀ f id u := by
  obtain ⟨t, -, ht⟩ := exists_right_of_forall₂ hloads hid
  rcases h.record id with hr | ⟨k, hk, t', ht', rfl, now, htext, hparse⟩
  · exact ⟨t, by rw [Records.loadAt_congr hr, ht], .inl ht⟩
  · refine ⟨t'.started (owner k) now, ?_, .inr ⟨t', ht', rfl, k, now, rfl, hk⟩⟩
    have hread := Records.read_render hparse
    rw [Task.id_started] at hread
    exact Records.loadAt_eq_ok.mpr ⟨(Records.mem_idsAt.mp hid).1, _, htext, hread⟩

/-- Orderly files have records for the ids of the beginning. -/
theorem idsAt_of_orderly (hproper : f₀.Proper) (h : b.Orderly owner all f₀ f) :
    Records.idsAt f b.root = Records.idsAt f₀ b.root := by
  refine Records.idsAt_congr hproper h.proper fun id => ?_
  rcases h.record id with hr | ⟨k, -, t, ht, rfl, now, htext, -⟩
  · exact congrArg Option.isSome hr
  · obtain ⟨-, content, hcontent, -⟩ :=
      Records.loadAt_eq_ok.mp (loadAt_of_mem hloads (Snapshot.mem_of_claimable ht))
    rw [recordAt] at htext
    rw [htext, hcontent]
    rfl

theorem goes_of_finds_self {id : String} {t u : Task} (ht : Records.loadAt f₀ b.root id = .ok t)
    (hu : b.Finds owner all f₀ f id u) : b.Goes owner f t u := by
  rcases hu with hu | ⟨t', ht', rfl, k, now, rfl, hk⟩
  · exact .inl (Except.ok.inj (hu.symm.trans ht))
  · obtain rfl : t' = t :=
      Except.ok.inj ((loadAt_of_mem hloads (Snapshot.mem_of_claimable ht')).symm.trans ht)
    exact .inr ⟨(Snapshot.mem_claimable.mp ht').2.1, k, now, rfl, hk⟩

/-- What a load of a task finds in orderly files. -/
theorem loadAt_goes (h : b.Orderly owner all f₀ f) {t : Task} (ht : t ∈ all) :
    ∃ u, Records.loadAt f b.root t.id = .ok u ∧ b.Goes owner f t u := by
  obtain ⟨id, hid, hload⟩ := exists_left_of_forall₂ hloads ht
  obtain rfl : t.id = id := by
    obtain ⟨-, content, -, hread⟩ := Records.loadAt_eq_ok.mp hload
    exact Records.id_of_read hread
  obtain ⟨u, hu, hfinds⟩ := exists_finds hloads h hid
  exact ⟨u, hu, goes_of_finds_self hloads hload hfinds⟩

/-- What may be found under all ids, next to the tasks of the beginning. -/
theorem goes_of_finds {all' : Snapshot}
    (h : List.Forall₂ (fun id u => b.Finds owner all f₀ f id u) (Records.idsAt f₀ b.root) all') :
    List.Forall₂ (b.Goes owner f) all all' := by
  exact (forall₂_of_common hloads h).imp fun t u ⟨_, ht, hu⟩ => goes_of_finds_self hloads ht hu

end Snapshots

section Snapshots
variable {all' : Snapshot} (h : List.Forall₂ (b.Goes owner f) all all')
include h

theorem sameNodes_of_goes : Snapshot.SameNodes all all' := h.imp fun _ _ => Goes.sameNode

/-- What can be claimed later could be claimed at the beginning. -/
theorem exists_claimable_of_goes {u : Task} (hu : u ∈ all'.claimable) :
    ∃ t ∈ all.claimable, t.id = u.id := by
  obtain ⟨hmem, htodo, hready⟩ := Snapshot.mem_claimable.mp hu
  obtain ⟨t, ht, hgoes⟩ := exists_left_of_forall₂ h hmem
  refine ⟨t, Snapshot.mem_claimable.mpr ⟨ht, ?_, ?_⟩, hgoes.sameNode.id.symm⟩
  · rcases hgoes with rfl | ⟨htodo', -⟩
    · exact htodo
    · exact htodo'
  · rw [← Snapshot.isReady_sameNodes (sameNodes_of_goes h) hgoes.sameNode]
    exact hready

/-- What could be claimed at the beginning can still be claimed, or its lock is taken. -/
theorem claimable_or_owned {t : Task} (ht : t ∈ all.claimable) :
    t.id ∈ all'.claimable.map Task.id ∨ (b.ownerAt f t.id).isSome := by
  obtain ⟨hmem, htodo, hready⟩ := Snapshot.mem_claimable.mp ht
  obtain ⟨u, hu, hgoes⟩ := exists_right_of_forall₂ h hmem
  rw [← Snapshot.isReady_sameNodes (sameNodes_of_goes h) hgoes.sameNode] at hready
  rcases hgoes with rfl | ⟨-, k, -, -, hk⟩
  · exact .inl (List.mem_map_of_mem (Snapshot.mem_claimable.mpr ⟨hu, htodo, hready⟩))
  · exact .inr (by rw [hk]; rfl)

/-- What could be claimed at the beginning is not objected to later. -/
theorem claimObjection?_eq_none {t : Task} (ht : t ∈ all.claimable) :
    all'.claimObjection? t = none := by
  obtain ⟨-, -, hready⟩ := Snapshot.mem_claimable.mp ht
  rw [Snapshot.isReady, Bool.and_eq_true, Bool.not_eq_true'] at hready
  have hnodes := sameNodes_of_goes h
  unfold Snapshot.claimObjection?
  rw [Snapshot.unmet_sameNodes hnodes (.refl t), Snapshot.onCycle_sameNodes hnodes, hready.1, hready.2]
  rfl

end Snapshots

/-- The protocol of the agents. -/
def sharing (b : Board) (owner : ι → String) (all : Snapshot) (f₀ : Files) : Protocol ι where
  rely i v u := b.Leaves owner all f₀ i v.files u.files
  refl i v := .refl i v.files
  trans := .trans
  shy _ hsame := leaves_of_samePublic _ hsame

/-- What an agent knows that has these locks, was given these tasks, and has found those
others locked. -/
structure Working (b : Board) (owner : ι → String) (all : Snapshot) (f₀ : Files) (i : ι)
    (locks : List String) (got : List Task) (lost : List String) (v : Sight ι) : Prop where
  orderly : b.Orderly owner all f₀ v.files
  mine : ∀ id, b.ownerAt v.files id = some (owner i) ↔ id ∈ locks
  saved : ∀ u ∈ got, u.id ∈ locks ∧ b.recordAt v.files u.id = some (Record.render u) ∧
    Record.parse (Record.render u) = .ok u ∧ ∃ t ∈ all.claimable, ∃ now, u = t.started (owner i) now
  owned : ∀ id ∈ lost, (b.ownerAt v.files id).isSome

section Working
variable {i : ι} {locks lost : List String} {got : List Task} {v : Sight ι}

theorem stable_working : (b.sharing owner all f₀).Stable i (b.Working owner all f₀ i locks got lost) := by
  intro v w hrely h
  refine ⟨hrely.orderly h.orderly, fun id => (hrely.mine id).symm.trans (h.mine id), fun u hu => ?_,
    fun id hid => ?_⟩
  · obtain ⟨hlock, htext, hrest⟩ := h.saved u hu
    exact ⟨hlock, (hrely.record u.id ((h.mine u.id).mpr hlock)).trans htext, hrest⟩
  · obtain ⟨y, hy⟩ := Option.isSome_iff_exists.mp (h.owned id hid)
    exact Option.isSome_iff_exists.mpr ⟨y, hrely.owned id y hy⟩

/-- An agent that finds one more lock taken. -/
theorem Working.lose {id : String} (h : b.Working owner all f₀ i locks got lost v)
    (hid : (b.ownerAt v.files id).isSome) : b.Working owner all f₀ i locks got (id :: lost) v := by
  refine ⟨h.orderly, h.mine, h.saved, fun other ho => ?_⟩
  rcases List.mem_cons.mp ho with rfl | ho
  · exact hid
  · exact h.owned other ho

/-- The record under an own lock stays untouched. -/
theorem stable_untouched (i : ι) (id : String) :
    (b.sharing owner all f₀).Stable i fun v => b.ownerAt v.files id = some (owner i) ∧
      b.recordAt v.files id = b.recordAt f₀ id := fun _ _ hrely h =>
  ⟨(hrely.mine id).mp h.1, (hrely.record id h.1).trans h.2⟩

theorem stable_finds (i : ι) (id : String) (u : Task) :
    (b.sharing owner all f₀).Stable i fun v => b.Finds owner all f₀ v.files id u := by
  intro v w hrely h
  rcases h with h | ⟨t, ht, hid, k, now, hu, hk⟩
  · exact .inl h
  · exact .inr ⟨t, ht, hid, k, now, hu, hrely.owned id _ hk⟩

/-- An agent that has taken a free lock. -/
theorem working_taken {id text : String} {c : Call} (h : b.Working owner all f₀ i locks got lost v)
    (hread : (Locks.Slot.ofText text).owner? = some (owner i))
    (hnone : v.files.text? (Locks.path b.root id).names = none) :
    b.Working owner all f₀ i (id :: locks) got lost
      (v.after i c (v.files.put (Locks.path b.root id).names text)) := by
  refine ⟨orderly_taken hread h.orderly hnone, fun other => ?_, fun u hu => ?_, fun other ho => ?_⟩
  · by_cases ho : other = id
    · subst other
      simp only [Sight.files_after, ownerAt_taken_self, hread, List.mem_cons, true_or]
    · rw [Sight.files_after, ownerAt_taken ho, h.mine, List.mem_cons, or_iff_right ho]
  · obtain ⟨hlock, htext, hrest⟩ := h.saved u hu
    exact ⟨List.mem_cons_of_mem _ hlock, (recordAt_taken u.id).trans htext, hrest⟩
  · obtain ⟨y, hy⟩ := Option.isSome_iff_exists.mp (h.owned other ho)
    have hne : other ≠ id := by
      rintro rfl
      rw [ownerAt_of_missing hnone] at hy
      cases hy
    rw [Sight.files_after, ownerAt_taken hne, hy]
    rfl

/-- An agent that has saved a task under its lock. -/
theorem working_saved {t : Task} {now : Instant} {token : String} {c : Call}
    (h : b.Working owner all f₀ i (t.id :: locks) got lost v) (ht : t ∈ all.claimable)
    (hparse : Record.parse (Record.render (t.started (owner i) now)) = .ok (t.started (owner i) now))
    (hnew : t.id ∉ got.map Task.id) :
    b.Working owner all f₀ i (t.id :: locks) (got ++ [t.started (owner i) now])
      lost (v.after i c (Protocol.renamed v.files ((Records.path b.root t.id).staged token).names
        (Records.path b.root t.id).names (Record.render (t.started (owner i) now)))) := by
  have hmine : b.ownerAt v.files t.id = some (owner i) := (h.mine t.id).mpr List.mem_cons_self
  refine ⟨orderly_saved ht hparse hmine h.orderly, fun other => ?_, fun u hu => ?_, fun other ho => ?_⟩
  · rw [Sight.files_after, ownerAt_saved, h.mine]
  · rw [Sight.files_after, recordAt_saved]
    rcases List.mem_append.mp hu with hu | hu
    · obtain ⟨hlock, htext, hrest⟩ := h.saved u hu
      have hne : u.id ≠ t.id := fun heq => hnew (heq ▸ List.mem_map_of_mem hu)
      exact ⟨hlock, by rw [if_neg hne, htext], hrest⟩
    · obtain rfl := List.mem_singleton.mp hu
      exact ⟨by simp, by simp, hparse, t, ht, now, rfl⟩
  · rw [Sight.files_after, ownerAt_saved]
    exact h.owned other ho

end Working

end Sharing

end Workboard.Board
