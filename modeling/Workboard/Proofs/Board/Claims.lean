import Workboard.Proofs.Board.Lone
import Workboard.Proofs.Board.Sharing

/-!
# Claims of agents that share a board

Each part of a claim keeps the protocol of the agents, from the first look at the board
to the record that is saved in the end.
-/
namespace Workboard.Board

section Claims
variable {ι : Type} {b : Board} {owner : ι → String} {all : Snapshot} {f₀ : Files}
  {i : ι} {locks lost : List String} {got : List Task} {m : Memo} {v : Sight ι} {mid : Sight ι → Prop}
  {A : Sight ι → Prop}

section Looking
variable (hloads : List.Forall₂ (fun id t => Records.loadAt f₀ b.root id = .ok t)
  (Records.idsAt f₀ b.root) all)
  (hA : (b.sharing owner all f₀).Stable i A) (hmid : ∀ v, A v → mid v)
  (horderly : ∀ v, A v → b.Orderly owner all f₀ v.files)
include hloads hA hmid horderly

/-- A scan finds the tasks of the beginning, some of them started by now. -/
theorem keeps_scan (hproper : f₀.Proper) {post : Except Error Snapshot → Memo → Sight ι → Prop}
    (hv : A v)
    (hpost : ∀ (all' : Snapshot) m u, A u → List.Forall₂ (b.Goes owner u.files) all all' → post (.ok all') m u) :
    (b.sharing owner all f₀).Keeps i (Undistorted (Task.started · (owner i))) mid post
      (Records.scan b.root).run m v := by
  refine Records.keeps_scan (fun id u v => b.Finds owner all f₀ v.files id u)
    (stable_finds i) hA hmid (fun u hu => idsAt_of_orderly hloads hproper (horderly u hu))
    (fun id hid u hu => exists_finds hloads (horderly u hu) hid) hv fun all' m u hu hall => ?_
  exact hpost all' m u hu (goes_of_finds hloads hall)

/-- What is found under the id of a task is the task itself, or it was started by now. -/
theorem keeps_load {t : Task} (ht : t ∈ all) {post : Except Error Task → Memo → Sight ι → Prop}
    (hv : A v)
    (hpost : ∀ u m w, A w → Records.loadAt w.files b.root t.id = .ok u →
      b.Goes owner w.files t u → post (.ok u) m w) :
    (b.sharing owner all f₀).Keeps i (Undistorted (Task.started · (owner i))) mid post
      (Records.load b.root t.id).run m v := by
  refine Records.keeps_load hA hmid hv fun _ w hw _ _ => ?_
  obtain ⟨u, hu, hgoes⟩ := loadAt_goes hloads (horderly w hw) ht
  rw [hu]
  exact hpost u _ w hw hu hgoes

end Looking

/-- A try to take the lock of a task that the agent has not locked: it succeeds, or somebody
else has the lock. -/
theorem keeps_tryTake {id : String} (hid : id ∉ locks)
    (hmid : ∀ v, b.Working owner all f₀ i locks got lost v → mid v) {record : LockRecord} {now : Instant}
    (hrecord : record.owner = owner i) (hclock : m.clock = some now)
    {post : Except Error Bool → Memo → Sight ι → Prop}
    (hv : b.Working owner all f₀ i locks got lost v) (howner : Function.Injective owner)
    (htaken : ∀ m u, b.Working owner all f₀ i (id :: locks) got lost u →
      b.recordAt u.files id = b.recordAt f₀ id → post (.ok true) m u)
    (hlost : ∀ m u, b.Working owner all f₀ i locks got (id :: lost) u → post (.ok false) m u)
    (passes : Nat) :
    (b.sharing owner all f₀).Keeps i (Undistorted (Task.started · (owner i))) mid post
      (Locks.tryTake (Locks.path b.root id) record now (passes + 1)).run m v := by
  have hstable : (b.sharing owner all f₀).Stable i (b.Working owner all f₀ i locks got lost) :=
    stable_working
  refine Protocol.keeps_bind (Protocol.keeps_createNew hstable hmid (Locks.isPublic_path b.root id)
    hv ?_ ?_ ?_)
  · intro u hu hread hnone
    have howned := Locks.Slot.owner?_ofText_render hread.2
    rw [hrecord] at howned
    refine ⟨fun j hj => leaves_taken howned howner hj hu.orderly hnone,
      htaken _ _ (working_taken hu howned hnone) ?_⟩
    rcases hu.orderly.record id with hr | ⟨k, hk, -⟩
    · exact (recordAt_taken id).trans hr
    · rw [ownerAt_of_missing hnone] at hk
      cases hk
  · intro u hu hsome
    refine ⟨fun j _ => Leaves.refl j u.files, ?_⟩
    have howned : (b.ownerAt u.files id).isSome := by
      rcases hu.orderly.lock id with hnone | ⟨k, hk⟩
      · rw [hnone] at hsome
        cases hsome
      · rw [hk]
        rfl
    refine Protocol.keeps_bind (Locks.keeps_slot
      (A := b.Working owner all f₀ i locks got (id :: lost)) stable_working
      (fun v h => hmid v ⟨h.orderly, h.mine, h.saved, fun other ho => h.owned other (.tail _ ho)⟩) (m := m)
      (stable_working u _ (Leaves.refl i u.files) (hu.lose howned)) fun w hw hp hw' => ?_)
    obtain ⟨y, hy⟩ := Option.isSome_iff_exists.mp (hw.owned id List.mem_cons_self)
    obtain ⟨current, hheld, rfl⟩ := Locks.Slot.owner?_eq_some.mp hy
    have hfresh : current.isStale now = false := hp.2 current now hheld hclock
    have hother : current.owner ≠ record.owner := by
      intro heq
      rw [heq, hrecord] at hy
      exact hid ((hw.mine id).mp hy)
    simp only [hheld, Protocol.Then, hfresh, if_neg hother]
    exact hlost _ _ hw'
  · intro u hu href
    rw [hu.orderly.refusing] at href
    cases href

theorem keeps_acquire {id : String} (hid : id ∉ locks) (hvalid : isValidId id = true)
    (hblank : Text.isAllBlank (owner i) = false)
    (htimeout : .zero < b.settings.lockTimeout ∧ b.settings.lockTimeout ≤ maxTimeout)
    (hmid : ∀ v, b.Working owner all f₀ i locks got lost v → mid v)
    {post : Except Error Bool → Memo → Sight ι → Prop}
    (hv : b.Working owner all f₀ i locks got lost v) (howner : Function.Injective owner)
    (htaken : ∀ m u, b.Working owner all f₀ i (id :: locks) got lost u →
      b.recordAt u.files id = b.recordAt f₀ id → post (.ok true) m u)
    (hlost : ∀ m u, b.Working owner all f₀ i locks got (id :: lost) u → post (.ok false) m u) :
    (b.sharing owner all f₀).Keeps i (Undistorted (Task.started · (owner i))) mid post
      (Locks.acquire b.root id (owner i) b.settings.lockTimeout).run m v := by
  have hout : ¬ (b.settings.lockTimeout ≤ .zero ∨ maxTimeout < b.settings.lockTimeout) := by
    simp only [Duration.lt_def, Duration.le_def] at htimeout ⊢
    omega
  rw [Locks.acquire_eq, if_neg (by simp [hvalid]), if_neg (by simp [hblank]), if_neg hout]
  refine Protocol.keeps_bind (Protocol.keeps_now stable_working hmid hv fun now u hu => ?_)
  exact keeps_tryTake hid hmid rfl rfl hu howner htaken hlost 1

/-- Under a lock that was just taken the task can be started. -/
theorem keeps_start {t : Task} (ht : t ∈ all.claimable)
    (hload : Records.loadAt f₀ b.root t.id = .ok t) (hnew : t.id ∉ got.map Task.id)
    (hmid : ∀ v, b.Working owner all f₀ i (t.id :: locks) got lost v → mid v)
    {post : Except Error Task → Memo → Sight ι → Prop} (howner : Function.Injective owner)
    (hv : b.Working owner all f₀ i (t.id :: locks) got lost v)
    (huntouched : b.recordAt v.files t.id = b.recordAt f₀ t.id)
    (hpost : ∀ now m u, b.Working owner all f₀ i (t.id :: locks) (got ++ [t.started (owner i) now]) lost u →
      post (.ok (t.started (owner i) now)) m u) :
    (b.sharing owner all f₀).Keeps i (Undistorted (Task.started · (owner i))) mid post
      (b.start t.id (owner i)).run m v := by
  have hworking : (b.sharing owner all f₀).Stable i
      (b.Working owner all f₀ i (t.id :: locks) got lost) := stable_working
  have hstable := hworking.and (stable_untouched i t.id)
  obtain ⟨hmem, htodo, -⟩ := Snapshot.mem_claimable.mp ht
  have hvalid := (Records.loadAt_eq_ok.mp hload).1
  have hmine : b.ownerAt v.files t.id = some (owner i) := (hv.mine t.id).mpr List.mem_cons_self
  rw [start_eq]
  refine Protocol.keeps_bind (Records.keeps_load hstable (fun v h => hmid v h.1)
    ⟨hv, hmine, huntouched⟩ fun m u hu _ hrecalls => ?_)
  rw [Records.loadAt_congr hu.2.2, hload] at hrecalls ⊢
  have hrecalled := hrecalls t rfl
  refine Protocol.keeps_bind (Protocol.keeps_now hstable (fun v h => hmid v h.1) hu
    fun now w hw => ?_)
  refine Protocol.keeps_bind (Protocol.keeps_settle ?_)
  rw [Task.move_active now htodo]
  change (b.sharing owner all f₀).Keeps i _ mid post
    (Records.save b.root (t.started (owner i) now) >>= fun _ => pure (t.started (owner i) now)).run _ w
  rw [Records.save, Task.id_started]
  refine Protocol.keeps_bind (Protocol.keeps_bind (Locks.keeps_checkId (fun _ => ?_)
    fun h => absurd (hvalid.symm.trans h) Bool.noConfusion))
  refine Protocol.keeps_replace
    (W := Record.parse (Record.render (t.started (owner i) now)) = .ok (t.started (owner i) now))
    hstable (fun v h => hmid v h.1) (Records.isPublic_path _ _) hw ?_ ?_ ?_ ?_
  · exact fun token f hp => hp.1 t now hrecalled rfl rfl
  · intro x token hx hparse _
    exact ⟨fun j hj => leaves_saved ht hparse hx.2.1 howner hj hx.1.orderly,
      fun m => hpost now m _ (working_saved hx.1 ht hparse hnew)⟩
  · intro x token hx href
    rw [hx.1.orderly.refusing] at href
    cases href
  · exact fun x hx hne => absurd hx.1.orderly.refusing hne

/-- A task that an agent was given is not found in todo again. -/
theorem not_mem_of_loadAt {t : Task} {ids : List String} (h : b.Working owner all f₀ i ids got lost v)
    (htodo : t.state = .todo) (hload : Records.loadAt v.files b.root t.id = .ok t) :
    t.id ∉ got.map Task.id := by
  intro hmem
  obtain ⟨u, hu, hid⟩ := List.mem_map.mp hmem
  obtain ⟨-, htext, hparse, t', -, now, rfl⟩ := h.saved u hu
  obtain ⟨hvalid, content, hcontent, hread⟩ := Records.loadAt_eq_ok.mp hload
  have hrender := Records.read_render hparse
  rw [hid] at htext hrender
  obtain rfl := Option.some.inj (htext.symm.trans hcontent)
  obtain rfl := Except.ok.inj (hrender.symm.trans hread)
  rw [Task.state_started] at htodo
  cases htodo

section Board
variable (hproper : f₀.Proper) (hloads : List.Forall₂ (fun id t => Records.loadAt f₀ b.root id = .ok t)
  (Records.idsAt f₀ b.root) all)
  (howner : Function.Injective owner) (hblank : Text.isAllBlank (owner i) = false)
  (htimeout : .zero < b.settings.lockTimeout ∧ b.settings.lockTimeout ≤ maxTimeout)
include hproper hloads howner hblank htimeout

/-- A claim of a task that could be claimed at the beginning: the agent starts the task, or
somebody has locked it. -/
theorem keeps_claim {t : Task} (ht : t ∈ all.claimable)
    {post : Except Error Task → Memo → Sight ι → Prop}
    (hv : b.Working owner all f₀ i (got.map Task.id) got lost v)
    (hok : ∀ now m u, t.id ∉ got.map Task.id →
      b.Working owner all f₀ i (t.id :: got.map Task.id) (got ++ [t.started (owner i) now]) lost u →
      post (.ok (t.started (owner i) now)) m u)
    (hlocked : ∀ y m u, b.Working owner all f₀ i (got.map Task.id) got (t.id :: lost) u →
      post (.error (.alreadyLocked t.id y)) m u)
    (hrefused : ∀ why m u, b.Working owner all f₀ i (got.map Task.id) got (t.id :: lost) u →
      post (.error (.refused t.id why)) m u) :
    (b.sharing owner all f₀).Keeps i (Undistorted (Task.started · (owner i))) (fun _ => True) post
      (b.claim t.id (owner i)).run m v := by
  have hstable : (b.sharing owner all f₀).Stable i
      (b.Working owner all f₀ i (got.map Task.id) got lost) := stable_working
  obtain ⟨hmem, htodo, -⟩ := Snapshot.mem_claimable.mp ht
  have hvalid := (Records.loadAt_eq_ok.mp (loadAt_of_mem hloads hmem)).1
  rw [claim_eq]
  refine Protocol.keeps_bind (keeps_load hloads hstable (fun _ _ => trivial) (fun _ h => h.orderly)
    hmem hv fun u m w hw hload hgoes => ?_)
  rcases hgoes with rfl | ⟨-, k, now, rfl, hk⟩
  · have hnew := not_mem_of_loadAt hw htodo hload
    simp only [Protocol.Then, htodo, ne_eq, not_true_eq_false, if_false]
    refine Protocol.keeps_bind (keeps_scan hloads hstable (fun _ _ => trivial)
      (fun _ h => h.orderly) hproper hw fun all' m w hw hgoes => ?_)
    simp only [Protocol.Then, claimObjection?_eq_none hgoes ht]
    refine Protocol.keeps_bind (Locks.keeps_owns hvalid hstable (fun _ _ => trivial) hw
      fun _ m w _ hw => ?_)
    refine Protocol.keeps_bind (keeps_acquire hnew hvalid hblank htimeout (fun _ _ => trivial) hw
      howner (fun m w hw huntouched => ?_) fun m w hw => ?_)
    · refine Protocol.keeps_bind (Protocol.keeps_attempt (keeps_start ht
        (loadAt_of_mem hloads hmem) hnew (fun _ _ => trivial) howner hw huntouched
        fun now m w hw => ?_))
      exact hok now m w hnew hw
    · exact Protocol.keeps_bind (b.keeps_holderOf u.id stable_working (fun _ _ => trivial) hw
        fun y m w hw => hlocked y m w hw)
  · exact hrefused _ _ w (hw.lose (by rw [hk]; rfl))

/-- Claims of one task after the other, until one succeeds: an agent that gets none has
found each of them locked. -/
theorem keeps_claimFirst {ids : List String} (hids : ∀ id ∈ ids, ∃ t ∈ all.claimable, t.id = id)
    {post : Except Error (Option Task) → Memo → Sight ι → Prop}
    (hv : b.Working owner all f₀ i (got.map Task.id) got lost v)
    (hlost : ∀ t ∈ all.claimable, t.id ∈ ids ∨ t.id ∈ lost)
    (hsome : ∀ (t : Task) now lost m u, t.id ∉ got.map Task.id →
      b.Working owner all f₀ i (t.id :: got.map Task.id) (got ++ [t.started (owner i) now]) lost u →
      post (.ok (some (t.started (owner i) now))) m u)
    (hnone : ∀ m u, b.Working owner all f₀ i (got.map Task.id) got (all.claimable.map Task.id) u →
      post (.ok none) m u) :
    (b.sharing owner all f₀).Keeps i (Undistorted (Task.started · (owner i))) (fun _ => True) post
      (b.claimFirst (owner i) ids).run m v := by
  induction ids generalizing lost m v with
  | nil =>
    refine hnone m v ⟨hv.orderly, hv.mine, hv.saved, fun id hid => ?_⟩
    obtain ⟨t, ht, rfl⟩ := List.mem_map.mp hid
    exact hv.owned t.id ((hlost t ht).resolve_left List.not_mem_nil)
  | cons id ids ih =>
    obtain ⟨t, ht, rfl⟩ := hids id List.mem_cons_self
    have hnext : ∀ m u, b.Working owner all f₀ i (got.map Task.id) got (t.id :: lost) u →
        (b.sharing owner all f₀).Keeps i (Undistorted (Task.started · (owner i))) (fun _ => True) post
          (b.claimFirst (owner i) ids).run m u := by
      intro m u hu
      refine ih (fun id hid => hids id (List.mem_cons_of_mem _ hid)) hu fun t' ht' => ?_
      rcases hlost t' ht' with hmem | hmem
      · rcases List.mem_cons.mp hmem with heq | hmem
        · exact .inr (by rw [heq]; exact List.mem_cons_self)
        · exact .inl hmem
      · exact .inr (List.mem_cons_of_mem _ hmem)
    refine Protocol.keeps_bind (Protocol.keeps_attempt (keeps_claim hproper hloads howner hblank
      htimeout ht hv ?_ ?_ ?_))
    · exact fun now m u hnew hu => hsome t now lost m u hnew hu
    · exact fun y m u hu => hnext m u hu
    · exact fun why m u hu => hnext m u hu

/-- One more task for an agent, or the news that all are locked. -/
theorem keeps_claimNext {post : Except Error (Option Task) → Memo → Sight ι → Prop}
    (hv : b.Working owner all f₀ i (got.map Task.id) got [] v)
    (hsome : ∀ (t : Task) now lost m u, t.id ∉ got.map Task.id →
      b.Working owner all f₀ i (t.id :: got.map Task.id) (got ++ [t.started (owner i) now]) lost u →
      post (.ok (some (t.started (owner i) now))) m u)
    (hnone : ∀ m u, b.Working owner all f₀ i (got.map Task.id) got (all.claimable.map Task.id) u →
      post (.ok none) m u) :
    (b.sharing owner all f₀).Keeps i (Undistorted (Task.started · (owner i))) (fun _ => True) post
      (b.claimNext (owner i)).run m v := by
  refine Protocol.keeps_bind (keeps_scan hloads stable_working (fun _ _ => trivial)
    (fun _ h => h.orderly) hproper hv fun (all' : Snapshot) m u hu hgoes => ?_)
  have hfound : ∀ id ∈ all'.claimable.map Task.id, ∃ t ∈ all.claimable, t.id = id := by
    intro id hid
    obtain ⟨u, hu, rfl⟩ := List.mem_map.mp hid
    exact exists_claimable_of_goes hgoes hu
  -- what is missing in the scan was locked when it was read
  have hmissed : b.Working owner all f₀ i (got.map Task.id) got
      ((all.claimable.map Task.id).filter (· ∉ all'.claimable.map Task.id)) u := by
    refine ⟨hu.orderly, hu.mine, hu.saved, fun id hid => ?_⟩
    obtain ⟨hid, hnot⟩ := List.mem_filter.mp hid
    obtain ⟨t, ht, rfl⟩ := List.mem_map.mp hid
    exact (claimable_or_owned hgoes ht).resolve_left (of_decide_eq_true hnot)
  refine keeps_claimFirst hproper hloads howner hblank htimeout hfound hmissed (fun t ht => ?_)
    hsome hnone
  by_cases hmem : t.id ∈ all'.claimable.map Task.id
  · exact .inl hmem
  · exact .inr (List.mem_filter.mpr ⟨List.mem_map_of_mem ht, decide_eq_true hmem⟩)

end Board

section Computed
variable {ι : Type} (b : Board) (owner : ι → String)

instance (i : ι) (m : Memo) (c : Call) (f : Files) : Decidable ((b.agents owner).permit i m c f) :=
  inferInstanceAs (Decidable (Undistorted _ m c f))

end Computed

section Given
variable {past : List (Unit × Except Error (Option Task))}

theorem given_append_ok (past : List (Unit × Except Error (Option Task))) (t? : Option Task) :
    given (past ++ [((), .ok t?)]) = given past ++ t?.toList := by
  cases t? <;> simp [given]

theorem mem_given {u : Task} : u ∈ given past ↔ ((), .ok (some u)) ∈ past := by
  simp only [given, List.mem_filterMap]
  constructor
  · rintro ⟨⟨⟨⟩, r⟩, hmem, hr⟩
    cases r with
    | ok t? =>
      obtain rfl : t? = some u := hr
      exact hmem
    | error e => cases hr
  · exact fun hmem => ⟨_, hmem, rfl⟩

/-- If no two tasks that were given have one id, an id was given in one turn at most. -/
theorem turn_unique (h : ((given past).map Task.id).Nodup) {m n : Nat} {t u : Task}
    (hm : past[m]? = some ((), .ok (some t))) (hn : past[n]? = some ((), .ok (some u)))
    (hid : t.id = u.id) : m = n := by
  rw [List.nodup_iff_pairwise_ne, List.pairwise_map, given, List.pairwise_filterMap] at h
  have hlt : ∀ {m n : Nat} {t u : Task}, past[m]? = some ((), .ok (some t)) →
      past[n]? = some ((), .ok (some u)) → t.id = u.id → ¬ m < n := by
    intro m n t u hm hn hid hmn
    obtain ⟨hm', hm⟩ := List.getElem?_eq_some_iff.mp hm
    obtain ⟨hn', hn⟩ := List.getElem?_eq_some_iff.mp hn
    exact List.pairwise_iff_getElem.mp h m n hm' hn' hmn t (by rw [hm]) u (by rw [hn]) hid
  have h₁ := hlt hm hn hid
  have h₂ := hlt hn hm hid.symm
  omega

end Given

/-- What an agent knows between two turns: the tasks it was given are its own, and if it was
given none in the end, all tasks are locked. -/
def Rested (b : Board) (owner : ι → String) (all : Snapshot) (f₀ : Files) (i : ι)
    (past : List (Unit × Except Error (Option Task))) (v : Sight ι) : Prop :=
  b.Working owner all f₀ i ((given past).map Task.id) (given past)
    (if ((), .ok none) ∈ past then all.claimable.map Task.id else []) v ∧
  ((given past).map Task.id).Nodup ∧ ∀ turn ∈ past, ∃ t?, turn.2 = .ok t?

theorem rested_some {past : List (Unit × Except Error (Option Task))} {t : Task} {now : Instant}
    (hpast : ((given past).map Task.id).Nodup ∧ ∀ turn ∈ past, ∃ t?, turn.2 = .ok t?)
    (hmay : ((), .ok none) ∉ past) (hnew : t.id ∉ (given past).map Task.id)
    (h : b.Working owner all f₀ i (t.id :: (given past).map Task.id)
      (given past ++ [t.started (owner i) now]) lost v) :
    b.Rested owner all f₀ i (past ++ [((), .ok (some (t.started (owner i) now)))]) v := by
  have hids : (given past ++ [t.started (owner i) now]).map Task.id = (given past).map Task.id ++ [t.id] := by
    simp
  have hnone : ((), Except.ok none) ∉ past ++ [((), .ok (some (t.started (owner i) now)))] := by
    simp [hmay]
  rw [Rested, given_append_ok, Option.toList_some, if_neg hnone, hids]
  refine ⟨⟨h.orderly, fun id => ?_, fun u hu => ?_, fun id hid => ?_⟩, ?_, fun turn hturn => ?_⟩
  · rw [h.mine, List.mem_cons, List.mem_append, List.mem_singleton, or_comm]
  · obtain ⟨hlock, hrest⟩ := h.saved u hu
    rw [List.mem_cons, or_comm, ← List.mem_singleton, ← List.mem_append] at hlock
    exact ⟨hlock, hrest⟩
  · cases hid
  · exact List.nodup_append.mpr ⟨hpast.1, List.nodup_singleton _, fun a ha c hc hac =>
      hnew (List.mem_singleton.mp hc ▸ hac ▸ ha)⟩
  · rcases List.mem_append.mp hturn with hturn | hturn
    · exact hpast.2 turn hturn
    · exact ⟨_, congrArg Prod.snd (List.mem_singleton.mp hturn)⟩

theorem rested_none {past : List (Unit × Except Error (Option Task))}
    (hpast : ((given past).map Task.id).Nodup ∧ ∀ turn ∈ past, ∃ t?, turn.2 = .ok t?)
    (h : b.Working owner all f₀ i ((given past).map Task.id) (given past)
      (all.claimable.map Task.id) v) :
    b.Rested owner all f₀ i (past ++ [((), .ok none)]) v := by
  rw [Rested, given_append_ok, Option.toList_none, List.append_nil, if_pos (by simp)]
  refine ⟨h, hpast.1, fun turn hturn => ?_⟩
  rcases List.mem_append.mp hturn with hturn | hturn
  · exact hpast.2 turn hturn
  · exact ⟨_, congrArg Prod.snd (List.mem_singleton.mp hturn)⟩

/-- What the agents know between their turns. -/
def sharingContract (hproper : f₀.Proper)
    (hloads : List.Forall₂ (fun id t => Records.loadAt f₀ b.root id = .ok t)
      (Records.idsAt f₀ b.root) all)
    (howner : Function.Injective owner) (hblank : ∀ i, Text.isAllBlank (owner i) = false)
    (htimeout : .zero < b.settings.lockTimeout ∧ b.settings.lockTimeout ≤ maxTimeout) :
    Contract (b.agents owner) (b.sharing owner all f₀) where
  idle := b.Rested owner all f₀
  mid _ _ _ _ := True
  stable _ _ v w hrely h := ⟨stable_working v w hrely h.1, h.2⟩
  begins := by
    intro i past _ v h hmay
    obtain ⟨hworking, hpast⟩ := h
    rw [if_neg hmay] at hworking
    refine keeps_claimNext hproper hloads howner (hblank i) htimeout hworking ?_ ?_
    · exact fun t now lost m u hnew hu => rested_some hpast hmay hnew hu
    · exact fun m u hu => rested_none hpast hu

/-- Once all agents have found nothing left, each task that could be claimed at the beginning
was given to one agent in one turn, and no other task was. The record of a task that was
given says that the agent works on it, and its lock names the agent. No turn ended with an
error. -/
theorem claims_shared [DecidableEq ι] [Nonempty ι] (howner : Function.Injective owner)
    (hblank : ∀ i, Text.isAllBlank (owner i) = false)
    (htimeout : .zero < b.settings.lockTimeout ∧ b.settings.lockTimeout ≤ maxTimeout)
    {w : World Files} (hproper : w.store.Proper) (hrefusing : w.store.refusing = [])
    (hunlocked : ∀ id, w.store.text? (Locks.path b.root id).names = none)
    (hloads : ((Records.loadAll b.root).run.runIn w).1 = .ok ⟨all, []⟩) {ms : List (Move ι Unit)}
    (hrun : (b.agents owner).Follows (.start w) ms) :
    let s := (b.agents owner).run (.start w) ms
    (∀ i, (s.party i).current = none ∧ ((), .ok none) ∈ (s.party i).past) →
    (∀ t ∈ all.claimable, ∃! turn : ι × Nat,
      ∃ u, (s.party turn.1).past[turn.2]? = some ((), .ok (some u)) ∧ u.id = t.id) ∧
    (∀ i u, ((), .ok (some u)) ∈ (s.party i).past →
      (∃ t ∈ all.claimable, t.id = u.id) ∧ Records.loadAt s.world.store b.root u.id = .ok u ∧
      u.state = .active ∧ u.assignedTo = some (owner i) ∧
      ∃ r, Locks.slotAt s.world.store (Locks.path b.root u.id) = .held r ∧ r.owner = owner i) ∧
    ∀ i, ∀ turn ∈ (s.party i).past, ∃ t?, turn.2 = .ok t? := by
  intro s hstopped
  have hloads := Records.forall₂_of_runIn_loadAll b.root w hloads
  have hstart : ∀ i, b.Rested owner all w.store i [] ⟨w.store, []⟩ := by
    intro i
    rw [Rested, if_neg List.not_mem_nil]
    refine ⟨⟨⟨hrefusing, hproper, fun id => .inl (hunlocked id), fun id => .inl rfl⟩, fun id => ?_,
      fun u hu => absurd hu List.not_mem_nil, fun id hid => absurd hid List.not_mem_nil⟩, .nil,
      fun turn hturn => absurd hturn List.not_mem_nil⟩
    rw [ownerAt_of_missing (hunlocked id)]
    exact iff_of_false nofun List.not_mem_nil
  have hrested : ∀ i, b.Rested owner all w.store i (s.party i).past s.sight := by
    intro i
    have h := (sharingContract hproper hloads howner hblank htimeout).idle_or_mid hstart hrun i
    rwa [(hstopped i).1] at h
  refine ⟨fun t ht => ?_, fun i u hu => ?_, fun i => (hrested i).2.2⟩
  · -- the last turn of any agent has seen that somebody locked the task
    obtain ⟨i⟩ := ‹Nonempty ι›
    have hlocked := (hrested i).1.owned
    rw [if_pos (hstopped i).2] at hlocked
    have howned := hlocked t.id (List.mem_map_of_mem ht)
    obtain ⟨k, hk⟩ : ∃ k, b.ownerAt s.world.store t.id = some (owner k) := by
      rcases (hrested i).1.orderly.lock t.id with hnone | hk
      · have hmissing : b.ownerAt s.sight.files t.id = none := ownerAt_of_missing hnone
        rw [hmissing] at howned
        cases howned
      · exact hk
    obtain ⟨u, hu, hid⟩ := List.mem_map.mp (((hrested k).1.mine t.id).mp hk)
    obtain ⟨n, hn⟩ := List.mem_iff_getElem?.mp (mem_given.mp hu)
    refine ⟨(k, n), ⟨u, hn, hid⟩, ?_⟩
    rintro ⟨j, m⟩ ⟨u', hm, hid'⟩
    have hj : b.ownerAt s.world.store t.id = some (owner j) :=
      ((hrested j).1.mine t.id).mpr (hid' ▸ List.mem_map_of_mem
        (mem_given.mpr (List.mem_of_getElem? hm)))
    obtain rfl : j = k := howner (Option.some.inj (hj.symm.trans hk))
    obtain rfl : m = n := turn_unique (hrested j).2.1 hm hn (hid'.trans hid.symm)
    rfl
  · obtain ⟨hlock, htext, hparse, t, ht, now, rfl⟩ := (hrested i).1.saved u (mem_given.mpr hu)
    have hvalid := (Records.loadAt_eq_ok.mp (loadAt_of_mem hloads (Snapshot.mem_of_claimable ht))).1
    refine ⟨⟨t, ht, by simp⟩, ?_, rfl, rfl, ?_⟩
    · exact Records.loadAt_eq_ok.mpr ⟨by simpa using hvalid, _, htext, Records.read_render hparse⟩
    · exact Locks.Slot.owner?_eq_some.mp (((hrested i).1.mine _).mpr hlock)

end Claims

section Lone

/-- The names of two agents. -/
def pairName (first : Bool) : String := if first then "x" else "y"

theorem pairName_injective : Function.Injective pairName := by
  intro i j h
  cases i <;> cases j <;> first | rfl | exact absurd h (by decide)

/-- What the first agent comes to, and the world it leaves. -/
def firstTurn : {r : Except Error (Option Task) × World Files //
    ((Lone.board.agents pairName).body true ()).finish? ((Lone.board.agents pairName).permit true)
      20 {} Lone.world = some r} :=
  ⟨(.ok (some (Lone.task.started "x" Lone.begun)), Lone.started), by
    simp only [agents, claimNext, Snapshot.claimable, Snapshot.ready_eq]
    decide +kernel⟩

theorem finish_first : ((Lone.board.agents pairName).body true ()).finish?
    ((Lone.board.agents pairName).permit true) 20 {} Lone.world =
      some (.ok (some (Lone.task.started "x" Lone.begun)), Lone.started) :=
  firstTurn.property

theorem finish_next (i : Bool) : ((Lone.board.agents pairName).body i ()).finish?
    ((Lone.board.agents pairName).permit i) 20 {} Lone.started = some (.ok none, Lone.started) := by
  simp only [agents, claimNext, Snapshot.claimable, Snapshot.ready_eq]
  cases i <;> decide +kernel

/-- Two agents, one of which is given the only task and then none, and the other none. -/
theorem claims_shared_two :
    ∃ ms, (Lone.board.agents pairName).Follows (.start Lone.world) ms ∧
      let s := (Lone.board.agents pairName).run (.start Lone.world) ms
      (∀ i, (s.party i).current = none ∧ ((), .ok none) ∈ (s.party i).past) ∧
      ∃! turn : Bool × Nat,
        ∃ u, (s.party turn.1).past[turn.2]? = some ((), .ok (some u)) ∧ u.id = Lone.task.id := by
  obtain ⟨ms, hrun, -, hparty⟩ : (Lone.board.agents pairName).Leads (.start Lone.world) Lone.started
      fun i => if i then ⟨[((), .ok (some (Lone.task.started "x" Lone.begun))), ((), .ok none)], none⟩
        else ⟨[((), .ok none)], none⟩ := by
    have hfirst := Rules.leads_of_finish (Lone.board.agents pairName) (.start Lone.world) true () 20 rfl List.not_mem_nil finish_first
    refine hfirst.trans fun s hworld hparty => ?_
    have hpast : s.party true = ⟨[((), .ok (some (Lone.task.started "x" Lone.begun)))], none⟩ := by
      rw [hparty]
      rfl
    have hmay : ((), Except.ok none) ∉ (s.party true).past := by
      rw [hpast]
      simp
    have hsecond := Rules.leads_of_finish (Lone.board.agents pairName) s true () 20
      (by rw [hpast]) hmay (by rw [hworld]; exact finish_next true)
    refine hsecond.trans fun s' hworld' hparty' => ?_
    have hother : s'.party false = {} := by
      rw [hparty', hparty]
      rfl
    have hthird := Rules.leads_of_finish (Lone.board.agents pairName) s' false () 20
      (by rw [hother]) (by rw [hother]; exact List.not_mem_nil)
      (by rw [hworld']; exact finish_next false)
    rw [hother, hparty', hpast, hparty] at hthird
    convert hthird using 1
    funext i
    cases i <;> rfl
  refine ⟨ms, hrun, ?_⟩
  have hstopped : ∀ i, (((Lone.board.agents pairName).run (.start Lone.world) ms).party i).current = none ∧
      ((), .ok none) ∈ (((Lone.board.agents pairName).run (.start Lone.world) ms).party i).past := by
    rw [hparty]
    intro i
    cases i <;> simp
  have hshared := (claims_shared (b := Lone.board) (w := Lone.world)
    pairName_injective (by decide +kernel) (by decide +kernel) (List.nodup_singleton _) rfl Lone.unlocked
    Lone.loadAll_world hrun hstopped).1 Lone.task Lone.mem_claimable
  exact ⟨hstopped, hshared⟩

end Lone

end Workboard.Board
