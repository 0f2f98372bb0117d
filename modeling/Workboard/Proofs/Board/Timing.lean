import Workboard.Proofs.Board.Claiming
import Workboard.Proofs.Lock.Vanishing

/-!
# Claims under valid settings

Settings are valid if a timeout can be made of their hours, but a timeout of nothing is not
one that may be asked for. Main statement: with valid settings a task that can be claimed and
has no lock is claimed if and only if the timeout is above nothing; under a timeout of nothing
every claim is refused for it, and the next task is none.
-/
namespace Workboard

namespace Locks
open Workboard.Action
variable {w : World Files} {root : Path} {id owner : String} {timeout : Duration}
  {post : Except Error Bool → World Files → Prop}

/-- A timeout of nothing is refused to everybody. -/
theorem ends_acquire_refused (hid : isValidId id = true) (hnamed : Text.isAllBlank owner = false)
    (htimeout : timeout ≤ .zero) (h : post (.error (.refused id .lockTimeout)) w) :
    (acquire root id owner timeout).Ends w post := by
  rw [acquire_eq, if_neg (by simp [hid]), if_neg (by simp [hnamed]), if_pos (.inl htimeout)]
  exact ends_throw h

section Open
variable (hw : w.Steady) (hrefusing : w.store.refusing = [])
include hw hrefusing

/-- No file but that of the lock has changed, and if the lock was not taken it was there before. -/
def Asked (w : World Files) (root : Path) (id : String) (taken : Bool) (w' : World Files) : Prop :=
  w.Continues w' ∧
    (∀ names, names ≠ (path root id).names → w'.store.text? names = w.store.text? names) ∧
    (taken = false → (w.store.text? (path root id).names).isSome = true)

omit hw hrefusing in
theorem asked_of_becomes {text : String} {w' : World Files} {taken : Bool}
    (h : w.Becomes w' (Function.update w.store.text? (path root id).names (some text)))
    (hthere : taken = false → (w.store.text? (path root id).names).isSome = true) :
    Asked w root id taken w' := by
  refine ⟨h.toContinues, fun names hne => ?_, hthere⟩
  rw [h.text, Function.update_of_ne hne]

theorem ends_takeOver_asked {record : LockRecord}
    (hthere : (w.store.text? (path root id).names).isSome = true)
    (h : ∀ taken w', Asked w root id taken w' → post (.ok taken) w') :
    (takeOver (path root id) record).Ends w post := by
  refine ends_bind (ends_replace hw _ _ (isPublic_path root id)
    (fun _ _ hrefuses => absurd hrefuses (not_refuses hrefusing _)) fun w' _ hw' => ?_)
  rw [andThen_ok]
  refine ends_bind (ends_slot ?_)
  rw [andThen_ok]
  cases slotAt w'.store (path root id) with
  | missing => exact ends_pure (h _ w' (asked_of_becomes hw' fun _ => hthere))
  | held current => exact ends_pure (h _ w' (asked_of_becomes hw' fun _ => hthere))
  | unreadable reason => exact ends_pure (h _ w' (asked_of_becomes hw' fun _ => hthere))

/-- Whatever stands in its place, a lock is taken or it is not. -/
theorem ends_acquire_asked (hid : isValidId id = true) (hnamed : Text.isAllBlank owner = false)
    (hasked : timeout.MayBeAsked) (h : ∀ taken w', Asked w root id taken w' → post (.ok taken) w') :
    (acquire root id owner timeout).Ends w post := by
  rw [acquire_eq, if_neg (by simp [hid]), if_neg (by simp [hnamed]), if_neg hasked]
  refine ends_bind (ends_now ?_)
  rw [andThen_ok, tryTake]
  refine ends_bind (ends_createNew hw _ _ (isPublic_path root id)
    (fun _ hrefuses => absurd hrefuses (not_refuses hrefusing _)) (fun old hold => ?_) fun _ w' hw' => ?_)
  · have hthere : (w.store.text? (path root id).names).isSome = true := by
      rw [hold]
      rfl
    rw [andThen_ok, if_neg Bool.false_ne_true]
    refine ends_bind (ends_slot ?_)
    rw [andThen_ok]
    cases hslot : slotAt w.store (path root id) with
    | missing =>
      rw [slotAt_eq_missing, hold] at hslot
      cases hslot
    | unreadable reason => exact ends_takeOver_asked hw hrefusing hthere h
    | held current =>
      change Ends (if current.isStale w.clock then _ else if current.owner = owner then _ else _) w post
      split
      · exact ends_takeOver_asked hw hrefusing hthere h
      · split
        · refine ends_bind (ends_replace hw _ _ (isPublic_path root id)
            (fun _ _ hrefuses => absurd hrefuses (not_refuses hrefusing _)) fun w' _ hw' => ?_)
          exact ends_pure (h true w' (asked_of_becomes hw' fun hfalse => Bool.noConfusion hfalse))
        · exact ends_pure (h false w ⟨hw.continues_self, fun _ _ => rfl, fun _ => hthere⟩)
  · rw [andThen_ok, if_pos rfl]
    exact ends_pure (h true w' (asked_of_becomes hw' fun hfalse => Bool.noConfusion hfalse))

end Open

end Locks

namespace Board
open Workboard.Action
variable {b : Board} {owner : String} {w : World Files} {t : Task}

section Refused
variable (hnamed : Text.isAllBlank owner = false) (htimeout : b.settings.lockTimeout ≤ .zero)
include hnamed htimeout

theorem ends_claim_refused (ht : t ∈ (Records.allAt w.store b.root).claimable)
    {post : Except Error Task → World Files → Prop}
    (h : post (.error (.refused t.id .lockTimeout)) w) : (b.claim t.id owner).Ends w post := by
  have hvalid := (Records.loadAt_eq_ok.mp (Records.mem_allAt.mp (Snapshot.mem_of_claimable ht))).1
  have hrefused : (Locks.acquire b.root t.id owner b.settings.lockTimeout).Ends w fun r w₁ =>
      r = .error (.refused t.id .lockTimeout) ∧ w₁ = w :=
    Locks.ends_acquire_refused hvalid hnamed htimeout ⟨rfl, rfl⟩
  refine ends_claim_asking ht hrefused ?_ ?_ ?_
  · rintro e w₁ ⟨he, rfl⟩
    cases he
    exact h
  · exact fun w₁ hw₁ => nomatch hw₁.1
  · exact fun w₁ holder hw₁ => nomatch hw₁.1

/-- A claim that is refused is passed over, so in the end there is no next task. -/
theorem ends_claimFirst_refused {ts : List Task}
    (hts : ∀ t ∈ ts, t ∈ (Records.allAt w.store b.root).claimable)
    {post : Except Error (Option Task) → World Files → Prop} (h : post (.ok none) w) :
    (b.claimFirst owner (ts.map Task.id)).Ends w post := by
  induction ts with
  | nil => exact ends_pure h
  | cons t ts ih =>
    obtain ⟨ht, hts⟩ := List.forall_mem_cons.mp hts
    rw [List.map_cons, claimFirst]
    exact ends_bind (ends_attempt (ends_claim_refused hnamed htimeout ht (ih hts)))

theorem ends_claimNext_refused {post : Except Error (Option Task) → World Files → Prop}
    (h : post (.ok none) w) : (b.claimNext owner).Ends w post := by
  refine ends_bind (Records.ends_scan ?_)
  rw [andThen_ok]
  exact ends_claimFirst_refused hnamed htimeout (fun _ ht => ht) h

end Refused

section Granted
variable (hw : w.Steady) (hrefusing : w.store.refusing = []) (hnamed : Text.isAllBlank owner = false)
  (hasked : b.settings.lockTimeout.MayBeAsked)
include hw hrefusing hnamed hasked

/-- A task that can be claimed is started, or its lock is there and in the way. -/
theorem ends_claim_asked (ht : t ∈ (Records.allAt w.store b.root).claimable)
    {post : Except Error Task → World Files → Prop}
    (hstarted : ∀ w', post (.ok (t.started owner w.clock)) w')
    (hlocked : ∀ holder w', Locks.Asked w b.root t.id false w' →
      post (.error (.alreadyLocked t.id holder)) w') : (b.claim t.id owner).Ends w post := by
  have hload := Records.mem_allAt.mp (Snapshot.mem_of_claimable ht)
  have hvalid := (Records.loadAt_eq_ok.mp hload).1
  have htodo := (Snapshot.mem_claimable.mp ht).2.1
  have hlock : (Locks.acquire b.root t.id owner b.settings.lockTimeout).Ends w fun r w₁ =>
      ∃ taken, r = .ok taken ∧ Locks.Asked w b.root t.id taken w₁ :=
    Locks.ends_acquire_asked hw hrefusing hvalid hnamed hasked fun taken w' hw' => ⟨taken, rfl, hw'⟩
  refine ends_claim_asking ht hlock ?_ ?_ ?_
  · rintro e w₁ ⟨taken, he, -⟩
    cases he
  · rintro w₁ ⟨taken, -, hcontinues, hothers, -⟩
    have hload₁ : Records.loadAt w₁.store b.root t.id = .ok t :=
      (Records.loadAt_congr (hothers _ (Records.names_path_ne_lock b.root t.id t.id))).trans hload
    refine ends_start_todo hcontinues.steady (hcontinues.refusing.trans hrefusing) hload₁ htodo fun w₂ _ => ?_
    rw [hcontinues.clock]
    exact ⟨_, rfl, hstarted w₂⟩
  · rintro w₁ holder ⟨taken, htaken, hw₁⟩
    cases htaken
    exact hlocked holder w₁ hw₁

/-- If one of the tasks has no lock, then it is claimed, or one in front of it is. -/
theorem ends_claimFirst_asked {ts : List Task}
    (hts : ∀ t ∈ ts, t ∈ (Records.allAt w.store b.root).claimable) (ht : t ∈ ts)
    (hfree : w.store.text? (Locks.path b.root t.id).names = none)
    {post : Except Error (Option Task) → World Files → Prop}
    (hsome : ∀ u w', u ∈ ts → post (.ok (some (u.started owner w.clock))) w') :
    (b.claimFirst owner (ts.map Task.id)).Ends w post := by
  induction ts generalizing w with
  | nil => cases ht
  | cons u ts ih =>
    obtain ⟨hu, hts⟩ := List.forall_mem_cons.mp hts
    rw [List.map_cons, claimFirst]
    refine ends_bind (ends_attempt (ends_claim_asked hw hrefusing hnamed hasked hu
      (fun w' => ends_pure (hsome u w' List.mem_cons_self)) ?_))
    rintro holder w' ⟨hcontinues, hothers, hthere⟩
    have hne : t.id ≠ u.id := by
      intro heq
      rw [← heq, hfree] at hthere
      exact Bool.noConfusion (hthere rfl)
    -- what can be claimed is still the same, and the task has still no lock
    have hall : Records.allAt w'.store b.root = Records.allAt w.store b.root :=
      Records.allAt_congr hw.proper hcontinues.steady.proper fun id =>
        hothers _ (Records.names_path_ne_lock b.root id u.id)
    have hfree' : w'.store.text? (Locks.path b.root t.id).names = none :=
      (hothers _ fun heq => hne (Records.eq_of_names_lock_path heq)).trans hfree
    have htail : t ∈ ts := (List.mem_cons.mp ht).resolve_left fun heq => hne (congrArg Task.id heq)
    refine ih hcontinues.steady (hcontinues.refusing.trans hrefusing) (hall ▸ hts) htail hfree' fun v w₂ hv => ?_
    rw [hcontinues.clock]
    exact hsome v w₂ (List.mem_cons_of_mem u hv)

end Granted

/-- Under valid settings the timeout of locks is never below nothing nor above a year, and it is
nothing just if the hours come to less than half a millisecond, to 53 bits. If it is above
nothing, no lock is refused for it, a task that can be claimed and has no lock is claimed, and then
there is a next task; if it is nothing, every lock and every claim is refused for it, the next
task is none, and nothing changes. -/
theorem claims_under_valid_settings (hvalid : b.settings.flaw? = none) (hw : w.Steady)
    (hrefusing : w.store.refusing = []) (hnamed : Text.isAllBlank owner = false) :
    let timeout := b.settings.lockTimeout
    let all := Records.allAt w.store b.root
    (.zero ≤ timeout ∧ timeout ≤ maxTimeout ∧
      (.zero < timeout ↔ (1 / 2 - 2 ^ (-55 : ℤ) : ℚ) ≤ b.settings.lockTimeoutHours.toRat * 3600000)) ∧
    (.zero < timeout →
      (∀ id, isValidId id = true → ((Locks.acquire b.root id owner timeout).run.runIn w).1 ≠
        .error (.refused id .lockTimeout)) ∧
      ∀ t ∈ all.claimable, w.store.text? (Locks.path b.root t.id).names = none →
        ((b.claim t.id owner).run.runIn w).1 = .ok (t.started owner w.clock) ∧
        ∃ u ∈ all.claimable, ((b.claimNext owner).run.runIn w).1 = .ok (some (u.started owner w.clock))) ∧
    (timeout = .zero →
      (∀ id, isValidId id = true → (Locks.acquire b.root id owner timeout).run.runIn w =
        (.error (.refused id .lockTimeout), w)) ∧
      (∀ t ∈ all.claimable, (b.claim t.id owner).run.runIn w = (.error (.refused t.id .lockTimeout), w)) ∧
      (b.claimNext owner).run.runIn w = (.ok none, w)) := by
  intro timeout all
  have hbounds := Settings.lockTimeout_bounds hvalid
  refine ⟨hbounds, fun hpos => ?_, fun hzero => ?_⟩
  · have hasked : timeout.MayBeAsked := by
      rintro (hle | hlt)
      · exact Int.not_le.mpr hpos hle
      · exact Int.not_le.mpr hlt hbounds.2.1
    refine ⟨fun id hid => ?_, fun t ht hfree => ⟨?_, ?_⟩⟩
    · have htaken : (Locks.acquire b.root id owner timeout).Ends w fun r _ => r ≠ .error (.refused id .lockTimeout) :=
        Locks.ends_acquire_asked hw hrefusing hid hnamed hasked fun taken _ _ => nofun
      exact htaken
    · have hclaim : (b.claim t.id owner).Ends w fun r _ => r = .ok (t.started owner w.clock) := by
        refine ends_claim_asked hw hrefusing hnamed hasked ht (fun _ => rfl) fun holder w' hw' => ?_
        have hthere := hw'.2.2 rfl
        rw [hfree] at hthere
        cases hthere
      exact hclaim
    · have hnext : (b.claimNext owner).Ends w fun r _ =>
          ∃ u ∈ all.claimable, r = .ok (some (u.started owner w.clock)) := by
        refine ends_bind (Records.ends_scan ?_)
        rw [andThen_ok]
        exact ends_claimFirst_asked hw hrefusing hnamed hasked (fun _ hu => hu) ht hfree fun u _ hu =>
          ⟨u, hu, rfl⟩
      exact hnext
  · have hle : timeout ≤ .zero := by
      rw [hzero, Duration.le_def]
    refine ⟨fun id hid => ?_, fun t ht => ?_, ?_⟩
    · have hacquire : (Locks.acquire b.root id owner timeout).Ends w fun r w' =>
          r = .error (.refused id .lockTimeout) ∧ w' = w :=
        Locks.ends_acquire_refused hid hnamed hle ⟨rfl, rfl⟩
      exact Prod.ext hacquire.1 hacquire.2
    · have hclaim : (b.claim t.id owner).Ends w fun r w' => r = .error (.refused t.id .lockTimeout) ∧ w' = w :=
        ends_claim_refused hnamed hle ht ⟨rfl, rfl⟩
      exact Prod.ext hclaim.1 hclaim.2
    · have hnext : (b.claimNext owner).Ends w fun r w' => r = .ok none ∧ w' = w :=
        ends_claimNext_refused hnamed hle ⟨rfl, rfl⟩
      exact Prod.ext hnext.1 hnext.2

theorem allAt_lone : Records.allAt Lone.world.store Lone.board.root = [Lone.task] := by
  decide +kernel

theorem lone_mem_claimable : Lone.task ∈ (Records.allAt Lone.world.store Lone.board.root).claimable := by
  rw [allAt_lone]
  exact Lone.mem_claimable

/-- With the usual timeout of four hours the only task is claimed. -/
theorem claims_under_valid_settings_lone : Lone.board.settings.flaw? = none ∧
    Lone.task ∈ (Records.allAt Lone.world.store Lone.board.root).claimable ∧
    ((Lone.board.claim "a" "x").run.runIn Lone.world).1 = .ok (Lone.task.started "x" Lone.begun) := by
  have hvalid : Lone.board.settings.flaw? = none := by decide +kernel
  have hnamed : Text.isAllBlank "x" = false := by decide
  have hclaims := (claims_under_valid_settings hvalid Lone.steady_world rfl hnamed).2.1
  have hpos : Duration.zero < Lone.board.settings.lockTimeout := by decide +kernel
  exact ⟨hvalid, lone_mem_claimable, ((hclaims hpos).2 _ lone_mem_claimable (Lone.unlocked "a")).1⟩

/-- The small board with a timeout of a ten-millionth of an hour. -/
def hasty : Board := { Lone.board with settings := { lockTimeoutHours := .ofNat 1 / .ofNat 10000000 } }

/-- The settings are valid, and nothing stands in the way of the task, but its claim is refused for
the timeout, and the next task is none. -/
theorem valid_timeout_refused : hasty.settings.flaw? = none ∧ hasty.settings.lockTimeout = .zero ∧
    Lone.task ∈ (Records.allAt Lone.world.store hasty.root).claimable ∧
    Lone.world.store.text? (Locks.path hasty.root "a").names = none ∧
    (hasty.claim "a" "x").run.runIn Lone.world = (.error (.refused "a" .lockTimeout), Lone.world) ∧
    (hasty.claimNext "x").run.runIn Lone.world = (.ok none, Lone.world) := by
  have hzero : hasty.settings.lockTimeout = .zero := by decide +kernel
  have hle : hasty.settings.lockTimeout ≤ .zero := by decide +kernel
  have hmem : Lone.task ∈ (Records.allAt Lone.world.store hasty.root).claimable := lone_mem_claimable
  have hclaim : (hasty.claim Lone.task.id "x").Ends Lone.world fun r w =>
      r = .error (.refused "a" .lockTimeout) ∧ w = Lone.world :=
    ends_claim_refused (by decide) hle hmem ⟨rfl, rfl⟩
  have hnext : (hasty.claimNext "x").Ends Lone.world fun r w => r = .ok none ∧ w = Lone.world :=
    ends_claimNext_refused (by decide) hle ⟨rfl, rfl⟩
  exact ⟨by decide +kernel, hzero, hmem, Lone.unlocked "a", Prod.ext hclaim.1 hclaim.2,
    Prod.ext hnext.1 hnext.2⟩

end Board

end Workboard
