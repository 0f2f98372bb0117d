import Workboard.Proofs.Lock.Granting
import Workboard.Proofs.Time.Order

/-!
# Signs of life

An owner shows that it is still at work by renewing its lock, or by taking it once more. Either call
keeps the time since which the lock is held. To renew never sets the last sign of life back; to take
the lock once more puts the reading of the clock in its place, whatever that is. Main statement: along
any calls of the owner the signs of life go on exactly if none of the calls that took the lock once
more came before the last of them, and none is earlier than the lock exactly if none of those calls is.
-/
namespace Workboard.Locks
open Workboard.Action
variable {shows : Instant → Prop} {f g : Files} {root p : Path} {id owner : String}

/-- A record that was written with times of the supported years is read back with them. -/
theorem Slot.times_of_ofText_render {r r' : LockRecord} (h : Slot.ofText r.render = .held r')
    (hacquired : r.acquiredAt.IsTime ∧ r.acquiredAt.inRange = true)
    (hbeat : r.heartbeatAt.IsTime ∧ r.heartbeatAt.inRange = true) :
    r'.acquiredAt = r.acquiredAt ∧ r'.heartbeatAt = r.heartbeatAt := by
  unfold Slot.ofText at h
  split at h
  · cases h
  · rename_i found hfound
    split at h
    · cases h
    · cases h
      obtain ⟨-, -, hread, hread'⟩ := LockRecord.leading_of_ofText?_render hfound
      rw [Instant.ofText?_toZuluText hacquired.1 hacquired.2] at hread
      rw [Instant.ofText?_toZuluText hbeat.1 hbeat.2] at hread'
      exact ⟨(Option.some.inj hread).symm, (Option.some.inj hread').symm⟩

section Own
variable {current : LockRecord} {timeout : Duration} {now : Instant} {passes : Nat} {record : LockRecord}

/-- A lock file that is there is looked at, and not created. -/
theorem reaches_tryTake_held {r : Except Error Bool} (hheld : slotAt f p = .held current)
    (h : (tryTake p record now (passes + 1)).Reaches shows f r g) :
    (∃ e, r = .error e ∧ f.Kept g) ∨
      (if current.isStale now then takeOver p record
        else if current.owner = record.owner then
          replace p { record with acquiredAt := current.acquiredAt }.render >>= fun _ => pure true
        else pure false).Reaches shows f r g := by
  obtain ⟨e, hcreate, rfl⟩ | ⟨created, f₁, hcreate, hrest⟩ := reaches_bind.mp h
  · obtain ⟨_, -, rfl⟩ | ⟨heq, -⟩ | ⟨heq, -⟩ := reaches_createNew hcreate
    · exact .inl ⟨e, rfl, .refl _ _⟩
    · cases heq
    · cases heq
  obtain ⟨_, heq, -⟩ | ⟨heq, rfl, -⟩ | ⟨-, -, hnone⟩ := reaches_createNew hcreate
  · cases heq
  · obtain rfl := Except.ok.inj heq
    obtain ⟨e, hslot, -⟩ | ⟨s, f₂, hslot, hrest⟩ := reaches_bind.mp hrest
    · cases (reaches_slot hslot).1
    obtain ⟨heq, rfl⟩ := reaches_slot hslot
    obtain rfl := Except.ok.inj heq
    simp only [hheld] at hrest
    exact .inr hrest
  · rw [slotAt_eq_missing.mpr hnone] at hheld
    cases hheld

/-- A file is replaced and then something is answered, or nothing changes. -/
theorem reaches_replace_pure {s : String} {b : Bool} {r : Except Error Bool}
    (h : (replace p s >>= fun _ => pure b).Reaches shows f r g) :
    (∃ e, r = .error e ∧ f.Kept g) ∨ (r = .ok b ∧ g.text? p.names = some s) := by
  obtain ⟨e, hreplace, rfl⟩ | ⟨_, f₁, hreplace, rfl, rfl⟩ := reaches_bind.mp h
  · obtain ⟨_, -, hkept, -⟩ | ⟨heq, -⟩ := reaches_replace hreplace
    · exact .inl ⟨e, rfl, hkept⟩
    · cases heq
  · obtain ⟨_, heq, -⟩ | ⟨-, -, htext⟩ := reaches_replace hreplace
    · cases heq
    · exact .inr ⟨rfl, htext⟩

/-- Whoever takes a lock over and has it then has written the record. -/
theorem text_of_takeOver (h : (takeOver p record).Reaches shows f (.ok true) g) :
    g.text? p.names = some record.render := by
  obtain ⟨_, f₁, hreplace, hrest⟩ := reaches_bind_ok h
  obtain ⟨s, hslot, hrest⟩ := (quiet_slot p).reaches_bind_ok hrest
  have hsame : g = f₁ := by
    cases s with
    | missing => exact hrest.2
    | held record => exact hrest.2
    | unreadable reason => exact hrest.2
  obtain ⟨_, heq, -⟩ | ⟨-, -, htext⟩ := reaches_replace hreplace
  · cases heq
  · rwa [hsame]

/-- Who has the lock and takes it once more goes on with it. -/
theorem reaches_acquire_again {r : Except Error Bool} (hheld : slotAt f (path root id) = .held current)
    (hown : current.owner = owner) (hfresh : ∀ now, shows now → current.isStale now = false)
    (h : (acquire root id owner timeout).Reaches shows f r g) :
    (∃ e, r = .error e ∧ f.Kept g) ∨ ∃ now, shows now ∧ r = .ok true ∧
      g.text? (path root id).names =
        some { LockRecord.new id owner now timeout with acquiredAt := current.acquiredAt }.render := by
  obtain herr | ⟨now, hshown, -, -, htries⟩ := reaches_acquire_tries h
  · exact .inl herr
  obtain herr | hagain := reaches_tryTake_held hheld htries
  · exact .inl herr
  rw [hfresh now hshown, if_neg Bool.false_ne_true,
    if_pos (show current.owner = (LockRecord.new id owner now timeout).owner from hown)] at hagain
  obtain herr | ⟨rfl, htext⟩ := reaches_replace_pure hagain
  · exact .inl herr
  · exact .inr ⟨now, hshown, rfl, htext⟩

/-- Who takes a lock that it does not have, or no longer, begins with it. -/
theorem text_of_acquire_new
    (hnew : ∀ current, slotAt f (path root id) = .held current → current.owner = owner →
      ∀ now, shows now → current.isStale now = true)
    (h : (acquire root id owner timeout).Reaches shows f (.ok true) g) :
    ∃ now, shows now ∧ g.text? (path root id).names = some (LockRecord.new id owner now timeout).render := by
  obtain ⟨_, heq, -⟩ | ⟨now, hshown, -, -, htries⟩ := reaches_acquire_tries h
  · cases heq
  refine ⟨now, hshown, ?_⟩
  obtain ⟨_, heq, -⟩ | ⟨_, heq, htry⟩ := reaches_tryTake htries
  · cases heq
  obtain rfl := Except.ok.inj heq
  cases htry with
  | written kept text told => exact text
  | again held own kept text =>
    obtain ⟨_, heq, -⟩ | hstale := reaches_tryTake_held held htries
    · cases heq
    rw [hnew _ held own now hshown, if_pos rfl] at hstale
    exact text_of_takeOver hstale

/-- The own lock is renewed, or nothing changes. -/
theorem reaches_renew_own {r : Except Error Bool} (hheld : slotAt f (path root id) = .held current)
    (hown : current.owner = owner) (h : (renew root id owner).Reaches shows f r g) :
    (∃ e, r = .error e ∧ f.Kept g) ∨ ∃ now, shows now ∧ r = .ok true ∧
      g.text? (path root id).names =
        some { current with heartbeatAt := max now current.heartbeatAt }.render := by
  obtain ⟨e, hcheck, rfl⟩ | ⟨_, f₁, hcheck, hrest⟩ := reaches_bind.mp h
  · obtain ⟨rfl, -⟩ := reaches_checkId hcheck
    exact .inl ⟨e, rfl, .refl _ _⟩
  obtain ⟨rfl, -⟩ := reaches_checkId hcheck
  obtain ⟨e, hslot, -⟩ | ⟨s, f₂, hslot, hrest⟩ := reaches_bind.mp hrest
  · cases (reaches_slot hslot).1
  obtain ⟨hfound, rfl⟩ := reaches_slot hslot
  obtain rfl := Except.ok.inj hfound
  simp only [hheld, if_pos hown] at hrest
  obtain ⟨e, hnow, -⟩ | ⟨now, f₃, hnow, hreplace⟩ := reaches_bind.mp hrest
  · obtain ⟨_, -, heq, -⟩ := reaches_now hnow
    cases heq
  obtain ⟨_, hshown, hread, rfl⟩ := reaches_now hnow
  obtain rfl := Except.ok.inj hread
  obtain herr | ⟨rfl, htext⟩ := reaches_replace_pure hreplace
  · exact .inl herr
  · exact .inr ⟨now, hshown, rfl, htext⟩

end Own

/-- What an owner does to show that it is still at work. -/
inductive Beat where
  | acquire (timeout : Duration)
  | renew

/-- A call of the owner, at an instant that the clock can show. -/
structure Pulse where
  now : Instant
  supported : now.IsTime ∧ now.inRange = true
  beat : Beat

/-- The call that the owner makes. -/
def Beat.action (root : Path) (id owner : String) : Beat → Action Bool
  | .acquire timeout => Locks.acquire root id owner timeout
  | .renew => Locks.renew root id owner

/-- The call in a world whose clock shows its instant. -/
def Pulse.perform (root : Path) (id owner : String) (q : Pulse) (w : World Files) :
    Except Error Bool × World Files :=
  (q.beat.action root id owner).run.runIn { w with clock := q.now }

theorem Pulse.reaches {q : Pulse} {w : World Files} {r : Except Error Bool}
    (h : (q.perform root id owner w).1 = r) :
    (q.beat.action root id owner).Reaches (· = q.now) w.store r (q.perform root id owner w).2.store :=
  reaches_runIn (w := { w with clock := q.now }) h rfl

/-- A call with its answer, and the records of the lock before and after it. -/
structure Sign where
  pulse : Pulse
  before : LockRecord
  answer : Except Error Bool
  after : LockRecord

namespace Sign

/-- The owner took the lock once more. -/
def IsAgain (s : Sign) : Prop := (∃ timeout, s.pulse.beat = .acquire timeout) ∧ s.answer = .ok true

/-- The sign of life that the call leaves. -/
def shown (s : Sign) : Instant :=
  match s.answer, s.pulse.beat with
  | .ok true, .acquire _ => s.pulse.now
  | .ok true, .renew => max s.pulse.now s.before.heartbeatAt
  | _, _ => s.before.heartbeatAt

end Sign

/-- The owner has the lock, and has it still after the call. -/
structure Sign.Stays (root : Path) (id owner : String) (w : World Files) (s : Sign) : Prop where
  before : slotAt w.store (path root id) = .held s.before
  own : s.before.owner = owner
  fresh : s.before.isStale s.pulse.now = false
  answer : (s.pulse.perform root id owner w).1 = s.answer
  after : slotAt (s.pulse.perform root id owner w).2.store (path root id) = .held s.after
  own_after : s.after.owner = owner

instance (s : Slot) (r : LockRecord) : Decidable (s = .held r) :=
  match s with
  | .missing => .isFalse Slot.noConfusion
  | .held r' => decidable_of_iff (r' = r) (by simp)
  | .unreadable _ => .isFalse Slot.noConfusion

instance (root : Path) (id owner : String) (w : World Files) (s : Sign) :
    Decidable (s.Stays root id owner w) :=
  decidable_of_iff (slotAt w.store (path root id) = .held s.before ∧ s.before.owner = owner ∧
      s.before.isStale s.pulse.now = false ∧ (s.pulse.perform root id owner w).1 = s.answer ∧
      slotAt (s.pulse.perform root id owner w).2.store (path root id) = .held s.after ∧ s.after.owner = owner)
    ⟨fun ⟨h₁, h₂, h₃, h₄, h₅, h₆⟩ => ⟨h₁, h₂, h₃, h₄, h₅, h₆⟩, fun ⟨h₁, h₂, h₃, h₄, h₅, h₆⟩ => ⟨h₁, h₂, h₃, h₄, h₅, h₆⟩⟩

/-- Calls of the owner one after the other, throughout which the lock is its own and active. -/
def StaysActive (root : Path) (id owner : String) : World Files → List Sign → Prop
  | _, [] => True
  | w, s :: signs => s.Stays root id owner w ∧
      StaysActive root id owner (s.pulse.perform root id owner w).2 signs

instance decidableStaysActive (root : Path) (id owner : String) :
    (w : World Files) → (signs : List Sign) → Decidable (StaysActive root id owner w signs)
  | _, [] => .isTrue trivial
  | w, s :: signs =>
    haveI := decidableStaysActive root id owner (s.pulse.perform root id owner w).2 signs
    inferInstanceAs (Decidable (_ ∧ _))

namespace Sign
variable {w : World Files} {s : Sign}

/-- What is left where a call fails is what was there. -/
theorem Stays.after_eq_before (h : s.Stays root id owner w)
    (hkept : w.store.Kept (s.pulse.perform root id owner w).2.store) : s.after = s.before := by
  have hsame := slotAt_congr (hkept.text _ List.not_mem_nil (isPublic_path root id))
  exact Slot.held.inj (h.after.symm.trans (hsame.trans h.before))

/-- A call leaves the time since which the lock is held, and its own sign of life. -/
theorem Stays.times (h : s.Stays root id owner w) :
    s.after.acquiredAt = s.before.acquiredAt ∧ s.after.heartbeatAt = s.shown := by
  have hbefore := isTime_of_held h.before
  have hafter := h.after
  have hreaches := Pulse.reaches h.answer
  cases hbeat : s.pulse.beat with
  | acquire timeout =>
    rw [hbeat] at hreaches
    have hfresh : ∀ now, now = s.pulse.now → s.before.isStale now = false := by
      rintro _ rfl
      exact h.fresh
    obtain ⟨e, herr, hkept⟩ | ⟨_, rfl, hok, htext⟩ := reaches_acquire_again h.before h.own hfresh hreaches
    · rw [h.after_eq_before hkept, shown, herr]
      exact ⟨rfl, rfl⟩
    · have hshown : s.shown = s.pulse.now := by rw [shown, hok, hbeat]
      rw [slotAt_of_text? htext] at hafter
      rw [hshown]
      exact Slot.times_of_ofText_render hafter hbefore.1 s.pulse.supported
  | renew =>
    rw [hbeat] at hreaches
    obtain ⟨e, herr, hkept⟩ | ⟨_, rfl, hok, htext⟩ := reaches_renew_own h.before h.own hreaches
    · rw [h.after_eq_before hkept, shown, herr]
      exact ⟨rfl, rfl⟩
    · have hshown : s.shown = max s.pulse.now s.before.heartbeatAt := by rw [shown, hok, hbeat]
      rw [slotAt_of_text? htext] at hafter
      rw [hshown]
      refine Slot.times_of_ofText_render hafter hbefore.1 ?_
      obtain hmax | hmax := max_choice s.pulse.now s.before.heartbeatAt
      · exact hmax.symm ▸ s.pulse.supported
      · exact hmax.symm ▸ hbefore.2

/-- Only to take the lock once more can set the last sign of life back. -/
theorem le_shown_iff {t : Instant} (h : t ≤ s.before.heartbeatAt) :
    t ≤ s.shown ↔ (s.IsAgain → t ≤ s.pulse.now) := by
  unfold shown IsAgain
  split
  · rename_i hanswer hbeat
    simp [hanswer, hbeat]
  · rename_i hanswer hbeat
    simp [hbeat, h]
  · rename_i hagain hrenewed
    refine ⟨fun _ ⟨⟨timeout, hbeat⟩, hanswer⟩ => absurd hbeat (hagain timeout hanswer), fun _ => h⟩

end Sign

namespace StaysActive
variable {w : World Files} {signs : List Sign} {since last : Instant}

/-- Throughout the calls the lock is held since it was taken. -/
theorem acquired (h : StaysActive root id owner w signs)
    (hsince : ∀ r, slotAt w.store (path root id) = .held r → r.acquiredAt = since) :
    ∀ s ∈ signs, s.after.acquiredAt = since := by
  induction signs generalizing w with
  | nil => exact fun s hs => nomatch hs
  | cons s signs ih =>
    have hafter : s.after.acquiredAt = since := h.1.times.1.trans (hsince _ h.1.before)
    refine List.forall_mem_cons.mpr ⟨hafter, ih h.2 fun r hr => ?_⟩
    rwa [← Slot.held.inj (h.1.after.symm.trans hr)]

/-- The signs of life go on exactly if no call that took the lock once more came before the last one. -/
theorem isChain_iff (h : StaysActive root id owner w signs)
    (hlast : ∀ r, slotAt w.store (path root id) = .held r → r.heartbeatAt = last) :
    (last :: signs.map (·.after.heartbeatAt)).IsChain (· ≤ ·) ↔
      ∀ s ∈ signs, s.IsAgain → s.before.heartbeatAt ≤ s.pulse.now := by
  induction signs generalizing w last with
  | nil => simp
  | cons s signs ih =>
    have hrest := ih h.2 fun r hr => by rw [← Slot.held.inj (h.1.after.symm.trans hr)]
    rw [List.map_cons, List.isChain_cons_cons, hrest, List.forall_mem_cons, ← hlast _ h.1.before, h.1.times.2,
      Sign.le_shown_iff le_rfl]

/-- No sign of life is earlier than the lock exactly if no call that took it once more is. -/
theorem forall_le_iff (h : StaysActive root id owner w signs)
    (hlast : ∀ r, slotAt w.store (path root id) = .held r → since ≤ r.heartbeatAt) :
    (∀ s ∈ signs, since ≤ s.after.heartbeatAt) ↔ ∀ s ∈ signs, s.IsAgain → since ≤ s.pulse.now := by
  induction signs generalizing w with
  | nil => simp
  | cons s signs ih =>
    rw [List.forall_mem_cons, List.forall_mem_cons, ← Sign.le_shown_iff (hlast _ h.1.before), ← h.1.times.2]
    refine and_congr_right fun hafter => ih h.2 fun r hr => ?_
    rwa [← Slot.held.inj (h.1.after.symm.trans hr)]

end StaysActive

/-- An owner that takes the lock anew has it since then, for as long as it stays active, and its last sign
of life is that of the call. Its signs of life go on exactly if no later call takes the lock once more at
an instant before the last of them, and none is earlier than the lock exactly if no such call is. -/
theorem heartbeats_of_owner {first : Pulse} {timeout : Duration} {w : World Files} {signs : List Sign}
    (hfirst : first.beat = .acquire timeout)
    (hnew : ∀ r, slotAt w.store (path root id) = .held r → r.owner = owner → r.isStale first.now = true)
    (htook : (first.perform root id owner w).1 = .ok true)
    (hstays : StaysActive root id owner (first.perform root id owner w).2 signs) :
    (∀ r, slotAt (first.perform root id owner w).2.store (path root id) = .held r →
      r.acquiredAt = first.now ∧ r.heartbeatAt = first.now) ∧
    (∀ s ∈ signs, s.after.acquiredAt = first.now) ∧
    ((first.now :: signs.map (·.after.heartbeatAt)).Pairwise (· ≤ ·) ↔
      ∀ s ∈ signs, s.IsAgain → s.before.heartbeatAt ≤ s.pulse.now) ∧
    ((∀ s ∈ signs, s.after.acquiredAt ≤ s.after.heartbeatAt) ↔
      ∀ s ∈ signs, s.IsAgain → first.now ≤ s.pulse.now) := by
  have hbegin : ∀ r, slotAt (first.perform root id owner w).2.store (path root id) = .held r →
      r.acquiredAt = first.now ∧ r.heartbeatAt = first.now := by
    have hreaches := Pulse.reaches htook
    rw [hfirst] at hreaches
    have hstale : ∀ r, slotAt w.store (path root id) = .held r → r.owner = owner →
        ∀ now, now = first.now → r.isStale now = true := by
      rintro r hr hown _ rfl
      exact hnew r hr hown
    obtain ⟨_, rfl, htext⟩ := text_of_acquire_new hstale hreaches
    intro r hr
    rw [slotAt_of_text? htext] at hr
    exact Slot.times_of_ofText_render hr first.supported first.supported
  have hacquired := hstays.acquired fun r hr => (hbegin r hr).1
  refine ⟨hbegin, hacquired, ?_, ?_⟩
  · rw [← List.isChain_iff_pairwise, hstays.isChain_iff fun r hr => (hbegin r hr).2]
  · rw [← hstays.forall_le_iff fun r hr => (hbegin r hr).2.ge]
    exact forall₂_congr fun s hs => by rw [hacquired s hs]

namespace Pulse

/-- "x" takes a free lock at nine, takes it once more when its clock has been set back by ten seconds, and
renews it at ten past nine. -/
def taken : Pulse := ⟨⟨1740819600, 0⟩, ⟨⟨by decide, by decide⟩, by decide⟩, .acquire (.ofHours 4)⟩

def retaken : Pulse := ⟨⟨1740819590, 0⟩, ⟨⟨by decide, by decide⟩, by decide⟩, .acquire (.ofHours 4)⟩

def renewed : Pulse := ⟨⟨1740820200, 0⟩, ⟨⟨by decide, by decide⟩, by decide⟩, .renew⟩

end Pulse

/-- The record of the lock, taken at nine, after a sign of life. -/
def recordAt (heartbeat : Instant) : LockRecord :=
  { LockRecord.new "a" "x" Pulse.taken.now (.ofHours 4) with heartbeatAt := heartbeat }

def setBack : List Sign :=
  [⟨.retaken, recordAt Pulse.taken.now, .ok true, recordAt Pulse.retaken.now⟩,
    ⟨.renewed, recordAt Pulse.retaken.now, .ok true, recordAt Pulse.renewed.now⟩]

theorem staysActive_setBack :
    let root : Path := ⟨["/", "store"], "/store"⟩
    let taken := Pulse.taken.perform root "a" "x" ⟨{}, Pulse.taken.now, 0, 4, 0⟩
    taken.1 = .ok true ∧ StaysActive root "a" "x" taken.2 setBack := by
  decide +kernel

theorem heartbeats_of_owner_setBack :
    let root : Path := ⟨["/", "store"], "/store"⟩
    let taken := Pulse.taken.perform root "a" "x" ⟨{}, Pulse.taken.now, 0, 4, 0⟩
    StaysActive root "a" "x" taken.2 setBack ∧ (∀ s ∈ setBack, s.after.acquiredAt = Pulse.taken.now) ∧
      ((∀ s ∈ setBack, s.after.acquiredAt ≤ s.after.heartbeatAt) ↔
        ∀ s ∈ setBack, s.IsAgain → Pulse.taken.now ≤ s.pulse.now) := by
  obtain ⟨htook, hstays⟩ := staysActive_setBack
  have hfree : slotAt {} (path ⟨["/", "store"], "/store"⟩ "a") = .missing := rfl
  obtain ⟨-, hacquired, -, hearly⟩ := heartbeats_of_owner (w := ⟨{}, Pulse.taken.now, 0, 4, 0⟩) rfl
    (fun r hr => absurd (hfree.symm.trans hr) Slot.noConfusion) htook hstays
  exact ⟨hstays, hacquired, hearly⟩

/-- The owner takes its lock once more, and the last sign of life is set back before the time since which
the lock is held. -/
theorem heartbeat_set_back :
    let root : Path := ⟨["/", "store"], "/store"⟩
    let taken := Pulse.taken.perform root "a" "x" ⟨{}, Pulse.taken.now, 0, 4, 0⟩
    taken.1 = .ok true ∧ StaysActive root "a" "x" taken.2 setBack ∧
      ∃ s ∈ setBack, s.after.heartbeatAt < s.before.heartbeatAt ∧ s.after.heartbeatAt < s.after.acquiredAt :=
  ⟨staysActive_setBack.1, staysActive_setBack.2, _, List.mem_cons_self, by decide, by decide⟩

end Workboard.Locks
