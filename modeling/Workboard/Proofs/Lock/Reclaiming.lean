import Workboard.Proofs.Lock.Exclusion
import Workboard.Proofs.Lock.Granting

/-!
# Lapsed locks that many want

Any number of parties with different names go for a lock that cannot be read, or that is stale
for one of them at least. Whoever finds it so replaces the file and then reads it back, and these
calls mix in any order. What is followed is who replaced the file last: as long as nobody else
replaces it, it stays as that party left it. So that party reads back its own record. Main
statement: once all have returned, the lock names a party that was told it has the lock, and
nobody who was told the contrary.
-/
namespace Workboard

/-- The call moves a file into the place. -/
def Call.MovesTo (names : List String) : Call → Prop
  | .rename _ q => q.names = names
  | _ => False

instance (names : List String) (c : Call) : Decidable (c.MovesTo names) :=
  match c with
  | .rename _ q => inferInstanceAs (Decidable (q.names = names))
  | .createNew _ _ => .isFalse id
  | .write _ _ => .isFalse id
  | .now => .isFalse id
  | .freshId => .isFalse id
  | .token => .isFalse id
  | .read _ => .isFalse id
  | .remove _ => .isFalse id
  | .present _ => .isFalse id
  | .list _ => .isFalse id

instance (t : Instant) : Decidable t.IsTime :=
  decidable_of_iff (t.nanos < 2000000000 ∧ (t.isLeap = true → t.timeOfDay % 60 = 59))
    ⟨fun h => ⟨h.1, h.2⟩, fun h => ⟨h.nanos, h.leap⟩⟩

theorem Call.Shy.not_movesTo {token : Option String} {c : Call} (h : c.Shy token)
    (names : List String) : ¬ c.MovesTo names := by
  rcases h with h | ⟨t, p, -, -, ⟨s, rfl⟩ | rfl⟩
  · cases c <;> first | exact id | exact h.elim
  · exact id
  · exact id

section LastMover
variable {ι : Type} {names : List String} {i : ι} {c : Call} {v : Sight ι} {g : Files}

/-- Who made the last call that moves a file into the place. -/
def lastMover (names : List String) (calls : List (ι × Call)) : Option ι :=
  calls.foldl (fun last call => if call.2.MovesTo names then some call.1 else last) none

/-- Whose file is in the place: that of the last party that moved one there, where files can be
written. -/
def Sight.mover? (v : Sight ι) (names : List String) : Option ι :=
  if names ∈ v.files.refusing then none else lastMover names v.calls

theorem Sight.mover?_after (hg : g.refusing = v.files.refusing) :
    (v.after i c g).mover? names =
      if names ∉ v.files.refusing ∧ c.MovesTo names then some i else v.mover? names := by
  simp only [mover?, files_after, calls_after, hg, lastMover, List.foldl_append, List.foldl_cons,
    List.foldl_nil]
  by_cases hmem : names ∈ v.files.refusing
  · simp [hmem]
  · by_cases hc : c.MovesTo names <;> simp [hmem, hc]

theorem Sight.mover?_after_of_not (hg : g.refusing = v.files.refusing) (hc : ¬ c.MovesTo names) :
    (v.after i c g).mover? names = v.mover? names := by
  rw [mover?_after hg, if_neg fun h => hc h.2]

theorem Sight.mover?_renamed (i : ι) {p : Path} (q : Path) (hopen : p.names ∉ v.files.refusing)
    (s : String) : (v.after i (.rename q p) (Protocol.renamed v.files q.names p.names s)).mover?
      p.names = some i := by
  have hrefusing : (Protocol.renamed v.files q.names p.names s).refusing = v.files.refusing := rfl
  rw [mover?_after hrefusing]
  exact if_pos ⟨hopen, rfl⟩

end LastMover

/-- What cannot be written stays so. -/
theorem Rules.refusing_act {ι Op ρ : Type} [DecidableEq ι] (R : Rules ι Op ρ) (s : Scene ι Op ρ)
    (m : Move ι Op) : (R.act s m).world.store.refusing = s.world.store.refusing := by
  cases m with
  | begin i op => rfl
  | call i =>
    simp only [act, Scene.call]
    split
    · exact World.refusing_answer _ _
    · rfl
  | clock t => rfl

theorem Rules.refusing_run {ι Op ρ : Type} [DecidableEq ι] (R : Rules ι Op ρ) (s : Scene ι Op ρ)
    (ms : List (Move ι Op)) : (R.run s ms).world.store.refusing = s.world.store.refusing := by
  induction ms generalizing s with
  | nil => rfl
  | cons m ms ih => rw [run_cons, ih, refusing_act]

/-- A record that was written, and that can be read, is read back but for its hours. -/
theorem LockRecord.IsAsked.reread {r : LockRecord} {timeout : Duration} (h : r.IsAsked timeout)
    (hread : Locks.Slot.IsReadable r.render) :
    ∃ hours, Locks.Slot.ofText r.render = .held { r with timeoutHours := hours } := by
  obtain ⟨hours, -, hheld⟩ := (h.isSound (h.isReadable_iff.mp hread)).ofText_render
  exact ⟨hours, hheld⟩

namespace Locks
open Workboard.Action

/-- The lock is stale at the last reading of the clock, or it cannot be read. -/
def Slot.IsLapsed (s : Slot) (m : Memo) : Prop :=
  ∀ r now, s = .held r → m.clock = some now → r.isStale now = true

instance (s : Slot) (m : Memo) : Decidable (s.IsLapsed m) :=
  match s, h : m.clock with
  | .held r, some now => decidable_of_iff (r.isStale now = true) (by simp [Slot.IsLapsed, h])
  | .held r, none => .isTrue (by simp [Slot.IsLapsed, h])
  | .missing, _ => .isTrue (by simp [Slot.IsLapsed])
  | .unreadable reason, _ => .isTrue (by simp [Slot.IsLapsed])

/-- The old lock has lapsed for the party if that is demanded of it, and every text that is
written is that of a lock that can be read. The clock shows times of the supported years. -/
def Lapsing (demanded : Prop) (old : String) (m : Memo) : Call → Files → Prop
  | .read p, f => demanded → f.text? p.names = some old → (Slot.ofText old).IsLapsed m
  | .write _ text, _ => Slot.IsReadable text ∧
      ∀ now, m.clock = some now → now.IsTime ∧ now.inRange = true
  | _, _ => True

instance (demanded : Prop) [Decidable demanded] (old : String) (m : Memo) (c : Call) (f : Files) :
    Decidable (Lapsing demanded old m c f) :=
  match c with
  | .read p => inferInstanceAs (Decidable (demanded → f.text? p.names = some old → _))
  | .write _ text =>
    haveI : Decidable (∀ now, m.clock = some now → now.IsTime ∧ now.inRange = true) :=
      match h : m.clock with
      | none => .isTrue (by simp)
      | some now => decidable_of_iff (now.IsTime ∧ now.inRange = true) (by simp)
    inferInstanceAs (Decidable (Slot.IsReadable text ∧ _))
  | .createNew _ _ => .isTrue trivial
  | .now => .isTrue trivial
  | .freshId => .isTrue trivial
  | .token => .isTrue trivial
  | .rename _ _ => .isTrue trivial
  | .remove _ => .isTrue trivial
  | .present _ => .isTrue trivial
  | .list _ => .isTrue trivial

section Reclaiming
variable {ι : Type} (root : Path) (id : String) (owner : ι → String) (timeout : ι → Duration)
  (old : String) (first : ι)

/-- Each party goes for the lock once. The old lock has lapsed for the first of them at least. -/
def reclaimers : Rules ι Unit (Except Error Bool) where
  body i _ := (acquire root id (owner i) (timeout i)).run
  may _ past _ := past = []
  permit i := Lapsing (i = first) old

instance (i : ι) (past : List (Unit × Except Error Bool)) (op : Unit) :
    Decidable ((reclaimers root id owner timeout old first).may i past op) :=
  inferInstanceAs (Decidable (past = []))

instance [DecidableEq ι] (i : ι) (m : Memo) (c : Call) (f : Files) :
    Decidable ((reclaimers root id owner timeout old first).permit i m c f) :=
  inferInstanceAs (Decidable (Lapsing (i = first) old m c f))

/-- Such a lock may be asked for. -/
def MayAsk (id owner : String) (timeout : Duration) : Prop :=
  isValidId id = true ∧ Text.isAllBlank owner = false ∧ timeout.MayBeAsked

/-- The lock file is the old one, or it names the party that has replaced it last. -/
def Ordered (v : Sight ι) : Prop :=
  match v.mover? (path root id).names with
  | none => v.files.text? (path root id).names = some old
  | some j => (slotAt v.files (path root id)).owner? = some (owner j)

/-- What a party relies on: nobody replaces the lock in its name, and as long as it was the last
one to replace it, the lock file stays as it is. -/
structure Respects (i : ι) (v u : Sight ι) : Prop where
  refusing : u.files.refusing = v.files.refusing
  ordered : Ordered root id owner old v → Ordered root id owner old u
  own : u.mover? (path root id).names = some i → v.mover? (path root id).names = some i ∧
    u.files.text? (path root id).names = v.files.text? (path root id).names
  replaced : (v.mover? (path root id).names).isSome = true →
    (u.mover? (path root id).names).isSome = true

variable {root id owner timeout old first} {i : ι} {m : Memo} {u v w : Sight ι}
  {past : List (Unit × Except Error Bool)}

theorem Ordered.isSome_text? (h : Ordered root id owner old v) :
    (v.files.text? (path root id).names).isSome = true := by
  unfold Ordered at h
  split at h
  · rw [h]
    rfl
  · obtain ⟨r, hheld, -⟩ := Slot.owner?_eq_some.mp h
    obtain ⟨text, htext⟩ := exists_text_of_held hheld
    rw [htext]
    rfl

/-- Calls that move nothing into the place and leave what is there are respectful. -/
theorem respects_of_same {c : Call} {g : Files} (j : ι) (hg : g.refusing = v.files.refusing)
    (htext : g.text? (path root id).names = v.files.text? (path root id).names)
    (hsame : (v.after i c g).mover? (path root id).names = v.mover? (path root id).names) :
    Respects root id owner old j v (v.after i c g) := by
  refine ⟨hg, fun h => ?_, fun h => ⟨hsame ▸ h, htext⟩, fun h => hsame ▸ h⟩
  unfold Ordered at h ⊢
  rw [hsame, Sight.files_after, slotAt_congr htext, htext]
  exact h

/-- The parties leave each other the places they have. -/
def reclaiming (root : Path) (id : String) (owner : ι → String) (old : String) : Protocol ι where
  rely := Respects root id owner old
  refl _ _ := ⟨rfl, fun h => h, fun h => ⟨h, rfl⟩, fun h => h⟩
  trans huv hvw := ⟨hvw.refusing.trans huv.refusing, fun h => hvw.ordered (huv.ordered h),
    fun h => ⟨(huv.own (hvw.own h).1).1, (hvw.own h).2.trans (huv.own (hvw.own h).1).2⟩,
    fun h => hvw.replaced (huv.replaced h)⟩
  shy := by
    intro i j v c g token hshy hsame
    exact respects_of_same j hsame.refusing (hsame.text _ (isPublic_path root id))
      (Sight.mover?_after_of_not hsame.refusing (hshy.not_movesTo _))

/-- What a party knows before it has replaced the lock. -/
structure Waits (root : Path) (id : String) (owner : ι → String) (old : String)
    (refusing : List (List String)) (i : ι) (v : Sight ι) : Prop where
  ordered : Ordered root id owner old v
  apart : v.mover? (path root id).names ≠ some i
  refusing : v.files.refusing = refusing

/-- What a party knows after it has replaced the lock by a text. -/
structure Placed (root : Path) (id : String) (owner : ι → String) (old : String) (text : String)
    (i : ι) (v : Sight ι) : Prop where
  ordered : Ordered root id owner old v
  replaced : (v.mover? (path root id).names).isSome = true
  own : v.mover? (path root id).names = some i → v.files.text? (path root id).names = some text

variable {refusing : List (List String)}

theorem stable_waits (i : ι) :
    (reclaiming root id owner old).Stable i (Waits root id owner old refusing i) :=
  fun _ _ h hv => ⟨h.ordered hv.ordered, fun hown => hv.apart (h.own hown).1,
    h.refusing.trans hv.refusing⟩

theorem stable_placed (text : String) (i : ι) :
    (reclaiming root id owner old).Stable i (Placed root id owner old text i) :=
  fun _ _ h hv => ⟨h.ordered hv.ordered, h.replaced hv.replaced,
    fun hown => (h.own hown).2.trans (hv.own (h.own hown).1)⟩

/-- The lock is replaced by a record of the party, which has replaced it last from then on. -/
theorem keeps_move {demanded : Prop} {record : LockRecord} (hrecord : record.owner = owner i)
    {now : Instant} (hclock : m.clock = some now)
    {post : Except Error Unit → Memo → Sight ι → Prop} (hv : Waits root id owner old refusing i v)
    (hok : ∀ m u, Slot.IsReadable record.render → now.IsTime ∧ now.inRange = true →
      Placed root id owner old record.render i u → post (.ok ()) m u)
    (herr : ∀ e m u, refusing ≠ [] → Waits root id owner old refusing i u → post (.error e) m u) :
    (reclaiming root id owner old).Keeps i (Lapsing demanded old) (fun _ => True) post
      (replace (path root id) record.render).run m v := by
  refine Protocol.keeps_replace
    (W := Slot.IsReadable record.render ∧ now.IsTime ∧ now.inRange = true) (stable_waits i)
    (fun _ _ => trivial) (isPublic_path root id) hv (fun t f h => ⟨h.1, h.2 now hclock⟩) ?_ ?_ ?_
  · rintro u t hu ⟨hread, htime⟩ hopen
    have hmover := Sight.mover?_renamed i ((path root id).staged t) hopen record.render
    have hslot := slotAt_renamed root id u.files t record.render
    have htext : (Protocol.renamed u.files ((path root id).staged t).names (path root id).names
        record.render).text? (path root id).names = some record.render := by
      rw [Protocol.text?_renamed (isPublic_path root id), if_pos rfl]
    generalize hg : Protocol.renamed u.files ((path root id).staged t).names (path root id).names
      record.render = g at hmover hslot htext ⊢
    have hordered : Ordered root id owner old
        (u.after i (.rename ((path root id).staged t) (path root id)) g) := by
      unfold Ordered
      rw [hmover]
      change (slotAt g (path root id)).owner? = some (owner i)
      rw [hslot, Slot.owner?_ofText_render hread, hrecord]
    have hsome := Option.isSome_of_eq_some hmover
    refine ⟨fun j hj => ⟨hg ▸ rfl, fun _ => hordered, fun hown => ?_, fun _ => hsome⟩,
      fun m => hok m _ hread htime ⟨hordered, hsome, fun _ => htext⟩⟩
    exact absurd (Option.some.inj (hown.symm.trans hmover)) hj
  · intro u t hu hmem
    -- where nothing can be written, nobody has replaced the lock
    have hsame : (u.after i (.rename ((path root id).staged t) (path root id)) u.files).mover?
        (path root id).names = u.mover? (path root id).names := by
      rw [Sight.mover?_after rfl, if_neg fun h => h.1 hmem]
    have hrespects : ∀ j, Respects root id owner old j u (u.after i _ u.files) :=
      fun j => respects_of_same j rfl rfl hsame
    exact ⟨fun j _ => hrespects j, stable_waits i _ _ (hrespects i) hu⟩
  · intro u hu hsome e m w hw
    exact herr _ m w (hu.refusing ▸ hsome) hw

/-- What a party knows when it has not yet begun, and when it has returned. -/
structure Returned (root : Path) (id : String) (owner : ι → String) (timeout : ι → Duration)
    (old : String) (first i : ι) (past : List (Unit × Except Error Bool)) (v : Sight ι) : Prop where
  ordered : Ordered root id owner old v
  once : past = [] ∨ ∃ r, past = [((), r)]
  told : v.mover? (path root id).names = some i → past = [((), .ok true)]
  replaced : i = first → ∀ b, past = [((), .ok b)] → (v.mover? (path root id).names).isSome = true
  failed : ∀ e, past = [((), .error e)] → v.files.refusing ≠ [] ∨ ¬ MayAsk id (owner i) (timeout i)

theorem stable_returned (i : ι) (past : List (Unit × Except Error Bool)) :
    (reclaiming root id owner old).Stable i (Returned root id owner timeout old first i past) :=
  fun _ _ h hv => ⟨h.ordered hv.ordered, hv.once, fun hown => hv.told (h.own hown).1,
    fun hfirst b hb => h.replaced (hv.replaced hfirst b hb),
    fun e he => (hv.failed e he).imp_left fun hsome => h.refusing ▸ hsome⟩

/-- A party that was told it has the lock, which somebody has replaced. -/
theorem returned_true (hordered : Ordered root id owner old v)
    (hsome : (v.mover? (path root id).names).isSome = true) :
    Returned root id owner timeout old first i [((), .ok true)] v :=
  ⟨hordered, .inr ⟨_, rfl⟩, fun _ => rfl, fun _ _ _ => hsome, nofun⟩

/-- A party that was told it does not have the lock, and has not replaced it last. -/
theorem returned_false (hordered : Ordered root id owner old v)
    (hapart : v.mover? (path root id).names ≠ some i)
    (hsome : i = first → (v.mover? (path root id).names).isSome = true) :
    Returned root id owner timeout old first i [((), .ok false)] v :=
  ⟨hordered, .inr ⟨_, rfl⟩, fun h => absurd h hapart, fun hfirst _ _ => hsome hfirst, nofun⟩

theorem returned_error {e : Error} (hv : Waits root id owner old refusing i v)
    (hwhy : refusing ≠ [] ∨ ¬ MayAsk id (owner i) (timeout i)) :
    Returned root id owner timeout old first i [((), .error e)] v :=
  ⟨hv.ordered, .inr ⟨_, rfl⟩, fun h => absurd h hv.apart, fun _ => nofun,
    fun _ _ => hwhy.imp_left fun hsome => by rwa [hv.refusing]⟩

section Acquire
variable {now : Instant}

/-- Whoever takes the lock over reads back the own record if nobody has replaced it since. -/
theorem keeps_takeOver (hasked : (timeout i).MayBeAsked)
    (hclock : m.clock = some now) (hv : Waits root id owner old refusing i v) :
    (reclaiming root id owner old).Keeps i (Lapsing (i = first) old) (fun _ => True)
      (fun r _ => Returned root id owner timeout old first i [((), r)])
      (takeOver (path root id) (.new id (owner i) now (timeout i))).run m v := by
  refine Protocol.keeps_bind (keeps_move (by rfl) hclock hv (fun m u hread htime hu => ?_)
    fun e m u hsome hu => returned_error hu (.inl hsome))
  refine Protocol.keeps_bind (keeps_slot (stable_placed _ i) (fun _ _ => trivial) hu fun w hw _ hw' => ?_)
  have hrecord : (LockRecord.new id (owner i) now (timeout i)).IsAsked (timeout i) :=
    ⟨hasked, rfl, htime, htime⟩
  obtain ⟨hours, hheld⟩ := hrecord.reread hread
  by_cases hown : w.mover? (path root id).names = some i
  · rw [slotAt_of_text? (hw.own hown), hheld]
    simp only [Protocol.Then, decide_true, Bool.and_true]
    exact returned_true hw'.ordered hw'.replaced
  · -- somebody else has replaced it: what is read does not matter
    have hapart : (w.after i (.read (path root id)) w.files).mover? (path root id).names ≠ some i := by
      have hmover : (w.after i (.read (path root id)) w.files).mover? (path root id).names =
          w.mover? (path root id).names := Sight.mover?_after_of_not rfl fun h => h
      rwa [hmover]
    have hboth : ∀ b, Returned root id owner timeout old first i [((), .ok b)]
        (w.after i (.read (path root id)) w.files) := by
      intro b
      cases b with
      | true => exact returned_true hw'.ordered hw'.replaced
      | false => exact returned_false hw'.ordered hapart fun _ => hw'.replaced
    cases slotAt w.files (path root id) with
    | missing => exact hboth _
    | unreadable reason => exact hboth _
    | held current => exact hboth _

/-- There is a lock all the time, so a try is a look at it, and then what it calls for. -/
theorem keeps_tryTake_lapsed (hasked : (timeout i).MayBeAsked)
    (hclock : m.clock = some now)
    (hv : Waits root id owner old refusing i v) (passes : Nat) :
    (reclaiming root id owner old).Keeps i (Lapsing (i = first) old) (fun _ => True)
      (fun r _ => Returned root id owner timeout old first i [((), r)])
      (tryTake (path root id) (.new id (owner i) now (timeout i)) now (passes + 1)).run m v := by
  have hcreate : ∀ (u : Sight ι) (text : String) j,
      Respects root id owner old j u (u.after i (.createNew (path root id) text) u.files) :=
    fun u text j => respects_of_same j rfl rfl (Sight.mover?_after_of_not rfl fun h => h)
  refine Protocol.keeps_bind (Protocol.keeps_createNew (stable_waits i) (fun _ _ => trivial)
    (isPublic_path root id) hv ?_ ?_ ?_)
  · intro u hu _ hnone
    have hsome := hu.ordered.isSome_text?
    rw [hnone] at hsome
    cases hsome
  · intro u hu _
    refine ⟨fun j _ => hcreate u _ j, ?_⟩
    refine Protocol.keeps_bind (keeps_slot (stable_waits i) (fun _ _ => trivial)
      (stable_waits i _ _ (hcreate u _ i) hu) fun w hw hp hw' => ?_)
    have hmover : (w.after i (.read (path root id)) w.files).mover? (path root id).names =
        w.mover? (path root id).names := Sight.mover?_after_of_not rfl fun h => h
    cases hs : slotAt w.files (path root id) with
    | missing =>
      have hsome := hw.ordered.isSome_text?
      rw [slotAt_eq_missing.mp hs] at hsome
      cases hsome
    | unreadable reason => exact keeps_takeOver hasked hclock hw'
    | held current =>
      simp only [Protocol.Then]
      by_cases hstale : current.isStale now = true
      · rw [if_pos hstale]
        exact keeps_takeOver hasked hclock hw'
      rw [if_neg hstale]
      by_cases hown : current.owner = (LockRecord.new id (owner i) now (timeout i)).owner
      · rw [if_pos hown]
        have hclock' : { m with content := w.files.text? (path root id).names }.clock = some now := hclock
        refine Protocol.keeps_bind (keeps_move (by rfl) hclock' hw' (fun m u _ _ hu => ?_)
          fun e m u hsome hu => returned_error hu (.inl hsome))
        exact returned_true hu.ordered hu.replaced
      · rw [if_neg hown]
        refine returned_false hw'.ordered hw'.apart fun hfirst => ?_
        rw [hmover]
        -- the old lock would have lapsed for this party
        by_contra hnone
        have hordered := hw.ordered
        unfold Ordered at hordered
        rw [Option.not_isSome_iff_eq_none.mp hnone] at hordered
        rw [slotAt_of_text? hordered] at hs
        exact hstale (hp hfirst hordered current now hs hclock)
  · intro u hu hmem
    refine ⟨fun j _ => hcreate u _ j, fun e => ?_⟩
    exact returned_error (stable_waits i _ _ (hcreate u _ i) hu)
      (.inl (hu.refusing ▸ List.ne_nil_of_mem hmem))

theorem keeps_acquire_lapsed (hv : Waits root id owner old refusing i v) :
    (reclaiming root id owner old).Keeps i (Lapsing (i = first) old) (fun _ => True)
      (fun r _ => Returned root id owner timeout old first i [((), r)])
      (acquire root id (owner i) (timeout i)).run {} v := by
  rw [acquire_eq]
  split
  · rename_i hid
    exact returned_error hv (.inr fun h => Bool.noConfusion (hid.symm.trans h.1))
  split
  · rename_i hblank
    exact returned_error hv (.inr fun h => Bool.noConfusion (hblank.symm.trans h.2.1))
  split
  · rename_i hbounds
    exact returned_error hv (.inr fun h => h.2.2 hbounds)
  rename_i hasked
  refine Protocol.keeps_bind (Protocol.keeps_now (stable_waits i) (fun _ _ => trivial) hv
    fun now u hu => ?_)
  exact keeps_tryTake_lapsed hasked rfl hu 1

end Acquire

/-- What the parties know before and after their calls. -/
def reclaimingContract (root : Path) (id : String) (owner : ι → String) (timeout : ι → Duration)
    (old : String) (first : ι) :
    Contract (reclaimers root id owner timeout old first) (reclaiming root id owner old) where
  idle i past v := Returned root id owner timeout old first i past v
  mid _ _ _ _ := True
  stable i past := stable_returned i past
  begins := by
    rintro i past op v hv rfl
    refine keeps_acquire_lapsed ⟨hv.ordered, fun hown => ?_, rfl⟩
    cases hv.told hown

/-- Once all that went for a lapsed lock have returned, the lock can be read and names one of
them, which was told that it has the lock; nobody who was told the contrary is named. Nobody
fails who may ask for the lock, where all files can be written. -/
theorem reclaimed [DecidableEq ι] (howner : Function.Injective owner) {w : World Files}
    (hold : w.store.text? (path root id).names = some old) {ms : List (Move ι Unit)}
    (hrun : (reclaimers root id owner timeout old first).Follows (.start w) ms) :
    let s := (reclaimers root id owner timeout old first).run (.start w) ms
    (∀ i, (s.party i).current = none) →
    (∀ b, (s.party first).past = [((), .ok b)] →
      ∃ i r, slotAt s.world.store (path root id) = .held r ∧ r.owner = owner i ∧
        (s.party i).past = [((), .ok true)] ∧
        ∀ j, (s.party j).past = [((), .ok false)] → r.owner ≠ owner j) ∧
    (w.store.refusing = [] → ∀ i, MayAsk id (owner i) (timeout i) → (s.party i).past ≠ [] →
      ∃ b, (s.party i).past = [((), .ok b)]) := by
  intro s hidle
  have hstart : ∀ i, (reclaimingContract root id owner timeout old first).idle i [] ⟨w.store, []⟩ := by
    intro i
    have hmover : Sight.mover? (⟨w.store, []⟩ : Sight ι) (path root id).names = none := by
      simp [Sight.mover?, lastMover]
    refine ⟨?_, .inl rfl, fun h => ?_, fun _ => nofun, nofun⟩
    · unfold Ordered
      rw [hmover]
      exact hold
    · rw [hmover] at h
      cases h
  have hreturned : ∀ i, Returned root id owner timeout old first i (s.party i).past s.sight := by
    intro i
    have h := (reclaimingContract root id owner timeout old first).idle_or_mid hstart hrun i
    rwa [hidle i] at h
  constructor
  · intro b hb
    obtain ⟨i, hi⟩ := Option.isSome_iff_exists.mp ((hreturned first).replaced rfl b hb)
    have hordered := (hreturned i).ordered
    unfold Ordered at hordered
    rw [hi] at hordered
    obtain ⟨r, hheld, hown⟩ := Slot.owner?_eq_some.mp hordered
    have htold := (hreturned i).told hi
    refine ⟨i, r, hheld, hown, htold, fun j hj hname => ?_⟩
    obtain rfl := howner (hown.symm.trans hname)
    rw [htold] at hj
    cases hj
  · intro hopen i hmay hsome
    obtain hnone | ⟨r, hr⟩ := (hreturned i).once
    · exact absurd hnone hsome
    · cases r with
      | ok b => exact ⟨b, hr⟩
      | error e =>
        obtain hrefusing | hnot := (hreturned i).failed e hr
        · exact absurd ((Rules.refusing_run _ _ ms).trans hopen) hrefusing
        · exact absurd hmay hnot

end Reclaiming

/-- Two parties find a stale lock, and the one that replaces it first reads what the other one has
put in its place. -/
theorem reclaimed_second :
    let root : Path := ⟨["/", "store"], "/store"⟩
    let names : Bool → String := fun first => if first then "x" else "y"
    let begun : Instant := ⟨1740819600, 0⟩
    let old := (LockRecord.new "a" "z" begun (.ofMillis 1)).render
    let rules := reclaimers root "a" names (fun _ => .ofHours 4) old true
    let moves : List (Move Bool Unit) := [.clock ⟨1740819601, 0⟩, .begin true (), .begin false ()] ++
      List.replicate 5 (.call true) ++ List.replicate 5 (.call false) ++
      [.call true, .call false, .call true, .call false]
    let s := rules.run (.start ⟨{ entries := [((path root "a").names, old)] }, begun, 0, 4, 0⟩) moves
    (s.party true).past = [((), .ok false)] ∧ (s.party false).past = [((), .ok true)] ∧
      ∃ r, slotAt s.world.store (path root "a") = .held r ∧ r.owner = "y" := by
  intro root names begun old rules moves s
  have hnames : Function.Injective names := by
    intro a b h
    cases a <;> cases b <;> first | rfl | exact absurd h (by decide)
  obtain ⟨hrun, hlost, hwon, hidle⟩ : rules.Follows
        (.start ⟨{ entries := [((path root "a").names, old)] }, begun, 0, 4, 0⟩) moves ∧
      (s.party true).past = [((), .ok false)] ∧ (s.party false).past = [((), .ok true)] ∧
      ∀ i, (s.party i).current.isNone = true := by
    decide +kernel
  have hold : Files.text? { entries := [((path root "a").names, old)] } (path root "a").names =
      some old := by decide +kernel
  have hreturned : ∀ i, (s.party i).current = none := fun i => Option.isNone_iff_eq_none.mp (hidle i)
  obtain ⟨i, r, hheld, hown, -, hother⟩ := (reclaimed hnames hold hrun hreturned).1 false hlost
  refine ⟨hlost, hwon, r, hheld, ?_⟩
  cases i with
  | true => exact absurd hown (hother true hlost)
  | false => exact hown

end Locks

end Workboard
