import Workboard.Proofs.Board.Contending
import Workboard.Proofs.Board.Lone

/-!
# One task for one id

Any number of parties create a task under the same id, and their calls on the files mix in
any order. As long as nobody has created the record nobody has changed a file, so each party
finds the board as it was and gets on. Once the record is there nobody touches it again, and
the parties that come too late are refused, wherever they have come to by then. Main
statement: in the end one party was told of its task, which is the one on record, and all
others were refused.
-/
namespace Workboard.Board
open Workboard.Action
variable {b : Board} {id : String}

section Creators
variable {ι : Type}

/-- Each party creates its task once. -/
def creators (b : Board) (n : ι → NewTask) : Rules ι Unit (Except Error Task) where
  body i _ := (b.create (n i)).run
  may _ past _ := past = []
  permit _ _ _ _ := True

instance (n : ι → NewTask) (i : ι) (past : List (Unit × Except Error Task)) (op : Unit) :
    Decidable ((b.creators n).may i past op) :=
  inferInstanceAs (Decidable (past = []))

instance (n : ι → NewTask) (i : ι) (m : Memo) (c : Call) (f : Files) :
    Decidable ((b.creators n).permit i m c f) :=
  inferInstanceAs (Decidable True)

/-- A party that has not come to an end, and has not created the record. -/
def Waits (b : Board) (id : String) (party : Party Unit (Except Error Task)) : Prop :=
  party.past = [] ∧ ∀ r, party.current = some r → Contends (Records.path b.root id) id r.program

/-- A party that came too late. -/
def IsRefused (id : String) (party : Party Unit (Except Error Task)) : Prop :=
  party.current = none ∧ ∃ why, party.past = [((), .error (.refused id why))]

/-- The party that has created the record. -/
def HasCreated (b : Board) (id : String) (t : Task) (party : Party Unit (Except Error Task)) : Prop :=
  (party.past = [] ∧ ∃ r, party.current = some r ∧
    r.program.Always (Call.Spares (Records.path b.root id).names) fun x => x = .ok t) ∨
  (party.current = none ∧ party.past = [((), .ok t)])

variable {party : Party Unit (Except Error Task)} {r : Running Unit (Except Error Task)}

theorem waits_or_refused_resume (hpast : party.past = [])
    (hr : Contends (Records.path b.root id) id r.program) :
    b.Waits id (party.resume r) ∨ IsRefused id (party.resume r) := by
  obtain ⟨op, memo, program⟩ := r
  cases program with
  | done x =>
    obtain ⟨why, rfl⟩ := hr
    refine .inr ⟨rfl, why, ?_⟩
    rw [Party.resume, hpast]
    rfl
  | ask c next =>
    refine .inl ⟨hpast, fun r' hr' => ?_⟩
    obtain rfl := Option.some.inj hr'
    exact hr

theorem hasCreated_resume {t : Task} (hpast : party.past = [])
    (hr : r.program.Always (Call.Spares (Records.path b.root id).names) fun x => x = .ok t) :
    b.HasCreated id t (party.resume r) := by
  obtain ⟨op, memo, program⟩ := r
  cases program with
  | done x =>
    obtain rfl : x = .ok t := hr
    refine .inr ⟨rfl, ?_⟩
    rw [Party.resume, hpast]
    rfl
  | ask c next => exact .inl ⟨hpast, _, rfl, hr⟩

/-- Nobody has created the record: the files are as at the beginning, and each party is on its way
to success if it is left alone. -/
structure Undecided (b : Board) (id : String) (f₀ : Files) (s : Scene ι Unit (Except Error Task)) : Prop where
  store : s.world.store = f₀
  waits : ∀ i, b.Waits id (s.party i)
  promising : ∀ i r x g, (s.party i).current = some r → r.program.Reaches (fun _ => True) f₀ x g →
    ∃ t, x = .ok t

/-- One party has created the record, and the others come too late. -/
structure Decided (b : Board) (id : String) (i : ι) (t : Task) (s : Scene ι Unit (Except Error Task)) :
    Prop where
  named : t.id = id
  refusing : s.world.store.refusing = []
  record : s.world.store.text? (Records.path b.root id).names = some (Record.render t)
  winner : b.HasCreated id t (s.party i)
  others : ∀ j, j ≠ i → b.Waits id (s.party j) ∨ IsRefused id (s.party j)

variable [DecidableEq ι] {n : ι → NewTask} {f₀ : Files} {s : Scene ι Unit (Except Error Task)}

/-- A party that goes on while nobody has created the record. -/
theorem undecided_resume (h : b.Undecided id f₀ s) {w : World Files} {calls : List (ι × Call)} {i : ι}
    {r : Running Unit (Except Error Task)} (hstore : w.store = f₀) (hpast : (s.party i).past = [])
    (hcontends : Contends (Records.path b.root id) id r.program)
    (hpromising : ∀ x g, r.program.Reaches (fun _ => True) f₀ x g → ∃ t, x = .ok t) :
    b.Undecided id f₀ ⟨w, Function.update s.party i ((s.party i).resume r), calls⟩ := by
  -- it has not come to its end, since it would have been refused there
  obtain ⟨op, memo, program⟩ := r
  have hresume : (s.party i).resume ⟨op, memo, program⟩ = ⟨(s.party i).past, some ⟨op, memo, program⟩⟩ := by
    cases program with
    | ask c next => rfl
    | done x =>
      obtain ⟨why, rfl⟩ := hcontends
      obtain ⟨t, heq⟩ := hpromising _ f₀ ⟨rfl, rfl⟩
      cases heq
  rw [hresume]
  refine ⟨hstore, fun j => ?_, fun j r x g hcur => ?_⟩
  · simp only [Function.update_apply]
    split
    · refine ⟨hpast, fun r hr => ?_⟩
      obtain rfl := Option.some.inj hr
      exact hcontends
    · exact h.waits j
  · simp only [Function.update_apply] at hcur
    split at hcur
    · obtain rfl := Option.some.inj hcur
      exact hpromising x g
    · exact h.promising j r x g hcur

/-- While nobody has created the record, a move leaves it so, or it creates the record. -/
theorem undecided_act (hid : ∀ i, (n i).id = some id) (hopen : f₀.refusing = [])
    (hadmits : ∀ i, b.Admits (n i) id f₀) (h : b.Undecided id f₀ s) {m : Move ι Unit}
    (hallow : (b.creators n).Allows s m) :
    b.Undecided id f₀ ((b.creators n).act s m) ∨ ∃ i t, b.Decided id i t ((b.creators n).act s m) := by
  cases m with
  | clock t => exact .inl ⟨h.store, h.waits, h.promising⟩
  | begin i op =>
    have hbody : (b.creators n).body i op = (b.insertAs (n i) none id).run := by
      change (b.insert (n i) none).run = _
      rw [insert_eq, hid i]
    refine .inl (undecided_resume h h.store (h.waits i).1 ?_ fun x g hreach => ?_)
    · rw [hbody]
      exact contends_insertAs (hadmits i)
    · rw [hbody] at hreach
      exact inserted_of_admits hopen (hadmits i) hreach
  | call i =>
    obtain ⟨op, memo, c, next, hcur, -⟩ := hallow
    have hcontends := (h.waits i).2 _ hcur
    rw [Rules.act_call _ hcur]
    obtain ⟨hstore, hnext⟩ | ⟨-, t, ht, hstore, hnext⟩ := contends_answer (h.store ▸ hopen) hcontends
    · rw [h.store] at hstore
      refine .inl (undecided_resume h hstore (h.waits i).1 hnext fun x g hreach => ?_)
      refine h.promising i _ x g hcur ⟨s.world, h.store, trivial, ?_⟩
      rwa [hstore]
    · refine .inr ⟨i, t, ht, ?_, ?_, ?_, fun j hj => ?_⟩
      · rw [World.refusing_answer, h.store, hopen]
      · change (s.world.answer c).2.store.text? _ = _
        rw [hstore, Files.text?_put, if_pos rfl]
      · simp only [Function.update_self]
        exact hasCreated_resume (h.waits i).1 hnext
      · simp only [Function.update_of_ne hj]
        exact .inl (h.waits j)

/-- Once the record is there, no move touches it. -/
theorem decided_act (hid : ∀ i, (n i).id = some id) (hadmits : ∀ i, b.Admits (n i) id f₀) {i : ι} {t : Task}
    (h : b.Decided id i t s) {m : Move ι Unit} (hallow : (b.creators n).Allows s m) :
    b.Decided id i t ((b.creators n).act s m) := by
  cases m with
  | clock t => exact ⟨h.named, h.refusing, h.record, h.winner, h.others⟩
  | begin j op =>
    obtain ⟨hcur, hpast⟩ := hallow
    have hbody : (b.creators n).body j op = (b.insertAs (n j) none id).run := by
      change (b.insert (n j) none).run = _
      rw [insert_eq, hid j]
    -- the winner has begun before
    have hij : i ≠ j := by
      rintro rfl
      obtain ⟨-, r, hr, -⟩ | ⟨-, hr⟩ := h.winner
      · cases hcur.symm.trans hr
      · cases hpast.symm.trans hr
    refine ⟨h.named, h.refusing, h.record, ?_, fun k hk => ?_⟩
    · simp only [Rules.act, Scene.setParty, Function.update_of_ne hij]
      exact h.winner
    · simp only [Rules.act, Scene.setParty, Function.update_apply]
      split
      · refine waits_or_refused_resume hpast ?_
        rw [hbody]
        exact contends_insertAs (hadmits j)
      · exact h.others k hk
  | call j =>
    obtain ⟨op, memo, c, next, hcur, -⟩ := hallow
    rw [Rules.act_call _ hcur]
    have hrefusing : (s.world.answer c).2.store.refusing = [] :=
      (World.refusing_answer c s.world).trans h.refusing
    by_cases hij : i = j
    · -- the winner spares its record
      subst hij
      obtain ⟨hpast, r, hr, hspares⟩ | ⟨hr, -⟩ := h.winner
      · obtain rfl := Option.some.inj (hr.symm.trans hcur)
        have hyields := c.yields_answer s.world
        refine ⟨h.named, hrefusing, (hyields.text_of_spares hspares.1).trans h.record, ?_, fun k hk => ?_⟩
        · simp only [Function.update_self]
          exact hasCreated_resume hpast (hspares.2 _ _ _ hyields)
        · simp only [Function.update_of_ne hk]
          exact h.others k hk
      · cases hr.symm.trans hcur
    · obtain ⟨hpast, hwaits⟩ | ⟨hr, -⟩ := h.others j (Ne.symm hij)
      · obtain ⟨hstore, hnext⟩ | ⟨hnone, -⟩ := contends_answer h.refusing (hwaits _ hcur)
        · refine ⟨h.named, hrefusing, ?_, ?_, fun k hk => ?_⟩
          · simp only [hstore]
            exact h.record
          · simp only [Function.update_of_ne hij]
            exact h.winner
          · simp only [Function.update_apply]
            split
            · exact waits_or_refused_resume hpast hnext
            · exact h.others k hk
        · cases hnone.symm.trans h.record
      · cases hr.symm.trans hcur

/-- Parties create tasks under one id that is not yet in use, and each of them alone would succeed.
When all have come to their ends, exactly one of them has succeeded, with the task that is on record;
the others were refused. -/
theorem created_once [Nonempty ι] {w : World Files} (hid : ∀ i, (n i).id = some id)
    (hopen : w.store.refusing = []) (halone : ∀ i, ∃ t, ((b.create (n i)).run.runIn w).1 = .ok t)
    {ms : List (Move ι Unit)} (hrun : (b.creators n).Follows (.start w) ms) :
    let s := (b.creators n).run (.start w) ms
    (∀ i, (s.party i).current = none ∧ (s.party i).past ≠ []) →
    ∃ i t, (s.party i).past = [((), .ok t)] ∧
      (∀ j, j ≠ i → ∃ why, (s.party j).past = [((), .error (.refused id why))]) ∧
      s.world.store.text? (Records.path b.root id).names = some (Record.render t) ∧
      (Record.parse (Record.render t) = .ok t → Records.loadAt s.world.store b.root id = .ok t) := by
  intro s hended
  have hadmits : ∀ i, b.Admits (n i) id w.store := by
    intro i
    obtain ⟨t, ht⟩ := halone i
    have hreach : (b.insert (n i) none).Reaches (fun _ => True) w.store (.ok t) _ :=
      reaches_runIn ht trivial
    rw [insert_eq, hid i] at hreach
    exact admits_of_insertAs hreach
  have hstart : b.Undecided id w.store (.start w : Scene ι Unit (Except Error Task)) :=
    ⟨rfl, fun _ => ⟨rfl, fun r hr => by cases hr⟩, fun _ r x g hcur => by cases hcur⟩
  have hs : b.Undecided id w.store s ∨ ∃ i t, b.Decided id i t s := by
    have hstep : ∀ s m, (b.Undecided id w.store s ∨ ∃ i t, b.Decided id i t s) →
        (b.creators n).Allows s m → b.Undecided id w.store ((b.creators n).act s m) ∨
          ∃ i t, b.Decided id i t ((b.creators n).act s m) := by
      intro s m hs hallow
      obtain hs | ⟨i, t, hs⟩ := hs
      · exact undecided_act hid hopen hadmits hs hallow
      · exact .inr ⟨i, t, decided_act hid hadmits hs hallow⟩
    exact Rules.run_induction hstep (.inl hstart) hrun
  obtain hs | ⟨i, t, hs⟩ := hs
  · obtain ⟨i⟩ := ‹Nonempty ι›
    exact absurd (hs.waits i).1 (hended i).2
  · refine ⟨i, t, ?_, fun j hj => ?_, hs.record, fun hparse => ?_⟩
    · obtain ⟨-, r, hr, -⟩ | ⟨-, hpast⟩ := hs.winner
      · cases (hended i).1.symm.trans hr
      · exact hpast
    · obtain ⟨hpast, -⟩ | ⟨-, hrefused⟩ := hs.others j hj
      · exact absurd hpast (hended j).2
      · exact hrefused
    · refine Records.loadAt_eq_ok.mpr ⟨(hadmits i).valid, _, hs.record, ?_⟩
      rw [Records.read, hparse]
      exact if_pos hs.named

end Creators

/-- Two parties create the same task on an empty board. Both find that there is no such record, and
the one that is slower to create it is refused. -/
theorem created_once_late :
    let n : Bool → NewTask := fun first =>
      if first then { id := some "b", title := "X" } else { id := some "b", title := "Y" }
    let w : World Files := ⟨{}, Lone.begun, 0, 4, 0⟩
    let moves : List (Move Bool Unit) := [.begin true (), .call true, .call true, .call true, .begin false ()] ++
      List.replicate 5 (.call false) ++ [.call true]
    let s := (Lone.board.creators n).run (.start w) moves
    (s.party true).past = [((), .error (.refused "b" .taken))] ∧
      ∃ t, (s.party false).past = [((), .ok t)] ∧
        s.world.store.text? (Records.path Lone.board.root "b").names = some (Record.render t) := by
  intro n w moves
  let task : Bool → Task := fun first =>
    { id := "b", title := if first then "X" else "Y", state := .todo, createdAt := Lone.begun, updatedAt := Lone.begun }
  have hid : ∀ i, (n i).id = some "b" := by decide
  obtain ⟨halone, hrun, hlost, hended⟩ :
      (∀ i, ((Lone.board.create (n i)).run.runIn w).1 = .ok (task i)) ∧
      (Lone.board.creators n).Follows (.start w) moves ∧
      (((Lone.board.creators n).run (.start w) moves).party true).past =
        [((), .error (.refused "b" .taken))] ∧
      ∀ i, (((Lone.board.creators n).run (.start w) moves).party i).current.isNone = true ∧
        (((Lone.board.creators n).run (.start w) moves).party i).past ≠ [] := by
    decide +kernel
  obtain ⟨i, t, hwon, -, hrecord, -⟩ := created_once hid rfl (fun i => ⟨task i, halone i⟩) hrun
    fun i => ⟨Option.isNone_iff_eq_none.mp (hended i).1, (hended i).2⟩
  refine ⟨hlost, t, ?_, hrecord⟩
  cases i with
  | true => cases hlost.symm.trans hwon
  | false => exact hwon

end Workboard.Board
