import Mathlib.Control.Monad.Basic
import Mathlib.Logic.Function.Basic
import Workboard.Storage.Files

/-!
# Parties that take turns

Any number of parties work on the same files. Each carries out one operation after the
other, and an operation makes its calls one by one. Between two calls of a party the
others may make any number of theirs, and the clock may be set to any instant. A run is
a list of moves: a party begins an operation, a party makes the call it has come to,
or the clock is set. Rules say which operations there are, when a party may begin one,
and under which conditions calls are made. Nothing here is particular to locks or tasks.
-/
namespace Workboard

deriving instance DecidableEq for World

/-- What an operation was last told by the clock, the token it was last given, and the text
it has read last. -/
structure Memo where
  clock : Option Instant := none
  token : Option String := none
  content : Option String := none

/-- Take note of an answer. -/
def Memo.note (m : Memo) : (c : Call) → c.Answer → Memo
  | .now, t => { m with clock := some t }
  | .token, t => { m with token := some t }
  | .freshId, _ => m
  | .read _, r => { m with content := r.toOption }
  | .write _ _, _ => m
  | .createNew _ _, _ => m
  | .rename _ _, _ => m
  | .remove _, _ => m
  | .present _, _ => m
  | .list _, _ => m

/-- An operation under way: what is left of its program. -/
structure Running (Op ρ : Type) where
  op : Op
  memo : Memo := {}
  program : Program ρ

/-- The operations a party has finished, with their results, and the one it is in. -/
structure Party (Op ρ : Type) where
  past : List (Op × ρ) := []
  current : Option (Running Op ρ) := none

namespace Party
variable {Op ρ : Type}

/-- Go on with an operation; without calls left it is finished. -/
def resume (p : Party Op ρ) (r : Running Op ρ) : Party Op ρ :=
  match r.program with
  | .done a => ⟨p.past ++ [(r.op, a)], none⟩
  | .ask _ _ => { p with current := some r }

/-- The token that the party works with. -/
def token (p : Party Op ρ) : Option String := p.current.bind (·.memo.token)

end Party

/-- The world, the parties, and all calls that were made so far. -/
structure Scene (ι Op ρ : Type) where
  world : World Files
  party : ι → Party Op ρ
  calls : List (ι × Call) := []

inductive Move (ι Op : Type) where
  | begin (i : ι) (op : Op)
  | call (i : ι)
  | clock (t : Instant)

/-- What the parties may do. -/
structure Rules (ι Op ρ : Type) where
  /-- The program of an operation. -/
  body : ι → Op → Program ρ
  /-- A party that has finished so much may begin the operation. -/
  may : ι → List (Op × ρ) → Op → Prop
  /-- The condition under which a party makes a call on the files. -/
  permit : ι → Memo → Call → Files → Prop

namespace Scene
variable {ι Op ρ : Type}

/-- Nobody has begun anything. -/
def start (w : World Files) : Scene ι Op ρ := ⟨w, fun _ => {}, []⟩

variable [DecidableEq ι]

/-- The scene with what a party has become. -/
def setParty (s : Scene ι Op ρ) (i : ι) (p : Party Op ρ) : Scene ι Op ρ :=
  { s with party := Function.update s.party i p }

/-- The call that a party has come to is made. -/
def call (s : Scene ι Op ρ) (i : ι) : Scene ι Op ρ :=
  match (s.party i).current with
  | some ⟨op, memo, .ask c next⟩ =>
    let (r, w) := s.world.answer c
    { world := w
      party := Function.update s.party i ((s.party i).resume ⟨op, memo.note c r, next r⟩)
      calls := s.calls ++ [(i, c)] }
  | _ => s

end Scene

namespace Rules
variable {ι Op ρ : Type} [DecidableEq ι] (R : Rules ι Op ρ)

/-- What a move makes of a scene. -/
def act (s : Scene ι Op ρ) : Move ι Op → Scene ι Op ρ
  | .begin i op => s.setParty i ((s.party i).resume ⟨op, {}, R.body i op⟩)
  | .call i => s.call i
  | .clock t => { s with world := { s.world with clock := t } }

/-- What a call makes of a scene. -/
theorem act_call {s : Scene ι Op ρ} {i : ι} {op : Op} {memo : Memo} {c : Call} {next : c.Answer → Program ρ}
    (hcur : (s.party i).current = some ⟨op, memo, .ask c next⟩) :
    R.act s (.call i) = ⟨(s.world.answer c).2,
      Function.update s.party i ((s.party i).resume ⟨op, memo.note c (s.world.answer c).1,
        next (s.world.answer c).1⟩), s.calls ++ [(i, c)]⟩ := by
  simp only [act, Scene.call, hcur]

/-- The move is possible, and the rules allow it. -/
def Allows (s : Scene ι Op ρ) : Move ι Op → Prop
  | .begin i op => (s.party i).current = none ∧ R.may i (s.party i).past op
  | .call i => ∃ op memo c next, (s.party i).current = some ⟨op, memo, .ask c next⟩ ∧
      R.permit i memo c s.world.store
  | .clock _ => True

/-- All moves of a run are allowed when their turn comes. -/
def Follows (s : Scene ι Op ρ) : List (Move ι Op) → Prop
  | [] => True
  | m :: ms => R.Allows s m ∧ Follows (R.act s m) ms

instance decidableAllows [∀ i past op, Decidable (R.may i past op)]
    [∀ i m c f, Decidable (R.permit i m c f)] (s : Scene ι Op ρ) (m : Move ι Op) :
    Decidable (R.Allows s m) :=
  match m with
  | .begin i op =>
    match h : (s.party i).current with
    | none => decidable_of_iff (R.may i (s.party i).past op) (by simp [Allows, h])
    | some r => .isFalse (by simp [Allows, h])
  | .call i =>
    match h : (s.party i).current with
    | none => .isFalse (by simp [Allows, h])
    | some ⟨op, memo, .done a⟩ => .isFalse (by simp [Allows, h])
    | some ⟨op, memo, .ask c next⟩ =>
      decidable_of_iff (R.permit i memo c s.world.store) (by
        constructor
        · exact fun hp => ⟨op, memo, c, next, h, hp⟩
        · rintro ⟨_, _, _, _, hcur, hp⟩
          cases h.symm.trans hcur
          exact hp)
  | .clock _ => .isTrue trivial

instance decidableFollows [∀ i past op, Decidable (R.may i past op)]
    [∀ i m c f, Decidable (R.permit i m c f)] :
    (s : Scene ι Op ρ) → (ms : List (Move ι Op)) → Decidable (R.Follows s ms)
  | _, [] => .isTrue trivial
  | s, m :: ms =>
    haveI := decidableFollows (R.act s m) ms
    inferInstanceAs (Decidable (R.Allows s m ∧ R.Follows (R.act s m) ms))

/-- The scene after a run. -/
def run (s : Scene ι Op ρ) (ms : List (Move ι Op)) : Scene ι Op ρ := ms.foldl R.act s

@[simp] theorem run_nil (s : Scene ι Op ρ) : R.run s [] = s := rfl

@[simp] theorem run_cons (s : Scene ι Op ρ) (m : Move ι Op) (ms : List (Move ι Op)) :
    R.run s (m :: ms) = R.run (R.act s m) ms := rfl

/-- What holds at first and is kept by every allowed move holds after every run. -/
theorem run_induction {R : Rules ι Op ρ} {good : Scene ι Op ρ → Prop}
    (hstep : ∀ s m, good s → R.Allows s m → good (R.act s m)) {s : Scene ι Op ρ}
    {ms : List (Move ι Op)} (hs : good s) (h : R.Follows s ms) : good (R.run s ms) := by
  induction ms generalizing s with
  | nil => exact hs
  | cons m ms ih => exact ih (hstep s m hs h.1) h.2

end Rules

end Workboard
