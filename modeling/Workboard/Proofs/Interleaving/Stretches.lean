import Workboard.Proofs.Interleaving.Scene

/-!
# Runs in stretches

A run can be put together from stretches in which one party makes its calls alone. What
such a stretch does is computed from its program and the world alone, so that a given
run can be followed.
-/
namespace Workboard

namespace Program
variable {α : Type}

/-- What is left of a program after at most so many calls, unless one is not permitted. -/
def advance (permit : Memo → Call → Files → Prop) [∀ m c f, Decidable (permit m c f)] :
    Nat → Program α → Memo → World Files → Option (Program α × Memo × World Files)
  | 0, p, m, w => some (p, m, w)
  | _ + 1, .done a, m, w => some (.done a, m, w)
  | n + 1, .ask c next, m, w =>
    if permit m c w.store then
      advance permit n (next (w.answer c).1) (m.note c (w.answer c).1) (w.answer c).2
    else none

/-- The result of a program without calls. -/
def result? : Program α → Option α
  | .done a => some a
  | .ask _ _ => none

theorem result?_eq_some {p : Program α} {a : α} : p.result? = some a ↔ p = .done a := by
  cases p with
  | done b => simp [result?]
  | ask c next => simp [result?]

/-- The result of a program that ends within so many calls, and the world after it. -/
def finish? (permit : Memo → Call → Files → Prop) [∀ m c f, Decidable (permit m c f)] (n : Nat)
    (p : Program α) (m : Memo) (w : World Files) : Option (α × World Files) :=
  (p.advance permit n m w).bind fun (p, _, w) => p.result?.map (·, w)

end Program

namespace Rules
variable {ι Op ρ : Type} [DecidableEq ι] {R : Rules ι Op ρ}

theorem follows_append {s : Scene ι Op ρ} {ms ns : List (Move ι Op)} :
    R.Follows s (ms ++ ns) ↔ R.Follows s ms ∧ R.Follows (R.run s ms) ns := by
  induction ms generalizing s with
  | nil => simp [Follows]
  | cons m ms ih => simp only [List.cons_append, Follows, ih, run_cons, and_assoc]

theorem run_append (s : Scene ι Op ρ) (ms ns : List (Move ι Op)) :
    R.run s (ms ++ ns) = R.run (R.run s ms) ns := List.foldl_append

/-- A run that leads from one scene to another world and other parties. -/
def Leads (R : Rules ι Op ρ) (s : Scene ι Op ρ) (w : World Files) (party : ι → Party Op ρ) : Prop :=
  ∃ ms, R.Follows s ms ∧ (R.run s ms).world = w ∧ (R.run s ms).party = party

theorem Leads.trans {s : Scene ι Op ρ} {w w' : World Files} {party party' : ι → Party Op ρ}
    (h : R.Leads s w party)
    (hnext : ∀ s : Scene ι Op ρ, s.world = w → s.party = party → R.Leads s w' party') :
    R.Leads s w' party' := by
  obtain ⟨ms, hfollows, hworld, hparty⟩ := h
  obtain ⟨ns, hfollows', hworld', hparty'⟩ := hnext _ hworld hparty
  refine ⟨ms ++ ns, follows_append.mpr ⟨hfollows, hfollows'⟩, ?_, ?_⟩
  · rw [run_append, hworld']
  · rw [run_append, hparty']

/-- A party begins an operation. -/
theorem leads_of_begin {s : Scene ι Op ρ} {i : ι} {op : Op} (hidle : (s.party i).current = none)
    (hmay : R.may i (s.party i).past op) :
    R.Leads s s.world (Function.update s.party i
      (Party.resume ⟨(s.party i).past, none⟩ ⟨op, {}, R.body i op⟩)) := by
  refine ⟨[.begin i op], ⟨⟨hidle, hmay⟩, trivial⟩, rfl, ?_⟩
  have hparty : s.party i = ⟨(s.party i).past, none⟩ := by rw [← hidle]
  rw [run_cons, run_nil, act, ← hparty]
  rfl

variable [∀ i m c f, Decidable (R.permit i m c f)]

/-- A party makes some calls in a row. -/
theorem leads_of_advance {i : ι} {op : Op} {past : List (Op × ρ)} {p p' : Program ρ} {m m' : Memo}
    {s : Scene ι Op ρ} {w' : World Files} (n : Nat)
    (hparty : s.party i = Party.resume ⟨past, none⟩ ⟨op, m, p⟩)
    (h : p.advance (R.permit i) n m s.world = some (p', m', w')) :
    R.Leads s w' (Function.update s.party i (Party.resume ⟨past, none⟩ ⟨op, m', p'⟩)) := by
  induction n generalizing p m s with
  | zero =>
    cases h
    exact ⟨[], trivial, rfl, by rw [← hparty, Function.update_eq_self]; rfl⟩
  | succ n ih =>
    cases p with
    | done a =>
      cases h
      exact ⟨[], trivial, rfl, by rw [← hparty, Function.update_eq_self]; rfl⟩
    | ask c next =>
      simp only [Program.advance] at h
      split at h
      · rename_i hp
        have hcur : (s.party i).current = some ⟨op, m, .ask c next⟩ := by rw [hparty]; rfl
        have hact : R.act s (.call i) = ⟨(s.world.answer c).2, Function.update s.party i
            ((s.party i).resume ⟨op, m.note c (s.world.answer c).1, next (s.world.answer c).1⟩),
            s.calls ++ [(i, c)]⟩ := by
          simp only [act, Scene.call, hcur]
        have hresume : (s.party i).resume ⟨op, m.note c (s.world.answer c).1,
            next (s.world.answer c).1⟩ = Party.resume ⟨past, none⟩
              ⟨op, m.note c (s.world.answer c).1, next (s.world.answer c).1⟩ := by
          rw [hparty]
          simp only [Party.resume]
        obtain ⟨ms, hfollows, hworld, hparties⟩ := ih (s := R.act s (.call i))
          (by rw [hact, hresume]; exact Function.update_self i _ s.party) (by rw [hact]; exact h)
        refine ⟨.call i :: ms, ⟨⟨op, m, c, next, hcur, hp⟩, hfollows⟩, hworld, ?_⟩
        rw [run_cons, hparties, hact, Function.update_idem]
      · cases h

/-- A party makes all the calls that are left of its operation. -/
theorem leads_of_remaining {i : ι} {op : Op} {past : List (Op × ρ)} {p : Program ρ} {m : Memo}
    {s : Scene ι Op ρ} {a : ρ} {w' : World Files} (n : Nat)
    (hparty : s.party i = Party.resume ⟨past, none⟩ ⟨op, m, p⟩)
    (h : p.finish? (R.permit i) n m s.world = some (a, w')) :
    R.Leads s w' (Function.update s.party i ⟨past ++ [(op, a)], none⟩) := by
  obtain ⟨⟨p', m', w⟩, hadvance, hresult⟩ := Option.bind_eq_some_iff.mp h
  obtain ⟨b, hb, heq⟩ := Option.map_eq_some_iff.mp hresult
  cases heq
  obtain rfl := Program.result?_eq_some.mp hb
  exact leads_of_advance n hparty hadvance

/-- A party carries out an operation from its beginning to its end. -/
theorem leads_of_finish (R : Rules ι Op ρ) [∀ i m c f, Decidable (R.permit i m c f)]
    (s : Scene ι Op ρ) (i : ι) (op : Op) {a : ρ} {w' : World Files} (n : Nat)
    (hidle : (s.party i).current = none) (hmay : R.may i (s.party i).past op)
    (h : (R.body i op).finish? (R.permit i) n {} s.world = some (a, w')) :
    R.Leads s w' (Function.update s.party i ⟨(s.party i).past ++ [(op, a)], none⟩) := by
  refine (leads_of_begin hidle hmay).trans fun s' hworld hparty => ?_
  have hbegun : s'.party i = Party.resume ⟨(s.party i).past, none⟩ ⟨op, {}, R.body i op⟩ := by
    rw [hparty, Function.update_self]
  have hrest := leads_of_remaining n hbegun (by rw [hworld]; exact h)
  rw [hparty, Function.update_idem] at hrest
  exact hrest

end Rules

end Workboard
