import Workboard.Proofs.Interleaving.Actions

/-!
# Programs that only look

A program is quiet if none of its calls changes a file, whatever the calls are answered.
Such a program does not have to be followed part by part: what is known to be stable
before it is still known after it.
-/
namespace Workboard

namespace Program
variable {α β : Type}

/-- All calls of the program only look. -/
def Quiet : Program α → Prop
  | .done _ => True
  | .ask c next => c.Looks ∧ ∀ r, (next r).Quiet

theorem Quiet.bind {p : Program α} {f : α → Program β} (h : p.Quiet) (hf : ∀ a, (f a).Quiet) :
    (p >>= f).Quiet := by
  change (p.bind f).Quiet
  induction p with
  | done a => exact hf a
  | ask c next ih => exact ⟨h.1, fun r => ih r (h.2 r)⟩

end Program

namespace Action
variable {α β : Type}

/-- The action only looks. -/
def Quiet (a : Action α) : Prop := a.run.Quiet

theorem quiet_pure (x : α) : Quiet (pure x) := trivial

theorem quiet_throw (e : Error) : Quiet (throw e : Action α) := trivial

theorem quiet_settle (r : Except Error α) : Quiet (settle r) := trivial

theorem quiet_ask {c : Call} (h : c.Looks) : Quiet (ask c) := ⟨h, fun _ => trivial⟩

theorem quiet_now : Quiet now := quiet_ask (c := .now) trivial

theorem quiet_read (p : Path) : Quiet (read p) := quiet_ask (c := .read p) trivial

theorem quiet_present (p : Path) : Quiet (present p) := quiet_ask (c := .present p) trivial

theorem quiet_list (p : Path) : Quiet (list p) := quiet_ask (c := .list p) trivial

theorem Quiet.bind {a : Action α} {f : α → Action β} (h : Quiet a) (hf : ∀ x, Quiet (f x)) :
    Quiet (a >>= f) := by
  refine Program.Quiet.bind h fun r => ?_
  cases r with
  | ok x => exact hf x
  | error e => trivial

theorem Quiet.attempt {a : Action α} (h : Quiet a) : Quiet (attempt a) :=
  Program.Quiet.bind (p := a.run) (f := fun r => pure (Except.ok r)) h fun _ => trivial

theorem Quiet.orFail {a : Action (Except Failure α)} (h : Quiet a) : Quiet (orFail a) := by
  refine h.bind fun r => ?_
  cases r with
  | ok x => exact quiet_pure x
  | error failure => exact quiet_throw _

end Action

namespace Protocol
variable {ι α : Type} {P : Protocol ι} {i : ι} {permit : Memo → Call → Files → Prop}
  {mid : Sight ι → Prop} {m : Memo} {v : Sight ι} {A : Sight ι → Prop}

/-- A program that only looks leaves what is stable. -/
theorem keeps_program_of_quiet {p : Program α} (hp : p.Quiet) (hA : P.Stable i A)
    (hmid : ∀ v, A v → mid v) {post : α → Memo → Sight ι → Prop} (hv : A v)
    (hpost : ∀ a m u, A u → post a m u) : P.Keeps i permit mid post p m v := by
  induction p generalizing m v with
  | done a => exact hpost a m v hv
  | ask c next ih =>
    intro u hu
    have hAu := hA v u hu.rely hv
    refine ⟨hmid u hAu, fun _ r g hy => ?_⟩
    obtain rfl := hy.eq_of_looks hp.1
    have hshy : c.Shy m.token := .inl hp.1
    exact ⟨grants_of_shy hshy hy, ih r (hp.2 r) (hA u _ (P.shy hshy (.refl _)) hAu)⟩

theorem keeps_of_quiet {a : Action α} (ha : Action.Quiet a) (hA : P.Stable i A)
    (hmid : ∀ v, A v → mid v) {post : Except Error α → Memo → Sight ι → Prop} (hv : A v)
    (hpost : ∀ r m u, A u → post r m u) : P.Keeps i permit mid post a.run m v :=
  keeps_program_of_quiet ha hA hmid hv hpost

end Protocol

end Workboard
