import Workboard.Graph

/-!
# Strongly connected components

A search in depth first order numbers the ids as it meets them. For each id it notes the
lowest number of an id on its stack that is known to be reached from there. An id
that is left with its own number is the first one met of its component, which is then on
top of the stack. The calls under way are kept in a list of frames, so a long chain of
requirements does not make the search recurse. Main statement: each step brings the search
nearer to its end.
-/
namespace Workboard.Snapshot

-- The zero of a sum is that of the core library, whatever else is in scope.
attribute [local instance (high)] Zero.ofOfNat0

/-- An id whose requirements are being followed, one after the other. -/
structure Frame (all : Snapshot) where
  id : String
  followed : List String
  rest : List String
  next_eq : followed ++ rest = all.next id

/-- The frame once its next requirement has been followed. -/
def Frame.after {all : Snapshot} (f : Frame all) {x : String} {rest : List String} (h : f.rest = x :: rest) :
    Frame all :=
  ⟨f.id, f.followed ++ [x], rest, by rw [List.append_assoc, List.singleton_append, ← h, f.next_eq]⟩

/-- How far a search has come. -/
structure Search (all : Snapshot) where
  /-- The ids to begin from. -/
  roots : List String
  /-- The ids that were met, with their numbers. -/
  met : List (String × Nat) := []
  /-- The lowest number that is known for each id; the first entry counts. -/
  lows : List (String × Nat) := []
  stack : List String := []
  frames : List (Frame all) := []
  components : List (List String) := []

/-- The part of a stack down to an id, and what is left below. -/
def cutAfter (id : String) : List String → List String × List String
  | [] => ([], [])
  | x :: xs =>
    if x = id then ([x], xs)
    else
      let (above, below) := cutAfter id xs
      (x :: above, below)

namespace Search
variable {all : Snapshot}

/-- The number of an id that was met. -/
def number? (s : Search all) (id : String) : Option Nat := s.met.lookup id

/-- The lowest number that is known for an id. -/
def low (s : Search all) (id : String) : Nat := (s.lows.lookup id).getD 0

/-- Meet an id. -/
def enter (s : Search all) (id : String) : Search all :=
  { s with
    met := (id, s.met.length) :: s.met
    lows := (id, s.met.length) :: s.lows
    stack := id :: s.stack
    frames := ⟨id, [], all.next id, rfl⟩ :: s.frames }

/-- Note a number for an id, if it is lower than what is known. -/
def lower (s : Search all) (id : String) (n : Nat) : Search all :=
  { s with lows := (id, min (s.low id) n) :: s.lows }

/-- Tell the number that is known for an id to the one that led to it. -/
def report (s : Search all) (id : String) : Search all :=
  match s.frames with
  | [] => s
  | parent :: _ => s.lower parent.id (s.low id)

/-- Take a component off the stack if the id is the first one met of it. -/
def close (s : Search all) (id : String) : Search all :=
  if s.number? id = some (s.low id) then
    let (component, stack) := cutAfter id s.stack
    { s with stack, components := s.components ++ [component] }
  else s

/-- The next step, if the search is not at its end. -/
def step? (s : Search all) : Option (Search all) :=
  match s.frames with
  | [] =>
    match s.roots with
    | [] => none
    | root :: roots =>
      let s := { s with roots }
      some (if (s.number? root).isSome then s else s.enter root)
  | f :: frames =>
    match h : f.rest with
    | [] => some (({ s with frames }.report f.id).close f.id)
    | x :: _ =>
      let s := { s with frames := f.after h :: frames }
      some (match s.number? x with
        | some n => if x ∈ s.stack then s.lower f.id n else s
        | none => s.enter x)

/-- The steps, one by one. -/
inductive Moves : Search all → Search all → Prop
  | skip {s root roots} : s.frames = [] → s.roots = root :: roots → (s.number? root).isSome = true →
      Moves s { s with roots }
  | begin {s root roots} : s.frames = [] → s.roots = root :: roots → s.number? root = none →
      Moves s ({ s with roots }.enter root)
  | meet {s f frames x rest} : s.frames = f :: frames → (h : f.rest = x :: rest) → s.number? x = none →
      Moves s ({ s with frames := f.after h :: frames }.enter x)
  | lower {s f frames x rest n} : s.frames = f :: frames → (h : f.rest = x :: rest) → s.number? x = some n →
      x ∈ s.stack → Moves s ({ s with frames := f.after h :: frames }.lower f.id n)
  | pass {s f frames x rest n} : s.frames = f :: frames → (h : f.rest = x :: rest) → s.number? x = some n →
      x ∉ s.stack → Moves s { s with frames := f.after h :: frames }
  | leave {s f frames} : s.frames = f :: frames → f.rest = [] →
      Moves s (({ s with frames }.report f.id).close f.id)

theorem moves_of_step {s s' : Search all} (h : s.step? = some s') : s.Moves s' := by
  unfold step? at h
  split at h
  · rename_i hframes
    split at h
    · cases h
    · rename_i root roots hroots
      obtain rfl := Option.some.inj h
      split
      · rename_i hmet
        exact .skip hframes hroots hmet
      · rename_i hnew
        exact .begin hframes hroots (Option.not_isSome_iff_eq_none.mp hnew)
  · rename_i f frames hframes
    split at h
    · rename_i hrest
      obtain rfl := Option.some.inj h
      exact .leave hframes hrest
    · rename_i x rest hrest
      obtain rfl := Option.some.inj h
      split
      · rename_i n hmet
        split
        · rename_i hstack
          exact .lower hframes hrest hmet hstack
        · rename_i hstack
          exact .pass hframes hrest hmet hstack
      · rename_i hnew
        exact .meet hframes hrest hnew

/-- How many ids are still to be met. -/
def unmet (s : Search all) : Nat := ((all.map Task.id).filter fun x => (s.number? x).isNone).length

/-- How much is still to be done with the ids that were met. A root counts twice, as it may be an id
without a record, which has nothing to follow. -/
def pending (s : Search all) : Nat := 2 * s.roots.length + (s.frames.map fun f => f.rest.length + 1).sum

theorem number?_enter (s : Search all) (id x : String) :
    (s.enter id).number? x = if x = id then some s.met.length else s.number? x := by
  by_cases h : x = id
  · simp [enter, number?, h]
  · simp [enter, number?, h, List.lookup_cons, beq_false_of_ne h]

theorem unmet_enter {s : Search all} {id : String} (hid : id ∈ all.map Task.id)
    (hnew : s.number? id = none) : (s.enter id).unmet < s.unmet := by
  have hsplit : ((all.map Task.id).filter fun x => ((s.enter id).number? x).isNone) =
      ((all.map Task.id).filter fun x => (s.number? x).isNone).filter fun x => x ≠ id := by
    rw [List.filter_filter]
    refine List.filter_congr fun x _ => ?_
    rw [number?_enter]
    by_cases h : x = id <;> simp [h]
  rw [unmet, hsplit, unmet]
  exact List.length_filter_lt_length_iff_exists.mpr
    ⟨id, List.mem_filter.mpr ⟨hid, by simp [hnew]⟩, by simp⟩

theorem report_eq (s : Search all) (id : String) : ∃ lows, s.report id = { s with lows } := by
  unfold report
  split
  · exact ⟨s.lows, rfl⟩
  · exact ⟨_, rfl⟩

theorem close_eq (s : Search all) (id : String) :
    ∃ stack components, s.close id = { s with stack, components } := by
  unfold close
  split
  · exact ⟨_, _, rfl⟩
  · exact ⟨s.stack, s.components, rfl⟩

/-- Each step meets an id, or it leaves less to be done with those that were met. -/
theorem Moves.decreases {s s' : Search all} (h : s.Moves s') :
    s'.unmet < s.unmet ∨ s'.unmet = s.unmet ∧ s'.pending < s.pending := by
  cases h with
  | skip hframes hroots hmet => exact .inr ⟨rfl, by simp [pending, hroots]⟩
  | @begin root roots hframes hroots hnew =>
    by_cases hroot : root ∈ all.map Task.id
    · exact .inl (@unmet_enter all { s with roots } root hroot hnew)
    · refine .inr ⟨?_, ?_⟩
      · refine congrArg List.length (List.filter_congr fun x hx => ?_)
        have hne : x ≠ root := fun heq => hroot (heq ▸ hx)
        rw [number?_enter, if_neg hne]
        rfl
      · simp only [pending, enter, hframes, hroots, next_eq_nil hroot, List.length_cons, List.map_cons,
          List.map_nil, List.sum_cons, List.sum_nil, List.length_nil]
        omega
  | @meet f frames x rest hframes hrest hnew =>
    have hnext : x ∈ all.next f.id := by
      rw [← f.next_eq, hrest]
      exact List.mem_append_right _ List.mem_cons_self
    exact .inl (@unmet_enter all { s with frames := f.after hrest :: frames } x (next_subset f.id hnext) hnew)
  | lower hframes hrest hmet hstack =>
    refine .inr ⟨rfl, ?_⟩
    simp [pending, Search.lower, hframes, hrest, Frame.after]
  | pass hframes hrest hmet hstack =>
    refine .inr ⟨rfl, ?_⟩
    simp [pending, hframes, hrest, Frame.after]
  | @leave f frames hframes hrest =>
    obtain ⟨lows, hreport⟩ := report_eq { s with frames } f.id
    obtain ⟨stack, components, hclose⟩ := close_eq { s with frames, lows } f.id
    rw [hreport, hclose]
    exact .inr ⟨rfl, by simp [pending, hframes]⟩

/-- Make steps to the end. -/
def finish (s : Search all) : Search all :=
  match _hstep : s.step? with
  | none => s
  | some s' => finish s'
termination_by (s.unmet, s.pending)
decreasing_by
  rw [Prod.lex_def]
  exact (moves_of_step _hstep).decreases

theorem finish_of_none {s : Search all} (h : s.step? = none) : s.finish = s := by
  rw [finish]
  split
  · rfl
  · rename_i hstep
    rw [h] at hstep
    cases hstep

theorem finish_of_some {s s' : Search all} (h : s.step? = some s') : s.finish = s'.finish := by
  rw [finish]
  split
  · rename_i hstep
    rw [h] at hstep
    cases hstep
  · rename_i s'' hstep
    rw [h] at hstep
    rw [Option.some.inj hstep]

end Search

/-- The strongly connected components of the snapshot. -/
def components (all : Snapshot) : List (List String) :=
  (Search.finish { roots := all.ids.toList } : Search all).components

/-- The ids of a component lie on a cycle: there is more than one, or the only one requires itself. -/
def isCyclic (all : Snapshot) (component : List String) : Bool :=
  1 < component.length || component.head?.any fun id => id ∈ all.next id

/-- The order of lists of texts: by their first texts, and where these are equal by those that follow. -/
def textsLe : List String → List String → Bool
  | [], _ => true
  | _ :: _, [] => false
  | a :: as, b :: bs => a < b || a = b && textsLe as bs

/-- All cycles, each with its ids in ascending order, and in ascending order themselves. -/
def cycles (all : Snapshot) : List (List String) :=
  sortBy textsLe ((all.components.filter all.isCyclic).map (sortBy (· ≤ ·)))

end Workboard.Snapshot
