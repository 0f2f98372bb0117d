import Workboard.Graph.Components
import Workboard.Proofs.Graph.Stacks
import Workboard.Proofs.Sorted

/-!
# What the search for components finds

Each step of the search keeps what holds of its stack, and it keeps that each id that was met
and is not on the stack any more is in one component, with all ids that lead to it and back. So at
its end the search has every id of the snapshot in one component. Main statements: the components
that are cycles are those of the ids that lead back to themselves, and the cycles are the ones that
are found by following each id.
-/
namespace Workboard.Snapshot
open Relation

section Cutting
variable {id x : String} {xs : List String}

theorem cutAfter_eq (h : id ∈ xs) :
    ∃ above below, xs = above ++ id :: below ∧ cutAfter id xs = (above ++ [id], below) := by
  induction xs with
  | nil => cases h
  | cons x xs ih =>
    by_cases hx : x = id
    · exact ⟨[], xs, by simp [hx], by simp [cutAfter, hx]⟩
    · obtain ⟨above, below, hxs, hcut⟩ := ih ((List.mem_cons.mp h).resolve_left (Ne.symm hx))
      exact ⟨x :: above, below, by rw [hxs, List.cons_append], by simp [cutAfter, hx, hcut]⟩

end Cutting

namespace Search
variable {all : Snapshot} {s : Search all}

/-- An id was met. -/
def Met (s : Search all) (id : String) : Prop := (s.number? id).isSome = true

/-- The number of an id that was met. -/
def rank (s : Search all) (id : String) : Nat := (s.number? id).getD 0

/-- A requirement was followed; all those of an id that is not under way count. -/
def Followed (s : Search all) (x y : String) : Prop :=
  all.Requires x y ∧ ∀ f ∈ s.frames, f.id = x → y ∈ f.followed

theorem met_enter (id : String) : (s.enter id).Met = fun x => x = id ∨ s.Met x := by
  funext x
  by_cases hx : x = id <;> simp [Met, number?_enter, hx]

theorem rank_enter (id : String) : (s.enter id).rank = Function.update s.rank id s.met.length := by
  funext x
  by_cases hx : x = id <;> simp [rank, number?_enter, hx]

theorem low_enter (id : String) : (s.enter id).low = Function.update s.low id s.met.length := by
  funext x
  by_cases hx : x = id
  · simp [low, enter, hx]
  · simp [low, enter, hx, List.lookup_cons, beq_false_of_ne hx]

theorem low_lower (id : String) (n : Nat) :
    (s.lower id n).low = Function.update s.low id (min (s.low id) n) := by
  funext x
  by_cases hx : x = id
  · simp [low, lower, hx]
  · simp [low, lower, hx, List.lookup_cons, beq_false_of_ne hx]

/-- What holds of the ids that were met, but not of what was followed. -/
structure Placed (s : Search all) : Prop where
  numbered : ∀ x n, s.number? x = some n → n < s.met.length
  placed : ∀ x, (∃ c ∈ s.components, x ∈ c) ↔ s.Met x ∧ x ∉ s.stack
  disjoint : s.components.flatten.Nodup
  strong : ∀ c ∈ s.components, ∀ x ∈ c, ∀ y,
    y ∈ c ↔ ReflTransGen all.Requires x y ∧ ReflTransGen all.Requires y x

/-- What holds at each point of a search. -/
structure Invariant (s : Search all) : Prop where
  sound : all.Sound s.Met s.rank s.low s.stack (s.frames.map Frame.id) s.Followed
  placed : s.Placed
  begun : ∀ x ∈ all.ids, s.Met x ∨ x ∈ s.roots

/-- The roots, the lowest numbers and the ids under way do not matter to it. -/
theorem Placed.moved (h : s.Placed) (roots : List String) (lows : List (String × Nat))
    (frames : List (Frame all)) : Placed { s with roots, lows, frames } :=
  ⟨h.numbered, h.placed, h.disjoint, h.strong⟩

theorem Placed.enter {id : String} (h : s.Placed) (hnew : ¬ s.Met id) : (s.enter id).Placed := by
  refine ⟨fun x n hn => ?_, fun x => ?_, h.disjoint, h.strong⟩
  · rw [number?_enter] at hn
    change n < s.met.length + 1
    split at hn
    · cases hn
      exact Nat.lt_succ_self _
    · exact Nat.lt_succ_of_lt (h.numbered x n hn)
  · rw [met_enter]
    change (∃ c ∈ s.components, x ∈ c) ↔ (x = id ∨ s.Met x) ∧ x ∉ id :: s.stack
    rw [h.placed x, List.mem_cons, not_or]
    constructor
    · rintro ⟨hmet, hstack⟩
      exact ⟨.inr hmet, fun heq => hnew (heq ▸ hmet), hstack⟩
    · rintro ⟨heq | hmet, hne, hstack⟩
      · exact absurd heq hne
      · exact ⟨hmet, hstack⟩

/-- A component is taken off the stack. -/
theorem Placed.emit {component below : List String} (h : s.Placed) (hmet : ∀ x ∈ s.stack, s.Met x)
    (hstack : s.stack = component ++ below) (hnodup : s.stack.Nodup)
    (hstrong : ∀ x ∈ component, ∀ y,
      y ∈ component ↔ ReflTransGen all.Requires x y ∧ ReflTransGen all.Requires y x) :
    Placed { s with stack := below, components := s.components ++ [component] } := by
  rw [hstack] at hmet hnodup
  obtain ⟨hcomponent, -, happart⟩ := List.nodup_append.mp hnodup
  have hplaced : ∀ x, (∃ c ∈ s.components, x ∈ c) ↔ s.Met x ∧ x ∉ component ++ below := by
    rw [← hstack]
    exact h.placed
  refine ⟨h.numbered, fun x => ?_, ?_, fun c hc => ?_⟩
  · change (∃ c ∈ s.components ++ [component], x ∈ c) ↔ s.Met x ∧ x ∉ below
    constructor
    · rintro ⟨c, hc, hx⟩
      rcases List.mem_append.mp hc with hold | hlast
      · obtain ⟨hmet, hnot⟩ := (hplaced x).mp ⟨c, hold, hx⟩
        exact ⟨hmet, fun hbelow => hnot (List.mem_append_right _ hbelow)⟩
      · obtain rfl := List.mem_singleton.mp hlast
        exact ⟨hmet x (List.mem_append_left _ hx), fun hbelow => happart x hx x hbelow rfl⟩
    · rintro ⟨hmet, hnot⟩
      by_cases hx : x ∈ component
      · exact ⟨component, List.mem_append_right _ List.mem_cons_self, hx⟩
      · obtain ⟨c, hc, hxc⟩ := (hplaced x).mpr ⟨hmet, fun hmem => (List.mem_append.mp hmem).elim hx hnot⟩
        exact ⟨c, List.mem_append_left _ hc, hxc⟩
  · change (s.components ++ [component]).flatten.Nodup
    rw [List.flatten_append, List.flatten_singleton]
    refine List.nodup_append.mpr ⟨h.disjoint, hcomponent, fun x hx y hy hxy => ?_⟩
    subst hxy
    exact ((hplaced x).mp (List.mem_flatten.mp hx)).2 (List.mem_append_left _ hy)
  · rcases List.mem_append.mp hc with hold | hlast
    · exact h.strong c hold
    · obtain rfl := List.mem_singleton.mp hlast
      exact hstrong

theorem Placed.sound_enter {id : String} {path : List String} {Followed : String → String → Prop}
    (h : s.Placed) (hsound : all.Sound s.Met s.rank s.low s.stack path Followed) (hnew : ¬ s.Met id)
    (hfrom : ∀ x, path.head? = some x → all.Requires x id) :
    all.Sound (s.enter id).Met (s.enter id).rank (s.enter id).low (s.enter id).stack (id :: path)
      fun x y => Followed x y ∧ x ≠ id := by
  rw [met_enter, rank_enter, low_enter]
  refine hsound.enter hnew (fun x hx => ?_) hfrom
  obtain ⟨n, hn⟩ := Option.isSome_iff_exists.mp (hsound.met x hx)
  rw [rank, hn]
  exact h.numbered x n hn

/-- A root that was not met is met, with nothing under way. -/
theorem Invariant.begin {root : String} {roots : List String} (h : s.Invariant) (hframes : s.frames = [])
    (hroots : s.roots = root :: roots) (hnew : ¬ s.Met root) :
    ({ s with roots }.enter root).Invariant := by
  have hsound := h.sound
  rw [hframes] at hsound
  refine ⟨?_, (h.placed.moved roots s.lows s.frames).enter hnew, fun x hx => ?_⟩
  · have henter := h.placed.sound_enter hsound hnew fun x hx => by cases hx
    have hframes' : (s.enter root).frames.map Frame.id = [root] := by simp [enter, hframes]
    refine (hframes'.symm ▸ henter).mono fun x y hxy => ⟨⟨hxy.1, fun f hf => ?_⟩, ?_⟩
    · rw [hframes] at hf
      cases hf
    · rintro rfl
      exact List.not_mem_nil (hxy.2 ⟨x, [], all.next x, rfl⟩ List.mem_cons_self rfl)
  · change (s.enter root).Met x ∨ x ∈ roots
    rw [met_enter]
    rcases h.begun x hx with hmet | hmem
    · exact .inl (.inr hmet)
    · rw [hroots] at hmem
      exact (List.mem_cons.mp hmem).imp .inl id

section Following
variable {f : Frame all} {frames : List (Frame all)} {x : String} {rest : List String}

theorem requires_of_rest (hrest : f.rest = x :: rest) : all.Requires f.id x := by
  rw [Requires, ← f.next_eq, hrest]
  exact List.mem_append_right _ List.mem_cons_self

/-- What is followed once the id under way has gone on to its next requirement. -/
theorem followed_after {a b : String} (hframes : s.frames = f :: frames) (hrest : f.rest = x :: rest)
    (hab : ({ s with frames := f.after hrest :: frames } : Search all).Followed a b) :
    s.Followed a b ∨ (a = f.id ∧ b = x) := by
  obtain ⟨hstep, hfollowed⟩ := hab
  by_cases hnew : a = f.id ∧ b = x
  · exact .inr hnew
  · refine .inl ⟨hstep, fun g hg hga => ?_⟩
    rw [hframes] at hg
    rcases List.mem_cons.mp hg with rfl | hg'
    · rcases List.mem_append.mp (hfollowed (g.after hrest) List.mem_cons_self hga) with hold | hlast
      · exact hold
      · exact absurd ⟨hga.symm, List.mem_singleton.mp hlast⟩ hnew
    · exact hfollowed g (List.mem_cons_of_mem _ hg') hga

variable (h : s.Invariant) (hframes : s.frames = f :: frames) (hrest : f.rest = x :: rest)
include h

/-- What holds of the stack while an id is under way. -/
theorem Invariant.sound_under (hframes : s.frames = f :: frames) :
    all.Sound s.Met s.rank s.low s.stack (f.id :: frames.map Frame.id) s.Followed := by
  have hsound := h.sound
  rwa [hframes] at hsound

include hframes

/-- An id under way goes on to an id that was not met. -/
theorem Invariant.meet (hnew : ¬ s.Met x) :
    ({ s with frames := f.after hrest :: frames }.enter x).Invariant := by
  refine ⟨?_, (h.placed.moved s.roots s.lows _).enter hnew, fun y hy => ?_⟩
  · have hstep := requires_of_rest hrest
    have hsound := h.sound_under hframes
    have henter := h.placed.sound_enter hsound hnew fun y hy => by cases hy; exact hstep
    have hmet : (s.enter x).Met x := by rw [met_enter]; exact .inl rfl
    have hfx := (List.pairwise_cons.mp henter.ordered).1 f.id List.mem_cons_self
    refine (henter.follow (x := f.id) hmet fun _ g _ hgf hlt => ?_).mono fun a b hab => ?_
    · exact absurd (Nat.lt_trans hlt (Nat.lt_of_le_of_lt hgf hfx)) (Nat.lt_irrefl _)
    · obtain ⟨hab, hfollowed⟩ := hab
      have hax : a ≠ x := by
        rintro rfl
        exact List.not_mem_nil (hfollowed ⟨a, [], all.next a, rfl⟩ List.mem_cons_self rfl)
      exact (followed_after hframes hrest ⟨hab, fun g hg => hfollowed g (List.mem_cons_of_mem _ hg)⟩).imp
        (⟨·, hax⟩) id
  · change (s.enter x).Met y ∨ y ∈ s.roots
    rw [met_enter]
    exact (h.begun y hy).imp .inr id

/-- An id under way goes on to one on the stack, and notes its number. -/
theorem Invariant.lower (hmet : s.Met x) (hstack : x ∈ s.stack) :
    ({ s with frames := f.after hrest :: frames }.lower f.id (s.rank x)).Invariant := by
  refine ⟨?_, h.placed.moved s.roots _ _, h.begun⟩
  have hsound := (h.sound_under hframes).lower List.mem_cons_self hstack (.single (requires_of_rest hrest))
  rw [← low_lower] at hsound
  refine (hsound.follow hmet fun _ g hg hgf hlt => ?_).mono fun _ _ hab => followed_after hframes hrest hab
  refine ⟨f.id, List.mem_cons_self, hgf, Nat.le_refl _, ?_⟩
  rw [low_lower, Function.update_self]
  exact Nat.min_le_right _ _

/-- An id under way passes over one that is settled. -/
theorem Invariant.pass (hmet : s.Met x) (hstack : x ∉ s.stack) :
    Invariant { s with frames := f.after hrest :: frames } :=
  ⟨((h.sound_under hframes).follow hmet fun hmem => absurd hmem hstack).mono fun _ _ hab =>
    followed_after hframes hrest hab, h.placed.moved s.roots s.lows _, h.begun⟩

end Following

section Leaving
variable {f : Frame all} {frames : List (Frame all)}

/-- What was followed does not change when an id that has gone on to all its requirements is left. -/
theorem followed_of_left {a b : String} (hframes : s.frames = f :: frames) (hrest : f.rest = [])
    (hab : ({ s with frames } : Search all).Followed a b) :
    s.Followed a b := by
  refine ⟨hab.1, fun g hg hga => ?_⟩
  rw [hframes] at hg
  rcases List.mem_cons.mp hg with rfl | hg'
  · have hall : g.followed = all.next g.id := by rw [← g.next_eq, hrest, List.append_nil]
    rw [hall, hga]
    exact hab.1
  · exact hab.2 g hg' hga

variable (h : s.Invariant) (hframes : s.frames = f :: frames)
include h hframes

/-- An id that has gone on to all its requirements tells what it knows to the one that led to it. -/
theorem Invariant.report :
    all.Sound s.Met s.rank ({ s with frames }.report f.id).low s.stack (f.id :: frames.map Frame.id) s.Followed ∧
      ∀ p, (frames.map Frame.id).head? = some p →
        ({ s with frames }.report f.id).low p ≤ ({ s with frames }.report f.id).low f.id := by
  have hsound := h.sound_under hframes
  cases frames with
  | nil => exact ⟨hsound, fun p hp => by cases hp⟩
  | cons parent rest =>
    obtain ⟨-, y, hy, hrank, hreach⟩ := hsound.low_reached f.id (hsound.on_stack f.id List.mem_cons_self)
    have hparent : parent.id ∈ f.id :: (parent :: rest).map Frame.id := List.mem_cons_of_mem _ List.mem_cons_self
    have hlt := (List.pairwise_cons.mp hsound.ordered).1 parent.id List.mem_cons_self
    have hleads := hsound.leads parent.id hparent f.id (hsound.on_stack f.id List.mem_cons_self) (Nat.le_of_lt hlt)
    have hne : f.id ≠ parent.id := fun heq => Nat.lt_irrefl _ (heq ▸ hlt)
    have hlower := hsound.lower hparent hy (hleads.trans hreach)
    rw [hrank, ← low_lower] at hlower
    refine ⟨hlower, fun p hp => ?_⟩
    cases hp
    change (s.lower parent.id (s.low f.id)).low parent.id ≤ (s.lower parent.id (s.low f.id)).low f.id
    rw [low_lower, Function.update_self, Function.update_of_ne hne]
    exact Nat.min_le_right _ _

/-- An id that has gone on to all its requirements is left. -/
theorem Invariant.leave (hrest : f.rest = []) : (({ s with frames }.report f.id).close f.id).Invariant := by
  obtain ⟨hsound, htold⟩ := h.report hframes
  obtain ⟨lows, hreport⟩ := report_eq { s with frames } f.id
  have hplaced := h.placed.moved s.roots lows frames
  rw [hreport] at hsound htold ⊢
  have hsound := hsound.mono fun a b => followed_of_left hframes hrest
  obtain ⟨n, hn⟩ := Option.isSome_iff_exists.mp (hsound.met f.id (hsound.on_stack f.id List.mem_cons_self))
  have hrank : s.rank f.id = n := by rw [rank, hn, Option.getD_some]
  unfold close
  split
  · rename_i hown
    have hlow : Search.low { s with frames, lows } f.id = s.rank f.id := by
      rw [hrank]
      exact Option.some.inj (hown.symm.trans hn)
    obtain ⟨above, below, hstack, hcut⟩ := cutAfter_eq (hsound.on_stack f.id List.mem_cons_self)
    have hall : ∀ x ∈ s.stack, s.rank f.id ≤ s.rank x → ∀ y, all.Requires x y →
        Search.Followed { s with frames } x y := by
      rintro x - hle y hxy
      refine ⟨hxy, fun g hg hgx => ?_⟩
      have hlt := (List.pairwise_cons.mp hsound.ordered).1 g.id (List.mem_map_of_mem hg)
      rw [hgx] at hlt
      exact absurd hlt (Nat.not_lt.mpr hle)
    have hcomponent : ∀ x ∈ above ++ [f.id], ∀ y, y ∈ above ++ [f.id] ↔
        ReflTransGen all.Requires x y ∧ ReflTransGen all.Requires y x := by
      intro x hx y
      obtain ⟨hxs, hle⟩ := (hsound.mem_above_iff hstack).mp hx
      rw [hsound.mem_above_iff hstack]
      exact Sound.mutual_iff_above hsound hlow hall hxs hle
    rw [hcut]
    exact ⟨Sound.emit hsound hlow hall hstack,
      hplaced.emit hsound.met (by rw [List.append_assoc]; exact hstack) hsound.nodup hcomponent, h.begun⟩
  · rename_i hown
    have hlt : Search.low { s with frames, lows } f.id < s.rank f.id := by
      refine Nat.lt_of_le_of_ne (hsound.low_reached f.id (hsound.on_stack f.id List.mem_cons_self)).1 fun heq => ?_
      exact hown (hn.trans (congrArg some (hrank.symm.trans heq.symm)))
    exact ⟨hsound.leave hlt htold, hplaced, h.begun⟩

end Leaving

/-- Each step keeps what holds of the search. -/
theorem Invariant.step {s' : Search all} (h : s.Invariant) (hmoves : s.Moves s') : s'.Invariant := by
  cases hmoves with
  | @skip root roots hframes hroots hmet =>
    refine ⟨h.sound, h.placed.moved roots s.lows s.frames, fun x hx => ?_⟩
    have hbegun := h.begun x hx
    rw [hroots, List.mem_cons] at hbegun
    rcases hbegun with hold | rfl | hmem
    · exact .inl hold
    · exact .inl hmet
    · exact .inr hmem
  | begin hframes hroots hnew => exact h.begin hframes hroots (by simp [Met, hnew])
  | meet hframes hrest hnew => exact h.meet hframes hrest (by simp [Met, hnew])
  | @lower f frames x rest n hframes hrest hmet hstack =>
    have hrank : s.rank x = n := by rw [rank, hmet, Option.getD_some]
    rw [← hrank]
    exact h.lower hframes hrest (by simp [Met, hmet]) hstack
  | pass hframes hrest hmet hstack => exact h.pass hframes hrest (by simp [Met, hmet]) hstack
  | leave hframes hrest => exact h.leave hframes hrest

/-- The search comes to an end at which there is no further step, and what holds of it is kept. -/
theorem Invariant.at_end (h : s.Invariant) : s.finish.Invariant ∧ s.finish.step? = none := by
  induction s using finish.induct with
  | case1 s hstep =>
    rw [finish_of_none hstep]
    exact ⟨h, hstep⟩
  | case2 s s' hstep ih =>
    rw [finish_of_some hstep]
    exact ih (h.step (moves_of_step hstep))

theorem steps_finish (s : Search all) : ReflTransGen (fun a b => a.step? = some b) s s.finish := by
  induction s using finish.induct with
  | case1 s hstep => rw [finish_of_none hstep]
  | case2 s s' hstep ih =>
    rw [finish_of_some hstep]
    exact .head hstep ih

theorem invariant_start : ({ roots := all.ids.toList } : Search all).Invariant where
  sound := by
    constructor <;> simp [Met, number?]
  placed := ⟨by simp [number?], by simp [Met, number?], .nil, by simp⟩
  begun := fun x hx => .inr hx

theorem end_of_step (h : s.step? = none) : s.frames = [] ∧ s.roots = [] := by
  unfold step? at h
  split at h
  · split at h
    · exact ⟨‹_›, ‹_›⟩
    · cases h
  · split at h <;> cases h

end Search

section Partition
variable {all : Snapshot} {x y : String} {component : List String}

/-- Nothing is left under way or on the stack at the end, so every id is in a component. -/
theorem exists_component (hx : x ∈ all.ids) : ∃ c ∈ all.components, x ∈ c := by
  obtain ⟨h, hstep⟩ := (@Search.invariant_start all).at_end
  obtain ⟨hframes, hroots⟩ := Search.end_of_step hstep
  have hsound := h.sound
  rw [hframes] at hsound
  refine (h.placed.placed x).mpr ⟨?_, by rw [hsound.stack_eq_nil]; exact List.not_mem_nil⟩
  refine (h.begun x hx).resolve_right ?_
  rw [hroots]
  exact List.not_mem_nil

theorem mem_component_iff (hc : component ∈ all.components) (hx : x ∈ component) :
    y ∈ component ↔ ReflTransGen all.Requires x y ∧ ReflTransGen all.Requires y x :=
  Search.invariant_start.at_end.1.placed.strong component hc x hx y

theorem nodup_components : all.components.flatten.Nodup := Search.invariant_start.at_end.1.placed.disjoint

theorem isCyclic_iff_length : all.isCyclic component = true ↔
    1 < component.length ∨ ∃ z ∈ component, all.Requires z z := by
  match component with
  | [] => simp [isCyclic]
  | [a] => simp [isCyclic, Requires]
  | a :: b :: rest => simp [isCyclic]

/-- The ids of a component lead back to themselves if it has two, or one with a step to itself. -/
theorem transGen_self_iff (hnodup : component.Nodup) (hx : x ∈ component)
    (hmem : ∀ y, y ∈ component ↔ ReflTransGen all.Requires x y ∧ ReflTransGen all.Requires y x) :
    (1 < component.length ∨ ∃ z ∈ component, all.Requires z z) ↔ TransGen all.Requires x x := by
  have hback : ∀ y ∈ component, y ≠ x → TransGen all.Requires x x := by
    intro y hy hne
    obtain ⟨hto, hback⟩ := (hmem y).mp hy
    exact ((reflTransGen_iff_eq_or_transGen.mp hto).resolve_left hne).trans_left hback
  constructor
  · rintro (hlength | ⟨z, hz, hself⟩)
    · match component, hnodup, hlength with
      | a :: b :: rest, hnodup, _ =>
        by_cases ha : a = x
        · have hba : b ≠ a := fun heq => (List.nodup_cons.mp hnodup).1 (heq ▸ List.mem_cons_self)
          exact hback b (List.mem_cons_of_mem _ List.mem_cons_self) (ha ▸ hba)
        · exact hback a List.mem_cons_self ha
    · obtain ⟨hto, hfrom⟩ := (hmem z).mp hz
      exact (TransGen.head' hself hfrom).trans_right hto
  · intro hself
    obtain ⟨y, hstep, hreach⟩ := TransGen.head'_iff.mp hself
    have hy : y ∈ component := (hmem y).mpr ⟨.single hstep, hreach⟩
    by_cases hlength : 1 < component.length
    · exact .inl hlength
    · match component, hx, hy, hlength with
      | [a], hx, hy, _ =>
        obtain rfl := List.mem_singleton.mp hx
        obtain rfl := List.mem_singleton.mp hy
        exact .inr ⟨y, List.mem_cons_self, hstep⟩
      | a :: b :: rest, _, _, hlength => exact absurd (by simp) hlength

theorem isCyclic_iff (hc : component ∈ all.components) (hx : x ∈ component) :
    all.isCyclic component = true ↔ TransGen all.Requires x x := by
  have hnodup := (List.nodup_flatten.mp nodup_components).1 component hc
  rw [isCyclic_iff_length, transGen_self_iff hnodup hx fun _ => mem_component_iff hc hx]

end Partition

section Cycles
variable {all : Snapshot} {id x y : String} {cycle : List String}

theorem mem_cycles : cycle ∈ all.cycles ↔
    ∃ component ∈ all.components, all.isCyclic component = true ∧ sortBy (· ≤ ·) component = cycle := by
  simp [cycles, and_assoc]

/-- A cycle has the ids to which a chain leads from one of them and that lead back. -/
theorem mem_cycle_iff (hcycle : cycle ∈ all.cycles) (hx : x ∈ cycle) :
    y ∈ cycle ↔ TransGen all.Requires x y ∧ TransGen all.Requires y x := by
  obtain ⟨component, hc, hcyclic, rfl⟩ := mem_cycles.mp hcycle
  rw [mem_sortBy] at hx ⊢
  have hx' := (isCyclic_iff hc hx).mp hcyclic
  rw [mem_component_iff hc hx]
  constructor
  · exact fun ⟨hto, hback⟩ => ⟨hx'.trans_left hto, hx'.trans_right hback⟩
  · exact fun ⟨hto, hback⟩ => ⟨hto.to_reflTransGen, hback.to_reflTransGen⟩

/-- The ids of the cycles are those that lead back to themselves. -/
theorem exists_cycle_iff : (∃ cycle ∈ all.cycles, x ∈ cycle) ↔ TransGen all.Requires x x := by
  constructor
  · rintro ⟨cycle, hcycle, hx⟩
    exact ((mem_cycle_iff hcycle hx).mp hx).1
  · intro hx
    obtain ⟨component, hc, hmem⟩ := exists_component (mem_ids_of_transGen hx)
    exact ⟨_, mem_cycles.mpr ⟨component, hc, (isCyclic_iff hc hmem).mpr hx, rfl⟩, mem_sortBy.mpr hmem⟩

/-- The cycles have no ids in common. -/
theorem disjoint_cycles : all.cycles.Pairwise List.Disjoint := by
  have hsymm : ∀ {c d : List String}, c.Disjoint d → d.Disjoint c := fun h _ hd hc => h hc hd
  rw [cycles, (perm_sortBy _).pairwise_iff hsymm, List.pairwise_map]
  refine ((List.nodup_flatten.mp nodup_components).2.filter _).imp fun {c d} h x hc hd => ?_
  exact h (mem_sortBy.mp hc) (mem_sortBy.mp hd)

theorem pairwise_cycle (hcycle : cycle ∈ all.cycles) : cycle.Pairwise (· < ·) := by
  obtain ⟨component, hc, -, rfl⟩ := mem_cycles.mp hcycle
  exact pairwise_sortBy_text ((List.nodup_flatten.mp nodup_components).1 component hc)

theorem nodup_cycles : all.cycles.flatten.Nodup :=
  List.nodup_flatten.mpr ⟨fun _ hcycle => (pairwise_cycle hcycle).imp ne_of_lt, disjoint_cycles⟩

theorem cycle_ne_nil (hcycle : cycle ∈ all.cycles) : cycle ≠ [] := by
  rintro rfl
  obtain ⟨component, hc, hcyclic, hnil⟩ := mem_cycles.mp hcycle
  cases component with
  | nil => cases hcyclic
  | cons x rest =>
    have hx : x ∈ sortBy (fun a b : String => decide (a ≤ b)) (x :: rest) := mem_sortBy.mpr List.mem_cons_self
    rw [hnil] at hx
    cases hx

theorem textsLe_total (a b : List String) : textsLe a b = true ∨ textsLe b a = true := by
  induction a generalizing b with
  | nil => exact .inl rfl
  | cons x xs ih =>
    cases b with
    | nil => exact .inr rfl
    | cons y ys =>
      simp only [textsLe, Bool.or_eq_true, Bool.and_eq_true, decide_eq_true_eq]
      rcases lt_trichotomy x y with hlt | rfl | hgt
      · exact .inl (.inl hlt)
      · exact (ih ys).imp (fun h => .inr ⟨rfl, h⟩) fun h => .inr ⟨rfl, h⟩
      · exact .inr (.inl hgt)

theorem textsLe_trans (a b c : List String) (hab : textsLe a b = true) (hbc : textsLe b c = true) :
    textsLe a c = true := by
  induction a generalizing b c with
  | nil => rfl
  | cons x xs ih =>
    match b, c, hab, hbc with
    | y :: ys, z :: zs, hab, hbc =>
      simp only [textsLe, Bool.or_eq_true, Bool.and_eq_true, decide_eq_true_eq] at hab hbc ⊢
      rcases hab with hxy | ⟨rfl, hab⟩
      · rcases hbc with hyz | ⟨rfl, -⟩
        · exact .inl (lt_trans hxy hyz)
        · exact .inl hxy
      · rcases hbc with hyz | ⟨rfl, hbc⟩
        · exact .inl hyz
        · exact .inr ⟨rfl, ih ys zs hab hbc⟩

/-- The cycles are in ascending order of their first ids. -/
theorem pairwise_head_cycles :
    all.cycles.Pairwise fun c d => ∀ x ∈ c.head?, ∀ y ∈ d.head?, x < y := by
  have hsorted : all.cycles.Pairwise fun c d => textsLe c d = true :=
    pairwise_sortBy textsLe_total textsLe_trans _
  refine (hsorted.and disjoint_cycles).imp fun {c d} ⟨hle, hdisjoint⟩ x hx y hy => ?_
  obtain ⟨xs, rfl⟩ := List.head?_eq_some_iff.mp hx
  obtain ⟨ys, rfl⟩ := List.head?_eq_some_iff.mp hy
  simp only [textsLe, Bool.or_eq_true, Bool.and_eq_true, decide_eq_true_eq] at hle
  rcases hle with hlt | ⟨rfl, -⟩
  · exact hlt
  · exact absurd List.mem_cons_self (hdisjoint List.mem_cons_self)

theorem pairwise_of_cycleOf? (h : all.cycleOf? id = some cycle) : cycle.Pairwise (· < ·) := by
  simp only [cycleOf?, Option.ite_none_right_eq_some, Option.some.injEq] at h
  obtain ⟨-, rfl⟩ := h
  exact all.ids.ascending.filter _

/-- The one cycle with an id is the cycle of that id. -/
theorem mem_cycles_iff (hx : x ∈ cycle) : cycle ∈ all.cycles ↔ all.cycleOf? x = some cycle := by
  constructor
  · intro hcycle
    have hself := ((mem_cycle_iff hcycle hx).mp hx).1
    obtain ⟨found, hfound⟩ := Option.ne_none_iff_exists'.mp fun hnone => cycleOf?_eq_none.mp hnone hself
    have heq : found = cycle := (pairwise_of_cycleOf? hfound).eq_of_mem_iff (pairwise_cycle hcycle) fun y => by
      rw [mem_of_cycleOf? hfound, mem_cycle_iff hcycle hx]
    rw [hfound, heq]
  · intro hfound
    obtain ⟨listed, hlisted, hmem⟩ := exists_cycle_iff.mpr ((mem_of_cycleOf? hfound).mp hx).1
    have heq : listed = cycle := (pairwise_cycle hlisted).eq_of_mem_iff (pairwise_of_cycleOf? hfound) fun y => by
      rw [mem_of_cycleOf? hfound, mem_cycle_iff hlisted hmem]
    rwa [← heq]

/-- The cycle of an id is the one that is found among all cycles. -/
theorem find?_cycles (all : Snapshot) (id : String) : all.cycles.find? (id ∈ ·) = all.cycleOf? id := by
  cases hfound : all.cycles.find? (id ∈ ·) with
  | none =>
    refine (cycleOf?_eq_none.mpr fun hself => ?_).symm
    obtain ⟨cycle, hcycle, hid⟩ := exists_cycle_iff.mpr hself
    exact List.find?_eq_none.mp hfound cycle hcycle (decide_eq_true hid)
  | some cycle =>
    have hid : id ∈ cycle := by simpa using List.find?_some hfound
    exact ((mem_cycles_iff hid).mp (List.mem_of_find?_eq_some hfound)).symm

theorem cycles_eq_nil_iff : all.cycles = [] ↔ ∀ id, ¬ TransGen all.Requires id id := by
  constructor
  · intro hnil id hself
    obtain ⟨cycle, hcycle, -⟩ := exists_cycle_iff.mpr hself
    rw [hnil] at hcycle
    cases hcycle
  · intro hnone
    refine List.eq_nil_iff_forall_not_mem.mpr fun cycle hcycle => ?_
    obtain ⟨x, hx⟩ := List.exists_mem_of_ne_nil _ (cycle_ne_nil hcycle)
    exact hnone x (exists_cycle_iff.mp ⟨cycle, hcycle, hx⟩)

/-- The strongly connected components with their ids in ascending order. -/
def IsComponent (all : Snapshot) (ids : List String) : Prop :=
  ids.Pairwise (· < ·) ∧
    ∃ x ∈ all.ids, ∀ y, y ∈ ids ↔ ReflTransGen all.Requires x y ∧ ReflTransGen all.Requires y x

theorem mem_cycles_iff_isComponent : cycle ∈ all.cycles ↔
    all.IsComponent cycle ∧ (1 < cycle.length ∨ ∃ z ∈ cycle, all.Requires z z) := by
  constructor
  · intro hcycle
    obtain ⟨x, hx⟩ := List.exists_mem_of_ne_nil _ (cycle_ne_nil hcycle)
    obtain ⟨component, hc, -, rfl⟩ := mem_cycles.mp hcycle
    have hself := ((mem_cycle_iff hcycle hx).mp hx).1
    have hcomponent : ∀ y, y ∈ sortBy (· ≤ ·) component ↔
        ReflTransGen all.Requires x y ∧ ReflTransGen all.Requires y x := by
      intro y
      rw [mem_sortBy]
      exact mem_component_iff hc (mem_sortBy.mp hx)
    have hsorted := pairwise_cycle hcycle
    exact ⟨⟨hsorted, x, mem_ids_of_transGen hself, hcomponent⟩,
      (transGen_self_iff (hsorted.imp ne_of_lt) hx hcomponent).mpr hself⟩
  · rintro ⟨⟨hsorted, x, -, hcomponent⟩, hcyclic⟩
    have hx : x ∈ cycle := (hcomponent x).mpr ⟨.refl, .refl⟩
    have hself := (transGen_self_iff (hsorted.imp ne_of_lt) hx hcomponent).mp hcyclic
    obtain ⟨listed, hlisted, hmem⟩ := exists_cycle_iff.mpr hself
    have heq : listed = cycle := (pairwise_cycle hlisted).eq_of_mem_iff hsorted fun y => by
      rw [mem_cycle_iff hlisted hmem, hcomponent]
      constructor
      · exact fun ⟨hto, hback⟩ => ⟨hto.to_reflTransGen, hback.to_reflTransGen⟩
      · exact fun ⟨hto, hback⟩ => ⟨hself.trans_left hto, hself.trans_right hback⟩
    rwa [← heq]

/-- The search for cycles comes to its end, and it returns exactly the strongly connected components that
have more than one id or one that requires itself, each in ascending order, and in ascending order of
their first ids. No id is in two of them, two ids are in one exactly if each leads to the other, and
an id is in one exactly if it leads back to itself, which is what the search from that id alone says. -/
theorem cycles_are_components (all : Snapshot) :
    (∃ s : Search all, ReflTransGen (fun a b => a.step? = some b) { roots := all.ids.toList } s ∧
      s.step? = none ∧ s.components = all.components) ∧
    (∀ cycle, cycle ∈ all.cycles ↔
      all.IsComponent cycle ∧ (1 < cycle.length ∨ ∃ x ∈ cycle, all.Requires x x)) ∧
    (∀ x, (∃ cycle ∈ all.cycles, x ∈ cycle) ↔ TransGen all.Requires x x) ∧
    (∀ x y, (∃ cycle ∈ all.cycles, x ∈ cycle ∧ y ∈ cycle) ↔
      TransGen all.Requires x y ∧ TransGen all.Requires y x) ∧
    all.cycles.flatten.Nodup ∧
    (∀ cycle ∈ all.cycles, cycle.Pairwise (· < ·)) ∧
    all.cycles.Pairwise (fun c d => textsLe c d = true) ∧
    (all.cycles.flatMap fun cycle => cycle.head?.toList).Pairwise (· < ·) ∧
    ∀ id, all.onCycle id = true ↔ ∃ cycle ∈ all.cycles, id ∈ cycle := by
  refine ⟨⟨_, Search.steps_finish _, Search.invariant_start.at_end.2, rfl⟩,
    fun _ => mem_cycles_iff_isComponent, fun _ => exists_cycle_iff, fun x y => ⟨?_, fun ⟨hto, hback⟩ => ?_⟩,
    nodup_cycles, fun _ => pairwise_cycle, pairwise_sortBy textsLe_total textsLe_trans _, ?_, fun id => ?_⟩
  · rintro ⟨cycle, hcycle, hx, hy⟩
    exact (mem_cycle_iff hcycle hx).mp hy
  · obtain ⟨cycle, hcycle, hx⟩ := exists_cycle_iff.mpr (hto.trans hback)
    exact ⟨cycle, hcycle, hx, (mem_cycle_iff hcycle hx).mpr ⟨hto, hback⟩⟩
  · rw [List.pairwise_flatMap]
    refine ⟨fun cycle _ => ?_, pairwise_head_cycles.imp ?_⟩
    · cases cycle.head? <;> simp
    · simp
  · rw [onCycle_iff, exists_cycle_iff]

end Cycles

end Workboard.Snapshot
