import Mathlib.Logic.Function.Basic
import Workboard.Proofs.Graph.Reaching

/-!
# The stack of a search for components

Ids on the stack are ranked by their numbers, and the ids under way, which are on it too,
lead to everything above them. An id that is not on the stack any more leads to none that
is, and an id that was left on the stack leads to one below it. What the search knows of the
lowest numbers is true, and it is enough: whenever an id leads below one that is under way,
one under way in between has noted it. Main statement: an id that is left with its own number and
everything above it lead to each other, and no other id leads to them and back.
-/
namespace Workboard.Snapshot
open Relation

section Sound
variable {all : Snapshot} {Met : String → Prop} {rank low : String → Nat} {stack path : List String}
  {Followed : String → String → Prop}

/-- What holds of the ids that were met, of their numbers and the lowest ones known, of the stack,
of the ids under way and of the requirements that were followed. -/
structure Sound (all : Snapshot) (Met : String → Prop) (rank low : String → Nat) (stack path : List String)
    (Followed : String → String → Prop) : Prop where
  met : ∀ x ∈ stack, Met x
  stacked : stack.Pairwise fun x y => rank y < rank x
  on_stack : ∀ x ∈ path, x ∈ stack
  ordered : path.Pairwise fun x y => rank y < rank x
  followed : ∀ x y, Met x → Followed x y → Met y
  settled : ∀ x y, Met x → x ∉ stack → all.Requires x y → Met y ∧ y ∉ stack
  leads : ∀ x ∈ path, ∀ y ∈ stack, rank x ≤ rank y → ReflTransGen all.Requires x y
  low_reached : ∀ x ∈ stack, low x ≤ rank x ∧ ∃ y ∈ stack, rank y = low x ∧ ReflTransGen all.Requires x y
  low_found : ∀ f ∈ path, ∀ x ∈ stack, rank f ≤ rank x → ∀ y ∈ stack, Followed x y → rank y < rank f →
    ∃ g ∈ path, rank f ≤ rank g ∧ rank g ≤ rank x ∧ low g ≤ rank y
  low_lower : ∀ x ∈ stack, x ∉ path → low x < rank x

namespace Sound

theorem mono {Followed' : String → String → Prop} (h : all.Sound Met rank low stack path Followed)
    (hsub : ∀ x y, Followed' x y → Followed x y) : all.Sound Met rank low stack path Followed' :=
  { h with
    followed := fun x y hx hxy => h.followed x y hx (hsub x y hxy)
    low_found := fun f hf x hx hfx y hy hxy => h.low_found f hf x hx hfx y hy (hsub x y hxy) }

/-- An id under way takes note of the number of an id on the stack to which it leads. -/
theorem lower (h : all.Sound Met rank low stack path Followed) {x y : String} (hx : x ∈ path)
    (hy : y ∈ stack) (hxy : ReflTransGen all.Requires x y) :
    all.Sound Met rank (Function.update low x (min (low x) (rank y))) stack path Followed := by
  have hle : ∀ z, Function.update low x (min (low x) (rank y)) z ≤ low z := by
    intro z
    rw [Function.update_apply]
    split
    · rename_i heq
      subst heq
      exact Nat.min_le_left _ _
    · exact Nat.le_refl _
  refine { h with low_reached := fun z hz => ?_, low_found := ?_, low_lower := ?_ }
  · refine ⟨Nat.le_trans (hle z) (h.low_reached z hz).1, ?_⟩
    by_cases hzx : z = x
    · subst hzx
      rw [Function.update_self]
      obtain ⟨-, y', hy', hrank, hreach⟩ := h.low_reached z hz
      by_cases hlow : low z ≤ rank y
      · exact ⟨y', hy', by rw [hrank, Nat.min_eq_left hlow], hreach⟩
      · exact ⟨y, hy, by rw [Nat.min_eq_right (by omega)], hxy⟩
    · rw [Function.update_of_ne hzx]
      exact (h.low_reached z hz).2
  · intro f hf z hz hfz y' hy' hfollowed hrank
    obtain ⟨g, hg, hfg, hgz, hlow⟩ := h.low_found f hf z hz hfz y' hy' hfollowed hrank
    exact ⟨g, hg, hfg, hgz, Nat.le_trans (hle g) hlow⟩
  · exact fun z hz hnot => Nat.lt_of_le_of_lt (hle z) (h.low_lower z hz hnot)

/-- A requirement is followed to an id that was met. If that is on the stack below an id under way,
this has to be known. -/
theorem follow (h : all.Sound Met rank low stack path Followed) {x y : String} (hmet : Met y)
    (hknown : y ∈ stack → ∀ f ∈ path, rank f ≤ rank x → rank y < rank f →
      ∃ g ∈ path, rank f ≤ rank g ∧ rank g ≤ rank x ∧ low g ≤ rank y) :
    all.Sound Met rank low stack path fun a b => Followed a b ∨ (a = x ∧ b = y) := by
  refine { h with followed := ?_, low_found := ?_ }
  · rintro a b ha (hab | ⟨rfl, rfl⟩)
    · exact h.followed a b ha hab
    · exact hmet
  · rintro f hf a ha hfa b hb (hab | ⟨rfl, rfl⟩) hrank
    · exact h.low_found f hf a ha hfa b hb hab hrank
    · exact hknown hb f hf hfa hrank

/-- A new id with a higher number comes before ids in descending order. -/
theorem descending_cons {ids : List String} {x : String} {n : Nat}
    (hordered : ids.Pairwise fun a b => rank b < rank a) (hn : ∀ y ∈ ids, rank y < n) (hnew : x ∉ ids) :
    (x :: ids).Pairwise fun a b => Function.update rank x n b < Function.update rank x n a := by
  have hrank : ∀ y ∈ ids, Function.update rank x n y = rank y := fun y hy =>
    Function.update_of_ne (fun heq : y = x => hnew (heq ▸ hy)) n rank
  refine List.pairwise_cons.mpr ⟨fun y hy => ?_, ?_⟩
  · rw [Function.update_self, hrank y hy]
    exact hn y hy
  · exact hordered.imp_of_mem fun ha hb hab => by rwa [hrank _ ha, hrank _ hb]

/-- All ids under way lead where the last of them leads. -/
theorem leads_on (h : all.Sound Met rank low stack path Followed) {x : String}
    (hfrom : ∀ y, path.head? = some y → all.Requires y x) : ∀ y ∈ path, ReflTransGen all.Requires y x := by
  intro y hy
  cases path with
  | nil => cases hy
  | cons first rest =>
    have hstep := hfrom first rfl
    rcases List.mem_cons.mp hy with rfl | hrest
    · exact .single hstep
    · refine (h.leads y hy first (h.on_stack first List.mem_cons_self) ?_).tail hstep
      exact Nat.le_of_lt ((List.pairwise_cons.mp h.ordered).1 y hrest)

section Enter
variable (h : all.Sound Met rank low stack path Followed) {x : String} {n : Nat} (hnew : ¬ Met x)
  (hn : ∀ y ∈ stack, rank y < n)
include h hnew

/-- A new id changes nothing for those on the stack. -/
theorem update_old {y : String} (hy : y ∈ stack) (f : String → Nat) : Function.update f x n y = f y :=
  Function.update_of_ne (fun heq : y = x => hnew (heq ▸ h.met y hy)) n f

include hn

/-- All ids under way lead to a new one, which is above them, if the last of them does. -/
theorem leads_enter (hfrom : ∀ y, path.head? = some y → all.Requires y x) {a b : String} (ha : a ∈ x :: path)
    (hb : b ∈ x :: stack) (hle : Function.update rank x n a ≤ Function.update rank x n b) :
    ReflTransGen all.Requires a b := by
  rcases List.mem_cons.mp ha with rfl | ha'
  · rcases List.mem_cons.mp hb with rfl | hb'
    · exact .refl
    · rw [Function.update_self, h.update_old hnew hb'] at hle
      exact absurd (hn b hb') (Nat.not_lt.mpr hle)
  · rcases List.mem_cons.mp hb with rfl | hb'
    · exact h.leads_on hfrom a ha'
    · rw [h.update_old hnew (h.on_stack a ha'), h.update_old hnew hb'] at hle
      exact h.leads a ha' b hb' hle

/-- A new id has not yet followed a requirement, so whatever leads below one under way was noted before. -/
theorem low_found_enter {f a b : String} (hf : f ∈ x :: path) (ha : a ∈ x :: stack)
    (hfa : Function.update rank x n f ≤ Function.update rank x n a) (hb : b ∈ x :: stack) (hab : Followed a b)
    (hax : a ≠ x) (hlt : Function.update rank x n b < Function.update rank x n f) :
    ∃ g ∈ x :: path, Function.update rank x n f ≤ Function.update rank x n g ∧
      Function.update rank x n g ≤ Function.update rank x n a ∧
      Function.update low x n g ≤ Function.update rank x n b := by
  have ha' := (List.mem_cons.mp ha).resolve_left hax
  rw [h.update_old hnew ha'] at hfa ⊢
  rcases List.mem_cons.mp hf with rfl | hf'
  · rw [Function.update_self] at hfa
    exact absurd (hn a ha') (Nat.not_lt.mpr hfa)
  rw [h.update_old hnew (h.on_stack f hf')] at hfa hlt ⊢
  rcases List.mem_cons.mp hb with rfl | hb'
  · rw [Function.update_self] at hlt
    exact absurd (hn f (h.on_stack f hf')) (Nat.not_lt.mpr (Nat.le_of_lt hlt))
  rw [h.update_old hnew hb'] at hlt ⊢
  obtain ⟨g, hg, hfg, hga, hlow⟩ := h.low_found f hf' a ha' hfa b hb' hab hlt
  have hg' := h.on_stack g hg
  refine ⟨g, List.mem_cons_of_mem _ hg, ?_⟩
  rw [h.update_old hnew hg', h.update_old hnew hg']
  exact ⟨hfg, hga, hlow⟩

/-- A new id is met, put on the stack and gone on from. -/
theorem enter (hfrom : ∀ y, path.head? = some y → all.Requires y x) :
    all.Sound (fun y => y = x ∨ Met y) (Function.update rank x n) (Function.update low x n) (x :: stack)
      (x :: path) fun a b => Followed a b ∧ a ≠ x := by
  have hnot : x ∉ stack := fun hx => hnew (h.met x hx)
  refine {
    met := fun y hy => (List.mem_cons.mp hy).imp id (h.met y)
    stacked := descending_cons h.stacked hn hnot
    on_stack := ?on_stack
    ordered := descending_cons h.ordered (fun y hy => hn y (h.on_stack y hy)) fun hx => hnot (h.on_stack x hx)
    followed := ?followed
    settled := ?settled
    leads := fun a ha b hb hle => h.leads_enter hnew hn hfrom ha hb hle
    low_reached := ?low_reached
    low_found := fun f hf a ha hfa b hb hab hlt => h.low_found_enter hnew hn hf ha hfa hb hab.1 hab.2 hlt
    low_lower := ?low_lower }
  case on_stack =>
    intro y hy
    rcases List.mem_cons.mp hy with rfl | hy
    · exact List.mem_cons_self
    · exact List.mem_cons_of_mem _ (h.on_stack y hy)
  case followed =>
    rintro a b (rfl | ha) ⟨hab, hne⟩
    · exact absurd rfl hne
    · exact .inr (h.followed a b ha hab)
  case settled =>
    rintro a b (rfl | ha) hoff hab
    · exact absurd List.mem_cons_self hoff
    · obtain ⟨hb, hstack⟩ := h.settled a b ha (fun hmem => hoff (List.mem_cons_of_mem _ hmem)) hab
      refine ⟨.inr hb, fun hmem => ?_⟩
      rcases List.mem_cons.mp hmem with rfl | hmem
      · exact hnew hb
      · exact hstack hmem
  case low_reached =>
    intro a ha
    rcases List.mem_cons.mp ha with rfl | ha'
    · have heq : Function.update rank a n a = Function.update low a n a := by
        rw [Function.update_self, Function.update_self]
      exact ⟨Nat.le_of_eq heq.symm, a, List.mem_cons_self, heq, .refl⟩
    · obtain ⟨hle, b, hb, heq, hreach⟩ := h.low_reached a ha'
      rw [h.update_old hnew ha', h.update_old hnew ha']
      exact ⟨hle, b, List.mem_cons_of_mem _ hb, by rw [h.update_old hnew hb, heq], hreach⟩
  case low_lower =>
    intro a ha hoff
    have hax : a ≠ x := fun heq => hoff (heq ▸ List.mem_cons_self)
    have ha := (List.mem_cons.mp ha).resolve_left hax
    rw [h.update_old hnew ha, h.update_old hnew ha]
    exact h.low_lower a ha fun hmem => hoff (List.mem_cons_of_mem _ hmem)

end Enter

/-- An id under way that leads below itself stays on the stack when it is left, after it told what it
knows to the one that led to it. -/
theorem leave {v : String} (h : all.Sound Met rank low stack (v :: path) Followed) (hlow : low v < rank v)
    (htold : ∀ p, path.head? = some p → low p ≤ low v) : all.Sound Met rank low stack path Followed := by
  obtain ⟨hbelow, hordered⟩ := List.pairwise_cons.mp h.ordered
  refine { h with
    on_stack := fun x hx => h.on_stack x (List.mem_cons_of_mem _ hx)
    ordered := hordered
    leads := fun x hx => h.leads x (List.mem_cons_of_mem _ hx)
    low_found := ?_
    low_lower := ?_ }
  · intro f hf x hx hfx y hy hfollowed hlt
    obtain ⟨g, hg, hfg, hgx, hgy⟩ := h.low_found f (List.mem_cons_of_mem _ hf) x hx hfx y hy hfollowed hlt
    rcases List.mem_cons.mp hg with rfl | hg'
    · -- what the id noted is now noted by the one that led to it
      cases path with
      | nil => cases hf
      | cons p rest =>
        have hfp : rank f ≤ rank p := by
          rcases List.mem_cons.mp hf with rfl | hf'
          · exact Nat.le_refl _
          · exact Nat.le_of_lt ((List.pairwise_cons.mp hordered).1 f hf')
        exact ⟨p, List.mem_cons_self, hfp, Nat.le_trans (Nat.le_of_lt (hbelow p List.mem_cons_self)) hgx,
          Nat.le_trans (htold p rfl) hgy⟩
    · exact ⟨g, hg', hfg, hgx, hgy⟩
  · intro x hx hnot
    by_cases hxv : x = v
    · rwa [hxv]
    · exact h.low_lower x hx fun hmem => (List.mem_cons.mp hmem).elim hxv hnot

/-- With no id under way, nothing is left on the stack, as each id there would lead to one below. -/
theorem stack_eq_nil (h : all.Sound Met rank low stack [] Followed) : stack = [] := by
  have hnone : ∀ n, ∀ x ∈ stack, rank x ≠ n := by
    intro n
    induction n using Nat.strongRecOn with
    | ind n ih =>
      intro x hx hn
      obtain ⟨-, y, hy, hrank, -⟩ := h.low_reached x hx
      exact ih (rank y) (by rw [hrank, ← hn]; exact h.low_lower x hx List.not_mem_nil) y hy rfl
  exact List.eq_nil_iff_forall_not_mem.mpr fun x hx => hnone (rank x) x hx rfl

theorem nodup (h : all.Sound Met rank low stack path Followed) : stack.Nodup := by
  refine h.stacked.imp fun {x y} hlt heq => ?_
  rw [heq] at hlt
  exact Nat.lt_irrefl _ hlt

/-- What is settled leads to what is settled. -/
theorem settled_of_reaches (h : all.Sound Met rank low stack path Followed) {x y : String}
    (hxy : ReflTransGen all.Requires x y) (hmet : Met x) (hx : x ∉ stack) : Met y ∧ y ∉ stack := by
  induction hxy with
  | refl => exact ⟨hmet, hx⟩
  | tail _ hstep ih => exact h.settled _ _ ih.1 ih.2 hstep

section Splitting
variable {v x : String} {above below : List String} (h : all.Sound Met rank low stack path Followed)
  (hstack : stack = above ++ v :: below)
include h hstack

/-- Above an id on the stack are those with higher numbers. -/
theorem mem_above_iff : x ∈ above ++ [v] ↔ x ∈ stack ∧ rank v ≤ rank x := by
  have hstacked := h.stacked
  rw [hstack] at hstacked ⊢
  obtain ⟨-, hbelow, habove⟩ := List.pairwise_append.mp hstacked
  have hhigher := fun hx => habove x hx v List.mem_cons_self
  have hlower := (List.pairwise_cons.mp hbelow).1 x
  simp only [List.mem_append, List.mem_cons, List.not_mem_nil, or_false]
  constructor
  · rintro (hx | rfl)
    · exact ⟨.inl hx, Nat.le_of_lt (hhigher hx)⟩
    · exact ⟨.inr (.inl rfl), Nat.le_refl _⟩
  · rintro ⟨hx | hx | hx, hle⟩
    · exact .inl hx
    · exact .inr hx
    · exact absurd (hlower hx) (Nat.not_lt.mpr hle)

/-- Below an id on the stack are those with lower numbers. -/
theorem mem_below_iff : x ∈ below ↔ x ∈ stack ∧ rank x < rank v := by
  have hmem : x ∈ stack ↔ x ∈ above ++ [v] ∨ x ∈ below := by simp [hstack, or_assoc]
  have hlower : x ∈ below → rank x < rank v := by
    have hstacked := h.stacked
    rw [hstack] at hstacked
    exact (List.pairwise_cons.mp (List.pairwise_append.mp hstacked).2.1).1 x
  constructor
  · exact fun hx => ⟨hmem.mpr (.inr hx), hlower hx⟩
  · rintro ⟨hx, hlt⟩
    refine (hmem.mp hx).resolve_left fun habove => ?_
    exact Nat.not_lt.mpr ((h.mem_above_iff hstack).mp habove).2 hlt

end Splitting

section Closing
variable {v : String} (h : all.Sound Met rank low stack (v :: path) Followed) (hlow : low v = rank v)
  (hall : ∀ x ∈ stack, rank v ≤ rank x → ∀ y, all.Requires x y → Followed x y)
include h hlow hall

/-- From an id that knows of none below it, and from all above it, a step leads to such an id or to one
that is settled. -/
theorem above_or_settled {x y : String} (hx : x ∈ stack) (hvx : rank v ≤ rank x) (hxy : all.Requires x y) :
    (y ∈ stack ∧ rank v ≤ rank y) ∨ (Met y ∧ y ∉ stack) := by
  have hfollowed := hall x hx hvx y hxy
  by_cases hy : y ∈ stack
  · refine .inl ⟨hy, Nat.le_of_not_lt fun hlt => ?_⟩
    obtain ⟨g, hg, hvg, -, hgy⟩ := h.low_found v List.mem_cons_self x hx hvx y hy hfollowed hlt
    rcases List.mem_cons.mp hg with rfl | hg'
    · omega
    · have hgv := (List.pairwise_cons.mp h.ordered).1 g hg'
      omega
  · exact .inr ⟨h.followed x y (h.met x hx) hfollowed, hy⟩

theorem above_or_settled_of_reaches {x y : String} (hx : x ∈ stack) (hvx : rank v ≤ rank x)
    (hxy : ReflTransGen all.Requires x y) : (y ∈ stack ∧ rank v ≤ rank y) ∨ (Met y ∧ y ∉ stack) := by
  induction hxy with
  | refl => exact .inl ⟨hx, hvx⟩
  | tail _ hstep ih =>
    rcases ih with ⟨hy, hvy⟩ | ⟨hmet, hy⟩
    · exact above_or_settled h hlow hall hy hvy hstep
    · exact .inr (h.settled _ _ hmet hy hstep)

/-- All above an id that knows of none below it lead back to it: each of them leads to one further down,
which is still not below that id. -/
theorem reaches_of_above {x : String} (hx : x ∈ stack) (hvx : rank v ≤ rank x) :
    ReflTransGen all.Requires x v := by
  have hback : ∀ n, ∀ x ∈ stack, rank v ≤ rank x → rank x = n → ReflTransGen all.Requires x v := by
    intro n
    induction n using Nat.strongRecOn with
    | ind n ih =>
      intro x hx hvx hn
      by_cases hxv : x = v
      · rw [hxv]
      · have hnot : x ∉ v :: path := by
          intro hmem
          have hlt := (List.pairwise_cons.mp h.ordered).1 x ((List.mem_cons.mp hmem).resolve_left hxv)
          omega
        obtain ⟨-, y, hy, hrank, hreach⟩ := h.low_reached x hx
        have hlt : rank y < n := by rw [hrank, ← hn]; exact h.low_lower x hx hnot
        rcases above_or_settled_of_reaches h hlow hall hx hvx hreach with ⟨-, hvy⟩ | ⟨-, hy'⟩
        · exact hreach.trans (ih (rank y) hlt y hy hvy rfl)
        · exact absurd hy hy'
  exact hback (rank x) x hx hvx rfl

/-- An id that knows of none below it is in a component with all above it, and with no other. -/
theorem mutual_iff_above {x y : String} (hx : x ∈ stack) (hvx : rank v ≤ rank x) :
    (y ∈ stack ∧ rank v ≤ rank y) ↔ ReflTransGen all.Requires x y ∧ ReflTransGen all.Requires y x := by
  constructor
  · rintro ⟨hy, hvy⟩
    have hleads : ∀ z ∈ stack, rank v ≤ rank z → ReflTransGen all.Requires v z :=
      h.leads v List.mem_cons_self
    exact ⟨(reaches_of_above h hlow hall hx hvx).trans (hleads y hy hvy),
      (reaches_of_above h hlow hall hy hvy).trans (hleads x hx hvx)⟩
  · rintro ⟨hto, hback⟩
    rcases above_or_settled_of_reaches h hlow hall hx hvx hto with habove | ⟨hmet, hy⟩
    · exact habove
    · exact absurd hx (h.settled_of_reaches hback hmet hy).2

/-- The component of an id that knows of none below it is taken off the stack when the id is left. -/
theorem emit {above below : List String} (hstack : stack = above ++ v :: below) :
    all.Sound Met rank low below path Followed := by
  obtain ⟨hbelow, hordered⟩ := List.pairwise_cons.mp h.ordered
  have hiff : ∀ x, x ∈ below ↔ x ∈ stack ∧ rank x < rank v := fun x => h.mem_below_iff hstack
  have hsub : ∀ x ∈ below, x ∈ stack := fun x hx => ((hiff x).mp hx).1
  have hlt : ∀ x ∈ below, rank x < rank v := fun x hx => ((hiff x).mp hx).2
  have hmem : ∀ x ∈ stack, rank x < rank v → x ∈ below := fun x hx hlt => (hiff x).mpr ⟨hx, hlt⟩
  refine {
    met := fun x hx => h.met x (hsub x hx)
    stacked := ?stacked
    on_stack := fun x hx => hmem x (h.on_stack x (List.mem_cons_of_mem _ hx)) (hbelow x hx)
    ordered := hordered
    followed := h.followed
    settled := ?settled
    leads := fun x hx y hy => h.leads x (List.mem_cons_of_mem _ hx) y (hsub y hy)
    low_reached := ?low_reached
    low_found := ?low_found
    low_lower := ?low_lower }
  case stacked =>
    have hstacked := h.stacked
    rw [hstack] at hstacked
    exact (List.pairwise_cons.mp (List.pairwise_append.mp hstacked).2.1).2
  case settled =>
    intro x y hx hnot hxy
    by_cases hxs : x ∈ stack
    · have hvx : rank v ≤ rank x := Nat.le_of_not_lt fun hlt => hnot (hmem x hxs hlt)
      rcases above_or_settled h hlow hall hxs hvx hxy with ⟨hy, hvy⟩ | ⟨hmet, hy⟩
      · exact ⟨h.met y hy, fun hyb => Nat.not_lt.mpr hvy (hlt y hyb)⟩
      · exact ⟨hmet, fun hyb => hy (hsub y hyb)⟩
    · obtain ⟨hmet, hy⟩ := h.settled x y hx hxs hxy
      exact ⟨hmet, fun hyb => hy (hsub y hyb)⟩
  case low_reached =>
    intro x hx
    obtain ⟨hle, y, hy, hrank, hreach⟩ := h.low_reached x (hsub x hx)
    have hxv := hlt x hx
    exact ⟨hle, y, hmem y hy (by omega), hrank, hreach⟩
  case low_found =>
    intro f hf x hx hfx y hy hfollowed hyf
    obtain ⟨g, hg, hfg, hgx, hgy⟩ :=
      h.low_found f (List.mem_cons_of_mem _ hf) x (hsub x hx) hfx y (hsub y hy) hfollowed hyf
    rcases List.mem_cons.mp hg with rfl | hg'
    · exact absurd (hlt x hx) (Nat.not_lt.mpr hgx)
    · exact ⟨g, hg', hfg, hgx, hgy⟩
  case low_lower =>
    intro x hx hnot
    refine h.low_lower x (hsub x hx) fun hmem' => ?_
    rcases List.mem_cons.mp hmem' with rfl | hx'
    · exact Nat.lt_irrefl _ (hlt x hx)
    · exact hnot hx'

end Closing

end Sound

end Sound

end Workboard.Snapshot
