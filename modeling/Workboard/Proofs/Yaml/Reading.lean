import Workboard.Yaml.Reading

/-!
# Readings step by step

A reading of several steps succeeds if each of its steps does. Where tags are refused, a value
that is read has none, and its collections are nested no deeper than the reading allows.
-/
namespace Workboard.Yaml

namespace Value

mutual

/-- The value has no tag of the document's own, and at most `depth` of its collections are nested
in one another. -/
def fits (depth : Nat) : Value → Bool
  | .seq items => match depth with
    | 0 => false
    | depth + 1 => allFit depth items
  | .map entries => match depth with
    | 0 => false
    | depth + 1 => entriesFit depth entries
  | .tagged _ _ => false
  | _ => true

def allFit (depth : Nat) : List Value → Bool
  | [] => true
  | v :: vs => fits depth v && allFit depth vs

def entriesFit (depth : Nat) : List (Value × Value) → Bool
  | [] => true
  | (k, v) :: es => (fits depth k && fits depth v) && entriesFit depth es

end

theorem allFit_iff {depth : Nat} {vs : List Value} : allFit depth vs = true ↔ ∀ v ∈ vs, v.fits depth = true := by
  induction vs with
  | nil => simp [allFit]
  | cons v vs ih => rw [allFit, Bool.and_eq_true, ih, List.forall_mem_cons]

theorem entriesFit_iff {depth : Nat} {es : List (Value × Value)} :
    entriesFit depth es = true ↔ ∀ e ∈ es, e.1.fits depth = true ∧ e.2.fits depth = true := by
  induction es with
  | nil => simp [entriesFit]
  | cons e es ih => rw [entriesFit, Bool.and_eq_true, Bool.and_eq_true, ih, List.forall_mem_cons]

end Value

namespace Reading
variable {α β : Type} {d : Document} {i j : Nat}

theorem bind_eq_some {b : β} {r : Reading α} {f : α → Reading β} :
    (r >>= f) d i = some (b, j) ↔ ∃ a k, r d i = some (a, k) ∧ f a d k = some (b, j) := by
  change ((r d i).bind fun p => f p.1 d p.2) = some (b, j) ↔ _
  rw [Option.bind_eq_some_iff]
  exact ⟨fun ⟨⟨a, k⟩, hr, hf⟩ => ⟨a, k, hr, hf⟩, fun ⟨a, k, hr, hf⟩ => ⟨(a, k), hr, hf⟩⟩

theorem pure_eq_some {a a' : α} : (pure a : Reading α) d i = some (a', j) ↔ a = a' ∧ i = j := by
  change some (a, i) = some (a', j) ↔ _
  simp

/-- What is read from each of several parts has what the reading of one part gives. -/
theorem forall_mem_of_mapM {P : β → Prop} {f : α → Reading β} {xs : List α} {ys : List β}
    (hf : ∀ x i y j, f x d i = some (y, j) → P y) (h : xs.mapM f d i = some (ys, j)) : ∀ y ∈ ys, P y := by
  induction xs generalizing i j ys with
  | nil =>
    rw [List.mapM_nil] at h
    obtain ⟨rfl, -⟩ := pure_eq_some.mp h
    exact fun y hy => absurd hy List.not_mem_nil
  | cons x xs ih =>
    rw [List.mapM_cons] at h
    obtain ⟨y, k, hy, h⟩ := bind_eq_some.mp h
    obtain ⟨ys', l, hys, h⟩ := bind_eq_some.mp h
    obtain ⟨rfl, -⟩ := pure_eq_some.mp h
    exact List.forall_mem_cons.mpr ⟨hf x i y k hy, ih hys⟩

section Fits
variable {v : Value} {tag : Option String} {depth : Nat}

theorem standardValue?_fits {t s : String} (h : standardValue? t s = some v) : v.fits depth = true := by
  unfold standardValue? at h
  split at h
  · obtain ⟨b, -, rfl⟩ := Option.map_eq_some_iff.mp h
    rfl
  split at h
  · obtain ⟨n, -, rfl⟩ := Option.map_eq_some_iff.mp h
    rfl
  split at h
  · obtain ⟨x, -, rfl⟩ := Option.map_eq_some_iff.mp h
    rfl
  split at h
  · split at h
    · obtain rfl := Option.some.inj h
      rfl
    · cases h
  · obtain rfl := Option.some.inj h
    rfl

theorem plainValue?_fits {s : String} (h : plainValue? s = some v) : v.fits depth = true := by
  unfold plainValue? at h
  split at h
  case h_3 =>
    split at h
    · obtain rfl := Option.some.inj h
      rfl
    · cases h
  all_goals
    obtain rfl := Option.some.inj h
    rfl

theorem scalarValue?_fits {s : String} {plain : Bool} (h : scalarValue? tag s plain = some v) :
    v.fits depth = true := by
  unfold scalarValue? at h
  split at h
  · exact standardValue?_fits h
  split at h
  · exact plainValue?_fits h
  · obtain rfl := Option.some.inj h
    rfl

/-- Where tags are refused, none is put in front of a value. -/
theorem underTag_eq_some {v v' : Value} (h : underTag false tag v d i = some (v', j)) : v' = v := by
  cases hname : tagName? tag with
  | none =>
    rw [underTag, hname] at h
    exact (pure_eq_some.mp h).1.symm
  | some name =>
    rw [underTag, hname] at h
    cases h

theorem scalar_fits {s : String} {plain : Bool} (h : value.scalar false tag s plain d i = some (v, j)) :
    v.fits depth = true := by
  rw [value.scalar] at h
  cases hv : scalarValue? (if (tagName? tag).isSome then none else tag) s plain with
  | none =>
    rw [hv] at h
    cases h
  | some v' =>
    rw [hv] at h
    exact underTag_eq_some h ▸ scalarValue?_fits hv

/-- A value that is read where tags are refused can be written and read there again. -/
theorem fits_of_value {n : Node} (h : value false depth n d i = some (v, j)) : v.fits depth = true := by
  induction depth generalizing n i v j with
  | zero =>
    obtain ⟨m, k, -, h⟩ := bind_eq_some.mp h
    split at h
    · exact scalar_fits h
    · cases h
  | succ depth ih =>
    obtain ⟨m, k, -, h⟩ := bind_eq_some.mp h
    split at h
    · exact scalar_fits h
    · obtain ⟨vs, l, hvs, h⟩ := bind_eq_some.mp h
      obtain rfl := underTag_eq_some h
      exact Value.allFit_iff.mpr (forall_mem_of_mapM (fun _ _ _ _ => ih) hvs)
    · obtain ⟨es, l, hes, h⟩ := bind_eq_some.mp h
      split at h
      · cases h
      obtain rfl := underTag_eq_some h
      refine Value.entriesFit_iff.mpr (forall_mem_of_mapM (fun e i y j he => ?_) hes)
      obtain ⟨k, l, hk, he⟩ := bind_eq_some.mp he
      obtain ⟨v, m, hv, he⟩ := bind_eq_some.mp he
      obtain ⟨rfl, -⟩ := pure_eq_some.mp he
      exact ⟨ih hk, ih hv⟩
    · cases h

end Fits

end Reading

end Workboard.Yaml
