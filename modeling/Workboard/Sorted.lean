/-!
# Sorted sets and maps of texts

Finite sets of texts and finite maps from texts, kept in ascending order of code
points. The order is part of the type, so two sets with the same members are the
same value. Main statements: what is a member after an insertion or a removal. A
stable sort by any order stands in front.
-/
namespace Workboard

/-- Put `x` in front of the first element that may follow it. -/
def insertBy {α : Type} (le : α → α → Bool) (x : α) : List α → List α
  | [] => [x]
  | y :: ys => if le x y then x :: y :: ys else y :: insertBy le x ys

/-- The elements in ascending order; elements that may stand either way keep theirs. -/
def sortBy {α : Type} (le : α → α → Bool) (xs : List α) : List α := xs.foldr (insertBy le) []

@[simp] theorem mem_insertBy {α : Type} {le : α → α → Bool} {x y : α} {ys : List α} :
    y ∈ insertBy le x ys ↔ y = x ∨ y ∈ ys := by
  induction ys with
  | nil => simp [insertBy]
  | cons z zs ih =>
    simp only [insertBy]
    split
    · simp
    · simp only [List.mem_cons, ih]
      exact or_left_comm

@[simp] theorem mem_sortBy {α : Type} {le : α → α → Bool} {y : α} {ys : List α} :
    y ∈ sortBy le ys ↔ y ∈ ys := by
  induction ys with
  | nil => simp [sortBy]
  | cons z zs ih => simp only [sortBy, List.foldr_cons, mem_insertBy, List.mem_cons] at *; simp [ih]

/-- Put `k` into its place in an ascending list, if it is not there yet. -/
def insertText (k : String) : List String → List String
  | [] => [k]
  | a :: as => if k < a then k :: a :: as else if k = a then a :: as else a :: insertText k as

theorem mem_insertText {k x : String} {as : List String} :
    x ∈ insertText k as ↔ x = k ∨ x ∈ as := by
  induction as with
  | nil => simp [insertText]
  | cons a as ih =>
    simp only [insertText]
    split
    · simp
    · split
      · simp_all
      · simp only [List.mem_cons, ih]; grind

theorem text_lt_of_not_lt {a b : String} (h : ¬ a < b) (hne : a ≠ b) : b < a := by
  have hle : b ≤ a := String.not_lt.mp h
  by_cases hlt : b < a
  · exact hlt
  · exact absurd (String.le_antisymm (String.not_lt.mp hlt) hle) hne

theorem pairwise_insertText {k : String} {as : List String} (h : as.Pairwise (· < ·)) :
    (insertText k as).Pairwise (· < ·) := by
  induction as with
  | nil => simp [insertText]
  | cons a as ih =>
    rw [List.pairwise_cons] at h
    simp only [insertText]
    split
    · rename_i hk
      refine List.pairwise_cons.mpr ⟨fun x hx => ?_, List.pairwise_cons.mpr h⟩
      rcases List.mem_cons.mp hx with rfl | hx
      · exact hk
      · exact String.lt_trans hk (h.1 x hx)
    · split
      · exact List.pairwise_cons.mpr h
      · rename_i hk hne
        refine List.pairwise_cons.mpr ⟨fun x hx => ?_, ih h.2⟩
        rcases mem_insertText.mp hx with rfl | hx
        · exact text_lt_of_not_lt hk hne
        · exact h.1 x hx

/-- A finite set of texts. -/
structure TextSet where
  toList : List String
  ascending : toList.Pairwise (· < ·)
  deriving DecidableEq

namespace TextSet

instance : Membership String TextSet := ⟨fun s x => x ∈ s.toList⟩

theorem mem_def {s : TextSet} {x : String} : x ∈ s ↔ x ∈ s.toList := Iff.rfl

instance (x : String) (s : TextSet) : Decidable (x ∈ s) :=
  inferInstanceAs (Decidable (x ∈ s.toList))

def empty : TextSet := ⟨[], .nil⟩

instance : Inhabited TextSet := ⟨empty⟩

instance : EmptyCollection TextSet := ⟨empty⟩

@[simp] theorem not_mem_empty (x : String) : x ∉ (∅ : TextSet) := List.not_mem_nil

def isEmpty (s : TextSet) : Bool := s.toList.isEmpty

def insert (x : String) (s : TextSet) : TextSet :=
  ⟨insertText x s.toList, pairwise_insertText s.ascending⟩

@[simp] theorem mem_insert {x y : String} {s : TextSet} : y ∈ s.insert x ↔ y = x ∨ y ∈ s :=
  mem_insertText

def filter (p : String → Bool) (s : TextSet) : TextSet :=
  ⟨s.toList.filter p, s.ascending.filter p⟩

@[simp] theorem mem_filter {p : String → Bool} {s : TextSet} {x : String} :
    x ∈ s.filter p ↔ x ∈ s ∧ p x = true := List.mem_filter

def erase (x : String) (s : TextSet) : TextSet := s.filter (· ≠ x)

@[simp] theorem mem_erase {x y : String} {s : TextSet} : y ∈ s.erase x ↔ y ∈ s ∧ y ≠ x := by
  simp [erase]

/-- The members of `s` that are not in `t`. -/
def diff (s t : TextSet) : TextSet := s.filter (· ∉ t)

@[simp] theorem mem_diff {s t : TextSet} {x : String} : x ∈ s.diff t ↔ x ∈ s ∧ x ∉ t := by
  simp [diff]

def ofList (xs : List String) : TextSet := xs.foldl (fun s x => s.insert x) ∅

@[simp] theorem mem_ofList {xs : List String} {x : String} : x ∈ ofList xs ↔ x ∈ xs := by
  have hfold : ∀ s : TextSet, x ∈ xs.foldl (fun s x => s.insert x) s ↔ x ∈ s ∨ x ∈ xs := by
    induction xs with
    | nil => simp
    | cons y xs ih =>
      intro s
      rw [List.foldl_cons, ih, mem_insert, List.mem_cons]
      rw [or_assoc, or_left_comm]
  simp [ofList, hfold]

end TextSet

/-- A finite map from texts, its entries in ascending order of their keys. -/
structure TextMap (α : Type) where
  entries : List (String × α)
  ascending : (entries.map Prod.fst).Pairwise (· < ·)

namespace TextMap
variable {α : Type}

instance [DecidableEq α] : DecidableEq (TextMap α) := fun a b =>
  if h : a.entries = b.entries then isTrue (by cases a; cases b; simp_all)
  else isFalse (fun hab => h (hab ▸ rfl))

def empty : TextMap α := ⟨[], .nil⟩

instance : EmptyCollection (TextMap α) := ⟨empty⟩

instance : Inhabited (TextMap α) := ⟨empty⟩

def get? (m : TextMap α) (k : String) : Option α := m.entries.lookup k

/-- Replace the value under `k`, or add it in its place. -/
def insertEntry (k : String) (v : α) : List (String × α) → List (String × α)
  | [] => [(k, v)]
  | (a, w) :: es =>
    if k < a then (k, v) :: (a, w) :: es
    else if k = a then (k, v) :: es
    else (a, w) :: insertEntry k v es

theorem map_fst_insertEntry (k : String) (v : α) (es : List (String × α)) :
    (insertEntry k v es).map Prod.fst = insertText k (es.map Prod.fst) := by
  induction es with
  | nil => rfl
  | cons e es ih =>
    obtain ⟨a, w⟩ := e
    simp only [insertEntry, insertText, List.map_cons]
    split
    · rfl
    · split <;> simp_all

def insert (k : String) (v : α) (m : TextMap α) : TextMap α :=
  ⟨insertEntry k v m.entries, map_fst_insertEntry k v m.entries ▸ pairwise_insertText m.ascending⟩

def erase (k : String) (m : TextMap α) : TextMap α :=
  ⟨m.entries.filter (·.1 ≠ k), m.ascending.sublist (List.filter_sublist.map _)⟩

def ofList (es : List (String × α)) : TextMap α := es.foldl (fun m e => m.insert e.1 e.2) ∅

end TextMap

end Workboard
