/-!
# Cutting texts

A text with a given end or beginning taken off, a text cut at each character of
a class, and a text padded with blanks.
-/
namespace Workboard.Text

/-- What follows `front` in `cs`, if `cs` begins with it. -/
def afterFront? : List Char → List Char → Option (List Char)
  | [], cs => some cs
  | _ :: _, [] => none
  | f :: front, c :: cs => if f = c then afterFront? front cs else none

@[simp] theorem afterFront?_append (front cs : List Char) :
    afterFront? front (front ++ cs) = some cs := by
  induction front with
  | nil => rfl
  | cons f front ih => simp [afterFront?, ih]

theorem eq_append_of_afterFront? {front cs rest : List Char}
    (h : afterFront? front cs = some rest) : cs = front ++ rest := by
  induction front generalizing cs with
  | nil => simpa [afterFront?] using h
  | cons f front ih =>
    cases cs with
    | nil => simp [afterFront?] at h
    | cons c cs =>
      by_cases hc : f = c
      · simp [afterFront?, hc] at h
        simp [hc, ih h]
      · simp [afterFront?, hc] at h

/-- The text without `ending`, if it ends so. -/
def beforeEnd? (ending : String) (s : String) : Option String :=
  (afterFront? ending.toList.reverse s.toList.reverse).map (String.ofList ·.reverse)

@[simp] theorem beforeEnd?_append (s ending : String) :
    beforeEnd? ending (s ++ ending) = some s := by
  simp [beforeEnd?]

/-- The pieces between the characters of a class, empty pieces included. -/
def pieces (cut : Char → Bool) : List Char → List (List Char)
  | [] => [[]]
  | c :: cs =>
    if cut c then [] :: pieces cut cs
    else match pieces cut cs with
      | [] => [[c]]
      | p :: ps => (c :: p) :: ps

/-- The pieces of a text between the characters of a class. -/
def split (cut : Char → Bool) (s : String) : List String :=
  (pieces cut s.toList).map String.ofList

/-- The text followed by as many blanks as it has characters fewer than `width`. -/
def padRight (width : Nat) (s : String) : String :=
  s ++ String.ofList (List.replicate (width - s.length) ' ')

/-- The decimal digits of a number, with zeros in front up to `width` places. -/
def padDigits (width n : Nat) : List Char :=
  let ds := Nat.toDigits 10 n
  List.replicate (width - ds.length) '0' ++ ds

end Workboard.Text
