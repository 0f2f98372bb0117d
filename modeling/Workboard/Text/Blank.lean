/-!
# Blank characters

The characters of the Unicode property `White_Space`, and texts cut at both ends
or at the right end by them. Everything that is called blank in this library is
blank in this sense.
-/
namespace Workboard.Text

/-- The 25 characters that Unicode lists under `White_Space`. -/
def isBlank (c : Char) : Bool :=
  let n := c.toNat
  (9 ≤ n && n ≤ 13) || n == 0x20 || n == 0x85 || n == 0xA0 || n == 0x1680 ||
    (0x2000 ≤ n && n ≤ 0x200A) || n == 0x2028 || n == 0x2029 || n == 0x202F ||
    n == 0x205F || n == 0x3000

/-- The characters without the blank ones in front. -/
def dropBlank (cs : List Char) : List Char := cs.dropWhile isBlank

/-- The characters without the blank ones at the end. -/
def dropBlankEnd (cs : List Char) : List Char := (dropBlank cs.reverse).reverse

@[simp] theorem dropBlank_nil : dropBlank [] = [] := rfl

@[simp] theorem dropBlankEnd_nil : dropBlankEnd [] = [] := rfl

theorem dropBlank_cons (c : Char) (cs : List Char) :
    dropBlank (c :: cs) = if isBlank c then dropBlank cs else c :: cs := by
  simp [dropBlank, List.dropWhile_cons]

/-- A text without blank characters at its end. -/
def trimEnd (s : String) : String := String.ofList (dropBlankEnd s.toList)

/-- A text without blank characters at either end. -/
def trim (s : String) : String := String.ofList (dropBlankEnd (dropBlank s.toList))

/-- Nothing but blank characters. -/
def isAllBlank (s : String) : Bool := s.toList.all isBlank

end Workboard.Text
