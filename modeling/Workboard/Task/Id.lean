/-!
# Task ids

An id names the file of a record and the file of a lock, so it holds letters and
digits of ASCII, hyphens, underscores and points only, does not begin with a point,
and has at most 128 characters.
-/
namespace Workboard

/-- The characters of an id. -/
def isIdChar (c : Char) : Bool := c.isAlphanum || c = '-' || c = '_' || c = '.'

/-- The text can name a record. -/
def isValidId (id : String) : Bool :=
  let cs := id.toList
  !cs.isEmpty && cs.length ≤ 128 && cs.head? ≠ some '.' && cs.all isIdChar

end Workboard
