import Workboard.Text.Cut

/-!
# Paths

A path is a list of names; an absolute one begins with the name of the root. Paths
with the same names are the same place, however they were written; messages show them
as they were written.
-/
namespace Workboard

structure Path where
  names : List String
  shown : String
  deriving Inhabited

namespace Path

/-- The same place. -/
def same (p q : Path) : Bool := p.names = q.names

/-- The path that a text writes. Empty names and single points count for nothing, except
a point in front of a relative path. -/
def ofText (s : String) : Path :=
  let pieces := Text.split (· = '/') s
  let kept := pieces.filter fun n => n ≠ "" && n ≠ "."
  let names :=
    if s.toList.head? = some '/' then "/" :: kept
    else if pieces.head? = some "." then "." :: kept
    else kept
  ⟨names, s⟩

/-- The entry of a name in a directory. -/
def child (p : Path) (name : String) : Path :=
  let shown :=
    if p.shown.isEmpty || p.shown.toList.getLast? = some '/' then p.shown ++ name
    else p.shown ++ "/" ++ name
  ⟨p.names ++ [name], shown⟩

@[simp] theorem names_child (p : Path) (name : String) : (p.child name).names = p.names ++ [name] := rfl

/-- The directory of an entry. -/
def parent (p : Path) : Path :=
  let names := p.names.dropLast
  let shown := match names with
    | "/" :: rest => "/" ++ "/".intercalate rest
    | _ => "/".intercalate names
  ⟨names, shown⟩

/-- The name is that of an entry; the root and points lead elsewhere. -/
def isEntryName (name : String) : Bool := name ≠ "/" && name ≠ "." && name ≠ ".."

/-- The last name, if it is that of an entry. -/
def name? (p : Path) : Option String := p.names.getLast?.filter isEntryName

/-- The name of the entry, empty if the path does not end in one. -/
def name (p : Path) : String := p.name?.getD ""

/-- Another entry of the same directory. A path that does not end in an entry is taken for
the directory. -/
def sibling (p : Path) (name : String) : Path :=
  if p.name?.isSome then p.parent.child name else p.child name

theorem names_sibling (p : Path) (name : String) : (p.sibling name).names =
    (if p.name?.isSome then p.names.dropLast else p.names) ++ [name] := by
  unfold sibling
  split <;> rfl

/-- Inside the directory, at any depth. -/
def isBelow (p dir : Path) : Bool := dir.names.isPrefixOf p.names && p.names ≠ dir.names

end Path

end Workboard
