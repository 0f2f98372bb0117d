import Workboard.Text.Shown

/-!
# Quoted text

A text in double quotes with every character visible: quotes and backslashes behind
a backslash, the usual letters for the usual controls, and the code point in braces
for every other character that has no shape of its own.
-/
namespace Workboard.Text

/-- How one character stands inside the quotes. -/
def quoteChar (c : Char) : List Char :=
  if c = '"' || c = '\\' then ['\\', c]
  else if c = '\x00' then ['\\', '0']
  else if c = '\t' then ['\\', 't']
  else if c = '\n' then ['\\', 'n']
  else if c = '\r' then ['\\', 'r']
  else if isShown c then [c]
  else ['\\', 'u', '\x7b'] ++ Nat.toDigits 16 c.toNat ++ ['\x7d']

def quoted (s : String) : String :=
  String.ofList ('"' :: s.toList.flatMap quoteChar ++ ['"'])

end Workboard.Text
