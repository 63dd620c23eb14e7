import Chiptune.Numerals
import Chiptune.Json.Value

/-!
# Writing JSON text

A style says what stands in front of every item and behind a name; the compact style leaves out
all that is not needed, and the indented one gives every item a line of its own.
-/

namespace Chiptune.Json

/-- Doubles keep their point, `440.0`, and have an exponent when the leading digit stands above
`10 ^ 15` or below `10 ^ -5`, as in `1.5e+17` and `1e-6`.  There is no text for a value that is no
number. -/
def numbers : Layout where
  tie := .toEven
  positional exponent := -5 ≤ exponent ∧ exponent ≤ 15
  wholeEnding := ".0"
  nan := "null"
  infinity := "null"
  negativeInfinity := "null"

/-- The characters that stand for `c` inside a string. -/
def escape (c : Char) : List Char :=
  match c with
  | '"' => ['\\', '"']
  | '\\' => ['\\', '\\']
  | '\x08' => ['\\', 'b']
  | '\x0c' => ['\\', 'f']
  | '\n' => ['\\', 'n']
  | '\r' => ['\\', 'r']
  | '\t' => ['\\', 't']
  | c => if c.toNat < 0x20 then '\\' :: 'u' :: (Hex.lower 4 c.toNat).toList else [c]

/-- A string between quotes. -/
def quoted (s : String) : List Char :=
  '"' :: (s.toList.flatMap escape ++ ['"'])

def integerText (n : Int) : List Char :=
  if n < 0 then '-' :: Nat.toDigits 10 n.natAbs else Nat.toDigits 10 n.natAbs

/-- What stands around items and behind names. -/
structure Style where
  /-- In front of an item, and of the closing bracket, at the given depth. -/
  lineStart : Nat → List Char
  /-- Between a name and its value. -/
  colon : List Char

/-- Nothing that could be left out. -/
def Style.compact : Style :=
  ⟨fun _ => [], [':']⟩

/-- A line for every item, two spaces for every level. -/
def Style.indented : Style :=
  ⟨fun depth => '\n' :: List.replicate (2 * depth) ' ', [':', ' ']⟩

mutual

/-- The text of a value that stands at the given depth. -/
def render (style : Style) (depth : Nat) : Json → List Char
  | .null => ['n', 'u', 'l', 'l']
  | .bool true => ['t', 'r', 'u', 'e']
  | .bool false => ['f', 'a', 'l', 's', 'e']
  | .integer n => integerText n
  | .real x => numbers.render x
  | .string s => quoted s
  | .array [] => ['[', ']']
  | .array (item :: rest) =>
    '[' :: (style.lineStart (depth + 1) ++ render style (depth + 1) item ++
      renderItems style (depth + 1) rest ++ style.lineStart depth ++ [']'])
  | .object [] => ['\x7b', '\x7d']
  | .object ((name, value) :: rest) =>
    '\x7b' :: (style.lineStart (depth + 1) ++ quoted name ++ style.colon ++
      render style (depth + 1) value ++ renderMembers style (depth + 1) rest ++
      style.lineStart depth ++ ['\x7d'])
  | .unrepresentable => ['n', 'u', 'l', 'l']

def renderItems (style : Style) (depth : Nat) : List Json → List Char
  | [] => []
  | item :: rest =>
    ',' :: (style.lineStart depth ++ render style depth item ++ renderItems style depth rest)

def renderMembers (style : Style) (depth : Nat) : List (String × Json) → List Char
  | [] => []
  | (name, value) :: rest =>
    ',' :: (style.lineStart depth ++ quoted name ++ style.colon ++ render style depth value ++
      renderMembers style depth rest)

end

/-- The text of a value on one line. -/
def compact (j : Json) : String :=
  String.ofList (render .compact 0 j)

/-- The text of a value over several lines. -/
def pretty (j : Json) : String :=
  String.ofList (render .indented 0 j)

end Chiptune.Json
