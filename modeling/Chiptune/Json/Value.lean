/-!
# Values written as JSON

Numbers are kept apart by how they are written: an integer of 64 bits, or a double.  Members of an
object stay in their order, repeated names included.

A text can also hold literals that are well formed and yet name no value: a number beyond every
double, or a string with half of a surrogate pair.  They do no harm where nothing looks at them, so
they are values of their own kind, which no reader of a typed value accepts.
-/

namespace Chiptune

/-- A value. -/
inductive Json where
  | null
  | bool (value : Bool)
  | integer (value : Int)
  | real (value : Float)
  | string (value : String)
  | array (items : List Json)
  | object (members : List (String × Json))
  /-- A well-formed literal without a value. -/
  | unrepresentable

namespace Json

def nat (n : Nat) : Json :=
  .integer n

/-- A double; null for the values that are no finite number, since no numeral stands for them. -/
def double (x : Float) : Json :=
  if x.isFinite then .real x else .null

/-- A value, or null. -/
def option {α : Type} (f : α → Json) : Option α → Json
  | none => .null
  | some a => f a

/-! ## Walking a value -/

mutual

/-- Whether every literal in the value names something. -/
def representable : Json → Bool
  | .unrepresentable => false
  | .array items => itemsRepresentable items
  | .object members => membersRepresentable members
  | _ => true

def itemsRepresentable : List Json → Bool
  | [] => true
  | item :: rest => item.representable && itemsRepresentable rest

def membersRepresentable : List (String × Json) → Bool
  | [] => true
  | (_, value) :: rest => value.representable && membersRepresentable rest

end

mutual

/-- How many arrays and objects are open around the innermost value. -/
def depth : Json → Nat
  | .array items => itemsDepth items + 1
  | .object members => membersDepth members + 1
  | _ => 0

def itemsDepth : List Json → Nat
  | [] => 0
  | item :: rest => max item.depth (itemsDepth rest)

def membersDepth : List (String × Json) → Nat
  | [] => 0
  | (_, value) :: rest => max value.depth (membersDepth rest)

end

end Json

end Chiptune
