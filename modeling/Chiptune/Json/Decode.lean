import Chiptune.Json.Value

/-!
# Typed values from JSON

A reader of a typed value gives nothing where the JSON has another shape.  Integers have to be
written as integers and be in range; a double may be written as an integer too.

A record is an object whose members are named for its fields, in any order, unknown ones being left
aside; or an array of the fields in their order, where fields may be missing from the end.
-/

namespace Chiptune.Json

def toBool? : Json → Option Bool
  | .bool b => some b
  | _ => none

/-- An integer from zero up to, and without, `bound`. -/
def toNatBelow? (bound : Nat) : Json → Option Nat
  | .integer n => if 0 ≤ n ∧ n < bound then some n.toNat else none
  | _ => none

/-- A natural number of 64 bits. -/
def toNat? : Json → Option Nat :=
  toNatBelow? UInt64.size

def toUInt8? (j : Json) : Option UInt8 :=
  (toNatBelow? UInt8.size j).map UInt8.ofNat

def toUInt16? (j : Json) : Option UInt16 :=
  (toNatBelow? UInt16.size j).map UInt16.ofNat

def toUInt32? (j : Json) : Option UInt32 :=
  (toNatBelow? UInt32.size j).map UInt32.ofNat

def toUInt64? (j : Json) : Option UInt64 :=
  (toNatBelow? UInt64.size j).map UInt64.ofNat

def toInt16? : Json → Option Int16
  | .integer n =>
    if Int16.minValue.toInt ≤ n ∧ n ≤ Int16.maxValue.toInt then some (Int16.ofInt n) else none
  | _ => none

/-- A double, or the double nearest to an integer. -/
def toFloat? : Json → Option Float
  | .integer n => some (Float.ofInt n)
  | .real x => some x
  | _ => none

def toList? {α : Type} (f : Json → Option α) : Json → Option (List α)
  | .array items => items.mapM f
  | _ => none

/-- A value read by `f`, or null for none. -/
def toOption? {α : Type} (f : Json → Option α) : Json → Option (Option α)
  | .null => some none
  | j => (f j).map some

/-! ## Records -/

/-- The only member of that name, if there is one; two of them are an error. -/
def member? (members : List (String × Json)) (name : String) : Option (Option Json) :=
  match members.filter (·.1 == name) with
  | [] => some none
  | [(_, value)] => some (some value)
  | _ => none

/-- The fields of a record, in the order of their names, each where it is present. -/
def fields? (names : List String) : Json → Option (List (Option Json))
  | .object members => names.mapM (member? members)
  | .array items =>
    if items.length ≤ names.length then
      some (items.map some ++ List.replicate (names.length - items.length) none)
    else none
  | _ => none

/-- A field that has to be present. -/
def required? {α : Type} (f : Json → Option α) (field : Option Json) : Option α :=
  field.bind f

/-- A field that may be left out, `default` standing for it then. -/
def optional? {α : Type} (f : Json → Option α) (default : α) : Option Json → Option α
  | none => some default
  | some j => f j

/-! ## Variants -/

/-- A choice by name: its name alone, or an object whose one member has the name and holds what
goes with it. -/
def variant? : Json → Option (String × Option Json)
  | .string name => some (name, none)
  | .object [(name, value)] => some (name, some value)
  | _ => none

/-- Nothing goes with a choice, which may also be written as null. -/
def isNothing : Option Json → Bool
  | none => true
  | some .null => true
  | _ => false

/-- A choice with which nothing goes. -/
def named? {α : Type} (ofName? : String → Option α) (j : Json) : Option α :=
  match variant? j with
  | some (name, payload) => if isNothing payload then ofName? name else none
  | none => none

end Chiptune.Json
