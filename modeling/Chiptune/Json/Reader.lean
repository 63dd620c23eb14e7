import Chiptune.Numerals
import Chiptune.Json.Value

/-!
# Reading JSON text

Each reader takes the characters that are left and gives a value with those behind it, or nothing
if the text is not well formed there.
-/

namespace Chiptune.Json

/-- Space, tab, line feed and carriage return may stand around values. -/
def isBlank (c : Char) : Bool :=
  c == ' ' || c == '\t' || c == '\n' || c == '\r'

/-- What is left behind leading blanks. -/
def skipBlanks : List Char → List Char
  | [] => []
  | c :: rest => if isBlank c then skipBlanks rest else c :: rest

/-! ## Numbers -/

def digit? (c : Char) : Option Nat :=
  if '0' ≤ c ∧ c ≤ '9' then some (c.toNat - '0'.toNat) else none

/-- The longest run of digits, behind those already read (in reverse order). -/
def readDigits (done : List Nat) : List Char → List Nat × List Char
  | [] => (done.reverse, [])
  | c :: rest =>
    match digit? c with
    | some d => readDigits (d :: done) rest
    | none => (done.reverse, c :: rest)

/-- At least one digit. -/
def readDigits? (cs : List Char) : Option (List Nat × List Char) :=
  match readDigits [] cs with
  | ([], _) => none
  | result => some result

/-- Digits before the point: a single zero, or a run that does not begin with zero. -/
def readWhole? : List Char → Option (List Nat × List Char)
  | '0' :: rest => some ([0], rest)
  | cs => readDigits? cs

/-- A point and the digits behind it, if there is a point. -/
def readFraction? : List Char → Option (Option (List Nat) × List Char)
  | '.' :: rest => (readDigits? rest).map fun (digits, rest) => (some digits, rest)
  | cs => some (none, cs)

/-- The number that digits spell. -/
def spelled (digits : List Nat) : Nat :=
  digits.foldl (fun n d => 10 * n + d) 0

/-- A sign, if there is one, and digits. -/
def readSigned? : List Char → Option (Int × List Char)
  | '-' :: rest => (readDigits? rest).map fun (digits, rest) => (-(spelled digits : Int), rest)
  | '+' :: rest => (readDigits? rest).map fun (digits, rest) => ((spelled digits : Int), rest)
  | cs => (readDigits? cs).map fun (digits, rest) => ((spelled digits : Int), rest)

def readExponent? : List Char → Option (Option Int × List Char)
  | 'e' :: rest | 'E' :: rest => (readSigned? rest).map fun (n, rest) => (some n, rest)
  | cs => some (none, cs)

def readNumeral? (cs : List Char) : Option (Numeral × List Char) := do
  let (negative, cs) := match cs with
    | '-' :: rest => (true, rest)
    | cs => (false, cs)
  let (whole, cs) ← readWhole? cs
  let (fraction, cs) ← readFraction? cs
  let (exponent, cs) ← readExponent? cs
  some (⟨negative, whole, fraction, exponent⟩, cs)

/-- The value of a numeral: an integer where it is written as one and fits, else a double. -/
def ofNumeral (x : Numeral) : Json :=
  match x.toInt? with
  | some n => .integer n
  | none =>
    match x.toFloat? with
    | some f => .real f
    | none => .unrepresentable

/-! ## Strings -/

/-- What a string is made of: characters, and escaped units of 16 bits that may be halves of one
character. -/
inductive Piece where
  | char (c : Char)
  | unit (n : Nat)

def hexDigit? (c : Char) : Option Nat :=
  if '0' ≤ c ∧ c ≤ '9' then some (c.toNat - '0'.toNat)
  else if 'a' ≤ c ∧ c ≤ 'f' then some (c.toNat - 'a'.toNat + 10)
  else if 'A' ≤ c ∧ c ≤ 'F' then some (c.toNat - 'A'.toNat + 10)
  else none

/-- The number that four hexadecimal digits spell. -/
def hexUnit? (a b c d : Char) : Option Nat := do
  some ((← hexDigit? a) * 4096 + (← hexDigit? b) * 256 + (← hexDigit? c) * 16 + (← hexDigit? d))

/-- The character that a letter behind a backslash stands for. -/
def unescape? : Char → Option Char
  | '"' => some '"'
  | '\\' => some '\\'
  | '/' => some '/'
  | 'b' => some '\x08'
  | 'f' => some '\x0c'
  | 'n' => some '\n'
  | 'r' => some '\r'
  | 't' => some '\t'
  | _ => none

/-- The pieces up to the closing quote, behind those already read (in reverse order). -/
def readPieces? (done : List Piece) : List Char → Option (List Piece × List Char)
  | [] => none
  | '"' :: rest => some (done.reverse, rest)
  | '\\' :: 'u' :: a :: b :: c :: d :: rest =>
    match hexUnit? a b c d with
    | some n => readPieces? (.unit n :: done) rest
    | none => none
  | '\\' :: c :: rest =>
    match unescape? c with
    | some c => readPieces? (.char c :: done) rest
    | none => none
  | c :: rest => if c.toNat < 0x20 then none else readPieces? (.char c :: done) rest

/-- Whether a unit is the first half of a pair. -/
def isHighHalf (n : Nat) : Bool :=
  0xD800 ≤ n && n < 0xDC00

/-- Whether a unit is the second half of a pair. -/
def isLowHalf (n : Nat) : Bool :=
  0xDC00 ≤ n && n < 0xE000

/-- The characters that pieces make, behind those already made (in reverse order), if no half of a
pair stands alone. -/
def join? (done : List Char) : List Piece → Option (List Char)
  | [] => some done.reverse
  | .char c :: rest => join? (c :: done) rest
  | .unit n :: .unit m :: rest =>
    if isHighHalf n && isLowHalf m then
      join? (Char.ofNat (0x10000 + (n - 0xD800) * 0x400 + (m - 0xDC00)) :: done) rest
    else if isHighHalf n || isLowHalf n then none
    else join? (Char.ofNat n :: done) (.unit m :: rest)
  | .unit n :: rest =>
    if isHighHalf n || isLowHalf n then none else join? (Char.ofNat n :: done) rest

/-- The rest of a string behind its opening quote; no text comes with it if a half of a pair stands
alone. -/
def readString? (cs : List Char) : Option (Option String × List Char) :=
  (readPieces? [] cs).map fun (pieces, rest) => ((join? [] pieces).map String.ofList, rest)

/-! ## Values -/

/-- A string that names something, or a literal that does not. -/
def ofText : Option String → Json
  | some s => .string s
  | none => .unrepresentable

/-- A member joins those already read; a name that is no text spoils the object. -/
def addMember (done : Option (List (String × Json))) (name : Option String) (value : Json) :
    Option (List (String × Json)) :=
  match done, name with
  | some members, some name => some ((name, value) :: members)
  | _, _ => none

/-- The object of members read in reverse order. -/
def ofMembers : Option (List (String × Json)) → Json
  | some members => .object members.reverse
  | none => .unrepresentable

mutual

def readValue? : (fuel : Nat) → List Char → Option (Json × List Char)
  | 0, _ => none
  | fuel + 1, cs =>
    match skipBlanks cs with
    | 'n' :: 'u' :: 'l' :: 'l' :: rest => some (.null, rest)
    | 't' :: 'r' :: 'u' :: 'e' :: rest => some (.bool true, rest)
    | 'f' :: 'a' :: 'l' :: 's' :: 'e' :: rest => some (.bool false, rest)
    | '"' :: rest => (readString? rest).map fun (text, rest) => (ofText text, rest)
    | '[' :: rest =>
      match skipBlanks rest with
      | ']' :: rest => some (.array [], rest)
      | rest => readItems? fuel [] rest
    | '\x7b' :: rest =>
      match skipBlanks rest with
      | '\x7d' :: rest => some (.object [], rest)
      | rest => readMembers? fuel (some []) rest
    | cs => (readNumeral? cs).map fun (numeral, rest) => (ofNumeral numeral, rest)

/-- Items up to the closing bracket, behind those already read (in reverse order). -/
def readItems? : (fuel : Nat) → List Json → List Char → Option (Json × List Char)
  | 0, _, _ => none
  | fuel + 1, done, cs =>
    match readValue? fuel cs with
    | none => none
    | some (item, rest) =>
      match skipBlanks rest with
      | ',' :: rest => readItems? fuel (item :: done) rest
      | ']' :: rest => some (.array (item :: done).reverse, rest)
      | _ => none

/-- Members up to the closing brace, behind those already read (in reverse order). -/
def readMembers? :
    (fuel : Nat) → Option (List (String × Json)) → List Char → Option (Json × List Char)
  | 0, _, _ => none
  | fuel + 1, done, cs =>
    match skipBlanks cs with
    | '"' :: rest =>
      match readString? rest with
      | none => none
      | some (name, rest) =>
        match skipBlanks rest with
        | ':' :: rest =>
          match readValue? fuel rest with
          | none => none
          | some (value, rest) =>
            match skipBlanks rest with
            | ',' :: rest => readMembers? fuel (addMember done name value) rest
            | '\x7d' :: rest => some (ofMembers (addMember done name value), rest)
            | _ => none
        | _ => none
    | _ => none

end

/-- The value of a text that holds one value and blanks around it. -/
def ofChars? (cs : List Char) : Option Json :=
  match readValue? (2 * cs.length + 2) cs with
  | some (value, rest) => if (skipBlanks rest).isEmpty then some value else none
  | none => none

/-- The value of a text that holds one value and blanks around it. -/
def parse? (text : String) : Option Json :=
  ofChars? text.toList

end Chiptune.Json
