import Narad.Lib.Bytes

/-!
# JSON values

An attach compares the schema histories of two topics by value: the order of an object's keys and the
spelling of a number do not count. The comparison is embedded here over the values of the standard
library's decoder, which is a parameter: it takes one value off the front of a text and leaves the rest.
-/

namespace Narad.Metastore

open Lib

/-- A non-empty run of decimal digits. -/
def digits : List Char → Option ℕ
  | [] => none
  | cs => if cs.all Char.isDigit then some (cs.foldl (fun n c => n * 10 + (c.toNat - '0'.toNat)) 0) else none

/-- A number, unless it needs more bits. -/
def fitting (bits : ℕ) (z : ℤ) : Option ℤ :=
  if -2 ^ (bits - 1) ≤ z ∧ z < 2 ^ (bits - 1) then some z else none

/-- A signed decimal number of so many bits. -/
def parseInt (bits : ℕ) : List Char → Option ℤ
  | '-' :: cs => (digits cs).bind fun n => fitting bits (-n)
  | '+' :: cs => (digits cs).bind fun n => fitting bits n
  | cs => (digits cs).bind fun n => fitting bits n

def atoi : List Char → Option ℤ :=
  parseInt 64

/-- The text before the first separator, and the text behind it if there is one. -/
def cut (sep : Char) (text : List Char) : List Char × Option (List Char) :=
  (text.takeWhile (· ≠ sep), (text.dropWhile (· ≠ sep)).tail?)

/-- The sign, the significant digits and the exponent of a number literal, so that equal values render
alike. An exponent of more than 32 bits is refused. -/
def canonicalJSONNumber (literal : String) : Option String := do
  let neg := literal.toList.head? = some '-'
  let lit := if neg then literal.toList.tail else literal.toList
  let (mantissa, expPart) := cut 'e' (lit.map Char.toLower)
  let exp ← match expPart with
    | none => some 0
    | some text => parseInt 32 text
  let (intPart, fracPart) := cut '.' mantissa
  let digits := (intPart ++ fracPart.getD []).dropWhile (· = '0')
  let exp := exp - (fracPart.getD []).length
  if digits = [] then return "0"
  let trimmed := (digits.reverse.dropWhile (· = '0')).reverse
  let exp := exp + (digits.length - trimmed.length)
  return (if neg then "-" else "") ++ String.ofList trimmed ++ "e" ++ toString exp

def jsonNumbersEqual (a b : String) : Bool :=
  a == b || (canonicalJSONNumber a).any fun na => canonicalJSONNumber b == some na

/-- A decoded value. Numbers stay literals; an object has each key once. -/
inductive JsonValue where
  | null
  | bool (b : Bool)
  | number (literal : String)
  | string (s : String)
  | array (elems : List JsonValue)
  | object (fields : List (String × JsonValue))

mutual

def jsonValuesEqual : JsonValue → JsonValue → Bool
  | .object av, .object bv => av.length == bv.length && fieldsEqual av bv
  | .array av, .array bv => av.length == bv.length && elemsEqual av bv
  | .number av, .number bv => jsonNumbersEqual av bv
  | .string av, .string bv => av == bv
  | .bool av, .bool bv => av == bv
  | .null, .null => true
  | _, _ => false

/-- Every field has its counterpart among the other object's. -/
def fieldsEqual : List (String × JsonValue) → List (String × JsonValue) → Bool
  | [], _ => true
  | (k, x) :: rest, bv => (bv.lookup k).any (jsonValuesEqual x) && fieldsEqual rest bv

def elemsEqual : List JsonValue → List JsonValue → Bool
  | x :: xs, y :: ys => jsonValuesEqual x y && elemsEqual xs ys
  | _, _ => true

end

/-- The decoder: one value off the front of a text, and the rest of it. -/
abbrev JsonDecoder := Bytes → Option (JsonValue × Bytes)

/-- Whether the decoder sees another element. A closing bracket is not one, also where none is open. -/
def more (rest : Bytes) : Bool :=
  match rest.dropWhile fun c => c = 32 ∨ c = 9 ∨ c = 10 ∨ c = 13 with
  | [] => false
  | c :: _ => decide (c ≠ 93 ∧ c ≠ 125)

variable (decode : JsonDecoder)

def decodeJSONValue (raw : Bytes) : Option JsonValue :=
  match decode raw with
  | some (v, rest) => if more rest then none else some v
  | none => none

def jsonValueEqual (a b : Bytes) : Bool :=
  a == b ||
    match decodeJSONValue decode a, decodeJSONValue decode b with
    | some va, some vb => jsonValuesEqual va vb
    | _, _ => false

theorem jsonValueEqual_self (a : Bytes) : jsonValueEqual decode a a = true := by
  rw [jsonValueEqual, beq_self_eq_true, Bool.true_or]

end Narad.Metastore
