import Schemata.Json.Basic

namespace Schemata.Json.Reader

abbrev Scan (α : Type) := List Char → Option (α × List Char)

def isBlank (c : Char) : Bool :=
  c = ' ' || c = '\n' || c = '\r' || c = '\t'

def skipBlanks (input : List Char) : List Char :=
  input.dropWhile isBlank

def literal (word : String) (value : Json) : Scan Json := fun input =>
  if word.toList.isPrefixOf input then some (value, input.drop word.length) else none

def hexValue (c : Char) : Option Nat :=
  if c.isDigit then some (c.toNat - 48)
  else if 'a' ≤ c ∧ c ≤ 'f' then some (c.toNat - 87)
  else if 'A' ≤ c ∧ c ≤ 'F' then some (c.toNat - 55)
  else none

def hexNumber (digits : List Char) : Option Nat :=
  digits.foldlM (fun sum c => (hexValue c).map (sum * 16 + ·)) 0

def unit16 : Scan Nat
  | a :: b :: c :: d :: rest => (hexNumber [a, b, c, d]).map (·, rest)
  | _ => none

/-- An escaped code unit, or a pair of them that makes one character beyond the first plane. -/
def escapedUnit : Scan Char := fun input => do
  let (first, rest) ← unit16 input
  if 0xD800 ≤ first ∧ first < 0xDC00 then
    match rest with
    | '\\' :: 'u' :: rest =>
      let (second, rest) ← unit16 rest
      if 0xDC00 ≤ second ∧ second < 0xE000 then
        some (Char.ofNat (0x10000 + (first - 0xD800) * 0x400 + (second - 0xDC00)), rest)
      else none
    | _ => none
  else if 0xDC00 ≤ first ∧ first < 0xE000 then none
  else some (Char.ofNat first, rest)

def shortEscape : Char → Option Char
  | '"' => some '"'
  | '\\' => some '\\'
  | '/' => some '/'
  | 'b' => some '\x08'
  | 'f' => some '\x0c'
  | 'n' => some '\n'
  | 'r' => some '\r'
  | 't' => some '\t'
  | _ => none

/-- The rest of a string after its opening quote; `done` holds what was read, last first. -/
def stringRest : Nat → List Char → Scan String
  | 0, _, _ => none
  | _ + 1, _, [] => none
  | _ + 1, done, '"' :: rest => some (String.ofList done.reverse, rest)
  | fuel + 1, done, '\\' :: 'u' :: rest => do
    let (c, rest) ← escapedUnit rest
    stringRest fuel (c :: done) rest
  | fuel + 1, done, '\\' :: c :: rest => do
    let c ← shortEscape c
    stringRest fuel (c :: done) rest
  | fuel + 1, done, c :: rest =>
    if c.toNat < 0x20 ∨ c = '\\' then none else stringRest fuel (c :: done) rest

def digits (input : List Char) : List Char × List Char :=
  input.span Char.isDigit

def natOf (digits : List Char) : Nat :=
  digits.foldl (fun sum c => sum * 10 + (c.toNat - 48)) 0

/-- No leading zero before further digits. -/
def wholePart : Scan (List Char) := fun input =>
  match digits input with
  | ([], _) => none
  | ('0' :: _ :: _, _) => none
  | (whole, rest) => some (whole, rest)

def fractionPart : Scan (List Char)
  | '.' :: rest =>
    match digits rest with
    | ([], _) => none
    | found => some found
  | rest => some ([], rest)

def exponentDigits (negative : Bool) (input : List Char) : Option (Int × List Char) :=
  match digits input with
  | ([], _) => none
  | (found, rest) => some (if negative then -(natOf found : Int) else natOf found, rest)

def exponentPart : Scan (Option Int)
  | 'e' :: '-' :: rest | 'E' :: '-' :: rest => (exponentDigits true rest).map fun (e, r) => (some e, r)
  | 'e' :: '+' :: rest | 'E' :: '+' :: rest | 'e' :: rest | 'E' :: rest =>
    (exponentDigits false rest).map fun (e, r) => (some e, r)
  | rest => some (none, rest)

def numberValue (negative : Bool) (whole fraction : List Char) (exponent : Option Int) : Json :=
  let mantissa := natOf (whole ++ fraction)
  let signed : Int := if negative then -(mantissa : Int) else mantissa
  if fraction.isEmpty ∧ exponent.isNone ∧ inRange signed ∧ ¬(negative ∧ mantissa = 0) then .int signed
  else .float (.ofDecimal negative mantissa (exponent.getD 0 - fraction.length))

def unsignedNumber (negative : Bool) : Scan Json := fun input => do
  let (whole, rest) ← wholePart input
  let (fraction, rest) ← fractionPart rest
  let (exponent, rest) ← exponentPart rest
  some (numberValue negative whole fraction exponent, rest)

def number : Scan Json
  | '-' :: rest => unsignedNumber true rest
  | rest => unsignedNumber false rest

mutual

def value : Nat → Scan Json
  | 0, _ => none
  | fuel + 1, input =>
    match skipBlanks input with
    | '"' :: rest => (stringRest (rest.length + 1) [] rest).map fun (text, rest) => (.str text, rest)
    | '[' :: rest =>
      match skipBlanks rest with
      | ']' :: rest => some (.arr [], rest)
      | rest => items fuel [] rest
    | '{' :: rest =>
      match skipBlanks rest with
      | '}' :: rest => some (.obj [], rest)
      | rest => members fuel [] rest
    | 't' :: rest => literal "rue" (.bool true) rest
    | 'f' :: rest => literal "alse" (.bool false) rest
    | 'n' :: rest => literal "ull" .null rest
    | rest => number rest

def items : Nat → List Json → Scan Json
  | 0, _, _ => none
  | fuel + 1, done, input =>
    match value fuel input with
    | none => none
    | some (item, rest) =>
      match skipBlanks rest with
      | ',' :: rest => items fuel (item :: done) rest
      | ']' :: rest => some (.arr (item :: done).reverse, rest)
      | _ => none

def members : Nat → List (String × Json) → Scan Json
  | 0, _, _ => none
  | fuel + 1, done, input =>
    match skipBlanks input with
    | '"' :: rest =>
      match stringRest (rest.length + 1) [] rest with
      | none => none
      | some (key, rest) =>
        match skipBlanks rest with
        | ':' :: rest =>
          match value fuel rest with
          | none => none
          | some (member, rest) =>
            match skipBlanks rest with
            | ',' :: rest => members fuel ((key, member) :: done) rest
            | '}' :: rest => some (object ((key, member) :: done).reverse, rest)
            | _ => none
        | _ => none
    | _ => none

end

end Reader

/-- The document that the whole text spells, if it spells one. -/
def read? (text : String) : Option Json :=
  let input := text.toList
  match Reader.value (input.length + 1) input with
  | some (json, rest) => if (Reader.skipBlanks rest).isEmpty then some json else none
  | none => none

end Schemata.Json
