import Schemata.Toml.Value

namespace Schemata.Toml

def digitValue (c : Char) : Nat :=
  if c.isDigit then c.toNat - 48
  else if 'a' ≤ c ∧ c ≤ 'f' then c.toNat - 87
  else if 'A' ≤ c ∧ c ≤ 'F' then c.toNat - 55
  else 99

def isDigitOf (base : Nat) (c : Char) : Bool :=
  digitValue c < base

/-- Digits of the base, in which a single underscore may stand between two of them. -/
def digitRun (base : Nat) : List Char → Option (List Char)
  | [] => none
  | [c] => if isDigitOf base c then some [c] else none
  | c :: '_' :: rest => if isDigitOf base c then (digitRun base rest).map (c :: ·) else none
  | c :: rest => if isDigitOf base c then (digitRun base rest).map (c :: ·) else none

def numberOf (base : Nat) (digits : List Char) : Nat :=
  digits.foldl (fun sum c => sum * base + digitValue c) 0

def decimal? (word : List Char) : Option Nat := do
  let digits ← digitRun 10 word
  match digits with
  | '0' :: _ :: _ => none
  | digits => some (numberOf 10 digits)

def splitSign : List Char → Option Bool × List Char
  | '+' :: rest => (some false, rest)
  | '-' :: rest => (some true, rest)
  | rest => (none, rest)

/-- Only decimal integers may carry a sign. -/
def integer? : List Char → Option Int
  | '0' :: 'x' :: rest => (digitRun 16 rest).map fun digits => numberOf 16 digits
  | '0' :: 'o' :: rest => (digitRun 8 rest).map fun digits => numberOf 8 digits
  | '0' :: 'b' :: rest => (digitRun 2 rest).map fun digits => numberOf 2 digits
  | word =>
    let (sign, rest) := splitSign word
    (decimal? rest).map fun value => if sign = some true then -(value : Int) else value

def isExponent (word : List Char) : Bool :=
  (digitRun 10 (splitSign word).2).isSome

/-- A fraction, an exponent or both must follow the whole part. -/
def isFloat (word : List Char) : Bool :=
  let rest := (splitSign word).2
  if rest = ['i', 'n', 'f'] ∨ rest = ['n', 'a', 'n'] then true
  else
    let (mantissa, power) := rest.span fun c => c != 'e' && c != 'E'
    let (whole, fraction) := mantissa.span (· != '.')
    (decimal? whole).isSome
      && (fraction.isEmpty || (digitRun 10 (fraction.drop 1)).isSome)
      && (power.isEmpty || isExponent (power.drop 1))
      && !(fraction.isEmpty && power.isEmpty)

def fixedNumber (digits : List Char) : Option Nat :=
  if digits.all Char.isDigit && !digits.isEmpty then some (numberOf 10 digits) else none

def daysIn (year month : Nat) : Nat :=
  if month = 2 then
    if year % 4 = 0 ∧ (year % 100 ≠ 0 ∨ year % 400 = 0) then 29 else 28
  else if month ∈ [4, 6, 9, 11] then 30 else 31

def isDate (word : List Char) : Bool :=
  match word with
  | [y1, y2, y3, y4, '-', m1, m2, '-', d1, d2] =>
    match fixedNumber [y1, y2, y3, y4], fixedNumber [m1, m2], fixedNumber [d1, d2] with
    | some year, some month, some day =>
      1 ≤ month && month ≤ 12 && 1 ≤ day && day ≤ daysIn year month
    | _, _, _ => false
  | _ => false

def isBelow (limit : Nat) (tens ones : Char) : Bool :=
  (fixedNumber [tens, ones]).any (· < limit)

/-- Seconds may be left out. -/
def isTime (word : List Char) : Bool :=
  match word with
  | h1 :: h2 :: ':' :: m1 :: m2 :: rest =>
    isBelow 24 h1 h2 && isBelow 60 m1 m2 &&
      match rest with
      | [] => true
      | ':' :: s1 :: s2 :: fraction =>
        isBelow 61 s1 s2 &&
          match fraction with
          | [] => true
          | '.' :: digits => (fixedNumber digits).isSome
          | _ => false
      | _ => false
  | _ => false

def isOffset (word : List Char) : Bool :=
  match word with
  | ['Z'] | ['z'] => true
  | [sign, h1, h2, ':', m1, m2] => (sign = '+' || sign = '-') && isBelow 24 h1 h2 && isBelow 60 m1 m2
  | _ => false

def isOffsetMark (c : Char) : Bool :=
  c = 'Z' || c = 'z' || c = '+' || c = '-'

def isDateTime (word : List Char) : Bool :=
  if isTime word || isDate word then true
  else
    let (date, rest) := (word.take 10, word.drop 10)
    match rest with
    | mark :: rest =>
      let (time, offset) := rest.span (!isOffsetMark ·)
      (mark = 'T' || mark = 't' || mark = ' ') && isDate date && isTime time
        && (offset.isEmpty || isOffset offset)
    | [] => false

def isWordChar (c : Char) : Bool :=
  c.isAlphanum || c = '_' || c = '+' || c = '-' || c = '.' || c = ':'

/-- The word at the front; a date followed by a blank and a digit goes on with its time. -/
def splitWord (input : List Char) : List Char × List Char :=
  let (word, rest) := input.span isWordChar
  match rest with
  | ' ' :: c :: more =>
    if isDate word && c.isDigit then
      let (time, rest) := (c :: more).span isWordChar
      (word ++ ' ' :: time, rest)
    else (word, rest)
  | rest => (word, rest)

def scalar? (word : List Char) : Option Value :=
  if word = "true".toList then some (.boolean true)
  else if word = "false".toList then some (.boolean false)
  else match integer? word with
    | some value => some (.integer value)
    | none =>
      if isFloat word then some (.float (String.ofList word))
      else if isDateTime word then some (.datetime (String.ofList word))
      else none

end Schemata.Toml
