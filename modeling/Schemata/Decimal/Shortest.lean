import Schemata.Binary64

namespace Schemata.Decimal

/-- A positive rational with the interval of the numbers that round to it, all over `denominator`. -/
structure Target where
  low : Nat
  value : Nat
  high : Nat
  denominator : Nat
  closed : Bool

/-- The interval reaches halfway to both neighbours; the lower one is nearer below a power of two. -/
def Target.ofBinary64 (x : Binary64) : Target :=
  let m := x.significand
  let below := if x.fraction = 0 ∧ 1 < x.biased then 1 else 2
  let up := Nat.pow 2 (x.scale - 2).toNat
  { low := (4 * m - below) * up
    value := 4 * m * up
    high := (4 * m + 2) * up
    denominator := Nat.pow 2 (2 - x.scale).toNat
    closed := m % 2 = 0 }

structure Digits where
  digits : Nat
  exponent : Int
  deriving DecidableEq, Inhabited

def Digits.over (d : Digits) (target : Target) : Nat × Nat :=
  (d.digits * Nat.pow 10 d.exponent.toNat * target.denominator, Nat.pow 10 (-d.exponent).toNat)

def Target.admits (target : Target) (d : Digits) : Bool :=
  let (n, p) := d.over target
  if target.closed then target.low * p ≤ n && n ≤ target.high * p
  else target.low * p < n && n < target.high * p

def Target.distance (target : Target) (d : Digits) : Nat :=
  let (n, p) := d.over target
  let v := target.value * p
  if n ≤ v then v - n else n - v

def Target.magnitudeFrom (target : Target) : Nat → Int → Int
  | 0, e => e
  | fuel + 1, e =>
    let (n, p) := (Digits.mk 1 e).over target
    if n ≤ target.value * p then e else target.magnitudeFrom fuel (e - 1)

def Target.magnitude (target : Target) : Int :=
  target.magnitudeFrom 700 310

/-- The nearer admitted one of the two neighbours on the grid of `count` digits; a tie goes to the even one. -/
def Target.onGrid? (target : Target) (magnitude : Int) (count : Nat) : Option Digits :=
  let exponent := magnitude + 1 - count
  let step := Nat.pow 10 exponent.toNat * target.denominator
  let floor := target.value * Nat.pow 10 (-exponent).toNat / step
  let lower : Digits := ⟨floor, exponent⟩
  let upper : Digits := ⟨floor + 1, exponent⟩
  match target.admits lower, target.admits upper with
  | false, false => none
  | true, false => some lower
  | false, true => some upper
  | true, true =>
    let a := target.distance lower
    let b := target.distance upper
    if a < b ∨ (a = b ∧ floor % 2 = 0) then some lower else some upper

/-- Seventeen digits always suffice. -/
def Target.shortest (target : Target) : Digits :=
  let magnitude := target.magnitude
  ((List.range 17).findSome? fun i => target.onGrid? magnitude (i + 1)).getD ⟨0, 0⟩

def stripZeros : Nat → Digits → Digits
  | 0, d => d
  | fuel + 1, d =>
    if d.digits ≠ 0 ∧ d.digits % 10 = 0 then stripZeros fuel ⟨d.digits / 10, d.exponent + 1⟩ else d

def zeros (count : Nat) : String :=
  String.ofList (List.replicate count '0')

/-- Positional from 1e-5 up to 1e16, always with a fraction; otherwise scientific with a signed exponent. -/
def Digits.text (d : Digits) : String :=
  let shown := (toString d.digits).toList
  let length := shown.length
  let point := d.exponent + length
  if -5 < point ∧ point ≤ 16 then
    if length ≤ point then
      String.ofList shown ++ zeros (point - length).toNat ++ ".0"
    else if 0 < point then
      String.ofList (shown.take point.toNat) ++ "." ++ String.ofList (shown.drop point.toNat)
    else
      "0." ++ zeros (-point).toNat ++ String.ofList shown
  else
    let fraction := String.ofList (shown.drop 1)
    let power := point - 1
    String.ofList (shown.take 1) ++ (if fraction.isEmpty then "" else "." ++ fraction)
      ++ "e" ++ (if power < 0 then "-" else "+") ++ toString power.natAbs

end Schemata.Decimal

namespace Schemata.Binary64

open Decimal

def text (x : Binary64) : String :=
  let sign := if x.isNegative then "-" else ""
  if x.significand = 0 then sign ++ "0.0"
  else sign ++ (stripZeros 20 (Target.ofBinary64 x).shortest).text

end Schemata.Binary64
