/-!
# Binary floating point numbers and their shortest decimals

Numbers of the form `m · 2^e` with a significand of at most 53 bits and an
exponent of at least `-1074`: the finite, non-negative numbers of double
precision.  A quotient of natural numbers is rounded to the nearest of them, a
tie to the even significand.  `shortest` finds the decimal with the fewest digits
that is rounded back to the number; of several, the nearest.

All arithmetic is exact and on natural numbers.
-/

namespace ModelWorkspace

/-- The number `significand · 2^exponent`. -/
structure Binary where
  significand : Nat
  exponent : Int
deriving DecidableEq, Repr

/-- The number `digits · 10^exponent`. -/
structure Decimal where
  digits : Nat
  exponent : Int
deriving DecidableEq, Repr

namespace Binary

/-- The quotient of two natural numbers, rounded to the nearest one; a tie goes to
the even one. -/
def roundQuotient (num den : Nat) : Nat :=
  let q := num / den
  let twice := 2 * (num % den)
  if den < twice then q + 1
  else if twice = den then q + q % 2
  else q

/-- A number as a quotient `num / den`. -/
def ratio (b : Binary) : Nat × Nat :=
  match b.exponent with
  | .ofNat e => (b.significand * Nat.pow 2 e, 1)
  | .negSucc e => (b.significand, Nat.pow 2 (e + 1))

/-- `num / (den · 2^e)` as a quotient of natural numbers. -/
def scaled (num den : Nat) (e : Int) : Nat × Nat :=
  match e with
  | .ofNat e => (num, den * Nat.pow 2 e)
  | .negSucc e => (num * Nat.pow 2 (e + 1), den)

/-- The exponent with which `num / den` has a significand of 53 bits, or the least
exponent there is. -/
def exponentFor (num den : Nat) : Int :=
  let guess := (Nat.log2 num : Int) - (Nat.log2 den : Int) - 52
  let (n, d) := scaled num den guess
  max (if n / d < Nat.pow 2 52 then guess - 1 else guess) (-1074)

/-- The number of double precision nearest to `num / den`; `none` if that is out
of range. -/
def round (num den : Nat) : Option Binary :=
  if num = 0 then
    some ⟨0, 0⟩
  else
    let e := exponentFor num den
    let (n, d) := scaled num den e
    let m := roundQuotient n d
    let (m, e) := if m = Nat.pow 2 53 then (Nat.pow 2 52, e + 1) else (m, e)
    if 971 < e then none else some ⟨m, e⟩

/-- The product of two numbers, rounded. -/
def mul (a b : Binary) : Option Binary :=
  let (n, d) := a.ratio
  let (n', d') := b.ratio
  round (n * n') (d * d')

/-- The quotient of two numbers, rounded. -/
def div (a b : Binary) : Option Binary :=
  let (n, d) := a.ratio
  let (n', d') := b.ratio
  round (n * d') (d * n')

/-- The two ends of the interval of numbers that are rounded to the number, as
numerators, and their common denominator.  Below a power of two the numbers lie
twice as close. -/
def interval (b : Binary) : Nat × Nat × Nat :=
  let below := if b.significand = Nat.pow 2 52 ∧ -1074 < b.exponent then 1 else 2
  let (low, den) := ratio ⟨4 * b.significand - below, b.exponent - 2⟩
  let (high, _) := ratio ⟨4 * b.significand + 2, b.exponent - 2⟩
  (low, high, den)

/-- Whether `digits · 10^k` is rounded to the number. -/
def holds (b : Binary) (digits : Nat) (k : Int) : Bool :=
  let (low, high, den) := b.interval
  let (n, d) := match k with
    | .ofNat k => (digits * Nat.pow 10 k, 1)
    | .negSucc k => (digits, Nat.pow 10 (k + 1))
  if b.significand % 2 = 0 then low * d ≤ n * den && n * den ≤ high * d
  else low * d < n * den && n * den < high * d

/-- The decimal exponent of the first digit of `num / den`. -/
def firstDigit (num den : Nat) : Int :=
  if den ≤ num then
    ((Nat.toDigits 10 (num / den)).length : Int) - 1
  else
    -((Nat.toDigits 10 ((den - 1) / num)).length : Int)

/-- The decimal of `count` digits nearest to the number, if it is rounded to it. -/
def withDigits? (b : Binary) (count : Nat) : Option Decimal :=
  let (num, den) := b.ratio
  let k := firstDigit num den + 1 - count
  let (n, d) := match k with
    | .ofNat k => (num, den * Nat.pow 10 k)
    | .negSucc k => (num * Nat.pow 10 (k + 1), den)
  let nearest := roundQuotient n d
  let other := if nearest = n / d then nearest + 1 else n / d
  if b.holds nearest k then some ⟨nearest, k⟩
  else if b.holds other k then some ⟨other, k⟩
  else none

/-- The decimal with the fewest digits that is rounded to the number. -/
def shortest (b : Binary) : Decimal :=
  if b.significand = 0 then
    ⟨0, 0⟩
  else
    ((List.range 17).findSome? fun n => b.withDigits? (n + 1)).getD ⟨0, 0⟩

/-- The power `10^k` of double precision. -/
def powerOfTen (k : Nat) : Option Binary :=
  round (Nat.pow 10 k) 1

/-- The number divided `steps` times by `10^308` and then by `10^k`. -/
def divideByTens (k : Nat) : (steps : Nat) → Binary → Option Binary
  | 0, f => (powerOfTen k).bind f.div
  | steps + 1, f =>
    if f.significand = 0 then some f
    else ((powerOfTen 308).bind f.div).bind (divideByTens k steps)

/-- The number that a reader makes of `significand · 10^exponent`: it rounds the
significand first and the product or quotient with a power of ten afterwards, and
divides by `10^308` first where the power is out of range.  `none` if the number
itself is. -/
def ofScientific (significand : Nat) (exponent : Int) : Option Binary :=
  match round significand 1 with
  | none => none
  | some f =>
    match exponent with
    | .ofNat k =>
      if k ≤ 308 then (powerOfTen k).bind f.mul
      else if f.significand = 0 then some f
      else none
    | .negSucc k => divideByTens (k + 1 - 308 * (k / 308)) (k / 308) f

end Binary

namespace Decimal

/-- The digits of a number, first one first. -/
def digitChars (d : Decimal) : List Char :=
  Nat.toDigits 10 d.digits

/-- The digits without zeros at the end, and the place of the point: how many
digits stand before it. -/
def normal (d : Decimal) : List Char × Int :=
  let digits := d.digitChars
  ((digits.reverse.dropWhile (· == '0')).reverse, (digits.length : Int) + d.exponent)

/-- The decimal as messages write it: positionally from `10^-5` up to `10^16`,
with at least one digit behind the point, and with an exponent elsewhere. -/
def render (d : Decimal) : String :=
  let (digits, point) := d.normal
  if digits = [] then
    "0.0"
  else if 0 < point ∧ point ≤ 16 then
    let before := digits.take point.toNat
    let behind := digits.drop point.toNat
    String.ofList (before ++ List.replicate (point.toNat - before.length) '0' ++ ['.'] ++
      (if behind = [] then ['0'] else behind))
  else if -5 < point ∧ point ≤ 0 then
    String.ofList (['0', '.'] ++ List.replicate (-point).toNat '0' ++ digits)
  else
    let behind := digits.tail
    let exponent := point - 1
    String.ofList (digits.take 1 ++ (if behind = [] then [] else '.' :: behind)) ++ "e" ++
      (if 0 ≤ exponent then "+" else "-") ++ toString exponent.natAbs

end Decimal

end ModelWorkspace
