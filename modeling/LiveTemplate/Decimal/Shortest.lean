/-!
# The shortest decimal that reads back

A binary floating-point number stands for every real number that rounds to it.  Among the
decimals in that interval this module finds one with the fewest digits, and among those the
nearest to the number itself.  All arithmetic is exact, on natural numbers.
-/

namespace LiveTemplate.Decimal

set_option autoImplicit false

/-- The positive number `mantissa · 2 ^ exponent`, with the shape its neighbours need: the gap
below is half the gap above when `atPower` holds. -/
structure Binary where
  mantissa : Nat
  exponent : Int
  atPower : Bool

/-- The decimal `digits · 10 ^ exponent`. -/
structure Numeral where
  digits : Nat
  exponent : Int
  deriving DecidableEq, Repr

/-- A fraction of natural numbers, with a positive denominator. -/
structure Ratio where
  num : Nat
  den : Nat

/-- The fraction `n · base ^ e`. -/
def Ratio.scaled (n base : Nat) (e : Int) : Ratio :=
  if 0 ≤ e then ⟨n * Nat.pow base e.toNat, 1⟩ else ⟨n, Nat.pow base (-e).toNat⟩

def Ratio.le (a b : Ratio) : Bool := a.num * b.den ≤ b.num * a.den

def Ratio.lt (a b : Ratio) : Bool := a.num * b.den < b.num * a.den

/-- The distance of two fractions. -/
def Ratio.dist (a b : Ratio) : Ratio :=
  ⟨(a.num * b.den - b.num * a.den) + (b.num * a.den - a.num * b.den), a.den * b.den⟩

/-- The number itself. -/
def Binary.value (b : Binary) : Ratio := Ratio.scaled (4 * b.mantissa) 2 (b.exponent - 2)

/-- The lower end of the interval that rounds to the number. -/
def Binary.low (b : Binary) : Ratio :=
  Ratio.scaled (4 * b.mantissa - (if b.atPower then 1 else 2)) 2 (b.exponent - 2)

/-- The upper end of the interval that rounds to the number. -/
def Binary.high (b : Binary) : Ratio := Ratio.scaled (4 * b.mantissa + 2) 2 (b.exponent - 2)

/-- Whether a fraction rounds to the number.  The ends of the interval do so exactly when the
mantissa is even. -/
def Binary.reads (b : Binary) (x : Ratio) : Bool :=
  if b.mantissa % 2 == 0 then b.low.le x && x.le b.high else b.low.lt x && x.lt b.high

/-- The count of decimal digits of a number. -/
def digitCount (n : Nat) : Nat := (Nat.toDigits 10 n).length

/-- The exponent `e` with `10 ^ e ≤ x < 10 ^ (e + 1)`, for a positive fraction. -/
def Ratio.magnitude (x : Ratio) : Int :=
  if x.den ≤ x.num then (digitCount (x.num / x.den) : Int) - 1
  else
    let places := digitCount (x.den / x.num) - 1
    if x.num * Nat.pow 10 places == x.den then -(places : Int) else -(places : Int) - 1

/-- The fraction that a decimal writes. -/
def Numeral.value (d : Numeral) : Ratio := Ratio.scaled d.digits 10 d.exponent

/-- The greatest decimal with the given last place that is not above a fraction. -/
def Ratio.floorAt (x : Ratio) (place : Int) : Numeral :=
  if 0 ≤ place then ⟨x.num / (x.den * Nat.pow 10 place.toNat), place⟩
  else ⟨x.num * Nat.pow 10 (-place).toNat / x.den, place⟩

/-- Of the two decimals around the number that end at the given place, the nearer one among
those that read back. -/
def Binary.nearestAt? (b : Binary) (place : Int) : Option Numeral :=
  let below := b.value.floorAt place
  let above : Numeral := ⟨below.digits + 1, place⟩
  match b.reads below.value, b.reads above.value with
  | true, true =>
    if (above.value.dist b.value).lt (below.value.dist b.value) then some above else some below
  | true, false => some below
  | false, true => some above
  | false, false => none

/-- Tries the last places from `place` downwards, `count` of them. -/
def Binary.shortestFrom (b : Binary) (place : Int) : Nat → Numeral
  | 0 => b.value.floorAt place
  | count + 1 =>
    match b.nearestAt? place with
    | some d => d
    | none => b.shortestFrom (place - 1) count

/-- The shortest decimal that reads back; seventeen digits always suffice. -/
def Binary.shortest (b : Binary) : Numeral := b.shortestFrom b.value.magnitude 17

/-- Drops the zeros at the end of the digits, at most `count` of them. -/
def Numeral.dropZeros (d : Numeral) : Nat → Numeral
  | 0 => d
  | count + 1 =>
    if d.digits % 10 == 0 && d.digits != 0 then
      Numeral.dropZeros ⟨d.digits / 10, d.exponent + 1⟩ count
    else d

end LiveTemplate.Decimal
