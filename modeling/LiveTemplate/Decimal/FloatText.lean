import LiveTemplate.Decimal.Shortest

/-!
# The text of a floating-point number

A number is written with the fewest digits that read back.  From a ten-thousandth up to, but
not including, ten to the sixteenth it is written positionally, always with a point; outside
that range with an exponent of at least two digits.
-/

namespace LiveTemplate.Decimal

set_option autoImplicit false

/-- The parts of a floating-point number. -/
inductive FloatShape
  | notANumber
  | infinite (negative : Bool)
  | zero (negative : Bool)
  | finite (negative : Bool) (magnitude : Binary)

/-- Takes a number apart by its bit pattern. -/
def FloatShape.of (x : Float) : FloatShape :=
  let bits : Nat := x.toBits.toNat
  let negative := bits / Nat.pow 2 63 == 1
  let scale : Nat := bits / Nat.pow 2 52 % Nat.pow 2 11
  let fraction : Nat := bits % Nat.pow 2 52
  if scale == 2047 then if fraction == 0 then .infinite negative else .notANumber
  else if scale == 0 then
    if fraction == 0 then .zero negative else .finite negative ⟨fraction, -1074, false⟩
  else
    .finite negative ⟨Nat.pow 2 52 + fraction, (scale : Int) - 1075, fraction == 0 && scale != 1⟩

/-- Digits with a point after the first `before` of them; zeros fill up on either side. -/
def positional (digits : List Char) (before : Int) : List Char :=
  if before ≤ 0 then '0' :: '.' :: (List.replicate (-before).toNat '0' ++ digits)
  else
    let whole := digits.take before.toNat
    let rest := digits.drop before.toNat
    whole ++ List.replicate (before.toNat - whole.length) '0' ++ '.'
      :: (if rest.isEmpty then ['0'] else rest)

/-- Digits with a point after the first one, and an exponent of at least two digits. -/
def scientific (digits : List Char) (exponent : Int) : List Char :=
  let size := Nat.toDigits 10 exponent.natAbs
  digits.take 1 ++ (if digits.length ≤ 1 then [] else '.' :: digits.drop 1)
    ++ 'e' :: (if exponent < 0 then '-' else '+')
    :: (List.replicate (2 - size.length) '0' ++ size)

/-- The text of a positive number. -/
def Binary.text (b : Binary) : List Char :=
  let d := b.shortest.dropZeros 17
  let digits := Nat.toDigits 10 d.digits
  let exponent := d.exponent + digits.length - 1
  if -4 ≤ exponent && exponent < 16 then positional digits (exponent + 1)
  else scientific digits exponent

/-- The text of a floating-point number. -/
def floatText (x : Float) : String :=
  let signed (negative : Bool) (s : List Char) : String :=
    String.ofList (if negative then '-' :: s else s)
  match FloatShape.of x with
  | .notANumber => "nan"
  | .infinite negative => signed negative ['i', 'n', 'f']
  | .zero negative => signed negative ['0', '.', '0']
  | .finite negative b => signed negative b.text

end LiveTemplate.Decimal
