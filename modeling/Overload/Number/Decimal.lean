import Overload.Number.Binary64

/-!
# Decimal text of binary64 numbers

The text of a number has the fewest digits that read back as the number, and of those the digits
nearest to it. All comparisons are made between natural numbers, so nothing is rounded on the
way.
-/

namespace Overload

/-- The number `digits * 10 ^ exponent`. -/
structure Decimal where
  digits : Nat
  exponent : Int
  deriving DecidableEq, Repr, Inhabited

namespace Decimal

/-- The reals that round to one number, as `lower`, `value` and `upper` over a common
denominator. -/
structure Neighbourhood where
  lower : Nat
  value : Nat
  upper : Nat
  denominator : Nat
  /-- Whether the ends round to the number, too. -/
  closed : Bool
  deriving Repr

namespace Neighbourhood

/-- The neighbourhood of `m * 2 ^ q`. It reaches half way to the next number on either side;
`narrow` says that the next one below is only half as far away as the one above. -/
def ofScaled (m : Nat) (q : Int) (narrow : Bool) : Neighbourhood :=
  let scale := Nat.pow 2 (q - 2).toNat
  { lower := (4 * m - if narrow then 1 else 2) * scale
    value := 4 * m * scale
    upper := (4 * m + 2) * scale
    denominator := Nat.pow 2 (2 - q).toNat
    closed := m % 2 == 0 }

/-- The least `k` such that the value is below `10 ^ k`. -/
def magnitude (h : Neighbourhood) : Int :=
  if h.denominator ≤ h.value then
    (Nat.toDigits 10 (h.value / h.denominator)).length
  else
    1 - ((Nat.toDigits 10 ((h.denominator - 1) / h.value)).length : Int)

/-- The multiple of `10 ^ e` that lies in the neighbourhood and next to the value. Of two that are
equally near, the larger one. -/
def onGrid? (h : Neighbourhood) (e : Int) : Option Decimal :=
  let fine := Nat.pow 10 (-e).toNat
  let unit := h.denominator * Nat.pow 10 e.toNat
  let contains (x : Nat) : Bool :=
    if h.closed then h.lower * fine ≤ x && x ≤ h.upper * fine
    else h.lower * fine < x && x < h.upper * fine
  let below := h.value * fine / unit
  let above := below + 1
  match contains (below * unit), contains (above * unit) with
  | true, true =>
      if unit ≤ 2 * (h.value * fine - below * unit) then some ⟨above, e⟩ else some ⟨below, e⟩
  | true, false => some ⟨below, e⟩
  | false, true => some ⟨above, e⟩
  | false, false => none

/-- The first hit on the grids of one, two, … digits. Seventeen are always enough. -/
def shortest (h : Neighbourhood) : Decimal :=
  let k := h.magnitude
  ((List.range 17).findSome? fun n : Nat => h.onGrid? (k - (n + 1))).getD default

end Neighbourhood

/-- The digits without zeros at the end, and the power of ten that a point before them stands
for. -/
def significant (d : Decimal) : List Char × Int :=
  let digits := Nat.toDigits 10 d.digits
  ((digits.reverse.dropWhile (· == '0')).reverse, d.exponent + digits.length)

/-- With a point, and with at least one digit on either side of it. -/
def positional (digits : List Char) (point : Int) : String :=
  let count : Int := digits.length
  if point ≤ 0 then
    "0." ++ String.ofList (List.replicate (-point).toNat '0' ++ digits)
  else if count ≤ point then
    String.ofList (digits ++ List.replicate (point - count).toNat '0') ++ ".0"
  else
    String.ofList (digits.take point.toNat) ++ "." ++ String.ofList (digits.drop point.toNat)

/-- With one digit before the point, and none after it if there are no more. -/
def scientific (digits : List Char) (point : Int) : String :=
  let fraction := if digits.length ≤ 1 then [] else '.' :: digits.drop 1
  String.ofList (digits.take 1 ++ fraction) ++ "e" ++ toString (point - 1)

/-- Numbers from `10⁻⁴` up to below `10¹⁶` are written positionally. -/
def text (d : Decimal) : String :=
  let (digits, point) := d.significant
  if -4 < point && point ≤ 16 then positional digits point else scientific digits point

end Decimal

namespace Binary64

/-- The neighbourhood of the absolute value of a finite number. -/
def neighbourhood (x : Binary64) : Decimal.Neighbourhood :=
  let exponent : Nat := x.magnitude / Nat.pow 2 52
  let fraction : Nat := x.magnitude % Nat.pow 2 52
  if exponent = 0 then .ofScaled fraction (-1074) false
  else
    .ofScaled (fraction + Nat.pow 2 52) ((exponent : Int) - 1075) (fraction == 0 && 1 < exponent)

def text (x : Binary64) : String :=
  if x.isNaN then "NaN"
  else
    let sign := if x.isNegative then "-" else ""
    let absolute :=
      if x.isInfinite then "inf"
      else if x.magnitude = 0 then "0.0"
      else x.neighbourhood.shortest.text
    sign ++ absolute

end Binary64

end Overload
