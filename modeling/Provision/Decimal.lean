/-!
# Decimal text of floating-point numbers

A finite number is decoded into `significand · 2 ^ exponent`.  Its shortest
decimal is found on the coarsest decimal grid that has a point in the interval
of reals that round to the number.  A `Layout` then decides how the digits are
written.  Reading goes the other way, from digits to the nearest number.
-/

namespace Provision.Decimal

/-- The magnitude of a finite number as `significand · 2 ^ exponent`. -/
structure Magnitude where
  significand : Nat
  exponent : Int
  /-- The next smaller number is only half as far away as the next larger one. -/
  narrowBelow : Bool

/-- Which of two equally near decimals is taken. -/
inductive Tie where
  | up
  | even
deriving DecidableEq, Repr

/-- The decimal `significand · 10 ^ exponent`. -/
structure Digits where
  significand : Nat
  exponent : Int
deriving DecidableEq, Repr

/-- The exponent field in the encoding of a number. -/
def exponentField (x : Float) : Nat :=
  x.toBits.toNat / Nat.pow 2 52 % Nat.pow 2 11

/-- The fraction bits in the encoding of a number. -/
def fractionBits (x : Float) : Nat :=
  x.toBits.toNat % Nat.pow 2 52

/-- Whether the sign bit is set; this also holds of negative zero. -/
def isNegative (x : Float) : Bool :=
  Nat.pow 2 63 ≤ x.toBits.toNat

/-- The largest exponent field belongs to the infinities and to what is not a number. -/
def isFinite (x : Float) : Bool :=
  exponentField x != 2047

/-- The magnitude of a finite number.  The least exponent field has no hidden bit. -/
def magnitude (x : Float) : Magnitude :=
  let field := exponentField x
  let fraction := fractionBits x
  if field = 0 then ⟨fraction, -1074, false⟩
  else ⟨fraction + Nat.pow 2 52, Int.ofNat field - 1075, fraction == 0 && field != 1⟩

/-- A quarter of the spacing above the number, in units of `1 / gridUnit`. -/
def quarter (b : Magnitude) (k : Int) : Nat :=
  Nat.pow 2 (b.exponent - 2).toNat * Nat.pow 10 (-k).toNat

/-- The step of the decimal grid `10 ^ k`, in the units in which `quarter` is counted. -/
def gridUnit (b : Magnitude) (k : Int) : Nat :=
  Nat.pow 2 (2 - b.exponent).toNat * Nat.pow 10 k.toNat

/-- Whether the grid point `d · 10 ^ k` rounds to the number.  The ends of the interval belong to
it exactly when the significand is even. -/
def roundsTo (b : Magnitude) (k : Int) (d : Nat) : Bool :=
  let low := (4 * b.significand - if b.narrowBelow then 1 else 2) * quarter b k
  let high := (4 * b.significand + 2) * quarter b k
  let point := d * gridUnit b k
  if b.significand % 2 = 0 then low ≤ point && point ≤ high
  else low < point && point < high

/-- The point of the grid `10 ^ k` nearest to the number, when it rounds to the number. -/
def onGrid? (tie : Tie) (b : Magnitude) (k : Int) : Option Nat :=
  let value := 4 * b.significand * quarter b k
  let unit := gridUnit b k
  let d := value / unit
  match roundsTo b k d, roundsTo b k (d + 1) with
  | false, false => none
  | true, false => some d
  | false, true => some (d + 1)
  | true, true =>
    let below := value - d * unit
    let above := (d + 1) * unit - value
    if below < above then some d
    else if above < below then some (d + 1)
    else
      match tie with
      | .up => some (d + 1)
      | .even => some (if d % 2 = 0 then d else d + 1)

/-- Goes from the grid `10 ^ k` to finer ones until a point rounds to the number. -/
def searchGrids (tie : Tie) (b : Magnitude) : Nat → Int → Digits
  | 0, k => ⟨4 * b.significand * quarter b k / gridUnit b k, k⟩
  | steps + 1, k =>
    match onGrid? tie b k with
    | some d => ⟨d, k⟩
    | none => searchGrids tie b steps (k - 1)

/-- A grid coarser than the number itself: its step exceeds twice the number. -/
def coarseGrid (b : Magnitude) : Int :=
  ((b.significand.log2 : Int) + b.exponent + 2) * 30103 / 100000 + 1

/-- The fewest digits that read back as the number, and of those the nearest.  Seventeen digits
always suffice. -/
def shortest (tie : Tie) (b : Magnitude) : Digits :=
  if b.significand = 0 then ⟨0, 0⟩
  else searchGrids tie b 24 (coarseGrid b)

/-- How digits are laid out as text. -/
structure Layout where
  /-- Which of two equally near shortest decimals is written. -/
  tie : Tie
  /-- Whether a number whose first digit stands for `10 ^ e` is written without an exponent. -/
  positional : Int → Bool
  /-- An integral number written positionally ends in `.0`. -/
  pointZero : Bool
  /-- A positive exponent carries a plus sign. -/
  plusSign : Bool
  infinity : String
  minusInfinity : String
  notANumber : String

/-- Decimal digits of a natural number. -/
def natDigits (n : Nat) : List Char :=
  Nat.toDigits 10 n

/-- The digits with the decimal point at its place and no exponent. -/
def positionalText (pointZero : Bool) (digits : Digits) : List Char :=
  let ds := natDigits digits.significand
  if 0 ≤ digits.exponent then
    ds ++ List.replicate digits.exponent.toNat '0' ++ (if pointZero then ['.', '0'] else [])
  else
    let places := (-digits.exponent).toNat
    if places < ds.length then
      ds.take (ds.length - places) ++ '.' :: ds.drop (ds.length - places)
    else
      '0' :: '.' :: (List.replicate (places - ds.length) '0' ++ ds)

/-- The digits with the point after the first one and the exponent behind. -/
def exponentText (plusSign : Bool) (digits : Digits) : List Char :=
  let ds := natDigits digits.significand
  let e : Int := digits.exponent + ((ds.length : Int) - 1)
  let mantissa :=
    match ds with
    | first :: second :: rest => first :: '.' :: second :: rest
    | few => few
  let sign := if e < 0 then ['-'] else if plusSign then ['+'] else []
  mantissa ++ 'e' :: (sign ++ natDigits e.natAbs)

/-- The text of a number in a layout. -/
def write (layout : Layout) (x : Float) : List Char :=
  if isFinite x then
    let digits := shortest layout.tie (magnitude x)
    let leading : Int := digits.exponent + (((natDigits digits.significand).length : Int) - 1)
    let text :=
      if layout.positional leading then positionalText layout.pointZero digits
      else exponentText layout.plusSign digits
    if isNegative x then '-' :: text else text
  else if fractionBits x != 0 then layout.notANumber.toList
  else (if isNegative x then layout.minusInfinity else layout.infinity).toList

/-! ## Reading -/

/-- The natural number that a run of decimal digits denotes. -/
def natOfDigits (digits : List Char) : Nat :=
  digits.foldl (fun n c => 10 * n + (c.toNat - '0'.toNat)) 0

/-- The encoding of `significand · 2 ^ exponent` without its sign.  The hidden bit of the
significand counts up the exponent field, so a significand of `2 ^ 53` is encoded right, too. -/
def encode (significand : Nat) (exponent : Int) : Nat :=
  (exponent + 1074).toNat * Nat.pow 2 52 + significand

/-- The encoding of infinity, above that of every finite number. -/
def infinityBits : Nat :=
  2047 * Nat.pow 2 52

/-- A quotient rounded to the nearest natural number, a half to the even one. -/
def roundQuotient (num den : Nat) : Nat :=
  let q := num / den
  let rest := num % den
  if 2 * rest < den then q
  else if den < 2 * rest then q + 1
  else if q % 2 = 0 then q
  else q + 1

/-- The quotient `num / den` in units of `2 ^ e`, as a fraction. -/
def inUnits (num den : Nat) (e : Int) : Nat × Nat :=
  (num * Nat.pow 2 (-e).toNat, den * Nat.pow 2 e.toNat)

/-- The exponent at which `num / den` has 53 bits before the point, but at least the least one. -/
def unitExponent (num den : Nat) : Int :=
  let e : Int := (num.log2 : Int) - den.log2 - 52
  let (n, d) := inUnits num den e
  max (if n / d < Nat.pow 2 52 then e - 1 else e) (-1074)

/-- The encoding of the number nearest to `num / den`, without its sign. -/
def nearestBits (num den : Nat) : Nat :=
  if num = 0 then 0
  else
    let e := unitExponent num den
    let (n, d) := inUnits num den e
    min (encode (roundQuotient n d) e) infinityBits

/-- The number nearest to `± significand · 10 ^ exponent`. -/
def ofDecimal (negative : Bool) (significand : Nat) (exponent : Int) : Float :=
  let bits := nearestBits (significand * Nat.pow 10 exponent.toNat) (Nat.pow 10 (-exponent).toNat)
  Float.ofBits (UInt64.ofNat (if negative then Nat.pow 2 63 + bits else bits))

/-- The number nearest to `± whole.fraction · 10 ^ exponent`. -/
def ofDigits (negative : Bool) (whole fraction : List Char) (exponent : Int) : Float :=
  ofDecimal negative (natOfDigits (whole ++ fraction)) (exponent - fraction.length)

end Provision.Decimal
