/-! # Shortest decimals

The value of a binary floating-point number is `m · 2 ^ q`. Every real close enough to it
rounds to it; of the decimals among those, the shortest ones are wanted, and of these the
nearest to the value, the greater of two equally near. The search compares exact fractions
of natural numbers only.
-/

namespace TieredCalculus.Decimal

/-- A decimal `0.d₁d₂… · 10 ^ exponent`, its digits read as one natural number. -/
structure Digits where
  digits : Nat
  exponent : Int
  deriving DecidableEq

/-- The reals between `low / unit` and `high / unit` that round to `value / unit`; the ends
belong to it when `closed` holds. -/
structure Interval where
  low : Nat
  value : Nat
  high : Nat
  unit : Nat
  closed : Bool

namespace Interval

/-- The reals that round to `m · 2 ^ q`. The gap below is half as wide as the gap above when
`narrow` holds, which is the case at a power of two; ends round to an even `m`. -/
def ofBinary (m : Nat) (q : Int) (narrow : Bool) : Interval :=
  let scale := Nat.pow 2 q.toNat
  let value := 4 * m * scale
  { low := value - (if narrow then 1 else 2) * scale
    value := value
    high := value + 2 * scale
    unit := 4 * Nat.pow 2 (-q).toNat
    closed := m % 2 = 0 }

def contains (i : Interval) (num den : Nat) : Bool :=
  if i.closed then i.low * den ≤ num * i.unit && num * i.unit ≤ i.high * den
  else i.low * den < num * i.unit && num * i.unit < i.high * den

end Interval

def width (n : Nat) : Nat := if n = 0 then 0 else (Nat.toDigits 10 n).length

/-- The exponent `e` with `10 ^ (e - 1) ≤ num / den < 10 ^ e`, for positive `num`, `den`. -/
def exponentOf (num den : Nat) : Int :=
  if den ≤ num then width (num / den) else -((width ((den - 1) / num) : Int) - 1)

def onGrid? (i : Interval) (e : Int) (n : Nat) : Option Nat :=
  let up := (e - n).toNat
  let down := (n - e).toNat
  let step := Nat.pow 10 up
  let den := Nat.pow 10 down
  let below := i.value * den / (i.unit * step)
  let above := below + 1
  let lower := i.contains (below * step) den
  let upper := i.contains (above * step) den
  if lower && upper then
    -- twice the value against the middle of the two grid points
    if 2 * i.value * den < (below + above) * step * i.unit then some below else some above
  else if lower then some below
  else if upper then some above
  else none

def searchGrids (i : Interval) (e : Int) : Nat → Nat → Digits
  | n, 0 => ⟨i.value * Nat.pow 10 (n - e).toNat / (i.unit * Nat.pow 10 (e - n).toNat), e⟩
  | n, fuel + 1 =>
    match onGrid? i e n with
    | some d => ⟨d, if d < Nat.pow 10 n then e else e + 1⟩
    | none => searchGrids i e (n + 1) fuel

def shortest (i : Interval) (limit : Nat) : Digits :=
  searchGrids i (exponentOf i.value i.unit) 1 limit

/-! ## Positional notation -/

def trimmed (n : Nat) : List Char :=
  ((Nat.toDigits 10 n).reverse.dropWhile (· = '0')).reverse

/-- A decimal in positional notation: no exponent, and no point without digits after it. -/
def positional (d : Digits) : String :=
  let ds := trimmed d.digits
  let n := ds.length
  if d.exponent ≤ 0 then
    "0." ++ String.ofList (List.replicate (-d.exponent).toNat '0' ++ ds)
  else if n ≤ d.exponent.toNat then
    String.ofList (ds ++ List.replicate (d.exponent.toNat - n) '0')
  else
    String.ofList (ds.take d.exponent.toNat ++ '.' :: ds.drop d.exponent.toNat)

/-- A binary format: the stored fraction bits, the exponent bits and the most digits that a
shortest decimal can need. -/
structure Format where
  fractionBits : Nat
  exponentBits : Nat
  maxDigits : Nat

/-- The text of the number with the given bits: shortest digits in positional notation, a
minus sign also before zero, `NaN` and `inf` for what is not finite. -/
def text (f : Format) (bits : Nat) : String :=
  let hidden := Nat.pow 2 f.fractionBits
  let fraction := bits % hidden
  let biased := bits / hidden % Nat.pow 2 f.exponentBits
  let sign := if bits / (hidden * Nat.pow 2 f.exponentBits) % 2 = 1 then "-" else ""
  if biased + 1 = Nat.pow 2 f.exponentBits then
    if fraction = 0 then sign ++ "inf" else "NaN"
  else if biased = 0 && fraction = 0 then sign ++ "0"
  else
    let bias : Nat := Nat.pow 2 (f.exponentBits - 1) - 1 + f.fractionBits
    let m := if biased = 0 then fraction else hidden + fraction
    let q : Int := (if biased = 0 then 1 else biased : Nat) - (bias : Int)
    sign ++ positional (shortest (.ofBinary m q (fraction = 0 && 1 < biased)) f.maxDigits)

end TieredCalculus.Decimal
