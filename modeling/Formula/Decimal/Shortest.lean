/-!
  **The shortest decimal that reads back.**

  A finite binary number `significand · 2 ^ exponent` is the reading of every real between the
  midpoints to its two neighbours.  Among the decimals in that range the shortest is written, and
  of several shortest ones the nearest.  The search runs over decimal grids `10 ^ k` from coarse to
  fine: a grid has a point in the range only if one of the two grid points next to the value is in
  it, so two tests a grid suffice, all in exact arithmetic.
-/

namespace Formula.Decimal

/-- What is done when two shortest decimals are equally near. -/
inductive Tie where
  /-- The one with an even last digit. -/
  | toEven
  /-- The larger one. -/
  | up
deriving DecidableEq, Repr

/-- The size of a finite binary number: `significand · 2 ^ exponent`. -/
structure Binary where
  significand : Nat
  exponent : Int
  /-- The next smaller number is only half as far away as the next larger one. -/
  closerBelow : Bool
deriving DecidableEq, Repr

/-- The size of a finite double, from its bits. -/
def Binary.ofBits (bits : Nat) : Binary :=
  let scale : Nat := (bits >>> 52) % 2048
  let fraction : Nat := bits % (1 <<< 52)
  if scale = 0 then ⟨fraction, -1074, false⟩
  else ⟨(1 <<< 52) + fraction, (scale : Int) - 1075, fraction == 0 && scale != 1⟩

/-- A decimal number `digits · 10 ^ exponent`. -/
structure Scaled where
  digits : Nat
  exponent : Int
deriving DecidableEq, Repr

/-- The value and the two ends of the reals read as it, all in units of `1 / unit` of a decimal
    grid.  The ends themselves belong to the range when the significand is even. -/
structure Range where
  unit : Nat
  value : Nat
  low : Nat
  high : Nat
  closed : Bool
deriving DecidableEq, Repr

/-- The range of a number on the grid `10 ^ k`. -/
def Binary.range (b : Binary) (k : Int) : Range :=
  let factor := Nat.pow 2 (b.exponent - 2).toNat * Nat.pow 10 (-k).toNat
  { unit := Nat.pow 2 (2 - b.exponent).toNat * Nat.pow 10 k.toNat
    value := 4 * b.significand * factor
    low := (4 * b.significand - if b.closerBelow then 1 else 2) * factor
    high := (4 * b.significand + 2) * factor
    closed := b.significand % 2 == 0 }

/-- Is the `n`-th grid point read as the value? -/
def Range.contains (r : Range) (n : Nat) : Bool :=
  let place := n * r.unit
  if r.closed then r.low ≤ place && place ≤ r.high else r.low < place && place < r.high

/-- The nearer of the two grid points around the value that is read as the value, if any. -/
def Range.nearest? (r : Range) (tie : Tie) : Option Nat :=
  let below := r.value / r.unit
  match below != 0 && r.contains below, r.contains (below + 1) with
  | false, false => none
  | true, false => some below
  | false, true => some (below + 1)
  | true, true =>
    let middle := (2 * below + 1) * r.unit
    if 2 * r.value < middle then some below
    else if middle < 2 * r.value then some (below + 1)
    else match tie with
      | .up => some (below + 1)
      | .toEven => some (if below % 2 = 0 then below else below + 1)

/-- The first grid from `10 ^ k` downwards with a point that is read as the number. -/
def Binary.search (b : Binary) (tie : Tie) (k : Int) : Nat → Scaled
  | 0 => ⟨0, 0⟩
  | fuel + 1 =>
    match (b.range k).nearest? tie with
    | some n => ⟨n, k⟩
    | none => b.search tie (k - 1) fuel

/-- The shortest decimal read as the number.  No double reaches `10 ^ 309`, and the finest grid
    that one needs is `10 ^ -324`. -/
def Binary.shortest (b : Binary) (tie : Tie) : Scaled :=
  if b.significand = 0 then ⟨0, 0⟩ else b.search tie 309 640

end Formula.Decimal
