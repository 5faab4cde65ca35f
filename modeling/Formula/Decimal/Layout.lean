import Formula.Decimal.Shortest

/-!
  **Laying out a decimal.**

  A number is `0.d₁d₂… · 10 ^ point`: its digits and the place of the point.  A layout says for
  which places of the point the number is written out in full, and whether a whole number keeps
  one zero after its point.
-/

namespace Formula.Decimal

/-- The choices a format makes about decimals. -/
structure Layout where
  tie : Tie
  /-- Is a number with its point at this place written out in full?  If not, it is written with
      one digit before the point and a power of ten. -/
  positional : Int → Bool
  /-- Does a whole number written in full end in `.0`? -/
  marksWhole : Bool

/-- All digits around the point, with zeros between them where needed. -/
def writePositional (marksWhole : Bool) (digits : List Char) (point : Int) : List Char :=
  if point ≤ 0 then
    '0' :: '.' :: (List.replicate (-point).toNat '0' ++ digits)
  else if point < digits.length then
    digits.take point.toNat ++ '.' :: digits.drop point.toNat
  else
    digits ++ List.replicate (point.toNat - digits.length) '0' ++
      if marksWhole then ['.', '0'] else []

/-- One digit before the point, the others after it, and the power of ten with its sign. -/
def writeScientific (digits : List Char) (point : Int) : List Char :=
  let power := point - 1
  let body :=
    match digits with
    | first :: second :: more => first :: '.' :: second :: more
    | short => short
  body ++ 'e' :: (if power < 0 then '-' else '+') :: Nat.toDigits 10 power.natAbs

/-- The text of a decimal in a layout. -/
def Layout.write (layout : Layout) (d : Scaled) : List Char :=
  let digits := Nat.toDigits 10 d.digits
  let point := digits.length + d.exponent
  if layout.positional point then writePositional layout.marksWhole digits point
  else writeScientific digits point

/-- The text of a finite double in a layout.  The sign is kept, also that of zero. -/
def Layout.ofFloat (layout : Layout) (x : Float) : String :=
  let bits := x.toBits.toNat
  let size := layout.write ((Binary.ofBits bits).shortest layout.tie)
  String.ofList (if 1 <<< 63 ≤ bits then '-' :: size else size)

end Formula.Decimal
