/-!
# Numbers of double precision in settings

Floating-point numbers of double precision as settings show them: read from a decimal with rounding
to the nearest, ties to even, and written with the fewest digits that read back, without an
exponent.

* `Double.ofDecimal`  the nearest number to a decimal;
* `Double.shortest`  the fewest digits that read back;
* `Double.render`  the text of a number.
-/

namespace ParamThreading

/-- A number of double precision. A finite one is `mantissa * 2 ^ exponent`, with the sign apart. -/
inductive Double where
  | nan
  | infinite (negative : Bool)
  | finite (negative : Bool) (mantissa : Nat) (exponent : Int)
deriving DecidableEq, Repr, Inhabited

namespace Double

/-- A quotient rounded to the nearest, a tie to the even neighbour. -/
def roundDiv (num den : Nat) : Nat :=
  let q := num / den
  let r := num % den
  if 2 * r < den then q
  else if den < 2 * r then q + 1
  else if q % 2 = 0 then q else q + 1

/-- A power that may be a fraction, as numerator and denominator. -/
def power (base : Nat) (exponent : Int) : Nat × Nat :=
  if 0 ≤ exponent then (base.pow exponent.toNat, 1) else (1, base.pow (-exponent).toNat)

/-- The exponent at which a fraction has a mantissa of 53 bits, or the least exponent there is. -/
def exponentOf (num den : Nat) : Int :=
  let guess : Int := (num.log2 : Int) - (den.log2 : Int) - 52
  let (up, down) := power 2 guess
  let exponent := if num * down < Nat.pow 2 52 * (den * up) then guess - 1 else guess
  max exponent (-1074)

def ofFraction (negative : Bool) (num den : Nat) : Double :=
  if num = 0 then finite negative 0 0
  else
    let exponent := exponentOf num den
    let (up, down) := power 2 exponent
    let mantissa := roundDiv (num * down) (den * up)
    let (mantissa, exponent) :=
      if mantissa = Nat.pow 2 53 then (Nat.pow 2 52, exponent + 1) else (mantissa, exponent)
    if 971 < exponent then infinite negative else finite negative mantissa exponent

def ofDecimal (negative : Bool) (digits : Nat) (exponent : Int) : Double :=
  if exponent < -2000 then finite negative 0 0
  else if 2000 < exponent then (if digits = 0 then finite negative 0 0 else infinite negative)
  else
    let (up, down) := power 10 exponent
    ofFraction negative (digits * up) down

/-- The decimals with a given last place on either side of a fraction that read back as the number,
the nearer one first. -/
def candidates (num den mantissa : Nat) (exponent place : Int) : List Nat :=
  let (up, down) := power 10 place
  let scaled := num * down
  let unit := den * up
  let low := scaled / unit
  let nearer := if 2 * (scaled % unit) ≤ unit then [low, low + 1] else [low + 1, low]
  nearer.filter fun n => ofDecimal false n place == finite false mantissa exponent

/-- The first decimal that reads back, with fewer and fewer places left out. -/
def search (num den mantissa : Nat) (exponent : Int) : Nat → Int → Nat × Int
  | 0, place => (0, place)
  | n + 1, place =>
    match candidates num den mantissa exponent place with
    | d :: _ => (d, place)
    | [] => search num den mantissa exponent n (place - 1)

/-- The fewest digits that read back as a finite number, and the power of ten of the last one. -/
def shortest (mantissa : Nat) (exponent : Int) : Nat × Int :=
  if mantissa = 0 then (0, 0)
  else
    let (up, down) := power 2 exponent
    let num := mantissa * up
    let top : Int := if down ≤ num then ((num / down).log2 : Int) * 30103 / 100000 + 1
      else -(((down / num).log2 : Int) * 30103 / 100000)
    search num down mantissa exponent 400 top

/-- Digits with a point before the last `-place` of them, or zeros after them. -/
def positional (digits : Nat) (place : Int) : String :=
  let shown := Nat.toDigits 10 digits
  if 0 ≤ place then String.ofList (shown ++ List.replicate place.toNat '0')
  else
    let places := (-place).toNat
    let padded := List.replicate (places + 1 - shown.length) '0' ++ shown
    let whole := padded.take (padded.length - places)
    String.ofList (whole ++ '.' :: padded.drop (padded.length - places))

/-- Without the zeros at the end of the digits after the point. -/
def normalized : Nat → Nat → Int → Nat × Int
  | 0, digits, place => (digits, place)
  | n + 1, digits, place =>
    if place < 0 && digits % 10 = 0 && digits != 0 then normalized n (digits / 10) (place + 1)
    else (digits, place)

def sign (negative : Bool) : String :=
  if negative then "-" else ""

def render : Double → String
  | nan => "NaN"
  | infinite negative => sign negative ++ "inf"
  | finite negative mantissa exponent =>
    let (digits, place) := shortest mantissa exponent
    let (digits, place) := normalized 400 digits place
    sign negative ++ positional digits place

def isZero : Double → Bool
  | finite _ mantissa _ => mantissa == 0
  | _ => false

end Double

end ParamThreading
