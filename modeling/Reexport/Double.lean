/-!
# Double precision numbers

A non-negative number with 53 significant bits, taken apart into a whole mantissa
and a power of two, so that it can be written out exactly.

`Double.shortest` is the shortest decimal that no other double is nearer to;
`Double.hundredths` rounds to two places.
-/

namespace Reexport

/-- The number `mantissa · 2 ^ exponent`. -/
structure Double where
  mantissa : Nat
  exponent : Int
  deriving DecidableEq, Repr, Inhabited

namespace Double

/-- The least mantissa of a number that is not tiny. -/
def leastMantissa : Nat := 4503599627370496

/-- Zero. -/
def zero : Double := ⟨0, -1074⟩

/-- The double of 64 bits: 52 of the mantissa, 11 of the exponent. -/
def ofBits (bits : Nat) : Double :=
  let fraction := bits % leastMantissa
  let field : Nat := bits / leastMantissa % 2048
  if field = 0 then ⟨fraction, -1074⟩ else ⟨leastMantissa + fraction, (field : Int) - 1075⟩

/-- The parts of a number that is not negative. -/
def ofFloat (x : Float) : Double := ofBits x.toBits.toNat

/-- `n · b ^ e` as a fraction. -/
def fraction (n b : Nat) (e : Int) : Nat × Nat :=
  (n * Nat.pow b e.toNat, Nat.pow b (-e).toNat)

/-! ## Shortest decimals -/

/-- The range in which decimals are nearer to `d` than to its neighbours, in
    quarters of its last bit: below the least mantissa the gap is only half as
    wide. -/
def nearby (d : Double) : Nat × Nat :=
  (4 * d.mantissa - (if d.mantissa = leastMantissa then 1 else 2), 4 * d.mantissa + 2)

/-- A whole number `digits` with `digits · 10 ^ scale` near `d`, the nearest one
    to it. On the edge of the range only an even mantissa counts. -/
def digitsAt? (d : Double) (scale : Int) : Option Nat :=
  let (up, down) := fraction 1 2 (d.exponent - 2)
  let (tenUp, tenDown) := fraction 1 10 scale
  let unit := tenUp * down
  let value := 4 * d.mantissa * up * tenDown
  let low := d.nearby.1 * up * tenDown
  let high := d.nearby.2 * up * tenDown
  let isNear (digits : Nat) : Bool :=
    if d.mantissa % 2 = 0 then low ≤ digits * unit && digits * unit ≤ high
    else low < digits * unit && digits * unit < high
  let below := value / unit
  let above := below + 1
  let gapBelow := value - below * unit
  let gapAbove := above * unit - value
  let preferAbove := gapAbove < gapBelow || (gapAbove = gapBelow && below % 2 = 1)
  let order := if preferAbove then [above, below] else [below, above]
  order.find? fun digits => 0 < digits && isNear digits

/-- Digits and a power of ten, with as few digits as possible. -/
def decimal (d : Double) : Nat × Int :=
  ((List.range 640).findSome? fun (n : Nat) =>
    let scale : Int := 310 - (n : Int)
    (d.digitsAt? scale).map fun digits => (digits, scale)).getD (0, 0)

/-- Zeros. -/
def zeros (n : Nat) : String := String.ofList (List.replicate n '0')

/-- Digits with a point in front of all but the first `n`. -/
def pointAfter (n : Nat) (digits : String) : String :=
  String.ofList (digits.toList.take n) ++ "." ++ String.ofList (digits.toList.drop n)

/-- The number `digits · 10 ^ scale`: written out while that is not too long, and
    otherwise with an exponent. -/
def layout (digits : String) (scale : Int) : String :=
  let point := (digits.length : Int) + scale
  if 0 ≤ scale ∧ point ≤ 16 then digits ++ zeros scale.toNat ++ ".0"
  else if 0 < point ∧ point ≤ 16 then pointAfter point.toNat digits
  else if -5 < point ∧ point ≤ 0 then "0." ++ zeros (-point).toNat ++ digits
  else if digits.length = 1 then digits ++ "e" ++ toString (point - 1)
  else pointAfter 1 digits ++ "e" ++ toString (point - 1)

/-- The shortest decimal that means this double and no other. -/
def shortest (d : Double) : String :=
  if d.mantissa = 0 then "0.0"
  else
    let (digits, scale) := d.decimal
    layout (toString digits) scale

/-! ## Two places -/

/-- The number of hundredths nearest to `d`, the even one of two. -/
def roundHundredths (d : Double) : Nat :=
  let (up, down) := fraction (100 * d.mantissa) 2 d.exponent
  let below := up / down
  let rest := up % down
  if down < 2 * rest ∨ (2 * rest = down ∧ below % 2 = 1) then below + 1 else below

/-- The number with two places. -/
def hundredths (d : Double) : String :=
  let n := d.roundHundredths
  toString (n / 100) ++ "." ++ toString (n / 10 % 10) ++ toString (n % 10)

end Double

end Reexport
