/-!
# Numbers in decimal, and doubles as text

All on natural numbers, so every answer is exact, except for the quick reading of a numeral as a
double, which may be off by a little from the nearest one.

* `roundDiv num den tie`   the quotient rounded to nearest;
* `leadingPlace num den`   the power of ten of the quotient's first digit;
* `Numeral`, `Numeral.text`   a number as it is written, and its characters;
* `Numeral.toInt?`         the integer of a numeral without point and exponent; minus zero is none;
* `Binary64`               what a double stands for, read off its sixty-four bits;
* `shortest`               the fewest digits that read back as a double;
* `FloatStyle.plain`       never an exponent, whole numbers without a point: for people;
* `FloatStyle.compact`     at most sixteen digits before the point and four zeros after it, whole
                           numbers with `.0`: for data that is read back;
* `scientific places x`    one digit, `places` more after the point, and an exponent without a plus;
* `Numeral.toFloat?`       the double for a numeral.
-/

namespace BlockProof.Decimal

/-! ## rounding -/

/-- which neighbour is taken when both are equally near -/
inductive Tie where
  | toEven
  | upwards
deriving DecidableEq

/-- whether a value between `n` and `n + 1` goes up, given how its distance to `n` compares with its
distance to `n + 1` -/
def Tie.roundsUp (tie : Tie) (n : Nat) : Ordering → Bool
  | .lt => false
  | .gt => true
  | .eq => tie = .upwards ∨ n % 2 = 1

/-- the quotient `num / den` rounded to nearest, for a positive `den` -/
def roundDiv (num den : Nat) (tie : Tie) : Nat :=
  let n := num / den
  if tie.roundsUp n (compare (2 * (num % den)) den) then n + 1 else n

def tenPower (n : Nat) : Nat := Nat.pow 10 n

def decimalLength (n : Nat) : Nat := (Nat.toDigits 10 n).length

/-- the `e` with `10 ^ e ≤ num / den < 10 ^ (e + 1)`, for positive numbers -/
def leadingPlace (num den : Nat) : Int :=
  if den ≤ num then (decimalLength (num / den) : Int) - 1
  else -(decimalLength ((den + num - 1) / num - 1) : Int)

/-! ## numerals -/

structure Numeral where
  negative : Bool
  whole : Nat
  fraction : List Nat
  exponent : Option Int
deriving DecidableEq

def digits (n : Nat) : List Char := Nat.toDigits 10 n

def integer (n : Int) : List Char :=
  if n < 0 then '-' :: digits n.natAbs else digits n.natAbs

/-- whether an exponent that is not negative gets a plus -/
inductive ExponentSign where
  | plus
  | bare
deriving DecidableEq

def ExponentSign.exponent (sign : ExponentSign) (e : Int) : List Char :=
  if 0 ≤ e ∧ sign = .plus then 'e' :: '+' :: integer e else 'e' :: integer e

/-- the last `n` digits of `c`, the most significant first -/
def lowDigits : Nat → Nat → List Nat
  | 0, _ => []
  | n + 1, c => lowDigits n (c / 10) ++ [c % 10]

namespace Numeral

def ofNat (n : Nat) : Numeral := ⟨false, n, [], none⟩

def ofInt (n : Int) : Numeral := ⟨decide (n < 0), n.natAbs, [], none⟩

/-- the digits of `c` with a point before the last `places` of them -/
def pointed (negative : Bool) (places c : Nat) (exponent : Option Int) : Numeral :=
  ⟨negative, c / tenPower places, lowDigits places c, exponent⟩

def text (expSign : ExponentSign) (n : Numeral) : List Char :=
  let sign := if n.negative then ['-'] else []
  let fraction := if n.fraction.isEmpty then [] else '.' :: n.fraction.map Nat.digitChar
  let exponent := match n.exponent with
    | none => []
    | some e => expSign.exponent e
  sign ++ digits n.whole ++ fraction ++ exponent

/-- the integer that a numeral without point and exponent stands for; there is no integer minus
zero -/
def toInt? (n : Numeral) : Option Int :=
  if n.fraction.isEmpty ∧ n.exponent = none ∧ ¬ (n.negative ∧ n.whole = 0) then
    some (if n.negative then -(n.whole : Int) else n.whole)
  else none

theorem toInt?_ofInt (n : Int) : (ofInt n).toInt? = some n := by
  unfold toInt? ofInt
  by_cases h : n < 0
  · have hne : n.natAbs ≠ 0 := by omega
    have habs : -(n.natAbs : Int) = n := by omega
    rw [if_pos ⟨rfl, rfl, fun hz => hne hz.2⟩, if_pos (decide_eq_true h)]
    exact congrArg some habs
  · have habs : (n.natAbs : Int) = n := by omega
    rw [if_pos ⟨rfl, rfl, fun hz => h (of_decide_eq_true hz.1)⟩, if_neg (by simpa using h)]
    exact congrArg some habs

theorem toInt?_ofNat (n : Nat) : (ofNat n).toInt? = some (n : Int) := by
  simp [toInt?, ofNat]

end Numeral

/-! ## the numbers that doubles stand for -/

inductive Binary64 where
  | nan
  | infinite (negative : Bool)
  | finite (negative : Bool) (mantissa : Nat) (exponent : Int)
deriving DecidableEq

namespace Binary64

def minExponent : Int := -1074

/-- the leading bit of a mantissa, which is not written where the exponent is not the smallest -/
def implicitBit : Nat := 1 <<< 52

/-- the parts of a number given by its bits: a sign, eleven bits of exponent, fifty-two of
fraction -/
def ofBits (bits : Nat) : Binary64 :=
  let negative := bits.testBit 63
  let biased : Nat := bits >>> 52 % 2048
  let fraction := bits % implicitBit
  if biased = 2047 then (if fraction = 0 then infinite negative else nan)
  else if biased = 0 then finite negative fraction minExponent
  else finite negative (implicitBit + fraction) ((biased : Int) - 1 + minExponent)

def ofFloat (x : Float) : Binary64 := ofBits x.toBits.toNat

/-- the upper part of `mantissa * 2 ^ exponent` as a fraction -/
def numerator (mantissa : Nat) (exponent : Int) : Nat := mantissa <<< exponent.toNat

def denominator (exponent : Int) : Nat := 1 <<< (-exponent).toNat

end Binary64

/-! ## the fewest digits that read back

The reals that round to a double form an interval around it: half a gap up, and half a gap down,
or a quarter where the gap below is the narrow one. The ends belong to it when the mantissa is even.
On each grid of decimals, from one digit on, the two neighbours of the double are tried; the first
grid with a neighbour in the interval wins, and of two such neighbours the nearer. -/

/-- the number `coefficient * 10 ^ exponent` -/
structure Scaled where
  coefficient : Nat
  exponent : Int
deriving DecidableEq

/-- moves zeros at the end of the coefficient into the exponent; `fuel` bounds their number -/
def Scaled.trim : Nat → Scaled → Scaled
  | 0, d => d
  | fuel + 1, d =>
    if d.coefficient ≠ 0 ∧ d.coefficient % 10 = 0 then
      trim fuel ⟨d.coefficient / 10, d.exponent + 1⟩
    else d

/-- whether `c` times the grid lies among the reals that round to `mantissa`; a quarter of a unit of
the mantissa is `num / den` times the grid -/
def readsBack (mantissa : Nat) (narrowBelow : Bool) (num den c : Nat) : Bool :=
  let low := (4 * mantissa - (if narrowBelow then 1 else 2)) * num
  let high := (4 * mantissa + 2) * num
  if mantissa % 2 = 0 then low ≤ c * den ∧ c * den ≤ high
  else low < c * den ∧ c * den < high

/-- a neighbour of the double on the grid `10 ^ place` that reads back -/
def neighbour? (mantissa : Nat) (exponent : Int) (tie : Tie) (place : Int) : Option Scaled :=
  let narrowBelow := decide (mantissa = Binary64.implicitBit ∧ Binary64.minExponent < exponent)
  let num := Binary64.numerator 1 exponent * tenPower (-place).toNat
  let den := 4 * Binary64.denominator exponent * tenPower place.toNat
  let below := 4 * mantissa * num / den
  let nearest := roundDiv (4 * mantissa * num) den tie
  let candidates := [nearest, below, below + 1]
  (candidates.find? (readsBack mantissa narrowBelow num den)).map fun c => ⟨c, place⟩

/-- the shortest decimal that reads back as the double `mantissa * 2 ^ exponent`, which is not
zero; seventeen digits always do -/
def shortest (mantissa : Nat) (exponent : Int) (tie : Tie) : Scaled :=
  let first := leadingPlace (Binary64.numerator mantissa exponent) (Binary64.denominator exponent)
  let found := (List.range 17).findSome? fun (i : Nat) =>
    neighbour? mantissa exponent tie (first - (i : Int))
  (found.getD ⟨0, 0⟩).trim 400

/-! ## doubles as text -/

/-- the decisions of a written form with the fewest digits; `point` counts the digits before the
point -/
structure FloatStyle where
  positional (point : Int) : Bool
  wholeFraction : List Nat
  tie : Tie

/-- digits around a point however many it takes, halves upwards, no point in whole numbers -/
def FloatStyle.plain : FloatStyle := ⟨fun _ => true, [], .upwards⟩

/-- digits around a point if that point is near, halves to even, and always a point or exponent -/
def FloatStyle.compact : FloatStyle := ⟨fun point => -5 < point ∧ point ≤ 16, [0], .toEven⟩

def Scaled.withExponent (negative : Bool) (d : Scaled) : Numeral :=
  let places := decimalLength d.coefficient - 1
  Numeral.pointed negative places d.coefficient (some (d.exponent + places))

def Scaled.positional (wholeFraction : List Nat) (negative : Bool) (d : Scaled) : Numeral :=
  if d.exponent < 0 then Numeral.pointed negative d.exponent.natAbs d.coefficient none
  else ⟨negative, d.coefficient * tenPower d.exponent.toNat, wholeFraction, none⟩

def FloatStyle.numeral (style : FloatStyle) (negative : Bool) (mantissa : Nat) (exponent : Int) :
    Numeral :=
  if mantissa = 0 then ⟨negative, 0, style.wholeFraction, none⟩
  else
    let d := shortest mantissa exponent style.tie
    if style.positional (decimalLength d.coefficient + d.exponent) then
      d.positional style.wholeFraction negative
    else d.withExponent negative

def writeFloat (numeral : Bool → Nat → Int → Numeral) (x : Float) : String :=
  match Binary64.ofFloat x with
  | .nan => "NaN"
  | .infinite negative => if negative then "-inf" else "inf"
  | .finite negative m e => String.ofList ((numeral negative m e).text .bare)

def FloatStyle.write (style : FloatStyle) (x : Float) : String := writeFloat style.numeral x

/-- the numeral with one digit and `places` more after the point, its exact value rounded with
halves to even -/
def scientificNumeral (places : Nat) (negative : Bool) (mantissa : Nat) (exponent : Int) :
    Numeral :=
  if mantissa = 0 then Numeral.pointed negative places 0 (some 0)
  else
    let num := Binary64.numerator mantissa exponent
    let den := Binary64.denominator exponent
    let place := leadingPlace num den
    let shift := (places : Int) - place
    let c := roundDiv (num * tenPower shift.toNat) (den * tenPower (-shift).toNat) .toEven
    if c = tenPower (places + 1) then
      Numeral.pointed negative places (tenPower places) (some (place + 1))
    else Numeral.pointed negative places c (some place)

def scientific (places : Nat) (x : Float) : String := writeFloat (scientificNumeral places) x

/-! ## numerals as doubles

The digits are gathered into a whole number as long as it fits into eight bytes. Digits of the whole
part that no longer fit raise the exponent, digits after the point that no longer fit are dropped.
The number is then multiplied or divided by one power of ten, in steps of `10 ^ 308` if that power
is too small for a double, and refused if it is infinite. -/

def maxSignificand : Nat := UInt64.size - 1

/-- the longest run of first digits that fits, and how many digits come after it -/
def fitWhole (n : Nat) : Nat × Nat :=
  if n ≤ maxSignificand then (n, 0)
  else
    let (m, dropped) := fitWhole (n / 10)
    (m, dropped + 1)
termination_by n
decreasing_by
  simp only [maxSignificand, UInt64.size] at *
  omega

def fitFraction (m taken : Nat) : List Nat → Nat × Nat
  | [] => (m, taken)
  | d :: ds =>
    if m * 10 + d ≤ maxSignificand then fitFraction (m * 10 + d) (taken + 1) ds else (m, taken)

/-- the gathered digits of a numeral and the power of ten to scale them by -/
def gather (n : Numeral) : Nat × Int :=
  let (m, dropped) := fitWhole n.whole
  let (m, taken) := fitFraction m 0 n.fraction
  (m, (dropped : Int) - taken + n.exponent.getD 0)

def powerOfTen (n : Nat) : Float := Float.ofScientific 1 false n

def scaleDown (f : Float) (n : Nat) : Float :=
  if n ≤ 308 then f / powerOfTen n
  else if f == 0 then f
  else scaleDown (f / powerOfTen 308) (n - 308)
termination_by n

def scale (f : Float) (e : Int) : Option Float :=
  if e < 0 then some (scaleDown f e.natAbs)
  else if 308 < e then (if f == 0 then some f else none)
  else
    let r := f * powerOfTen e.toNat
    if r.isInf then none else some r

def Numeral.toFloat? (n : Numeral) : Option Float :=
  let (m, e) := gather n
  (scale (UInt64.ofNat m).toFloat e).map fun f => if n.negative then -f else f

end BlockProof.Decimal
