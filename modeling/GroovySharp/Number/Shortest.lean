/-!
# Shortest decimals of binary numbers

A number `mantissa * 2 ^ exponent` is written with the fewest decimal digits that still lie closer to
it than to any other number of 53 bits; of several such decimals the nearest is taken, and of two equally near
ones the even.
-/

namespace GroovySharp.Number

/-- A number that 53 bits can hold. -/
structure Binary where
  mantissa : Nat
  exponent : Int
  deriving Repr, DecidableEq

structure Ratio where
  num : Nat
  den : Nat
  deriving Repr, DecidableEq

namespace Ratio

def lt (a b : Ratio) : Bool := decide (a.num * b.den < b.num * a.den)

def le (a b : Ratio) : Bool := decide (a.num * b.den ≤ b.num * a.den)

def twoPow (n : Nat) (e : Int) : Ratio :=
  if 0 ≤ e then ⟨n <<< e.toNat, 1⟩ else ⟨n, 1 <<< (-e).toNat⟩

def tenPow (n : Nat) (e : Int) : Ratio :=
  if 0 ≤ e then ⟨n * Nat.pow 10 e.toNat, 1⟩ else ⟨n, Nat.pow 10 (-e).toNat⟩

def floorTenPow (a : Ratio) (e : Int) : Nat :=
  if 0 ≤ e then a.num / (a.den * Nat.pow 10 e.toNat) else a.num * Nat.pow 10 (-e).toNat / a.den

def distance (a b : Ratio) : Ratio :=
  if a.le b then ⟨b.num * a.den - a.num * b.den, a.den * b.den⟩
  else ⟨a.num * b.den - b.num * a.den, a.den * b.den⟩

end Ratio

namespace Binary

def ratio (x : Binary) : Ratio := .twoPow x.mantissa x.exponent

def minExponent : Int := -1074

/-- The end of the interval of reals below the number that round to it. The next number below a power
of two is only half as far away. -/
def lower (x : Binary) : Ratio :=
  if x.mantissa = 1 <<< 52 ∧ minExponent < x.exponent then .twoPow (4 * x.mantissa - 1) (x.exponent - 2)
  else .twoPow (4 * x.mantissa - 2) (x.exponent - 2)

def upper (x : Binary) : Ratio := .twoPow (4 * x.mantissa + 2) (x.exponent - 2)

def readsBack (x : Binary) (d : Ratio) : Bool :=
  if x.mantissa % 2 = 0 then x.lower.le d && d.le x.upper else x.lower.lt d && d.lt x.upper

def leadingPlace (x : Binary) : Nat → Int → Int
  | 0, k => k
  | n + 1, k => if (Ratio.tenPow 1 (k - 1)).le x.ratio then k else leadingPlace x n (k - 1)

def magnitude (x : Binary) : Int := x.leadingPlace 700 310

/-- The decimal with digits down to the place `e` that is nearest to the number, if one rounds to it; of
two the even one. -/
def nearest? (x : Binary) (e : Int) : Option Nat :=
  let q := x.ratio.floorTenPow e
  let down := Ratio.tenPow q e
  let up := Ratio.tenPow (q + 1) e
  let downFits := decide (0 < q) && x.readsBack down
  let upFits := x.readsBack up
  if downFits && upFits then
    let toUp := x.ratio.distance up
    let toDown := x.ratio.distance down
    if toUp.lt toDown || (toUp.le toDown && q % 2 == 1) then some (q + 1) else some q
  else if downFits then some q
  else if upFits then some (q + 1)
  else none

/-- The shortest decimal of at most `n` digits more than those tried: a number and a place. -/
def search (x : Binary) : Nat → Int → Nat × Int
  | 0, e => (x.ratio.floorTenPow e, e)
  | n + 1, e =>
    match x.nearest? e with
    | some q => (q, e)
    | none => search x n (e - 1)

def shortest (x : Binary) : List Char × Int :=
  let k := x.magnitude
  let (q, e) := x.search 17 (k - 1)
  let digits := Nat.toDigits 10 q
  ((digits.reverse.dropWhile (· == '0')).reverse, digits.length + e)

end Binary

end GroovySharp.Number
