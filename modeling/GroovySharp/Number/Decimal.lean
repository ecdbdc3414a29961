import GroovySharp.Text.Numeral

/-!
# Reading decimals

The number of a decimal text: digits with a point and a power of ten, single underscores between digits,
or a word for infinity or for no number.
-/

namespace GroovySharp.Number

def exponentBound : Int := 400

def ofDigits (negative : Bool) (digits : Chars) (exponent : Int) : Float :=
  let mantissa := Text.digitsValue digits
  let top := exponent + digits.length
  let size :=
    if mantissa = 0 ∨ top < -exponentBound then 0.0
    else if exponentBound < top then 1.0 / 0.0
    else Float.ofScientific mantissa (decide (exponent < 0)) exponent.natAbs
  if negative then -size else size

def digitsOf (cs : Chars) : Chars := cs.takeWhile Char.isDigit

/-- An exponent: its sign and digits after the letter, and nothing else. -/
def exponent? : Chars → Option Int
  | [] => some 0
  | e :: rest =>
    let (negative, digits) := Text.takeSign rest
    if (e == 'e' || e == 'E') && !digits.isEmpty && digits.all Char.isDigit then
      let n : Int := Text.digitsValue digits
      some (if negative then -n else n)
    else none

def underscoresSplitDigits : Chars → Bool
  | '_' :: _ => false
  | cs => fits cs
where
  fits : Chars → Bool
    | [] => true
    | a :: '_' :: b :: rest => a.isDigit && b.isDigit && fits (b :: rest)
    | [_, '_'] => false
    | _ :: rest => fits rest

def word? (cs : Chars) : Option Float :=
  let word := String.ofList (cs.map Char.toLower)
  if word = "inf" ∨ word = "infinity" then some (1.0 / 0.0)
  else if word = "nan" then some (0.0 / 0.0)
  else none

def unsigned? (negative : Bool) (cs : Chars) : Option Float :=
  let whole := digitsOf cs
  let rest := cs.drop whole.length
  let (fraction, rest) := match rest with
    | '.' :: rest => (digitsOf rest, rest.drop (digitsOf rest).length)
    | rest => ([], rest)
  if whole.isEmpty && fraction.isEmpty then none
  else (exponent? rest).map fun e => ofDigits negative (whole ++ fraction) (e - fraction.length)

def read? (text : Chars) : Option Float :=
  let cs := (text.map Text.numeralChar).dropWhile Text.isNumeralBlank
  let cs := (cs.reverse.dropWhile Text.isNumeralBlank).reverse
  let (negative, body) := Text.takeSign cs
  match word? body with
  | some x => some (if negative then -x else x)
  | none =>
    if underscoresSplitDigits body then unsigned? negative (body.filter (· != '_')) else none

end GroovySharp.Number
