import StateDrivenAgent.Json.Decimal

/-!
# How two languages write a double

Both start from the shortest digits `ds` of the magnitude, which begin and end with a digit other than
zero, and the place `n` of the point behind the first of them: the number is `0.ds * 10 ^ n`. ECMAScript
writes the point for `-6 < n ≤ 21` and leaves it out of a whole number; Python writes it for
`-4 < n ≤ 16`, with a zero behind it in a whole number, and gives an exponent two digits at least.
-/

namespace StateDrivenAgent

namespace Renderings

def zeros (n : Int) : List Char := List.replicate n.toNat '0'

def signed (negative : Bool) (text : List Char) : List Char :=
  (if negative then ['-'] else []) ++ text

/-- The first digit, and a point if there are others. -/
def mantissa : List Char → List Char
  | d :: e :: rest => d :: '.' :: e :: rest
  | ds => ds

/-- The sign of an exponent, which is always written. -/
def exponentSign (e : Int) : Char := if 0 ≤ e then '+' else '-'

end Renderings

open Renderings

/-- `Number::toString` of ECMA-262 for the radix ten, which RFC 8785 prescribes. -/
def Ecma.numberText (negative : Bool) (ds : List Char) (n : Int) : List Char :=
  if ds.length ≤ n ∧ n ≤ 21 then signed negative (ds ++ zeros (n - ds.length))
  else if 0 < n ∧ n ≤ 21 then signed negative (ds.take n.toNat ++ '.' :: ds.drop n.toNat)
  else if -6 < n ∧ n ≤ 0 then signed negative ('0' :: '.' :: (zeros (-n) ++ ds))
  else signed negative (mantissa ds ++ 'e' :: exponentSign (n - 1) ::
    Nat.toDigits 10 (n - 1).natAbs)

/-- `float.__repr__` of CPython, `repr` style of `PyOS_double_to_string`. -/
def Python.reprText (negative : Bool) (ds : List Char) (n : Int) : List Char :=
  if -4 < n ∧ n ≤ 16 then
    if ds.length ≤ n then signed negative (ds ++ zeros (n - ds.length) ++ ['.', '0'])
    else if 0 < n then signed negative (ds.take n.toNat ++ '.' :: ds.drop n.toNat)
    else signed negative ('0' :: '.' :: (zeros (-n) ++ ds))
  else
    let e := Nat.toDigits 10 (n - 1).natAbs
    signed negative (mantissa ds ++ 'e' :: exponentSign (n - 1) ::
      (zeros (2 - e.length) ++ e))

end StateDrivenAgent
