import StateDrivenAgent.Json.Decimal

/-!
# Decimals as they may be written

A decimal text in general: with or without a sign, a point and an exponent, with any number of zeros
at either end. Unlike the numerals of JSON many texts stand for one number; `Written.value` is the
number, and `Written.Fits` says that the exponents met on the way from the text to its shortest form
stay within integers of some number of bits.
-/

namespace Decimal

inductive Sign where
  | absent
  | plus
  | minus
deriving DecidableEq, Repr

namespace Sign

def text : Sign → List Char
  | absent => []
  | plus => ['+']
  | minus => ['-']

def apply {α : Type} [Neg α] (s : Sign) (x : α) : α :=
  match s with
  | minus => -x
  | _ => x

end Sign

structure Written where
  sign : Sign
  whole : List Char
  /-- The digits behind the point, if there is a point. -/
  fraction : Option (List Char)
  /-- Whether the mark is a capital letter, the sign and the digits of the exponent. -/
  exponent : Option (Bool × Sign × List Char)
  whole_ne : whole ≠ []
  whole_digits : AllDigits whole
  fraction_digits : ∀ ds, fraction = some ds → AllDigits ds
  exponent_digits : ∀ upper s ds, exponent = some (upper, s, ds) → ds ≠ [] ∧ AllDigits ds

namespace Written

variable (w : Written)

def pointText : List Char :=
  match w.fraction with
  | none => []
  | some ds => '.' :: ds

def exponentText : List Char :=
  match w.exponent with
  | none => []
  | some (upper, s, ds) => (if upper then 'E' else 'e') :: (s.text ++ ds)

def text : String := .ofList (w.sign.text ++ (w.whole ++ (w.pointText ++ w.exponentText)))

def fractionDigits : List Char := w.fraction.getD []

/-- The digits on both sides of the point. -/
def allDigits : List Char := w.whole ++ w.fractionDigits

/-- The exponent as it is written. -/
def exp : Int :=
  match w.exponent with
  | none => 0
  | some (_, s, ds) => s.apply (digits ds : Int)

/-- The power of ten of the last digit. -/
def unit : Int := w.exp - w.fractionDigits.length

def value : Rat := w.sign.apply (digits w.allDigits * (10 : Rat) ^ w.unit)

/-- The zeros at the end, which go into the exponent. -/
def zeros : Nat := (w.allDigits.reverse.takeWhile (· = '0')).length

/-- The exponent as it is written, the number of the digits behind the point, and the exponent when
the point and the zeros at the end are taken into it are integers of so many bits. -/
structure Fits (bits : Nat) : Prop where
  exponent : -2 ^ (bits - 1) ≤ w.exp ∧ w.exp < 2 ^ (bits - 1)
  count : (w.fractionDigits.length : Int) < 2 ^ (bits - 1)
  power : w.value ≠ 0 → -2 ^ (bits - 1) ≤ w.unit ∧ w.unit + w.zeros < 2 ^ (bits - 1)

end Written

end Decimal
