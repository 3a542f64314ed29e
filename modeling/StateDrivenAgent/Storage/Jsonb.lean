import StateDrivenAgent.Identity
import StateDrivenAgent.Json.Decimal
import StateDrivenAgent.Json.Spelling

/-!
# `JSONB` columns on spelled documents

PostgreSQL keeps a number of a `JSONB` column as a `numeric` and prints it with all its digits,
without an exponent and without the sign of a zero. A document with U+0000 in a string is refused.
The order of properties is not modelled: every reader of a column reads an object into a map.
-/

namespace StateDrivenAgent

open Decimal

/-- The text of a number once it is a `numeric`: the digits of the token, the point shifted by the
exponent. -/
def numericText (token : List Char) : List Char :=
  let unsigned := token.dropWhile (· = '-')
  let mantissa := unsigned.takeWhile notExponent
  let fraction := (mantissa.dropWhile (· ≠ '.')).drop 1
  let exp := readExponent ((unsigned.dropWhile notExponent).drop 1)
  let ds := (mantissa.takeWhile (· ≠ '.') ++ fraction).dropWhile (· = '0')
  let scale : Int := fraction.length - exp
  if ds = [] then
    '0' :: (if 0 < scale then '.' :: List.replicate scale.toNat '0' else [])
  else
    (if token.head? = some '-' then ['-'] else []) ++ Text.placePoint ds (ds.length - scale) []

namespace Spelling

mutual

/-- The document with another token in the place of each. -/
def mapTokens (g : List Char → List Char) : Spelling → Spelling
  | num token => num (g token)
  | arr items => arr (mapItems g items)
  | obj fields => obj (mapFields g fields)
  | x => x

def mapItems (g : List Char → List Char) : List Spelling → List Spelling
  | [] => []
  | x :: xs => x.mapTokens g :: mapItems g xs

def mapFields (g : List Char → List Char) : List (String × Spelling) → List (String × Spelling)
  | [] => []
  | (k, x) :: xs => (k, x.mapTokens g) :: mapFields g xs

end

mutual

/-- A string or the name of a property holds U+0000. -/
def hasNul : Spelling → Bool
  | str s => s.toList.contains '\x00'
  | arr items => hasNulItems items
  | obj fields => hasNulFields fields
  | _ => false

def hasNulItems : List Spelling → Bool
  | [] => false
  | x :: xs => x.hasNul || hasNulItems xs

def hasNulFields : List (String × Spelling) → Bool
  | [] => false
  | (k, x) :: xs => k.toList.contains '\x00' || x.hasNul || hasNulFields xs

end

/-- What a `JSONB` column returns of a document; `none` if it refuses it. -/
def stored (x : Spelling) : Option Spelling :=
  if x.hasNul then none else some (x.mapTokens numericText)

end Spelling

end StateDrivenAgent
