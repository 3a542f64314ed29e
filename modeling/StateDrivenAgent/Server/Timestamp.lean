import Mathlib.Data.Nat.Digits.Defs

/-!
# Timestamps of transcript rows

`transcript_timestamp` of `main.rs`: the date of a day counted from the epoch, with integer divisions
only, and the time of day.
-/

namespace StateDrivenAgent

namespace Text

/-- A formatted number, `{:0width}`: zeros after the sign, up to the width. -/
def zeroPadded (width : Nat) (n : Int) : String :=
  let sign := if n < 0 then ['-'] else []
  let digits := Nat.toDigits 10 n.natAbs
  .ofList (sign ++ List.replicate (width - (sign.length + digits.length)) '0' ++ digits)

end Text

open Text

namespace Server

/-- `transcript_timestamp`, with the clock at `seconds` since the epoch. -/
def transcriptTimestamp (seconds : Nat) : String :=
  let days : Int := (seconds / 86400 : Nat)
  let z := days + 719468
  let era := (if 0 ≤ z then z else z - 146096).tdiv 146097
  let doe := z - era * 146097
  let yoe := (doe - doe.tdiv 1460 + doe.tdiv 36524 - doe.tdiv 146096).tdiv 365
  let year := yoe + era * 400
  let doy := doe - (365 * yoe + yoe.tdiv 4 - yoe.tdiv 100)
  let mp := (5 * doy + 2).tdiv 153
  let day := doy - (153 * mp + 2).tdiv 5 + 1
  let month := mp + if mp < 10 then 3 else -9
  let year := year + if month ≤ 2 then 1 else 0
  let rem := seconds % 86400
  zeroPadded 4 year ++ "-" ++ zeroPadded 2 month ++ "-" ++ zeroPadded 2 day ++ "T" ++
    zeroPadded 2 (rem / 3600 : Nat) ++ ":" ++ zeroPadded 2 (rem % 3600 / 60 : Nat) ++ ":" ++
    zeroPadded 2 (rem % 60 : Nat) ++ "Z"

end Server

end StateDrivenAgent
