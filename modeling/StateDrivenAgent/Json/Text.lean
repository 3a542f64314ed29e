import Mathlib.Algebra.Ring.Int.Defs
import Mathlib.Data.List.Basic
import Mathlib.Data.List.Lex
import Mathlib.Data.String.Basic

/-!
# String operations of the Rust standard library

The operations on `str` the agent uses, on lists of characters. `isWhitespace` is the Unicode
`White_Space` property, as `char::is_whitespace`.
-/

namespace StateDrivenAgent.Text

/-- `char::is_whitespace`. -/
def isWhitespace (c : Char) : Bool :=
  let n := c.toNat
  (9 ≤ n && n ≤ 13) || n == 0x20 || n == 0x85 || n == 0xa0 || n == 0x1680 ||
    (0x2000 ≤ n && n ≤ 0x200a) || n == 0x2028 || n == 0x2029 || n == 0x202f || n == 0x205f ||
    n == 0x3000

def isAsciiDigit (c : Char) : Bool := '0' ≤ c && c ≤ '9'

/-- `str::trim`. -/
def trim (s : String) : String :=
  .ofList ((s.toList.dropWhile isWhitespace).reverse.dropWhile isWhitespace).reverse

/-- `str::trim_start`. -/
def trimStart (s : String) : String := .ofList (s.toList.dropWhile isWhitespace)

/-- `str::trim_end`. -/
def trimEnd (s : String) : String := .ofList (s.toList.reverse.dropWhile isWhitespace).reverse

/-- `str::trim_end_matches` of a character. -/
def trimEndMatches (s : String) (c : Char) : String :=
  .ofList (s.toList.reverse.dropWhile (· = c)).reverse

/-- `str::starts_with`. -/
def startsWith (s p : String) : Bool := p.toList.isPrefixOf s.toList

theorem startsWith_append (a b p : String) (h : p.toList.length ≤ a.toList.length) :
    startsWith (a ++ b) p = startsWith a p := by
  unfold startsWith
  rw [String.toList_append, Bool.eq_iff_iff, List.isPrefixOf_iff_prefix, List.isPrefixOf_iff_prefix]
  exact ⟨fun hp => List.prefix_of_prefix_length_le hp (List.prefix_append _ _) h,
    fun hp => hp.trans (List.prefix_append _ _)⟩

/-- `str::ends_with`. -/
def endsWith (s p : String) : Bool := p.toList.reverse.isPrefixOf s.toList.reverse

/-- `str::strip_prefix`. -/
def stripPrefix (s p : String) : Option String :=
  if startsWith s p then some (.ofList (s.toList.drop p.toList.length)) else none

/-- `str::strip_suffix`. -/
def stripSuffix (s p : String) : Option String :=
  if endsWith s p then some (.ofList (s.toList.take (s.toList.length - p.toList.length))) else none

/-- `str::contains` of a string. -/
def containsStr (s p : String) : Bool := s.toList.tails.any fun t => p.toList.isPrefixOf t

def splitList (c : Char) : List Char → List (List Char)
  | [] => [[]]
  | x :: xs =>
    if x = c then [] :: splitList c xs
    else match splitList c xs with
      | [] => [[x]]
      | y :: ys => (x :: y) :: ys

/-- `str::split` at a character. -/
def split (s : String) (c : Char) : List String := (splitList c s.toList).map .ofList

/-- `str::split_once` at a character. -/
def splitOnce (s : String) (c : Char) : Option (String × String) :=
  if c ∈ s.toList then
    some (.ofList (s.toList.takeWhile (· ≠ c)), .ofList ((s.toList.dropWhile (· ≠ c)).drop 1))
  else none

/-- `str::lines`: the parts between line feeds, each without a final carriage return; a last empty
part does not count. -/
def lines (s : String) : List String :=
  let parts := splitList '\n' s.toList
  let parts := if parts.getLast? = some [] then parts.dropLast else parts
  parts.map fun p => .ofList (if p.getLast? = some '\r' then p.dropLast else p)

/-- `str::replace` of a character by a string. -/
def replaceChar (s : String) (c : Char) (by' : String) : String :=
  .ofList (s.toList.flatMap fun x => if x = c then by'.toList else [x])

/-- `str::repeat`. -/
def repeatChar (c : Char) (n : Nat) : String := .ofList (List.replicate n c)

def joinWith (sep : String) (parts : List String) : String := sep.intercalate parts

/-- A text has one part before the first mark and one after it. -/
theorem split_unique {m : Char} {a b r r' : List Char} (ha : m ∉ a) (hb : m ∉ b)
    (h : a ++ m :: r = b ++ m :: r') : a = b ∧ r = r' := by
  induction a generalizing b with
  | nil =>
    cases b with
    | nil => exact ⟨rfl, List.tail_eq_of_cons_eq h⟩
    | cons c b =>
      injection h with hc _
      exact absurd (hc ▸ List.mem_cons_self) hb
  | cons d a ih =>
    cases b with
    | nil =>
      injection h with hd _
      exact absurd (hd ▸ List.mem_cons_self) ha
    | cons c b =>
      injection h with hc h
      subst hc
      obtain ⟨rfl, hr⟩ := ih (fun hm => ha (List.mem_cons_of_mem _ hm))
        (fun hm => hb (List.mem_cons_of_mem _ hm)) h
      exact ⟨rfl, hr⟩

theorem splitList_of_not_mem {m : Char} {cs : List Char} (h : m ∉ cs) : splitList m cs = [cs] := by
  induction cs with
  | nil => rfl
  | cons c cs ih =>
    have hc : c ≠ m := fun heq => h (heq ▸ List.mem_cons_self)
    rw [splitList, if_neg hc, ih fun hm => h (List.mem_cons_of_mem _ hm)]

theorem splitList_append {m : Char} {cs : List Char} (h : m ∉ cs) (rest : List Char) :
    splitList m (cs ++ m :: rest) = cs :: splitList m rest := by
  induction cs with
  | nil => simp [splitList]
  | cons c cs ih =>
    have hc : c ≠ m := fun heq => h (heq ▸ List.mem_cons_self)
    rw [List.cons_append, splitList, if_neg hc, ih fun hm => h (List.mem_cons_of_mem _ hm)]

theorem joinWith_cons {sep : String} {m : Char} (hsep : sep.toList = [m]) (l l' : String)
    (ls : List String) : (joinWith sep (l :: l' :: ls)).toList =
      l.toList ++ m :: (joinWith sep (l' :: ls)).toList := by
  rw [joinWith, String.intercalate_cons_cons, String.toList_append, String.toList_append, hsep]
  simp [joinWith]

/-- The parts of a join, when no part has the mark. -/
theorem splitList_join {sep : String} {m : Char} (hsep : sep.toList = [m]) {l : String}
    {ls : List String} (h : ∀ part ∈ l :: ls, m ∉ part.toList) :
    splitList m (joinWith sep (l :: ls)).toList = (l :: ls).map String.toList := by
  induction ls generalizing l with
  | nil => simpa [joinWith] using splitList_of_not_mem (h l List.mem_cons_self)
  | cons l' ls ih =>
    rw [joinWith_cons hsep, splitList_append (h l List.mem_cons_self),
      ih fun part hm => h part (List.mem_cons_of_mem _ hm)]
    rfl

theorem not_mem_of_mem_splitList {m : Char} {cs part : List Char} (h : part ∈ splitList m cs) :
    m ∉ part := by
  induction cs generalizing part with
  | nil =>
    rw [splitList, List.mem_singleton] at h
    simp [h]
  | cons c cs ih =>
    rw [splitList] at h
    split at h
    next hc =>
      rcases List.mem_cons.1 h with rfl | h
      · simp
      · exact ih h
    next hc =>
      split at h
      next heq =>
        rw [List.mem_singleton.1 h, List.mem_singleton]
        exact Ne.symm hc
      next y ys heq =>
        rcases List.mem_cons.1 h with rfl | h
        · rw [List.mem_cons, not_or]
          exact ⟨Ne.symm hc, ih (heq ▸ List.mem_cons_self)⟩
        · exact ih (heq ▸ List.mem_cons_of_mem _ h)

def parseDigits : List Char → Option Nat
  | [] => none
  | cs => if cs.all isAsciiDigit then
      some (cs.foldl (fun n c => 10 * n + (c.toNat - '0'.toNat)) 0) else none

/-- `str::parse` to a signed integer of `bits` bits: an optional sign, at least one digit, in
range. -/
def parseInt (bits : Nat) (s : String) : Option Int :=
  let value : Option Int := match s.toList with
    | '-' :: cs => (parseDigits cs).map fun n => -(n : Int)
    | '+' :: cs => (parseDigits cs).map fun n => (n : Int)
    | cs => (parseDigits cs).map fun n => (n : Int)
  value.filter fun i => -2 ^ (bits - 1) ≤ i && i < 2 ^ (bits - 1)

/-- The positions of the matches of `p` in `s` that do not overlap, from the left; `skip` characters
belong to the last match. -/
def matchesFrom (p : List Char) (skip at' : Nat) : List Char → List Nat
  | [] => if p = [] then [at'] else []
  | c :: cs =>
    if skip > 0 then matchesFrom p (skip - 1) (at' + 1) cs
    else if p.isPrefixOf (c :: cs) then at' :: matchesFrom p (p.length - 1) (at' + 1) cs
    else matchesFrom p 0 (at' + 1) cs

/-- `str::match_indices`, counted in characters. -/
def matchIndices (s p : String) : List Nat := matchesFrom p.toList 0 0 s.toList

def replaceFrom (p q : List Char) (skip : Nat) : List Char → List Char
  | [] => []
  | c :: cs =>
    if skip > 0 then replaceFrom p q (skip - 1) cs
    else if p.isPrefixOf (c :: cs) then q ++ replaceFrom p q (p.length - 1) cs
    else c :: replaceFrom p q 0 cs

/-- `str::replace` of a nonempty string. -/
def replace (s p q : String) : String := .ofList (replaceFrom p.toList q.toList 0 s.toList)

/-- `str::to_ascii_lowercase`. -/
def toAsciiLowercase (s : String) : String :=
  .ofList (s.toList.map fun c => if 'A' ≤ c ∧ c ≤ 'Z' then Char.ofNat (c.toNat + 32) else c)

/-- The value of a digit of radix 10 or 16. -/
def digitValue (radix : Nat) (c : Char) : Option Nat :=
  let v := if isAsciiDigit c then some (c.toNat - '0'.toNat)
    else if 'a' ≤ c ∧ c ≤ 'f' then some (c.toNat - 'a'.toNat + 10)
    else if 'A' ≤ c ∧ c ≤ 'F' then some (c.toNat - 'A'.toNat + 10)
    else none
  v.filter (· < radix)

/-- `u32::from_str_radix`. -/
def parseU32 (radix : Nat) (s : String) : Option Nat :=
  let digits := match s.toList with
    | '+' :: cs => cs
    | cs => cs
  if digits = [] then none
  else ((digits.mapM (digitValue radix)).map
    fun ds => ds.foldl (fun n d => radix * n + d) 0).filter (· < 2 ^ 32)

end StateDrivenAgent.Text
