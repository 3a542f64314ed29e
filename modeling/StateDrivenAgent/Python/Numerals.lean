import StateDrivenAgent.Json.Decimal
import StateDrivenAgent.Json.Text
import StateDrivenAgent.Spec.Numerals

/-!
# The numbers of a text in the reference agent

`numbers` of `context.py`: `re.findall` of the pattern for numbers with a look behind and a look
ahead, and `Decimal` of each match without its commas. `\w` and `\d` are CPython's tables, of which
only the ASCII part is fixed here. No two matches overlap, whatever the tables are
(`numbersSearch_apart`), so the numbers are those of all places where the pattern and the looks fit
(`mem_numbers_iff`).
-/

namespace StateDrivenAgent

namespace Python

open Matching Numerals

/-- CPython's tables for `\w` and for `\d` with the value of the digit. -/
structure Unicode where
  word : Char → Bool
  decimal : Char → Option Nat
  decimal_lt : ∀ c d, decimal c = some d → d < 10
  word_of_decimal : ∀ c, (decimal c).isSome = true → word c = true
  ascii_word : ∀ c, c.toNat < 128 → word c =
    (Text.isAsciiDigit c || ('a' ≤ c && c ≤ 'z') || ('A' ≤ c && c ≤ 'Z') || c = '_')
  ascii_decimal : ∀ c, c.toNat < 128 →
    decimal c = if Text.isAsciiDigit c then some (c.toNat - 48) else none

namespace Unicode

variable (u : Unicode)

/-- `\d`. -/
def digit (c : Char) : Bool := (u.decimal c).isSome

/-- The ASCII digit of the same value. -/
def ascii (c : Char) : Char :=
  match u.decimal c with
  | some d => d.digitChar
  | none => c

/-- `Decimal(value.replace(',', ''))`, as an exact number. -/
def value (word : List Char) : Rat :=
  Decimal.read (((word.filter (· ≠ ',')).map u.ascii).dropWhile (· = '+'))

/-- `(?<![\w.,+-])` looks at this character. -/
def joins (c : Char) : Bool := u.word c || c = '.' || c = ',' || c = '+' || c = '-'

/-- `(?!\w|[.,]\d)`. -/
def ends : List Char → Bool
  | [] => true
  | [c] => !u.word c
  | c :: d :: _ => !(u.word c || ((c = '.' || c = ',') && u.digit d))

end Unicode

/-- `(?<![\w.,+-])[-+]?\d+(?:,\d{3})*(?:\.\d+)?(?:[eE][-+]?\d+)?(?!\w|[.,]\d)`. -/
def numbersSearch (u : Unicode) : Search Char where
  pattern := pattern u.digit
  behind previous := !previous.any u.joins
  ahead := u.ends

/-- `numbers`, with repetitions. -/
def numbers (u : Unicode) (text : String) : List Rat :=
  ((numbersSearch u).findAll text.toList).map fun f => u.value f.word

/-! ## The places of the numbers -/

section places

variable {u : Unicode}

theorem word_mark {c : Char} (h : isMark c = true) : u.word c = true := by
  simp only [isMark, Bool.or_eq_true, decide_eq_true_eq] at h
  rcases h with rfl | rfl <;> rw [u.ascii_word _ (by decide)] <;> rfl

theorem digits_digit : Digits u.digit := by
  have hnone : ∀ c, c.toNat < 128 → Text.isAsciiDigit c = false → u.digit c = false := by
    intro c hc hdigit
    rw [Unicode.digit, u.ascii_decimal c hc, hdigit]
    rfl
  refine ⟨fun c hc => ?_, fun c hc => ?_, hnone ',' (by decide) rfl, hnone '.' (by decide) rfl⟩
  · cases hs : isSign c with
    | false => rfl
    | true =>
      simp only [isSign, Bool.or_eq_true, decide_eq_true_eq] at hs
      rcases hs with rfl | rfl
      · rw [hnone '-' (by decide) rfl] at hc
        cases hc
      · rw [hnone '+' (by decide) rfl] at hc
        cases hc
  · cases hm : isMark c with
    | false => rfl
    | true =>
      simp only [isMark, Bool.or_eq_true, decide_eq_true_eq] at hm
      rcases hm with rfl | rfl
      · rw [hnone 'e' (by decide) rfl] at hc
        cases hc
      · rw [hnone 'E' (by decide) rfl] at hc
        cases hc

/-- Every character of a numeral stops a look behind. -/
theorem joins_of_mem {w : List Char} (h : (pattern u.digit).Matches w) {c : Char} (hc : c ∈ w) :
    u.joins c = true := by
  unfold Unicode.joins
  rcases kind_of_matches digits_digit h hc with hd | rfl | rfl | hm | hs
  · simp [u.word_of_decimal c hd]
  · simp
  · simp
  · simp [word_mark hm]
  · simp only [isSign, Bool.or_eq_true, decide_eq_true_eq] at hs
    rcases hs with rfl | rfl <;> simp

/-- A text that goes on with a longer numeral does not pass the look ahead. -/
theorem ends_of_beyond {w b rest : List Char} {d : Char} (hw : (pattern u.digit).Matches w)
    (h : (pattern u.digit).Matches (w ++ d :: b)) : u.ends (d :: (b ++ rest)) = false := by
  rcases beyond digits_digit hw h with hd | hm | ⟨hdot, x, y, rfl, hx⟩
  · have hword := u.word_of_decimal d hd
    cases hb : b ++ rest <;> simp [Unicode.ends, hword]
  · have hword := word_mark (u := u) hm
    cases hb : b ++ rest <;> simp [Unicode.ends, hword]
  · rcases hdot with rfl | rfl <;> simp [Unicode.ends, hx]

/-- Two numerals at one place that end there are the same. -/
theorem word_unique {w w' rest rest' : List Char} (hw : (pattern u.digit).Matches w)
    (hw' : (pattern u.digit).Matches w') (hrest : u.ends rest = true)
    (heq : w ++ rest = w' ++ rest') (hle : w.length ≤ w'.length) : w = w' := by
  obtain ⟨z, rfl⟩ : ∃ z, w' = w ++ z :=
    List.prefix_of_prefix_length_le ⟨rest, heq⟩ ⟨rest', rfl⟩ hle |>.imp fun _ h => h.symm
  cases z with
  | nil => rw [List.append_nil]
  | cons d b =>
    rw [List.append_assoc, List.append_cancel_left_eq] at heq
    rw [heq, List.cons_append, ends_of_beyond hw hw'] at hrest
    cases hrest

theorem numbersSearch_apart (u : Unicode) : (numbersSearch u).Apart := by
  refine ⟨not_matches_nil digits_digit, fun f g hf hg htext hle => ?_⟩
  rcases Nat.eq_or_lt_of_le hle with heq | hlt
  · left
    obtain ⟨before, word, after⟩ := f
    obtain ⟨before', word', after'⟩ := g
    obtain ⟨hbefore, hrest⟩ := List.append_inj htext heq
    dsimp only at hbefore hrest
    subst hbefore
    have hword : word = word' := by
      rcases Nat.le_total word.length word'.length with hle | hle
      · exact word_unique hf.word hg.word hf.ahead hrest hle
      · exact (word_unique hg.word hf.word hg.ahead hrest.symm hle).symm
    subst hword
    rw [List.append_cancel_left hrest]
  · right
    by_contra hstop
    -- the character before the second numeral is one of the first
    have hpos : g.before.length ≠ 0 := by omega
    have hne : g.before ≠ [] := fun h => hpos (by rw [h]; rfl)
    obtain ⟨front, c, hfront⟩ := (List.eq_nil_or_concat g.before).resolve_left hne
    rw [List.concat_eq_append] at hfront
    have hlen : g.before.length = front.length + 1 := by rw [hfront]; simp
    have hmem : c ∈ f.word := by
      have hget : f.text[front.length]? = some c := by
        rw [htext, Place.text, hfront]
        simp
      rw [Place.text, List.getElem?_append_right (by omega), List.getElem?_append_left] at hget
      · exact List.mem_of_getElem? hget
      · rw [Place.stop] at hstop
        omega
    have hbehind := hg.behind
    rw [hfront] at hbehind
    simp [numbersSearch, joins_of_mem hf.word hmem] at hbehind

theorem mem_numbers_iff {text : String} {q : Rat} : q ∈ numbers u text ↔
    ∃ f, (numbersSearch u).Occurs f ∧ f.text = text.toList ∧ u.value f.word = q := by
  unfold numbers
  rw [List.mem_map]
  refine exists_congr fun f => ?_
  rw [Search.mem_findAll_iff (numbersSearch_apart u), and_assoc]

end places

end Python

end StateDrivenAgent
