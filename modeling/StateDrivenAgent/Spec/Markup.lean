import StateDrivenAgent.Agent.Ledger
import StateDrivenAgent.Json.Trimming

/-!
# The markup of a summary

What a summary in XML is, as a grammar over its characters: one element `COMPACTED_STATE` with the
four sections in any order and nothing but white space between them; in the sections text,
references and nested elements without attributes. With the text comes what it says: references
stand for their characters, and each end of a nested tag is a line end.

`signed` says whether the digits of a reference may follow a plus sign. XML knows no such sign.
-/

namespace StateDrivenAgent

namespace Markup

open Context
open Text (Spacing)

/-- The number the digits stand for. -/
structure Digits (radix : Nat) (ds : List Char) (n : Nat) : Prop where
  ne : ds ≠ []
  value : ∃ values, ds.mapM (Text.digitValue radix) = some values ∧
    values.foldl (fun n d => radix * n + d) 0 = n

/-- What may stand before the digits. -/
def Sign (signed : Bool) (sign : List Char) : Prop := sign = [] ∨ signed = true ∧ sign = ['+']

/-- The text of a reference between the ampersand and the semicolon, and its character. -/
inductive Reference (signed : Bool) : List Char → Char → Prop
  | amp : Reference signed ['a', 'm', 'p'] '&'
  | lt : Reference signed ['l', 't'] '<'
  | gt : Reference signed ['g', 't'] '>'
  | quot : Reference signed ['q', 'u', 'o', 't'] '"'
  | apos : Reference signed ['a', 'p', 'o', 's'] '\''
  | decimal {sign ds : List Char} {n : Nat} (hs : Sign signed sign) (hd : Digits 10 ds n)
      (hn : n.isValidChar) : Reference signed ('#' :: (sign ++ ds)) (Char.ofNat n)
  | hexadecimal {sign ds : List Char} {n : Nat} (hs : Sign signed sign) (hd : Digits 16 ds n)
      (hn : n.isValidChar) : Reference signed ('#' :: 'x' :: (sign ++ ds)) (Char.ofNat n)

/-- Text without tags, and what it says. -/
inductive Run (signed : Bool) : List Char → List Char → Prop
  | nil : Run signed [] []
  | char {c : Char} {cs text : List Char} (hlt : c ≠ '<') (hamp : c ≠ '&')
      (h : Run signed cs text) : Run signed (c :: cs) (c :: text)
  | ref {entity cs text : List Char} {c : Char} (hr : Reference signed entity c)
      (hc : xmlCharacter c = true) (h : Run signed cs text) :
      Run signed ('&' :: (entity ++ ';' :: cs)) (c :: text)

/-- The name of an element. One character, U+1680, may stand in a name and is white space; at the
end of a tag it is white space. -/
structure Name (name : List Char) : Prop where
  start : name.head?.any xmlNameStart = true
  chars : name.all xmlNameChar = true
  last : ∀ c, name.getLast? = some c → Text.isWhitespace c = false

/-- The tags of an element. -/
def opening (name blank : List Char) : List Char := '<' :: (name ++ blank ++ ['>'])

def closing (name blank : List Char) : List Char := '<' :: '/' :: (name ++ blank ++ ['>'])

def empty (name blank : List Char) : List Char := '<' :: (name ++ blank ++ ['/', '>'])

/-- The inside of a section, and what it says. -/
inductive Content (signed : Bool) : List Char → List Char → Prop
  | run {cs text : List Char} (h : Run signed cs text) : Content signed cs text
  | element {before said name b b' inside insideText rest restText : List Char}
      (hb : Run signed before said) (hn : Name name) (hs : Spacing b) (hs' : Spacing b')
      (hi : Content signed inside insideText) (h : Content signed rest restText) :
      Content signed (before ++ (opening name b ++ (inside ++ (closing name b' ++ rest))))
        (said ++ '\n' :: (insideText ++ '\n' :: restText))
  | empty {before said name b rest restText : List Char}
      (hb : Run signed before said) (hn : Name name) (hs : Spacing b)
      (h : Content signed rest restText) :
      Content signed (before ++ (empty name b ++ rest)) (said ++ '\n' :: restText)

/-- The sections between the tags of the root, with white space around them. -/
inductive Sections (signed : Bool) : List Char → List (String × List Char) → Prop
  | nil {blank : List Char} (hb : Spacing blank) : Sections signed blank []
  | filled {blank b b' inside text rest : List Char} {name : String}
      {sections : List (String × List Char)} (hb : Spacing blank) (hn : name ∈ sectionNames)
      (hs : Spacing b) (hs' : Spacing b') (hi : Content signed inside text)
      (h : Sections signed rest sections) :
      Sections signed
        (blank ++ (opening name.toList b ++ (inside ++ (closing name.toList b' ++ rest))))
        ((name, text) :: sections)
  | empty {blank b rest : List Char} {name : String} {sections : List (String × List Char)}
      (hb : Spacing blank) (hn : name ∈ sectionNames) (hs : Spacing b)
      (h : Sections signed rest sections) :
      Sections signed (blank ++ (empty name.toList b ++ rest)) ((name, []) :: sections)

theorem goal_mem : "USER_GOAL" ∈ sectionNames := by simp [sectionNames]

theorem claims_mem : "GLOBAL_LESSON_LEDGER" ∈ sectionNames := by simp [sectionNames]

theorem deadEnds_mem : "DEAD_ENDS" ∈ sectionNames := by simp [sectionNames]

theorem pivot_mem : "CURRENT_LOCAL_PIVOT" ∈ sectionNames := by simp [sectionNames]

/-- The root element with white space around it. -/
inductive Root (signed : Bool) : List Char → List (String × List Char) → Prop
  | root {before b b' inside after : List Char} {sections : List (String × List Char)}
      (hb : Spacing before) (hs : Spacing b) (hs' : Spacing b') (ha : Spacing after)
      (h : Sections signed inside sections) :
      Root signed (before ++ (opening "COMPACTED_STATE".toList b ++
        (inside ++ (closing "COMPACTED_STATE".toList b' ++ after)))) sections

/-! ## Documents -/

/-- A text as XML reads it: each line end is a line feed, and byte order marks at the front do not
count. -/
def normalized (text : String) : String :=
  let lines := Text.replaceChar (Text.replace text "\r\n" "\n") '\r' "\n"
  .ofList (lines.toList.dropWhile fun c => c.toNat = 0xfeff)

/-- The characters that end a line of a section. -/
def lineEnd (c : Char) : Bool :=
  c = '\n' || c = '\r' || c.toNat = 0x85 || c.toNat = 0x2028 || c.toNat = 0x2029

/-- The lines that are left of a text when each is trimmed and the blank ones are dropped. -/
def sectionLines (text : List Char) : List String :=
  ((text.splitOnP lineEnd).map fun line => Text.trim (.ofList line)).filter (· ≠ "")

/-- `text` is a summary with these sections, in the canonical order. -/
structure Document (signed : Bool) (text : String) (sections : List String) : Prop where
  characters : ∀ c ∈ (normalized text).toList, xmlCharacter c = true
  noSectionEnd : Text.containsStr (normalized text) "]]>" = false
  noDeclaration : Text.containsStr (normalized text) "<!" = false
  noInstruction : Text.containsStr (normalized text) "<?" = false
  root : ∃ children, Root signed (normalized text).toList children ∧
    (children.map Prod.fst).Perm sectionNames ∧
    sections = sectionNames.map fun name =>
      Text.joinWith "\n" (sectionLines ((lookup name children).getD []))

end Markup

end StateDrivenAgent
