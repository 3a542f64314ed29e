import StateDrivenAgent.Agent.Context

/-!
# The summary ledger

`validate_ledger`: a summary the model proposes becomes a ledger if it has the four sections, in XML
or under headings, and names no number its source does not have. The readers work on the characters
of the proposal.
-/

namespace StateDrivenAgent

namespace Context

/-! ## Numerals -/

/-- The characters of a leading `,ddd` group, repeated. -/
def thousands : List Char → Nat
  | ',' :: a :: b :: c :: cs =>
    if Text.isAsciiDigit a && Text.isAsciiDigit b && Text.isAsciiDigit c then 4 + thousands cs else 0
  | _ => 0

def digitCount (cs : List Char) : Nat := (cs.takeWhile Text.isAsciiDigit).length

/-- The characters of a leading `(\.[0-9]+)?`. -/
def fractionLength : List Char → Nat
  | '.' :: cs => if digitCount cs = 0 then 0 else 1 + digitCount cs
  | _ => 0

def signLength : List Char → Nat
  | '-' :: _ | '+' :: _ => 1
  | _ => 0

/-- The characters of a leading `([eE][-+]?[0-9]+)?`. -/
def exponentLength : List Char → Nat
  | [] => 0
  | c :: cs =>
    let n := digitCount (cs.drop (signLength cs))
    if (c = 'e' ∨ c = 'E') ∧ n ≠ 0 then 1 + signLength cs + n else 0

/-- The length of a match of `[-+]?[0-9]+(,[0-9]{3})*(\.[0-9]+)?([eE][-+]?[0-9]+)?` here; `0` is no
match. Every part after the first digits may be empty, so the longest choice at each is the match. -/
def numeralLength (cs : List Char) : Nat :=
  let sign := signLength cs
  let whole := digitCount (cs.drop sign)
  if whole = 0 then 0
  else
    let n := sign + whole + thousands (cs.drop (sign + whole))
    let n := n + fractionLength (cs.drop n)
    n + exponentLength (cs.drop n)

/-- A character that makes a numeral next to it part of a word. -/
def wordChar (c : Char) : Bool :=
  Text.isAsciiDigit c || ('a' ≤ c && c ≤ 'z') || ('A' ≤ c && c ≤ 'Z') || c = '_' || c = '.' || c = ','

/-- `decimal_canonical`. -/
def decimalCanonical (value : String) : Option String := do
  let cs := (Text.trim value).toList
  let isE (c : Char) : Bool := c = 'e' || c = 'E'
  let mantissa := cs.takeWhile fun c => !isE c
  let exponent ← if cs.any isE then
      Text.parseInt 32 (.ofList ((cs.dropWhile fun c => !isE c).drop 1)) else some 0
  let (negative, mantissa) := match mantissa with
    | '-' :: rest => (true, rest)
    | '+' :: rest => (false, rest)
    | _ => (false, mantissa)
  let whole := mantissa.takeWhile (· ≠ '.')
  let fraction := (mantissa.dropWhile (· ≠ '.')).drop 1
  if !(whole ++ fraction).all Text.isAsciiDigit then none
  else
    let digits := (whole ++ fraction).dropWhile (· = '0')
    if digits = [] then some "0"
    else
      let kept := (digits.reverse.dropWhile (· = '0')).reverse
      let power := exponent - fraction.length + (digits.length - kept.length : Nat)
      -- the subtraction and each addition are checked
      if exponent - fraction.length < -2 ^ 31 ∨ 2 ^ 31 ≤ power then none
      else some ((if negative then "-" else "") ++ .ofList kept ++ "e" ++ toString power)

/-- The numerals from here on that stand alone; `previous` is the character before. -/
def numbersFrom : Nat → Option Char → List Char → List String
  | 0, _, _ => []
  | _, _, [] => []
  | fuel + 1, previous, c :: cs =>
    let n := numeralLength (c :: cs)
    if n = 0 then numbersFrom fuel (some c) cs
    else
      let found := (c :: cs).take n
      let rest := (c :: cs).drop n
      let later := numbersFrom fuel found.getLast? rest
      if previous.any wordChar || rest.head?.any wordChar then later
      else match decimalCanonical (.ofList (found.filter (· ≠ ','))) with
        | some normalized => normalized :: later
        | none => later

/-- `number_set`, with repetitions. -/
def numberSet (text : String) : List String :=
  numbersFrom text.toList.length none text.toList

/-! ## XML -/

def xmlCharacter (c : Char) : Bool :=
  let n := c.toNat
  n = 9 || n = 10 || n = 13 || (0x20 ≤ n && n ≤ 0xd7ff) || (0xe000 ≤ n && n ≤ 0xfffd) ||
    (0x10000 ≤ n && n ≤ 0x10ffff)

def xmlNameStart (c : Char) : Bool :=
  let n := c.toNat
  c = '_' || ('A' ≤ c && c ≤ 'Z') || ('a' ≤ c && c ≤ 'z') || (0xc0 ≤ n && n ≤ 0xd6) ||
    (0xd8 ≤ n && n ≤ 0xf6) || (0xf8 ≤ n && n ≤ 0x2ff) || (0x370 ≤ n && n ≤ 0x37d) ||
    (0x37f ≤ n && n ≤ 0x1fff) || (0x200c ≤ n && n ≤ 0x200d) || (0x2070 ≤ n && n ≤ 0x218f) ||
    (0x2c00 ≤ n && n ≤ 0x2fef) || (0x3001 ≤ n && n ≤ 0xd7ff) || (0xf900 ≤ n && n ≤ 0xfdcf) ||
    (0xfdf0 ≤ n && n ≤ 0xfffd) || (0x10000 ≤ n && n ≤ 0xeffff)

def xmlNameChar (c : Char) : Bool :=
  let n := c.toNat
  xmlNameStart c || c = '-' || c = '.' || ('0' ≤ c && c ≤ '9') || n = 0xb7 ||
    (0x300 ≤ n && n ≤ 0x36f) || (0x203f ≤ n && n ≤ 0x2040)

/-- The character of an entity reference. -/
def xmlEntity (entity : String) : Except String Char :=
  let numeric (n : Option Nat) : Except String Char :=
    match n.filter Nat.isValidChar with
    | some n => .ok (Char.ofNat n)
    | none => .error "invalid numeric XML character reference"
  if entity = "amp" then .ok '&'
  else if entity = "lt" then .ok '<'
  else if entity = "gt" then .ok '>'
  else if entity = "quot" then .ok '"'
  else if entity = "apos" then .ok '\''
  else if Text.startsWith entity "#x" then
    numeric (Text.parseU32 16 (.ofList (entity.toList.drop 2)))
  else if Text.startsWith entity "#" then
    numeric (Text.parseU32 10 (.ofList (entity.toList.drop 1)))
  else .error "custom XML entities are forbidden"

/-- `xml_unescape`. -/
def xmlUnescape : Nat → List Char → Except String (List Char)
  | 0, cs => .ok cs
  | fuel + 1, cs =>
    match cs.dropWhile (· ≠ '&') with
    | [] => .ok cs
    | _ :: tail =>
      if ';' ∉ tail then .error "malformed XML entity reference"
      else do
        let c ← xmlEntity (.ofList (tail.takeWhile (· ≠ ';')))
        if !xmlCharacter c then .error "invalid XML character reference"
        else do
          let rest ← xmlUnescape fuel ((tail.dropWhile (· ≠ ';')).drop 1)
          return cs.takeWhile (· ≠ '&') ++ c :: rest

/-- What the XML reader has seen: the open tags (the innermost first), the finished sections, and
the text of the open section. -/
structure XmlState where
  stack : List String := []
  sections : List (String × String) := []
  current : String := ""
  rootSeen : Bool := false

def sectionNames : List String :=
  ["USER_GOAL", "GLOBAL_LESSON_LEDGER", "DEAD_ENDS", "CURRENT_LOCAL_PIVOT"]

def closeTag (x : XmlState) (close : String) : Except String XmlState :=
  match x.stack with
  | [] => .error "mismatched XML tag"
  | top :: stack =>
    if top ≠ close then .error "mismatched XML tag"
    else if stack.length = 1 then
      .ok { x with stack, sections := insertField close x.current x.sections, current := "" }
    else .ok { x with stack }

def openTag (x : XmlState) (tag : String) : Except String XmlState :=
  let name := Text.trimEnd ((Text.stripSuffix tag "/").getD tag)
  if !name.toList.head?.any xmlNameStart || !name.toList.all xmlNameChar then
    .error "XML attributes or invalid tags"
  else if x.stack.isEmpty && (x.rootSeen || name ≠ "COMPACTED_STATE") then
    .error "invalid summary root"
  else if x.stack.length = 1 && (!sectionNames.contains name || (lookup name x.sections).isSome) then
    .error "invalid or duplicate summary section"
  else
    let rootSeen := x.rootSeen || x.stack.isEmpty
    if !Text.endsWith tag "/" then .ok { x with stack := name :: x.stack, rootSeen }
    else if x.stack.length = 1 then
      .ok { x with sections := insertField name "" x.sections, rootSeen }
    else .ok { x with rootSeen }

/-- One tag, `tag` being the text between the angle brackets. -/
def readTag (x : XmlState) (tag : String) : Except String XmlState := do
  let x ← match Text.stripPrefix tag "/" with
    | some close => closeTag x (Text.trimEnd close)
    | none => openTag x tag
  return if 2 ≤ x.stack.length then { x with current := x.current ++ "\n" } else x

def readText (x : XmlState) (text : List Char) : Except String XmlState :=
  if 2 ≤ x.stack.length then do
    let text ← xmlUnescape text.length text
    return { x with current := x.current ++ .ofList text }
  else if (Text.trim (.ofList text)).isEmpty then .ok x
  else .error "text outside summary section"

/-- The loop of `parse_xml_sections`; every round takes a character at least. -/
def readXml : Nat → XmlState → List Char → Except String XmlState
  | _, x, [] => .ok x
  | 0, x, _ => .ok x
  | fuel + 1, x, c :: cs =>
    if c = '<' then
      if '>' ∉ cs then .error "incomplete XML tag"
      else do
        let x ← readTag x (.ofList (cs.takeWhile (· ≠ '>')))
        readXml fuel x ((cs.dropWhile (· ≠ '>')).drop 1)
    else do
      let x ← readText x ((c :: cs).takeWhile (· ≠ '<'))
      readXml fuel x ((c :: cs).dropWhile (· ≠ '<'))

def splitLines (cs : List Char) : List (List Char) :=
  cs.splitBy fun _ c => !(c = '\n' || c = '\r' || c.toNat = 0x85 || c.toNat = 0x2028 ||
    c.toNat = 0x2029)

/-- The lines of a section, trimmed, without the empty ones. -/
def tidySection (s : String) : String :=
  Text.joinWith "\n" (((splitLines s.toList).map fun l => Text.trim (.ofList l)).filter (· ≠ ""))

/-- `parse_xml_sections`. -/
def parseXmlSections (proposal : String) : Except String (List String) := do
  let normalized := Text.replaceChar (Text.replace proposal "\r\n" "\n") '\r' "\n"
  let proposal : String := .ofList (normalized.toList.dropWhile fun c => c.toNat = 0xfeff)
  if Text.containsStr proposal "]]>" then .error "invalid XML character sequence"
  else if proposal.toList.any fun c => !xmlCharacter c then .error "invalid XML character"
  else if Text.containsStr proposal "<!" || Text.containsStr proposal "<?" then
    .error "XML declarations and comments are forbidden"
  else do
    let text := (Text.trim proposal).toList
    let x ← readXml text.length {} text
    if !x.rootSeen || !x.stack.isEmpty || x.sections.length ≠ 4 then .error "incomplete summary XML"
    else sectionNames.mapM fun name => match lookup name x.sections with
      | some s => .ok (tidySection s)
      | none => .error "missing section"

/-! ## Headings -/

def headingNames : List String :=
  ["Core Objective", "Universal Truths Discovered", "Dead Ends", "Current Local Pivot"]

/-- The text under each heading; `headings` are in the order of the text. -/
def headingSections (cs : List Char) : List (Nat × String) → List String
  | [] => []
  | (start, name) :: rest =>
    let content := start + name.length + 3
    let stop := rest.head?.elim cs.length Prod.fst
    Text.trim (.ofList ((cs.take stop).drop content)) :: headingSections cs rest

/-- `parse_heading_sections`. -/
def parseHeadingSections (proposal : String) : Except String (List String) :=
  let found := headingNames.flatMap fun name =>
    (Text.matchIndices proposal ("- " ++ name ++ ":")).map fun i => (i, name)
  let found := found.insertionSort fun a b => a.1 ≤ b.1
  let before := proposal.toList.take (found.head?.elim 0 Prod.fst)
  if found.length ≠ headingNames.length || !(Text.trim (.ofList before)).isEmpty then
    .error "summary must contain exactly the four required ordered headings"
  else if found.map Prod.snd ≠ headingNames then
    .error "summary headings are missing, duplicated, or out of order"
  else .ok (headingSections proposal.toList found)

/-! ## The ledger -/

/-- `strip_fence`. -/
def stripFence (proposal : String) : String :=
  let text := Text.trim proposal
  let body : Option String := do
    let rest ← Text.stripPrefix text "\x60\x60\x60"
    let (label, body) ← Text.splitOnce rest '\n'
    guard (["", "xml", "text"].contains (Text.toAsciiLowercase (Text.trim label)))
    let body ← Text.stripSuffix (Text.trimEnd body) "\x60\x60\x60"
    return Text.trim body
  body.getD text

def xmlEscape (value : String) : String :=
  Text.replaceChar (Text.replaceChar (Text.replaceChar value '&' "&amp;") '<' "&lt;") '>' "&gt;"

/-- `render_ledger`. -/
def renderLedger (ledger : Ledger) (hybrid : Bool) : String :=
  let claims := if ledger.modelClaims.isEmpty then "- None."
    else Text.joinWith "\n" ledger.modelClaims
  let deadEnds := if ledger.deadEnds.isEmpty then "- None." else Text.joinWith "\n" ledger.deadEnds
  if hybrid then
    "<COMPACTED_STATE><USER_GOAL>\n" ++ xmlEscape (Text.trim ledger.goal) ++
      "\n</USER_GOAL><GLOBAL_LESSON_LEDGER>\n" ++ xmlEscape claims ++
      "\n</GLOBAL_LESSON_LEDGER><DEAD_ENDS>\n" ++ xmlEscape deadEnds ++
      "\n</DEAD_ENDS><CURRENT_LOCAL_PIVOT>\n" ++ xmlEscape ledger.hypothesis ++
      "\n</CURRENT_LOCAL_PIVOT></COMPACTED_STATE>"
  else
    "- Core Objective:\n" ++ Text.trim ledger.goal ++ "\n- Universal Truths Discovered:\n" ++
      claims ++ "\n- Dead Ends:\n" ++ deadEnds ++ "\n- Current Local Pivot:\n" ++ ledger.hypothesis

/-- `validate_ledger`. -/
def validateLedger (host : Host) (proposal goal source : String) (maxBytes : Nat) (hybrid : Bool) :
    Except String (Ledger × String) := do
  if (Text.trim proposal).isEmpty then .error "summary is empty"
  else if proposal.utf8ByteSize > maxBytes then .error "summary exceeds ledger byte budget"
  else
    let proposal := stripFence proposal
    match ← if hybrid then parseXmlSections proposal else parseHeadingSections proposal with
    | [_, claims, deadEnds, hypothesis] =>
      let sections := [Text.trim goal, claims, deadEnds, hypothesis]
      if [claims, deadEnds, hypothesis].any fun s => Text.trim s = "..." || Text.trim s = "…" then
        .error "summary reflection must not be an ellipsis placeholder"
      else if sections.any fun s => (Text.trim s).isEmpty then
        .error "all summary sections must be populated"
      else match (numberSet (Text.joinWith "\n" sections)).find? fun n =>
          !(numberSet source).contains n with
      | some number =>
        .error ("summary introduces numeric claim " ++ number ++ " absent from source")
      | none =>
        let ledger : Ledger := {
          goal, modelClaims := Text.lines claims, deadEnds := Text.lines deadEnds, hypothesis
          sourceSha256 := host.sha256 source, verification := "unverified_model_summary" }
        let rendered := renderLedger ledger hybrid
        if rendered.utf8ByteSize > maxBytes then
          .error "canonical ledger exceeds configured byte limit"
        else .ok (ledger, rendered)
    | _ => .error "summary requires four sections"

end Context

end StateDrivenAgent
