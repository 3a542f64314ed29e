import StateDrivenAgent.Json.Text
import StateDrivenAgent.Spec.Numerals

/-!
# The variables of the environment in the reference agent

`_expand` of `config.py` on a text: one `re.sub` of `\$\{([A-Z0-9_]+)(?::-([^}]*))?\}`, where a match
stands for the value of the variable its first group names, and else for its second group.

A match is the sign, a brace, a name with or without a default, and a brace
(`matches_envPattern_iff`); no brace closes inside it, so there is one way to match at a place
(`first_env_of_reference`).
-/

namespace StateDrivenAgent

namespace Python

open Matching Numerals

/-- `[A-Z0-9_]`. -/
def isNameChar (c : Char) : Bool := ('A' ≤ c && c ≤ 'Z') || Text.isAsciiDigit c || c = '_'

/-- `(?::-([^}]*))?`. -/
def defaultPattern : Pattern Char :=
  .opt (.seq (.one (· = ':')) (.seq (.one (· = '-')) (.many (.one (· ≠ '\x7d')))))

def envPattern : Pattern Char :=
  .seq (.one (· = '$')) (.seq (.one (· = '\x7b'))
    (.seq (someDigits isNameChar) (.seq defaultPattern (.one (· = '\x7d')))))

/-- `_ENV`. -/
def envSearch : Search Char where
  pattern := envPattern
  behind _ := true
  ahead _ := true

/-- `match.group(1)`. -/
def groupName (word : List Char) : List Char := (word.drop 2).takeWhile isNameChar

/-- `match.group(2) or ""`. -/
def groupDefault (word : List Char) : List Char := (((word.drop 2).dropWhile isNameChar).drop 2).dropLast

/-- What stands for a match. -/
def expansion (env : String → Option String) (word : List Char) : List Char :=
  ((env (.ofList (groupName word))).map String.toList).getD (groupDefault word)

/-- `_expand` of a text. -/
def expandString (env : String → Option String) (s : String) : String :=
  .ofList (envSearch.replaceAll (expansion env) s.toList)

/-! ## The matches -/

/-- A name with the rest up to the brace: nothing, or a default. -/
structure Reference (name default : List Char) : Prop where
  name_ne : name ≠ []
  name : AllOf isNameChar name
  shape : default = [] ∨ ∃ text, default = ':' :: '-' :: text ∧ '\x7d' ∉ text

theorem matches_defaultPattern_iff {w : List Char} :
    defaultPattern.Matches w ↔ w = [] ∨ ∃ text, w = ':' :: '-' :: text ∧ '\x7d' ∉ text := by
  rw [defaultPattern, matches_opt_iff]
  refine or_congr_right ?_
  constructor
  · intro h
    obtain ⟨_, _, hcolon, hrest, rfl⟩ := matches_seq_iff.1 h
    obtain ⟨_, text, hdash, htext, rfl⟩ := matches_seq_iff.1 hrest
    obtain ⟨c, hc, rfl⟩ := matches_one_iff.1 hcolon
    obtain ⟨d, hd, rfl⟩ := matches_one_iff.1 hdash
    refine ⟨text, by simp_all, fun hmem => ?_⟩
    simpa using allOf_of_matches htext rfl _ hmem
  · rintro ⟨text, rfl, htext⟩
    apply matches_seq_iff.2
    refine ⟨[':'], '-' :: text, .one (by decide), ?_, rfl⟩
    apply matches_seq_iff.2
    refine ⟨['-'], text, .one (by decide), matches_of_allOf fun c hc => ?_, rfl⟩
    rw [decide_eq_true_eq]
    rintro rfl
    exact htext hc

/-- What a match is. -/
theorem matches_envPattern_iff {w : List Char} : envPattern.Matches w ↔
    ∃ name default, Reference name default ∧
      w = '$' :: '\x7b' :: (name ++ (default ++ ['\x7d'])) := by
  constructor
  · intro h
    obtain ⟨_, _, hsign, h1, rfl⟩ := matches_seq_iff.1 h
    obtain ⟨_, _, hopen, h2, rfl⟩ := matches_seq_iff.1 h1
    obtain ⟨name, _, hname, h3, rfl⟩ := matches_seq_iff.1 h2
    obtain ⟨default, _, hdefault, hclose, rfl⟩ := matches_seq_iff.1 h3
    obtain ⟨c, hc, rfl⟩ := matches_one_iff.1 hsign
    obtain ⟨d, hd, rfl⟩ := matches_one_iff.1 hopen
    obtain ⟨e, he, rfl⟩ := matches_one_iff.1 hclose
    rw [decide_eq_true_eq] at hc hd he
    subst hc hd he
    obtain ⟨hne, hall⟩ := matches_someDigits_iff.1 hname
    exact ⟨name, default, ⟨hne, hall, matches_defaultPattern_iff.1 hdefault⟩, rfl⟩
  · rintro ⟨name, default, h, rfl⟩
    apply matches_seq_iff.2
    refine ⟨['$'], _, .one (by decide), ?_, rfl⟩
    apply matches_seq_iff.2
    refine ⟨['\x7b'], _, .one (by decide), ?_, rfl⟩
    apply matches_seq_iff.2
    refine ⟨name, _, matches_someDigits_iff.2 ⟨h.name_ne, h.name⟩, ?_, rfl⟩
    apply matches_seq_iff.2
    exact ⟨default, ['\x7d'], matches_defaultPattern_iff.2 h.shape, .one (by decide), rfl⟩

namespace Reference

variable {name default : List Char}

theorem not_mem (h : Reference name default) : '\x7d' ∉ name ++ default := by
  intro hmem
  rcases List.mem_append.1 hmem with hmem | hmem
  · exact absurd (h.name _ hmem) (by decide)
  · rcases h.shape with rfl | ⟨text, rfl, htext⟩
    · cases hmem
    · simp [htext] at hmem

/-- The default begins with no character of a name, so the name is read up to it. -/
theorem takeWhile_name (h : Reference name default) :
    (name ++ (default ++ ['\x7d'])).takeWhile isNameChar = name := by
  rw [List.takeWhile_append_of_pos h.name]
  rcases h.shape with rfl | ⟨text, rfl, -⟩ <;> simp [isNameChar, Text.isAsciiDigit]

theorem dropWhile_name (h : Reference name default) :
    (name ++ (default ++ ['\x7d'])).dropWhile isNameChar = default ++ ['\x7d'] := by
  rw [List.dropWhile_append_of_pos h.name]
  rcases h.shape with rfl | ⟨text, rfl, -⟩ <;> simp [isNameChar, Text.isAsciiDigit]

end Reference

theorem mem_rests_env_iff {cs rest : List Char} : rest ∈ envPattern.rests cs ↔
    ∃ name default, Reference name default ∧
      cs = '$' :: '\x7b' :: (name ++ (default ++ '\x7d' :: rest)) := by
  rw [Pattern.mem_rests_iff]
  constructor
  · rintro ⟨w, rfl, hw⟩
    obtain ⟨name, default, h, rfl⟩ := matches_envPattern_iff.1 hw
    exact ⟨name, default, h, by simp⟩
  · rintro ⟨name, default, h, rfl⟩
    exact ⟨_, by simp, matches_envPattern_iff.2 ⟨name, default, h, rfl⟩⟩

/-- There is one way to match at a place. -/
theorem first_env_of_reference {name default rest : List Char} (h : Reference name default)
    (previous : Option Char) :
    envSearch.first previous ('$' :: '\x7b' :: (name ++ (default ++ '\x7d' :: rest))) =
      some rest := by
  have hall : ∀ r ∈ envPattern.rests ('$' :: '\x7b' :: (name ++ (default ++ '\x7d' :: rest))),
      r = rest := by
    intro r hr
    obtain ⟨name', default', h', heq⟩ := mem_rests_env_iff.1 hr
    simp only [List.cons.injEq, true_and, ← List.append_assoc] at heq
    exact (Text.split_unique h.not_mem h'.not_mem heq).2.symm
  have hmem : rest ∈ envPattern.rests ('$' :: '\x7b' :: (name ++ (default ++ '\x7d' :: rest))) :=
    mem_rests_env_iff.2 ⟨name, default, h, rfl⟩
  cases hfirst : envSearch.first previous
      ('$' :: '\x7b' :: (name ++ (default ++ '\x7d' :: rest))) with
  | none => exact absurd rfl (List.find?_eq_none.1 hfirst rest hmem)
  | some r => rw [hall r (List.mem_of_find?_eq_some hfirst)]

theorem first_env_eq_none {cs : List Char} (previous : Option Char)
    (h : ∀ name default rest, Reference name default →
      cs ≠ '$' :: '\x7b' :: (name ++ (default ++ '\x7d' :: rest))) :
    envSearch.first previous cs = none := by
  apply List.find?_eq_none.2
  intro rest hrest
  obtain ⟨name, default, href, heq⟩ := mem_rests_env_iff.1 hrest
  exact absurd heq (h name default rest href)

end Python

end StateDrivenAgent
