import Mathlib.Data.List.TakeWhile
import StateDrivenAgent.Go.Json
import StateDrivenAgent.Json.Grammar
import StateDrivenAgent.Verify.Canonical
import StateDrivenAgent.Verify.Sources

/-!
# The canonical encoding in two runtimes

Go lets its library escape U+2028 and U+2029 and replaces the two escapes in the encoded text, where
a backslash of the string stands as two. A string with the letters of the escape itself is therefore
spoiled (`quoted`), and the encodings agree on all values without such a string
(`canonical_agrees_iff`). Numbers and the order of properties agree everywhere.
-/

namespace StateDrivenAgent

open Text

namespace Go

/-! ## Strings -/

def pattern (d : Char) : List Char := ['\\', 'u', '2', '0', '2', d]

/-- A string with the letters of the escape of U+2028 or U+2029. -/
def Literal (s : String) : Prop :=
  pattern '8' <:+: s.toList ∨ pattern '9' <:+: s.toList

instance : DecidablePred Literal :=
  fun s => inferInstanceAs (Decidable (pattern '8' <:+: s.toList ∨ pattern '9' <:+: s.toList))

/-- What `quote` makes of the characters of a string. -/
def quoted : List Char → List Char
  | '\\' :: 'u' :: '2' :: '0' :: '2' :: '8' :: cs => '\\' :: '\u2028' :: quoted cs
  | '\\' :: 'u' :: '2' :: '0' :: '2' :: '9' :: cs => '\\' :: '\u2029' :: quoted cs
  | c :: cs => escapeChar c ++ quoted cs
  | [] => []

theorem replaceFrom_cons (p q : List Char) (c : Char) (cs : List Char) :
    replaceFrom p q 0 (c :: cs) = if p.isPrefixOf (c :: cs) then
      q ++ replaceFrom p q (p.length - 1) cs else c :: replaceFrom p q 0 cs := by
  rw [replaceFrom, if_neg (lt_irrefl 0)]

theorem replaceFrom_skip (p q : List Char) (as bs : List Char) :
    replaceFrom p q as.length (as ++ bs) = replaceFrom p q 0 bs := by
  induction as with
  | nil => rfl
  | cons a as ih =>
    rw [List.length_cons, List.cons_append, replaceFrom, if_pos (Nat.succ_pos _),
      Nat.add_sub_cancel, ih]

/-- The escape itself is replaced. -/
theorem replaceFrom_pattern (d e : Char) (cs : List Char) :
    replaceFrom (pattern d) [e] 0 (pattern d ++ cs) = e :: replaceFrom (pattern d) [e] 0 cs := by
  have hskip := replaceFrom_skip (pattern d) [e] ['u', '2', '0', '2', d] cs
  rw [pattern, List.cons_append, replaceFrom_cons, if_pos (by simp [List.isPrefixOf])]
  exact congrArg (e :: ·) hskip

/-- Only a backslash starts an escape. -/
theorem replaceFrom_of_ne {c : Char} (hc : c ≠ '\\') (d e : Char) (cs : List Char) :
    replaceFrom (pattern d) [e] 0 (c :: cs) = c :: replaceFrom (pattern d) [e] 0 cs := by
  rw [replaceFrom_cons, if_neg]
  simp [pattern, List.isPrefixOf, Ne.symm hc]

/-- A backslash stays unless the letters of the escape follow. -/
theorem replaceFrom_backslash {d : Char} {cs : List Char}
    (h : ¬ ['u', '2', '0', '2', d] <+: cs) (e : Char) :
    replaceFrom (pattern d) [e] 0 ('\\' :: cs) = '\\' :: replaceFrom (pattern d) [e] 0 cs := by
  rw [replaceFrom_cons, if_neg]
  rw [List.isPrefixOf_iff_prefix, pattern, List.cons_prefix_cons]
  exact fun hp => h hp.2

theorem not_prefix_cons {d c : Char} (hc : c ≠ 'u') (cs : List Char) :
    ¬ ['u', '2', '0', '2', d] <+: c :: cs := by
  rw [List.cons_prefix_cons]
  exact fun h => hc h.1.symm

theorem hexDigit_ne (n : Nat) : hexDigit n ≠ '\\' := by
  by_cases h : n < 16
  · have hall : ∀ n < 16, hexDigit n ≠ '\\' := by decide
    exact hall n h
  · rw [hexDigit, List.getD_eq_getElem?_getD, List.getElem?_eq_none (by simpa using h)]
    decide

/-- The forms of an escaped character that is not a backslash. -/
theorem escapeChar_forms {c : Char} (hc : c ≠ '\\') :
    escapeChar c = [c] ∨ (∃ x, x ≠ 'u' ∧ x ≠ '\\' ∧ escapeChar c = ['\\', x]) ∨
      ∃ a b, a ≠ '\\' ∧ b ≠ '\\' ∧ escapeChar c = ['\\', 'u', '0', '0', a, b] := by
  have hpair : ∀ x, x ≠ 'u' → x ≠ '\\' → ['\\', x] = escapeChar c →
      ∃ x, x ≠ 'u' ∧ x ≠ '\\' ∧ escapeChar c = ['\\', x] :=
    fun x h₁ h₂ h₃ => ⟨x, h₁, h₂, h₃.symm⟩
  unfold escapeChar at hpair ⊢
  split_ifs at hpair ⊢
  · exact .inr (.inl (hpair _ (by decide) (by decide) rfl))
  · exact .inr (.inl (hpair _ (by decide) (by decide) rfl))
  · exact .inr (.inl (hpair _ (by decide) (by decide) rfl))
  · exact .inr (.inl (hpair _ (by decide) (by decide) rfl))
  · exact .inr (.inl (hpair _ (by decide) (by decide) rfl))
  · exact .inr (.inl (hpair _ (by decide) (by decide) rfl))
  · exact .inr (.inr ⟨_, _, hexDigit_ne _, hexDigit_ne _, rfl⟩)
  · exact .inl rfl

/-- Replacing passes over an escaped character that is not a backslash. -/
theorem replaceFrom_escapeChar {c : Char} (hc : c ≠ '\\') {d : Char} (e : Char)
    (cs : List Char) : replaceFrom (pattern d) [e] 0 (escapeChar c ++ cs) =
      escapeChar c ++ replaceFrom (pattern d) [e] 0 cs := by
  rcases escapeChar_forms hc with h | ⟨x, hu, hx, h⟩ | ⟨a, b, ha, hb, h⟩
  · rw [h, List.singleton_append, replaceFrom_of_ne hc, List.singleton_append]
  · rw [h, List.cons_append, List.singleton_append, replaceFrom_backslash (not_prefix_cons hu _),
      replaceFrom_of_ne hx]
    rfl
  · have hzero : ¬ ['u', '2', '0', '2', d] <+: 'u' :: '0' :: '0' :: a :: b :: cs := by
      simp [List.cons_prefix_cons]
    rw [h]
    simp only [List.cons_append, List.nil_append]
    rw [replaceFrom_backslash hzero, replaceFrom_of_ne (by decide), replaceFrom_of_ne (by decide),
      replaceFrom_of_ne (by decide), replaceFrom_of_ne ha, replaceFrom_of_ne hb]

/-- The encoded characters with the closing quote, and after the first replacement. -/
def escaped (cs : List Char) : List Char := cs.flatMap escape ++ ['"']

def halfway (cs : List Char) : List Char := replaceFrom (pattern '8') ['\u2028'] 0 (escaped cs)

theorem escaped_cons (c : Char) (cs : List Char) : escaped (c :: cs) = escape c ++ escaped cs := by
  rw [escaped, List.flatMap_cons, List.append_assoc, escaped]

theorem escape_plain {c : Char} (h₁ : c ≠ '\u2028') (h₂ : c ≠ '\u2029') :
    escape c = escapeChar c := by
  rw [escape, if_neg h₁, if_neg h₂]

theorem escapeChar_backslash : escapeChar '\\' = ['\\', '\\'] := by decide

/-- Characters that are neither escaped nor made by a replacement. -/
def Bare (x : Char) : Prop := x ≠ '\\' ∧ x ≠ '"' ∧ x ≠ '\u2028'

instance (x : Char) : Decidable (Bare x) := inferInstanceAs (Decidable (_ ∧ _))

theorem escaped_bare {x : Char} (hx : Bare x) {cs rest : List Char} (h : escaped cs = x :: rest) :
    ∃ cs', cs = x :: cs' ∧ rest = escaped cs' := by
  obtain ⟨hslash, hquote, -⟩ := hx
  cases cs with
  | nil => exact absurd (List.cons.inj h).1.symm hquote
  | cons c cs =>
    rw [escaped_cons] at h
    by_cases h₁ : c = '\u2028'
    · rw [h₁] at h
      exact absurd (List.cons.inj h).1.symm hslash
    by_cases h₂ : c = '\u2029'
    · rw [h₂] at h
      exact absurd (List.cons.inj h).1.symm hslash
    rw [escape_plain h₁ h₂] at h
    by_cases hc : c = '\\'
    · rw [hc, escapeChar_backslash] at h
      exact absurd (List.cons.inj h).1.symm hslash
    rcases escapeChar_forms hc with he | ⟨y, -, -, he⟩ | ⟨a, b, -, -, he⟩ <;> rw [he] at h
    · obtain ⟨rfl, rfl⟩ := List.cons.inj h
      exact ⟨cs, rfl, rfl⟩
    · exact absurd (List.cons.inj h).1.symm hslash
    · exact absurd (List.cons.inj h).1.symm hslash

/-- The letters of an escape are bare, so that they come from the string. -/
theorem bare_prefix {H : List Char → List Char} (hH : ∀ x cs rest, Bare x → H cs = x :: rest →
    ∃ cs', cs = x :: cs' ∧ rest = H cs') {d : Char} (hd : Bare d) {cs : List Char}
    (h : ['u', '2', '0', '2', d] <+: H cs) :
    ∃ cs', cs = 'u' :: '2' :: '0' :: '2' :: d :: cs' := by
  obtain ⟨rest, h₀⟩ := h
  obtain ⟨cs₁, h₁, h₀⟩ := hH 'u' cs _ (by decide) h₀.symm
  obtain ⟨cs₂, h₂, h₀⟩ := hH '2' cs₁ _ (by decide) h₀.symm
  obtain ⟨cs₃, h₃, h₀⟩ := hH '0' cs₂ _ (by decide) h₀.symm
  obtain ⟨cs₄, h₄, h₀⟩ := hH '2' cs₃ _ (by decide) h₀.symm
  obtain ⟨cs₅, h₅, -⟩ := hH d cs₄ _ hd h₀.symm
  exact ⟨cs₅, by rw [h₁, h₂, h₃, h₄, h₅]⟩

theorem halfway_separator (cs : List Char) : halfway ('\u2028' :: cs) = '\u2028' :: halfway cs := by
  rw [halfway, escaped_cons, escape, if_pos rfl]
  exact replaceFrom_pattern '8' '\u2028' (escaped cs)

theorem halfway_paragraph (cs : List Char) :
    halfway ('\u2029' :: cs) = pattern '9' ++ halfway cs := by
  have hnine : ¬ ['u', '2', '0', '2', '8'] <+: 'u' :: '2' :: '0' :: '2' :: '9' :: escaped cs := by
    simp [List.cons_prefix_cons]
  rw [halfway, escaped_cons, escape, if_neg (by decide), if_pos rfl]
  simp only [List.cons_append, List.nil_append]
  rw [replaceFrom_backslash hnine, replaceFrom_of_ne (by decide), replaceFrom_of_ne (by decide),
    replaceFrom_of_ne (by decide), replaceFrom_of_ne (by decide), replaceFrom_of_ne (by decide)]
  rfl

theorem halfway_backslash {cs : List Char} (h : ¬ ['u', '2', '0', '2', '8'] <+: escaped cs) :
    halfway ('\\' :: cs) = '\\' :: '\\' :: halfway cs := by
  rw [halfway, escaped_cons, escape_plain (by decide) (by decide), escapeChar_backslash]
  simp only [List.cons_append, List.nil_append]
  rw [replaceFrom_backslash (not_prefix_cons (by decide) _), replaceFrom_backslash h]
  rfl

theorem escaped_letters (d : Char) (hd : Bare d) (h : d ≠ '\u2029') (hd' : escapeChar d = [d])
    (cs : List Char) : escaped ('u' :: '2' :: '0' :: '2' :: d :: cs) =
      'u' :: '2' :: '0' :: '2' :: d :: escaped cs := by
  rw [escaped_cons, escaped_cons, escaped_cons, escaped_cons, escaped_cons, escape_plain hd.2.2 h,
    hd']
  rfl

/-- The letters of the escape of U+2028 after a backslash. -/
theorem halfway_literal (cs : List Char) :
    halfway ('\\' :: 'u' :: '2' :: '0' :: '2' :: '8' :: cs) = '\\' :: '\u2028' :: halfway cs := by
  have hletters := escaped_letters '8' (by decide) (by decide) (by decide) cs
  rw [halfway, escaped_cons, escape_plain (by decide) (by decide), escapeChar_backslash, hletters]
  simp only [List.cons_append, List.nil_append]
  rw [replaceFrom_backslash (not_prefix_cons (by decide) _)]
  exact congrArg ('\\' :: ·) (replaceFrom_pattern '8' '\u2028' (escaped cs))

theorem halfway_escapeChar {c : Char} (hc : c ≠ '\\') (h₁ : c ≠ '\u2028') (h₂ : c ≠ '\u2029')
    (cs : List Char) : halfway (c :: cs) = escapeChar c ++ halfway cs := by
  rw [halfway, escaped_cons, escape_plain h₁ h₂, replaceFrom_escapeChar hc]
  rfl

theorem halfway_bare (x : Char) (cs rest : List Char) (hx : Bare x) (h : halfway cs = x :: rest) :
    ∃ cs', cs = x :: cs' ∧ rest = halfway cs' := by
  obtain ⟨hslash, hquote, hsep⟩ := hx
  cases cs with
  | nil =>
    have hnil : halfway [] = ['"'] := by decide
    rw [hnil] at h
    exact absurd (List.cons.inj h).1.symm hquote
  | cons c cs =>
    by_cases h₁ : c = '\u2028'
    · rw [h₁, halfway_separator] at h
      exact absurd (List.cons.inj h).1.symm hsep
    by_cases h₂ : c = '\u2029'
    · rw [h₂, halfway_paragraph] at h
      exact absurd (List.cons.inj h).1.symm hslash
    by_cases hc : c = '\\'
    · rw [hc, halfway, escaped_cons, escape_plain (by decide) (by decide), escapeChar_backslash,
        List.cons_append, List.singleton_append,
        replaceFrom_backslash (not_prefix_cons (by decide) _)] at h
      exact absurd (List.cons.inj h).1.symm hslash
    rw [halfway_escapeChar hc h₁ h₂] at h
    rcases escapeChar_forms hc with he | ⟨y, -, -, he⟩ | ⟨a, b, -, -, he⟩ <;> rw [he] at h
    · obtain ⟨rfl, rfl⟩ := List.cons.inj h
      exact ⟨cs, rfl, rfl⟩
    · exact absurd (List.cons.inj h).1.symm hslash
    · exact absurd (List.cons.inj h).1.symm hslash

/-- The second replacement, on what the first one left. -/
theorem replaceFrom_halfway (cs : List Char) :
    replaceFrom (pattern '9') ['\u2029'] 0 (halfway cs) = quoted cs ++ ['"'] := by
  induction cs using quoted.induct with
  | case1 cs ih =>
    have hsep := not_prefix_cons (d := '9') (c := '\u2028') (by decide) (halfway cs)
    rw [halfway_literal, replaceFrom_backslash hsep, replaceFrom_of_ne (by decide), ih, quoted]
    rfl
  | case2 cs ih =>
    -- the first replacement keeps both backslashes, the second one takes the last
    have hnine : ¬ ['u', '2', '0', '2', '8'] <+: escaped ('u' :: '2' :: '0' :: '2' :: '9' :: cs) := by
      rw [escaped_letters '9' (by decide) (by decide) (by decide)]
      simp [List.cons_prefix_cons]
    have hletters : halfway ('u' :: '2' :: '0' :: '2' :: '9' :: cs) =
        'u' :: '2' :: '0' :: '2' :: '9' :: halfway cs := by
      rw [halfway_escapeChar, halfway_escapeChar, halfway_escapeChar, halfway_escapeChar,
        halfway_escapeChar]
      all_goals first | rfl | decide
    rw [halfway_backslash hnine, hletters, replaceFrom_backslash (not_prefix_cons (by decide) _)]
    rw [show '\\' :: 'u' :: '2' :: '0' :: '2' :: '9' :: halfway cs = pattern '9' ++ halfway cs from
      rfl, replaceFrom_pattern, ih, quoted]
    rfl
  | case3 c cs hliteral₁ hliteral₂ ih =>
    have hstep : quoted (c :: cs) = escapeChar c ++ quoted cs := by
      rw [quoted]
      · exact hliteral₁
      · exact hliteral₂
    rw [hstep, List.append_assoc, ← ih]
    by_cases h₁ : c = '\u2028'
    · rw [h₁, halfway_separator, replaceFrom_of_ne (by decide)]
      rfl
    by_cases h₂ : c = '\u2029'
    · rw [h₂, halfway_paragraph, replaceFrom_pattern]
      rfl
    by_cases hc : c = '\\'
    · subst hc
      have height : ¬ ['u', '2', '0', '2', '8'] <+: escaped cs := by
        intro hp
        obtain ⟨cs', rfl⟩ := bare_prefix (fun _ _ _ hx h => escaped_bare hx h) (by decide) hp
        exact hliteral₁ cs' rfl rfl
      have hnine : ¬ ['u', '2', '0', '2', '9'] <+: halfway cs := by
        intro hp
        obtain ⟨cs', rfl⟩ := bare_prefix halfway_bare (by decide) hp
        exact hliteral₂ cs' rfl rfl
      rw [halfway_backslash height, replaceFrom_backslash (not_prefix_cons (by decide) _),
        replaceFrom_backslash hnine, escapeChar_backslash]
      rfl
    · rw [halfway_escapeChar hc h₁ h₂, replaceFrom_escapeChar hc]
  | case4 => decide

theorem quote_eq (s : String) : quote s = .ofList ('"' :: (quoted s.toList ++ ['"'])) := by
  have hquote : ∀ (d e : Char) (cs : List Char), replaceFrom (pattern d) [e] 0 ('"' :: cs) =
      '"' :: replaceFrom (pattern d) [e] 0 cs := fun d e cs => replaceFrom_of_ne (by decide) d e cs
  have hencode : (encode s).toList = '"' :: escaped s.toList := by
    rw [encode, String.toList_ofList]
    rfl
  have h₈ : "\\u2028".toList = pattern '8' := by decide
  have h₉ : "\\u2029".toList = pattern '9' := by decide
  have hsep : "\u2028".toList = ['\u2028'] := by decide
  have hpar : "\u2029".toList = ['\u2029'] := by decide
  have hfirst : replace (encode s) "\\u2028" "\u2028" = .ofList ('"' :: halfway s.toList) := by
    rw [replace, h₈, hsep, hencode, hquote, halfway]
  rw [quote, hfirst, replace, h₉, hpar, String.toList_ofList, hquote, replaceFrom_halfway]

/-! ## Separators count the spoiled strings -/

def isSeparator (c : Char) : Bool := c = '\u2028' || c = '\u2029'

theorem isSeparator_ascii {c : Char} (h : c.toNat ≤ 0x7f) : isSeparator c = false := by
  rw [Bool.eq_false_iff]
  intro hsep
  rw [isSeparator, Bool.or_eq_true, decide_eq_true_eq, decide_eq_true_eq] at hsep
  rcases hsep with rfl | rfl <;> exact absurd h (by decide)

/-- The separators of a text. -/
def separators (cs : List Char) : Nat := cs.countP isSeparator

theorem separators_append (as bs : List Char) :
    separators (as ++ bs) = separators as + separators bs := List.countP_append

theorem separators_cons (c : Char) (cs : List Char) :
    separators (c :: cs) = separators [c] + separators cs := separators_append [c] cs

theorem separators_ascii {cs : List Char} (h : ∀ c ∈ cs, c.toNat ≤ 0x7f) : separators cs = 0 := by
  rw [separators, List.countP_eq_zero]
  intro c hc
  rw [isSeparator_ascii (h c hc)]
  exact Bool.false_ne_true

theorem separators_escapeChar (c : Char) : separators (escapeChar c) = separators [c] := by
  by_cases hc : c.toNat ≤ 0x7f
  · rw [separators_ascii, separators_ascii]
    · simpa using hc
    · rw [← pythonEscape_of_ascii hc]
      exact pythonEscape_ascii c
  · rw [escapeChar_of_not_ascii hc]

theorem separators_flatMap (cs : List Char) :
    separators (cs.flatMap escapeChar) = separators cs := by
  induction cs with
  | nil => rfl
  | cons c cs ih =>
    rw [List.flatMap_cons, separators_append, separators_escapeChar, ih, ← separators_cons]

/-- A string in which no letters of an escape follow a backslash at the start, by its tail. -/
theorem infix_cons_iff {d c : Char} {cs : List Char}
    (h : ¬ pattern d <+: c :: cs) : pattern d <:+: c :: cs ↔ pattern d <:+: cs := by
  rw [List.infix_cons_iff, or_iff_right h]

theorem not_start {d c : Char} {cs : List Char}
    (h : ∀ cs', c = '\\' → cs = 'u' :: '2' :: '0' :: '2' :: d :: cs' → False) :
    ¬ pattern d <+: c :: cs := by
  rintro ⟨rest, hrest⟩
  obtain ⟨hc, hcs⟩ := List.cons.inj hrest
  exact h rest hc.symm hcs.symm

theorem separators_literal {d : Char} (hd : d.toNat ≤ 0x7f) (e : Char)
    (he : isSeparator e = true) (cs : List Char) :
    separators (pattern d ++ cs) = separators cs ∧
      separators ('\\' :: e :: cs) = separators cs + 1 := by
  constructor
  · have hascii : ∀ c ∈ pattern d, c.toNat ≤ 0x7f := by
      intro c hc
      simp only [pattern, List.mem_cons, List.not_mem_nil, or_false] at hc
      rcases hc with rfl | rfl | rfl | rfl | rfl | rfl
      all_goals first | exact hd | decide
    rw [separators_append, separators_ascii hascii, Nat.zero_add]
  · rw [separators_cons, separators_cons e, separators, separators, List.countP_singleton,
      List.countP_singleton, he, isSeparator_ascii (by decide), if_neg Bool.false_ne_true,
      if_pos rfl]
    omega

/-- `quote` adds separators, unless the string has no letters of an escape. -/
theorem separators_quoted (cs : List Char) : separators cs ≤ separators (quoted cs) ∧
    (separators (quoted cs) = separators cs →
      ¬ pattern '8' <:+: cs ∧ ¬ pattern '9' <:+: cs) := by
  induction cs using quoted.induct with
  | case1 cs ih =>
    obtain ⟨hfrom, hto⟩ := separators_literal (d := '8') (by decide) '\u2028' (by decide) cs
    have hto' := (separators_literal (d := '8') (by decide) '\u2028' (by decide) (quoted cs)).2
    rw [show '\\' :: 'u' :: '2' :: '0' :: '2' :: '8' :: cs = pattern '8' ++ cs from rfl, hfrom,
      show quoted (pattern '8' ++ cs) = '\\' :: '\u2028' :: quoted cs from by
        rw [pattern]; exact quoted.eq_1 cs, hto']
    exact ⟨by omega, fun h => by omega⟩
  | case2 cs ih =>
    obtain ⟨hfrom, hto⟩ := separators_literal (d := '9') (by decide) '\u2029' (by decide) cs
    have hto' := (separators_literal (d := '9') (by decide) '\u2029' (by decide) (quoted cs)).2
    rw [show '\\' :: 'u' :: '2' :: '0' :: '2' :: '9' :: cs = pattern '9' ++ cs from rfl, hfrom,
      show quoted (pattern '9' ++ cs) = '\\' :: '\u2029' :: quoted cs from by
        rw [pattern]; exact quoted.eq_2 cs, hto']
    exact ⟨by omega, fun h => by omega⟩
  | case3 c cs h₁ h₂ ih =>
    rw [quoted.eq_3 c cs h₁ h₂, separators_append, separators_escapeChar, separators_cons c,
      infix_cons_iff (not_start h₁), infix_cons_iff (not_start h₂)]
    exact ⟨by omega, fun h => ih.2 (by omega)⟩
  | case4 => exact ⟨Nat.le_refl _, fun _ => by decide⟩

theorem quoted_of_not_literal {cs : List Char} (h₈ : ¬ pattern '8' <:+: cs)
    (h₉ : ¬ pattern '9' <:+: cs) : quoted cs = cs.flatMap escapeChar := by
  induction cs using quoted.induct with
  | case1 cs ih => exact absurd (List.prefix_append (pattern '8') cs).isInfix h₈
  | case2 cs ih => exact absurd (List.prefix_append (pattern '9') cs).isInfix h₉
  | case3 c cs h₁ h₂ ih =>
    rw [infix_cons_iff (not_start h₁)] at h₈
    rw [infix_cons_iff (not_start h₂)] at h₉
    rw [quoted.eq_3 c cs h₁ h₂, List.flatMap_cons, ih h₈ h₉]
  | case4 => rfl

/-! ## Texts of the two runtimes -/

/-- Go's text `t` and Rust's text `u` are the same exactly under `P`, and separators show it. -/
structure Spoiled (P : Prop) (t u : String) : Prop where
  le : separators u.toList ≤ separators t.toList
  plain : separators t.toList = separators u.toList → P
  same : P → t = u

namespace Spoiled
variable {P Q : Prop} {t u t' u' : String}

theorem refl (t : String) : Spoiled True t t := ⟨Nat.le_refl _, fun _ => trivial, fun _ => rfl⟩

theorem append (h : Spoiled P t u) (h' : Spoiled Q t' u') :
    Spoiled (P ∧ Q) (t ++ t') (u ++ u') := by
  have hle := h.le
  have hle' := h'.le
  refine ⟨?_, ?_, fun hPQ => by rw [h.same hPQ.1, h'.same hPQ.2]⟩
  · rw [String.toList_append, String.toList_append, separators_append, separators_append]
    omega
  · intro heq
    rw [String.toList_append, String.toList_append, separators_append, separators_append] at heq
    exact ⟨h.plain (by omega), h'.plain (by omega)⟩

theorem congr (h : Spoiled P t u) (hPQ : P ↔ Q) : Spoiled Q t u :=
  ⟨h.le, fun heq => hPQ.1 (h.plain heq), fun hQ => h.same (hPQ.2 hQ)⟩

theorem iff (h : Spoiled P t u) : t = u ↔ P := ⟨fun htu => h.plain (by rw [htu]), h.same⟩

theorem prepend (s : String) (h : Spoiled P t u) : Spoiled P (s ++ t) (s ++ u) :=
  ((refl s).append h).congr (Iff.of_eq (true_and P))

theorem postpend (s : String) (h : Spoiled P t u) : Spoiled P (t ++ s) (u ++ s) :=
  (h.append (refl s)).congr (Iff.of_eq (and_true P))

/-- Joining texts pair by pair. -/
theorem joinWith (sep : String) {α : Type} {P : α → Prop} {go rust : α → String} {xs : List α}
    (h : ∀ x ∈ xs, Spoiled (P x) (go x) (rust x)) : Spoiled (∀ x ∈ xs, P x)
      (joinWith sep (xs.map go)) (joinWith sep (xs.map rust)) := by
  induction xs with
  | nil => exact (refl _).congr (by simp)
  | cons x xs ih =>
    obtain ⟨hx, hxs⟩ := List.forall_mem_cons.1 h
    cases xs with
    | nil =>
      have hone : ∀ t, Text.joinWith sep [t] = t := fun t => by simp [Text.joinWith]
      rw [List.map_singleton, List.map_singleton, hone, hone]
      exact hx.congr (by simp)
    | cons y ys =>
      have hjoin : ∀ f : α → String, Text.joinWith sep ((x :: y :: ys).map f) =
          f x ++ (sep ++ Text.joinWith sep ((y :: ys).map f)) := by
        intro f
        rw [List.map_cons, List.map_cons, Text.joinWith, String.intercalate_cons_cons,
          String.append_assoc]
        rfl
      rw [hjoin, hjoin]
      exact (hx.append ((ih hxs).prepend sep)).congr List.forall_mem_cons.symm

end Spoiled

theorem quote_spoiled (s : String) : Spoiled (¬ Literal s) (quote s) (jsonString s) := by
  have hmark : separators ['"'] = 0 := by decide
  have hquote : separators (quote s).toList = separators (quoted s.toList) := by
    rw [quote_eq, String.toList_ofList, separators_cons, separators_append, hmark]
    omega
  have hjson : separators (jsonString s).toList = separators s.toList := by
    rw [jsonString, String.toList_ofList, List.cons_append, separators_cons, separators_append,
      separators_flatMap, hmark]
    omega
  obtain ⟨hle, hplain⟩ := separators_quoted s.toList
  refine ⟨by omega, fun heq => not_or.2 (hplain (by omega)), fun h => ?_⟩
  obtain ⟨h₈, h₉⟩ := not_or.1 h
  rw [quote_eq, quoted_of_not_literal h₈ h₉]
  rfl

/-! ## Numbers -/

open Decimal Identity

theorem replaceFirst_append {c : Char} {p q pre rest : List Char} (h : c ∉ pre) :
    replaceFirst (c :: p) q (pre ++ rest) = pre ++ replaceFirst (c :: p) q rest := by
  induction pre with
  | nil => rfl
  | cons d pre ih =>
    obtain ⟨hd, hpre⟩ := not_or.1 (List.mem_cons.not.1 h)
    rw [List.cons_append, replaceFirst, if_neg (by simp [List.isPrefixOf, hd]), ih hpre]
    rfl

theorem replaceFirst_of_not_mem {c : Char} {p q cs : List Char} (h : c ∉ cs) :
    replaceFirst (c :: p) q cs = cs := by
  have happend : replaceFirst (c :: p) q (cs ++ []) = cs ++ replaceFirst (c :: p) q [] :=
    replaceFirst_append h
  rwa [List.append_nil, replaceFirst, List.append_nil] at happend

theorem allDigits_not_mem {ds : List Char} (h : AllDigits ds) : 'e' ∉ ds :=
  fun he => absurd (h 'e' he) (by decide)

theorem placePoint_not_mem {ds : List Char} (h : AllDigits ds) (point : Int) :
    'e' ∉ placePoint ds point [] := by
  have hds := allDigits_not_mem h
  have htake : 'e' ∉ ds.take point.toNat := fun he => hds (List.mem_of_mem_take he)
  have hdrop : 'e' ∉ ds.drop point.toNat := fun he => hds (List.mem_of_mem_drop he)
  rw [placePoint]
  split_ifs <;> simp [hds, htake, hdrop]

theorem scientific_not_mem {ds : List Char} (h : AllDigits ds) : 'e' ∉ scientific ds := by
  have hds := allDigits_not_mem h
  have htake : 'e' ∉ ds.take 1 := fun he => hds (List.mem_of_mem_take he)
  have hdrop : 'e' ∉ ds.drop 1 := fun he => hds (List.mem_of_mem_drop he)
  rw [scientific]
  split_ifs
  · exact hds
  · simp only [List.mem_append, List.mem_cons, not_or]
    exact ⟨htake, by decide, hdrop⟩

/-- Replacing `e-0` and `e+0` takes the zero off an exponent of one digit. -/
theorem replaceFirst_exponent (sign : Char) (hsign : sign = '-' ∨ sign = '+') (n : Nat) :
    replaceFirst ['e', '+', '0'] ['e', '+'] (replaceFirst ['e', '-', '0'] ['e', '-']
      ('e' :: sign :: if (Nat.toDigits 10 n).length < 2 then '0' :: Nat.toDigits 10 n
        else Nat.toDigits 10 n)) = 'e' :: sign :: Nat.toDigits 10 n := by
  have hdigits := allDigits_not_mem (allDigits_toDigits n)
  obtain ⟨d, ds, hds⟩ := List.exists_cons_of_ne_nil (Nat.toDigits_ne_nil (b := 10) (n := n))
  have hhead : ¬ (Nat.toDigits 10 n).length < 2 → d ≠ '0' := by
    intro hlen hd
    refine hlen ?_
    rw [toDigits_lead (by rw [hds, hd, List.head?_cons])]
    decide
  rw [hds] at hdigits hhead ⊢
  split
  next =>
    rcases hsign with rfl | rfl
    · have hfirst : replaceFirst ['e', '-', '0'] ['e', '-'] ('e' :: '-' :: '0' :: d :: ds) =
          'e' :: '-' :: d :: ds := by
        rw [replaceFirst, if_pos (by simp [List.isPrefixOf])]
        rfl
      rw [hfirst, replaceFirst, if_neg (by simp [List.isPrefixOf]),
        replaceFirst_of_not_mem (by simpa using hdigits)]
    · have hfirst : replaceFirst ['e', '-', '0'] ['e', '-'] ('e' :: '+' :: '0' :: d :: ds) =
          'e' :: '+' :: '0' :: d :: ds := by
        rw [replaceFirst, if_neg (by simp [List.isPrefixOf]),
          replaceFirst_of_not_mem (by simpa using hdigits)]
      rw [hfirst, replaceFirst, if_pos (by simp [List.isPrefixOf])]
      rfl
  next hlen =>
    have hd := Ne.symm (hhead hlen)
    have htail : 'e' ∉ sign :: d :: ds := by
      rw [List.mem_cons, not_or]
      exact ⟨by rcases hsign with rfl | rfl <;> decide, hdigits⟩
    rw [replaceFirst, if_neg (by simp [List.isPrefixOf, hd]), replaceFirst_of_not_mem htail,
      replaceFirst, if_neg (by simp [List.isPrefixOf, hd]), replaceFirst_of_not_mem htail]

section number
variable {host : Host}

/-- The text `write` gives a nonzero double. -/
def floatText (host : Host) (f : F64) : List Char :=
  replaceFirst ['e', '+', '0'] ['e', '+'] (replaceFirst ['e', '-', '0'] ['e', '-']
    (if Placed f then formatFixed host f else formatExp host f))

/-- Both runtimes write a double alike. -/
theorem canonicalNumber_eq_floatText (hp : host.Prints) {f : F64} (hf : f.isZero = false) :
    canonicalNumber host (.float f) = .ok (.ofList (floatText host f)) := by
  obtain ⟨p, h⟩ := Python.exists_digits hp hf
  have hall := h.decomposed.all
  have hsign : (if startsWith (host.floatText f) "-" = true then "-" else "") =
      String.ofList (if f.negative then ['-'] else []) := by
    rw [h.text, startsWith_minus, h.negative hf]
    cases f.negative <;> rfl
  have hminus : 'e' ∉ (if f.negative = true then ['-'] else []) := by
    cases f.negative <;> simp
  rcases hparts : decimalParts (.ofList ((host.floatText f).toList.dropWhile (· = '-'))) with
    ⟨digits, point⟩
  have hshort : shortest host f = (digits, point) := hparts
  have hdtoa : Python.dtoa host f = (digits, point) := hparts
  rw [hdtoa] at hall
  rw [canonicalNumber_parts hf hsign hparts, floatText, formatFixed, formatExp, hshort]
  dsimp only
  by_cases hplaced : Placed f
  · have hplain : 'e' ∉ (if f.negative = true then ['-'] else []) ++ placePoint digits point [] := by
      rw [List.mem_append, not_or]
      exact ⟨hminus, placePoint_not_mem hall point⟩
    rw [if_pos hplaced, if_pos hplaced, replaceFirst_of_not_mem hplain,
      replaceFirst_of_not_mem hplain]
  · have hpre : 'e' ∉ (if f.negative = true then ['-'] else []) ++ scientific digits := by
      rw [List.mem_append, not_or]
      exact ⟨hminus, scientific_not_mem hall⟩
    have hmagnitude : (toString (point - 1).natAbs).toList = Nat.toDigits 10 (point - 1).natAbs :=
      Nat.toList_repr
    have hexp := replaceFirst_exponent (if point - 1 < 0 then '-' else '+')
      (by split <;> simp) (point - 1).natAbs
    have htext := toString_int_toList (point - 1)
    rw [if_neg hplaced, if_neg hplaced, hmagnitude, replaceFirst_append hpre,
      replaceFirst_append hpre, hexp, htext]
    by_cases hneg : point - 1 < 0
    · have hplus : ¬ 0 ≤ point - 1 := by omega
      rw [if_neg hplus, if_pos hneg, if_pos hneg]
      simp
    · have hplus : 0 ≤ point - 1 := by omega
      rw [if_pos hplus, if_neg hneg, if_neg hneg]
      simp

/-- The parts of a number token. -/
structure Parts (token sign whole rest : List Char) : Prop where
  token : token = sign ++ (whole ++ rest)
  sign : sign = [] ∨ sign = ['-']
  ne : whole ≠ []
  digits : AllDigits whole
  lead : whole.head? = some '0' → whole.length = 1
  rest : rest = [] ∨ ∃ c cs, rest = c :: cs ∧ (c = '.' ∨ c = 'e' ∨ c = 'E')

theorem isFraction_head {rest : List Char} (h : isFraction rest = true) :
    rest = [] ∨ ∃ c cs, rest = c :: cs ∧ (c = '.' ∨ c = 'e' ∨ c = 'E') := by
  cases rest with
  | nil => exact .inl rfl
  | cons c cs =>
    refine .inr ⟨c, cs, rfl, ?_⟩
    by_cases hc : c = '.'
    · exact .inl hc
    · rw [isFraction, isExponent, Bool.and_eq_true, Bool.or_eq_true, decide_eq_true_eq,
        decide_eq_true_eq] at h
      · exact .inr h.1
      · intro cs' heq
        exact hc (List.cons.inj heq).1

theorem exists_parts {token : List Char} (h : isValidNumber token = true) :
    ∃ sign whole rest, Parts token sign whole rest := by
  simp only [isValidNumber, Bool.and_eq_true, Bool.not_eq_true', Bool.or_eq_true,
    decide_eq_true_eq, List.isEmpty_eq_false_iff] at h
  obtain ⟨⟨hne, hlead⟩, hrest⟩ := h
  set unsigned := if token.head? = some '-' then token.drop 1 else token with hunsigned
  have hlead' : (unsigned.takeWhile isDigit).head? = some '0' →
      (unsigned.takeWhile isDigit).length = 1 := fun h => hlead.resolve_left fun hc => hc h
  refine ⟨if token.head? = some '-' then ['-'] else [], unsigned.takeWhile isDigit,
    unsigned.dropWhile isDigit, ?_, ?_, hne, fun c hc => List.mem_takeWhile_imp hc, hlead',
    isFraction_head hrest⟩
  · rw [List.takeWhile_append_dropWhile, hunsigned]
    split
    next hhead =>
      cases token with
      | nil => cases hhead
      | cons c cs =>
        rw [List.head?_cons, Option.some.injEq] at hhead
        rw [hhead]
        rfl
    next => rfl
  · split
    · exact .inr rfl
    · exact .inl rfl

section parts
variable {token sign whole rest : List Char} (h : Parts token sign whole rest)
include h

theorem Parts.unsigned : token.dropWhile (· = '-') = whole ++ rest := by
  obtain ⟨c, cs, hcs⟩ := List.exists_cons_of_ne_nil h.ne
  have hc : c ≠ '-' := isDigit_ne (h.digits c (by rw [hcs]; exact List.mem_cons_self)) rfl
  rw [h.token, hcs]
  rcases h.sign with rfl | rfl <;> simp [hc]

theorem Parts.isInteger_iff : isInteger token = true ↔ rest = [] := by
  rw [isInteger, Bool.not_eq_true', Bool.eq_false_iff, ne_eq, List.any_eq_true]
  constructor
  · intro hnone
    rcases h.rest with hrest | ⟨c, cs, hrest, hc⟩
    · exact hrest
    · refine absurd ⟨c, ?_, ?_⟩ hnone
      · simp [h.token, hrest]
      · simpa [or_assoc] using hc
  · rintro hrest ⟨c, hmem, hc⟩
    rw [h.token, hrest, List.append_nil, List.mem_append] at hmem
    have hpunct : c = '.' ∨ c = 'e' ∨ c = 'E' := by simpa [or_assoc] using hc
    rcases hmem with hmem | hmem
    · rcases h.sign with hs | hs
      · rw [hs] at hmem
        cases hmem
      · rw [hs, List.mem_singleton] at hmem
        rw [hmem] at hpunct
        revert hpunct
        decide
    · have hdigit := h.digits c hmem
      rcases hpunct with rfl | rfl | rfl <;> cases hdigit

/-- A token without point and exponent is a plain numeral. -/
theorem Parts.numeral (hrest : rest = []) : ∃ m : Numeral, m.plain = true ∧ m.text = token := by
  refine ⟨⟨decide (sign = ['-']), whole, [], none, h.ne, h.digits, h.lead, allDigits_nil⟩, rfl, ?_⟩
  have htoken := h.token
  rw [hrest, List.append_nil] at htoken
  rw [Numeral.text, Numeral.unsigned_of_plain rfl]
  refine Eq.trans ?_ htoken.symm
  rcases h.sign with hs | hs <;> simp [hs]

/-- Any other token is read as a double. -/
theorem Parts.tokenRaw (hrest : rest ≠ []) : tokenRaw token = .f64 (F64.ofToken token) := by
  have hall : ¬ (whole ++ rest).all isDigit = true := by
    rcases h.rest with hnil | ⟨c, cs, hcs, hc⟩
    · exact absurd hnil hrest
    · intro hall
      rw [List.all_eq_true] at hall
      have hdigit := hall c (by simp [hcs])
      rcases hc with rfl | rfl | rfl <;> cases hdigit
  rw [StateDrivenAgent.tokenRaw, h.unsigned]
  exact if_neg hall

end parts

/-- What `write` makes of a double. -/
theorem write_float (hp : host.Prints) (f : F64) :
    (if f.isZero = true then .ok "0" else .ok (.ofList (floatText host f))) =
      canonicalNumber host (.float f) := by
  cases hf : f.isZero with
  | true => rw [if_pos rfl, canonicalNumber_zero hf]
  | false => rw [if_neg Bool.false_ne_true, canonicalNumber_eq_floatText hp hf]

theorem writeNumber_ok (hp : host.Prints) {token : List Char} {t : String}
    (h : writeNumber host token = .ok t) :
    (isInteger token = true → ∃ i, parseInt64 token = some i ∧ i.natAbs < 2 ^ 53) ∧
      canonicalNumber host (.float (F64.ofRat (read token))) = .ok t := by
  rw [writeNumber] at h
  split at h
  · cases h
  next hinteger =>
    have hfloat : parseFloat token = some (F64.ofRat (read token)) := by
      rw [parseFloat] at h ⊢
      split at h
      next hnone =>
        split at hnone
        · cases h
        · cases hnone
      next hsome =>
        split at hsome
        · cases hsome
        next hrange => rw [if_neg hrange]
    rw [hfloat] at h
    refine ⟨fun hint => ?_, ?_⟩
    · rw [hint, Bool.true_and] at hinteger
      cases hi : parseInt64 token with
      | none => simp [hi] at hinteger
      | some i =>
        refine ⟨i, rfl, ?_⟩
        simp only [hi, Option.all_some, Bool.or_eq_true, decide_eq_true_eq, not_or] at hinteger
        omega
    · rw [← write_float hp]
      exact h

/-- The sign of a zero is not written. -/
theorem canonicalNumber_ofToken (token : List Char) :
    canonicalNumber host (.float (F64.ofToken token)) =
      canonicalNumber host (.float (F64.ofRat (read token))) := by
  cases hzero : (F64.ofRat (read token)).isZero with
  | true =>
    have htoken : (F64.ofToken token).isZero = true := by
      rw [F64.ofToken]
      simp only [hzero, Bool.true_and]
      split
      · rfl
      · exact hzero
    rw [canonicalNumber_zero hzero, canonicalNumber_zero htoken]
  | false => rw [F64.ofToken_eq hzero]

/-- On a number token the two runtimes agree. -/
theorem writeNumber_agrees (hp : host.Prints) {token : List Char} (hvalid : isValidNumber token = true)
    {t : String} (ht : writeNumber host token = .ok t) {v : Value}
    (hv : strict (tokenRaw token) = .ok v) :
    ∃ n, v = .num n ∧ canonicalNumber host n = .ok t := by
  obtain ⟨sign, whole, rest, hparts⟩ := exists_parts hvalid
  obtain ⟨hint, hfloat⟩ := writeNumber_ok hp ht
  by_cases hrest : rest = []
  · obtain ⟨m, hplain, rfl⟩ := hparts.numeral hrest
    obtain ⟨i, hi, hsmall⟩ := hint (hparts.isInteger_iff.2 hrest)
    have hi' : (if m.negative = true then -(digits m.whole : Int) else digits m.whole) = i := by
      rw [parseInt64, m.dropWhile_minus_text, Numeral.unsigned_of_plain hplain] at hi
      simp only [m.head?_text] at hi
      by_cases hrange : I64.inRange (if m.negative = true then -(digits m.whole : Int)
          else digits m.whole) = true
      · rw [if_pos hrange] at hi
        exact Option.some.inj hi
      · rw [if_neg hrange] at hi
        cases hi
    have hread : read m.text = i := by
      rw [m.read_text, Numeral.value, Numeral.magnitude_of_plain hplain, ← hi']
      split <;> push_cast <;> rfl
    rw [hread, F64.ofRat_intCast] at hfloat
    rw [tokenRaw_plain hplain] at hv
    have hnumber : ∀ j : Int, j = i → canonicalNumber host (.int j) = .ok t := by
      rintro j rfl
      rw [canonicalNumber_int hsmall, hfloat]
    split at hv
    next hneg =>
      rw [if_pos hneg] at hi'
      split at hv
      next hzero =>
        rw [strict, Except.ok.injEq] at hv
        refine ⟨_, hv.symm, ?_⟩
        have hz : i = 0 := by omega
        rw [hz, F64.ofInt_zero, canonicalNumber_zero (f := F64.zero) (by decide)] at hfloat
        rw [canonicalNumber_zero (by decide), hfloat]
      next =>
        rw [if_pos (by omega), strict, Except.ok.injEq] at hv
        exact ⟨_, hv.symm, hnumber _ hi'⟩
    next hneg =>
      rw [if_neg hneg] at hi'
      rw [if_pos (by omega), strict, if_neg (by omega), Except.ok.injEq] at hv
      exact ⟨_, hv.symm, hnumber _ hi'⟩
  · rw [hparts.tokenRaw hrest, strict, Except.ok.injEq] at hv
    exact ⟨_, hv.symm, (canonicalNumber_ofToken token).trans hfloat⟩

end number

/-! ## Whole documents -/

/-- Induction with the elements and properties of a tree as members. -/
theorem spelling_induct {P : Spelling → Prop} (null : P .null) (bool : ∀ b, P (.bool b))
    (num : ∀ token, P (.num token)) (str : ∀ s, P (.str s))
    (arr : ∀ items, (∀ x ∈ items, P x) → P (.arr items))
    (obj : ∀ fields, (∀ f ∈ fields, P f.2) → P (.obj fields)) : ∀ x : Spelling, P x
  | .null => null
  | .bool b => bool b
  | .num token => num token
  | .str s => str s
  | .arr items => arr items fun x _ => spelling_induct null bool num str arr obj x
  | .obj fields => obj fields fun f _ => spelling_induct null bool num str arr obj f.2
termination_by x => sizeOf x
decreasing_by
  · rename_i hx
    have hlt := List.sizeOf_lt_of_mem hx
    simp only [Spelling.arr.sizeOf_spec]
    omega
  · rename_i hf
    have hlt := List.sizeOf_lt_of_mem hf
    obtain ⟨k, x⟩ := f
    simp only [Prod.mk.sizeOf_spec] at hlt
    simp only [Spelling.obj.sizeOf_spec]
    omega

theorem validNumbersItems_iff {xs : List Spelling} :
    validNumbersItems xs = true ↔ ∀ x ∈ xs, validNumbers x = true := by
  induction xs with
  | nil => simp [validNumbersItems]
  | cons x xs ih => simp [validNumbersItems, ih]

theorem validNumbersFields_iff {xs : List (String × Spelling)} :
    validNumbersFields xs = true ↔ ∀ f ∈ xs, validNumbers f.2 = true := by
  induction xs with
  | nil => simp [validNumbersFields]
  | cons f xs ih => simp [validNumbersFields, ih]

/-- Property by property, what the strict reader makes of an object. -/
theorem strictFields_ok {xs : List (String × Spelling)} {out fields : List (String × Value)}
    (h : StateDrivenAgent.strictFields out (Spelling.rawFields xs) = .ok fields) : ∃ gs, fields = out ++ gs ∧
      List.Forall₂ (fun f g => f.1 = g.1 ∧ strict f.2.raw = .ok g.2) xs gs := by
  induction xs generalizing out with
  | nil =>
    rw [Spelling.rawFields, StateDrivenAgent.strictFields, Except.ok.injEq] at h
    exact ⟨[], by rw [← h, List.append_nil], .nil⟩
  | cons f xs ih =>
    obtain ⟨k, x⟩ := f
    rw [Spelling.rawFields, StateDrivenAgent.strictFields] at h
    split at h
    · cases h
    next =>
      obtain ⟨v, hv, h⟩ := bind_ok h
      obtain ⟨gs, rfl, hgs⟩ := ih h
      exact ⟨(k, v) :: gs, by simp, .cons ⟨rfl, hv⟩ hgs⟩

theorem strictItems_ok {xs : List Spelling} {vs : List Value}
    (h : StateDrivenAgent.strictItems (Spelling.rawItems xs) = .ok vs) :
    List.Forall₂ (fun x v => strict x.raw = .ok v) xs vs := by
  induction xs generalizing vs with
  | nil =>
    rw [Spelling.rawItems, StateDrivenAgent.strictItems, Except.ok.injEq] at h
    rw [← h]
    exact .nil
  | cons x xs ih =>
    rw [Spelling.rawItems, StateDrivenAgent.strictItems] at h
    obtain ⟨v, hv, h⟩ := bind_ok h
    obtain ⟨rest, hrest, h⟩ := bind_ok h
    rw [← Except.ok.inj h]
    exact .cons hv (ih hrest)

theorem mapM_ok {α β ε : Type} {f : α → Except ε β} {xs : List α} {ys : List β}
    (h : xs.mapM f = .ok ys) : ∀ x ∈ xs, ∃ y, f x = .ok y := by
  induction xs generalizing ys with
  | nil => simp
  | cons x xs ih =>
    rw [List.mapM_cons] at h
    obtain ⟨y, hy, h⟩ := bind_ok h
    obtain ⟨rest, hrest, -⟩ := bind_ok h
    exact List.forall_mem_cons.2 ⟨⟨y, hy⟩, ih hrest⟩

section documents
variable {host : Host}

/-- Every string and property name is free of the letters of the escapes. -/
abbrev Free (v : Value) : Prop := v.EveryText fun s => ¬ Literal s

/-- What the induction says of a tree: where Go writes it, Rust writes its value. -/
def Agrees (host : Host) (x : Spelling) : Prop :=
  ∀ v t, validNumbers x = true → strict x.raw = .ok v → write host x = .ok t →
    ∃ u, canonical host v = .ok u ∧ Spoiled (Free v) t u

/-- An element: its value and its two texts. -/
structure Element where
  value : Value
  go : String
  rust : String

theorem exists_elements {xs : List Spelling} (ih : ∀ x ∈ xs, Agrees host x)
    (hn : ∀ x ∈ xs, validNumbers x = true) {vs : List Value} {ts : List String}
    (hv : List.Forall₂ (fun x v => strict x.raw = .ok v) xs vs)
    (ht : writeItems host xs = .ok ts) : ∃ es : List Element, vs = es.map Element.value ∧
      ts = es.map Element.go ∧ canonicalItems host vs = .ok (es.map Element.rust) ∧
      ∀ e ∈ es, Spoiled (Free e.value) e.go e.rust := by
  induction hv generalizing ts with
  | nil =>
    rw [writeItems, Except.ok.injEq] at ht
    exact ⟨[], rfl, ht.symm, rfl, by simp⟩
  | @cons x v xs vs hx _ ihxs =>
    obtain ⟨hx₁, hxs₁⟩ := List.forall_mem_cons.1 ih
    obtain ⟨hx₂, hxs₂⟩ := List.forall_mem_cons.1 hn
    rw [writeItems] at ht
    obtain ⟨t, htext, ht⟩ := bind_ok ht
    obtain ⟨rest, hrest, ht⟩ := bind_ok ht
    obtain ⟨u, hu, hspoiled⟩ := hx₁ v t hx₂ hx htext
    obtain ⟨es, rfl, rfl, hes, hall⟩ := ihxs hxs₁ hxs₂ hrest
    refine ⟨⟨v, t, u⟩ :: es, rfl, (Except.ok.inj ht).symm, ?_, List.forall_mem_cons.2 ⟨hspoiled, hall⟩⟩
    rw [canonicalItems, hu, hes]
    rfl

theorem exists_properties {xs : List (String × Spelling)} (ih : ∀ f ∈ xs, Agrees host f.2)
    (hn : ∀ f ∈ xs, validNumbers f.2 = true) {gs : List (String × Value)}
    (hv : List.Forall₂ (fun f g => f.1 = g.1 ∧ strict f.2.raw = .ok g.2) xs gs)
    (ht : ∀ f ∈ writeFields host xs, ∃ t, f.2 = .ok t) : ∃ es : List (String × Element),
      gs = es.map (fun e => (e.1, e.2.value)) ∧
      writeFields host xs = es.map (fun e => (e.1, .ok e.2.go)) ∧
      canonicalFields host gs = .ok (es.map fun e => (e.1, e.2.rust)) ∧
      ∀ e ∈ es, Spoiled (Free e.2.value) e.2.go e.2.rust := by
  induction hv with
  | nil => exact ⟨[], rfl, rfl, rfl, by simp⟩
  | @cons f g xs gs hf _ ihxs =>
    obtain ⟨k, x⟩ := f
    obtain ⟨k', v⟩ := g
    obtain ⟨rfl, hx⟩ : k = k' ∧ strict x.raw = .ok v := hf
    obtain ⟨hx₁, hxs₁⟩ := List.forall_mem_cons.1 ih
    obtain ⟨hx₂, hxs₂⟩ := List.forall_mem_cons.1 hn
    rw [writeFields] at ht ⊢
    obtain ⟨⟨t, htext⟩, hrest⟩ := List.forall_mem_cons.1 ht
    obtain ⟨u, hu, hspoiled⟩ := hx₁ v t hx₂ hx htext
    obtain ⟨es, rfl, hwrite, hes, hall⟩ := ihxs hxs₁ hxs₂ hrest
    refine ⟨(k, ⟨v, t, u⟩) :: es, rfl, ?_, ?_, List.forall_mem_cons.2 ⟨hspoiled, hall⟩⟩
    · have htext : write host x = .ok t := htext
      rw [hwrite, htext]
      rfl
    · rw [canonicalFields, hu, hes]
      rfl

theorem mapM_map_ok {α β γ ε : Type} {f : β → Except ε γ} {g : α → β} {k : α → γ} {xs : List α}
    (h : ∀ x ∈ xs, f (g x) = .ok (k x)) : (xs.map g).mapM f = .ok (xs.map k) := by
  induction xs with
  | nil => rfl
  | cons x xs ih =>
    obtain ⟨hx, hxs⟩ := List.forall_mem_cons.1 h
    rw [List.map_cons, List.mapM_cons, hx, ih hxs]
    rfl

/-- Where Go writes a tree, Rust writes its value, with the same text but for spoiled strings. -/
theorem agrees (hp : host.Prints) (x : Spelling) : Agrees host x := by
  induction x using spelling_induct with
  | null =>
    intro v t _ hv ht
    rw [Spelling.raw, strict, Except.ok.injEq] at hv
    rw [write, Except.ok.injEq] at ht
    rw [← hv, ← ht]
    exact ⟨_, rfl, Spoiled.refl _⟩
  | bool b =>
    intro v t _ hv ht
    rw [Spelling.raw, strict, Except.ok.injEq] at hv
    rw [write, Except.ok.injEq] at ht
    rw [← hv, ← ht]
    exact ⟨_, rfl, Spoiled.refl _⟩
  | num token =>
    intro v t hn hv ht
    obtain ⟨n, rfl, hu⟩ := writeNumber_agrees hp hn ht hv
    exact ⟨t, hu, Spoiled.refl t⟩
  | str s =>
    intro v t _ hv ht
    rw [Spelling.raw, strict, Except.ok.injEq] at hv
    rw [write, Except.ok.injEq] at ht
    rw [← hv, ← ht]
    exact ⟨_, rfl, quote_spoiled s⟩
  | arr items ih =>
    intro v t hn hv ht
    rw [Spelling.raw, strict] at hv
    obtain ⟨vs, hvs, hv⟩ := bind_ok hv
    rw [write] at ht
    obtain ⟨ts, hts, ht⟩ := bind_ok ht
    obtain ⟨es, rfl, rfl, hes, hall⟩ :=
      exists_elements ih (validNumbersItems_iff.1 hn) (strictItems_ok hvs) hts
    rw [← Except.ok.inj hv, ← Except.ok.inj ht]
    refine ⟨"[" ++ joinWith "," (es.map Element.rust) ++ "]", ?_, ?_⟩
    · rw [canonical, hes]
      rfl
    · refine (((Spoiled.joinWith "," hall).prepend "[").postpend "]").congr ?_
      rw [Free, Value.EveryText, Value.everyTextItems_iff, List.forall_mem_map]
  | obj fields ih =>
    intro v t hn hv ht
    rw [Spelling.raw, strict] at hv
    obtain ⟨gs, hgs, hv⟩ := bind_ok hv
    obtain ⟨gs', rfl, hfields⟩ := strictFields_ok hgs
    rw [write] at ht
    obtain ⟨ts, hts, ht⟩ := bind_ok ht
    have hwritten : ∀ f ∈ writeFields host fields, ∃ t, f.2 = .ok t := by
      intro f hf
      obtain ⟨text, htext⟩ := mapM_ok hts f ((List.perm_insertionSort _ _).mem_iff.2 hf)
      obtain ⟨t, htext, -⟩ := bind_ok htext
      exact ⟨t, htext⟩
    obtain ⟨es, rfl, hwrite, hes, hall⟩ :=
      exists_properties ih (validNumbersFields_iff.1 hn) hfields hwritten
    -- both runtimes sort the same names
    let sorted := sortFields es
    have hsort : ∀ {β : Type} (f : String × Element → β),
        (es.map fun e => (e.1, f e)).insertionSort (fun a b => utf16 a.1 ≤ utf16 b.1) =
          sorted.map fun e => (e.1, f e) := by
      intro β f
      exact (List.map_insertionSort KeyLe _ (fun e => (e.1, f e)) es fun _ _ _ _ => Iff.rfl).symm
    have hgo : ts = sorted.map fun e => quote e.1 ++ ":" ++ e.2.go := by
      rw [hwrite, hsort, mapM_map_ok (k := fun e => quote e.1 ++ ":" ++ e.2.go)] at hts
      · exact (Except.ok.inj hts).symm
      · exact fun _ _ => rfl
    rw [← Except.ok.inj hv, ← Except.ok.inj ht, hgo]
    refine ⟨"\x7b" ++ joinWith "," (sorted.map fun e => jsonString e.1 ++ ":" ++ e.2.rust) ++ "\x7d",
      ?_, ?_⟩
    · rw [canonical, hes]
      show Except.ok ("\x7b" ++ joinWith "," (((es.map fun e => (e.1, e.2.rust)).insertionSort
        (fun a b => utf16 a.1 ≤ utf16 b.1)).map fun f => jsonString f.1 ++ ":" ++ f.2) ++ "\x7d") = _
      rw [hsort, List.map_map]
      rfl
    · have hperm : ∀ e, e ∈ sorted ↔ e ∈ es := fun e => (sortFields_perm es).mem_iff
      refine (((Spoiled.joinWith "," (P := fun e => ¬ Literal e.1 ∧ Free e.2.value) ?_).prepend
        "\x7b").postpend "\x7d").congr ?_
      · intro e he
        exact ((quote_spoiled e.1).postpend ":").append (hall e ((hperm e).1 he))
      · rw [Free, Value.EveryText, Value.everyTextFields_iff, List.forall_mem_map]
        exact forall_congr' fun e => imp_congr_left (hperm e)

/-! ## Reading the text again -/

mutual

/-- The value of a tree, each number as the nearest double. -/
def binary64 : Spelling → Value
  | .null => .null
  | .bool b => .bool b
  | .str s => .str s
  | .num token => .num (.float (F64.ofRat (read token)))
  | .arr items => .arr (binary64Items items)
  | .obj fields => .obj (binary64Fields fields)

def binary64Items : List Spelling → List Value
  | [] => []
  | x :: xs => binary64 x :: binary64Items xs

def binary64Fields : List (String × Spelling) → List (String × Value)
  | [] => []
  | (k, x) :: xs => (k, binary64 x) :: binary64Fields xs

end

/-- `t` is a JSON text and stands for the value `v`. -/
def ReadsAs (t : String) (v : Value) : Prop :=
  ∃ y : Spelling, y.Grammatical ∧ t = .ofList y.text ∧ (binary64 y).same v = true

theorem binary64Fields_length (xs : List (String × Spelling)) :
    (binary64Fields xs).length = xs.length := by
  induction xs with
  | nil => rfl
  | cons f xs ih => rw [binary64Fields, List.length_cons, List.length_cons, ih]

theorem sameFields_of_forall {xs : List (String × Spelling)} {fields : List (String × Value)}
    (h : ∀ f ∈ xs, ∃ v, lookup f.1 fields = some v ∧ (binary64 f.2).same v = true) :
    Value.sameFields (binary64Fields xs) fields = true := by
  induction xs with
  | nil => rfl
  | cons f xs ih =>
    obtain ⟨⟨v, hv, hsame⟩, hxs⟩ := List.forall_mem_cons.1 h
    rw [binary64Fields, Value.sameFields, hv, Bool.and_eq_true]
    exact ⟨hsame, ih hxs⟩

theorem sameItems_of_forall {items : List Value} {xs : List Spelling}
    (h : List.Forall₂ (fun v x => spell host v = .ok x) items xs)
    (ih : ∀ v ∈ items, ∀ x, spell host v = .ok x → (binary64 x).same v = true) :
    Value.sameItems (binary64Items xs) items = true := by
  induction h with
  | nil => rfl
  | cons hx _ ihxs =>
    obtain ⟨hv, hvs⟩ := List.forall_mem_cons.1 ih
    rw [binary64Items, Value.sameItems, Bool.and_eq_true]
    exact ⟨hv _ hx, ihxs hvs⟩

theorem binary64_number (hp : host.Prints) {n : Number} (hr : n.InRange) {t : String}
    (h : canonicalNumber host n = .ok t) : (F64.ofRat (read t.toList)).toRat = n.toRat := by
  rw [← toRat_asF64 hr h]
  have h := canonicalNumber_of_ok h
  by_cases hf : n.asF64.isZero = true
  · rw [(canonicalNumber_eq_zero_iff hp h).2 hf, show "0".toList = ['0'] from rfl, read_zero,
      F64.toRat_of_isZero ofRat_zero, F64.toRat_of_isZero hf]
  · obtain ⟨p, m, hprinted⟩ := exists_printed hp (Bool.eq_false_iff.2 hf) h
    rw [hprinted.read]

/-- The spelled document stands for the value it was made from. -/
theorem spell_binary64 (hp : host.Prints) : ∀ v : Value, v.valid = true → ∀ x,
    spell host v = .ok x → (binary64 x).same v = true := by
  intro v
  induction v using Value.induct_mem with
  | num n =>
    intro hv x hx
    obtain ⟨t, ht, rfl⟩ := spell_num hx
    rw [binary64, Value.same, decide_eq_true_eq]
    exact binary64_number hp (Value.valid_num.1 hv) ht
  | arr items ih =>
    intro hv x hx
    obtain ⟨xs, hxs, rfl⟩ := spell_arr hx
    rw [Value.valid_arr] at hv
    rw [binary64, Value.same]
    exact sameItems_of_forall (spellItems_ok_iff.1 hxs) fun v hmem => ih v hmem (hv v hmem)
  | obj fields ih =>
    intro hv x hx
    obtain ⟨xs, hxs, rfl⟩ := spell_obj hx
    obtain ⟨hnodup, hall⟩ := Value.valid_obj.1 hv
    have hlength : (sortFields xs).length = fields.length := by
      have hkeys := congrArg List.length (keys_of_spellFields hxs)
      rw [List.length_map, List.length_map] at hkeys
      rw [(sortFields_perm xs).length_eq, hkeys]
    rw [binary64, Value.same, Bool.and_eq_true, decide_eq_true_eq, binary64Fields_length]
    refine ⟨hlength, sameFields_of_forall fun f hf => ?_⟩
    obtain ⟨v, hmem, hspell⟩ := exists_value hxs ((sortFields_perm xs).mem_iff.1 hf)
    exact ⟨v, lookup_of_mem hnodup hmem, ih _ hmem (hall _ hmem) _ hspell⟩
  | _ =>
    intro _ x hx
    rw [spell, Except.ok.injEq] at hx
    rw [← hx]
    simp [binary64, Value.same]

/-! ## The two runtimes on one text -/

/-- Go's decoder and `serde_json` follow the JSON grammar: the tokens Go delivers as numbers are
numbers, and a text both accept is the same tree to both. -/
structure Decodes (host : Host) (decoder : String → Except String Spelling) : Prop where
  numbers : ∀ {text x}, decoder text = .ok x → validNumbers x = true
  agrees : ∀ {text x r}, decoder text = .ok x → host.reader text = .ok r → r = x.raw

theorem strictJson_ok {decoder : String → Except String Spelling} {text : String} {x : Spelling}
    (h : strictJson host decoder text = .ok x) :
    decoder text = .ok x ∧ ∃ t, canonicalV2 host x = .ok t := by
  rw [strictJson] at h
  obtain ⟨-, -, h⟩ := bind_ok h
  obtain ⟨y, hy, h⟩ := bind_ok h
  split at h
  · obtain ⟨t, ht, h⟩ := bind_ok h
    obtain rfl : y = x := Except.ok.inj h
    exact ⟨hy, t, ht⟩
  · cases h

/-- A decoder of texts without white space. -/
def exactDecoder (text : String) : Except String Spelling :=
  match Spelling.parse text.toList with
  | some x => if validNumbers x then .ok x else .error "invalid number literal"
  | none => .error "invalid character"

theorem exactDecoder_decodes : Decodes exactHost exactDecoder where
  numbers {text x} h := by
    rw [exactDecoder] at h
    split at h
    · split at h
      next hvalid => rwa [← Except.ok.inj h]
      next => cases h
    · cases h
  agrees {text x r} h hr := by
    have hr : readExact text.toList = .ok r := hr
    rw [exactDecoder] at h
    rw [readExact] at hr
    split at h
    next y hy =>
      rw [hy] at hr
      dsimp only at hr
      split at h
      · split at hr
        · rw [← Except.ok.inj h, ← Except.ok.inj hr]
        · cases hr
      · cases h
    next => cases h

theorem exactDecoder_text {x : Spelling} (hx : x.Tokens) (hn : validNumbers x = true) :
    exactDecoder (.ofList x.text) = .ok x := by
  rw [exactDecoder, String.toList_ofList, Spelling.parse_text hx]
  exact if_pos hn

theorem strictJson_text {x : Spelling} (hx : x.Tokens) (hn : validNumbers x = true)
    (hdistinct : distinct x = true)
    (hescapes : checkEscapes false (x.text.flatMap String.utf8EncodeChar) = .ok ()) {t : String}
    (ht : canonicalV2 exactHost x = .ok t) :
    strictJson exactHost exactDecoder (.ofList x.text) = .ok x := by
  rw [strictJson, String.toList_ofList, hescapes, exactDecoder_text hx hn]
  show (if distinct x = true then _ else _) = Except.ok x
  rw [if_pos hdistinct, ht]
  rfl

theorem parseStrictJson_text {x : Spelling} (hx : x.Tokens) (hdepth : x.depth ≤ 127) :
    parseStrictJson exactHost (.ofList x.text) = strict x.raw := by
  have hread : exactHost.reader (.ofList x.text) = readExact (String.ofList x.text).toList := rfl
  rw [parseStrictJson, hread, String.toList_ofList, readExact_text hx, if_pos hdepth]
  rfl

end documents

end Go

end StateDrivenAgent
