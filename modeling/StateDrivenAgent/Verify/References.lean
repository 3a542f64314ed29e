import Mathlib.Tactic.SplitIfs
import StateDrivenAgent.Spec.Markup

/-!
# References and text

`xml_unescape` reads the text of the grammar, where a plus sign may stand before the digits of a
numeric reference: `u32::from_str_radix` and `str::parse` take one.
-/

namespace StateDrivenAgent

namespace Markup

open Context Text

/-! ## References -/

theorem digits_iff {radix n : Nat} {ds : List Char} : Digits radix ds n ↔
    ds ≠ [] ∧ (ds.mapM (digitValue radix)).map (fun values =>
      values.foldl (fun n d => radix * n + d) 0) = some n := by
  constructor
  · rintro ⟨hne, values, hvalues, hn⟩
    exact ⟨hne, by rw [hvalues, Option.map_some, hn]⟩
  · rintro ⟨hne, h⟩
    obtain ⟨values, hvalues, hn⟩ := Option.map_eq_some_iff.1 h
    exact ⟨hne, values, hvalues, hn⟩

theorem Digits.head {radix n : Nat} {c : Char} {ds : List Char} (h : Digits radix (c :: ds) n) :
    (digitValue radix c).isSome = true := by
  obtain ⟨-, values, hvalues, -⟩ := h
  rw [List.mapM_cons] at hvalues
  obtain ⟨v, hv, -⟩ := Option.bind_eq_some_iff.1 hvalues
  rw [hv]
  rfl

theorem digitValue_plus (radix : Nat) : digitValue radix '+' = none := by
  simp [digitValue, isAsciiDigit]

theorem digitValue_x (radix : Nat) : digitValue radix 'x' = none := by
  simp [digitValue, isAsciiDigit]

/-- The number of digits without a sign. -/
def unsigned (radix : Nat) (ds : List Char) : Option Nat :=
  if ds = [] then none
  else ((ds.mapM (digitValue radix)).map
    fun ds => ds.foldl (fun n d => radix * n + d) 0).filter (· < 2 ^ 32)

theorem unsigned_iff {radix n : Nat} {ds : List Char} :
    unsigned radix ds = some n ↔ Digits radix ds n ∧ n < 2 ^ 32 := by
  rw [digits_iff]
  unfold unsigned
  by_cases hds : ds = []
  · simp [hds]
  · rw [if_neg hds, Option.filter_eq_some_iff]
    simp [hds]

theorem parseU32_plus (radix : Nat) (ds : List Char) :
    parseU32 radix (.ofList ('+' :: ds)) = unsigned radix ds := by
  unfold parseU32 unsigned
  rw [String.toList_ofList]
  rfl

theorem parseU32_of_head {radix : Nat} {cs : List Char} (h : cs.head? ≠ some '+') :
    parseU32 radix (.ofList cs) = unsigned radix cs := by
  unfold parseU32 unsigned
  rw [String.toList_ofList]
  cases cs with
  | nil => rfl
  | cons c cs =>
    have hc : c ≠ '+' := by simpa using h
    simp [hc]

/-- `from_str_radix` takes a plus sign before the digits. -/
theorem parseU32_iff {radix n : Nat} {cs : List Char} : parseU32 radix (.ofList cs) = some n ↔
    (∃ sign ds, cs = sign ++ ds ∧ Sign true sign ∧ Digits radix ds n) ∧ n < 2 ^ 32 := by
  have hhead : ∀ {ds : List Char}, Digits radix ds n → ds.head? ≠ some '+' := by
    intro ds hd hplus
    cases ds with
    | nil => cases hplus
    | cons c ds =>
      obtain rfl : c = '+' := by simpa using hplus
      have := hd.head
      rw [digitValue_plus] at this
      cases this
  constructor
  · intro h
    by_cases hplus : cs.head? = some '+'
    · obtain ⟨ds, rfl⟩ := List.head?_eq_some_iff.1 hplus
      rw [parseU32_plus, unsigned_iff] at h
      exact ⟨⟨['+'], ds, rfl, .inr ⟨rfl, rfl⟩, h.1⟩, h.2⟩
    · rw [parseU32_of_head hplus, unsigned_iff] at h
      exact ⟨⟨[], cs, rfl, .inl rfl, h.1⟩, h.2⟩
  · rintro ⟨⟨sign, ds, rfl, hs, hd⟩, hn⟩
    rcases hs with rfl | ⟨-, rfl⟩
    · rw [List.nil_append, parseU32_of_head (hhead hd), unsigned_iff]
      exact ⟨hd, hn⟩
    · rw [List.singleton_append, parseU32_plus, unsigned_iff]
      exact ⟨hd, hn⟩

theorem lt_of_isValidChar {n : Nat} (h : n.isValidChar) : n < 2 ^ 32 := by
  rcases h with h | ⟨-, h⟩ <;> omega

/-- A numeric reference: the number of its digits is that of a character. -/
theorem numeric_iff {radix : Nat} {cs : List Char} {n : Nat} :
    (parseU32 radix (.ofList cs)).filter Nat.isValidChar = some n ↔
      (∃ sign ds, cs = sign ++ ds ∧ Sign true sign ∧ Digits radix ds n) ∧ n.isValidChar := by
  rw [Option.filter_eq_some_iff, parseU32_iff]
  constructor
  · rintro ⟨⟨hd, -⟩, hn⟩
    exact ⟨hd, by simpa using hn⟩
  · rintro ⟨hd, hn⟩
    exact ⟨⟨hd, lt_of_isValidChar hn⟩, by simpa using hn⟩

theorem startsWith_ofList {cs : List Char} {p : String} :
    startsWith (.ofList cs) p = true ↔ ∃ rest, cs = p.toList ++ rest := by
  unfold startsWith
  rw [String.toList_ofList, List.isPrefixOf_iff_prefix]
  exact ⟨fun ⟨rest, h⟩ => ⟨rest, h.symm⟩, fun ⟨rest, h⟩ => ⟨rest, h.symm⟩⟩

/-- The digits of a decimal reference do not start with the mark of a hexadecimal one. -/
theorem not_hexadecimal {sign ds rest : List Char} {n : Nat} (hs : Sign true sign)
    (hd : Digits 10 ds n) : sign ++ ds ≠ 'x' :: rest := by
  intro h
  rcases hs with rfl | ⟨-, rfl⟩
  · rw [List.nil_append] at h
    subst h
    have := hd.head
    rw [digitValue_x] at this
    cases this
  · injection h with h
    cases h

theorem ofList_eq {cs : List Char} {s : String} : String.ofList cs = s ↔ cs = s.toList := by
  constructor
  · rintro rfl
    rw [String.toList_ofList]
  · rintro rfl
    rw [String.ofList_toList]

theorem not_named {cs : List Char} {name : String} (h : name.toList.head? ≠ some '#') :
    String.ofList ('#' :: cs) ≠ name := by
  intro heq
  rw [ofList_eq] at heq
  rw [← heq] at h
  exact h rfl

/-- The character of a numeric reference. -/
def character (n : Option Nat) : Except String Char :=
  match n.filter Nat.isValidChar with
  | some n => .ok (Char.ofNat n)
  | none => .error "invalid numeric XML character reference"

theorem character_ok {n : Option Nat} {c : Char} :
    character n = .ok c ↔ ∃ k, n.filter Nat.isValidChar = some k ∧ Char.ofNat k = c := by
  unfold character
  cases n.filter Nat.isValidChar with
  | none => simp
  | some k => simp

theorem xmlEntity_hexadecimal {cs : List Char} {c : Char} :
    xmlEntity (.ofList ('#' :: 'x' :: cs)) = .ok c ↔
      ∃ n, (parseU32 16 (.ofList cs)).filter Nat.isValidChar = some n ∧ Char.ofNat n = c := by
  have hx : startsWith (.ofList ('#' :: 'x' :: cs)) "#x" = true := startsWith_ofList.2 ⟨cs, rfl⟩
  unfold xmlEntity
  rw [if_neg (not_named (by decide)), if_neg (not_named (by decide)),
    if_neg (not_named (by decide)), if_neg (not_named (by decide)),
    if_neg (not_named (by decide)), if_pos hx, String.toList_ofList]
  exact character_ok

theorem xmlEntity_decimal {cs : List Char} {c : Char} (h : ∀ rest, cs ≠ 'x' :: rest) :
    xmlEntity (.ofList ('#' :: cs)) = .ok c ↔
      ∃ n, (parseU32 10 (.ofList cs)).filter Nat.isValidChar = some n ∧ Char.ofNat n = c := by
  have hx : ¬ startsWith (.ofList ('#' :: cs)) "#x" = true := by
    rw [startsWith_ofList]
    rintro ⟨rest, hrest⟩
    injection hrest with _ hrest
    exact h rest hrest
  have hd : startsWith (.ofList ('#' :: cs)) "#" = true := startsWith_ofList.2 ⟨cs, rfl⟩
  unfold xmlEntity
  rw [if_neg (not_named (by decide)), if_neg (not_named (by decide)),
    if_neg (not_named (by decide)), if_neg (not_named (by decide)),
    if_neg (not_named (by decide)), if_neg hx, if_pos hd, String.toList_ofList]
  exact character_ok

/-- The reader of references takes those of the grammar, with a plus sign in numeric ones. -/
theorem xmlEntity_iff {entity : List Char} {c : Char} :
    xmlEntity (.ofList entity) = .ok c ↔ Reference true entity c := by
  constructor
  · intro h
    by_cases hx : ∃ rest, entity = '#' :: 'x' :: rest
    · obtain ⟨rest, rfl⟩ := hx
      obtain ⟨n, hn, rfl⟩ := xmlEntity_hexadecimal.1 h
      obtain ⟨⟨sign, ds, rfl, hs, hd⟩, hv⟩ := numeric_iff.1 hn
      exact .hexadecimal hs hd hv
    by_cases hd : ∃ rest, entity = '#' :: rest
    · obtain ⟨rest, rfl⟩ := hd
      obtain ⟨n, hn, rfl⟩ := (xmlEntity_decimal fun rest' he => hx ⟨rest', by rw [he]⟩).1 h
      obtain ⟨⟨sign, ds, rfl, hs, hd⟩, hv⟩ := numeric_iff.1 hn
      exact .decimal hs hd hv
    · have hx' : ¬ startsWith (.ofList entity) "#x" = true := by
        rw [startsWith_ofList]
        rintro ⟨rest, hrest⟩
        exact hx ⟨rest, hrest⟩
      have hd' : ¬ startsWith (.ofList entity) "#" = true := by
        rw [startsWith_ofList]
        rintro ⟨rest, hrest⟩
        exact hd ⟨rest, hrest⟩
      unfold xmlEntity at h
      simp only [ofList_eq] at h
      split_ifs at h with h₁ h₂ h₃ h₄ h₅
      · cases h; subst h₁; exact .amp
      · cases h; subst h₂; exact .lt
      · cases h; subst h₃; exact .gt
      · cases h; subst h₄; exact .quot
      · cases h; subst h₅; exact .apos
  · rintro (_ | _ | _ | _ | _ | ⟨hs, hd, hn⟩ | ⟨hs, hd, hn⟩)
    · simp [xmlEntity]
    · simp [xmlEntity]
    · simp [xmlEntity]
    · simp [xmlEntity]
    · simp [xmlEntity]
    · exact (xmlEntity_decimal fun rest => not_hexadecimal hs hd).2
        ⟨_, numeric_iff.2 ⟨⟨_, _, rfl, hs, hd⟩, hn⟩, rfl⟩
    · exact xmlEntity_hexadecimal.2 ⟨_, numeric_iff.2 ⟨⟨_, _, rfl, hs, hd⟩, hn⟩, rfl⟩

/-! ## Text -/

theorem digitValue_mark {radix : Nat} {c : Char} (h : c = ';' ∨ c = '<' ∨ c = '&') :
    digitValue radix c = none := by
  rcases h with rfl | rfl | rfl <;> simp [digitValue, isAsciiDigit]

theorem Digits.chars {radix n : Nat} {ds : List Char} (h : Digits radix ds n) {c : Char}
    (hc : c = ';' ∨ c = '<' ∨ c = '&') : c ∉ ds := by
  obtain ⟨-, values, hvalues, -⟩ := h
  clear n
  intro hmem
  induction ds generalizing values with
  | nil => cases hmem
  | cons d ds ih =>
    rw [List.mapM_cons] at hvalues
    obtain ⟨v, hv, hvalues⟩ := Option.bind_eq_some_iff.1 hvalues
    obtain ⟨vs, hvs, -⟩ := Option.bind_eq_some_iff.1 hvalues
    rcases List.mem_cons.1 hmem with rfl | hmem
    · rw [digitValue_mark hc] at hv
      cases hv
    · exact ih vs hvs hmem

theorem Sign.chars {signed : Bool} {sign : List Char} (h : Sign signed sign) {c : Char}
    (hc : c = ';' ∨ c = '<' ∨ c = '&') : c ∉ sign := by
  rcases h with rfl | ⟨-, rfl⟩
  · simp
  · rcases hc with rfl | rfl | rfl <;> simp

theorem Reference.chars {signed : Bool} {entity : List Char} {c m : Char}
    (h : Reference signed entity c) (hm : m = ';' ∨ m = '<' ∨ m = '&') : m ∉ entity := by
  have hnumber : ∀ {sign ds : List Char} {radix n : Nat}, Sign signed sign →
      Digits radix ds n → m ∉ sign ++ ds := by
    intro sign ds radix n hs hd hmem
    exact (List.mem_append.1 hmem).elim (hs.chars hm) (hd.chars hm)
  have hhash : m ≠ '#' ∧ m ≠ 'x' := by rcases hm with rfl | rfl | rfl <;> decide
  cases h with
  | decimal hs hd _ => exact List.not_mem_cons_of_ne_of_not_mem hhash.1 (hnumber hs hd)
  | hexadecimal hs hd _ =>
    exact List.not_mem_cons_of_ne_of_not_mem hhash.1
      (List.not_mem_cons_of_ne_of_not_mem hhash.2 (hnumber hs hd))
  | _ => rcases hm with rfl | rfl | rfl <;> simp

theorem Run.chars {signed : Bool} {cs text : List Char} (h : Run signed cs text) : '<' ∉ cs := by
  induction h with
  | nil => simp
  | char hlt _ _ ih => exact List.not_mem_cons_of_ne_of_not_mem (Ne.symm hlt) ih
  | ref hr _ _ ih =>
    intro hmem
    rcases List.mem_cons.1 hmem with h | hmem
    · cases h
    rcases List.mem_append.1 hmem with hmem | hmem
    · exact hr.chars (.inr (.inl rfl)) hmem
    rcases List.mem_cons.1 hmem with h | hmem
    · cases h
    · exact ih hmem

theorem Run.append {signed : Bool} {a b s t : List Char} (ha : Run signed a s)
    (hb : Run signed b t) : Run signed (a ++ b) (s ++ t) := by
  induction ha with
  | nil => exact hb
  | char hlt hamp _ ih => exact .char hlt hamp ih
  | ref hr hc _ ih =>
    have := Run.ref hr hc ih
    simpa using this

theorem xmlUnescape_char (fuel : Nat) {c : Char} (hc : c ≠ '&') (cs : List Char) :
    xmlUnescape (fuel + 1) (c :: cs) = (xmlUnescape (fuel + 1) cs).map (c :: ·) := by
  have htake : (c :: cs).takeWhile (· ≠ '&') = c :: cs.takeWhile (· ≠ '&') := by simp [hc]
  have hdrop : (c :: cs).dropWhile (· ≠ '&') = cs.dropWhile (· ≠ '&') := by simp [hc]
  unfold xmlUnescape
  rw [htake, hdrop]
  cases cs.dropWhile (· ≠ '&') with
  | nil => rfl
  | cons d tail =>
    simp only
    by_cases hs : ';' ∈ tail
    · rw [if_neg (not_not_intro hs), if_neg (not_not_intro hs)]
      cases xmlEntity (.ofList (tail.takeWhile (· ≠ ';'))) with
      | error e => rfl
      | ok d =>
        simp only [bind, Except.bind]
        split_ifs
        · rfl
        · cases xmlUnescape fuel ((tail.dropWhile (· ≠ ';')).drop 1) with
          | error e => rfl
          | ok rest => rfl
    · rw [if_pos hs, if_pos hs]
      rfl

/-- An ampersand, the text of the reference up to the semicolon, and the rest. -/
theorem xmlUnescape_ref (fuel : Nat) {entity : List Char} (he : ';' ∉ entity) (cs : List Char) :
    xmlUnescape (fuel + 1) ('&' :: (entity ++ ';' :: cs)) = (do
      let c ← xmlEntity (.ofList entity)
      if !xmlCharacter c then .error "invalid XML character reference"
      else do
        let rest ← xmlUnescape fuel cs
        return c :: rest) := by
  have htake : (entity ++ ';' :: cs).takeWhile (· ≠ ';') = entity := by
    rw [List.takeWhile_append_of_pos]
    · simp
    · intro c hc
      simpa using fun h : c = ';' => he (h ▸ hc)
  have hdrop : (entity ++ ';' :: cs).dropWhile (· ≠ ';') = ';' :: cs := by
    rw [List.dropWhile_append_of_pos]
    · simp
    · intro c hc
      simpa using fun h : c = ';' => he (h ▸ hc)
  have hamp : ('&' :: (entity ++ ';' :: cs)).dropWhile (· ≠ '&') = '&' :: (entity ++ ';' :: cs) := by
    simp
  have hfront : ('&' :: (entity ++ ';' :: cs)).takeWhile (· ≠ '&') = [] := by simp
  conv_lhs => unfold xmlUnescape
  rw [hamp, hfront]
  simp only [htake, hdrop]
  rw [if_neg (by simp)]
  rfl

theorem xmlUnescape_open (fuel : Nat) {cs : List Char} (h : ';' ∉ cs) :
    xmlUnescape (fuel + 1) ('&' :: cs) = .error "malformed XML entity reference" := by
  unfold xmlUnescape
  simp [h]

theorem map_ok_iff {α β : Type} {f : α → β} {x : Except String α} {b : β} :
    x.map f = .ok b ↔ ∃ a, x = .ok a ∧ f a = b := by
  cases x with
  | error e => simp [Except.map]
  | ok a => simp [Except.map]

theorem xmlUnescape_ref_iff {fuel : Nat} {entity : List Char} (he : ';' ∉ entity)
    {cs text : List Char} : xmlUnescape (fuel + 1) ('&' :: (entity ++ ';' :: cs)) = .ok text ↔
      ∃ c rest, Reference true entity c ∧ xmlCharacter c = true ∧ xmlUnescape fuel cs = .ok rest ∧
        c :: rest = text := by
  rw [xmlUnescape_ref fuel he]
  constructor
  · intro h
    obtain ⟨c, hr, h⟩ := bind_ok h
    split_ifs at h with hc
    obtain ⟨rest, hrest, h⟩ := bind_ok h
    refine ⟨c, rest, xmlEntity_iff.1 hr, by simpa using hc, hrest, ?_⟩
    cases h
    rfl
  · rintro ⟨c, rest, hr, hc, hrest, rfl⟩
    rw [xmlEntity_iff.2 hr]
    simp [bind, Except.bind, hc, hrest, pure, Except.pure]

theorem xmlUnescape_nil_iff {fuel : Nat} {text : List Char} :
    xmlUnescape fuel [] = .ok text ↔ Run true [] text := by
  have hnil : xmlUnescape fuel [] = .ok [] := by cases fuel <;> rfl
  rw [hnil]
  constructor
  · intro h
    cases h
    exact .nil
  · intro h
    cases h
    rfl

/-- Text that starts with an ampersand starts with a reference. -/
theorem Run.of_amp {signed : Bool} {cs text : List Char} (h : Run signed ('&' :: cs) text) :
    ∃ entity rest c said, cs = entity ++ ';' :: rest ∧ Reference signed entity c ∧
      xmlCharacter c = true ∧ Run signed rest said ∧ text = c :: said := by
  cases h with
  | char _ hamp _ => exact absurd rfl hamp
  | ref hr hc h => exact ⟨_, _, _, _, rfl, hr, hc, h, rfl⟩

/-- The unescaped text is what the grammar says of the text. -/
theorem xmlUnescape_iff {n fuel : Nat} {cs text : List Char} (hn : cs.length ≤ n)
    (hf : cs.length ≤ fuel) (hcs : '<' ∉ cs) :
    xmlUnescape fuel cs = .ok text ↔ Run true cs text := by
  induction n generalizing fuel cs text with
  | zero =>
    obtain rfl : cs = [] := List.length_eq_zero_iff.1 (by omega)
    exact xmlUnescape_nil_iff
  | succ n ih =>
    cases cs with
    | nil => exact xmlUnescape_nil_iff
    | cons c cs =>
      obtain ⟨fuel, rfl⟩ : ∃ f, fuel = f + 1 := ⟨fuel - 1, by simp at hf; omega⟩
      simp only [List.length_cons] at hn hf
      have hlt : c ≠ '<' := fun h => hcs (h ▸ List.mem_cons_self)
      have htail : '<' ∉ cs := fun h => hcs (List.mem_cons_of_mem _ h)
      by_cases hamp : c = '&'
      · subst hamp
        by_cases hsemi : ';' ∈ cs
        · obtain ⟨entity, rest, rfl, he⟩ := List.eq_append_cons_of_mem hsemi
          simp only [List.length_append, List.length_cons] at hn hf
          have hrest : '<' ∉ rest := fun h => htail (by simp [h])
          rw [xmlUnescape_ref_iff he]
          constructor
          · rintro ⟨c, said, hr, hc, hsaid, rfl⟩
            exact .ref hr hc ((ih (by omega) (by omega) hrest).1 hsaid)
          · intro h
            obtain ⟨entity', rest', c, said, hcs, hr, hc, hrun, rfl⟩ := h.of_amp
            obtain ⟨rfl, rfl⟩ := split_unique he (hr.chars (.inl rfl)) hcs
            exact ⟨c, said, hr, hc, (ih (by omega) (by omega) hrest).2 hrun, rfl⟩
        · rw [xmlUnescape_open fuel hsemi]
          constructor
          · intro h
            cases h
          · intro h
            obtain ⟨entity', rest', c, said, rfl, -⟩ := h.of_amp
            exact absurd (by simp) hsemi
      · rw [xmlUnescape_char fuel hamp, map_ok_iff]
        constructor
        · rintro ⟨rest, hrest, rfl⟩
          exact .char hlt hamp ((ih (by omega) (by omega) htail).1 hrest)
        · intro h
          cases h with
          | char _ _ h => exact ⟨_, (ih (by omega) (by omega) htail).2 h, rfl⟩
          | ref _ _ _ => exact absurd rfl hamp

end Markup

end StateDrivenAgent
