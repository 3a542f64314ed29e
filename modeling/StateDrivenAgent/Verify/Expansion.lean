import StateDrivenAgent.Agent.Loading
import StateDrivenAgent.Python.Expand

/-!
# The two expansions

`expand_string` looks for an opening and reads up to the first brace that closes. What it reads is a
reference for the reference agent's pattern or it is not (`value_of_reference`, `value_of_other`); if
it is not, it is copied as a whole, while the pattern also matches at a second opening inside it.

A text therefore falls into pieces (`Piece`): single characters, references, and references behind an
opening that was left open. Both expansions work piece by piece (`exists_pieces`) and differ in the
last kind only. So they agree in every environment exactly when every match has only closed brackets
before it (`expandString_eq_iff`).
-/

namespace StateDrivenAgent

namespace Expansion

open Matching Python

/-! ## One bracket -/

theorem isNameChar_colon : isNameChar ':' = false := by decide

theorem splitDefault_name {name : List Char} (h : ∀ c ∈ name, isNameChar c = true) :
    Expand.splitDefault name = (name, []) := by
  induction name with
  | nil => rfl
  | cons c name ih =>
    have hc := h c List.mem_cons_self
    have hname := ih fun d hd => h d (List.mem_cons_of_mem _ hd)
    rw [Expand.splitDefault, hname]
    rintro rest rfl
    rw [isNameChar_colon] at hc
    cases hc

theorem splitDefault_append {name text : List Char} (h : ∀ c ∈ name, isNameChar c = true) :
    Expand.splitDefault (name ++ ':' :: '-' :: text) = (name, text) := by
  induction name with
  | nil => rfl
  | cons c name ih =>
    have hc := h c List.mem_cons_self
    have hname := ih fun d hd => h d (List.mem_cons_of_mem _ hd)
    rw [List.cons_append, Expand.splitDefault, hname]
    rintro rest rfl
    rw [isNameChar_colon] at hc
    cases hc

/-- The split gives the text back. -/
theorem eq_splitDefault (e : List Char) :
    e = (Expand.splitDefault e).1 ∧ (Expand.splitDefault e).2 = [] ∨
      e = (Expand.splitDefault e).1 ++ ':' :: '-' :: (Expand.splitDefault e).2 := by
  induction e using Expand.splitDefault.induct with
  | case1 rest => exact .inr rfl
  | case2 c cs hne ih =>
    rw [Expand.splitDefault]
    · rcases ih with ⟨h, hnil⟩ | h
      · exact .inl ⟨congrArg (c :: ·) h, hnil⟩
      · exact .inr (congrArg (c :: ·) h)
    · exact hne
  | case3 => exact .inl ⟨rfl, rfl⟩

theorem isName_iff {name : List Char} :
    Expand.isName (.ofList name) = true ↔ name ≠ [] ∧ ∀ c ∈ name, isNameChar c = true := by
  rw [Expand.isName, String.toList_ofList, Bool.and_eq_true, List.all_eq_true]
  refine and_congr ?_ Iff.rfl
  cases name <;> simp

variable {env : String → Option String}

/-- The match the bracket with this content is. -/
def bracket (e : List Char) : List Char := '$' :: '\x7b' :: (e ++ ['\x7d'])

theorem groupName_bracket {name default : List Char} (h : Reference name default) :
    groupName (bracket (name ++ default)) = name := by
  rw [groupName, bracket, List.append_assoc]
  exact h.takeWhile_name

theorem groupDefault_bracket {name default : List Char} (h : Reference name default) :
    groupDefault (bracket (name ++ default)) = default.drop 2 := by
  rw [groupDefault, bracket, List.append_assoc]
  change ((((name ++ (default ++ ['\x7d'])).dropWhile isNameChar).drop 2).dropLast) = _
  rw [h.dropWhile_name]
  rcases h.shape with rfl | ⟨text, rfl, -⟩ <;> simp

/-- A reference stands for the same text in both. -/
theorem value_of_reference {name default : List Char} (h : Reference name default) :
    Expand.value env (name ++ default) = expansion env (bracket (name ++ default)) := by
  have hsplit : Expand.splitDefault (name ++ default) = (name, default.drop 2) := by
    rcases h.shape with rfl | ⟨text, rfl, -⟩
    · rw [List.append_nil, splitDefault_name h.name, List.drop_nil]
    · exact splitDefault_append h.name
  rw [expansion, groupName_bracket h, groupDefault_bracket h, Expand.value, hsplit]
  exact if_pos (isName_iff.2 ⟨h.name_ne, h.name⟩)

/-- What is no reference is copied. -/
theorem value_of_other {e : List Char} (hbrace : '\x7d' ∉ e)
    (h : ∀ name default, Reference name default → e ≠ name ++ default) :
    Expand.value env e = bracket e := by
  apply if_neg
  intro hname
  obtain ⟨hne, hall⟩ := isName_iff.1 hname
  rcases eq_splitDefault e with ⟨he, -⟩ | he
  · refine h (Expand.splitDefault e).1 [] ⟨hne, hall, .inl rfl⟩ ?_
    rw [List.append_nil]
    exact he
  · refine h (Expand.splitDefault e).1 _ ⟨hne, hall, .inr ⟨_, rfl, fun hmem => hbrace ?_⟩⟩ he
    rw [he]
    simp [hmem]

/-! ## The scan -/

theorem reference_bracket {e rest : List Char} (h : '\x7d' ∉ e) :
    Expand.reference env ('$' :: '\x7b' :: (e ++ '\x7d' :: rest)) =
      some (Expand.value env e, e.length + 3) := by
  have hmem : '\x7d' ∈ e ++ '\x7d' :: rest := List.mem_append_right _ List.mem_cons_self
  have htake : (e ++ '\x7d' :: rest).takeWhile (· ≠ '\x7d') = e := by
    rw [List.takeWhile_append_of_pos]
    · simp
    · intro c hc
      apply decide_eq_true
      rintro rfl
      exact h hc
  rw [Expand.reference, if_pos hmem, htake]

/-- The characters of a reference are passed over. -/
theorem text_skip (skipped rest : List Char) :
    Expand.text env skipped.length (skipped ++ rest) = Expand.text env 0 rest := by
  induction skipped with
  | nil => rfl
  | cons c skipped ih =>
    rw [List.cons_append, Expand.text, List.length_cons, if_pos (Nat.succ_pos _)]
    exact ih

theorem text_bracket {e rest : List Char} (h : '\x7d' ∉ e) :
    Expand.text env 0 (bracket e ++ rest) = Expand.value env e ++ Expand.text env 0 rest := by
  have hskip := @text_skip env ('\x7b' :: (e ++ ['\x7d'])) rest
  simp only [List.cons_append, List.append_assoc, List.length_cons, List.length_append,
    List.length_nil, List.nil_append] at hskip
  rw [bracket, List.cons_append, List.cons_append, List.append_assoc, List.singleton_append,
    Expand.text, if_neg (Nat.lt_irrefl 0), reference_bracket h]
  exact congrArg (Expand.value env e ++ ·) hskip

theorem text_cons {c : Char} {cs : List Char} (h : Expand.reference env (c :: cs) = none) :
    Expand.text env 0 (c :: cs) = c :: Expand.text env 0 cs := by
  rw [Expand.text, if_neg (Nat.lt_irrefl 0), h]

/-- Nothing is looked up where no bracket closes. -/
theorem reference_open {cs : List Char} (h : '\x7d' ∉ cs) : Expand.reference env cs = none := by
  unfold Expand.reference
  split
  next tail => exact if_neg fun hmem => h (List.mem_cons_of_mem _ (List.mem_cons_of_mem _ hmem))
  · rfl

theorem text_open {cs : List Char} (h : '\x7d' ∉ cs) : Expand.text env 0 cs = cs := by
  induction cs with
  | nil => rfl
  | cons c cs ih =>
    rw [text_cons (reference_open h), ih fun hmem => h (List.mem_cons_of_mem _ hmem)]

/-! ## Closed brackets -/

/-- Every bracket opened in this text is closed in it. -/
def Closed (before : List Char) : Prop :=
  ∀ a b, before = a ++ '$' :: '\x7b' :: b → '\x7d' ∈ b

theorem closed_nil : Closed [] := by
  intro a b h
  simp at h

theorem closed_brace (before : List Char) : Closed (before ++ ['\x7d']) := by
  intro a b h
  rcases List.eq_nil_or_concat b with rfl | ⟨b, c, rfl⟩
  · have hsplit : before ++ ['\x7d'] = (a ++ ['$']) ++ ['\x7b'] := by simpa using h
    simpa using (List.append_inj' hsplit rfl).2
  · have hsplit : before ++ ['\x7d'] = (a ++ '$' :: '\x7b' :: b) ++ [c] := by simpa using h
    obtain rfl := List.singleton_inj.1 (List.append_inj' hsplit rfl).2
    simp

theorem closed_snoc {before : List Char} {c : Char} (h : Closed before)
    (hc : before.getLast? = some '$' → c ≠ '\x7b') : Closed (before ++ [c]) := by
  intro a b hab
  rcases List.eq_nil_or_concat b with rfl | ⟨b, d, rfl⟩
  · have hsplit : before ++ [c] = (a ++ ['$']) ++ ['\x7b'] := by simpa using hab
    obtain ⟨rfl, hc'⟩ := List.append_inj' hsplit rfl
    exact absurd (List.singleton_inj.1 hc') (hc (by simp))
  · have hsplit : before ++ [c] = (a ++ '$' :: '\x7b' :: b) ++ [d] := by simpa using hab
    obtain ⟨rfl, -⟩ := List.append_inj' hsplit rfl
    have hmem := h a b rfl
    simp [hmem]

theorem not_closed {before opening : List Char} (h : '\x7d' ∉ opening) :
    ¬Closed (before ++ '$' :: '\x7b' :: opening) := fun hclosed => h (hclosed before opening rfl)

/-- A place where the scan stands outside of brackets. -/
structure Fresh (before cs : List Char) : Prop where
  closed : Closed before
  apart : before.getLast? = some '$' → cs.head? ≠ some '\x7b'

theorem fresh_brace (before cs : List Char) : Fresh (before ++ ['\x7d']) cs :=
  ⟨closed_brace before, by simp⟩

/-! ## Pieces -/

inductive Piece where
  | char (c : Char)
  | reference (content : List Char)
  | tangled (opening content : List Char)

namespace Piece

/-- What `expand_string` makes of it. -/
def scanned (env : String → Option String) : Piece → List Char
  | .char c => [c]
  | .reference e => expansion env (bracket e)
  | .tangled opening e => opening ++ bracket e

/-- What the pattern makes of it. -/
def substituted (env : String → Option String) : Piece → List Char
  | .char c => [c]
  | .reference e => expansion env (bracket e)
  | .tangled opening e => opening ++ expansion env (bracket e)

def isTangled : Piece → Bool
  | .tangled _ _ => true
  | _ => false

end Piece

/-- Both expansions of the rest of a text, by its pieces. -/
structure Reading (before cs : List Char) (ps : List Piece) : Prop where
  scanned : ∀ env, Expand.text env 0 cs = ps.flatMap (Piece.scanned env)
  substituted : ∀ env fuel, cs.length ≤ fuel →
    envSearch.replaceFrom (expansion env) fuel before cs = ps.flatMap (Piece.substituted env)
  closed : ∀ fuel, cs.length ≤ fuel →
    ((∀ f ∈ envSearch.findFrom fuel before cs, Closed f.before) ↔ ∀ p ∈ ps, p.isTangled = false)

theorem reading_nil (before : List Char) : Reading before [] [] where
  scanned env := by rw [Expand.text]; rfl
  substituted env fuel _ := by cases fuel <;> rfl
  closed fuel _ := by cases fuel <;> simp [Search.findFrom]

/-- No match begins in this part of a text. -/
def Passed (u rest : List Char) : Prop :=
  ∀ a b previous, u = a ++ b → b ≠ [] → envSearch.first previous (b ++ rest) = none

theorem Passed.tail {c : Char} {u rest : List Char} (h : Passed (c :: u) rest) : Passed u rest :=
  fun a b previous hu hne => h (c :: a) b previous (by rw [hu]; rfl) hne

theorem replaceFrom_passed {u rest before : List Char} {fuel : Nat} (h : Passed u rest) :
    envSearch.replaceFrom (expansion env) (u.length + fuel) before (u ++ rest) =
      u ++ envSearch.replaceFrom (expansion env) fuel (before ++ u) rest := by
  induction u generalizing before with
  | nil => simp
  | cons c u ih =>
    have hfirst := h [] (c :: u) before.getLast? rfl (List.cons_ne_nil _ _)
    rw [List.cons_append] at hfirst ⊢
    rw [List.length_cons, Nat.succ_add, Search.replaceFrom_none hfirst, ih h.tail]
    simp

theorem findFrom_passed {u rest before : List Char} {fuel : Nat} (h : Passed u rest) :
    envSearch.findFrom (u.length + fuel) before (u ++ rest) =
      envSearch.findFrom fuel (before ++ u) rest := by
  induction u generalizing before with
  | nil => simp
  | cons c u ih =>
    have hfirst := h [] (c :: u) before.getLast? rfl (List.cons_ne_nil _ _)
    rw [List.cons_append] at hfirst ⊢
    rw [List.length_cons, Nat.succ_add, Search.findFrom_none hfirst, ih h.tail]
    simp

/-- Characters both expansions copy. -/
theorem reading_copied {before u rest : List Char} {ps : List Piece} (hpassed : Passed u rest)
    (htext : ∀ env, Expand.text env 0 (u ++ rest) = u ++ Expand.text env 0 rest)
    (h : Reading (before ++ u) rest ps) : Reading before (u ++ rest) (u.map .char ++ ps) := by
  have hflat : ∀ f : Piece → List Char, (∀ c, f (.char c) = [c]) →
      (u.map Piece.char).flatMap f = u := by
    intro f hf
    rw [List.flatMap_map, funext hf]
    exact List.flatMap_singleton' u
  constructor
  · intro env
    rw [htext, h.scanned, List.flatMap_append, hflat _ fun _ => rfl]
  · intro env fuel hfuel
    rw [List.length_append] at hfuel
    obtain ⟨k, rfl⟩ := Nat.exists_eq_add_of_le (Nat.le_of_add_right_le hfuel)
    rw [replaceFrom_passed hpassed, h.substituted env k (by omega), List.flatMap_append,
      hflat _ fun _ => rfl]
  · intro fuel hfuel
    rw [List.length_append] at hfuel
    obtain ⟨k, rfl⟩ := Nat.exists_eq_add_of_le (Nat.le_of_add_right_le hfuel)
    rw [findFrom_passed hpassed, h.closed k (by omega)]
    simp only [List.mem_append, List.mem_map]
    refine ⟨fun hall p hp => ?_, fun hall p hp => hall p (.inr hp)⟩
    rcases hp with ⟨c, -, rfl⟩ | hp
    · rfl
    · exact hall p hp

/-- The word of a match, and what it leaves. -/
theorem first_bracket {name default : List Char} (h : Reference name default)
    (previous : Option Char) (rest : List Char) :
    envSearch.first previous (bracket (name ++ default) ++ rest) = some rest := by
  have hfirst := @first_env_of_reference _ _ rest h previous
  rwa [show bracket (name ++ default) ++ rest =
    '$' :: '\x7b' :: (name ++ (default ++ '\x7d' :: rest)) by simp [bracket]]

theorem bracket_ne (e : List Char) : bracket e ≠ [] := List.cons_ne_nil _ _

theorem length_bracket (e : List Char) : (bracket e).length = e.length + 3 := by simp [bracket]

/-- A reference outside of brackets. -/
theorem reading_reference {before rest name default : List Char} {ps : List Piece}
    (href : Reference name default) (hclosed : Closed before)
    (h : Reading (before ++ bracket (name ++ default)) rest ps) :
    Reading before (bracket (name ++ default) ++ rest) (.reference (name ++ default) :: ps) := by
  have hfirst := first_bracket href before.getLast? rest
  constructor
  · intro env
    rw [text_bracket href.not_mem, value_of_reference href, h.scanned]
    rfl
  · intro env fuel hfuel
    rw [List.length_append, length_bracket] at hfuel
    obtain ⟨k, rfl⟩ := Nat.exists_eq_add_of_le' (show 1 ≤ fuel by omega)
    rw [Search.replaceFrom_some (bracket_ne _) hfirst, h.substituted env k (by omega)]
    rfl
  · intro fuel hfuel
    rw [List.length_append, length_bracket] at hfuel
    obtain ⟨k, rfl⟩ := Nat.exists_eq_add_of_le' (show 1 ≤ fuel by omega)
    rw [Search.findFrom_some (bracket_ne _) hfirst, List.forall_mem_cons, List.forall_mem_cons,
      h.closed k (by omega)]
    exact and_congr_left' (iff_of_true hclosed rfl)

/-- A reference behind an opening that was left open. -/
theorem reading_tangled {before opening rest name default : List Char} {ps : List Piece}
    (href : Reference name default) (hpassed : Passed opening (bracket (name ++ default) ++ rest))
    (hopen : ¬Closed (before ++ opening))
    (htext : ∀ env, Expand.text env 0 (opening ++ (bracket (name ++ default) ++ rest)) =
      opening ++ bracket (name ++ default) ++ Expand.text env 0 rest)
    (h : Reading (before ++ opening ++ bracket (name ++ default)) rest ps) :
    Reading before (opening ++ (bracket (name ++ default) ++ rest))
      (.tangled opening (name ++ default) :: ps) := by
  have hfirst := first_bracket href (before ++ opening).getLast? rest
  constructor
  · intro env
    rw [htext, h.scanned]
    rfl
  · intro env fuel hfuel
    rw [List.length_append, List.length_append, length_bracket] at hfuel
    obtain ⟨k, rfl⟩ := Nat.exists_eq_add_of_le (show opening.length + 1 ≤ fuel by omega)
    rw [Nat.add_assoc, replaceFrom_passed hpassed, Nat.add_comm 1 k,
      Search.replaceFrom_some (bracket_ne _) hfirst, h.substituted env k (by omega),
      ← List.append_assoc]
    rfl
  · intro fuel hfuel
    rw [List.length_append, List.length_append, length_bracket] at hfuel
    obtain ⟨k, rfl⟩ := Nat.exists_eq_add_of_le (show opening.length + 1 ≤ fuel by omega)
    rw [Nat.add_assoc, findFrom_passed hpassed, Nat.add_comm 1 k,
      Search.findFrom_some (bracket_ne _) hfirst, List.forall_mem_cons, List.forall_mem_cons]
    exact iff_of_false (fun hall => hopen hall.1) fun hall => absurd hall.1 (by simp [Piece.isTangled])

/-! ## The pieces of a text -/

/-- A reference that is not closed yet. -/
def Begins (v : List Char) : Prop :=
  ∃ name default, Reference name default ∧ v = '$' :: '\x7b' :: (name ++ default)

theorem first_eq_none {v rest : List Char} (hbrace : '\x7d' ∉ v) (h : ¬Begins v)
    (previous : Option Char) : envSearch.first previous (v ++ '\x7d' :: rest) = none := by
  apply first_env_eq_none
  intro name default rest' href heq
  refine h ⟨name, default, href, ?_⟩
  have hnot : '\x7d' ∉ '$' :: '\x7b' :: (name ++ default) := by simpa using href.not_mem
  have hsplit : v ++ '\x7d' :: rest = '$' :: '\x7b' :: (name ++ default) ++ '\x7d' :: rest' := by
    simpa using heq
  exact (Text.split_unique hbrace hnot hsplit).1

/-- The first place of an open text where a reference begins. -/
theorem begins_or (v : List Char) : (∀ a b, v = a ++ b → ¬Begins b) ∨
    ∃ a b, v = a ++ b ∧ Begins b ∧ ∀ a' b' c, v = a' ++ b' → a = a' ++ c → c ≠ [] → ¬Begins b' := by
  induction v with
  | nil =>
    refine .inl fun a b h hb => ?_
    obtain ⟨-, rfl⟩ := List.append_eq_nil_iff.1 h.symm
    obtain ⟨_, _, _, h⟩ := hb
    cases h
  | cons d v ih =>
    by_cases hd : Begins (d :: v)
    · refine .inr ⟨[], d :: v, rfl, hd, fun a' b' c _ hc hne => ?_⟩
      exact absurd (List.append_eq_nil_iff.1 hc.symm).2 hne
    rcases ih with h | ⟨a, b, rfl, hb, hmin⟩
    · refine .inl fun a b hab => ?_
      cases a with
      | nil =>
        rw [List.nil_append] at hab
        exact hab ▸ hd
      | cons e a => exact h a b (List.cons.inj hab).2
    · refine .inr ⟨d :: a, b, rfl, hb, fun a' b' c hab hac hne => ?_⟩
      cases a' with
      | nil =>
        rw [List.nil_append] at hab
        exact hab ▸ hd
      | cons e a' => exact hmin a' b' c (List.cons.inj hab).2 (List.cons.inj hac).2 hne

theorem passed_open {u : List Char} (h : '\x7d' ∉ u) : Passed u [] := by
  intro a b previous hu _
  apply first_env_eq_none
  rintro name default rest - hb
  rw [List.append_nil] at hb
  apply h
  rw [hu, hb]
  simp

theorem passed_char {c : Char} {cs : List Char} (h : ∀ tail, c :: cs ≠ '$' :: '\x7b' :: tail) :
    Passed [c] cs := by
  intro a b previous hu hne
  obtain rfl : b = [c] := by
    rcases List.singleton_eq_append_iff.1 hu with ⟨-, rfl⟩ | ⟨-, rfl⟩
    · rfl
    · exact absurd rfl hne
  exact first_env_eq_none previous fun _ _ _ _ => h _

theorem passed_bracket {e rest : List Char} (hbrace : '\x7d' ∉ e)
    (h : ∀ a b, '$' :: '\x7b' :: e = a ++ b → ¬Begins b) : Passed (bracket e) rest := by
  intro a b previous hu hne
  rcases List.eq_nil_or_concat b with rfl | ⟨b, c, rfl⟩
  · exact absurd rfl hne
  · have hsplit : ('$' :: '\x7b' :: e) ++ ['\x7d'] = (a ++ b) ++ [c] := by simpa [bracket] using hu
    obtain ⟨hab, hc⟩ := List.append_inj' hsplit rfl
    obtain rfl := List.singleton_inj.1 hc
    have hnot : '\x7d' ∉ b := by
      intro hmem
      have : '\x7d' ∈ '$' :: '\x7b' :: e := hab ▸ List.mem_append_right a hmem
      simp [hbrace] at this
    have hfirst := @first_eq_none _ rest hnot (h a b hab) previous
    simpa using hfirst

theorem fresh_char {before cs : List Char} {c : Char} (h : Fresh before (c :: cs))
    (hc : ∀ tail, c :: cs ≠ '$' :: '\x7b' :: tail) : Fresh (before ++ [c]) cs := by
  constructor
  · apply closed_snoc h.closed
    rintro hlast rfl
    exact h.apart hlast rfl
  · intro hlast hhead
    obtain rfl : c = '$' := by simpa using hlast
    obtain ⟨d, tail, rfl⟩ := @List.exists_cons_of_ne_nil _ cs (by rintro rfl; cases hhead)
    obtain rfl : d = '\x7b' := by simpa using hhead
    exact hc tail rfl

/-- An opening that was left open before another one. -/
theorem opening_of_begins {e a b : List Char} (hab : '$' :: '\x7b' :: e = a ++ b) (hb : Begins b)
    (he : ∀ name default, Reference name default → e ≠ name ++ default) :
    ∃ opening, a = '$' :: '\x7b' :: opening ∧ e = opening ++ b := by
  obtain ⟨name, default, href, rfl⟩ := hb
  cases a with
  | nil =>
    simp only [List.nil_append, List.cons.injEq, true_and] at hab
    exact absurd hab (he name default href)
  | cons c a =>
    cases a with
    | nil => simp at hab
    | cons d a =>
      simp only [List.cons_append, List.cons.injEq] at hab
      obtain ⟨rfl, rfl, rfl⟩ := hab
      exact ⟨a, rfl, rfl⟩

theorem passed_opening {e a name default rest : List Char} (hbrace : '\x7d' ∉ e)
    (hab : '$' :: '\x7b' :: e = a ++ '$' :: '\x7b' :: (name ++ default))
    (hmin : ∀ a' b' c, '$' :: '\x7b' :: e = a' ++ b' → a = a' ++ c → c ≠ [] → ¬Begins b') :
    Passed a (bracket (name ++ default) ++ rest) := by
  intro x y previous hxy hne
  have hsplit : '$' :: '\x7b' :: e = x ++ (y ++ '$' :: '\x7b' :: (name ++ default)) := by
    rw [hab, hxy, List.append_assoc]
  have hnot : '\x7d' ∉ y ++ '$' :: '\x7b' :: (name ++ default) := by
    intro hmem
    have hmem' : '\x7d' ∈ '$' :: '\x7b' :: e := hsplit ▸ List.mem_append_right x hmem
    simp [hbrace] at hmem'
  have hfirst := @first_eq_none _ rest hnot (hmin x _ y hsplit hxy hne) previous
  simpa [bracket] using hfirst

/-- The pieces of a bracket, by those of the text behind it. -/
theorem exists_pieces_bracket {before e rest : List Char} {ps : List Piece} (he : '\x7d' ∉ e)
    (hclosed : Closed before) (hps : Reading (before ++ bracket e) rest ps) :
    ∃ ps, Reading before (bracket e ++ rest) ps := by
  by_cases href : ∃ name default, Reference name default ∧ e = name ++ default
  · obtain ⟨name, default, href, rfl⟩ := href
    exact ⟨_, reading_reference href hclosed hps⟩
  have hother : ∀ name default, Reference name default → e ≠ name ++ default :=
    fun name default h heq => href ⟨name, default, h, heq⟩
  have htext : ∀ env, Expand.text env 0 (bracket e ++ rest) = bracket e ++ Expand.text env 0 rest :=
    fun env => by rw [text_bracket he, value_of_other he hother]
  rcases begins_or ('$' :: '\x7b' :: e) with hnone | ⟨a, b, hab, hbegins, hmin⟩
  · exact ⟨_, reading_copied (passed_bracket he hnone) htext hps⟩
  · obtain ⟨opening, rfl, rfl⟩ := opening_of_begins hab hbegins hother
    obtain ⟨name, default, h, rfl⟩ := hbegins
    have hopening : '\x7d' ∉ opening := fun hmem => he (List.mem_append_left _ hmem)
    have heq : bracket (opening ++ '$' :: '\x7b' :: (name ++ default)) =
        '$' :: '\x7b' :: opening ++ bracket (name ++ default) := by simp [bracket]
    rw [heq] at hps htext ⊢
    rw [List.append_assoc]
    refine ⟨.tangled ('$' :: '\x7b' :: opening) (name ++ default) :: ps, reading_tangled h
      (passed_opening he hab hmin) (not_closed hopening) (fun env => ?_) ?_⟩
    · rw [← htext, List.append_assoc]
    · rwa [List.append_assoc]

/-- Every text falls into pieces. -/
theorem exists_pieces {before cs : List Char} (hfresh : Fresh before cs) :
    ∃ ps, Reading before cs ps := by
  -- the scan is again outside of brackets behind every brace that closes
  induction hn : cs.length using Nat.strong_induction_on generalizing before cs with
  | _ n ih =>
  cases cs with
  | nil => exact ⟨[], reading_nil before⟩
  | cons c cs =>
    by_cases hopening : ∃ tail, c :: cs = '$' :: '\x7b' :: tail
    · obtain ⟨tail, htail⟩ := hopening
      by_cases hbrace : '\x7d' ∈ tail
      · obtain ⟨e, rest, rfl, he⟩ := List.eq_append_cons_of_mem hbrace
        have hcs : c :: cs = bracket e ++ rest := by rw [htail, bracket]; simp
        have hlen := congrArg List.length hcs
        rw [List.length_append, length_bracket] at hlen
        have hnext := fresh_brace (before ++ '$' :: '\x7b' :: e) rest
        have heq : before ++ '$' :: '\x7b' :: e ++ ['\x7d'] = before ++ bracket e := by simp [bracket]
        obtain ⟨ps, hps⟩ := ih rest.length (by omega) (heq ▸ hnext) rfl
        rw [hcs]
        exact exists_pieces_bracket he hfresh.closed hps
      · rw [htail]
        have hnot : '\x7d' ∉ '$' :: '\x7b' :: tail := by simpa using hbrace
        refine ⟨_, List.append_nil ('$' :: '\x7b' :: tail) ▸ reading_copied (passed_open hnot)
          (fun env => ?_) (reading_nil _)⟩
        rw [List.append_nil, text_open hnot, Expand.text, List.append_nil]
    · have hnot : ∀ tail, c :: cs ≠ '$' :: '\x7b' :: tail := fun tail h => hopening ⟨tail, h⟩
      obtain ⟨ps, hps⟩ := ih cs.length (by rw [← hn]; exact Nat.lt_succ_self _)
        (fresh_char hfresh hnot) rfl
      refine ⟨_, reading_copied (passed_char hnot) (fun env => ?_) hps⟩
      rw [List.singleton_append, text_cons]
      · rfl
      · unfold Expand.reference
        split
        next tail heq => exact absurd heq (hnot _)
        · rfl

/-! ## Where the expansions agree -/

/-- Without variables, what a match stands for is shorter than the match. -/
theorem length_expansion_lt (e : List Char) :
    (expansion (fun _ => none) (bracket e)).length < (bracket e).length := by
  have hdrop := ((bracket e).drop 2).dropWhile_suffix isNameChar |>.length_le
  rw [List.length_drop, length_bracket] at hdrop
  change (groupDefault (bracket e)).length < _
  rw [groupDefault, List.length_dropLast, List.length_drop, length_bracket]
  omega

theorem scanned_eq {ps : List Piece} (h : ∀ p ∈ ps, p.isTangled = false) :
    ps.flatMap (Piece.scanned env) = ps.flatMap (Piece.substituted env) := by
  apply List.flatMap_congr
  intro p hp
  cases p with
  | char | reference => rfl
  | tangled => exact absurd (h _ hp) (by simp [Piece.isTangled])

theorem length_substituted_le (ps : List Piece) :
    (ps.flatMap (Piece.substituted fun _ => none)).length ≤
      (ps.flatMap (Piece.scanned fun _ => none)).length := by
  induction ps with
  | nil => exact le_rfl
  | cons p ps ih =>
    simp only [List.flatMap_cons, List.length_append]
    apply Nat.add_le_add _ ih
    cases p with
    | char | reference => exact le_rfl
    | tangled opening e =>
      simp only [Piece.substituted, Piece.scanned, List.length_append]
      exact Nat.add_le_add_left (length_expansion_lt e).le _

theorem length_substituted_lt {ps : List Piece} {p : Piece} (hp : p ∈ ps)
    (htangled : p.isTangled = true) :
    (ps.flatMap (Piece.substituted fun _ => none)).length <
      (ps.flatMap (Piece.scanned fun _ => none)).length := by
  obtain ⟨l, r, rfl⟩ := List.append_of_mem hp
  have hl := length_substituted_le l
  have hr := length_substituted_le r
  have hlt : (p.substituted fun _ => none).length < (p.scanned fun _ => none).length := by
    cases p with
    | char | reference => cases htangled
    | tangled opening e =>
      simp only [Piece.substituted, Piece.scanned, List.length_append]
      exact Nat.add_lt_add_left (length_expansion_lt e) _
  simp only [List.flatMap_append, List.flatMap_cons, List.length_append]
  omega

/-- Both expansions give the same text in every environment if and only if every match of the
pattern has only closed brackets before it. -/
theorem expandString_eq_iff (s : String) :
    (∀ env, Expand.document env (.str s) = .str (expandString env s)) ↔
      ∀ f ∈ envSearch.findAll s.toList, Closed f.before := by
  obtain ⟨ps, hps⟩ := @exists_pieces [] s.toList ⟨closed_nil, by simp⟩
  have hrust : ∀ env, Expand.document env (.str s) =
      .str (.ofList (ps.flatMap (Piece.scanned env))) := by
    intro env
    rw [Expand.document, hps.scanned]
  have hpython : ∀ env, expandString env s = .ofList (ps.flatMap (Piece.substituted env)) := by
    intro env
    rw [expandString, Search.replaceAll, hps.substituted env _ le_rfl]
  rw [Search.findAll, hps.closed _ le_rfl]
  constructor
  · intro h p hp
    have hnone := h fun _ => none
    rw [hrust, hpython, Value.str.injEq, String.ofList_inj] at hnone
    apply Bool.eq_false_iff.2
    intro htangled
    exact absurd (congrArg List.length hnone) (length_substituted_lt hp htangled).ne'
  · intro h env
    rw [hrust, hpython, scanned_eq h]

/-- `${a${HOME}`, where the home directory is `/root`: the one expansion leaves the text as it is,
the other gives `${a/root`. -/
theorem expandString_ne : ¬∀ (env : String → Option String) (s : String),
    Expand.document env (.str s) = .str (expandString env s) := by
  intro h
  have hsame := h (fun name => if name = "HOME" then some "/root" else none)
    "$\x7ba$\x7bHOME\x7d"
  rw [Expand.document, expandString, Value.str.injEq, String.ofList_inj] at hsame
  revert hsame
  decide +kernel

end Expansion

end StateDrivenAgent
