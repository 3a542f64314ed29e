import StateDrivenAgent.Commands
import StateDrivenAgent.Verify.Canonical

/-!
# What a command asks for

A request body is normalized before it is hashed. What counts in it are its fields, with a default
where an optional one is absent and with a run named by its UUID (`effective`). `normalize` gives a
body that has exactly these (`normalize_get`), and the hash of two normalized bodies with their
routes is the same if and only if the routes are and every field counts the same
(`fingerprint_eq_iff`).

Of the library for UUIDs it is used that it reads the text it writes, that the letter case of a UUID
does not matter, and that what it writes has no slash (`Host.ReadsUuids`).
-/

namespace StateDrivenAgent

namespace Commands

/-- Two spellings of one UUID, in one of the forms the library reads, that differ in letter case. -/
inductive Recased : String → String → Prop
  | mk {before after : String} {s t : List Char}
      (hform : (before, after) ∈ [("", ""), ("urn:uuid:", ""), ("\x7b", "\x7d")])
      (hs : ∀ c ∈ s, c.isAlphanum ∨ c = '-') (ht : ∀ c ∈ t, c.isAlphanum ∨ c = '-')
      (h : s.map Char.toLower = t.map Char.toLower) :
      Recased (before ++ .ofList s ++ after) (before ++ .ofList t ++ after)

end Commands

/-- What is used of the library for UUIDs. -/
structure Host.ReadsUuids (host : Host) : Prop where
  written : ∀ s id, host.parseUuid s = some id → host.parseUuid id = some id
  recased : ∀ s t, Commands.Recased s t → host.parseUuid s = host.parseUuid t
  slash : ∀ s id, host.parseUuid s = some id → '/' ∉ id.toList

namespace Commands

/-! ## The fields of a body -/

/-- The fields a route may leave out, with what they are then. -/
def optionalFields (route : String) : List (String × Value) :=
  if route = "/sessions" then [("config_ref", .str "log-analysis.yaml")]
  else if Text.endsWith route "/messages" then []
  else if Text.endsWith route "/cancel" then []
  else if Text.endsWith route "/resume" then [("max_steps", .null), ("content", .null)]
  else [("max_steps", .null)]

/-- What the value of a field says: a run is named by its UUID. -/
def meant (host : Host) (k : String) (v : Value) : Value :=
  if k = "run_id" then .ofStr? (v.asStr.bind host.parseUuid) else v

/-- What counts as a field of a body. -/
def effective (host : Host) (route : String) (body : Value) (k : String) : Option Value :=
  ((body.get k).map (meant host k)).or (lookup k (optionalFields route))

/-- `identity::digest` of the command in `admit`. -/
def fingerprint (host : Host) (route : String) (body : Value) : Except String String :=
  Identity.digest host (.arr [.str "agent-command-v1", .str "POST", .str route, body])

theorem lookup_orInsert {k k' : String} {v : Value} {fields : List (String × Value)} :
    lookup k' (orInsert k v fields) = (lookup k' fields).or (lookup k' [(k, v)]) := by
  unfold orInsert
  split
  next h =>
    by_cases hk : k = k'
    · subst hk
      obtain ⟨w, hw⟩ := Option.isSome_iff_exists.1 h
      rw [hw, Option.some_or]
    · simp [hk]
  · rw [lookup_append, Option.orElse_eq_orElse, Option.orElse_eq_or]

theorem orInsert_of_lookup {k : String} {v w : Value} {fields : List (String × Value)}
    (h : lookup k fields = some w) : orInsert k v fields = fields :=
  if_pos (by rw [h]; rfl)

theorem nodup_orInsert {k : String} {v : Value} {fields : List (String × Value)}
    (h : (fields.map Prod.fst).Nodup) : ((orInsert k v fields).map Prod.fst).Nodup := by
  unfold orInsert
  split
  · exact h
  next hk =>
    rw [lookup_isSome] at hk
    rw [List.map_append, List.nodup_append]
    refine ⟨h, List.nodup_singleton _, ?_⟩
    rintro a ha b hb rfl
    obtain rfl : a = k := by simpa using hb
    exact hk ha

theorem nonempty_iff {v : Option Value} : nonempty v = true ↔ ∃ s, v = some (.str s) ∧ s ≠ "" := by
  unfold nonempty
  cases v with
  | none => simp
  | some v => cases v <;> simp [Value.asStr]

/-- A number of steps a request may ask for. -/
def Steps (v : Value) : Prop := v = .null ∨ ∃ n, v.asU64 = some n ∧ 0 < n ∧ n ≤ 50

/-- The content of a request to resume. -/
def Content (v : Value) : Prop := v = .null ∨ ∃ s, v = .str s ∧ s ≠ ""

/-- What a route accepts, and what it makes of it. -/
inductive Accepted (host : Host) (route : String) (obj : List (String × Value)) :
    List (String × Value) → Prop
  | sessions (prompt ref : String) (hroute : route = "/sessions")
      (hprompt : lookup "user_prompt" obj = some (.str prompt)) (hne : prompt ≠ "")
      (href : lookup "config_ref" (orInsert "config_ref" (.str "log-analysis.yaml") obj) =
        some (.str ref)) (hrefne : ref ≠ "") :
      Accepted host route obj (orInsert "config_ref" (.str "log-analysis.yaml") obj)
  | messages (content : String) (hroute : route ≠ "/sessions")
      (hends : Text.endsWith route "/messages" = true)
      (hcontent : lookup "content" obj = some (.str content)) (hne : content ≠ "") :
      Accepted host route obj obj
  | cancel (run id : String) (hroute : route ≠ "/sessions")
      (hends : Text.endsWith route "/messages" = false)
      (hcancel : Text.endsWith route "/cancel" = true)
      (hrun : lookup "run_id" obj = some (.str run)) (hid : host.parseUuid run = some id) :
      Accepted host route obj (insertField "run_id" (.str id) obj)
  | resume (steps content : Value) (hroute : route ≠ "/sessions")
      (hends : Text.endsWith route "/messages" = false)
      (hcancel : Text.endsWith route "/cancel" = false)
      (hresume : Text.endsWith route "/resume" = true)
      (hsteps : lookup "max_steps" (orInsert "max_steps" .null obj) = some steps)
      (hcount : Steps steps)
      (hcontent : lookup "content" (orInsert "content" .null (orInsert "max_steps" .null obj)) =
        some content) (htext : Content content) :
      Accepted host route obj (orInsert "content" .null (orInsert "max_steps" .null obj))
  | run (steps : Value) (hroute : route ≠ "/sessions")
      (hends : Text.endsWith route "/messages" = false)
      (hcancel : Text.endsWith route "/cancel" = false)
      (hresume : Text.endsWith route "/resume" = false)
      (hsteps : lookup "max_steps" (orInsert "max_steps" .null obj) = some steps)
      (hcount : Steps steps) :
      Accepted host route obj (orInsert "max_steps" .null obj)

section accepted

variable {host : Host} {route : String} {obj out : List (String × Value)}

theorem exists_orInsert (k : String) (v : Value) (fields : List (String × Value)) :
    ∃ w, lookup k (orInsert k v fields) = some w := by
  rw [lookup_orInsert]
  cases lookup k fields with
  | none => exact ⟨v, by simp⟩
  | some w => exact ⟨w, rfl⟩

theorem steps_iff {v : Value} :
    (!v.isNull && !v.asU64.any (fun n => 0 < n ∧ n ≤ 50)) = false ↔ Steps v := by
  unfold Steps
  cases v with
  | null => simp [Value.isNull]
  | num n => simp [Value.isNull, Option.any_eq_true]
  | bool | str | arr | obj => simp [Value.isNull, Value.asU64]

theorem content_iff {v : Value} : (!v.isNull && !nonempty (some v)) = false ↔ Content v := by
  unfold Content
  cases v <;> simp [Value.isNull, nonempty, Value.asStr]

theorem accepted_of_normalizeFields (h : normalizeFields host route obj = .ok out) :
    Accepted host route obj out := by
  unfold normalizeFields at h
  dsimp only at h
  by_cases hroute : route = "/sessions"
  · rw [if_pos hroute] at h
    split_ifs at h with hprompt href
    obtain rfl := Except.ok.inj h
    simp only [Bool.not_eq_true', Bool.not_eq_false] at hprompt href
    obtain ⟨prompt, hprompt, hne⟩ := nonempty_iff.1 hprompt
    obtain ⟨ref, href, hrefne⟩ := nonempty_iff.1 href
    exact .sessions prompt ref hroute hprompt hne href hrefne
  rw [if_neg hroute] at h
  cases hends : Text.endsWith route "/messages" with
  | true =>
    rw [hends, if_pos rfl] at h
    split_ifs at h with hcontent
    obtain rfl := Except.ok.inj h
    simp only [Bool.not_eq_true', Bool.not_eq_false] at hcontent
    obtain ⟨content, hcontent, hne⟩ := nonempty_iff.1 hcontent
    exact .messages content hroute hends hcontent hne
  | false =>
    rw [hends, if_neg Bool.false_ne_true] at h
    cases hcancel : Text.endsWith route "/cancel" with
    | true =>
      rw [hcancel, if_pos rfl] at h
      cases hrun : lookup "run_id" obj with
      | none => simp [hrun] at h
      | some v =>
        rw [hrun, Option.bind_some] at h
        cases v with
        | str run =>
          simp only [Value.asStr] at h
          cases hid : host.parseUuid run with
          | none => simp [hid] at h
          | some id =>
            rw [hid] at h
            obtain rfl := Except.ok.inj h
            exact .cancel run id hroute hends hcancel hrun hid
        | null | bool | num | arr | obj => cases h
    | false =>
      rw [hcancel, if_neg Bool.false_ne_true] at h
      obtain ⟨steps, hsteps⟩ := exists_orInsert "max_steps" .null obj
      rw [hsteps, Option.getD_some] at h
      split_ifs at h with hcount hresume htext
      · rw [Bool.not_eq_true, steps_iff] at hcount
        obtain rfl := Except.ok.inj h
        obtain ⟨content, hcontent⟩ := exists_orInsert "content" .null (orInsert "max_steps" .null obj)
        rw [hcontent, Option.getD_some, Bool.not_eq_true, content_iff] at htext
        exact .resume steps content hroute hends hcancel hresume hsteps hcount hcontent htext
      · rw [Bool.not_eq_true, steps_iff] at hcount
        rw [Bool.not_eq_true] at hresume
        obtain rfl := Except.ok.inj h
        exact .run steps hroute hends hcancel hresume hsteps hcount

theorem normalizeFields_of_accepted (h : Accepted host route obj out) :
    normalizeFields host route obj = .ok out := by
  unfold normalizeFields
  dsimp only
  cases h with
  | sessions prompt ref hroute hprompt hne href hrefne =>
    rw [if_pos hroute, if_neg, if_neg]
    · simpa [nonempty_iff] using ⟨ref, href, hrefne⟩
    · simpa [nonempty_iff] using ⟨prompt, hprompt, hne⟩
  | messages content hroute hends hcontent hne =>
    rw [if_neg hroute, if_pos hends, if_neg]
    simpa [nonempty_iff] using ⟨content, hcontent, hne⟩
  | cancel run id hroute hends hcancel hrun hid =>
    rw [if_neg hroute, hends, if_neg Bool.false_ne_true, if_pos hcancel, hrun, Option.bind_some]
    simp only [Value.asStr, hid]
  | resume steps content hroute hends hcancel hresume hsteps hcount hcontent htext =>
    rw [if_neg hroute, hends, if_neg Bool.false_ne_true, hcancel, if_neg Bool.false_ne_true, hsteps,
      Option.getD_some, steps_iff.2 hcount, if_neg Bool.false_ne_true, if_pos hresume, hcontent,
      Option.getD_some, content_iff.2 htext, if_neg Bool.false_ne_true]
  | run steps hroute hends hcancel hresume hsteps hcount =>
    rw [if_neg hroute, hends, if_neg Bool.false_ne_true, hcancel, if_neg Bool.false_ne_true, hsteps,
      Option.getD_some, steps_iff.2 hcount, if_neg Bool.false_ne_true, hresume,
      if_neg Bool.false_ne_true]

/-- A field of an accepted body after normalization. -/
theorem Accepted.lookup_eq (h : Accepted host route obj out) (hkeys : ∀ f ∈ obj, f.1 ∈ fieldsOf route)
    (k : String) : lookup k out = effective host route (.obj obj) k := by
  have habsent : ∀ k, k ∉ fieldsOf route → lookup k obj = none := by
    intro k hk
    refine lookup_eq_none.2 fun hmem => hk ?_
    obtain ⟨f, hf, rfl⟩ := List.mem_map.1 hmem
    exact hkeys f hf
  have hmeant : ∀ k v, k ≠ "run_id" → meant host k v = v := fun k v hk => if_neg hk
  have hid : "run_id" ∉ fieldsOf route → ∀ k, (lookup k obj).map (meant host k) = lookup k obj := by
    intro hnot k
    by_cases hk : k = "run_id"
    · rw [hk, habsent _ hnot]
      rfl
    · rw [funext fun v => hmeant k v hk, Option.map_id']
  unfold effective
  rw [Value.get_obj]
  cases h with
  | sessions prompt ref hroute hprompt hne href hrefne =>
    rw [hid (by simp [fieldsOf, hroute]), lookup_orInsert, optionalFields, if_pos hroute]
  | messages content hroute hends hcontent hne =>
    rw [hid (by simp [fieldsOf, hroute, hends]), optionalFields, if_neg hroute, if_pos hends]
    simp
  | cancel run id hroute hends hcancel hrun hid =>
    rw [optionalFields, if_neg hroute, if_neg (by simp [hends]), if_pos hcancel]
    by_cases hk : k = "run_id"
    · subst hk
      rw [lookup_insertField_self, hrun]
      simp [meant, Value.asStr, hid, Value.ofStr?]
    · rw [lookup_insertField_of_ne _ _ _ _ (Ne.symm hk), funext fun v => hmeant k v hk, Option.map_id']
      simp
  | resume steps content hroute hends hcancel hresume hsteps hcount hcontent htext =>
    rw [hid (by simp [fieldsOf, hroute, hends, hcancel, hresume]), lookup_orInsert, lookup_orInsert,
      optionalFields, if_neg hroute, if_neg (by simp [hends]), if_neg (by simp [hcancel]),
      if_pos hresume, Option.or_assoc]
    congr 1
    by_cases hk : "max_steps" = k <;> simp [hk]
  | run steps hroute hends hcancel hresume hsteps hcount =>
    rw [hid (by simp [fieldsOf, hroute, hends, hcancel, hresume]), lookup_orInsert, optionalFields,
      if_neg hroute, if_neg (by simp [hends]), if_neg (by simp [hcancel]), if_neg (by simp [hresume])]

theorem Accepted.nodup (h : Accepted host route obj out) (hn : (obj.map Prod.fst).Nodup) :
    (out.map Prod.fst).Nodup := by
  cases h with
  | sessions | run => exact nodup_orInsert hn
  | messages => exact hn
  | resume => exact nodup_orInsert (nodup_orInsert hn)
  | cancel run id hroute hends hcancel hrun hid =>
    have hk := lookup_isSome_iff.1 (Option.isSome_iff_exists.2 ⟨_, hrun⟩)
    rwa [keys_insertField hk]

/-- A text, a whole number or nothing. -/
inductive Plain : Value → Prop
  | null : Plain .null
  | str (s : String) : Plain (.str s)
  | int (i : Int) (hrange : (Number.int i).InRange) : Plain (.num (.int i))

theorem Steps.plain {v : Value} (h : Steps v) : Plain v := by
  rcases h with rfl | ⟨n, hn, -⟩
  · exact .null
  · cases v with
    | num m =>
      cases m with
      | int i =>
        rw [Value.asU64] at hn
        split_ifs at hn with hrange
        exact .int i ⟨by omega, hrange.2⟩
      | float f => cases hn
    | null | bool | str | arr | obj => cases hn

theorem Content.plain {v : Value} (h : Content v) : Plain v := by
  rcases h with rfl | ⟨s, rfl, -⟩
  · exact .null
  · exact .str s

theorem optionalFields_subset {k : String} {v : Value}
    (h : lookup k (optionalFields route) = some v) : k ∈ fieldsOf route := by
  have hmem := mem_of_lookup h
  unfold optionalFields at hmem
  unfold fieldsOf
  split_ifs at hmem ⊢ <;> simp_all
  grind

theorem Accepted.mem_fieldsOf (h : Accepted host route obj out)
    (hkeys : ∀ f ∈ obj, f.1 ∈ fieldsOf route) {k : String} {v : Value}
    (hv : lookup k out = some v) : k ∈ fieldsOf route := by
  rw [h.lookup_eq hkeys, effective, Option.or_eq_some_iff, Value.get_obj] at hv
  rcases hv with hv | ⟨-, hv⟩
  · obtain ⟨w, hw, -⟩ := Option.map_eq_some_iff.1 hv
    exact hkeys _ (mem_of_lookup hw)
  · exact optionalFields_subset hv

/-- A field of an accepted body is a text, a whole number or nothing. -/
theorem Accepted.plain (h : Accepted host route obj out) (hkeys : ∀ f ∈ obj, f.1 ∈ fieldsOf route)
    {k : String} {v : Value} (hv : lookup k out = some v) : Plain v := by
  have hk := h.mem_fieldsOf hkeys hv
  cases h with
  | sessions prompt ref hroute hprompt hne href hrefne =>
    rw [fieldsOf, if_pos hroute, List.mem_pair] at hk
    rcases hk with rfl | rfl
    · rw [lookup_orInsert, hprompt, Option.some_or, Option.some.injEq] at hv
      exact hv ▸ .str prompt
    · rw [href, Option.some.injEq] at hv
      exact hv ▸ .str ref
  | messages content hroute hends hcontent hne =>
    rw [fieldsOf, if_neg hroute, if_pos hends, List.mem_singleton] at hk
    subst hk
    rw [hcontent, Option.some.injEq] at hv
    exact hv ▸ .str content
  | cancel run id hroute hends hcancel hrun hid =>
    rw [fieldsOf, if_neg hroute, if_neg (by simp [hends]), if_pos hcancel, List.mem_singleton] at hk
    subst hk
    rw [lookup_insertField_self, Option.some.injEq] at hv
    exact hv ▸ .str id
  | resume steps content hroute hends hcancel hresume hsteps hcount hcontent htext =>
    rw [fieldsOf, if_neg hroute, if_neg (by simp [hends]), if_neg (by simp [hcancel]),
      if_pos hresume, List.mem_pair] at hk
    rcases hk with rfl | rfl
    · rw [hcontent, Option.some.injEq] at hv
      exact hv ▸ htext.plain
    · rw [lookup_orInsert, hsteps, Option.some_or, Option.some.injEq] at hv
      exact hv ▸ hcount.plain
  | run steps hroute hends hcancel hresume hsteps hcount =>
    rw [fieldsOf, if_neg hroute, if_neg (by simp [hends]), if_neg (by simp [hcancel]),
      if_neg (by simp [hresume]), List.mem_singleton] at hk
    subst hk
    rw [hsteps, Option.some.injEq] at hv
    exact hv ▸ hcount.plain

/-- What is accepted is accepted again, and stays as it is. -/
theorem Accepted.again (hu : host.ReadsUuids) (h : Accepted host route obj out) :
    Accepted host route out out := by
  cases h with
  | sessions prompt ref hroute hprompt hne href hrefne =>
    generalize hout : orInsert "config_ref" (.str "log-analysis.yaml") obj = out at href ⊢
    have hsame : orInsert "config_ref" (.str "log-analysis.yaml") out = out :=
      orInsert_of_lookup href
    have hprompt' : lookup "user_prompt" out = some (.str prompt) := by
      rw [← hout, lookup_orInsert, hprompt, Option.some_or]
    have hagain : Accepted host route out (orInsert "config_ref" (.str "log-analysis.yaml") out) :=
      .sessions prompt ref hroute hprompt' hne (by rw [hsame, href]) hrefne
    rwa [hsame] at hagain
  | messages content hroute hends hcontent hne => exact .messages content hroute hends hcontent hne
  | cancel run id hroute hends hcancel hrun hid =>
    have hself := lookup_insertField_self "run_id" (.str id) obj
    have hagain := Accepted.cancel id id hroute hends hcancel hself (hu.written run id hid)
    rwa [insertField_of_lookup hself] at hagain
  | resume steps content hroute hends hcancel hresume hsteps hcount hcontent htext =>
    generalize hout : orInsert "content" .null (orInsert "max_steps" .null obj) = out at hcontent ⊢
    have hsteps' : lookup "max_steps" out = some steps := by
      rw [← hout, lookup_orInsert, hsteps, Option.some_or]
    have hsame : orInsert "max_steps" .null out = out := orInsert_of_lookup hsteps'
    have hsame' : orInsert "content" .null out = out := orInsert_of_lookup hcontent
    have hagain : Accepted host route out (orInsert "content" .null (orInsert "max_steps" .null out)) :=
      .resume steps content hroute hends hcancel hresume (by rw [hsame, hsteps']) hcount
        (by rw [hsame, hsame', hcontent]) htext
    rwa [hsame, hsame'] at hagain
  | run steps hroute hends hcancel hresume hsteps hcount =>
    generalize hout : orInsert "max_steps" .null obj = out at hsteps ⊢
    have hsame : orInsert "max_steps" .null out = out := orInsert_of_lookup hsteps
    have hagain : Accepted host route out (orInsert "max_steps" .null out) :=
      .run steps hroute hends hcancel hresume (by rw [hsame, hsteps]) hcount
    rwa [hsame] at hagain

end accepted

/-! ## `normalize` -/

section normalized

variable {host : Host} {route : String} {body out : Value}

theorem normalize_ok_iff : normalize host route body = .ok out ↔
    ∃ obj fields, body = .obj obj ∧ out = .obj fields ∧ (∀ f ∈ obj, f.1 ∈ fieldsOf route) ∧
      Accepted host route obj fields ∧ ∃ text, Identity.canonical host (.obj fields) = .ok text := by
  constructor
  · intro h
    cases body with
    | obj obj =>
      rw [normalize] at h
      split_ifs at h with hany
      obtain ⟨fields, hfields, h⟩ := bind_ok h
      obtain ⟨text, htext, h⟩ := bind_ok h
      obtain rfl := Except.ok.inj h
      have hkeys : ∀ k v, (k, v) ∈ obj → k ∈ fieldsOf route := by simpa using hany
      exact ⟨obj, fields, rfl, rfl, fun f hf => hkeys f.1 f.2 hf,
        accepted_of_normalizeFields hfields, text, htext⟩
    | null | bool | num | str | arr => cases h
  · rintro ⟨obj, fields, rfl, rfl, hkeys, haccepted, text, htext⟩
    rw [normalize, if_neg, normalizeFields_of_accepted haccepted]
    · simp [bind, Except.bind, htext, pure, Except.pure]
    · simpa using hkeys

/-- Normalization gives a body its effective fields. -/
theorem normalize_get (h : normalize host route body = .ok out) (k : String) :
    out.get k = effective host route body k := by
  obtain ⟨obj, fields, rfl, rfl, hkeys, haccepted, -⟩ := normalize_ok_iff.1 h
  rw [Value.get_obj]
  exact haccepted.lookup_eq hkeys k

theorem normalize_again (hu : host.ReadsUuids) (h : normalize host route body = .ok out) :
    normalize host route out = .ok out := by
  obtain ⟨obj, fields, rfl, rfl, hkeys, haccepted, htext⟩ := normalize_ok_iff.1 h
  refine normalize_ok_iff.2 ⟨fields, fields, rfl, rfl, fun f hf => ?_, haccepted.again hu, htext⟩
  obtain ⟨v, hv⟩ := Option.isSome_iff_exists.1
    (lookup_isSome_iff.2 (List.mem_map_of_mem hf : f.1 ∈ fields.map Prod.fst))
  exact haccepted.mem_fieldsOf hkeys hv

end normalized

/-! ## The fingerprint -/

theorem same_iff_eq {v w : Value} (hv : Plain v) (hw : Plain w) : v.same w = true ↔ v = w := by
  cases hv <;> cases hw <;> simp [Value.same, Number.toRat]

theorem sameFields_iff {a b : List (String × Value)} : Value.sameFields a b = true ↔
    ∀ f ∈ a, ∃ w, lookup f.1 b = some w ∧ f.2.same w = true := by
  induction a with
  | nil => simp [Value.sameFields]
  | cons f a ih =>
    rw [Value.sameFields, Bool.and_eq_true, ih, List.forall_mem_cons]
    refine and_congr_left' ?_
    cases lookup f.1 b <;> simp

/-- Two objects of plain fields are the same JSON value if every property is. -/
theorem same_obj_iff {a b : List (String × Value)} (ha : (a.map Prod.fst).Nodup)
    (hb : (b.map Prod.fst).Nodup) (hpa : ∀ k v, lookup k a = some v → Plain v)
    (hpb : ∀ k v, lookup k b = some v → Plain v) :
    (Value.obj a).same (.obj b) = true ↔ ∀ k, lookup k a = lookup k b := by
  rw [Value.same, Bool.and_eq_true, decide_eq_true_eq, sameFields_iff]
  constructor
  · rintro ⟨hlen, h⟩ k
    have hsub : a.map Prod.fst ⊆ b.map Prod.fst := by
      intro k hk
      obtain ⟨f, hf, rfl⟩ := List.mem_map.1 hk
      obtain ⟨w, hw, -⟩ := h f hf
      exact lookup_isSome_iff.1 (Option.isSome_iff_exists.2 ⟨w, hw⟩)
    have hperm : (a.map Prod.fst).Perm (b.map Prod.fst) :=
      (ha.subperm hsub).perm_of_length_le (by simp [hlen])
    cases hk : lookup k a with
    | none =>
      rw [lookup_eq_none, hperm.mem_iff] at hk
      exact (lookup_eq_none.2 hk).symm
    | some v =>
      obtain ⟨w, hw, hsame⟩ := h _ (mem_of_lookup hk)
      rw [hw, (same_iff_eq (hpa k v hk) (hpb k w hw)).1 hsame]
  · intro h
    have hperm : (a.map Prod.fst).Perm (b.map Prod.fst) := by
      refine (List.perm_ext_iff_of_nodup ha hb).2 fun k => ?_
      rw [← lookup_isSome_iff, ← lookup_isSome_iff, h]
    refine ⟨by simpa using hperm.length_eq, fun f hf => ⟨f.2, ?_, ?_⟩⟩
    · rw [← h]
      exact lookup_of_mem ha hf
    · have hplain := hpa f.1 f.2 (lookup_of_mem ha hf)
      exact (same_iff_eq hplain hplain).2 rfl

section fingerprint

variable {host : Host}

theorem Plain.valid {v : Value} (h : Plain v) : v.valid = true := by
  cases h with
  | null | str => rfl
  | int i hrange => exact Value.valid_num.2 hrange

/-- What `normalize` returns for a document: plain fields, each once. -/
theorem normalize_fields {route : String} {body : Document} {out : Value}
    (h : normalize host route body.value = .ok out) : ∃ fields, out = .obj fields ∧
      (fields.map Prod.fst).Nodup ∧ ∀ k v, lookup k fields = some v → Plain v := by
  obtain ⟨obj, fields, hbody, rfl, hkeys, haccepted, -⟩ := normalize_ok_iff.1 h
  have hvalid := body.valid
  rw [hbody, Value.valid_obj] at hvalid
  exact ⟨fields, rfl, haccepted.nodup hvalid.1, fun k v hv => haccepted.plain hkeys hv⟩

/-- A normalized body with its route, as it is hashed. -/
theorem exists_command {route : String} {body : Document} {out : Value}
    (h : normalize host route body.value = .ok out) : ∃ v : Document,
      v.value = .arr [.str "agent-command-v1", .str "POST", .str route, out] ∧
        ∃ text, Identity.canonical host v.value = .ok text := by
  obtain ⟨fields, rfl, hn, hplain⟩ := normalize_fields h
  obtain ⟨-, _, -, heq, -, -, text, htext⟩ := normalize_ok_iff.1 h
  obtain rfl := Value.obj.inj heq
  have hvalid : (Value.obj fields).valid = true :=
    Value.valid_obj.2 ⟨hn, fun f hf => (hplain f.1 f.2 (lookup_of_mem hn hf)).valid⟩
  generalize Value.obj fields = out at hvalid htext
  refine ⟨⟨.arr [.str "agent-command-v1", .str "POST", .str route, out], ?_⟩, rfl, ?_⟩
  · rw [Value.valid_arr]
    simpa [Value.valid] using hvalid
  · simp [Identity.canonical, Identity.canonicalItems, htext, bind, Except.bind, pure, Except.pure]

theorem exists_fingerprint {route : String} {body : Document} {out : Value}
    (h : normalize host route body.value = .ok out) :
    ∃ hash, fingerprint host route out = .ok hash := by
  obtain ⟨v, hv, text, htext⟩ := exists_command h
  exact ⟨host.sha256 text, by rw [fingerprint, ← hv, Identity.digest, htext]; rfl⟩

/-- The fingerprints of two normalized bodies are the same if and only if the routes are and every
field counts the same. -/
theorem fingerprint_eq_iff (hp : host.Prints) (hsha : Function.Injective host.sha256)
    {route route' : String} {body body' : Document} {out out' : Value}
    (h : normalize host route body.value = .ok out)
    (h' : normalize host route' body'.value = .ok out') :
    fingerprint host route out = fingerprint host route' out' ↔
      route = route' ∧ ∀ k, effective host route body.value k = effective host route' body'.value k := by
  obtain ⟨v, hv, text, htext⟩ := exists_command h
  obtain ⟨v', hv', text', htext'⟩ := exists_command h'
  obtain ⟨fields, hfields, hn, hplain⟩ := normalize_fields h
  obtain ⟨fields', hfields', hn', hplain'⟩ := normalize_fields h'
  have hdigest : fingerprint host route out = .ok (host.sha256 text) := by
    rw [fingerprint, ← hv, Identity.digest, htext]
    rfl
  have hdigest' : fingerprint host route' out' = .ok (host.sha256 text') := by
    rw [fingerprint, ← hv', Identity.digest, htext']
    rfl
  have hsame := Identity.canonical_eq_iff_same hp v v' htext htext'
  have hbodies : out.same out' = true ↔ ∀ k, out.get k = out'.get k := by
    rw [hfields, hfields']
    exact same_obj_iff hn hn' hplain hplain'
  rw [hdigest, hdigest', Except.ok.injEq, hsha.eq_iff, hsame, hv, hv']
  simp only [Value.same, Value.sameItems, decide_true, Bool.true_and, Bool.and_true, Bool.and_eq_true,
    decide_eq_true_eq, hbodies, normalize_get h, normalize_get h']

/-- The hash of a prepared request is the fingerprint of its route and its normalized body. -/
theorem prepare_hash {sv : Server} {request : HttpRequest} {p : Prepared}
    (h : prepare sv request = .ok p) : fingerprint sv.host p.route p.body = .ok p.hash := by
  unfold prepare at h
  dsimp only at h
  split at h
  · cases h
  split at h
  · cases h
  split at h
  · cases h
  split at h
  · cases h
  split at h
  · cases h
  split at h
  · cases h
  · cases h
  next hdigest _ =>
    obtain rfl := Except.ok.inj h
    exact hdigest

end fingerprint

/-! ## Bodies that ask for the same -/

/-- Another way to write the fields of a body: in another order, with a UUID in other letter case,
or with an optional field written out. -/
inductive Rewritten (route : String) :
    List (String × Value) → List (String × Value) → Prop
  | order {b b' : List (String × Value)} (h : b.Perm b') : Rewritten route b b'
  | recased {b : List (String × Value)} {s t : String} (hrun : lookup "run_id" b = some (.str s))
      (h : Recased s t) : Rewritten route b (insertField "run_id" (.str t) b)
  | written {b : List (String × Value)} {k : String} {v : Value}
      (hv : lookup k (optionalFields route) = some v) (habsent : lookup k b = none) :
      Rewritten route b (b ++ [(k, v)])

section rewritten

variable {host : Host} {route : String} {b b' : List (String × Value)}

theorem Rewritten.nodup_iff (h : Rewritten route b b') :
    (b.map Prod.fst).Nodup ↔ (b'.map Prod.fst).Nodup := by
  cases h with
  | order h => exact (h.map Prod.fst).nodup_iff
  | recased hrun h =>
    rw [keys_insertField (lookup_isSome_iff.1 (Option.isSome_iff_exists.2 ⟨_, hrun⟩))]
  | written hv habsent =>
    rw [List.map_append, List.nodup_append]
    have hnot := lookup_eq_none.1 habsent
    simp only [List.map_singleton, List.nodup_singleton, List.mem_singleton, true_and]
    refine ⟨fun hb => ⟨hb, ?_⟩, fun hb => hb.1⟩
    rintro a ha _ rfl rfl
    exact hnot ha

theorem lookup_eq_of_perm (h : b.Perm b') (hn : (b.map Prod.fst).Nodup) (k : String) :
    lookup k b = lookup k b' := by
  have hn' := (h.map Prod.fst).nodup_iff.1 hn
  cases hk : lookup k b with
  | none =>
    rw [lookup_eq_none, (h.map Prod.fst).mem_iff] at hk
    exact (lookup_eq_none.2 hk).symm
  | some v => exact (lookup_of_mem hn' (h.mem_iff.1 (mem_of_lookup hk))).symm

theorem run_id_not_optional : lookup "run_id" (optionalFields route) = none := by
  unfold optionalFields
  split_ifs <;> rfl

theorem Rewritten.effective_eq (hu : host.ReadsUuids) (h : Rewritten route b b')
    (hn : (b.map Prod.fst).Nodup) (k : String) :
    effective host route (.obj b) k = effective host route (.obj b') k := by
  unfold effective
  rw [Value.get_obj, Value.get_obj]
  cases h with
  | order h => rw [lookup_eq_of_perm h hn]
  | @recased s t hrun h =>
    by_cases hk : k = "run_id"
    · subst hk
      rw [lookup_insertField_self, hrun, Option.map_some, Option.map_some]
      simp only [meant, Value.asStr, Option.bind_some, hu.recased s t h, if_true]
    · rw [lookup_insertField_of_ne _ _ _ _ (Ne.symm hk)]
  | @written k' v hv habsent =>
    rw [lookup_append]
    by_cases hk : k = k'
    · subst hk
      have hrun : k ≠ "run_id" := by
        rintro rfl
        rw [run_id_not_optional] at hv
        cases hv
      simp [habsent, hv, meant, hrun]
    · simp [Ne.symm hk]

/-- Bodies that are written in different ways only have the same effective fields. -/
theorem effective_eq_of_rewritten (hu : host.ReadsUuids)
    (h : Relation.EqvGen (Rewritten route) b b') (hn : (b.map Prod.fst).Nodup) (k : String) :
    effective host route (.obj b) k = effective host route (.obj b') k := by
  suffices hsuff : ((b.map Prod.fst).Nodup ↔ (b'.map Prod.fst).Nodup) ∧
      ((b.map Prod.fst).Nodup →
        effective host route (.obj b) k = effective host route (.obj b') k) from hsuff.2 hn
  clear hn
  induction h with
  | rel b b' h => exact ⟨h.nodup_iff, fun hn => h.effective_eq hu hn k⟩
  | refl b => exact ⟨Iff.rfl, fun _ => rfl⟩
  | symm b b' _ ih => exact ⟨ih.1.symm, fun hn => (ih.2 (ih.1.2 hn)).symm⟩
  | trans b b' b'' _ _ ih ih' =>
    exact ⟨ih.1.trans ih'.1, fun hn => (ih.2 hn).trans (ih'.2 (ih.1.1 hn))⟩

end rewritten

/-! ## The session of a route -/

/-- The session named in a route. -/
def sessionOf (route : String) : Option String :=
  if (Text.split route '/')[1]? = some "sessions" then (Text.split route '/')[2]? else none

theorem split_join {l : String} {ls : List String} (h : ∀ part ∈ l :: ls, '/' ∉ part.toList) :
    Text.split (Text.joinWith "/" (l :: ls)) '/' = l :: ls := by
  rw [Text.split, @Text.splitList_join "/" '/' rfl l ls h, List.map_map]
  exact List.map_id'' (fun _ => String.ofList_toList) _

theorem not_mem_of_mem_split {path part : String} (h : part ∈ Text.split path '/') :
    '/' ∉ part.toList := by
  obtain ⟨cs, hcs, rfl⟩ := List.mem_map.1 h
  rw [String.toList_ofList]
  exact Text.not_mem_of_mem_splitList hcs

theorem session_eq {host : Host} (hu : host.ReadsUuids) {path route : String}
    {session : Option String} (h : parseRoute host path = some (route, session)) :
    session = sessionOf route := by
  unfold parseRoute at h
  dsimp only at h
  split at h
  next a id rest hparts =>
    split at h
    next id' hid =>
      obtain ⟨rfl, rfl⟩ := Prod.mk.inj (Option.some.inj h)
      have hsplit := @split_join a ("sessions" :: id' :: rest) fun part hpart => by
        by_cases heq : part = id'
        · exact heq ▸ hu.slash id id' hid
        · apply @not_mem_of_mem_split path
          rw [hparts]
          simp only [List.mem_cons] at hpart ⊢
          tauto
      rw [sessionOf, hsplit]
      rfl
    · cases h
  next hother =>
    obtain ⟨rfl, rfl⟩ := Prod.mk.inj (Option.some.inj h)
    cases hparts : Text.split path '/' with
    | nil => rfl
    | cons a rest =>
      have hsplit := @split_join a rest fun part hpart =>
        not_mem_of_mem_split (hparts ▸ hpart)
      rw [sessionOf, hsplit]
      split_ifs with hsessions
      · cases rest with
        | nil => cases hsessions
        | cons b rest =>
          obtain rfl : b = "sessions" := Option.some.inj hsessions
          cases rest with
          | nil => rfl
          | cons id rest => exact (hother a id rest hparts).elim
      · rfl

/-! ## The meaning of a command -/

/-- Normalization is idempotent and the fingerprint of a normalized body is that of the command's
meaning: the same however the body is written, another for another effective field, another route or
another session. -/
theorem normalize_captures (host : Host) (hp : host.Prints) (hu : host.ReadsUuids)
    (hsha : Function.Injective host.sha256) :
    (∀ route body out, normalize host route body = .ok out → normalize host route out = .ok out) ∧
    (∀ route (body body' : Document) obj obj' out out',
      body.value = .obj obj → body'.value = .obj obj' →
      normalize host route body.value = .ok out → normalize host route body'.value = .ok out' →
      Relation.EqvGen (Rewritten route) obj obj' →
      ∃ hash, fingerprint host route out = .ok hash ∧ fingerprint host route out' = .ok hash) ∧
    (∀ route route' (body body' : Document) out out',
      normalize host route body.value = .ok out → normalize host route' body'.value = .ok out' →
      (route ≠ route' ∨
        ∃ k, effective host route body.value k ≠ effective host route' body'.value k) →
      fingerprint host route out ≠ fingerprint host route' out') ∧
    ∀ path path' route route' session session' (body body' : Document) out out',
      parseRoute host path = some (route, session) →
      parseRoute host path' = some (route', session') → session ≠ session' →
      normalize host route body.value = .ok out → normalize host route' body'.value = .ok out' →
      fingerprint host route out ≠ fingerprint host route' out' := by
  refine ⟨fun _ _ _ h => normalize_again hu h, ?_, ?_, ?_⟩
  · intro route body body' obj obj' out out' hobj hobj' h h' hrewritten
    have hvalid := body.valid
    rw [hobj, Value.valid_obj] at hvalid
    have heffective := effective_eq_of_rewritten hu hrewritten hvalid.1
    obtain ⟨hash, hhash⟩ := exists_fingerprint h
    refine ⟨hash, hhash, ?_⟩
    rw [← hhash, eq_comm, fingerprint_eq_iff hp hsha h h', hobj, hobj']
    exact ⟨rfl, heffective⟩
  · intro route route' body body' out out' h h' hdiffer heq
    obtain ⟨hroute, heffective⟩ := (fingerprint_eq_iff hp hsha h h').1 heq
    rcases hdiffer with hne | ⟨k, hk⟩
    · exact hne hroute
    · exact hk (heffective k)
  · intro path path' route route' session session' body body' out out' hpath hpath' hne h h' heq
    obtain ⟨hroute, -⟩ := (fingerprint_eq_iff hp hsha h h').1 heq
    rw [session_eq hu hpath, session_eq hu hpath', hroute] at hne
    exact hne rfl

/-- A host that reads UUIDs of letters, digits and hyphens. -/
def lowerHost : Host := { exactHost with
  parseUuid := fun text =>
    if text.toList.all fun c => c.isAlphanum || c = '-' then
      some (.ofList (text.toList.map Char.toLower))
    else none }

theorem lowerHost_prints : lowerHost.Prints := exactHost_prints

theorem lowerHost_parse {text id : String} (h : lowerHost.parseUuid text = some id) :
    (∀ c ∈ text.toList, c.isAlphanum ∨ c = '-') ∧ id.toList = text.toList.map Char.toLower := by
  unfold lowerHost at h
  dsimp only at h
  split_ifs at h with hall
  obtain rfl := Option.some.inj h
  exact ⟨by simpa using hall, String.toList_ofList⟩

theorem toLower_small : ∀ n < 128,
    ((Char.ofNat n).isAlphanum = true ∨ Char.ofNat n = '-') →
      ((Char.ofNat n).toLower.isAlphanum = true ∨ (Char.ofNat n).toLower = '-') ∧
        (Char.ofNat n).toLower.toLower = (Char.ofNat n).toLower := by
  decide +kernel

theorem isAlphanum_eq (c : Char) : c.isAlphanum =
    ((decide ('A'.val ≤ c.val ∧ c.val ≤ 'Z'.val) ||
      decide ('a'.val ≤ c.val) && decide (c.val ≤ 'z'.val)) ||
        decide ('0'.val ≤ c.val) && decide (c.val ≤ '9'.val)) := rfl

theorem toLower_spec {c : Char} (h : c.isAlphanum = true ∨ c = '-') :
    (c.toLower.isAlphanum = true ∨ c.toLower = '-') ∧ c.toLower.toLower = c.toLower := by
  have hsmall : c.toNat < 128 := by
    rcases h with h | rfl
    · simp only [isAlphanum_eq, Bool.or_eq_true, Bool.and_eq_true, decide_eq_true_eq,
        UInt32.le_iff_toNat_le] at h
      have hA : 'A'.val.toNat = 65 := rfl
      have hZ : 'Z'.val.toNat = 90 := rfl
      have ha : 'a'.val.toNat = 97 := rfl
      have hz : 'z'.val.toNat = 122 := rfl
      have h0 : '0'.val.toNat = 48 := rfl
      have h9 : '9'.val.toNat = 57 := rfl
      change c.val.toNat < 128
      omega
    · decide
  have hspec := toLower_small c.toNat hsmall
  rw [Char.ofNat_toNat] at hspec
  exact hspec h

theorem lowerHost_readsUuids : lowerHost.ReadsUuids where
  written text id h := by
    obtain ⟨hall, hid⟩ := lowerHost_parse h
    have hlower : id.toList.all (fun c => c.isAlphanum || c = '-') = true := by
      rw [hid, List.all_map, List.all_eq_true]
      intro c hc
      simpa using (toLower_spec (hall c hc)).1
    have hsame : id.toList.map Char.toLower = id.toList := by
      rw [hid, List.map_map]
      exact List.map_congr_left fun c hc => (toLower_spec (hall c hc)).2
    unfold lowerHost
    dsimp only
    rw [if_pos hlower, hsame, String.ofList_toList]
  recased s t h := by
    obtain ⟨hform, hs, ht, h⟩ := h
    rename_i before after s t
    have hall : ∀ u : List Char, (∀ c ∈ u, c.isAlphanum = true ∨ c = '-') →
        u.all (fun c => c.isAlphanum || c = '-') = true := fun u hu => by
      rw [List.all_eq_true]
      intro c hc
      simpa using hu c hc
    unfold lowerHost
    dsimp only
    simp only [String.toList_append, String.toList_ofList, List.all_append, List.map_append,
      hall s hs, hall t ht, h]
  slash text id h := by
    obtain ⟨hall, hid⟩ := lowerHost_parse h
    rw [hid, List.mem_map]
    rintro ⟨c, hc, hslash⟩
    have hlower := (toLower_spec (hall c hc)).1
    rw [hslash] at hlower
    revert hlower
    decide

/-- The bodies of three requests to resume. -/
def sampleResume : Document := ⟨.obj [("content", .str "go")], by decide⟩

def sampleWritten : Document := ⟨.obj [("max_steps", .null), ("content", .str "go")], by decide⟩

def sampleOther : Document := ⟨.obj [("content", .str "stop")], by decide⟩

/-- The second body says what the first one does, the third one something else. -/
theorem normalize_captures_resume : ∃ hash other,
    fingerprint lowerHost "/sessions/1/resume"
        (.obj [("content", .str "go"), ("max_steps", .null)]) = .ok hash ∧
      fingerprint lowerHost "/sessions/1/resume"
        (.obj [("max_steps", .null), ("content", .str "go")]) = .ok hash ∧
      fingerprint lowerHost "/sessions/1/resume"
        (.obj [("content", .str "stop"), ("max_steps", .null)]) = .ok other ∧ hash ≠ other := by
  have hcaptures := normalize_captures lowerHost lowerHost_prints lowerHost_readsUuids fun _ _ h => h
  have hfirst : normalize lowerHost "/sessions/1/resume" sampleResume.value =
      .ok (.obj [("content", .str "go"), ("max_steps", .null)]) := rfl
  have hsecond : normalize lowerHost "/sessions/1/resume" sampleWritten.value =
      .ok (.obj [("max_steps", .null), ("content", .str "go")]) := rfl
  have hthird : normalize lowerHost "/sessions/1/resume" sampleOther.value =
      .ok (.obj [("content", .str "stop"), ("max_steps", .null)]) := rfl
  have hrewritten : Relation.EqvGen (Rewritten "/sessions/1/resume")
      [("content", .str "go")] [("max_steps", .null), ("content", .str "go")] :=
    .trans _ _ _ (.rel _ _ (.written rfl rfl)) (.rel _ _ (.order (.swap _ _ _)))
  obtain ⟨hash, hhash, hhash'⟩ :=
    hcaptures.2.1 _ sampleResume sampleWritten _ _ _ _ rfl rfl hfirst hsecond hrewritten
  obtain ⟨other, hother⟩ := exists_fingerprint hthird
  have hne := hcaptures.2.2.1 _ _ sampleResume sampleOther _ _ hfirst hthird
    (.inr ⟨"content", fun h => absurd (Option.some.inj h) (by simp [meant])⟩)
  refine ⟨hash, other, hhash, hhash', hother, ?_⟩
  rintro rfl
  exact hne (hhash.trans hother.symm)

end Commands

end StateDrivenAgent
