import SpecForge.Ts.Client

/-!
# Idempotency keys

Whether the requests of one call carry one key. What a server reads as the value of a header
comes from all entries of its name, in any case (§1). The headers are built anew for each
attempt and only the first one gets a key, so the key is kept exactly when it was among the
supplied headers already, or nothing is tried again (§2).
-/

namespace SpecForge.Ts

open Lib

universe u

/-! ## §1  Header values -/

section Values

variable {name : String}

theorem filter_insertEntry_of_ne {k v : String} (hk : Text.eqIgnoreAsciiCase k name = false) :
    ∀ l : List (String × String),
      (insertEntry k v l).filter (fun e => Text.eqIgnoreAsciiCase e.1 name) =
        l.filter fun e => Text.eqIgnoreAsciiCase e.1 name
  | [] => by simp [insertEntry, hk]
  | e :: l => by
      have ih := filter_insertEntry_of_ne (v := v) hk l
      by_cases he : e.1 = k
      · rw [insertEntry_cons_self he, List.filter_cons_of_neg (by simp [hk]),
          List.filter_cons_of_neg (by simp [he, hk])]
      · rw [insertEntry_cons_ne he, List.filter_cons, ih, List.filter_cons]

/-- Setting another header leaves the value alone. -/
theorem wireValue_insert_of_ne {k v : String} {h : Headers}
    (hk : Text.eqIgnoreAsciiCase k name = false) :
    wireValue name (h.insert k v) = wireValue name h := by
  rw [wireValue, wireValue, valuesOf, valuesOf, IndexMap.insert, filter_insertEntry_of_ne hk]

theorem valuesOf_insert_of_notMem {v : String} {h : Headers} (hname : name ∉ h.keys) :
    valuesOf name (h.insert name v) = valuesOf name h ++ [normalizeValue v] := by
  have hentries : (h.insert name v).entries = h.entries ++ [(name, v)] :=
    insertEntry_of_notMem hname
  have hrefl := Text.eqIgnoreAsciiCase_refl name
  rw [valuesOf, hentries, List.filter_append, List.map_append, valuesOf]
  simp [hrefl]

theorem wireValue_isSome_of_mem {h : Headers} (hname : name ∈ h.keys) :
    ∃ value, wireValue name h = some value := by
  obtain ⟨e, he, heq⟩ := List.mem_map.mp hname
  have hmem : normalizeValue e.2 ∈ valuesOf name h := by
    refine List.mem_map.mpr ⟨e, List.mem_filter.mpr ⟨he, ?_⟩, rfl⟩
    rw [heq]
    exact Text.eqIgnoreAsciiCase_refl name
  rw [wireValue]
  rcases hvalues : valuesOf name h with _ | ⟨value, values⟩
  · rw [hvalues] at hmem
    exact absurd hmem List.not_mem_nil
  · exact ⟨_, rfl⟩

/-- A text joined with one more part is longer. -/
theorem join_concat_ne {values : List String} (hne : values ≠ []) (value : String) :
    Text.join ", " (values ++ [value]) ≠ Text.join ", " values := by
  intro h
  have hlen := congrArg (fun s : String => s.toList.length) h
  rw [Text.join, Text.join, String.intercalate_append_of_ne_nil hne (List.cons_ne_nil _ _)] at hlen
  simp only [String.toList_append, List.length_append] at hlen
  have hsep : (", " : String).toList.length = 2 := rfl
  omega

/-- A key of its own is seen in the value. -/
theorem wireValue_insert_ne {v : String} {h : Headers} (hname : name ∉ h.keys) :
    wireValue name (h.insert name v) ≠ wireValue name h := by
  rw [wireValue, wireValue, valuesOf_insert_of_notMem hname]
  rcases hvalues : valuesOf name h with _ | ⟨value, values⟩
  · simp
  · intro heq
    have hne : valuesOf name h ≠ [] := by
      rw [hvalues]
      exact List.cons_ne_nil value values
    have hjoin := join_concat_ne hne (normalizeValue v)
    rw [hvalues] at hjoin
    exact hjoin (Option.some.inj heq)

end Values

/-! ## §2  Keys of a call -/

namespace AuthProvider

variable {δ : Type u}

/-- The header that a provider sets. -/
def header : AuthProvider δ → Option String
  | anonymous => none
  | bearer _ => some "Authorization"
  | apikey header _ => some header

/-- The credentials are read as an idempotency key. -/
def setsKey (auth : AuthProvider δ) : Bool :=
  auth.header.any fun name => Text.eqIgnoreAsciiCase name IDEMPOTENCY_HEADER

end AuthProvider

section Keys

variable {δ : Type u} {json : HostJson δ} {c : ApiClient δ} {call : Call δ}

/-- Every request carries a key, and it is the same one. -/
def OneKey (requests : List MiddlewareRequest) : Prop :=
  ∃ key, ∀ req ∈ requests, wireValue IDEMPOTENCY_HEADER req.headers = some key

theorem mem_keys_attachKey (newKey : String) (h : Headers) :
    IDEMPOTENCY_HEADER ∈ (attachKey newKey h).keys := by
  rw [attachKey]
  split
  · next hmem => exact IndexMap.containsKey_iff.mp hmem
  · exact IndexMap.mem_keys_of_get (IndexMap.get_insert_self h IDEMPOTENCY_HEADER newKey)

/-- The first request has the key, a later one what it is supplied with. -/
theorem attemptHeaders_eq (huse : c.useIdempotency = true)
    (hmethod : isIdempotencyCandidate call.method = true) (attempt : ℕ) (supplied : Headers) :
    call.attemptHeaders c attempt supplied =
      if attempt = 0 then attachKey call.newIdempotencyKey supplied else supplied := by
  rw [Call.attemptHeaders]
  exact if_congr (by rw [huse, hmethod]; simp) rfl rfl

/-- The later requests are compared with the first one. -/
theorem oneKey_iff_later (huse : c.useIdempotency = true)
    (hmethod : isIdempotencyCandidate call.method = true) :
    OneKey (dispatchWithRetry json c call).1 ↔
      ∀ i first later, 0 < i → call.Attempted c i →
        call.suppliedHeaders c 0 = .ok first → call.suppliedHeaders c i = .ok later →
        wireValue IDEMPOTENCY_HEADER later =
          wireValue IDEMPOTENCY_HEADER (attachKey call.newIdempotencyKey first) := by
  have hrequest : ∀ {i req}, (dispatchWithRetry json c call).1[i]? = some req →
      call.Attempted c i ∧ ∃ supplied, call.suppliedHeaders c i = .ok supplied ∧
        req.headers = if i = 0 then attachKey call.newIdempotencyKey supplied else supplied := by
    intro i req hreq
    obtain ⟨hattempted, supplied, hsupplied, rfl⟩ := getElem?_dispatchWithRetry.mp hreq
    exact ⟨hattempted, supplied, hsupplied, attemptHeaders_eq huse hmethod i supplied⟩
  constructor
  · rintro ⟨key, hkey⟩ i first later hi hattempted hfirst hlater
    have hreq : ∀ {j supplied}, call.Attempted c j → call.suppliedHeaders c j = .ok supplied →
        wireValue IDEMPOTENCY_HEADER (call.attemptHeaders c j supplied) = some key :=
      fun hj hsupplied => hkey _ (List.mem_of_getElem?
        (getElem?_dispatchWithRetry.mpr ⟨hj, _, hsupplied, rfl⟩))
    have h0 := hreq (hattempted.mono (Nat.zero_le i)) hfirst
    have hi' := hreq hattempted hlater
    rw [attemptHeaders_eq huse hmethod, if_pos rfl] at h0
    rw [attemptHeaders_eq huse hmethod, if_neg (Nat.ne_of_gt hi)] at hi'
    rw [h0, hi']
  · intro h
    rcases hfirst : call.suppliedHeaders c 0 with e | first
    · -- the provider refuses before the first request
      refine ⟨"", fun req hreq => ?_⟩
      obtain ⟨i, hi⟩ := List.mem_iff_getElem?.mp hreq
      obtain ⟨hattempted, supplied, hsupplied, -⟩ := hrequest hi
      rcases Nat.eq_zero_or_pos i with rfl | hpos
      · rw [hfirst] at hsupplied
        cases hsupplied
      · obtain ⟨first, hok⟩ := (hattempted.2 0 hpos).1
        rw [hfirst] at hok
        cases hok
    · obtain ⟨key, hkey⟩ := wireValue_isSome_of_mem
        (mem_keys_attachKey call.newIdempotencyKey first)
      refine ⟨key, fun req hreq => ?_⟩
      obtain ⟨i, hi⟩ := List.mem_iff_getElem?.mp hreq
      obtain ⟨hattempted, supplied, hsupplied, hheaders⟩ := hrequest hi
      rcases Nat.eq_zero_or_pos i with rfl | hpos
      · rw [hfirst] at hsupplied
        rw [hheaders, if_pos rfl, ← Except.ok.inj hsupplied, hkey]
      · rw [hheaders, if_neg (Nat.ne_of_gt hpos), h i first supplied hpos hattempted hfirst
          hsupplied, hkey]

theorem exists_of_map_eq_ok {ε α β : Type*} {f : α → β} {b : β} : ∀ {x : Except ε α},
    x.map f = .ok b → ∃ a, b = f a
  | .ok a, h => ⟨a, (Except.ok.inj h).symm⟩

/-- A provider sets its header and leaves the others. -/
theorem applyAuth_eq_ok {auth : AuthProvider δ} {headers supplied : Headers} {attempt : ℕ}
    (h : applyAuth headers attempt auth = .ok supplied) :
    supplied = headers ∨
      ∃ name value, auth.header = some name ∧ supplied = headers.insert name value := by
  rcases auth with _ | getToken | ⟨name, getApiKey⟩
  · exact Or.inl (Except.ok.inj h).symm
  · obtain ⟨token, heq⟩ := exists_of_map_eq_ok h
    exact Or.inr ⟨_, _, rfl, heq⟩
  · obtain ⟨key, heq⟩ := exists_of_map_eq_ok h
    exact Or.inr ⟨_, _, rfl, heq⟩

/-- Credentials under another name do not matter to the key. -/
theorem supplied_spec (hauth : c.auth.setsKey = false) {attempt : ℕ} {supplied : Headers}
    (h : call.suppliedHeaders c attempt = .ok supplied) :
    wireValue IDEMPOTENCY_HEADER supplied =
        wireValue IDEMPOTENCY_HEADER (c.defaultHeaders.extend call.opts.headers) ∧
      (IDEMPOTENCY_HEADER ∈ supplied.keys ↔
        IDEMPOTENCY_HEADER ∈ c.defaultHeaders.keys ∨
          IDEMPOTENCY_HEADER ∈ call.opts.headers.keys) := by
  rw [← IndexMap.mem_keys_extend]
  rcases applyAuth_eq_ok h with rfl | ⟨name, value, hname, rfl⟩
  · exact ⟨rfl, Iff.rfl⟩
  · rw [AuthProvider.setsKey, hname, Option.any_some] at hauth
    refine ⟨wireValue_insert_of_ne hauth, ?_⟩
    have hne : IDEMPOTENCY_HEADER ≠ name := by
      rintro rfl
      rw [Text.eqIgnoreAsciiCase_refl] at hauth
      cases hauth
    exact mem_keys_insertEntry.trans (or_iff_right hne)

/-- The condition under which one key is kept: if a second attempt is made, the key must be
among the headers that the application supplies. Where the credentials themselves are read
as a key, each attempt must be supplied with the value of the first request. -/
structure Call.KeyKept (c : ApiClient δ) (call : Call δ) : Prop where
  supplied : c.auth.setsKey = false → call.Attempted c 1 →
    (∃ supplied, call.suppliedHeaders c 1 = .ok supplied) →
    IDEMPOTENCY_HEADER ∈ c.defaultHeaders.keys ∨ IDEMPOTENCY_HEADER ∈ call.opts.headers.keys
  credentials : c.auth.setsKey = true → ∀ i first later, 0 < i → call.Attempted c i →
    call.suppliedHeaders c 0 = .ok first → call.suppliedHeaders c i = .ok later →
    wireValue IDEMPOTENCY_HEADER later =
      wireValue IDEMPOTENCY_HEADER (attachKey call.newIdempotencyKey first)

theorem oneKey_iff (huse : c.useIdempotency = true)
    (hmethod : isIdempotencyCandidate call.method = true) :
    OneKey (dispatchWithRetry json c call).1 ↔ call.KeyKept c := by
  rw [oneKey_iff_later huse hmethod]
  rcases hauth : c.auth.setsKey with _ | _
  · constructor
    · intro h
      refine ⟨fun _ hsecond hsupplied => ?_, fun htrue => ?_⟩
      · obtain ⟨later, hlater⟩ := hsupplied
        obtain ⟨first, hfirst⟩ := (hsecond.2 0 Nat.one_pos).1
        have hwire := h 1 first later Nat.one_pos hsecond hfirst hlater
        rw [(supplied_spec hauth hlater).1, ← (supplied_spec hauth hfirst).1] at hwire
        by_contra hnone
        rw [← (supplied_spec hauth hfirst).2] at hnone
        have hattach : attachKey call.newIdempotencyKey first =
            first.insert IDEMPOTENCY_HEADER call.newIdempotencyKey := by
          rw [attachKey, if_neg (by rwa [IndexMap.containsKey_iff])]
        rw [hattach] at hwire
        exact wireValue_insert_ne hnone hwire.symm
      · rw [hauth] at htrue
        cases htrue
    · intro h i first later hi hattempted hfirst hlater
      have hsecond : ∃ supplied, call.suppliedHeaders c 1 = .ok supplied := by
        rcases Nat.lt_or_eq_of_le hi with hlt | rfl
        · exact (hattempted.2 1 hlt).1
        · exact ⟨later, hlater⟩
      have hmem := h.supplied hauth (hattempted.mono hi) hsecond
      rw [← (supplied_spec hauth hfirst).2] at hmem
      rw [attachKey, if_pos (IndexMap.containsKey_iff.mpr hmem), (supplied_spec hauth hlater).1,
        (supplied_spec hauth hfirst).1]
  · constructor
    · intro h
      refine ⟨fun hfalse => ?_, fun _ => h⟩
      rw [hauth] at hfalse
      cases hfalse
    · intro h
      exact h.credentials hauth

end Keys

/-- A `PUT` that is answered 503 and then 200. -/
def storePet (headers : Headers) : Call String :=
  { method := "PUT"
    url := "https://example.com/pets/7"
    opts := { headers := headers }
    newIdempotencyKey := "key-1"
    answers := fun attempt =>
      if attempt = 0 then
        { handler := .ok ⟨503, "", .empty, .ok "", fun _ => rfl⟩ }
      else { handler := .ok ⟨200, "OK", .empty, .ok "", fun _ => rfl⟩ } }

theorem oneKey_iff_ownKey :
    OneKey (dispatchWithRetry .ofTexts (ApiClient.new "https://example.com" {})
      (storePet (IndexMap.empty.insert "Idempotency-Key" "order-7"))).1 :=
  (oneKey_iff rfl (by decide)).mpr ⟨fun _ _ _ => Or.inr (by decide), fun h => by cases h⟩

theorem storePet_loses_key :
    ¬ OneKey (dispatchWithRetry .ofTexts (ApiClient.new "https://example.com" {})
      (storePet .empty)).1 := by
  rintro ⟨key, hkey⟩
  let c : ApiClient String := ApiClient.new "https://example.com" {}
  have hsecond : (dispatchWithRetry .ofTexts c (storePet .empty)).1[1]? =
      some ((storePet .empty).request c 1 c.defaultHeaders) := rfl
  have hnone : wireValue IDEMPOTENCY_HEADER
      ((storePet .empty).request c 1 c.defaultHeaders).headers = none := by decide
  have hsome := hkey _ (List.mem_of_getElem? hsecond)
  rw [hnone] at hsome
  cases hsome

end SpecForge.Ts
