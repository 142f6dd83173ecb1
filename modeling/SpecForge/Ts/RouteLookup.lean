import SpecForge.Ts.Client
import SpecForge.Ts.Validate

/-!
# Route lookup of the validation middleware

Which entry of the route map `createValidationMiddleware` takes for a request (§1). The map
has path patterns and the client hands over a whole URL, so the segments of the base URL
are compared too (§2). A request that fills a pattern in (§3) finds the entry, whatever else
the map has, exactly when the base URL adds no segment and every filled segment is a
wildcard as a whole (§4).
-/

namespace SpecForge.Ts

open Lib

/-! ## §1  Middleware -/

structure EndpointSchema where
  requestBody : Option SchemaType
  responseBody : Option SchemaType

abbrev RouteSchemaMap := IndexMap String EndpointSchema

/-- `path.split("/").filter(Boolean)`. -/
def segments (path : String) : List String :=
  (Text.split '/' path).filter fun s => s != ""

def isWildcard (ps : String) : Bool := Text.startsWith "\x7b" ps && Text.endsWith "\x7d" ps

def matchesPath (pattern actualPath : String) : Bool :=
  let patternSegments := segments pattern
  let actualSegments := segments actualPath
  if patternSegments.length ≠ actualSegments.length then false
  else (patternSegments.zip actualSegments).all fun s => isWildcard s.1 || s.1 == s.2

/-- The method in front of the first space and the pattern behind it. -/
def splitRoute (route : String) : Option (String × String) :=
  if ' ' ∈ route.toList then
    some (Text.beforeChar ' ' route,
      String.ofList ((route.toList.dropWhile (· != ' ')).drop 1))
  else none

/-- The test of the loop over `Object.entries(schemas)`. -/
def routeMatches (method path route : String) : Bool :=
  match splitRoute route with
  | none => false
  | some (patternMethod, patternPath) =>
      Js.toUpperCase patternMethod == method && matchesPath patternPath path

/-- The schema that the middleware takes for a request. -/
def endpointSchema (schemas : RouteSchemaMap) (req : MiddlewareRequest) :
    Option EndpointSchema :=
  let method := Js.toUpperCase req.method
  let path := Text.beforeChar '?' req.url
  match schemas.get (method ++ " " ++ path) with
  | some schema => some schema
  | none =>
      ((Js.objectEntries schemas.entries).find? fun e => routeMatches method path e.1).map
        Prod.snd

/-! ## §2  Segments -/

theorem segments_append_slash (a b : String) :
    segments (a ++ "/" ++ b) = segments a ++ segments b := by
  have hsplit : Text.split '/' (a ++ "/" ++ b) = Text.split '/' a ++ Text.split '/' b := by
    rw [Text.split, String.toList_append, String.toList_append, List.append_assoc]
    show ((a.toList ++ '/' :: b.toList).splitOn '/').map String.ofList = _
    rw [List.splitOn_append_cons_self, List.map_append]
    rfl
  rw [segments, hsplit, List.filter_append]
  rfl

theorem segments_of_notMem {s : String} (h : '/' ∉ s.toList) :
    segments s = [s].filter fun s => s != "" := by
  have hsplit : Text.split '/' s = [s] := by
    rw [Text.split, List.splitOn_eq_singleton h]
    exact congrArg (· :: []) String.ofList_toList
  rw [segments, hsplit]

/-- Segments written one after the other, each behind a slash. -/
def slashed (segs : List String) : String := String.join (segs.map fun s => "/" ++ s)

theorem segments_append_slashed : ∀ (base : String) {segs : List String},
    (∀ s ∈ segs, '/' ∉ s.toList) →
    segments (base ++ slashed segs) = segments base ++ segs.filter fun s => s != ""
  | base, [], _ => by simp [slashed]
  | base, s :: segs, h => by
      have ih := segments_append_slashed (base ++ "/" ++ s) fun t ht => h t (List.mem_cons_of_mem s ht)
      have hcons : base ++ slashed (s :: segs) = base ++ "/" ++ s ++ slashed segs := by
        simp only [slashed, List.map_cons, String.join_cons, String.append_assoc]
      rw [hcons, ih, segments_append_slash, segments_of_notMem (h s List.mem_cons_self),
        List.append_assoc, ← List.filter_append, List.singleton_append]

theorem matchesPath_iff {pattern path : String} :
    matchesPath pattern path = true ↔
      List.Forall₂ (fun ps s => isWildcard ps = true ∨ ps = s) (segments pattern)
        (segments path) := by
  rw [matchesPath, List.forall₂_iff_zip]
  split
  · next h => exact iff_of_false Bool.false_ne_true fun hall => h hall.1
  · next h =>
      rw [not_not] at h
      rw [and_iff_right h, List.all_eq_true]
      simp only [Bool.or_eq_true, beq_iff_eq, Prod.forall]

theorem matchesPath_self (path : String) : matchesPath path path = true :=
  matchesPath_iff.mpr (List.forall₂_same.mpr fun _ _ => Or.inr rfl)

/-! ## §3  Filled patterns -/

/-- A part of a segment: text that stays, or a parameter and what it is replaced by. -/
inductive Part where
  | literal (text : String)
  | param (name value : String)

namespace Part

def pattern : Part → String
  | literal text => text
  | param name _ => "\x7b" ++ name ++ "\x7d"

def filled : Part → String
  | literal text => text
  | param _ value => value

def WellFormed : Part → Prop
  | literal text => '/' ∉ text.toList
  | param name value =>
      '/' ∉ name.toList ∧ value ≠ "" ∧ '/' ∉ value.toList ∧ '?' ∉ value.toList

instance : DecidablePred WellFormed
  | literal text => inferInstanceAs (Decidable ('/' ∉ text.toList))
  | param name value => inferInstanceAs (Decidable ('/' ∉ name.toList ∧ value ≠ "" ∧
      '/' ∉ value.toList ∧ '?' ∉ value.toList))

end Part

def patternText (seg : List Part) : String := String.join (seg.map Part.pattern)

def filledText (seg : List Part) : String := String.join (seg.map Part.filled)

/-- A path pattern, segment by segment, with the values of its parameters. -/
structure FilledRoute where
  parts : List (List Part)
  nonempty : parts ≠ []
  wellFormed : ∀ seg ∈ parts, ∀ part ∈ seg, part.WellFormed

namespace FilledRoute

def pattern (r : FilledRoute) : String := slashed (r.parts.map patternText)

def path (r : FilledRoute) : String := slashed (r.parts.map filledText)

end FilledRoute

section Segment

variable {seg : List Part}

theorem slash_notMem_patternText (h : ∀ part ∈ seg, part.WellFormed) :
    '/' ∉ (patternText seg).toList := by
  rw [patternText, String.toList_join, List.flatMap_map, List.mem_flatMap]
  rintro ⟨part, hpart, hmem⟩
  have hwf := h part hpart
  rcases part with text | ⟨name, value⟩
  · exact hwf hmem
  · have hmem' : '/' ∈ name.toList := by
      simpa [Part.pattern] using hmem
    exact hwf.1 hmem'

theorem slash_notMem_filledText (h : ∀ part ∈ seg, part.WellFormed) :
    '/' ∉ (filledText seg).toList := by
  rw [filledText, String.toList_join, List.flatMap_map, List.mem_flatMap]
  rintro ⟨part, hpart, hmem⟩
  have hwf := h part hpart
  rcases part with text | ⟨name, value⟩
  · exact hwf hmem
  · exact hwf.2.2.1 hmem

/-- A segment is empty in the pattern exactly if it is in the path. -/
theorem patternText_eq_empty_iff : ∀ {seg : List Part}, (∀ part ∈ seg, part.WellFormed) →
    (patternText seg = "" ↔ filledText seg = "")
  | [], _ => Iff.rfl
  | part :: seg, h => by
      have ih := patternText_eq_empty_iff fun p hp => h p (List.mem_cons_of_mem part hp)
      have hwf := h part List.mem_cons_self
      rw [patternText] at ih ⊢
      rw [filledText] at ih ⊢
      rw [List.map_cons, List.map_cons, String.join_cons, String.join_cons,
        String.append_eq_empty_iff, String.append_eq_empty_iff, ih]
      refine and_congr_left fun _ => ?_
      rcases part with text | ⟨name, value⟩
      · exact Iff.rfl
      · exact iff_of_false (by simp [Part.pattern]) hwf.2.1

/-- A parameter is replaced within a wildcard, or by what is in the pattern already. -/
def SegmentMatches (seg : List Part) : Prop :=
  isWildcard (patternText seg) = true ∨ patternText seg = filledText seg

instance : DecidablePred SegmentMatches := fun seg =>
  inferInstanceAs (Decidable (isWildcard (patternText seg) = true ∨
    patternText seg = filledText seg))

end Segment

theorem segments_slashed {segs : List String} (h : ∀ s ∈ segs, '/' ∉ s.toList) :
    segments (slashed segs) = segs.filter fun s => s != "" := by
  have hempty : segments "" = [] := by decide
  have happend := segments_append_slashed "" h
  rwa [String.empty_append, hempty, List.nil_append] at happend

/-- The segments of a base URL make the path too long for the pattern. -/
theorem matchesPath_pattern_iff (base : String) (r : FilledRoute) :
    matchesPath r.pattern (base ++ r.path) = true ↔
      segments base = [] ∧ ∀ seg ∈ r.parts, SegmentMatches seg := by
  let shown := r.parts.filter fun seg => filledText seg != ""
  have hpattern : segments r.pattern = shown.map patternText := by
    rw [FilledRoute.pattern, segments_slashed, List.filter_map]
    · refine congrArg _ (List.filter_congr fun seg hseg => ?_)
      have hiff := patternText_eq_empty_iff (r.wellFormed seg hseg)
      show (patternText seg != "") = (filledText seg != "")
      rw [Bool.eq_iff_iff, bne_iff_ne, bne_iff_ne, ne_eq, ne_eq, hiff]
    · intro s hs
      obtain ⟨seg, hseg, rfl⟩ := List.mem_map.mp hs
      exact slash_notMem_patternText (r.wellFormed seg hseg)
  have hpath : segments (base ++ r.path) = segments base ++ shown.map filledText := by
    rw [FilledRoute.path, segments_append_slashed, List.filter_map]
    · rfl
    · intro s hs
      obtain ⟨seg, hseg, rfl⟩ := List.mem_map.mp hs
      exact slash_notMem_filledText (r.wellFormed seg hseg)
  have hshown : (∀ seg ∈ shown, SegmentMatches seg) ↔ ∀ seg ∈ r.parts, SegmentMatches seg := by
    refine ⟨fun h seg hseg => ?_, fun h seg hseg => h seg (List.mem_of_mem_filter hseg)⟩
    by_cases hempty : filledText seg = ""
    · have hpat := (patternText_eq_empty_iff (r.wellFormed seg hseg)).mpr hempty
      exact Or.inr (hpat.trans hempty.symm)
    · exact h seg (List.mem_filter.mpr ⟨hseg, bne_iff_ne.mpr hempty⟩)
  rw [matchesPath_iff, hpattern, hpath, ← hshown]
  constructor
  · intro h
    have hlen := h.length_eq
    rw [List.length_append, List.length_map, List.length_map] at hlen
    have hnil : segments base = [] := List.eq_nil_of_length_eq_zero (by omega)
    rw [hnil, List.nil_append, List.forall₂_map_left_iff, List.forall₂_map_right_iff,
      List.forall₂_same] at h
    exact ⟨hnil, h⟩
  · rintro ⟨hnil, h⟩
    rw [hnil, List.nil_append, List.forall₂_map_left_iff, List.forall₂_map_right_iff,
      List.forall₂_same]
    exact h

/-! ## §4  Requests of the client -/

theorem splitRoute_key {method : String} (hmethod : ' ' ∉ method.toList) (pattern : String) :
    splitRoute (method ++ " " ++ pattern) = some (method, pattern) := by
  have hsplit : (method ++ " " ++ pattern).toList = method.toList ++ ' ' :: pattern.toList := by
    rw [String.toList_append, String.toList_append, List.append_assoc]
    rfl
  have hdrop : (method ++ " " ++ pattern).toList.dropWhile (· != ' ') =
      ' ' :: pattern.toList := by
    rw [hsplit, List.dropWhile_append_of_pos]
    · rfl
    · intro c hc
      exact bne_iff_ne.mpr fun heq => hmethod (heq ▸ hc)
  have hbefore : Text.beforeChar ' ' (method ++ " " ++ pattern) = method :=
    (Text.beforeChar_append ' ' method pattern).trans (Text.beforeChar_eq_self hmethod)
  rw [splitRoute, if_pos (by rw [hsplit]; simp), hdrop, hbefore, List.drop_one, List.tail_cons,
    String.ofList_toList]

theorem endpointSchema_isSome_iff {schemas : RouteSchemaMap} {req : MiddlewareRequest} :
    (endpointSchema schemas req).isSome = true ↔
      (Js.toUpperCase req.method ++ " " ++ Text.beforeChar '?' req.url) ∈ schemas.keys ∨
      ∃ route ∈ schemas.keys,
        routeMatches (Js.toUpperCase req.method) (Text.beforeChar '?' req.url) route = true := by
  rw [endpointSchema]
  split
  · next schema h => exact iff_of_true rfl (Or.inl (IndexMap.mem_keys_of_get h))
  · next h =>
      rw [or_iff_right (IndexMap.get_eq_none_iff.mp h), Option.isSome_map, List.find?_isSome]
      simp only [Js.mem_objectEntries, IndexMap.keys, List.mem_map, exists_exists_and_eq_and]

/-- The base URL is compared with the pattern, the query is not. -/
theorem beforeChar_url {δ : Type*} (c : ApiClient δ) (path : String) (opts : RequestOptions) :
    Text.beforeChar '?' (c.url path opts) = Text.beforeChar '?' (c.baseUrl ++ path) := by
  rw [ApiClient.url]
  rcases opts.query with _ | query
  · rw [String.append_empty]
  · have hassoc : c.baseUrl ++ path ++ ("?" ++ query) = c.baseUrl ++ path ++ "?" ++ query :=
      (String.append_assoc).symm
    rw [hassoc]
    exact Text.beforeChar_append '?' (c.baseUrl ++ path) query

section Lookup

variable {δ : Type*}

/-- Whatever the route map has next to the entry, a request that fills its pattern in is
given a schema. -/
def Covered (c : ApiClient δ) (entryMethod method : String) (r : FilledRoute)
    (opts : RequestOptions) : Prop :=
  ∀ (schemas : RouteSchemaMap) (req : MiddlewareRequest),
    (entryMethod ++ " " ++ r.pattern) ∈ schemas.keys →
    req.method = method → req.url = c.url r.path opts →
    (endpointSchema schemas req).isSome = true

variable {c : ApiClient δ} {entryMethod method : String} {r : FilledRoute}
  {opts : RequestOptions}

/-- The two stages come to the test of the second one. -/
theorem covered_iff_matchesPath (hentry : ' ' ∉ entryMethod.toList)
    (hmethod : Js.toUpperCase method = Js.toUpperCase entryMethod) :
    Covered c entryMethod method r opts ↔
      matchesPath r.pattern (Text.beforeChar '?' (c.baseUrl ++ r.path)) = true := by
  have hroute : ∀ path, routeMatches (Js.toUpperCase method) path
      (entryMethod ++ " " ++ r.pattern) = matchesPath r.pattern path := by
    intro path
    rw [routeMatches, splitRoute_key hentry, hmethod]
    show (Js.toUpperCase entryMethod == Js.toUpperCase entryMethod &&
      matchesPath r.pattern path) = _
    rw [beq_self_eq_true, Bool.true_and]
  constructor
  · intro h
    -- the map with this entry only
    let schemas : RouteSchemaMap :=
      IndexMap.empty.insert (entryMethod ++ " " ++ r.pattern) ⟨none, none⟩
    have hkeys : schemas.keys = [entryMethod ++ " " ++ r.pattern] := rfl
    have hsome := h schemas ⟨method, c.url r.path opts, .empty, none⟩
      (hkeys ▸ List.mem_cons_self) rfl rfl
    rw [endpointSchema_isSome_iff, hkeys, beforeChar_url, List.mem_singleton] at hsome
    rcases hsome with heq | ⟨route, hmem, hmatch⟩
    · have hsplit := congrArg splitRoute heq
      rw [splitRoute_key hentry, hmethod,
        splitRoute_key (Js.not_mem_toUpperCase (by decide) hentry)] at hsplit
      have hpath := congrArg Prod.snd (Option.some.inj hsplit)
      rw [show Text.beforeChar '?' (c.baseUrl ++ r.path) = r.pattern from hpath]
      exact matchesPath_self r.pattern
    · rw [List.mem_singleton.mp hmem, hroute] at hmatch
      exact hmatch
  · intro h schemas req hmem hreq hurl
    rw [endpointSchema_isSome_iff, hreq, hurl, beforeChar_url]
    exact Or.inr ⟨_, hmem, (hroute _).trans h⟩

/-- In a covered route, every request of a run of the retry loop finds a schema. -/
theorem Covered.selects {json : HostJson δ} {call : Call δ}
    (h : Covered c entryMethod call.method r call.opts)
    (hurl : call.url = c.url r.path call.opts) {schemas : RouteSchemaMap}
    (hentry : (entryMethod ++ " " ++ r.pattern) ∈ schemas.keys) {req : MiddlewareRequest}
    (hreq : req ∈ (dispatchWithRetry json c call).1) :
    (endpointSchema schemas req).isSome = true := by
  obtain ⟨i, hi⟩ := List.mem_iff_getElem?.mp hreq
  obtain ⟨-, supplied, -, rfl⟩ := getElem?_dispatchWithRetry.mp hi
  exact h schemas _ hentry rfl hurl

/-- The base URL adds no segment of its own and every segment with a parameter is a
wildcard; where the URL has a `?` before its query, what is left of it must match as it
is. -/
def LookedUp (base : String) (r : FilledRoute) : Prop :=
  if '?' ∈ (base ++ r.path).toList then
    matchesPath r.pattern (Text.beforeChar '?' (base ++ r.path)) = true
  else segments base = [] ∧ ∀ seg ∈ r.parts, SegmentMatches seg

instance (base : String) (r : FilledRoute) : Decidable (LookedUp base r) :=
  inferInstanceAs (Decidable (if '?' ∈ (base ++ r.path).toList then
      matchesPath r.pattern (Text.beforeChar '?' (base ++ r.path)) = true
    else segments base = [] ∧ ∀ seg ∈ r.parts, SegmentMatches seg))

theorem covered_iff (hentry : ' ' ∉ entryMethod.toList)
    (hmethod : Js.toUpperCase method = Js.toUpperCase entryMethod) :
    Covered c entryMethod method r opts ↔ LookedUp c.baseUrl r := by
  rw [covered_iff_matchesPath hentry hmethod, LookedUp]
  split
  · exact Iff.rfl
  · next hquery => rw [Text.beforeChar_eq_self hquery, matchesPath_pattern_iff]

end Lookup

/-- `/pets/{petId}` with an id. -/
def petRoute : FilledRoute :=
  ⟨[[.literal "pets"], [.param "petId" "7"]], by decide, by decide⟩

theorem covered_iff_pet :
    Covered (ApiClient.new "https://example.com" ({ baseUrl := some "/" } : ApiClientOptions ℕ))
      "GET" "get" petRoute {} :=
  (covered_iff (by decide) (by decide)).mpr (by decide)

/-- `/pets` under a base URL as in the descriptions. -/
def petsRoute : FilledRoute := ⟨[[.literal "pets"]], by decide, by decide⟩

theorem pets_not_covered :
    ¬ Covered (ApiClient.new "https://api.example.com" ({} : ApiClientOptions ℕ))
      "POST" "POST" petsRoute {} := by
  rw [covered_iff_matchesPath (by decide) rfl]
  decide

end SpecForge.Ts
