import SpecForge.Core.Mock
import SpecForge.Lib.Js
import SpecForge.Rust.Sse

/-!
# Routes of the mock server

Every operation becomes a route, and a request is answered from the route whose path it asks for,
letter for letter. So a placeholder is never filled in, and a query is part of the path.

- §1 the server; §2 the requests that an operation should answer; §3 which it does answer.
-/

namespace SpecForge.Mock

open Lib

/-! ## §1  The server -/

structure Route where
  method : String
  path : String
  status : UInt16
  body : Value

def routeOf (fuel : ℕ) (doc : Document) (op : Operation) : Option Route :=
  (pickSuccessResponse fuel doc op).map fun r => ⟨op.method.upper, op.path, r.1, r.2⟩

/-- `from_doc`; `none` if an example does not end. -/
def fromDoc (fuel : ℕ) (doc : Document) : Option (List Route) :=
  doc.operations.mapM (routeOf fuel doc)

/-- `split_whitespace`. -/
def splitWhitespace (s : List Char) : List (List Char) :=
  (s.splitOnP Rust.isWhitespace).filter fun word => !word.isEmpty

def parseRequestLine (line : String) : Option (String × String) :=
  match splitWhitespace line.toList with
  | method :: path :: _ => some (Js.toUpperCase (String.ofList method), String.ofList path)
  | _ => none

def findRoute (routes : List Route) (method path : String) : Option Route :=
  routes.find? fun r => r.method == method && r.path == path

def statusLine (status : UInt16) : String :=
  if status = 201 then "HTTP/1.1 201 Created"
  else if status = 204 then "HTTP/1.1 204 No Content"
  else if status = 400 then "HTTP/1.1 400 Bad Request"
  else if status = 404 then "HTTP/1.1 404 Not Found"
  else if status = 500 then "HTTP/1.1 500 Internal Server Error"
  else "HTTP/1.1 200 OK"

/-- The status line and the body that a request line is answered with. -/
def handleConnection (routes : List Route) (line : String) : Option (String × Value) :=
  (parseRequestLine line).map fun (method, path) =>
    match findRoute routes method path with
    | some route => (statusLine route.status, route.body)
    | none => ("HTTP/1.1 404 Not Found", .object [("error", .string "not_found"),
        ("message", .string ("No route found for " ++ method ++ " " ++ path))])

/-! ## §2  Requests -/

/-- A template with every placeholder replaced. A brace that nothing closes is text. -/
inductive Fills : List Char → List Char → Prop
  | nil : Fills [] []
  | text {c template path} (h : c ≠ '\x7b' ∨ '\x7d' ∉ template) (rest : Fills template path) :
      Fills (c :: template) (c :: path)
  | param {name value template path} (hname : '\x7d' ∉ name) (hvalue : value ≠ [])
      (hslash : '/' ∉ value) (hquery : '?' ∉ value) (rest : Fills template path) :
      Fills ('\x7b' :: name ++ '\x7d' :: template) (value ++ path)

/-- What may be asked for: the path filled in, with or without a query. -/
def Target (op : Operation) (target : List Char) : Prop :=
  ∃ path, Fills op.path.toList path ∧ (target = path ∨ ∃ query, target = path ++ '?' :: query)

def requestLine (method : HttpMethod) (target : List Char) : String :=
  String.ofList (method.upper.toList ++ ' ' :: target ++ " HTTP/1.1\r\n".toList)

/-- The request is answered from a route of its method. -/
def Serves (routes : List Route) (method : HttpMethod) (target : List Char) : Prop :=
  ∃ path r, parseRequestLine (requestLine method target) = some (method.upper, path) ∧
    findRoute routes method.upper path = some r

/-- The path that is read from the request line: the target up to a blank in it. -/
def requestPath (target : List Char) : String :=
  String.ofList ((splitWhitespace target ++ ["HTTP/1.1".toList]).headI)

/-! ## §3  Answers -/

section

variable {fuel : ℕ} {doc : Document} {routes : List Route} {method : HttpMethod}
  {target : List Char}

theorem splitWhitespace_append {c : Char} (hc : Rust.isWhitespace c = true) (s t : List Char) :
    splitWhitespace (s ++ c :: t) = splitWhitespace s ++ splitWhitespace t := by
  rw [splitWhitespace, List.splitOnP_append_cons s t hc, List.filter_append]
  rfl

theorem splitWhitespace_word {s : List Char} (h : ∀ c ∈ s, Rust.isWhitespace c = false)
    (hne : s ≠ []) : splitWhitespace s = [s] := by
  rw [splitWhitespace, List.splitOnP_eq_singleton h]
  simp [hne]

/-- No word is empty or has a blank in it. -/
theorem of_mem_splitWhitespace {s word : List Char} (h : word ∈ splitWhitespace s) :
    word ≠ [] ∧ ∀ c ∈ word, Rust.isWhitespace c = false := by
  obtain ⟨hmem, hne⟩ := List.mem_filter.mp h
  refine ⟨by simpa using hne, ?_⟩
  clear h hne
  induction s generalizing word with
  | nil =>
      rw [List.splitOnP_nil, List.mem_singleton] at hmem
      simp [hmem]
  | cons c s ih =>
      rw [List.splitOnP_cons_eq_if_modifyHead] at hmem
      split at hmem
      · rcases List.mem_cons.mp hmem with rfl | hmem
        · simp
        · exact ih hmem
      · next hc =>
          obtain ⟨w, ws, hsplit⟩ :=
            List.exists_cons_of_ne_nil (List.splitOnP_ne_nil Rust.isWhitespace s)
          rw [hsplit] at hmem ih
          rcases List.mem_cons.mp hmem with rfl | hmem
          · intro d hd
            rcases List.mem_cons.mp hd with rfl | hd
            · simpa using hc
            · exact ih List.mem_cons_self d hd
          · exact ih (List.mem_cons_of_mem w hmem)

theorem parseRequestLine_requestLine (method : HttpMethod) (target : List Char) :
    parseRequestLine (requestLine method target) = some (method.upper, requestPath target) := by
  have hmethod : splitWhitespace method.upper.toList = [method.upper.toList] := by
    cases method <;> decide
  have hupper : Js.toUpperCase method.upper = method.upper := by
    cases method <;> decide
  have hversion : splitWhitespace "HTTP/1.1\r\n".toList = ["HTTP/1.1".toList] := by decide
  have hwords : splitWhitespace (requestLine method target).toList =
      method.upper.toList :: (splitWhitespace target ++ ["HTTP/1.1".toList]) := by
    have hline : (requestLine method target).toList =
        method.upper.toList ++ ' ' :: (target ++ ' ' :: "HTTP/1.1\r\n".toList) := by
      rw [requestLine, String.toList_ofList, List.append_assoc]
      rfl
    rw [hline, splitWhitespace_append (by decide), splitWhitespace_append (by decide), hmethod,
      hversion, List.singleton_append]
  unfold parseRequestLine requestPath
  rw [hwords]
  rcases splitWhitespace target with _ | ⟨word, words⟩
  · simp [hupper]
  · simp [hupper]

theorem upper_inj {m m' : HttpMethod} (h : m.upper = m'.upper) : m = m' := by
  revert h
  cases m <;> cases m' <;> decide

/-- The routes are those of the operations. -/
theorem exists_route_iff (hroutes : fromDoc fuel doc = some routes) {path : String} :
    (∃ r, findRoute routes method.upper path = some r) ↔
      ∃ op ∈ doc.operations, op.method = method ∧ op.path = path := by
  have hpairs := mapM_eq_some.mp hroutes
  rw [← Option.isSome_iff_exists, findRoute, List.find?_isSome]
  constructor
  · rintro ⟨r, hr, hmatch⟩
    rw [Bool.and_eq_true, beq_iff_eq, beq_iff_eq] at hmatch
    obtain ⟨op, hop, hroute⟩ := forall₂_mem_right hpairs hr
    obtain ⟨x, -, rfl⟩ := Option.map_eq_some_iff.mp hroute
    exact ⟨op, hop, upper_inj hmatch.1, hmatch.2⟩
  · rintro ⟨op, hop, rfl, rfl⟩
    obtain ⟨r, hr, hroute⟩ := forall₂_mem_left hpairs hop
    obtain ⟨x, -, rfl⟩ := Option.map_eq_some_iff.mp hroute
    exact ⟨_, hr, by simp⟩

theorem serves_iff (hroutes : fromDoc fuel doc = some routes) :
    Serves routes method target ↔
      ∃ op ∈ doc.operations, op.method = method ∧ op.path = requestPath target := by
  rw [← exists_route_iff hroutes]
  unfold Serves
  rw [parseRequestLine_requestLine]
  constructor
  · rintro ⟨path, r, hpath, hr⟩
    obtain ⟨-, rfl⟩ := Prod.mk.inj (Option.some.inj hpath)
    exact ⟨r, hr⟩
  · rintro ⟨r, hr⟩
    exact ⟨_, r, rfl, hr⟩

/-- Every template can be filled in. -/
theorem exists_fills (template : List Char) :
    ∃ path, Fills template path ∧ ∀ c ∈ path, c ∈ template ∨ c = 'a' := by
  induction hn : template.length using Nat.strong_induction_on generalizing template with
  | h n ih =>
      subst hn
      rcases template with _ | ⟨c, template⟩
      · exact ⟨[], .nil, List.forall_mem_nil _⟩
      · by_cases h : c ≠ '\x7b' ∨ '\x7d' ∉ template
        · obtain ⟨path, hfills, hpath⟩ := ih template.length (Nat.lt_succ_self _) template rfl
          refine ⟨c :: path, .text h hfills, fun d hd => ?_⟩
          rcases List.mem_cons.mp hd with rfl | hd
          · exact Or.inl List.mem_cons_self
          · exact (hpath d hd).imp_left (List.mem_cons_of_mem c)
        · rw [not_or, not_not, not_not] at h
          obtain ⟨rfl, hclosed⟩ := h
          obtain ⟨name, rest, rfl, hname⟩ := List.eq_append_cons_of_mem hclosed
          obtain ⟨path, hfills, hpath⟩ := ih rest.length (by simp; omega) rest rfl
          refine ⟨['a'] ++ path, .param hname (by simp) (by decide) (by decide) hfills,
            fun d hd => ?_⟩
          rcases List.mem_append.mp hd with hd | hd
          · exact Or.inr (List.mem_singleton.mp hd)
          · refine (hpath d hd).imp_left fun hrest => ?_
            simp [hrest]

theorem requestPath_of_word (h : ∀ c ∈ target, Rust.isWhitespace c = false) (hne : target ≠ []) :
    requestPath target = String.ofList target := by
  rw [requestPath, splitWhitespace_word h hne]
  rfl

/-- What is read has no blanks in it and is not empty. -/
theorem requestPath_word (target : List Char) : (requestPath target).toList ≠ [] ∧
    ∀ c ∈ (requestPath target).toList, Rust.isWhitespace c = false := by
  rw [requestPath, String.toList_ofList]
  rcases hwords : splitWhitespace target with _ | ⟨word, words⟩
  · have hversion : "HTTP/1.1".toList.all (fun c => !Rust.isWhitespace c) = true := by decide
    refine ⟨List.cons_ne_nil _ _, fun c hc => ?_⟩
    simpa using List.all_eq_true.mp hversion c hc
  · apply of_mem_splitWhitespace (s := target)
    rw [hwords]
    exact List.mem_cons_self

/-- Some operation has a request that is not found. -/
theorem exists_not_served (hroutes : fromDoc fuel doc = some routes)
    (hne : doc.operations ≠ []) :
    ∃ op ∈ doc.operations, ∃ target, Target op target ∧ ¬Serves routes op.method target := by
  by_cases hword : ∃ op ∈ doc.operations, op.path.toList ≠ [] ∧
      ∀ c ∈ op.path.toList, Rust.isWhitespace c = false
  · obtain ⟨op, hop, -, hblank⟩ := hword
    obtain ⟨path, hfills, hpath⟩ := exists_fills op.path.toList
    -- a query that makes the target longer than every path
    obtain ⟨n, hn⟩ : ∃ n, ∀ op ∈ doc.operations, op.path.toList.length < n := by
      refine ⟨(doc.operations.map fun op => op.path.toList.length).sum + 1, fun op hop => ?_⟩
      exact Nat.lt_succ_of_le (List.single_le_sum (by simp) _ (List.mem_map_of_mem hop))
    have htarget : ∀ c ∈ path ++ '?' :: List.replicate n 'a', Rust.isWhitespace c = false := by
      intro c hc
      rcases List.mem_append.mp hc with hc | hc
      · rcases hpath c hc with hc | rfl
        · exact hblank c hc
        · decide
      · rcases List.mem_cons.mp hc with rfl | hc
        · decide
        · rw [List.eq_of_mem_replicate hc]
          decide
    refine ⟨op, hop, path ++ '?' :: List.replicate n 'a', ⟨path, hfills, Or.inr ⟨_, rfl⟩⟩,
      fun hserves => ?_⟩
    obtain ⟨op', hop', -, hsame⟩ := (serves_iff hroutes).mp hserves
    rw [requestPath_of_word htarget (by simp)] at hsame
    have hlong := hn op' hop'
    rw [hsame, String.toList_ofList] at hlong
    simp only [List.length_append, List.length_cons, List.length_replicate] at hlong
    omega
  · obtain ⟨op, hop⟩ := List.exists_mem_of_ne_nil _ hne
    obtain ⟨path, hfills, -⟩ := exists_fills op.path.toList
    refine ⟨op, hop, path, ⟨path, hfills, Or.inl rfl⟩, fun hserves => ?_⟩
    obtain ⟨op', hop', -, hsame⟩ := (serves_iff hroutes).mp hserves
    exact hword ⟨op', hop', hsame ▸ requestPath_word path⟩

/-- **A request is served exactly if its target is the path of an operation, letter for letter;
so all requests of all operations are served only if there is no operation.** -/
theorem servesTargets_iff (fuel : ℕ) (doc : Document) (routes : List Route)
    (hroutes : fromDoc fuel doc = some routes) :
    (∀ op ∈ doc.operations, ∀ target, Target op target → (Serves routes op.method target ↔
      ∃ op' ∈ doc.operations, op'.method = op.method ∧ op'.path = requestPath target)) ∧
    ((∀ op ∈ doc.operations, ∀ target, Target op target → Serves routes op.method target) ↔
      doc.operations = []) := by
  refine ⟨fun op _ target _ => serves_iff hroutes, fun hall => ?_, fun hnil => ?_⟩
  · by_contra hne
    obtain ⟨op, hop, target, htarget, hnot⟩ := exists_not_served hroutes hne
    exact hnot (hall op hop target htarget)
  · simp [hnil]

end

/-- `GET /pets/{petId}`, without responses. -/
def petDoc : Document :=
  .minimal .default [⟨"getPet", .get, "/pets/\x7bpetId\x7d", none, none, none, [], none, [], none⟩]

theorem servesTargets_petDoc :
    (∀ op ∈ petDoc.operations, ∀ target, Target op target →
      (Serves [⟨"GET", "/pets/\x7bpetId\x7d", 200, .object []⟩] op.method target ↔
        ∃ op' ∈ petDoc.operations, op'.method = op.method ∧ op'.path = requestPath target)) ∧
    ((∀ op ∈ petDoc.operations, ∀ target, Target op target →
      Serves [⟨"GET", "/pets/\x7bpetId\x7d", 200, .object []⟩] op.method target) ↔
      petDoc.operations = []) :=
  servesTargets_iff 0 petDoc _ rfl

/-- `GET /pets/1` is not found. -/
theorem filled_path_not_found : ∃ fuel doc routes, fromDoc fuel doc = some routes ∧
    (doc.operations.map fun op => (op.method, op.path)).Nodup ∧
    ∃ op ∈ doc.operations, ∃ target, Target op target ∧ ¬Serves routes op.method target ∧
      (handleConnection routes (requestLine op.method target)).map Prod.fst =
        some "HTTP/1.1 404 Not Found" := by
  refine ⟨0, petDoc, [⟨"GET", "/pets/\x7bpetId\x7d", 200, .object []⟩], rfl, by decide,
    ⟨"getPet", .get, "/pets/\x7bpetId\x7d", none, none, none, [], none, [], none⟩,
    List.mem_singleton.mpr rfl, "/pets/1".toList, ?_, ?_, ?_⟩
  · refine ⟨_, ?_, Or.inl rfl⟩
    have hend : Fills [] [] := .nil
    have hparam : Fills ('\x7b' :: "petId".toList ++ '\x7d' :: []) (['1'] ++ []) :=
      .param (by decide) (by decide) (by decide) (by decide) hend
    exact .text (Or.inl (by decide)) (.text (Or.inl (by decide)) (.text (Or.inl (by decide))
      (.text (Or.inl (by decide)) (.text (Or.inl (by decide)) (.text (Or.inl (by decide))
        hparam)))))
  · rintro ⟨path, r, hpath, hr⟩
    rw [parseRequestLine_requestLine] at hpath
    obtain ⟨-, rfl⟩ := Prod.mk.inj (Option.some.inj hpath)
    exact absurd (Option.isSome_iff_exists.mpr ⟨r, hr⟩) (by decide)
  · decide

end SpecForge.Mock
