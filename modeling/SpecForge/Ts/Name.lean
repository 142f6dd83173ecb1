import SpecForge.Lib.Ascii
import SpecForge.Lib.Text

/-!
# TypeScript identifiers (`name.rs`)

Schema names, tags and operation ids are arbitrary strings. `pascal` keeps the ASCII
letters and digits of a name, so distinct names can get one identifier; `camel` only
changes the first letter of it.

- §1 the sanitisers; §2 property keys and literals.
- §3 the shape of the identifiers that `pascal` returns; §4 what `camel` keeps apart.
-/

namespace SpecForge.Ts

open Lib

/-! ## §1  Identifiers -/

/-- The loop of `pascal`: the flag says whether the next letter starts a word. -/
def pascalLoop : Bool → List Char → List Char
  | _, [] => []
  | nextUpper, ch :: rest =>
      if ch.isAlphanum then
        (if nextUpper then ch.toUpper else ch) :: pascalLoop false rest
      else pascalLoop true rest

def pascalChars (input : List Char) : List Char :=
  match pascalLoop true input with
  | [] => ['_']
  | c :: cs => if c.isDigit then '_' :: c :: cs else c :: cs

def pascal (input : String) : String := String.ofList (pascalChars input.toList)

/-- The types that the emitted package declares itself. -/
def builtinTypes : List String :=
  ["ApiClient", "ApiClientOptions", "ApiError", "AuthProvider", "AnonymousAuthProvider",
   "BearerAuthProvider", "ApiKeyAuthProvider", "CacheEntry", "ConfigurationError",
   "ConsoleLogger", "CursorPage", "EndpointSchema", "HttpError", "Logger", "Metrics",
   "MetricsCollector", "Middleware", "MiddlewareRequest", "MiddlewareResponse",
   "NetworkError", "OffsetPage", "RateLimiter", "RequestInterceptor", "RequestDeduper",
   "RequestOptions", "ResponseCache", "ResponseInterceptor", "ResponseTransformer",
   "RetryOptions", "RouteSchemaMap", "SchemaType", "Semaphore", "ServerSentEvent",
   "ServiceContainer", "SlidingWindow", "TelemetryHooks", "TimeoutError", "TokenBucket",
   "ValidationError", "QueryRecord"]

def isTsSdkBuiltinType (name : String) : Bool := builtinTypes.contains name

def safeModelName (name : String) : String :=
  if isTsSdkBuiltinType name then name ++ "Model" else name

def camelChars : List Char → List Char
  -- `unwrap_or_default`; no PascalCase name is empty
  | [] => ['\x00']
  | c :: cs => c.toLower :: cs

def camel (input : String) : String := String.ofList (camelChars (pascal input).toList)

/-! ## §2  Property keys and literals -/

def escapeQuotes (s : String) : String :=
  Text.replaceChar '"' "\\\"" (Text.replaceChar '\\' "\\\\" s)

def isValidIdentifier (s : String) : Bool :=
  match s.toList with
  | [] => false
  | first :: chars =>
      (first.isAlpha || first == '_' || first == '$')
        && chars.all fun c => c.isAlphanum || c == '_' || c == '$'

def isReserved (s : String) : Bool :=
  ["break", "case", "catch", "class", "const", "continue", "debugger", "default", "delete",
   "do", "else", "enum", "export", "extends", "false", "finally", "for", "function", "if",
   "import", "in", "instanceof", "new", "null", "return", "super", "switch", "this", "throw",
   "true", "try", "typeof", "var", "void", "while", "with", "let", "static", "yield", "await",
   "async", "of", "as", "from", "type", "interface", "implements", "package", "private",
   "protected", "public"].contains s

def stringLiteral (value : String) : String := "\"" ++ escapeQuotes value ++ "\""

def propertyKey (name : String) : String :=
  if isValidIdentifier name && !isReserved name then name
  else stringLiteral name

def memberAccess (obj name : String) : String :=
  if isValidIdentifier name && !isReserved name then obj ++ "." ++ name
  else obj ++ "[" ++ stringLiteral name ++ "]"

/-! ## §3  PascalCase -/

/-- A word in PascalCase: a capital and then letters and digits, or an underscore for what
is missing in front. -/
def PascalShape : List Char → Prop
  | [] => False
  | c :: cs => (∀ d ∈ cs, d.isAlphanum = true) ∧
      (c.isUpper = true ∨ c = '_' ∧ ∀ d, cs.head? = some d → d.isDigit = true)

theorem pascalLoop_alphanum : ∀ (b : Bool) (input : List Char),
    ∀ c ∈ pascalLoop b input, c.isAlphanum = true
  | _, [] => by simp [pascalLoop]
  | b, ch :: rest => by
      intro c hc
      rw [pascalLoop] at hc
      split at hc
      · next hch =>
          rcases List.mem_cons.mp hc with rfl | hc
          · rcases b with _ | _
            · exact hch
            · rcases Ascii.toUpper_alphanum hch with h | h
              · exact Ascii.isAlphanum_of_isUpper h
              · exact Ascii.isAlphanum_of_isDigit h
          · exact pascalLoop_alphanum false rest c hc
      · exact pascalLoop_alphanum true rest c hc

/-- The first letter that is kept is capitalised. -/
theorem head_pascalLoop : ∀ {input : List Char} {c : Char} {cs : List Char},
    pascalLoop true input = c :: cs → c.isUpper = true ∨ c.isDigit = true
  | [], _, _, h => by cases h
  | ch :: rest, c, cs, h => by
      rw [pascalLoop] at h
      split at h
      · next hch =>
          obtain ⟨rfl, -⟩ := List.cons.inj h
          exact Ascii.toUpper_alphanum hch
      · exact head_pascalLoop h

theorem pascalShape_pascalChars (input : List Char) : PascalShape (pascalChars input) := by
  unfold pascalChars
  rcases h : pascalLoop true input with _ | ⟨c, cs⟩
  · exact ⟨fun d hd => absurd hd List.not_mem_nil, Or.inr ⟨rfl, fun d hd => by cases hd⟩⟩
  · have hall := pascalLoop_alphanum true input
    rw [h] at hall
    dsimp only
    split
    · next hdigit =>
        refine ⟨hall, Or.inr ⟨rfl, ?_⟩⟩
        intro d hd
        rw [← Option.some.inj hd]
        exact hdigit
    · next hdigit =>
        exact ⟨fun d hd => hall d (List.mem_cons_of_mem c hd),
          Or.inl ((head_pascalLoop h).resolve_right hdigit)⟩

theorem pascalLoop_false_eq_self : ∀ {cs : List Char}, (∀ d ∈ cs, d.isAlphanum = true) →
    pascalLoop false cs = cs
  | [], _ => rfl
  | c :: cs, h => by
      rw [List.forall_mem_cons] at h
      rw [pascalLoop, if_pos h.1, pascalLoop_false_eq_self h.2]
      rfl

theorem pascalChars_eq_self : ∀ {w : List Char}, PascalShape w → pascalChars w = w
  | c :: cs, ⟨hall, Or.inl hupper⟩ => by
      have hloop : pascalLoop true (c :: cs) = c :: cs := by
        rw [pascalLoop, if_pos (Ascii.isAlphanum_of_isUpper hupper), if_pos rfl,
          Ascii.toUpper_eq_self (Ascii.isLower_eq_false_of_isUpper hupper),
          pascalLoop_false_eq_self hall]
      rw [pascalChars, hloop]
      dsimp only
      rw [Ascii.isDigit_eq_false_of_isUpper hupper]
      rfl
  | c :: cs, ⟨hall, Or.inr ⟨hc, hdigit⟩⟩ => by
      subst hc
      have hskip : pascalLoop true ('_' :: cs) = pascalLoop true cs := rfl
      rcases cs with _ | ⟨d, ds⟩
      · rfl
      · rw [List.forall_mem_cons] at hall
        have hd : d.isDigit = true := hdigit d rfl
        have hloop : pascalLoop true (d :: ds) = d :: ds := by
          rw [pascalLoop, if_pos hall.1, if_pos rfl,
            Ascii.toUpper_eq_self (Ascii.isLower_eq_false_of_isDigit hd),
            pascalLoop_false_eq_self hall.2]
        rw [pascalChars, hskip, hloop]
        dsimp only
        rw [if_pos hd]

theorem toList_pascal (input : String) : (pascal input).toList = pascalChars input.toList :=
  String.toList_ofList

theorem pascalShape_pascal (input : String) : PascalShape (pascal input).toList := by
  rw [toList_pascal]
  exact pascalShape_pascalChars input.toList

/-- A word in PascalCase is its own PascalCase form. -/
theorem pascal_eq_self {w : String} (h : PascalShape w.toList) : pascal w = w := by
  rw [← String.toList_inj, toList_pascal, pascalChars_eq_self h]

@[simp] theorem pascal_pascal (input : String) : pascal (pascal input) = pascal input :=
  pascal_eq_self (pascalShape_pascal input)

/-! ## §4  camelCase -/

theorem camelChars_inj : ∀ {v w : List Char}, PascalShape v → PascalShape w →
    camelChars v = camelChars w → v = w
  | c :: cs, d :: ds, ⟨_, hc⟩, ⟨_, hd⟩, h => by
      obtain ⟨hhead, rfl⟩ := List.cons.inj h
      have hunderscore : ('_' : Char).toLower = '_' := by decide
      rcases hc with hc | ⟨rfl, -⟩ <;> rcases hd with hd | ⟨rfl, -⟩
      · rw [Ascii.toLower_inj hc hd hhead]
      · rw [hunderscore] at hhead
        exact absurd hhead (Ascii.toLower_ne_underscore hc)
      · rw [hunderscore] at hhead
        exact absurd hhead.symm (Ascii.toLower_ne_underscore hd)
      · rfl

/-- Two names with one camelCase form have one PascalCase form. -/
theorem camel_eq_iff {s t : String} : camel s = camel t ↔ pascal s = pascal t := by
  constructor
  · intro h
    have h' := congrArg String.toList h
    rw [camel, camel, String.toList_ofList, String.toList_ofList] at h'
    exact String.toList_inj.mp
      (camelChars_inj (pascalShape_pascal s) (pascalShape_pascal t) h')
  · intro h
    rw [camel, camel, h]

end SpecForge.Ts
