import SpecForge.Lib.Percent
import SpecForge.Lib.Utf8
import SpecForge.Native.GoStructs
import SpecForge.Native.Rust
import SpecForge.Native.SnakeCase

/-!
# The calls that generated methods make

For each operation both SDKs have a method. It takes the path and the query parameters, puts
the former into the path template and collects the latter into a query.

- §1 templates, parameters and responses; §2 the Go method; §3 the Rust method. §4 when a method
  makes a call, and which.

Texts are their UTF-8 bytes. An argument is given by the texts it can be turned into. The comments
and attributes of a method are left out, and the rest of its package is taken to compile with it.
-/

namespace SpecForge

open Lib Native

/-! ## §1  Templates -/

abbrev Octets := List UInt8

def octets (s : String) : Octets := Utf8.encode s.toList

inductive TemplatePart where
  | lit (text : Octets)
  | placeholder (name : Octets)
deriving DecidableEq

/-- The loop of `build_path_concat` and of `build_rust_path`: `lit` is the text since the last
placeholder, and between braces there is also the name so far. A brace that nothing closes is
text. -/
def scanTemplate (lit : Octets) : Option Octets → Octets → List TemplatePart
  | none, [] => [.lit lit]
  | some name, [] => [.lit lit, .lit (123 :: name)]
  | none, b :: rest =>
      if b = 123 then scanTemplate lit (some []) rest else scanTemplate (lit ++ [b]) none rest
  | some name, b :: rest =>
      if b = 125 then .lit lit :: .placeholder name :: scanTemplate [] none rest
      else scanTemplate lit (some (name ++ [b])) rest

def templateParts (path : Octets) : List TemplatePart := scanTemplate [] none path

/-- A placeholder as it stands in the template. -/
def braced (name : Octets) : Octets := 123 :: name ++ [125]

def isAt (location : ParamLocation) (p : Parameter) : Bool := p.location == location

def pathParams (op : Operation) : List Parameter := op.parameters.filter (isAt .path)

def queryParams (op : Operation) : List Parameter := op.parameters.filter (isAt .query)

/-- The parameters that a method takes. No SDK passes a header on. -/
def argParams (op : Operation) : List Parameter := pathParams op ++ queryParams op

def successResponses (op : Operation) : List Response :=
  (op.responses.filter fun r => Text.startsWith "2" r.status).mergeSort
    fun r r' => decide (r.status ≤ r'.status)

def successBody (op : Operation) : Option IrType :=
  (successResponses op).head?.bind (·.body)

def findParam (params : List Parameter) (name : Octets) : Option Parameter :=
  params.find? fun p => octets p.name == name

/-- The argument that an identifier stands for. -/
def bindArgs {α : Type} (idents : List String) (args : List α) (ident : String) : Option α :=
  (idents.zip args).lookup ident

/-- What a method hands to the client. -/
structure ClientCall where
  path : Octets
  query : List (Octets × Octets)
  headers : List (Octets × Octets)
deriving DecidableEq

/-! ## §2  Go -/

namespace Go

/-- The types in the signature of a method. -/
structure GoMethod where
  args : List GoType
  body : Option GoType
  ret : Option GoType

def emitMethod (op : Operation) : GoMethod where
  args := (argParams op).map fun p => renderType p.ty
  body := op.requestBody.map fun b => renderType b.ty
  ret := (successBody op).map renderType

def GoMethod.idents (m : GoMethod) : List String :=
  (m.args ++ (m.body.toList ++ m.ret.toList)).flatMap GoType.idents

def predeclaredTypes : List String := ["string", "int", "int64", "float64", "bool", "any"]

/-- The types of the SDK whose names `exportIdent` does not avoid. -/
def openTypes : List String :=
  ["AuthProvider", "BearerAuth", "APIKeyAuth", "APIError", "CacheEntry", "ConsoleLogger",
   "EndpointSchema"]

def declaredTypes (doc : Document) : List String :=
  (emitModels doc).map GoDecl.name ++ doc.webhooks.map payloadName ++ openTypes

/-- The name stands for one type. -/
def known (doc : Document) (name : String) : Bool :=
  predeclaredTypes.contains name || (declaredTypes doc).count name == 1

/-- An argument: the text that `coerce_to_string` gives, and whether it is the zero value of its
type. -/
structure Arg where
  form : Octets
  zero : Bool

/-- A quoted text with quotes and backslashes escaped. Go source has no NUL, no byte order mark
inside, and no line break in such a literal. -/
def plainLiteral (text : Octets) : Bool :=
  !text.contains 10 && !text.contains 0 && !decide ([0xEF, 0xBB, 0xBF] <:+: text)

/-- `url.PathEscape`. -/
def keptInPath (b : UInt8) : Bool :=
  Percent.unreserved b || b == 36 || b == 38 || b == 43 || b == 58 || b == 61 || b == 64

def pathEscape (s : Octets) : Octets := Percent.write (Percent.escapeBytes keptInPath s)

def argIdents (op : Operation) : List String := (argParams op).map fun p => goParamIdent p.name

/-- All types are known. The result is declared where the arguments hide types of their names. -/
def typesCompile (doc : Document) (op : Operation) : Bool :=
  (emitMethod op).idents.all (known doc) &&
    ((emitMethod op).ret.elim [] GoType.idents).all fun name => !(argIdents op).contains name

/-- An identifier that is made of letters and digits must not start with a digit. -/
def isIdent (s : String) : Bool := !(s.toList.head?.any Char.isDigit)

inductive PathExpr where
  | lit (text : Octets)
  | escape (ident : String)

def partExpr (params : List Parameter) : TemplatePart → List PathExpr
  | .lit text => if text.isEmpty then [] else [.lit text]
  | .placeholder name =>
      match findParam params name with
      | some p => [.escape (goParamIdent p.name)]
      | none => [.lit (braced name)]

/-- The operands that are added up. -/
def buildPathConcat (path : Octets) (params : List Parameter) : List PathExpr :=
  let parts := (templateParts path).flatMap (partExpr params)
  if parts.isEmpty then [.lit (octets "/")] else parts

def pathExpr (op : Operation) : List PathExpr :=
  if (pathParams op).isEmpty then [.lit (octets op.path)]
  else buildPathConcat (octets op.path) (pathParams op)

def PathExpr.eval (env : String → Option Arg) : PathExpr → Option Octets
  | .lit text => if plainLiteral text then some text else none
  | .escape ident => (env ident).map fun a => pathEscape a.form

/-- Zero values of these types are not sent if they need not be. -/
def sendsZero : IrType → Bool
  | .scalar _ | .stringEnum _ _ | .array _ _ | .map _ => false
  | _ => true

/-- `url.Values.Set`. -/
def setValue (query : List (Octets × Octets)) (name value : Octets) : List (Octets × Octets) :=
  query.filter (fun e => e.1 != name) ++ [(name, value)]

def addQuery (env : String → Option Arg) (query : List (Octets × Octets)) (p : Parameter) :
    Option (List (Octets × Octets)) :=
  (env (goParamIdent p.name)).bind fun a =>
    if !plainLiteral (octets p.name) then none
    else if p.required || sendsZero p.ty || !a.zero then
      some (setValue query (octets p.name) a.form)
    else some query

/-- What the method of an operation does with its arguments; `none` if it does not compile. -/
def call (doc : Document) (op : Operation) (args : List Arg) : Option ClientCall :=
  let env := bindArgs (argIdents op) args
  if decide (argIdents op).Nodup && (argIdents op).all isIdent && typesCompile doc op then
    ((pathExpr op).mapM (PathExpr.eval env)).bind fun path =>
      ((queryParams op).foldlM (addQuery env) []).map fun query => ⟨path.flatten, query, []⟩
  else none

end Go

/-! ## §3  Rust -/

namespace Rust

/-- What Rust takes from Unicode: the cases of letters, and which texts are identifiers. -/
structure Unicode extends CharCase where
  isIdent : String → Bool

/-- A quoted text with quotes and backslashes escaped. -/
def plainLiteral (text : Octets) : Bool := !text.contains 13

/-- A quoted text with nothing escaped: it stands for itself unless there is something to escape. -/
def rawLiteral (text : Octets) : Bool :=
  plainLiteral text && !text.contains 34 && !text.contains 92

def keptInSegment (b : UInt8) : Bool := b != 47

/-- `path_seg`. -/
def pathSeg (s : Octets) : Octets := Percent.write (Percent.escapeBytes keptInSegment s)

def argIdents (u : Unicode) (op : Operation) : List String :=
  (argParams op).map fun p => snake u.toCharCase p.name

def fnName (u : Unicode) (op : Operation) : String := snake u.toCharCase op.operationId

/-- A `String` is taken as `impl Into<String>`, and what is not required as an `Option`. -/
def argType (p : Parameter) : RustType :=
  if p.required then renderType p.ty else .option (renderType p.ty)

/-- The types in the signature of a method; without a success body it returns `()`. -/
structure RustMethod where
  args : List RustType
  body : Option RustType
  ret : Option RustType

def emitMethod (op : Operation) : RustMethod where
  args := (argParams op).map argType
  body := op.requestBody.map fun b => renderType b.ty
  ret := (successBody op).map renderType

def RustMethod.idents (m : RustMethod) : List String :=
  m.args.flatMap RustType.idents ++ (m.body.toList ++ m.ret.toList).flatMap RustType.idents

def builtinTypes : List String := ["String", "i32", "i64", "f64", "bool", "serde_json::Value"]

/-- The names that `use crate::models::*` brings. -/
def modelNames (doc : Document) : List String := (emitModels doc).map RustDecl.name

/-- The name stands for one type. `Client` and `Result` are imported by name, and the latter is
none without its argument. -/
def known (doc : Document) (name : String) : Bool :=
  name != "Result" && match (modelNames doc).count name with
    | 0 => name == "Client" || builtinTypes.contains name
    | n => n == 1

def hasOption : RustType → Bool
  | .path _ => false
  | .option _ => true
  | .vec item => hasOption item
  | .hashMap value => hasOption value

/-- The names of the prelude in a method, which models must not hide. -/
def preludeNames (op : Operation) : List String :=
  ["String", "Vec"] ++
    (if (argParams op).any fun p => renderType p.ty == .path "String" then ["Into"] else []) ++
    if ((emitMethod op).args ++ ((emitMethod op).body.toList ++ (emitMethod op).ret.toList)).any
      hasOption then ["Option"] else []

/-- What a type is once aliases are followed. -/
inductive Meaning where
  | builtin (name : String)
  | enum
  | other
deriving DecidableEq

def meaning (decls : List RustDecl) : ℕ → RustType → Meaning
  | fuel + 1, .path name =>
      match decls.filter fun d => d.name == name with
      | [] => if builtinTypes.contains name then .builtin name else .other
      | [.enum _ _] => .enum
      | [.typeAlias _ t] => meaning decls fuel t
      | _ => .other
  | _, _ => .other

/-- The meaning of a parameter's type, which no more aliases than there are models lead to. -/
def paramMeaning (doc : Document) (ty : IrType) : Meaning :=
  meaning (emitModels doc) ((emitModels doc).length + 1) (renderType ty)

/-- The type has `Display`: of the models, only enums do. -/
def displays (doc : Document) (ty : IrType) : Bool :=
  match paramMeaning doc ty with
  | .builtin _ => true
  | .enum => true
  | .other => false

/-- The type has `Display` and writes its JSON there. -/
def displaysJson (doc : Document) (ty : IrType) : Bool :=
  match paramMeaning doc ty with
  | .builtin name => ["i32", "i64", "bool", "serde_json::Value"].contains name
  | .enum => false
  | .other => false

/-- What a query parameter is turned into a string by. -/
inductive Coercion where
  | clone
  | toString
  | json
deriving DecidableEq

/-- `rust_coerce_string`, and `rust_coerce_string_ref` for what an `Option` holds. -/
def rustCoerceString : IrType → Coercion
  | .scalar .string | .scalar .dateTime | .scalar .uuid | .stringEnum _ _ => .clone
  | .reference _ _ _ => .toString
  | .scalar .integer | .scalar .integer64 | .scalar .float
  | .scalar .boolean | .scalar .base64 | .scalar .binary => .toString
  | .array _ _ | .map _ | .any | .unknown | .composition _ _ _ => .json

/-- All types but `Client` can be serialised. -/
def serializes (t : RustType) : Bool := !t.idents.contains "Client"

def coerces (doc : Document) (ty : IrType) : Bool :=
  match rustCoerceString ty with
  | .clone => paramMeaning doc ty == .builtin "String"
  | .toString => displays doc ty
  | .json => serializes (renderType ty)

/-- All types are known and have the traits that are asked of them. -/
def typesCompile (doc : Document) (op : Operation) : Bool :=
  (emitMethod op).idents.all (known doc) &&
    (preludeNames op).all (fun name => !(modelNames doc).contains name) &&
    ((emitMethod op).body.toList ++ (emitMethod op).ret.toList).all serializes &&
    (queryParams op).all fun p => coerces doc p.ty

/-- An argument: what `Display` writes, if its type has that, and its JSON. -/
structure Arg where
  display : Octets
  json : Octets

def Coercion.text : Coercion → Arg → Octets
  | .clone, a => a.display
  | .toString, a => a.display
  | .json, a => a.json

/-- The text of an argument: what `Display` writes, or else its JSON. -/
def form (doc : Document) (p : Parameter) (a : Arg) : Octets :=
  if displays doc p.ty then a.display else a.json

/-- An `Option` cannot be formatted, and next to `path_seg` nothing else has that name. -/
def formats (u : Unicode) (doc : Document) (p : Parameter) : Bool :=
  p.required && displays doc p.ty && snake u.toCharCase p.name != "path_seg"

/-- What a part of the template adds to the format string and its arguments. -/
def evalPart (u : Unicode) (doc : Document) (params : List Parameter)
    (env : String → Option (Option Arg)) : TemplatePart → Option Octets
  | .lit text => if rawLiteral text then some text else none
  | .placeholder name =>
      match findParam params name with
      | some p =>
          if formats u doc p then
            ((env (snake u.toCharCase p.name)).bind id).map fun a => pathSeg a.display
          else none
      -- the name without its braces
      | none => if rawLiteral name then some name else none

def isPlaceholder : TemplatePart → Bool
  | .placeholder _ => true
  | .lit _ => false

def buildRustPath (u : Unicode) (doc : Document) (path : Octets) (params : List Parameter)
    (env : String → Option (Option Arg)) : Option Octets :=
  if (templateParts path).any isPlaceholder then
    ((templateParts path).mapM (evalPart u doc params env)).map List.flatten
  else if plainLiteral path then some path else none

def queryPair (u : Unicode) (env : String → Option (Option Arg)) (p : Parameter) :
    Option (List (Octets × Octets)) :=
  (env (snake u.toCharCase p.name)).bind fun a =>
    if !plainLiteral (octets p.name) then none
    else match a with
      | some v => some [(octets p.name, (rustCoerceString p.ty).text v)]
      | none => if p.required then none else some []

/-- What the function of an operation does with its arguments; `none` if it does not compile. -/
def call (u : Unicode) (doc : Document) (op : Operation) (args : List (Option Arg)) :
    Option ClientCall :=
  let env := bindArgs (argIdents u op) args
  if decide (argIdents u op).Nodup && (fnName u op :: argIdents u op).all u.isIdent &&
      typesCompile doc op then
    (buildRustPath u doc (octets op.path) (pathParams op) env).bind fun path =>
      ((queryParams op).mapM (queryPair u env)).map fun query => ⟨path, query.flatten, []⟩
  else none

end Rust

/-! ## §4  Methods that compile -/

theorem octets_inj {s t : String} : octets s = octets t ↔ s = t := by
  refine ⟨fun h => ?_, congrArg _⟩
  have hdecode := congrArg Utf8.decodeLossy h
  rwa [octets, octets, Utf8.decodeLossy_encode, Utf8.decodeLossy_encode, String.toList_inj]
    at hdecode

theorem mem_argParams {op : Operation} {p : Parameter} :
    p ∈ argParams op ↔ p ∈ op.parameters ∧ p.location ≠ .header := by
  rw [argParams, pathParams, queryParams, List.mem_append, List.mem_filter, List.mem_filter,
    ← and_or_left, isAt, isAt, beq_iff_eq, beq_iff_eq]
  refine and_congr_right fun _ => ?_
  cases p.location <;> decide

theorem mem_pathParams {op : Operation} {p : Parameter} :
    p ∈ pathParams op ↔ p ∈ op.parameters ∧ p.location = .path := by
  rw [pathParams, List.mem_filter, isAt, beq_iff_eq]

theorem mem_queryParams {op : Operation} {p : Parameter} :
    p ∈ queryParams op ↔ p ∈ op.parameters ∧ p.location = .query := by
  rw [queryParams, List.mem_filter, isAt, beq_iff_eq]

theorem findParam_mem {params : List Parameter} {name : Octets} {p : Parameter}
    (h : findParam params name = some p) : p ∈ params ∧ octets p.name = name := by
  have hname := List.find?_some (p := fun p : Parameter => octets p.name == name) h
  exact ⟨List.mem_of_find?_eq_some h, beq_iff_eq.mp hname⟩

/-- A part as it stands in the template. -/
def TemplatePart.source : TemplatePart → Octets
  | .lit text => text
  | .placeholder name => braced name

/-- The parts make up the template. -/
theorem flatMap_source : ∀ (rest lit : Octets) (name : Option Octets),
    (scanTemplate lit name rest).flatMap TemplatePart.source =
      lit ++ name.elim [] (123 :: ·) ++ rest
  | [], lit, none => by simp [scanTemplate, TemplatePart.source]
  | [], lit, some name => by simp [scanTemplate, TemplatePart.source]
  | b :: rest, lit, none => by
      rw [scanTemplate]
      split
      · next hb => simp [flatMap_source, hb]
      · simp [flatMap_source]
  | b :: rest, lit, some name => by
      rw [scanTemplate]
      split
      · next hb => simp [flatMap_source, TemplatePart.source, braced, hb]
      · simp [flatMap_source]

theorem templateParts_source (path : Octets) :
    (templateParts path).flatMap TemplatePart.source = path :=
  flatMap_source path [] none

section Args

variable {α : Type} {f : Parameter → String} {params : List Parameter} {args : List α}

theorem bindArgs_of_mem (hlen : args.length = params.length) (hnd : (params.map f).Nodup)
    {p : Parameter} {a : α} (ha : (p, a) ∈ params.zip args) :
    bindArgs (params.map f) args (f p) = some a := by
  apply lookup_eq_some_of_mem
  · rw [List.map_fst_zip (by rw [List.length_map, hlen])]
    exact hnd
  · rw [List.zip_map_left]
    exact List.mem_map.mpr ⟨(p, a), ha, rfl⟩

/-- Parameters whose identifiers are distinct have distinct names. -/
theorem findParam_eq_some (hident : ∀ p q : Parameter, p.name = q.name → f p = f q)
    (hnd : (params.map f).Nodup) {p : Parameter} (hp : p ∈ params) :
    findParam params (octets p.name) = some p := by
  obtain ⟨q, hq⟩ : ∃ q, findParam params (octets p.name) = some q := by
    apply Option.isSome_iff_exists.mp
    exact List.find?_isSome.mpr ⟨p, hp, beq_self_eq_true _⟩
  obtain ⟨hmem, hname⟩ := findParam_mem hq
  have heq := List.inj_on_of_nodup_map hnd hmem hp (hident q p (octets_inj.mp hname))
  rw [hq, heq]

end Args

namespace Go

/-- The names make distinct identifiers, the types are there, and the texts can be written as
literals. -/
structure Compiles (doc : Document) (op : Operation) : Prop where
  distinct : (argIdents op).Nodup
  idents : ∀ ident ∈ argIdents op, isIdent ident = true
  types : typesCompile doc op = true
  path : ∀ text, .lit text ∈ pathExpr op → plainLiteral text = true
  names : ∀ p ∈ queryParams op, plainLiteral (octets p.name) = true

def PathExpr.text (env : String → Option Arg) : PathExpr → Octets
  | .lit text => text
  | .escape ident => (env ident).elim [] fun a => pathEscape a.form

/-- Whether the argument of a query parameter is sent. -/
def sends (p : Parameter) (a : Arg) : Bool := p.required || sendsZero p.ty || !a.zero

def sentPairs (env : String → Option Arg) (params : List Parameter) : List (Octets × Octets) :=
  params.filterMap fun p => (env (goParamIdent p.name)).bind fun a =>
    if sends p a then some (octets p.name, a.form) else none

section Compiles

variable {doc : Document} {op : Operation} {args : List Arg}

theorem mem_pathExpr_escape {ident : String} (h : .escape ident ∈ pathExpr op) :
    ∃ p ∈ pathParams op, ident = goParamIdent p.name := by
  have hpart : ∀ part, .escape ident ∈ partExpr (pathParams op) part →
      ∃ p ∈ pathParams op, ident = goParamIdent p.name := by
    intro part hmem
    cases part with
    | lit text =>
        rw [partExpr] at hmem
        split at hmem <;> simp at hmem
    | placeholder name =>
        rw [partExpr] at hmem
        split at hmem
        · next p hp =>
            have heq := PathExpr.escape.inj (List.mem_singleton.mp hmem)
            exact ⟨p, (findParam_mem hp).1, heq⟩
        · simp at hmem
  unfold pathExpr buildPathConcat at h
  dsimp only at h
  split at h
  · simp at h
  · split at h
    · simp at h
    · obtain ⟨part, -, hmem⟩ := List.mem_flatMap.mp h
      exact hpart part hmem

theorem setValue_of_notMem {query : List (Octets × Octets)} {name value : Octets}
    (h : name ∉ query.map Prod.fst) : setValue query name value = query ++ [(name, value)] := by
  rw [setValue, List.filter_eq_self.mpr]
  intro e he
  rw [bne_iff_ne]
  rintro rfl
  exact h (List.mem_map_of_mem he)

/-- With distinct names every pair is added. -/
theorem foldlM_addQuery (env : String → Option Arg) : ∀ (params : List Parameter)
    (query : List (Octets × Octets)),
    (params.map fun p => octets p.name).Nodup →
    (∀ p ∈ params, octets p.name ∉ query.map Prod.fst) →
    (∀ p ∈ params, (env (goParamIdent p.name)).isSome = true) →
    (∀ p ∈ params, plainLiteral (octets p.name) = true) →
    params.foldlM (addQuery env) query = some (query ++ sentPairs env params)
  | [], query, _, _, _, _ => by
      rw [sentPairs, List.filterMap_nil, List.append_nil]
      rfl
  | p :: params, query, hnd, hnew, henv, hplain => by
      rw [List.map_cons, List.nodup_cons] at hnd
      obtain ⟨hp, hparams⟩ := List.forall_mem_cons.mp hplain
      obtain ⟨a, ha⟩ := Option.isSome_iff_exists.mp (henv p (List.mem_cons_self ..))
      have hstep : addQuery env query p =
          some (query ++ if sends p a then [(octets p.name, a.form)] else []) := by
        rw [addQuery, ha, Option.bind_some, hp, Bool.not_true, if_neg (by simp)]
        by_cases hsends : sends p a = true
        · have hsends' : (p.required || sendsZero p.ty || !a.zero) = true := hsends
          rw [if_pos hsends, if_pos hsends',
            setValue_of_notMem (hnew p (List.mem_cons_self ..))]
        · have hsends' : ¬(p.required || sendsZero p.ty || !a.zero) = true := hsends
          rw [if_neg hsends, if_neg hsends', List.append_nil]
      have hpairs : sentPairs env (p :: params) =
          (if sends p a then [(octets p.name, a.form)] else []) ++ sentPairs env params := by
        rw [sentPairs, List.filterMap_cons, ha, Option.bind_some]
        by_cases hsends : sends p a = true
        · rw [if_pos hsends, if_pos hsends]
          rfl
        · rw [if_neg hsends, if_neg hsends]
          rfl
      have hrest := foldlM_addQuery env params
        (query ++ if sends p a then [(octets p.name, a.form)] else []) hnd.2 ?_
        (fun q hq => henv q (List.mem_cons_of_mem _ hq)) hparams
      · rw [List.foldlM_cons, hstep, hpairs, ← List.append_assoc]
        exact hrest
      · intro q hq hmem
        rw [List.map_append, List.mem_append] at hmem
        rcases hmem with hmem | hmem
        · exact hnew q (List.mem_cons_of_mem _ hq) hmem
        · split at hmem
          · rw [List.map_singleton, List.mem_singleton] at hmem
            exact hnd.1 (List.mem_map.mpr ⟨q, hq, hmem⟩)
          · cases hmem

theorem Compiles.names_distinct (h : Compiles doc op) :
    ((queryParams op).map fun p => octets p.name).Nodup := by
  have hnd : ((queryParams op).map fun p => goParamIdent p.name).Nodup := by
    refine h.distinct.sublist ?_
    rw [argIdents, argParams, List.map_append]
    exact List.sublist_append_right ..
  rw [List.Nodup, List.pairwise_map] at hnd ⊢
  refine hnd.imp fun hne heq => hne ?_
  rw [octets_inj.mp heq]

theorem Compiles.bindArgs_eq (h : Compiles doc op) (hlen : args.length = (argParams op).length)
    {p : Parameter} {a : Arg} (ha : (p, a) ∈ (argParams op).zip args) :
    bindArgs (argIdents op) args (goParamIdent p.name) = some a := by
  have hnd := h.distinct
  unfold argIdents at hnd ⊢
  exact bindArgs_of_mem hlen hnd ha

/-- A path parameter is the one that its placeholder stands for. -/
theorem Compiles.findParam_eq (h : Compiles doc op) {p : Parameter} (hp : p ∈ pathParams op) :
    findParam (pathParams op) (octets p.name) = some p := by
  have hnd := h.distinct
  rw [argIdents, argParams, List.map_append, List.nodup_append'] at hnd
  exact findParam_eq_some (fun p q hname => congrArg goParamIdent hname) hnd.1 hp

theorem Compiles.bound (h : Compiles doc op) (hlen : args.length = (argParams op).length)
    {p : Parameter} (hp : p ∈ argParams op) :
    ∃ a, bindArgs (argIdents op) args (goParamIdent p.name) = some a ∧
      (p, a) ∈ (argParams op).zip args := by
  obtain ⟨a, hmem⟩ := exists_mem_zip hlen hp
  exact ⟨a, h.bindArgs_eq hlen hmem, hmem⟩

/-- **A method that compiles makes a call**: to the path with its arguments put in, with the
pairs that are sent. -/
theorem call_eq (h : Compiles doc op) (hlen : args.length = (argParams op).length) :
    call doc op args = some ⟨(pathExpr op).flatMap (PathExpr.text (bindArgs (argIdents op) args)),
      sentPairs (bindArgs (argIdents op) args) (queryParams op), []⟩ := by
  have hcond : (decide (argIdents op).Nodup && (argIdents op).all isIdent &&
      typesCompile doc op) = true := by
    rw [Bool.and_eq_true, Bool.and_eq_true, decide_eq_true_iff, List.all_eq_true]
    exact ⟨⟨h.distinct, h.idents⟩, h.types⟩
  have hpath : (pathExpr op).mapM (PathExpr.eval (bindArgs (argIdents op) args)) =
      some ((pathExpr op).map (PathExpr.text (bindArgs (argIdents op) args))) := by
    refine mapM_eq_some_map fun e he => ?_
    cases e with
    | lit text => exact if_pos (h.path text he)
    | escape ident =>
        obtain ⟨p, hp, rfl⟩ := mem_pathExpr_escape he
        obtain ⟨a, ha, -⟩ := h.bound hlen (List.mem_append_left _ hp)
        rw [PathExpr.eval, PathExpr.text, ha]
        rfl
  have hquery := foldlM_addQuery (bindArgs (argIdents op) args) (queryParams op) []
    h.names_distinct (fun _ _ => List.not_mem_nil) (fun p hp => ?_) h.names
  · unfold call
    dsimp only
    rw [if_pos hcond, hpath, Option.bind_some, hquery]
    rfl
  · obtain ⟨a, ha, -⟩ := h.bound hlen (List.mem_append_right _ hp)
    rw [ha]
    rfl

theorem names_of_foldlM {env : String → Option Arg} : ∀ {params : List Parameter}
    {query r : List (Octets × Octets)}, params.foldlM (addQuery env) query = some r →
    ∀ p ∈ params, plainLiteral (octets p.name) = true
  | [], _, _, _ => fun p hp => absurd hp List.not_mem_nil
  | p :: params, query, r, h => by
      rw [List.foldlM_cons] at h
      obtain ⟨query', hstep, hrest⟩ := Option.bind_eq_some_iff.mp h
      rw [List.forall_mem_cons]
      refine ⟨?_, names_of_foldlM hrest⟩
      obtain ⟨a, -, hadd⟩ := Option.bind_eq_some_iff.mp hstep
      by_contra hplain
      rw [Bool.not_eq_true] at hplain
      rw [hplain] at hadd
      cases hadd

theorem compiles_of_call {c : ClientCall} (h : call doc op args = some c) : Compiles doc op := by
  unfold call at h
  dsimp only at h
  split at h
  · next hcond =>
      rw [Bool.and_eq_true, Bool.and_eq_true, decide_eq_true_iff, List.all_eq_true] at hcond
      obtain ⟨path, hpath, h'⟩ := Option.bind_eq_some_iff.mp h
      obtain ⟨query, hquery, -⟩ := Option.map_eq_some_iff.mp h'
      refine ⟨hcond.1.1, hcond.1.2, hcond.2, fun text htext => ?_, names_of_foldlM hquery⟩
      have hsome := isSome_mapM_iff.mp (Option.isSome_of_mem hpath) _ htext
      by_contra hplain
      rw [PathExpr.eval, if_neg hplain] at hsome
      cases hsome
  · cases h

end Compiles

end Go

namespace Rust

def partCompiles (u : Unicode) (doc : Document) (params : List Parameter) : TemplatePart → Bool
  | .lit text => rawLiteral text
  | .placeholder name =>
      match findParam params name with
      | some p => formats u doc p
      | none => rawLiteral name

/-- The names make distinct identifiers, the types are there and have what they need, the texts can
be written as literals (in a format string without escapes), and what is formatted is there. -/
structure Compiles (u : Unicode) (doc : Document) (op : Operation) : Prop where
  distinct : (argIdents u op).Nodup
  idents : ∀ ident ∈ fnName u op :: argIdents u op, u.isIdent ident = true
  types : typesCompile doc op = true
  path : (if (templateParts (octets op.path)).any isPlaceholder then
      (templateParts (octets op.path)).all (partCompiles u doc (pathParams op))
    else plainLiteral (octets op.path)) = true
  names : ∀ p ∈ queryParams op, plainLiteral (octets p.name) = true

def partText (u : Unicode) (params : List Parameter) (env : String → Option (Option Arg)) :
    TemplatePart → Octets
  | .lit text => text
  | .placeholder name =>
      match findParam params name with
      | some p => ((env (snake u.toCharCase p.name)).bind id).elim [] fun a => pathSeg a.display
      | none => name

def sentPairs (u : Unicode) (env : String → Option (Option Arg)) (params : List Parameter) :
    List (Octets × Octets) :=
  params.filterMap fun p =>
    ((env (snake u.toCharCase p.name)).bind id).map fun a =>
      (octets p.name, (rustCoerceString p.ty).text a)

section Compiles

variable {u : Unicode} {doc : Document} {op : Operation} {args : List (Option Arg)}

/-- Arguments that a caller can pass: only what is optional can be left out. -/
structure Typed (doc : Document) (op : Operation) (args : List (Option Arg)) : Prop where
  length : args.length = (argParams op).length
  present : ∀ x ∈ (argParams op).zip args, x.1.required = true → x.2 ≠ none
  json : ∀ x ∈ (argParams op).zip args, displaysJson doc x.1.ty = true →
    ∀ a, x.2 = some a → a.json = a.display

theorem required_of_formats {p : Parameter} (h : formats u doc p = true) : p.required = true :=
  (Bool.and_eq_true_iff.mp (Bool.and_eq_true_iff.mp h).1).1

theorem displays_of_formats {p : Parameter} (h : formats u doc p = true) :
    displays doc p.ty = true :=
  (Bool.and_eq_true_iff.mp (Bool.and_eq_true_iff.mp h).1).2

theorem Compiles.bindArgs_eq (h : Compiles u doc op) (hargs : Typed doc op args)
    {p : Parameter} {a : Option Arg} (ha : (p, a) ∈ (argParams op).zip args) :
    bindArgs (argIdents u op) args (snake u.toCharCase p.name) = some a := by
  have hnd := h.distinct
  unfold argIdents at hnd ⊢
  exact bindArgs_of_mem hargs.length hnd ha

theorem Compiles.findParam_eq (h : Compiles u doc op) {p : Parameter} (hp : p ∈ pathParams op) :
    findParam (pathParams op) (octets p.name) = some p := by
  have hnd := h.distinct
  rw [argIdents, argParams, List.map_append, List.nodup_append'] at hnd
  exact findParam_eq_some (fun p q hname => congrArg (snake u.toCharCase) hname) hnd.1 hp

theorem Compiles.bound (h : Compiles u doc op) (hargs : Typed doc op args) {p : Parameter}
    (hp : p ∈ argParams op) :
    ∃ a, bindArgs (argIdents u op) args (snake u.toCharCase p.name) = some a ∧
      (p, a) ∈ (argParams op).zip args ∧ (p.required = true → a ≠ none) := by
  obtain ⟨a, hmem⟩ := exists_mem_zip hargs.length hp
  exact ⟨a, h.bindArgs_eq hargs hmem, hmem, hargs.present (p, a) hmem⟩

theorem evalPart_eq (h : Compiles u doc op) (hargs : Typed doc op args) {part : TemplatePart}
    (hpart : partCompiles u doc (pathParams op) part = true) :
    evalPart u doc (pathParams op) (bindArgs (argIdents u op) args) part =
      some (partText u (pathParams op) (bindArgs (argIdents u op) args) part) := by
  cases part with
  | lit text => exact if_pos hpart
  | placeholder name =>
      rw [partCompiles] at hpart
      rw [evalPart, partText]
      cases hfind : findParam (pathParams op) name with
      | none =>
          rw [hfind] at hpart
          exact if_pos hpart
      | some p =>
          rw [hfind] at hpart
          obtain ⟨a, ha, -, hsome⟩ := h.bound hargs (List.mem_append_left _ (findParam_mem hfind).1)
          have hreq := required_of_formats hpart
          obtain ⟨v, hv⟩ := Option.ne_none_iff_exists'.mp (hsome hreq)
          dsimp only
          rw [if_pos hpart, ha, hv]
          rfl

theorem buildRustPath_eq (h : Compiles u doc op) (hargs : Typed doc op args) :
    buildRustPath u doc (octets op.path) (pathParams op) (bindArgs (argIdents u op) args) =
      some ((templateParts (octets op.path)).flatMap
        (partText u (pathParams op) (bindArgs (argIdents u op) args))) := by
  have hcompiles := h.path
  unfold buildRustPath
  split
  · next hany =>
      rw [if_pos hany, List.all_eq_true] at hcompiles
      rw [mapM_eq_some_map fun part hpart => evalPart_eq h hargs (hcompiles part hpart)]
      rfl
  · next hany =>
      rw [if_neg hany] at hcompiles
      rw [if_pos hcompiles]
      -- without placeholders the path is its literals
      have hsource : ∀ part ∈ templateParts (octets op.path), part.source =
          partText u (pathParams op) (bindArgs (argIdents u op) args) part := by
        intro part hpart
        cases part with
        | lit text => rfl
        | placeholder name => exact absurd (List.any_eq_true.mpr ⟨_, hpart, rfl⟩) hany
      rw [← List.flatMap_congr hsource, templateParts_source]

/-- What a query parameter adds. -/
theorem queryPair_eq (h : Compiles u doc op) (hargs : Typed doc op args) {p : Parameter}
    (hp : p ∈ queryParams op) :
    queryPair u (bindArgs (argIdents u op) args) p =
      some (((bindArgs (argIdents u op) args (snake u.toCharCase p.name)).bind id).map fun a =>
        (octets p.name, (rustCoerceString p.ty).text a)).toList := by
  obtain ⟨a, ha, -, hsome⟩ := h.bound hargs (List.mem_append_right _ hp)
  rw [queryPair, ha, Option.bind_some, h.names p hp, Bool.not_true, if_neg (by simp)]
  cases a with
  | some v => rfl
  | none =>
      dsimp only
      rw [if_neg fun hreq => hsome hreq rfl]
      rfl

/-- **A function that compiles makes a call**: to the path with its arguments put in, with the
pairs whose values are there. -/
theorem call_eq (h : Compiles u doc op) (hargs : Typed doc op args) :
    call u doc op args = some
      ⟨(templateParts (octets op.path)).flatMap
          (partText u (pathParams op) (bindArgs (argIdents u op) args)),
        sentPairs u (bindArgs (argIdents u op) args) (queryParams op), []⟩ := by
  have hcond : (decide (argIdents u op).Nodup && (fnName u op :: argIdents u op).all u.isIdent &&
      typesCompile doc op) = true := by
    rw [Bool.and_eq_true, Bool.and_eq_true, decide_eq_true_iff, List.all_eq_true]
    exact ⟨⟨h.distinct, h.idents⟩, h.types⟩
  have hquery := mapM_eq_some_map fun p hp => queryPair_eq h hargs (p := p) hp
  unfold call
  dsimp only
  rw [if_pos hcond, buildRustPath_eq h hargs, Option.bind_some, hquery, Option.map_some, sentPairs,
    List.filterMap_eq_flatMap_toList]
  rfl

theorem partCompiles_of_evalPart {params : List Parameter}
    {env : String → Option (Option Arg)} {part : TemplatePart}
    (h : (evalPart u doc params env part).isSome = true) : partCompiles u doc params part = true := by
  by_contra hpart
  rw [Bool.not_eq_true] at hpart
  cases part with
  | lit text =>
      have hraw : rawLiteral text = false := hpart
      rw [evalPart, hraw] at h
      cases h
  | placeholder name =>
      rw [partCompiles] at hpart
      rw [evalPart] at h
      cases hfind : findParam params name with
      | none =>
          rw [hfind] at h hpart
          dsimp only at h hpart
          rw [hpart] at h
          cases h
      | some p =>
          rw [hfind] at h hpart
          dsimp only at h hpart
          rw [hpart] at h
          cases h

theorem compiles_of_call {c : ClientCall} (h : call u doc op args = some c) : Compiles u doc op := by
  unfold call at h
  dsimp only at h
  split at h
  · next hcond =>
      rw [Bool.and_eq_true, Bool.and_eq_true, decide_eq_true_iff, List.all_eq_true] at hcond
      obtain ⟨path, hpath, h'⟩ := Option.bind_eq_some_iff.mp h
      obtain ⟨query, hquery, -⟩ := Option.map_eq_some_iff.mp h'
      refine ⟨hcond.1.1, hcond.1.2, hcond.2, ?_, fun p hp => ?_⟩
      · unfold buildRustPath at hpath
        split at hpath
        · next hany =>
            obtain ⟨bs, hbs, -⟩ := Option.map_eq_some_iff.mp hpath
            rw [if_pos hany, List.all_eq_true]
            intro part hpart
            have hsome := isSome_mapM_iff.mp (Option.isSome_of_mem hbs) part hpart
            exact partCompiles_of_evalPart hsome
        · next hany =>
            rw [if_neg hany]
            by_contra hplain
            rw [if_neg hplain] at hpath
            cases hpath
      · have hsome := isSome_mapM_iff.mp (Option.isSome_of_mem hquery) p hp
        obtain ⟨e, he⟩ := Option.isSome_iff_exists.mp hsome
        obtain ⟨a, -, hadd⟩ := Option.bind_eq_some_iff.mp he
        by_contra hplain
        rw [Bool.not_eq_true] at hplain
        rw [hplain] at hadd
        cases hadd
  · cases h

end Compiles

end Rust

end SpecForge
