import SpecForge.Lib.BTreeMap
import SpecForge.Ts.Models

/-!
# API files (`operations.rs`)

One file for each tag, one class in it, one method of the class for each operation. The
imports of a file are collected from its methods: the schemas named in their types, and
what they use of the validation module.

- §1 the validators of a type; §2 the parts of a method; §3 the method.
- §4 the file of a tag; §5 all files of a document.
-/

namespace SpecForge.Ts

open Lib
open Lib.Marked (plain mark)

/-! ## §1  Validators -/

/-- The model that a type is made of by arrays and maps. -/
def modelUnder : IrType → Option String
  | .reference name _ _ => some name
  | .array item _ => modelUnder item
  | .map value => modelUnder value
  | _ => none

def validatorName : IrType → Option String
  | .reference name _ _ => some ("validate" ++ pascal name)
  | .array item _ => validatorName item
  | .map value => validatorName value
  | _ => none

def schemaName : IrType → Option String
  | .reference name _ _ => some (pascal name ++ "Schema")
  | .array item _ => schemaName item
  | .map value => schemaName value
  | _ => none

theorem validatorName_eq (t : IrType) :
    validatorName t = (modelUnder t).map fun r => "validate" ++ pascal r := by
  induction t using IrType.induction with
  | array item nullable ih => exact ih
  | map value ih => exact ih
  | _ => rfl

theorem schemaName_eq (t : IrType) :
    schemaName t = (modelUnder t).map fun r => pascal r ++ "Schema" := by
  induction t using IrType.induction with
  | array item nullable ih => exact ih
  | map value ih => exact ih
  | _ => rfl

/-- The responses whose status starts with a 2, lowest first. -/
def successResponses (op : Operation) : List SpecForge.Response :=
  (op.responses.filter fun r => Text.startsWith "2" r.status).mergeSort
    fun r r' => decide (r.status ≤ r'.status)

def successBody (op : Operation) : Option IrType :=
  (successResponses op).head?.bind (·.body)

/-! ## §2  Parts of a method -/

def pathParams (op : Operation) : List Parameter :=
  op.parameters.filter fun p => p.location = .path

def queryParams (op : Operation) : List Parameter :=
  op.parameters.filter fun p => p.location = .query

def headerParams (op : Operation) : List Parameter :=
  op.parameters.filter fun p => p.location = .header

/-- The parameters in the order of the parameter interface. -/
def orderedParams (op : Operation) : List Parameter :=
  pathParams op ++ queryParams op ++ headerParams op

def hasParams (op : Operation) : Bool :=
  !(orderedParams op).isEmpty || op.requestBody.isSome

def paramsName (op : Operation) : String := pascal op.operationId ++ "Params"

def emitInterface (op : Operation) : Option (Marked Mention) :=
  if hasParams op then
    some (
      plain ("export interface " ++ paramsName op ++ " \x7b\n") ++
      (orderedParams op).flatMap (fun p =>
        plain ("  " ++ propertyKey p.name ++ (if p.required then "" else "?") ++ ": ") ++
        renderMarked p.ty ++ plain ";\n") ++
      (match op.requestBody with
        | some body => plain ("  body" ++ (if body.required then "" else "?") ++ ": ") ++
            renderMarked body.ty ++ plain ";\n"
        | none => []) ++
      plain "\x7d\n")
  else none

/-- The path with its placeholders replaced by accesses to the parameters. -/
def pathSubst (op : Operation) : String :=
  (pathParams op).foldl (fun path p =>
    path.replace ("\x7b" ++ p.name ++ "\x7d")
      ("$\x7b" ++ memberAccess "params" p.name ++ "\x7d")) op.path

def paramEntries (ps : List Parameter) : String :=
  Text.join ", " (ps.map fun p => "\"" ++ p.name ++ "\": " ++ memberAccess "params" p.name)

def retryFields (retry : RetryPolicy) : String :=
  match retry.maxRetries, retry.retryable with
  | some max, false => "\x7b maxRetries: " ++ toString max.toNat ++ ", retryable: false \x7d"
  | some max, true => "\x7b maxRetries: " ++ toString max.toNat ++ " \x7d"
  -- not a format string in the source, so its braces stay doubled
  | none, false => "\x7b\x7b retryable: false \x7d\x7d"
  | none, true => ""

def optsLiteral (op : Operation) : String :=
  let headers := headerParams op
  let query := queryParams op
  let retry := (op.retryPolicy.map retryFields).getD ""
  let parts :=
    (if headers.isEmpty then [] else ["headers: \x7b " ++ paramEntries headers ++ " \x7d"]) ++
    (if query.isEmpty then [] else ["query: \x7b " ++ paramEntries query ++ " \x7d"]) ++
    (if op.requestBody.isSome then ["body: params.body"] else []) ++
    (if retry.isEmpty then [] else ["retry: " ++ retry])
  if parts.isEmpty then "" else ", \x7b " ++ Text.join ", " parts ++ " \x7d"

/-- The type of a request body, where there is one. -/
def requestType (op : Operation) : Option IrType := op.requestBody.map (·.ty)

/-- The schema constant that a body of this type is checked against. -/
def checkedSchema (ty : Option IrType) : Option String :=
  match ty.bind validatorName, ty.bind schemaName with
  | some _, some s => some s
  | _, _ => none

def usedValidators (op : Operation) : List String :=
  let request := requestType op
  let success := successBody op
  (request.bind validatorName).toList ++ (success.bind validatorName).toList ++
  (request.bind schemaName).toList ++ (success.bind schemaName).toList ++
  (if (request.bind schemaName).isSome then ["validateRequest"] else []) ++
  (if (success.bind schemaName).isSome then ["validateResponse"] else [])

/-! ## §3  Methods -/

/-- The arguments that every call of an operation starts with. -/
def callTarget (op : Operation) : String :=
  "\"" ++ op.method.upper ++ "\", \x60" ++ pathSubst op ++ "\x60"

def emitCall (op : Operation) : Marked Mention :=
  let requestCheck := match checkedSchema (requestType op) with
    | some s => "    if (this.client.validate) \x7b validateRequest(" ++ callTarget op
        ++ ", params.body, " ++ s ++ "); \x7d\n"
    | none => ""
  match successBody op with
  | none =>
      plain (requestCheck ++ "    await this.client.request(" ++ callTarget op
        ++ optsLiteral op ++ ");")
  | some t =>
      match checkedSchema (some t) with
      | some s =>
          plain (requestCheck ++ "    const result = await this.client.requestJson<") ++
          renderMarked t ++ plain (">(" ++ callTarget op ++ optsLiteral op ++ ");\n") ++
          plain ("    if (this.client.validate) \x7b validateResponse(" ++ callTarget op
            ++ ", 200, result, " ++ s ++ "); \x7d\n") ++
          plain "    return result;"
      | none =>
          plain (requestCheck ++ "    return await this.client.requestJson<") ++
          renderMarked t ++ plain (">(" ++ callTarget op ++ optsLiteral op ++ ");")

def optionalSuffix (required : Bool) : String := if required then "" else " (optional)"

def methodDoc (op : Operation) : String :=
  (match op.summary with
    | some s => "/**\n * " ++ s ++ "\n"
    | none => "/**\n * " ++ op.method.upper ++ " " ++ op.path ++ "\n") ++
  Text.join "" (((op.description.map Text.lines).getD []).map fun line =>
    " * " ++ line ++ "\n") ++
  Text.join "" (op.parameters.map fun p =>
    let pname := memberAccess "params" p.name
    match p.description with
    | some desc => " * @param " ++ pname ++ " - " ++ desc ++ optionalSuffix p.required ++ "\n"
    | none => " * @param " ++ pname ++ optionalSuffix p.required ++ "\n") ++
  (match op.requestBody with
    | some body =>
        match body.description with
        | some desc => " * @param params.body - " ++ desc ++ optionalSuffix body.required ++ "\n"
        | none => " * @param params.body" ++ optionalSuffix body.required ++ "\n"
    | none => "") ++
  (match (successResponses op).head?.bind (·.description) with
    | some desc => " * @returns " ++ desc ++ "\n"
    | none =>
        if (successBody op).isSome then " * @returns The response body\n" else "") ++
  Text.join "" ((op.responses.filter fun r =>
      !Text.startsWith "2" r.status && r.status != "*").map fun r =>
    match r.description with
    | some desc => " * @throws \x7bApiError\x7d " ++ r.status ++ " - " ++ desc ++ "\n"
    | none => " * @throws \x7bApiError\x7d " ++ r.status ++ "\n") ++
  " */\n"

/-- What `emit_method` returns, and the types whose schemas it adds to the imports. -/
structure EmittedMethod where
  name : String
  iface : Option (Marked Mention)
  text : Marked Mention
  validators : List String
  types : List IrType

def emitMethod (op : Operation) : EmittedMethod :=
  let sigParams :=
    if hasParams op then "params: " ++ paramsName op else "options?: RequestOptions"
  let ret := match successBody op with
    | none => plain ": Promise<void>"
    | some t => plain ": Promise<" ++ renderMarked t ++ plain ">"
  { name := camel op.operationId
    iface := emitInterface op
    text := plain (methodDoc op) ++
      plain ("  async " ++ camel op.operationId ++ "(" ++ sigParams ++ ")") ++ ret ++
      plain " \x7b\n    " ++ emitCall op ++ plain "\n  \x7d\n"
    validators := usedValidators op
    types := (orderedParams op).map (·.ty) ++ (requestType op).toList ++
      (successBody op).toList }

/-! ## §4  Tag files -/

/-- The content of an API file before it is printed. -/
structure TagFile where
  className : String
  validateImports : List String
  /-- The identifiers imported from the models, each with the schema it is for. -/
  modelImports : List (String × String)
  methods : List EmittedMethod

def emitTagFile (tag : String) (ops : List Operation) : TagFile :=
  let methods := ops.map emitMethod
  let refs := BTreeMap.sortedSet (methods.flatMap fun m => m.types.flatMap (·.refs))
  { className := pascal tag ++ "Api"
    validateImports := BTreeMap.sortedSet (methods.flatMap (·.validators))
    -- sorted, and one import for each identifier
    modelImports := BTreeMap.collect (refs.map fun r => (pascal r, r))
    methods := methods }

def TagFile.text (f : TagFile) : Marked Mention :=
  plain fileHeader ++ plain "\n" ++
  plain "import type \x7b ApiClient, RequestOptions \x7d from \"../client\";\n" ++
  (if f.validateImports.isEmpty then []
    else plain ("import \x7b " ++ Text.join ", " f.validateImports
      ++ " \x7d from \"../validate\";\n")) ++
  f.modelImports.flatMap (fun x =>
    plain "import type \x7b " ++ mark (Mention.ident x.2) x.1 ++ plain " \x7d from \"../models/" ++
    mark (Mention.file x.2) x.1 ++ plain "\";\n") ++
  plain "\n" ++
  (f.methods.filterMap (·.iface)).flatMap (fun iface => iface ++ plain "\n") ++
  plain ("export class " ++ f.className ++ " \x7b\n") ++
  plain "  constructor(private readonly client: ApiClient) \x7b\x7d\n\n" ++
  f.methods.flatMap (fun m => m.text ++ plain "\n") ++
  plain "\x7d\n\n" ++
  plain ("/** Construct the " ++ f.className ++ " against an existing client. */\n"
    ++ "export function " ++ camel f.className ++ "(deps: \x7b client: ApiClient \x7d): "
    ++ f.className ++ " \x7b\n  return new " ++ f.className ++ "(deps.client);\n\x7d\n")

/-! ## §5  All API files -/

/-- The tag that an operation is grouped under. -/
def groupTag (op : Operation) : String := op.tag.getD "Default"

def apiPath (stem : String) : String := "src/api/" ++ stem ++ ".ts"

/-- `operations::collect`: the files by path. -/
def collectOperations (doc : Document) : List (String × TagFile) :=
  (BTreeMap.groupBy groupTag doc.operations).map fun g =>
    (apiPath (pascal g.1), emitTagFile g.1 g.2)

end SpecForge.Ts
