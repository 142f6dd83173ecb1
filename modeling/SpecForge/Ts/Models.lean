import SpecForge.Lib.BTreeMap
import SpecForge.Ts.Types

/-!
# Model files (`models.rs`, `util.rs`)

One file for each model: an interface, a type alias or a string union under
`safe_model_name(pascal(name))`, behind imports of the models it refers to. The text is
marked wherever it names the type or the file of a schema.

- §1 the guards of a union; §2 the body of a model; §3 the file.
- §4 what the marks of a file are.
-/

namespace SpecForge.Ts

open Lib
open Lib.Marked (plain mark)

/-! ## §1  Union guards -/

def fileHeader : String :=
  "/* eslint-disable */\n// This file is generated by specforge. DO NOT EDIT.\n"

def discriminantLiteral (armName prop : String) (registry : SchemaRegistry)
    (disc : Option Discriminator) : Option String :=
  let own : Option String :=
    match registry.get armName with
    | some (.object obj) =>
        match obj.properties.find? fun p => p.name == prop with
        | some p =>
            match p.ty with
            | .stringEnum [variant] _ => some (stringLiteral variant)
            | .reference name _ _ =>
                match registry.get name with
                | some (.enum e) =>
                    match e.variants with
                    | [v] => some (stringLiteral v.value)
                    | _ => none
                | _ => none
            | _ => none
        | none => none
    | _ => none
  own.or (disc.bind fun d => d.mapping.bind fun mapping =>
    (mapping.entries.find? fun x => x.2 == armName).map fun x => stringLiteral x.1)

def requiredFieldCheck (armName : String) (registry : SchemaRegistry)
    (extraExclude : Option String) : Option String :=
  match registry.get armName with
  | some (.object obj) =>
      let reqs := ((obj.properties.filter (·.required)).map (·.name)).filter
        fun n => extraExclude != some n
      let names := if reqs.isEmpty then obj.properties.map (·.name) else reqs
      if names.isEmpty then none
      else some (Text.join " && " (names.map fun n =>
        "\"" ++ escapeQuotes n ++ "\" in (value as object)"))
  | _ => none

def valueAccess (prop : String) : String :=
  let key := propertyKey prop
  if Text.startsWith "\"" key then
    "(value as unknown as Record<string, unknown>)[" ++ key ++ "]"
  else "(value as unknown as Record<string, unknown>)." ++ key

def objectCheck : String := "typeof value === \"object\" && value !== null"

def armTypeCheck (armName : String) (discProp : Option String)
    (registry : Option SchemaRegistry) (disc : Option Discriminator) : String :=
  match discProp, registry with
  | some prop, some reg =>
      match discriminantLiteral armName prop reg disc with
      | some lit => objectCheck ++ " && " ++ valueAccess prop ++ " === " ++ lit
      | none =>
          match requiredFieldCheck armName reg (some prop) with
          | some req => objectCheck ++ " && " ++ valueAccess prop ++ " !== undefined && " ++ req
          | none => objectCheck ++ " && " ++ valueAccess prop ++ " !== undefined"
  | none, some reg =>
      match requiredFieldCheck armName reg none with
      | some req => objectCheck ++ " && " ++ req
      | none => objectCheck
  | _, none => objectCheck

/-- The reference arms of a union. -/
def unionArms (members : List IrType) : List String :=
  members.filterMap fun
    | .reference name _ _ => some name
    | _ => none

def emitUnionGuards (unionName : String) (members : List IrType)
    (discriminator : Option Discriminator) (registry : Option SchemaRegistry) :
    Option (Marked Mention) :=
  let arms := unionArms members
  if arms.isEmpty then none
  else
    let discProp := discriminator.map (·.propertyName)
    let own := mark Mention.own unionName
    some (
      plain "/** Runtime type guards for the `" ++ own ++ plain "` union. */\n" ++
      arms.flatMap (fun arm =>
        plain ("export function is" ++ unionName ++ pascal arm ++ "(value: ") ++ own ++
        plain "): value is " ++ mark (Mention.ident arm) (pascal arm) ++ plain " \x7b\n" ++
        plain ("  return " ++ armTypeCheck arm discProp registry discriminator ++ ";\n") ++
        plain "\x7d\n") ++
      plain "/** Return which `" ++ own ++ plain "` arm `value` matches, or `undefined`. */\n" ++
      plain ("export function narrow" ++ unionName ++ "(value: ") ++ own ++ plain "): " ++
      plain (Text.join " | " (arms.map fun a => "\"" ++ pascal a ++ "\"")) ++
      plain " | undefined \x7b\n" ++
      arms.flatMap (fun arm =>
        plain ("  if (is" ++ unionName ++ pascal arm ++ "(value)) return \"" ++ pascal arm
          ++ "\";\n")) ++
      plain "  return undefined;\n" ++
      plain "\x7d\n")

/-! ## §2  Bodies -/

def formatDocComment (text pad : String) : String :=
  Text.join "" ((Text.lines text).map fun line => pad ++ "/// " ++ line ++ "\n")

def renderProperty (p : Property) : Marked Mention :=
  (match p.description with
    | some desc => plain (formatDocComment desc "  ")
    | none => []) ++
  plain ("  " ++ propertyKey p.name ++ (if p.required then "" else "?") ++ ": ") ++
  renderMarked p.ty ++ plain ";\n"

/-- The comment in front of an object model. -/
def objectDoc (o : ObjectModel) : String :=
  match o.description with
  | none => ""
  | some desc =>
      "/**\n * " ++ desc ++ "\n" ++
      Text.join "" (o.properties.filterMap fun prop => prop.description.map fun pd =>
        " * @property " ++ propertyKey prop.name ++ " - " ++ pd ++
        (if prop.required then "" else " (optional)") ++ "\n") ++
      " */\n"

/-- What `emit_object` and `emit_enum` return: the name declared, the body and the
schemas referred to. -/
structure Emitted where
  name : String
  body : Marked Mention
  refs : List String

def emitObject (o : ObjectModel) (registry : Option SchemaRegistry) : Emitted :=
  let name := safeModelName (pascal o.name)
  let own := mark Mention.own name
  let doc := plain (objectDoc o)
  if !o.properties.isEmpty then
    let index := match o.additionalProperties with
      | some addl => plain "  [key: string]: " ++ renderMarked addl ++ plain ";\n"
      | none => []
    { name := name
      body := doc ++ plain "export interface " ++ own ++ plain " \x7b\n" ++
        o.properties.flatMap renderProperty ++ index ++ plain "\x7d\n"
      refs := BTreeMap.sortedSet
        (o.properties.flatMap (·.ty.refs) ++ (o.additionalProperties.map (·.refs)).getD []) }
  else
    match o.shapeType with
    | some shape =>
        let guards := match shape with
          | .composition .oneOf members disc | .composition .anyOf members disc =>
              match emitUnionGuards name members disc registry with
              | some guards => plain "\n" ++ guards
              | none => []
          | _ => []
        { name := name
          body := doc ++ plain "export type " ++ own ++ plain " = " ++ renderMarked shape ++
            plain ";\n" ++ guards
          refs := BTreeMap.sortedSet shape.refs }
    | none =>
        { name := name
          body := doc ++ plain "export interface " ++ own ++ plain " \x7b\x7d\n"
          refs := [] }

def emitEnum (e : EnumModel) : Emitted :=
  let name := safeModelName (pascal e.name)
  let arms := e.variants.map fun v => stringLiteral v.value
  { name := name
    body := plain ((e.description.map fun desc => formatDocComment desc "").getD "") ++
      plain "export type " ++ mark Mention.own name ++
      plain (" = " ++ Text.join " | " arms ++ ";\n") ++
      plain ("export const " ++ name ++ "Values = [" ++ Text.join ", " arms ++ "] as const;\n")
    refs := [] }

/-! ## §3  Files -/

/-- `Model::name`. -/
def modelName : Model → String
  | .object o => o.name
  | .enum e => e.name

def emitModel (registry : Option SchemaRegistry) : Model → Emitted
  | .object o => emitObject o registry
  | .enum e => emitEnum e

/-- One import of a model from its own directory. -/
def importLine (r : String) : Marked Mention :=
  plain "import \x7b " ++ mark (Mention.ident r) (pascal r) ++ plain " \x7d from \"./" ++
  mark (Mention.file r) (pascal r) ++ plain "\";"

def buildImports (refs : List String) (selfName : String) : Marked Mention :=
  let selfPascal := pascal selfName
  let lines := (refs.filter fun r => pascal r != selfPascal).map importLine
  Marked.join "\n" (lines.mergeSort fun l l' => decide (l.erase ≤ l'.erase))

def emitModelFileWithRegistry (model : Model) (registry : Option SchemaRegistry) :
    Marked Mention :=
  let emitted := emitModel registry model
  let imports := buildImports emitted.refs emitted.name
  plain fileHeader ++
  (if imports.erase.isEmpty then [] else plain "\n" ++ imports ++ plain "\n") ++
  plain "\n" ++ emitted.body ++ plain "\n"

/-- The file of a model in the package. -/
def modelPath (model : Model) : String :=
  "src/models/" ++ safeModelName (pascal (modelName model)) ++ ".ts"

end SpecForge.Ts
