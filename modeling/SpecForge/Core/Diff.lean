import SpecForge.Core.Ir
import SpecForge.Lib.Text

/-!
# Comparing two documents (`diff.rs`)

`diffDetailed` compares an old document with a new one and reports findings,
each breaking or informational, and the property changes of every schema that
both documents have.

Operations are matched by operation id and schemas by name, through hashed
containers. Their iteration orders are the parameter `DiffHashing`; everything
pushed to `findings` is modelled as the list of what was pushed.
-/

namespace SpecForge

open Lib (IndexMap HashOrder)
open Lib.Text

/-! ## §1  Results -/

inductive DiffSeverity where
  | breaking
  | info
deriving DecidableEq

structure DiffFinding where
  severity : DiffSeverity
  message : String
  path : String
deriving DecidableEq

inductive PropertyChangeKind where
  | added (ty : String)
  | addedRequired (ty : String)
  | removed (ty : String)
  | typeChanged (oldType newType : String)
  | requiredChanged (oldRequired newRequired : Bool)
deriving DecidableEq

structure PropertyChange where
  property : String
  change : PropertyChangeKind
deriving DecidableEq

structure SchemaDiffDetail where
  name : String
  changes : List PropertyChange
deriving DecidableEq

structure DiffResult where
  findings : List DiffFinding
  schemaDiffs : List SchemaDiffDetail
deriving DecidableEq

/-- The hashers of one run: an order for each map or set that is iterated. -/
structure DiffHashing where
  oldOps : HashOrder String
  newOps : HashOrder String
  oldSchemas : HashOrder String
  newSchemas : HashOrder String

def DiffHashing.insertion : DiffHashing :=
  ⟨HashOrder.insertion, HashOrder.insertion, HashOrder.insertion, HashOrder.insertion⟩

/-! ## §2  Types and versions -/

def typeToString : IrType → String
  | .scalar .string => "string"
  | .scalar .dateTime => "date-time"
  | .scalar .uuid => "uuid"
  | .scalar .integer => "integer"
  | .scalar .integer64 => "integer (int64)"
  | .scalar .float => "number"
  | .scalar .boolean => "boolean"
  | .scalar _ => "other"
  | .reference name _ _ => name
  | .stringEnum _ _ => "string (enum)"
  | .array _ _ => "array"
  | .map _ => "object"
  | .composition _ _ _ => "composition"
  | .any => "any"
  | .unknown => "unknown"

/-- `mem::discriminant`: which constructor a type has. -/
def discriminant : IrType → Fin 8
  | .scalar _ => 0
  | .stringEnum _ _ => 1
  | .array _ _ => 2
  | .map _ => 3
  | .reference _ _ _ => 4
  | .composition _ _ _ => 5
  | .any => 6
  | .unknown => 7

def typeChanged : IrType → IrType → Bool
  | .scalar a, .scalar b => a != b
  | .reference a _ _, .reference b _ _ => a != b
  | .stringEnum a _, .stringEnum b _ => a != b
  | .array a _, .array b _ => typeChanged a b
  | old, new => discriminant old != discriminant new

/-- `str::parse::<u64>`: decimal digits with an optional plus sign, no
overflow. -/
def parseU64 (s : String) : Option Nat :=
  let digits : List Char := match s.toList with
    | '+' :: rest => rest
    | cs => cs
  let n : ℕ := digits.foldl (fun n c => 10 * n + (c.toNat - 48)) 0
  if !digits.isEmpty && digits.all Char.isDigit && decide (n < UInt64.size) then some n
  else none

def irMajorVersion (version : String) : Nat :=
  ((split '.' version).head?.bind parseU64).getD 0

def diffIrVersion (old new : Document) : List DiffFinding :=
  if old.irVersion ≠ new.irVersion then
    if irMajorVersion old.irVersion ≠ irMajorVersion new.irVersion then
      [⟨.breaking, "IR version changed: " ++ old.irVersion ++ " → " ++ new.irVersion
        ++ " (major version bump indicates breaking IR schema changes)", "ir_version"⟩]
    else
      [⟨.info, "IR version changed: " ++ old.irVersion ++ " → " ++ new.irVersion,
        "ir_version"⟩]
  else []

/-! ## §3  Operations -/

/-- The operations by id; of several with one id the last is kept. -/
def operationsById (d : Document) : IndexMap String Operation :=
  IndexMap.ofList (d.operations.map fun op => (op.operationId, op))

def diffOperation (old new : Operation) : List DiffFinding :=
  let path := "operations." ++ old.operationId
  (new.parameters.filter fun p =>
      p.required && !old.parameters.any fun x => x.name == p.name).map (fun p =>
    ⟨.breaking, "new required parameter: " ++ p.name, path ++ ".params." ++ p.name⟩)
  ++ (old.parameters.filter fun p =>
      !new.parameters.any fun x => x.name == p.name).map (fun p =>
    ⟨.breaking, "parameter removed: " ++ p.name, path ++ ".params." ++ p.name⟩)
  -- a body that was there before is not compared
  ++ (if new.requestBody.isSome && old.requestBody.isNone
        && (new.requestBody.map (·.required)).getD false then
      [⟨.breaking, "new required request body", path ++ ".requestBody"⟩]
    else [])
  ++ (old.responses.filter fun r =>
      !new.responses.any fun x => x.status == r.status).map (fun r =>
    ⟨.breaking, "response removed: " ++ r.status, path ++ ".responses." ++ r.status⟩)

def diffOperations (h : DiffHashing) (old new : Document) : List DiffFinding :=
  let oldOps := operationsById old
  let newOps := operationsById new
  ((h.oldOps.visit oldOps.keys).filter fun id => !newOps.containsKey id).map (fun id =>
    ⟨.breaking, "operation removed: " ++ id, "operations." ++ id⟩)
  ++ ((h.newOps.visit newOps.keys).filter fun id => !oldOps.containsKey id).map (fun id =>
    ⟨.info, "operation added: " ++ id, "operations." ++ id⟩)
  ++ (h.oldOps.visit oldOps.keys).flatMap fun id =>
    match oldOps.get id, newOps.get id with
    | some o, some n => diffOperation o n
    | _, _ => []

/-! ## §4  Schemas -/

def requiredWord (required : Bool) : String := if required then "required" else "optional"

/-- A property of the old model that the new one also has: a changed type, or
else a changed required flag. -/
def sharedPropertyPush (path : String) (np : List Property) (p : Property) :
    Option (DiffFinding × PropertyChange) :=
  match np.find? fun x => x.name == p.name with
  | none => none
  | some q =>
    -- a changed type hides a changed required flag
    if typeChanged p.ty q.ty then
      some (⟨.breaking, "type changed for property: " ++ p.name, path ++ "." ++ p.name⟩,
        ⟨p.name, .typeChanged (typeToString p.ty) (typeToString q.ty)⟩)
    else if p.required ≠ q.required then
      some (⟨if q.required then .breaking else .info,
          "required changed for property: " ++ p.name ++ " (" ++ requiredWord p.required
            ++ " → " ++ requiredWord q.required ++ ")",
          path ++ "." ++ p.name⟩,
        ⟨p.name, .requiredChanged p.required q.required⟩)
    else none

/-- What `diff_schema` pushes, in order: each finding together with the
property change recorded for it. -/
def propertyPushes (path : String) (op np : List Property) :
    List (DiffFinding × PropertyChange) :=
  (np.filter fun p => p.required && !op.any fun x => x.name == p.name).map (fun p =>
    (⟨.breaking, "new required property: " ++ p.name, path ++ "." ++ p.name⟩,
      ⟨p.name, .addedRequired (typeToString p.ty)⟩))
  ++ (np.filter fun p => !p.required && !op.any fun x => x.name == p.name).map (fun p =>
    (⟨.info, "new optional property: " ++ p.name, path ++ "." ++ p.name⟩,
      ⟨p.name, .added (typeToString p.ty)⟩))
  ++ (op.filter fun p => !np.any fun x => x.name == p.name).map (fun p =>
    (⟨.breaking, "property removed: " ++ p.name, path ++ "." ++ p.name⟩,
      ⟨p.name, .removed (typeToString p.ty)⟩))
  ++ op.filterMap (sharedPropertyPush path np)

/-- Only a pair of object models is compared. -/
def diffSchema (name : String) (old new : Model) :
    List DiffFinding × Option SchemaDiffDetail :=
  match old, new with
  | .object o, .object n =>
      let pushes := propertyPushes ("schemas." ++ name) o.properties n.properties
      let changes := pushes.map Prod.snd
      (pushes.map Prod.fst, if changes.isEmpty then none else some ⟨name, changes⟩)
  | _, _ => ([], none)

/-- `HashSet::intersection`, which walks the smaller of the two sets. -/
def sharedSchemas (h : DiffHashing) (oldS newS : List String) : List String :=
  if oldS.length ≤ newS.length then
    (h.oldSchemas.visit oldS).filter fun n => decide (n ∈ newS)
  else
    (h.newSchemas.visit newS).filter fun n => decide (n ∈ oldS)

/-- `diff_schema` at a schema name; the name is looked up in both documents. -/
def diffSchemaNamed (old new : Document) (n : String) :
    List DiffFinding × Option SchemaDiffDetail :=
  match old.schemas.get n, new.schemas.get n with
  | some o, some m => diffSchema n o m
  | _, _ => ([], none)

def diffSchemas (h : DiffHashing) (old new : Document) :
    List DiffFinding × List SchemaDiffDetail :=
  let oldS := old.schemas.names
  let newS := new.schemas.names
  let shared := sharedSchemas h oldS newS
  (((h.oldSchemas.visit oldS).filter fun n => !decide (n ∈ newS)).map (fun n =>
      ⟨.breaking, "schema removed: " ++ n, "schemas." ++ n⟩)
    ++ ((h.newSchemas.visit newS).filter fun n => !decide (n ∈ oldS)).map (fun n =>
      ⟨.info, "schema added: " ++ n, "schemas." ++ n⟩)
    ++ shared.flatMap fun n => (diffSchemaNamed old new n).1,
   shared.filterMap fun n => (diffSchemaNamed old new n).2)

/-! ## §5  Documents -/

def diffDetailed (h : DiffHashing) (old new : Document) : DiffResult :=
  let schemas := diffSchemas h old new
  { findings := diffIrVersion old new ++ diffOperations h old new ++ schemas.1
    schemaDiffs := schemas.2 }

def diff (h : DiffHashing) (old new : Document) : List DiffFinding :=
  (diffDetailed h old new).findings

end SpecForge
