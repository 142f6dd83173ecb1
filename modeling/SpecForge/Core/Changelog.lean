import SpecForge.Core.DiffTexts

/-!
# Changelog entries (`changelog.rs`)

The changelog is built from a comparison: an entry for each changed schema from
the schema diffs (§2), an entry for each changed operation by reading the findings
back, message by message (§3).
-/

namespace SpecForge

open Lib (modifyFirst)
open Lib.Text

/-! ## §1  Entries -/

inductive ChangeImpact where
  | breaking
  | feature
  | fix
deriving DecidableEq

inductive ChangeType where
  | added
  | removed
  | modified
deriving DecidableEq

structure OperationEntry where
  method : String
  path : String
  operationId : String
  summary : Option String
  changeType : ChangeType
  impact : ChangeImpact
  details : List String
deriving DecidableEq

structure PropertyChangeEntry where
  property : String
  description : String
  impact : ChangeImpact
deriving DecidableEq

structure SchemaChangeEntry where
  schemaName : String
  impact : ChangeImpact
  propertyChanges : List PropertyChangeEntry
deriving DecidableEq

/-! ## §2  Schemas -/

def propertyChangeEntry (pc : PropertyChange) : PropertyChangeEntry :=
  match pc.change with
  | .added ty => ⟨pc.property, "New optional property (`" ++ ty ++ "`)", .feature⟩
  | .addedRequired ty => ⟨pc.property, "New required property (`" ++ ty ++ "`)", .breaking⟩
  | .removed ty => ⟨pc.property, "Property removed (was `" ++ ty ++ "`)", .breaking⟩
  | .typeChanged oldType newType =>
      ⟨pc.property, "Type changed: `" ++ oldType ++ "` to `" ++ newType ++ "`", .breaking⟩
  | .requiredChanged oldRequired newRequired =>
      ⟨pc.property,
        "Changed from " ++ requiredWord oldRequired ++ " to " ++ requiredWord newRequired,
        if newRequired then .breaking else .fix⟩

def schemaChangeEntry (sd : SchemaDiffDetail) : SchemaChangeEntry :=
  let propertyChanges := sd.changes.map propertyChangeEntry
  { schemaName := sd.name
    impact :=
      if propertyChanges.any (fun pc => pc.impact == .breaking) then .breaking else .feature
    propertyChanges := propertyChanges }

def buildSchemaEntries (schemaDiffs : List SchemaDiffDetail) : List SchemaChangeEntry :=
  schemaDiffs.map schemaChangeEntry

/-! ## §3  Operations -/

def classifyFinding (finding : DiffFinding) : ChangeImpact :=
  match finding.severity with
  | .breaking => .breaking
  | .info =>
      if startsWith "operation added" finding.message
          || startsWith "schema added" finding.message
          || startsWith "new optional property" finding.message
          || startsWith "new required property" finding.message then
        .feature
      else .fix

/-- The entry pushed for an operation: with the method and path the document has
for the id, if any. -/
def operationEntry (doc : Document) (opId : String) (changeType : ChangeType)
    (impact : ChangeImpact) (message : String) : OperationEntry :=
  match doc.operations.find? fun o => o.operationId == opId with
  | some op => ⟨op.method.upper, op.path, opId, op.summary, changeType, impact, [message]⟩
  | none => ⟨"UNKNOWN", "UNKNOWN", opId, none, changeType, impact, [message]⟩

/-- One more finding on an operation that has an entry. -/
def OperationEntry.append (e : OperationEntry) (finding : DiffFinding) : OperationEntry :=
  { e with
    details := e.details ++ [finding.message]
    impact := if classifyFinding finding = .breaking then .breaking else e.impact }

/-- The operation id as it is recovered from a path. -/
def pathOperationId (path : String) : String :=
  (split '.' ((stripPrefix "operations." path).getD path)).head?.getD "unknown"

/-- One turn of the loop over the findings. -/
def applyFinding (doc : Document) (entries : List OperationEntry) (finding : DiffFinding) :
    List OperationEntry :=
  match stripPrefix "operation removed: " finding.message with
  | some opId => entries ++ [operationEntry doc opId .removed .breaking finding.message]
  | none =>
      match stripPrefix "operation added: " finding.message with
      | some opId => entries ++ [operationEntry doc opId .added .feature finding.message]
      | none =>
          if startsWith "operations." finding.path then
            let opId := pathOperationId finding.path
            if !entries.any (fun e => e.operationId == opId) then
              entries ++ [operationEntry doc opId .modified (classifyFinding finding)
                finding.message]
            else
              modifyFirst (fun e => e.operationId == opId) (·.append finding) entries
          else entries

def buildOperationEntriesFromFindings (findings : List DiffFinding) (doc : Document) :
    List OperationEntry :=
  findings.foldl (applyFinding doc) []

end SpecForge
