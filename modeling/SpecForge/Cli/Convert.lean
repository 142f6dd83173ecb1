import SpecForge.Core.Spec

/-!
# The converter of the CLI

The model of `specforge convert`: a 3.0 document is upgraded (§1), a 3.1 document is
downgraded by a copy of the core's second pass (§2). What either makes of the keywords of an
object stands on the same code as the core's, keyword by keyword; §3 shows that the copy as a
whole does the same, and that the upgrade may go into the values first.
-/

namespace SpecForge.Cli

open Lib

/-! ## §1  From 3.0 to 3.1 -/

/-- A type that may be null becomes an array; `nullable` goes whatever the type is. -/
def upgradeNullable (obj : List (String × Value)) : List (String × Value) :=
  match obj.lookup "type", obj.lookup "nullable" with
  | some type, some nullable =>
      if nullable.asBool = some true then
        BTreeMap.removeKey "nullable" (match type.asStr with
          | some t => BTreeMap.insertKey "type" (.array [.string t, .string "null"]) obj
          | none => obj)
      else obj
  | _, _ => obj

/-- A bound that is exclusive takes the number of its companion. -/
def upgradeExclusive (field companion : String) (obj : List (String × Value)) :
    List (String × Value) :=
  match obj.lookup field with
  | some (.bool true) =>
      match obj.lookup companion with
      | some (.number n) => BTreeMap.insertKey field (.number n) obj
      | _ => obj
  | _ => obj

/-- An `enum` of one value becomes a `const`. -/
def upgradeEnum (obj : List (String × Value)) : List (String × Value) :=
  match obj.lookup "enum" with
  | some (.array [v]) => BTreeMap.removeKey "enum" (BTreeMap.insertKey "const" v obj)
  | _ => obj

def upgradeKeywords (obj : List (String × Value)) : List (String × Value) :=
  let obj := upgradeNullable obj
  let obj := upgradeExclusive "exclusiveMinimum" "minimum" obj
  let obj := upgradeExclusive "exclusiveMaximum" "maximum" obj
  upgradeEnum obj

mutual

/-- The keywords are rewritten last: they only move values around. -/
def upgrade30To31 : Value → Value
  | .object obj => .object (upgradeKeywords (upgradeEntries obj))
  | .array arr => .array (upgradeItems arr)
  | v => v

def upgradeEntries : List (String × Value) → List (String × Value)
  | [] => []
  | (k, v) :: es => (k, upgrade30To31 v) :: upgradeEntries es

def upgradeItems : List Value → List Value
  | [] => []
  | v :: vs => upgrade30To31 v :: upgradeItems vs

end

/-! ## §2  From 3.1 to 3.0 -/

def downgradeKeywords (obj : List (String × Value)) : List (String × Value) :=
  let obj := downgradeType obj
  let obj := downgradeExclusive "exclusiveMinimum" obj
  let obj := downgradeExclusive "exclusiveMaximum" obj
  let obj := downgradeConst obj
  let obj := downgradeDependentRequired obj
  downgradePrefixItems obj

mutual

/-- As in the core, the keywords are rewritten last, and the names that `dependentRequired`
asks for are read from the raw value. -/
def downgradeValue : Value → Value
  | .object obj => .object (downgradeKeywords (downgradeEntries obj))
  | .array arr => .array (downgradeItems arr)
  | v => v

def downgradeEntries : List (String × Value) → List (String × Value)
  | [] => []
  | (k, v) :: es =>
      (k, if k = "dependentRequired" then v else downgradeValue v) :: downgradeEntries es

def downgradeItems : List Value → List Value
  | [] => []
  | v :: vs => downgradeValue v :: downgradeItems vs

end

def downgrade31To30 (json : Value) : Value :=
  let json := match json.get "paths" with
    | none => json.insert "paths" (.object [])
    | some _ => json
  downgradeValue json

/-! ## §3  The order of the rewriting -/

mutual

/-- The copy of the second pass does what the core's does. -/
theorem downgradeValue_eq : ∀ v : Value, downgradeValue v = SpecForge.downgradeValue v
  | .object obj => by
      rw [downgradeValue, SpecForge.downgradeValue, downgradeEntries_eq obj]
      rfl
  | .array arr => by
      rw [downgradeValue, SpecForge.downgradeValue, downgradeItems_eq arr]
  | .null | .bool _ | .number _ | .string _ => rfl

theorem downgradeEntries_eq : ∀ obj : List (String × Value),
    downgradeEntries obj = SpecForge.downgradeEntries obj
  | [] => rfl
  | (k, v) :: es => by
      rw [downgradeEntries, SpecForge.downgradeEntries, downgradeValue_eq v,
        downgradeEntries_eq es]

theorem downgradeItems_eq : ∀ arr : List Value,
    downgradeItems arr = SpecForge.downgradeItems arr
  | [] => rfl
  | v :: vs => by
      rw [downgradeItems, SpecForge.downgradeItems, downgradeValue_eq v, downgradeItems_eq vs]

end

/-- The copy leaves out the first pass. -/
theorem downgrade31To30_eq (json : Value) :
    downgrade31To30 json = SpecForge.downgradeValue (ensurePaths json) :=
  downgradeValue_eq (ensurePaths json)

theorem upgradeEntries_eq : ∀ obj : List (String × Value),
    upgradeEntries obj = BTreeMap.mapEntries (fun _ => upgrade30To31) obj
  | [] => rfl
  | (_, _) :: obj => congrArg _ (upgradeEntries_eq obj)

theorem upgradeItems_eq : ∀ arr : List Value, upgradeItems arr = arr.map upgrade30To31
  | [] => rfl
  | _ :: arr => congrArg _ (upgradeItems_eq arr)

theorem upgrade30To31_array (arr : List Value) :
    upgrade30To31 (.array arr) = .array (arr.map upgrade30To31) :=
  congrArg Value.array (upgradeItems_eq arr)

section

variable (obj : List (String × Value))

theorem upgradeNullable_mapEntries :
    upgradeNullable (BTreeMap.mapEntries (fun _ => upgrade30To31) obj) =
      BTreeMap.mapEntries (fun _ => upgrade30To31) (upgradeNullable obj) := by
  have hbool : ∀ v, (upgrade30To31 v).asBool = v.asBool := fun v => by cases v <;> rfl
  have hstr : ∀ v, (upgrade30To31 v).asStr = v.asStr := fun v => by cases v <;> rfl
  unfold upgradeNullable
  rw [BTreeMap.lookup_mapEntries, BTreeMap.lookup_mapEntries]
  rcases obj.lookup "type" with _ | type
  · rfl
  · rcases obj.lookup "nullable" with _ | nullable
    · rfl
    · rw [Option.map_some, Option.map_some]
      dsimp only
      rw [hbool, hstr]
      split
      · rw [BTreeMap.mapEntries_removeKey]
        rcases type.asStr with _ | t
        · rfl
        · dsimp only
          rw [BTreeMap.mapEntries_insertKey]
          rfl
      · rfl

theorem upgradeExclusive_mapEntries (field companion : String) :
    upgradeExclusive field companion (BTreeMap.mapEntries (fun _ => upgrade30To31) obj) =
      BTreeMap.mapEntries (fun _ => upgrade30To31) (upgradeExclusive field companion obj) := by
  unfold upgradeExclusive
  rw [BTreeMap.lookup_mapEntries, BTreeMap.lookup_mapEntries]
  rcases obj.lookup field with _ | (_ | (_ | _) | _ | _ | _ | _)
  · rfl
  · rfl
  · rfl
  · rcases obj.lookup companion with _ | (_ | _ | n | _ | _ | _)
    · rfl
    · rfl
    · rfl
    · show BTreeMap.insertKey _ _ _ = BTreeMap.mapEntries _ (BTreeMap.insertKey _ _ _)
      rw [BTreeMap.mapEntries_insertKey]
      rfl
    · rfl
    · rfl
    · rfl
  · rfl
  · rfl
  · rfl
  · rfl

theorem upgradeEnum_mapEntries :
    upgradeEnum (BTreeMap.mapEntries (fun _ => upgrade30To31) obj) =
      BTreeMap.mapEntries (fun _ => upgrade30To31) (upgradeEnum obj) := by
  unfold upgradeEnum
  rw [BTreeMap.lookup_mapEntries]
  rcases obj.lookup "enum" with _ | (_ | _ | _ | _ | arr | _)
  · rfl
  · rfl
  · rfl
  · rfl
  · rfl
  · rw [Option.map_some, upgrade30To31_array]
    rcases arr with _ | ⟨v, _ | ⟨v', vs⟩⟩
    · rfl
    · show BTreeMap.removeKey _ (BTreeMap.insertKey _ _ _) =
        BTreeMap.mapEntries _ (BTreeMap.removeKey _ (BTreeMap.insertKey _ _ _))
      rw [BTreeMap.mapEntries_removeKey, BTreeMap.mapEntries_insertKey]
    · rfl
  · rfl

/-- **The upgrade rewrites the keywords and goes into the values.** -/
theorem upgrade30To31_object :
    upgrade30To31 (.object obj) =
      .object (BTreeMap.mapEntries (fun _ => upgrade30To31) (upgradeKeywords obj)) := by
  rw [upgrade30To31, upgradeEntries_eq, upgradeKeywords, upgradeKeywords,
    upgradeNullable_mapEntries, upgradeExclusive_mapEntries, upgradeExclusive_mapEntries,
    upgradeEnum_mapEntries]

end

end SpecForge.Cli
