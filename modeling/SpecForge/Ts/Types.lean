import SpecForge.Core.References
import SpecForge.Lib.Marked
import SpecForge.Ts.Name

/-!
# TypeScript types (`types.rs`)

`render` writes an IR type as a TypeScript type expression. Only the item of an array is
ever put in parentheses, and only when it is a composition. `renderMarked` is the same
text with each schema name marked (§2).
-/

namespace SpecForge.Ts

open Lib

/-! ## §1  Rendering -/

def renderScalar : Scalar → String
  | .string | .dateTime | .uuid | .base64 | .integer64 => "string"
  | .integer | .float => "number"
  | .boolean => "boolean"
  | .binary => "Uint8Array"

def needsParens : IrType → Bool
  | .composition _ _ _ => true
  | _ => false

def memberSep : CompositionKind → String
  | .allOf => " & "
  | .oneOf | .anyOf => " | "

def renderStringEnum (variants : List String) (nullable : Bool) : String :=
  let arms := variants.map fun v => "\"" ++ escapeQuotes v ++ "\""
  let union := if arms.isEmpty then "string" else Text.join " | " arms
  if nullable then union ++ " | null" else union

mutual

def render : IrType → String
  | .scalar s => renderScalar s
  | .stringEnum variants nullable => renderStringEnum variants nullable
  -- the flag of the array is not looked at
  | .array item _ =>
      let inner := render item
      if needsParens item then "(" ++ inner ++ ")[]" else inner ++ "[]"
  | .map value => "Record<string, " ++ render value ++ ">"
  | .reference name nullable _ =>
      let rendered := pascal name
      if nullable then rendered ++ " | null" else rendered
  | .composition kind members _ => Text.join (memberSep kind) (renderMembers members)
  | .any => "unknown"
  | .unknown => "unknown"

def renderMembers : List IrType → List String
  | [] => []
  | m :: ms => render m :: renderMembers ms

end

theorem renderMembers_eq : ∀ ms : List IrType, renderMembers ms = ms.map render
  | [] => rfl
  | m :: ms => by rw [renderMembers, renderMembers_eq ms, List.map_cons]

/-! ## §2  The schema names in a rendered type -/

/-- What a piece of emitted text stands for. -/
inductive Mention where
  /-- The type of this schema. -/
  | ident (ref : String)
  /-- The file of this schema's model. -/
  | file (ref : String)
  /-- The type that the file itself declares. -/
  | own
deriving DecidableEq

mutual

def renderMarked : IrType → Marked Mention
  | .array item _ =>
      let inner := renderMarked item
      if needsParens item then Marked.plain "(" ++ inner ++ Marked.plain ")[]"
      else inner ++ Marked.plain "[]"
  | .map value => Marked.plain "Record<string, " ++ renderMarked value ++ Marked.plain ">"
  | .reference name nullable _ =>
      let rendered := Marked.mark (.ident name) (pascal name)
      if nullable then rendered ++ Marked.plain " | null" else rendered
  | .composition kind members _ => Marked.join (memberSep kind) (renderMarkedMembers members)
  | t => Marked.plain (render t)

def renderMarkedMembers : List IrType → List (Marked Mention)
  | [] => []
  | m :: ms => renderMarked m :: renderMarkedMembers ms

end

theorem renderMarkedMembers_eq : ∀ ms : List IrType,
    renderMarkedMembers ms = ms.map renderMarked
  | [] => rfl
  | m :: ms => by rw [renderMarkedMembers, renderMarkedMembers_eq ms, List.map_cons]

/-- The marks are put on the rendered text. -/
theorem erase_renderMarked (t : IrType) : (renderMarked t).erase = render t := by
  induction t using IrType.induction with
  | array item nullable ih =>
      rw [renderMarked, render]
      split
      · simp [ih, String.append_assoc]
      · simp [ih]
  | map value ih =>
      rw [renderMarked, render]
      simp [ih, String.append_assoc]
  | reference name nullable description =>
      rw [renderMarked, render]
      split
      · simp
      · simp
  | composition kind members discriminator ih =>
      rw [renderMarked, render, Marked.erase_join, renderMarkedMembers_eq, renderMembers_eq,
        List.map_map]
      congr 1
      exact List.map_congr_left ih
  | _ => exact Marked.erase_plain _

/-- A rendered type names the schemas it refers to, each by its PascalCase form. -/
@[simp] theorem allMarks_renderMarked {P : Mention × String → Prop} (t : IrType) :
    (renderMarked t).AllMarks P ↔ ∀ r ∈ t.refs, P (.ident r, pascal r) := by
  have hmembers : ∀ ms : List IrType,
      (∀ m ∈ ms, (renderMarked m).AllMarks P ↔ ∀ r ∈ m.refs, P (.ident r, pascal r)) →
      ((∀ x ∈ ms.map renderMarked, x.AllMarks P) ↔
        ∀ r ∈ refsOfMembers ms, P (.ident r, pascal r)) := by
    intro ms
    induction ms with
    | nil => simp [refsOfMembers]
    | cons m ms ih =>
        intro h
        rw [List.forall_mem_cons] at h
        rw [List.map_cons, List.forall_mem_cons, refsOfMembers, List.forall_mem_append, h.1,
          ih h.2]
  induction t using IrType.induction with
  | array item nullable ih =>
      rw [renderMarked, IrType.refs]
      refine Iff.trans ?_ ih
      split
      · simp
      · simp
  | map value ih =>
      rw [renderMarked, IrType.refs]
      refine Iff.trans ?_ ih
      simp
  | reference name nullable description =>
      rw [renderMarked, IrType.refs]
      split
      · simp
      · simp
  | composition kind members discriminator ih =>
      rw [renderMarked, Marked.allMarks_join, renderMarkedMembers_eq, IrType.refs]
      exact hmembers members ih
  | _ => simp [renderMarked, IrType.refs]

end SpecForge.Ts
