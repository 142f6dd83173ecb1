import Mathlib.Data.List.Forall2
import SpecForge.Core.Ir
import SpecForge.Lib.Text

/-!
# Versioning

The model of `versioning.rs` (§1): the version of the API goes into the paths of the operations,
into a header or into a query parameter. A path counts as versioned if it starts with the text of
the prefix, be it a whole segment or not (§2). What has been done is recognized, so it is not done
twice (§3).
-/

namespace SpecForge

open Lib

/-! ## §1  The model -/

inductive VersionStrategy where
  | urlPath
  | header
  | queryParam
  | none

structure VersioningConfig where
  strategy : VersionStrategy
  prefixText : Option String
  headerName : Option String

/-- The parameter that carries the version. -/
def versionParameter (name : String) (location : ParamLocation) (required : Bool) : Parameter where
  name := name
  location := location
  ty := .scalar .string
  required := required
  description := some "API version"

def Operation.withUrlVersion (prefixText : String) (op : Operation) : Operation :=
  let prefixPath := "/" ++ prefixText
  if Text.startsWith prefixPath op.path then op else { op with path := prefixPath ++ op.path }

/-- A parameter is pushed unless one of the parameters is `present`. -/
def Operation.withParameter (present : Parameter → Bool) (p : Parameter) (op : Operation) :
    Operation :=
  if op.parameters.any present then op else { op with parameters := op.parameters ++ [p] }

def hasHeader (toLowercase : String → String) (headerName : String) (p : Parameter) : Bool :=
  decide (toLowercase p.name = toLowercase headerName) && decide (p.location = .header)

def hasParam (paramName : String) (p : Parameter) : Bool :=
  decide (p.name = paramName) && decide (p.location = .query)

/-- `toLowercase` is the full Unicode `str::to_lowercase`. -/
def applyVersioning (toLowercase : String → String) (config : VersioningConfig)
    (doc : Document) : Document :=
  match config.strategy with
  | .urlPath =>
      match config.prefixText with
      | some text => { doc with operations := doc.operations.map (·.withUrlVersion text) }
      | none => doc
  | .header =>
      let headerName := config.headerName.getD "API-Version"
      { doc with operations := doc.operations.map (·.withParameter
          (hasHeader toLowercase headerName) (versionParameter headerName .header true)) }
  | .queryParam =>
      let paramName := config.prefixText.getD "version"
      { doc with operations := doc.operations.map (·.withParameter
          (hasParam paramName) (versionParameter paramName .query false)) }
  | .none => doc

/-! ## §2  Versions in paths -/

/-- What stands between the slash that a path begins with and the next one. -/
def firstSegment (path : String) : String :=
  String.ofList (((Text.stripPrefix "/" path).getD path).toList.takeWhile (· ≠ '/'))

/-- The path with the prefix as its first segment, put there if need be. -/
def versionedPath (prefixText path : String) : String :=
  if firstSegment path = prefixText then path else "/" ++ prefixText ++ path

def urlVersioned (prefixText : String) (doc : Document) : Document :=
  { doc with operations :=
      doc.operations.map fun op => { op with path := versionedPath prefixText op.path } }

/-- The prefix is not a part of the first segment only, and a path that has it as its first
segment begins with a slash. -/
def ClearOf (prefixText path : String) : Prop :=
  if Text.startsWith "/" path then
    Text.startsWith prefixText (firstSegment path) → firstSegment path = prefixText
  else firstSegment path ≠ prefixText

section

variable {p path rest : String} {doc : Document}

/-- A text without a slash is a prefix of a path if it is one of its first segment. -/
theorem prefix_takeWhile_iff {p l : List Char} (hp : '/' ∉ p) :
    p <+: l.takeWhile (· ≠ '/') ↔ p <+: l := by
  constructor
  · exact fun h => h.trans (List.takeWhile_prefix _)
  · rintro ⟨r, rfl⟩
    have hall : ∀ c ∈ p, decide (c ≠ '/') = true := by
      intro c hc
      exact decide_eq_true fun h => hp (h ▸ hc)
    rw [List.takeWhile_append_of_pos hall]
    exact List.prefix_append _ _

theorem startsWith_prefixPath_iff (hp : '/' ∉ p.toList) :
    Text.startsWith ("/" ++ p) path = true ↔
      Text.startsWith "/" path = true ∧ Text.startsWith p (firstSegment path) = true := by
  constructor
  · intro h
    obtain ⟨r, rfl⟩ := Text.startsWith_iff.mp h
    rw [String.append_assoc, firstSegment, Text.stripPrefix_append, Option.getD_some]
    refine ⟨Text.startsWith_append _ _, ?_⟩
    rw [Text.startsWith, decide_eq_true_eq, String.toList_ofList, prefix_takeWhile_iff hp,
      String.toList_append]
    exact List.prefix_append _ _
  · rintro ⟨hslash, h⟩
    obtain ⟨r, rfl⟩ := Text.startsWith_iff.mp hslash
    rw [firstSegment, Text.stripPrefix_append, Option.getD_some, Text.startsWith,
      decide_eq_true_eq, String.toList_ofList, prefix_takeWhile_iff hp] at h
    rw [Text.startsWith_append_append, Text.startsWith, decide_eq_true_eq]
    exact h

theorem clearOf_iff (hp : '/' ∉ p.toList) :
    ClearOf p path ↔ (Text.startsWith ("/" ++ p) path = true ↔ firstSegment path = p) := by
  rw [startsWith_prefixPath_iff hp, ClearOf]
  split
  · next hslash =>
      rw [and_iff_right hslash]
      refine ⟨fun h => ⟨h, fun heq => ?_⟩, fun h => h.mp⟩
      rw [heq, Text.startsWith_iff]
      exact ⟨"", String.append_empty.symm⟩
  · next hslash =>
      exact (iff_false_left fun h => hslash h.1).symm

theorem ne_versioned : "/" ++ p ++ path ≠ path := by
  intro h
  have hlen := congrArg (fun s : String => s.toList.length) h
  simp only [String.toList_append, List.length_append] at hlen
  have hslash : "/".toList.length ≠ 0 := by simp
  omega

theorem withUrlVersion_eq (op : Operation) : op.withUrlVersion p =
    { op with path :=
        if Text.startsWith ("/" ++ p) op.path = true then op.path else "/" ++ p ++ op.path } := by
  unfold Operation.withUrlVersion
  dsimp only
  by_cases hstart : Text.startsWith ("/" ++ p) op.path = true
  · rw [if_pos hstart, if_pos hstart]
  · rw [if_neg hstart, if_neg hstart]

theorem withUrlVersion_iff (hp : '/' ∉ p.toList) (op : Operation) :
    op.withUrlVersion p = { op with path := versionedPath p op.path } ↔ ClearOf p op.path := by
  have hinj : ∀ {x y : String}, ({ op with path := x } : Operation) = { op with path := y } ↔
      x = y :=
    ⟨fun h => congrArg Operation.path h, fun h => by rw [h]⟩
  rw [withUrlVersion_eq, hinj, clearOf_iff hp, versionedPath]
  by_cases hstart : Text.startsWith ("/" ++ p) op.path = true
  · rw [if_pos hstart, iff_true_left hstart]
    by_cases hfirst : firstSegment op.path = p
    · rw [if_pos hfirst, iff_true_left rfl]
      exact hfirst
    · rw [if_neg hfirst]
      exact iff_of_false ne_versioned.symm hfirst
  · rw [if_neg hstart, iff_false_left hstart]
    by_cases hfirst : firstSegment op.path = p
    · rw [if_pos hfirst]
      exact iff_of_false ne_versioned fun h => h hfirst
    · rw [if_neg hfirst]
      exact iff_of_true rfl hfirst

/-- **The paths are versioned at segments, and nothing else is changed, if and only if no path is
one that begins with the text of the prefix in a longer first segment, or has the prefix as its
first segment without a slash before it.** -/
theorem applyVersioning_urlVersioned_iff (hp : '/' ∉ p.toList) (doc : Document) :
    (∀ toLowercase headerName,
      applyVersioning toLowercase ⟨.urlPath, some p, headerName⟩ doc = urlVersioned p doc) ↔
      ∀ op ∈ doc.operations, ClearOf p op.path := by
  constructor
  · intro h op hmem
    have hoperations : doc.operations.map (·.withUrlVersion p) =
        doc.operations.map fun op => { op with path := versionedPath p op.path } :=
      congrArg Document.operations (h id none)
    exact (withUrlVersion_iff hp op).mp (List.map_inj_left.mp hoperations op hmem)
  · intro h toLowercase headerName
    have hoperations : doc.operations.map (·.withUrlVersion p) =
        doc.operations.map fun op => { op with path := versionedPath p op.path } :=
      List.map_congr_left fun op hmem => (withUrlVersion_iff hp op).mpr (h op hmem)
    rw [applyVersioning, urlVersioned, ← hoperations]

end

/-- The API has one operation. -/
def pathDoc (path : String) : Document :=
  Document.minimal SchemaRegistry.default
    [⟨"listPets", .get, path, none, none, none, [], none, [], none⟩]

theorem applyVersioning_urlVersioned_pets : ClearOf "v1" "/pets" ∧ ∀ toLowercase headerName,
    applyVersioning toLowercase ⟨.urlPath, some "v1", headerName⟩ (pathDoc "/pets") =
      urlVersioned "v1" (pathDoc "/pets") := by
  have hclear : ClearOf "v1" "/pets" := by
    unfold ClearOf
    decide +kernel
  refine ⟨hclear, (applyVersioning_urlVersioned_iff (by decide) _).mpr fun op hop => ?_⟩
  rw [List.mem_singleton.mp hop]
  exact hclear

/-- Versions before the first one are not of it. -/
theorem path_of_v10_left : ¬ ∀ toLowercase headerName,
    applyVersioning toLowercase ⟨.urlPath, some "v1", headerName⟩ (pathDoc "/v10/pets") =
      urlVersioned "v1" (pathDoc "/v10/pets") := by
  intro h
  have hpaths := congrArg (fun doc : Document => doc.operations.map (·.path)) (h id none)
  revert hpaths
  decide +kernel

/-! ## §3  Versioning twice -/

/-- The operation has no new parameter of a name and location that it has already, and no two new
ones of the same. -/
def AddsNoDuplicate (op op' : Operation) : Prop :=
  ∃ added : List Parameter, op'.parameters = op.parameters ++ added ∧
    (added.map fun p => (p.name, p.location)).Nodup ∧
    ∀ p ∈ added, (p.name, p.location) ∉ op.parameters.map fun p => (p.name, p.location)

section

variable {p : Parameter} {present : Parameter → Bool} {op : Operation}

theorem withUrlVersion_twice (text : String) (op : Operation) :
    (op.withUrlVersion text).withUrlVersion text = op.withUrlVersion text := by
  have hstart : Text.startsWith ("/" ++ text) (op.withUrlVersion text).path = true := by
    rw [withUrlVersion_eq]
    dsimp only
    split
    · assumption
    · exact Text.startsWith_append _ _
  rw [withUrlVersion_eq (op.withUrlVersion text), if_pos hstart]

/-- What has been pushed is recognized. -/
theorem withParameter_twice (hp : present p = true) (op : Operation) :
    (op.withParameter present p).withParameter present p = op.withParameter present p := by
  have hany : (op.withParameter present p).parameters.any present = true := by
    unfold Operation.withParameter
    split
    · assumption
    · exact List.any_eq_true.mpr ⟨p, List.mem_append_right _ (List.mem_singleton.mpr rfl), hp⟩
  rw [Operation.withParameter, if_pos hany]

theorem addsNoDuplicate_of_eq {op' : Operation} (h : op'.parameters = op.parameters) :
    AddsNoDuplicate op op' :=
  ⟨[], by rw [h, List.append_nil], List.nodup_nil, List.forall_mem_nil _⟩

theorem addsNoDuplicate_withParameter
    (hp : ∀ q : Parameter, q.name = p.name → q.location = p.location → present q = true)
    (op : Operation) : AddsNoDuplicate op (op.withParameter present p) := by
  unfold Operation.withParameter
  split
  · exact addsNoDuplicate_of_eq rfl
  · next hnone =>
      refine ⟨[p], rfl, List.nodup_singleton _, fun q hq hmem => ?_⟩
      obtain rfl := List.mem_singleton.mp hq
      obtain ⟨r, hr, hkey⟩ := List.mem_map.mp hmem
      obtain ⟨hname, hlocation⟩ := Prod.mk.inj hkey
      exact hnone (List.any_eq_true.mpr ⟨r, hr, hp r hname hlocation⟩)

end

/-- **Versioning twice is versioning once, and no operation is given a parameter twice.** -/
theorem applyVersioning_idempotent (toLowercase : String → String) (config : VersioningConfig)
    (doc : Document) :
    applyVersioning toLowercase config (applyVersioning toLowercase config doc) =
      applyVersioning toLowercase config doc ∧
    List.Forall₂ AddsNoDuplicate doc.operations
      (applyVersioning toLowercase config doc).operations := by
  have htwice : ∀ {f : Operation → Operation}, (∀ op, f (f op) = f op) →
      (doc.operations.map f).map f = doc.operations.map f := by
    intro f hf
    rw [List.map_map]
    exact List.map_congr_left fun op _ => hf op
  have hadds : ∀ {f : Operation → Operation}, (∀ op, AddsNoDuplicate op (f op)) →
      List.Forall₂ AddsNoDuplicate doc.operations (doc.operations.map f) := by
    intro f hf
    rw [List.forall₂_map_right_iff, List.forall₂_same]
    exact fun op _ => hf op
  have hsame : List.Forall₂ AddsNoDuplicate doc.operations doc.operations :=
    List.forall₂_same.mpr fun op _ => addsNoDuplicate_of_eq rfl
  obtain ⟨strategy, prefixText, headerName⟩ := config
  cases strategy with
  | urlPath =>
      cases prefixText with
      | none => exact ⟨rfl, hsame⟩
      | some text =>
          refine ⟨?_, hadds fun op => addsNoDuplicate_of_eq ?_⟩
          · simp only [applyVersioning, htwice (withUrlVersion_twice text)]
          · rw [withUrlVersion_eq]
  | header =>
      have hpresent : ∀ q : Parameter, q.name = headerName.getD "API-Version" →
          q.location = .header → hasHeader toLowercase (headerName.getD "API-Version") q = true := by
        intro q hname hlocation
        rw [hasHeader, hname, hlocation]
        simp
      have hpushed := withParameter_twice
        (hpresent (versionParameter (headerName.getD "API-Version") .header true) rfl rfl)
      refine ⟨?_, hadds (addsNoDuplicate_withParameter hpresent)⟩
      simp only [applyVersioning, htwice hpushed]
  | queryParam =>
      have hpresent : ∀ q : Parameter, q.name = prefixText.getD "version" →
          q.location = .query → hasParam (prefixText.getD "version") q = true := by
        intro q hname hlocation
        rw [hasParam, hname, hlocation]
        simp
      have hpushed := withParameter_twice
        (hpresent (versionParameter (prefixText.getD "version") .query false) rfl rfl)
      refine ⟨?_, hadds (addsNoDuplicate_withParameter hpresent)⟩
      simp only [applyVersioning, htwice hpushed]
  | none => exact ⟨rfl, hsame⟩

end SpecForge
