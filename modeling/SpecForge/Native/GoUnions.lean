import SpecForge.Native.GoNames
import SpecForge.Native.GoStructs
import SpecForge.Native.Unions

/-!
# Unions in `models.go`

A `oneOf` or `anyOf` becomes an interface. Next to it stand a marker method for each arm that is
a reference, and functions that build the union from JSON; these use two packages, which the file
imports if there is any union at all. Comments are left out.

- §1 markers, functions and imports. §2 what a Go compiler asks of them. §3 which
  declarations a method may stand on, and which packages the functions use. §4 when all is well.
-/

namespace SpecForge.Go

open Native Lib

/-! ## §1  Generated code -/

/-- A piece of a line: text, a name from a package, or a string literal. -/
inductive GoPiece where
  | code (text : String)
  | selector (pkg name : String)
  | literal (text : String)
deriving DecidableEq

abbrev GoLine := List GoPiece

/-- The case of one value in `New{Union}`. -/
def fromMapCase (value armTy : String) : List GoLine :=
  [[.code "\tcase ", .literal value, .code ":"],
   [.code ("\t\tvar v " ++ armTy)],
   [.code "\t\tif b, err := ", .selector "json" "Marshal", .code "(m); err == nil \x7b"],
   [.code "\t\t\tif err := ", .selector "json" "Unmarshal", .code "(b, &v); err == nil \x7b"],
   [.code "\t\t\t\treturn v, nil"],
   [.code "\t\t\t\x7d"],
   [.code "\t\t\x7d"],
   [.code "\t\treturn v, ", .selector "fmt" "Errorf",
    .code ("(\"failed to unmarshal " ++ armTy ++ "\")")]]

def fromMapHead (union prop : String) : List GoLine :=
  [[.code ("func New" ++ union ++ "(m map[string]any) (" ++ union ++ ", error) \x7b")],
   [.code "\tdisc, _ := m[", .literal prop, .code "].(string)"],
   [.code "\tswitch disc \x7b"]]

def fromMapEnd (union : String) : List GoLine :=
  [[.code "\t\x7d"],
   [.code "\treturn nil, ", .selector "fmt" "Errorf",
    .code ("(\"unknown " ++ union ++ " discriminator: %v\", disc)")],
   [.code "\x7d"]]

/-- `emit_union_from_map`, with the cases of `emitUnionFromMap`. -/
def unionFromMapLines (union : String) (arms : List String) (disc : Discriminator)
    (doc : Document) : List GoLine :=
  fromMapHead union disc.propertyName ++
    (emitUnionFromMap arms disc doc).flatMap (fun e => fromMapCase e.1 e.2) ++ fromMapEnd union

def discriminantHead (union : String) : List GoLine :=
  [[.code ("func " ++ union ++ "Discriminant(v " ++ union ++ ") string \x7b")],
   [.code "\tswitch v.(type) \x7b"]]

def discriminantCase (armTy value : String) : List GoLine :=
  [[.code ("\tcase " ++ armTy ++ ":")], [.code "\t\treturn ", .literal value]]

def discriminantEnd : List GoLine :=
  [[.code "\t\x7d"], [.code "\treturn ", .literal ""], [.code "\x7d"]]

/-- `emit_union_discriminant`, with the cases of `emitUnionDiscriminant`. -/
def unionDiscriminantLines (union : String) (arms : List String) (disc : Discriminator)
    (doc : Document) : List GoLine :=
  discriminantHead union ++
    (emitUnionDiscriminant arms disc doc).flatMap (fun e => discriminantCase e.1 e.2) ++
    discriminantEnd

def fromJsonHead (union : String) : List GoLine :=
  [[.code ("func New" ++ union ++ "FromJSON(raw "), .selector "json" "RawMessage",
    .code (") (" ++ union ++ ", error) \x7b")]]

/-- One attempt of `New{Union}FromJSON`. -/
def fromJsonArm (arm : String) : List GoLine :=
  [[.code ("\tvar " ++ goParamIdent arm ++ " " ++ exportIdent arm)],
   [.code "\tif err := ", .selector "json" "Unmarshal",
    .code ("(raw, &" ++ goParamIdent arm ++ "); err == nil \x7b")],
   [.code ("\t\treturn " ++ goParamIdent arm ++ ", nil")],
   [.code "\t\x7d"]]

def fromJsonEnd (union : String) : List GoLine :=
  [[.code "\treturn nil, ", .selector "fmt" "Errorf",
    .code ("(\"no matching " ++ union ++ " arm\")")],
   [.code "\x7d"]]

/-- `emit_union_from_json` -/
def unionFromJsonLines (union : String) (arms : List String) : List GoLine :=
  fromJsonHead union ++ arms.flatMap fromJsonArm ++ fromJsonEnd union

/-- The functions that `emit_object` writes behind the markers of a union. -/
def unionHelpers (o : ObjectModel) (doc : Document) : List GoLine :=
  let name := exportIdent o.name
  match unionMembers o with
  | none => []
  | some members =>
      let arms := referenceArms members
      if arms.isEmpty then []
      else match shapeDiscriminator o with
        | some disc =>
            unionFromMapLines name arms disc doc ++ unionDiscriminantLines name arms disc doc
        | none => unionFromJsonLines name arms

def modelMarkers : Model → List (String × String)
  | .object o => markerMethods o
  | .enum _ => []

def modelHelpers (doc : Document) : Model → List GoLine
  | .object o => unionHelpers o doc
  | .enum _ => []

/-- The marker methods of `models.go`, each with its receiver. -/
def markers (doc : Document) : List (String × String) :=
  doc.schemas.models.values.flatMap modelMarkers

def modelIsUnion : Model → Bool
  | .object o => (unionMembers o).isSome
  | .enum _ => false

def needsJsonFmt (doc : Document) : Bool := doc.schemas.models.values.any modelIsUnion

/-- The imports of `models.go`, under the names that the file uses for them. -/
def modelsImports (doc : Document) : List String := if needsJsonFmt doc then ["json", "fmt"] else []

/-! ## §2  What is asked -/

/-- A type of its own: no alias and no interface. -/
def GoDecl.isConcrete : GoDecl → Bool
  | .enum _ _ => true
  | .struct _ _ _ => true
  | .union _ _ => false
  | .typeAlias _ _ => false

def GoPiece.pkg : GoPiece → Option String
  | .selector pkg _ => some pkg
  | .code _ => none
  | .literal _ => none

/-- The packages whose names occur in the lines. -/
def packagesOf (lines : List GoLine) : List String := lines.flatMap (·.filterMap GoPiece.pkg)

/-- The declarations of `models.go` use a package. Types are built from plain names, so only the
functions can. -/
def UsesPackage (pkg : String) (doc : Document) : Prop :=
  ∃ m ∈ doc.schemas.models.values, pkg ∈ packagesOf (modelHelpers doc m)

/-- The methods are on types that may have them, each is declared once, and the imports are the
packages in use. -/
structure UnionsCompile (doc : Document) : Prop where
  declared : ∀ marker ∈ markers doc, ∃ decl ∈ emitModels doc, decl.name = marker.1
  receivers : ∀ marker ∈ markers doc, ∀ decl ∈ emitModels doc, decl.name = marker.1 →
    decl.isConcrete = true
  once : (markers doc).Nodup
  imports : ∀ pkg ∈ ["json", "fmt"], pkg ∈ modelsImports doc ↔ UsesPackage pkg doc

/-! ## §3  Receivers and packages -/

/-- The reference arms of a model, if it is a union. -/
def modelArms : Model → List String
  | .object o => ((unionMembers o).map referenceArms).getD []
  | .enum _ => []

/-- An enum, or an object with properties or without a shape. -/
def Concrete : Model → Prop
  | .enum _ => True
  | .object o => o.properties ≠ [] ∨ o.shapeType = none

theorem isConcrete_emitModel {schemas : SchemaRegistry} {m : Model} :
    (emitModel schemas m).isConcrete = true ↔ Concrete m := by
  cases m with
  | enum e => exact iff_of_true rfl trivial
  | object o =>
      show (emitObject o schemas).isConcrete = true ↔ o.properties ≠ [] ∨ o.shapeType = none
      by_cases hprops : o.properties = []
      · unfold emitObject
        cases hunion : unionMembers o with
        | some members =>
            obtain ⟨-, kind, discriminator, hshape, -⟩ := unionMembers_eq_some_iff.mp hunion
            simp [GoDecl.isConcrete, hprops, hshape]
        | none => cases hshape : o.shapeType <;> simp [GoDecl.isConcrete, hprops]
      · rw [emitObject_of_properties schemas hprops]
        exact iff_of_true rfl (Or.inl hprops)

theorem modelMarkers_eq (m : Model) : modelMarkers m =
    (modelArms m).map fun arm => (exportIdent arm, "is" ++ exportIdent m.name) := by
  cases m with
  | enum e => rfl
  | object o =>
      simp only [modelMarkers, markerMethods, modelArms, Model.name]
      cases unionMembers o <;> rfl

theorem mem_markers {doc : Document} {marker : String × String} : marker ∈ markers doc ↔
    ∃ m ∈ doc.schemas.models.values, ∃ arm ∈ modelArms m,
      marker = (exportIdent arm, "is" ++ exportIdent m.name) := by
  simp only [markers, List.mem_flatMap, modelMarkers_eq, List.mem_map, eq_comm]

theorem nodup_modelMarkers_iff (m : Model) :
    (modelMarkers m).Nodup ↔ ((modelArms m).map exportIdent).Nodup := by
  rw [modelMarkers_eq]
  constructor
  · intro h
    apply List.Nodup.of_map (fun name => (name, "is" ++ exportIdent m.name))
    rw [List.map_map]
    exact h
  · intro h
    apply List.Nodup.of_map Prod.fst
    rw [List.map_map]
    exact h

/-- Two unions declare a method in common exactly if they share their name and that of an arm. -/
theorem disjoint_modelMarkers_iff {m m' : Model} : (modelMarkers m).Disjoint (modelMarkers m') ↔
    (exportIdent m.name = exportIdent m'.name →
      ((modelArms m).map exportIdent).Disjoint ((modelArms m').map exportIdent)) := by
  rw [modelMarkers_eq, modelMarkers_eq]
  constructor
  · intro h hname ident hident hident'
    obtain ⟨arm, harm, rfl⟩ := List.mem_map.mp hident
    obtain ⟨arm', harm', heq⟩ := List.mem_map.mp hident'
    refine h (List.mem_map.mpr ⟨arm, harm, rfl⟩) (List.mem_map.mpr ⟨arm', harm', ?_⟩)
    rw [heq, hname]
  · intro h marker hmarker hmarker'
    obtain ⟨arm, harm, rfl⟩ := List.mem_map.mp hmarker
    obtain ⟨arm', harm', heq⟩ := List.mem_map.mp hmarker'
    obtain ⟨hident, hmethod⟩ := Prod.mk.inj heq
    have hname : exportIdent m.name = exportIdent m'.name := (Text.append_inj_left hmethod).symm
    exact h hname (List.mem_map_of_mem harm) (hident ▸ List.mem_map_of_mem harm')

/-- A union whose functions decode an arm. -/
def Decodes (doc : Document) : Model → Prop
  | .object o => ∃ members, unionMembers o = some members ∧ ∃ arm ∈ referenceArms members,
      ∀ disc, shapeDiscriminator o = some disc →
        (discriminantValue arm disc.propertyName doc.schemas disc).isSome
  | .enum _ => False

theorem exists_mem_emitUnionFromMap {arms : List String} {disc : Discriminator} {doc : Document} :
    (∃ e, e ∈ emitUnionFromMap arms disc doc) ↔
      ∃ arm ∈ arms, (discriminantValue arm disc.propertyName doc.schemas disc).isSome := by
  simp only [emitUnionFromMap, List.mem_filterMap, Option.map_eq_some_iff,
    Option.isSome_iff_exists]
  constructor
  · rintro ⟨e, arm, harm, value, hvalue, rfl⟩
    exact ⟨arm, harm, value, hvalue⟩
  · rintro ⟨arm, harm, value, hvalue⟩
    exact ⟨_, arm, harm, value, hvalue, rfl⟩

theorem packagesOf_append (lines lines' : List GoLine) :
    packagesOf (lines ++ lines') = packagesOf lines ++ packagesOf lines' :=
  List.flatMap_append

theorem packagesOf_flatMap {α : Type} (l : List α) (f : α → List GoLine) :
    packagesOf (l.flatMap f) = l.flatMap fun a => packagesOf (f a) :=
  List.flatMap_assoc

/-- Each case uses both packages, and the end of the function `fmt`. -/
theorem mem_packagesOf_fromMap {pkg union : String} {arms : List String} {disc : Discriminator}
    {doc : Document} : pkg ∈ packagesOf (unionFromMapLines union arms disc doc) ↔
      pkg = "fmt" ∨ pkg = "json" ∧ ∃ e, e ∈ emitUnionFromMap arms disc doc := by
  have hcase : ∀ e : String × String, packagesOf (fromMapCase e.1 e.2) = ["json", "json", "fmt"] :=
    fun e => rfl
  have hhead : packagesOf (fromMapHead union disc.propertyName) = [] := rfl
  have hend : packagesOf (fromMapEnd union) = ["fmt"] := rfl
  rw [unionFromMapLines, packagesOf_append, packagesOf_append, packagesOf_flatMap, hhead, hend,
    List.nil_append, List.mem_append, List.mem_flatMap]
  simp only [hcase, List.mem_cons, List.not_mem_nil, or_false, or_self_left]
  constructor
  · rintro (⟨e, he, rfl | rfl⟩ | rfl)
    · exact Or.inr ⟨rfl, e, he⟩
    · exact Or.inl rfl
    · exact Or.inl rfl
  · rintro (rfl | ⟨rfl, e, he⟩)
    · exact Or.inr rfl
    · exact Or.inl ⟨e, he, Or.inl rfl⟩

theorem packagesOf_discriminant (union : String) (arms : List String) (disc : Discriminator)
    (doc : Document) : packagesOf (unionDiscriminantLines union arms disc doc) = [] := by
  rw [unionDiscriminantLines, packagesOf_append, packagesOf_append, packagesOf_flatMap]
  apply List.append_eq_nil_iff.mpr
  constructor
  · exact List.flatMap_eq_nil_iff.mpr fun e _ => rfl
  · rfl

theorem mem_packagesOf_fromJson {pkg union : String} {arms : List String} :
    pkg ∈ packagesOf (unionFromJsonLines union arms) ↔ pkg = "json" ∨ pkg = "fmt" := by
  have hhead : packagesOf (fromJsonHead union) = ["json"] := rfl
  have hend : packagesOf (fromJsonEnd union) = ["fmt"] := rfl
  rw [unionFromJsonLines, packagesOf_append, packagesOf_append, packagesOf_flatMap, hhead, hend]
  simp only [List.mem_append, List.mem_singleton, List.mem_flatMap]
  constructor
  · rintro ((rfl | ⟨arm, -, hpkg⟩) | rfl)
    · exact Or.inl rfl
    · have hjson : pkg ∈ ["json"] := hpkg
      exact Or.inl (List.mem_singleton.mp hjson)
    · exact Or.inr rfl
  · rintro (rfl | rfl)
    · exact Or.inl (Or.inl rfl)
    · exact Or.inr rfl

theorem mem_packagesOf_modelHelpers {pkg : String} {doc : Document} {m : Model} :
    pkg ∈ packagesOf (modelHelpers doc m) ↔
      pkg = "json" ∧ Decodes doc m ∨ pkg = "fmt" ∧ modelArms m ≠ [] := by
  cases m with
  | enum e => simp [modelHelpers, packagesOf, Decodes, modelArms]
  | object o =>
      simp only [modelHelpers, unionHelpers, Decodes, modelArms]
      cases hmembers : unionMembers o with
      | none => simp [packagesOf]
      | some members =>
          dsimp only
          cases harms : referenceArms members with
          | nil => simp [packagesOf, harms]
          | cons arm arms =>
              rw [List.isEmpty_cons, if_neg (by simp), ← harms]
              cases hdisc : shapeDiscriminator o with
              | some disc =>
                  dsimp only
                  rw [packagesOf_append, packagesOf_discriminant, List.append_nil,
                    mem_packagesOf_fromMap, exists_mem_emitUnionFromMap]
                  simp [harms, or_comm]
              | none =>
                  dsimp only
                  rw [mem_packagesOf_fromJson]
                  simp [harms]

/-! ## §4  When unions compile -/

/-- The unions of a document fit its other models. -/
structure UnionsFit (doc : Document) : Prop where
  /-- each arm has the name of a type of its own, and of nothing else -/
  arms : ∀ m ∈ doc.schemas.models.values, ∀ arm ∈ modelArms m,
    (∃ n ∈ doc.schemas.models.values, exportIdent n.name = exportIdent arm) ∧
      ∀ n ∈ doc.schemas.models.values, exportIdent n.name = exportIdent arm → Concrete n
  /-- the arms of one union have different names -/
  once : ∀ m ∈ doc.schemas.models.values, ((modelArms m).map exportIdent).Nodup
  /-- and so have those of unions of one name -/
  apart : doc.schemas.models.values.Pairwise fun m m' => exportIdent m.name = exportIdent m'.name →
    ((modelArms m).map exportIdent).Disjoint ((modelArms m').map exportIdent)
  /-- where there are unions, some union decodes an arm -/
  decodes : (∃ m ∈ doc.schemas.models.values, modelIsUnion m = true) →
    ∃ m ∈ doc.schemas.models.values, Decodes doc m

theorem modelIsUnion_of_arms {m : Model} (h : modelArms m ≠ []) : modelIsUnion m = true := by
  cases m with
  | enum e => exact absurd rfl h
  | object o =>
      show (unionMembers o).isSome = true
      cases hmembers : unionMembers o with
      | none => simp [modelArms, hmembers] at h
      | some members => rfl

theorem arms_of_decodes {doc : Document} {m : Model} (h : Decodes doc m) : modelArms m ≠ [] := by
  cases m with
  | enum e => exact h.elim
  | object o =>
      obtain ⟨members, hmembers, arm, harm, -⟩ := h
      unfold modelArms
      simpa [hmembers] using List.ne_nil_of_mem harm

theorem imports_iff (doc : Document) :
    (∀ pkg ∈ ["json", "fmt"], pkg ∈ modelsImports doc ↔ UsesPackage pkg doc) ↔
      ((∃ m ∈ doc.schemas.models.values, modelIsUnion m = true) →
        ∃ m ∈ doc.schemas.models.values, Decodes doc m) := by
  have himports : ∀ pkg ∈ ["json", "fmt"], pkg ∈ modelsImports doc ↔
      ∃ m ∈ doc.schemas.models.values, modelIsUnion m = true := by
    intro pkg hpkg
    rw [← List.any_eq_true, ← needsJsonFmt, modelsImports]
    cases needsJsonFmt doc <;> simp [hpkg]
  have hjson : UsesPackage "json" doc ↔ ∃ m ∈ doc.schemas.models.values, Decodes doc m := by
    simp [UsesPackage, mem_packagesOf_modelHelpers]
  have hfmt : UsesPackage "fmt" doc ↔ ∃ m ∈ doc.schemas.models.values, modelArms m ≠ [] := by
    simp [UsesPackage, mem_packagesOf_modelHelpers]
  constructor
  · intro h hunion
    exact hjson.mp ((h "json" (by simp)).mp ((himports "json" (by simp)).mpr hunion))
  · intro h pkg hpkg
    rw [himports pkg hpkg]
    rcases List.mem_pair.mp hpkg with rfl | rfl
    · rw [hjson]
      constructor
      · exact h
      · rintro ⟨m, hm, hdecodes⟩
        exact ⟨m, hm, modelIsUnion_of_arms (arms_of_decodes hdecodes)⟩
    · rw [hfmt]
      constructor
      · intro hunion
        obtain ⟨m, hm, hdecodes⟩ := h hunion
        exact ⟨m, hm, arms_of_decodes hdecodes⟩
      · rintro ⟨m, hm, harms⟩
        exact ⟨m, hm, modelIsUnion_of_arms harms⟩

theorem nodup_markers_iff (doc : Document) : (markers doc).Nodup ↔
    (∀ m ∈ doc.schemas.models.values, ((modelArms m).map exportIdent).Nodup) ∧
    doc.schemas.models.values.Pairwise fun m m' => exportIdent m.name = exportIdent m'.name →
      ((modelArms m).map exportIdent).Disjoint ((modelArms m').map exportIdent) := by
  rw [markers, List.nodup_flatMap]
  apply and_congr
  · exact forall₂_congr fun m _ => nodup_modelMarkers_iff m
  · exact List.Pairwise.iff fun m m' => disjoint_modelMarkers_iff

theorem exists_decl_iff {doc : Document} {ident : String} :
    (∃ decl ∈ emitModels doc, decl.name = ident) ↔
      ∃ n ∈ doc.schemas.models.values, exportIdent n.name = ident := by
  rw [emitModels]
  simp only [List.mem_map, exists_exists_and_eq_and, name_emitModel]

theorem forall_decl_iff {doc : Document} {ident : String} :
    (∀ decl ∈ emitModels doc, decl.name = ident → decl.isConcrete = true) ↔
      ∀ n ∈ doc.schemas.models.values, exportIdent n.name = ident → Concrete n := by
  rw [emitModels]
  simp only [List.forall_mem_map, name_emitModel, isConcrete_emitModel]

/-- **The markers and the imports of `models.go` are in order** exactly if the unions fit. -/
theorem unionsCompile_iff (doc : Document) : UnionsCompile doc ↔ UnionsFit doc := by
  constructor
  · rintro ⟨hdeclared, hreceivers, honce, himports⟩
    obtain ⟨hnames, hapart⟩ := (nodup_markers_iff doc).mp honce
    refine ⟨fun m hm arm harm => ?_, hnames, hapart, (imports_iff doc).mp himports⟩
    have hmarker := mem_markers.mpr ⟨m, hm, arm, harm, rfl⟩
    exact ⟨exists_decl_iff.mp (hdeclared _ hmarker), forall_decl_iff.mp (hreceivers _ hmarker)⟩
  · rintro ⟨harms, hnames, hapart, hdecodes⟩
    refine ⟨?_, ?_, (nodup_markers_iff doc).mpr ⟨hnames, hapart⟩, (imports_iff doc).mpr hdecodes⟩
    · intro marker hmarker
      obtain ⟨m, hm, arm, harm, rfl⟩ := mem_markers.mp hmarker
      exact exists_decl_iff.mpr (harms m hm arm harm).1
    · intro marker hmarker
      obtain ⟨m, hm, arm, harm, rfl⟩ := mem_markers.mp hmarker
      exact forall_decl_iff.mpr (harms m hm arm harm).2

/-- A code that is a text, and a union of it alone. -/
def codeDocument : Document :=
  Document.minimal ⟨IndexMap.ofList
    [("Code", .object ⟨"Code", none, [], none, some (.scalar .string), none⟩),
     ("Choice", .object ⟨"Choice", none, [], none,
       some (.composition .oneOf [.reference "Code" false none] none), none⟩)]⟩ []

/-- The marker stands on another name of `string`. -/
theorem code_marker_on_alias : ¬∀ doc : Document,
    (∀ t ∈ doc.types, ∀ name ∈ t.refs, (doc.schemas.get name).isSome = true) →
      UnionsCompile doc := by
  intro h
  have hcompiles := h codeDocument (by decide)
  have hmarker : ("Code", "isChoice") ∈ markers codeDocument := by decide
  have hdecl : GoDecl.typeAlias "Code" (.ident "string") ∈ emitModels codeDocument :=
    List.mem_cons_self
  exact absurd (hcompiles.receivers _ hmarker _ hdecl rfl) (by decide)

end SpecForge.Go
