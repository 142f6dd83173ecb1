import SpecForge.Core.Agreement
import SpecForge.Native.FiniteTypes
import SpecForge.Native.GoJson

/-!
# JSON round trips of the Go models

§1 is what a type asks of a value to give it back, kind by kind. §2 is an object model: where all
its fields keep their values, zero values and missing ones included, decoding and encoding is the
identity. `omitempty` on a type that is no pointer, and the `bool` for base64 and binary data, are
where it is not.
-/

namespace SpecForge.Go

open Native Lib

/-! ## §1  Kinds -/

section Kinds

variable (letter : Char → Bool) (decls : List GoDecl)

/-- What the fields of a struct ask of an object. -/
structure KeepsFields (fields : List JsonField) (es : List (String × Value)) : Prop where
  known : ∀ e ∈ es, ∃ f ∈ fields, f.name = e.1
  /-- A struct is never left out. -/
  absent : ∀ f ∈ fields, es.lookup f.name = none → f.omitempty = true ∧
    ∃ k, HasKind letter decls f.type k ∧ k.isStruct = false
  present : ∀ f ∈ fields, ∀ w, es.lookup f.name = some w → Survives letter decls f.type w
  kept : ∀ f ∈ fields, ∀ w, es.lookup f.name = some w → f.omitempty = true →
    ∀ k, HasKind letter decls f.type k → k.empties w = false

/-- What a kind asks of a value. -/
def Kind.Keeps : Kind → Value → Prop
  | .text, v => v.isString = true
  | .int, v => v.isI64 = true
  | .float, v => ∃ n, v = .number n ∧ IsDouble n
  | .bool, v => v.isBoolean = true
  | .any, v => Numbers IsDouble v
  | .union, v => v = .null
  | .pointer t, v => v = .null ∨ Survives letter decls t v
  | .slice item, v => v = .null ∨ ∃ vs, v = .array vs ∧ ∀ w ∈ vs, Survives letter decls item w
  | .map value, v =>
      v = .null ∨ ∃ es, v = .object es ∧ ∀ e ∈ es, Survives letter decls value e.2
  | .struct levels, v => ∃ es, v = .object es ∧ KeepsFields letter decls (visible levels) es

variable {letter decls}

theorem Kind.keeps_of_survives {t : GoType} {v : Value} (h : Survives letter decls t v) :
    ∃ k, HasKind letter decls t k ∧ k.Keeps letter decls v := by
  cases h with
  | text hk => exact ⟨_, hk, rfl⟩
  | int hk hn => exact ⟨_, hk, hn⟩
  | float hk hn => exact ⟨_, hk, _, rfl, hn⟩
  | bool hk => exact ⟨_, hk, rfl⟩
  | any hk hv => exact ⟨_, hk, hv⟩
  | @null _ k hk hnil =>
      refine ⟨k, hk, ?_⟩
      cases k with
      | union => rfl
      | pointer u => exact .inl rfl
      | slice item => exact .inl rfl
      | map value => exact .inl rfl
      | _ => cases hnil
  | pointer hk hv _ => exact ⟨_, hk, .inr hv⟩
  | slice hk hvs => exact ⟨_, hk, .inr ⟨_, rfl, hvs⟩⟩
  | map hk hes => exact ⟨_, hk, .inr ⟨_, rfl, hes⟩⟩
  | struct hk known absent present kept => exact ⟨_, hk, _, rfl, known, absent, present, kept⟩

theorem Kind.survives_of_keeps {t : GoType} {k : Kind} (hk : HasKind letter decls t k) {v : Value}
    (h : k.Keeps letter decls v) : Survives letter decls t v := by
  cases k with
  | text =>
      cases v with
      | string s => exact .text hk
      | _ => cases h
  | int =>
      cases v with
      | number n => exact .int hk h
      | _ => cases h
  | float =>
      obtain ⟨n, rfl, hn⟩ := h
      exact .float hk hn
  | bool =>
      cases v with
      | bool b => exact .bool hk
      | _ => cases h
  | any => exact .any hk h
  | union =>
      obtain rfl := h
      exact .null hk rfl
  | pointer u =>
      by_cases hnull : v = .null
      · subst hnull
        exact .null hk rfl
      · exact .pointer hk (h.resolve_left hnull) hnull
  | slice item =>
      rcases h with rfl | ⟨vs, rfl, hvs⟩
      · exact .null hk rfl
      · exact .slice hk hvs
  | map value =>
      rcases h with rfl | ⟨es, rfl, hes⟩
      · exact .null hk rfl
      · exact .map hk hes
  | struct levels =>
      obtain ⟨es, rfl, known, absent, present, kept⟩ := h
      exact .struct hk known absent present kept

/-- **A value survives its type if the kind of the type keeps it.** -/
theorem survives_iff {t : GoType} {k : Kind} (hk : HasKind letter decls t k) {v : Value} :
    Survives letter decls t v ↔ k.Keeps letter decls v := by
  constructor
  · intro h
    obtain ⟨k', hk', hkeeps⟩ := Kind.keeps_of_survives h
    exact hk.unique letter decls hk' ▸ hkeeps
  · exact Kind.survives_of_keeps hk

theorem hasKind_of_predeclared {name : String} {k : Kind} (h : predeclared name = some k) :
    HasKind letter decls (.ident name) k := by
  refine ⟨1, ?_⟩
  dsimp only
  rw [kindOf, h]

/-- A capital letter starts the name of no predeclared type. -/
theorem predeclared_of_capitalised {name : String} (h : Capitalised name) :
    predeclared name = none := by
  have hscalar : ∀ s, name ≠ scalarName s := fun s heq =>
    not_capitalised_scalarName s (heq ▸ h)
  have hstring : name ≠ "string" := hscalar .string
  have hint : name ≠ "int" := hscalar .integer
  have hint64 : name ≠ "int64" := hscalar .integer64
  have hfloat : name ≠ "float64" := hscalar .float
  have hbool : name ≠ "bool" := hscalar .boolean
  have hany : name ≠ "any" := fun heq => not_capitalised_any (heq ▸ h)
  simp [predeclared, hstring, hint, hint64, hfloat, hbool, hany]

end Kinds

/-! ## §2  Object models -/

/-- Decoding into the type and encoding gives the value back. -/
def RoundTrips (pkg : JsonPackage) (decls : List GoDecl) (t : GoType) (v : Value) : Prop :=
  ∃ n g, decode pkg decls n t v = some g ∧ Same (encode g) v

theorem roundTrips_iff {pkg : JsonPackage} (hpkg : pkg.Nearest) {decls : List GoDecl} {t : GoType}
    {v : Value} (hv : v.isOrdered = true) :
    RoundTrips pkg decls t v ↔ Survives pkg.letter decls t v := by
  constructor
  · rintro ⟨n, g, hg, hsame⟩
    exact survives_of_same hpkg n hv hg hsame
  · intro h
    exact same_of_survives hpkg h hv

/-- A declared name has its one declaration. -/
theorem declared_eq_some {decls : List GoDecl} {name : String} {decl : GoDecl}
    (h : declared decls name = some decl) : ∀ d ∈ decls, d.name = name → d = decl := by
  intro d hd hname
  unfold declared at h
  split at h
  · next decl' hfilter =>
      obtain rfl := Option.some.inj h
      have hmem : d ∈ decls.filter (·.name == name) :=
        List.mem_filter.mpr ⟨hd, beq_iff_eq.mpr hname⟩
      rw [hfilter] at hmem
      exact List.mem_singleton.mp hmem
  · cases h

theorem declared_of_hasKind {letter : Char → Bool} {decls : List GoDecl} {name : String} {k : Kind}
    (h : HasKind letter decls (.ident name) k) (hpre : predeclared name = none) :
    ∃ decl, declared decls name = some decl := by
  obtain ⟨n, hn⟩ := h
  cases n with
  | zero => cases hn
  | succ n =>
      dsimp only at hn
      rw [kindOf, hpre] at hn
      obtain ⟨decl, hdecl, -⟩ := Option.bind_eq_some_iff.mp hn
      exact ⟨decl, hdecl⟩

/-- A type that is declared as a struct without an embedded one. -/
theorem survives_struct_iff {letter : Char → Bool} {decls : List GoDecl} {name : String}
    {fields : List GoField} (hdecl : declared decls name = some (.struct name none fields))
    (hpre : predeclared name = none) {es : List (String × Value)} :
    Survives letter decls (.ident name) (.object es) ↔
      ∃ own, ownFields letter fields = some own ∧
        KeepsFields letter decls (visible [own]) es := by
  have hkind : ∀ n, kindOf letter decls (n + 1) (.ident name) =
      (ownFields letter fields).map fun own => .struct [own] := by
    intro n
    rw [kindOf, hpre]
    dsimp only
    rw [hdecl, Option.bind_some, declKind, Option.map_eq_bind]
    rfl
  constructor
  · intro h
    obtain ⟨k, ⟨n, hn⟩, hkeeps⟩ := Kind.keeps_of_survives h
    cases n with
    | zero => cases hn
    | succ n =>
        dsimp only at hn
        rw [hkind] at hn
        obtain ⟨own, hown, rfl⟩ := Option.map_eq_some_iff.mp hn
        obtain ⟨es', hes, hfields⟩ := hkeeps
        obtain rfl := Value.object.inj hes
        exact ⟨own, hown, hfields⟩
  · rintro ⟨own, hown, hfields⟩
    refine Kind.survives_of_keeps (k := .struct [own]) ⟨1, ?_⟩ ⟨es, rfl, hfields⟩
    dsimp only
    rw [hkind, hown]
    rfl

theorem embedded_of_emitObject {o : ObjectModel} {schemas : SchemaRegistry}
    {name : String} {embedded : Option String} {fields : List GoField}
    (h : emitObject o schemas = .struct name embedded fields) (hbase : o.baseType = none) :
    embedded = none := by
  have hnobase : baseName o = none := by rw [baseName, hbase]
  unfold emitObject at h
  dsimp only at h
  cases hunion : unionMembers o with
  | some members =>
      rw [hunion] at h
      cases h
  | none =>
      rw [hunion] at h
      dsimp only at h
      split at h
      · rw [hnobase] at h
        exact (GoDecl.struct.inj h).2.1.symm
      · cases hshape : o.shapeType with
        | some shape =>
            rw [hshape] at h
            cases h
        | none =>
            rw [hshape] at h
            exact (GoDecl.struct.inj h).2.1.symm

/-- **A model gives an object back** exactly if its name is declared once, every property of the
object is a field, a field without a property is left out, and a field with one keeps it. -/
theorem goModel_roundTrips_iff {pkg : JsonPackage} (hpkg : pkg.Nearest) {doc : Document}
    {o : ObjectModel} (ho : .object o ∈ doc.schemas.models.values) (hbase : o.baseType = none)
    {embedded : Option String} {fields : List GoField}
    (hstruct : emitObject o doc.schemas = .struct (exportIdent o.name) embedded fields)
    {es : List (String × Value)} (hes : (Value.object es).isOrdered = true) :
    RoundTrips pkg (emitModels doc) (.ident (exportIdent o.name)) (.object es) ↔
      declared (emitModels doc) (exportIdent o.name) = some (emitObject o doc.schemas) ∧
        ∃ own, ownFields pkg.letter fields = some own ∧
          KeepsFields pkg.letter (emitModels doc) (visible [own]) es := by
  obtain rfl := embedded_of_emitObject hstruct hbase
  have hpre := predeclared_of_capitalised (capitalised_exportIdent o.name)
  rw [roundTrips_iff hpkg hes]
  constructor
  · intro h
    obtain ⟨k, hk, -⟩ := Kind.keeps_of_survives h
    obtain ⟨decl, hdecl⟩ := declared_of_hasKind hk hpre
    have hmem : emitObject o doc.schemas ∈ emitModels doc := List.mem_map.mpr ⟨_, ho, rfl⟩
    obtain rfl := declared_eq_some hdecl _ hmem (by rw [hstruct]; rfl)
    refine ⟨hdecl, (survives_struct_iff ?_ hpre).mp h⟩
    rw [hdecl, hstruct]
  · rintro ⟨hdecl, hfields⟩
    rw [hstruct] at hdecl
    exact (survives_struct_iff hdecl hpre).mpr hfields

def noteModel : ObjectModel where
  name := "Note"
  description := none
  properties := [⟨"title", .scalar .string, true, none⟩, ⟨"likes", .scalar .integer, false, none⟩,
    ⟨"pinned", .scalar .boolean, false, none⟩]
  additionalProperties := none
  shapeType := none
  baseType := none

def noteDocument : Document :=
  Document.minimal ⟨IndexMap.ofList [("Note", .object noteModel)]⟩ []

/-- What `encoding/json` sees of the three fields. -/
def noteFields : List JsonField :=
  [⟨"title", true, false, .ident "string"⟩, ⟨"likes", true, true, .ident "int"⟩,
   ⟨"pinned", true, true, .ident "bool"⟩]

theorem ownFields_note (letter : Char → Bool) :
    ownFields letter (structFields noteModel noteDocument.schemas) = some noteFields := by
  rfl

theorem visible_note : visible [noteFields] = noteFields := by
  rfl

theorem exists_nearest (letter : Char → Bool) : ∃ pkg : JsonPackage,
    pkg.Nearest ∧ pkg.letter = letter ∧ ∀ stray gs, pkg.foldMatch stray gs = some gs := by
  have hparse : ∀ n : Number, ∃ f : FiniteF64, IsDouble n → f.toRat = n.toRat := by
    intro n
    by_cases h : IsDouble n
    · obtain ⟨f, hf⟩ := h
      exact ⟨f, fun _ => hf⟩
    · exact ⟨FiniteF64.zero, fun hn => absurd hn h⟩
  choose parse hparse using hparse
  exact ⟨⟨letter, parse, fun _ gs => some gs⟩, hparse, rfl, fun _ _ => rfl⟩

/-- A note comes back without the property that it does not have. -/
theorem goModel_roundTrips_note : ∃ pkg : JsonPackage, pkg.Nearest ∧
    RoundTrips pkg (emitModels noteDocument) (.ident (exportIdent noteModel.name))
      (.object [("likes", .number (.posInt 3)), ("title", .string "Hello")]) := by
  obtain ⟨pkg, hpkg, -⟩ := exists_nearest fun _ => false
  refine ⟨pkg, hpkg, (goModel_roundTrips_iff hpkg (o := noteModel) (List.mem_singleton.mpr rfl) rfl
    (emitObject_of_properties _ (List.cons_ne_nil _ _)) (by decide)).mpr
      ⟨rfl, noteFields, ownFields_note pkg.letter, ?_⟩⟩
  have htext : HasKind pkg.letter (emitModels noteDocument) (.ident "string") .text :=
    hasKind_of_predeclared rfl
  have hint : HasKind pkg.letter (emitModels noteDocument) (.ident "int") .int :=
    hasKind_of_predeclared rfl
  have hbool : HasKind pkg.letter (emitModels noteDocument) (.ident "bool") .bool :=
    hasKind_of_predeclared rfl
  have habsent : ∃ k, HasKind pkg.letter (emitModels noteDocument) (.ident "bool") k ∧
      k.isStruct = false := ⟨_, hbool, rfl⟩
  have hlikes : ∀ k, HasKind pkg.letter (emitModels noteDocument) (.ident "int") k →
      k.empties (.number (.posInt 3)) = false := by
    intro k hk
    obtain rfl := hint.unique _ _ hk
    rfl
  rw [visible_note]
  refine ⟨by decide, ?_, ?_, ?_⟩
  · simpa [noteFields, List.lookup_cons] using habsent
  · simpa [noteFields, List.lookup_cons] using
      And.intro (Survives.text (s := "Hello") htext) (Survives.int (n := .posInt 3) hint rfl)
  · simpa [noteFields, List.lookup_cons] using hlikes

/-- A note that is not pinned comes back without the property. -/
theorem pinned_false_lost : ¬∀ (pkg : JsonPackage) (doc : Document) (o : ObjectModel)
    (embedded : Option String) (fields : List GoField) (es : List (String × Value)),
    pkg.Nearest → .object o ∈ doc.schemas.models.values → o.baseType = none →
    emitObject o doc.schemas = .struct (exportIdent o.name) embedded fields →
    (Value.object es).isOrdered = true → (∀ e ∈ es, ∃ p ∈ o.properties, p.name = e.1) →
    ValidatesObject doc.schemas (.object es) o.properties →
    Numbers (fun n => IsDouble n ∧ n.isI64 = true) (.object es) →
    RoundTrips pkg (emitModels doc) (.ident (exportIdent o.name)) (.object es) := by
  intro h
  obtain ⟨pkg, hpkg, -⟩ := exists_nearest fun _ => false
  have hback := h pkg noteDocument noteModel _ _
    [("pinned", .bool false), ("title", .string "Hello")] hpkg (List.mem_singleton.mpr rfl)
    rfl (emitObject_of_properties _ (List.cons_ne_nil _ _)) (by decide) (by decide) ?_ ?_
  · rw [roundTrips_iff hpkg (by decide)] at hback
    obtain ⟨own, hown, hfields⟩ := (survives_struct_iff (rfl : declared _ "Note" = _) rfl).mp hback
    rw [ownFields_note] at hown
    obtain rfl := Option.some.inj hown
    rw [visible_note] at hfields
    have hkept := hfields.kept ⟨"pinned", true, true, .ident "bool"⟩ (by simp [noteFields])
      (.bool false) rfl rfl .bool (hasKind_of_predeclared rfl)
    cases hkept
  · refine ⟨_, rfl, ?_⟩
    have hscalar : acceptsScalar (.string "Hello") .string = true ∧
        acceptsScalar (.bool false) .boolean = true := ⟨rfl, rfl⟩
    simpa [noteModel, List.lookup_cons, validates_scalar] using hscalar
  · exact .object (List.forall_mem_cons.mpr ⟨.bool _, List.forall_mem_singleton.mpr (.string _)⟩)

end SpecForge.Go
