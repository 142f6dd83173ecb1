import SpecForge.Native.Inheritance

/-!
# Unions with a discriminator

A `oneOf` or `anyOf` of references becomes an interface in Go and an enum in Rust. Both emitters
look up one discriminator value for each arm (§1). Go writes a constructor that switches on the
value in a map, and a function from an arm back to its value (§2). Rust decodes by structure, the
first arm that fits, and has a method from a variant to its value (§3).
-/

namespace SpecForge

open Lib Native

/-! ## §1  The value of an arm -/

namespace Native

/-- A model that is a `oneOf` or `anyOf` with a discriminator. -/
structure DiscriminatedUnion (o : ObjectModel) where
  kind : CompositionKind
  members : List IrType
  discriminator : Discriminator
  shape : o.shapeType = some (.composition kind members (some discriminator))
  union : kind ≠ .allOf
  bare : o.properties = []

/-- The members that become arms. -/
def DiscriminatedUnion.arms {o : ObjectModel} (u : DiscriminatedUnion o) : List String :=
  referenceArms u.members

/-- The only value of an arm's own property. -/
def ownValue (registry : SchemaRegistry) (arm prop : String) : Option String :=
  match registry.get arm with
  | some (.object obj) =>
      match obj.properties.find? fun p => p.name == prop with
      | some p =>
          match p.ty with
          | .stringEnum [value] _ => some value
          | _ => none
      | none => none
  | _ => none

/-- The first value that is mapped to an arm. -/
def mappedValue (disc : Discriminator) (arm : String) : Option String :=
  disc.mapping.bind fun mapping => (mapping.entries.find? fun e => e.2 == arm).map Prod.fst

/-- `discriminant_value`, and `go_discriminant_value`. -/
def discriminantValue (arm prop : String) (registry : SchemaRegistry) (disc : Discriminator) :
    Option String :=
  (ownValue registry arm prop).or (mappedValue disc arm)

/-- The discriminator property of an arm is a plain text. -/
def PlainProperty (registry : SchemaRegistry) (arm prop : String) : Prop :=
  ∃ obj p, registry.get arm = some (.object obj) ∧
    obj.properties.find? (fun p => p.name == prop) = some p ∧ p.ty = .scalar .string

theorem discriminantValue_of_plain {registry : SchemaRegistry} {arm prop : String}
    (h : PlainProperty registry arm prop) (disc : Discriminator) :
    discriminantValue arm prop registry disc = mappedValue disc arm := by
  obtain ⟨obj, p, hobj, hp, hty⟩ := h
  have hown : ownValue registry arm prop = none := by
    unfold ownValue
    rw [hobj]
    dsimp only
    rw [hp]
    dsimp only
    rw [hty]
  rw [discriminantValue, hown, Option.none_or]

/-- Of the entries that a list makes, the first one under a key. -/
theorem lookup_filterMap_map {α V : Type} (f : α → Option V) (key : α → String) (k : String) :
    ∀ l : List α, (l.filterMap fun a => (f a).map (key a, ·)).lookup k =
      l.findSome? fun a => if k = key a then f a else none
  | [] => rfl
  | a :: l => by
      rw [List.filterMap_cons, List.findSome?_cons, ← lookup_filterMap_map f key k l]
      cases f a with
      | none => simp
      | some v =>
          by_cases hkey : k = key a
          · simp [hkey]
          · rw [Option.map_some]
            dsimp only
            rw [List.lookup_cons, beq_false_of_ne hkey, if_neg hkey]

/-- A mapped value is mapped to its arm only. -/
theorem mappedValue_eq_some {disc : Discriminator} {arm value : String}
    (h : mappedValue disc arm = some value) :
    ∃ mapping, disc.mapping = some mapping ∧ mapping.get value = some arm := by
  obtain ⟨mapping, hmapping, hvalue⟩ := Option.bind_eq_some_iff.mp h
  obtain ⟨⟨value', arm'⟩, hfind, rfl⟩ := Option.map_eq_some_iff.mp hvalue
  have harm : (arm' == arm) = true := List.find?_some (p := fun e : String × String => e.2 == arm) hfind
  rw [← eq_of_beq harm]
  exact ⟨mapping, hmapping, IndexMap.mem_entries_iff.mp (List.mem_of_find?_eq_some hfind)⟩

/-- A model with a text property `kind`. -/
def kindModel (name : String) : Model :=
  .object ⟨name, none, [⟨"kind", .scalar .string, true, none⟩], none, none, none⟩

/-- Cats and dogs, told apart by their kind; cats are called kittens as well. -/
def petDiscriminator : Discriminator where
  propertyName := "kind"
  mapping := some (IndexMap.ofList [("cat", "Cat"), ("kitten", "Cat"), ("dog", "Dog")])

def petModel : ObjectModel where
  name := "Pet"
  description := none
  properties := []
  additionalProperties := none
  shapeType := some (.composition .oneOf
    [.reference "Cat" false none, .reference "Dog" false none] (some petDiscriminator))
  baseType := none

def petUnion : DiscriminatedUnion petModel := ⟨.oneOf, _, _, rfl, by decide, rfl⟩

def kindDocument : Document :=
  Document.minimal ⟨IndexMap.ofList [("Cat", kindModel "Cat"), ("Dog", kindModel "Dog"),
    ("Pet", .object petModel)]⟩ []

end Native

/-! ## §2  Go -/

namespace Go

section Switch

variable (arms : List String) (disc : Discriminator) (doc : Document)

/-- The cases of `New{Union}`: a value and the type that is decoded for it. -/
def emitUnionFromMap : List (String × String) :=
  arms.filterMap fun arm =>
    (discriminantValue arm disc.propertyName doc.schemas disc).map (·, exportIdent arm)

/-- The cases of `{Union}Discriminant`: a type and the value that is returned for it. -/
def emitUnionDiscriminant : List (String × String) :=
  arms.filterMap fun arm =>
    (discriminantValue arm disc.propertyName doc.schemas disc).map (exportIdent arm, ·)

end Switch

/-- What the generated code uses of `encoding/json` and of a `map[string]any`. -/
structure GoJson (M B V : Type) where
  /-- `m[key].(string)` -/
  asString : M → String → Option String
  marshal : M → Option B
  /-- `json.Unmarshal` into a variable of the named type. -/
  unmarshal : String → B → Option V

section Union

variable {M B V : Type} (json : GoJson M B V)

/-- The map decodes into the type. -/
def GoJson.decode (m : M) (type : String) : Option V := (json.marshal m).bind (json.unmarshal type)

/-- `New{Union}`: the dynamic type of the result with its value, or the error. -/
def newUnion (union : String) (arms : List String) (disc : Discriminator) (doc : Document) (m : M) :
    Except String (String × V) :=
  let value := (json.asString m disc.propertyName).getD ""
  match (emitUnionFromMap arms disc doc).lookup value with
  | some type =>
      match json.decode m type with
      | some v => .ok (type, v)
      | none => .error ("failed to unmarshal " ++ type)
  | none => .error ("unknown " ++ union ++ " discriminator: " ++ value)

/-- `{Union}Discriminant` -/
def unionDiscriminant (arms : List String) (disc : Discriminator) (doc : Document)
    (v : String × V) : String :=
  ((emitUnionDiscriminant arms disc doc).lookup v.1).getD ""

section Mapped

variable {arms : List String} {disc : Discriminator} {doc : Document}
  (hplain : ∀ arm ∈ arms, PlainProperty doc.schemas arm disc.propertyName)
include hplain

theorem mem_emitUnionFromMap {value type : String} :
    (value, type) ∈ emitUnionFromMap arms disc doc ↔
      ∃ arm ∈ arms, mappedValue disc arm = some value ∧ exportIdent arm = type := by
  rw [emitUnionFromMap, List.mem_filterMap]
  refine exists_congr fun arm => and_congr_right fun harm => ?_
  rw [discriminantValue_of_plain (hplain arm harm), Option.map_eq_some_iff]
  constructor
  · rintro ⟨value', hvalue, heq⟩
    cases heq
    exact ⟨hvalue, rfl⟩
  · rintro ⟨hvalue, rfl⟩
    exact ⟨value, hvalue, rfl⟩

/-- The case of a mapped value is that of its arm, if the value is the first one of the arm. -/
theorem lookup_emitUnionFromMap {A value : String} (hA : A ∈ arms) {mapping : IndexMap String String}
    (hmapping : disc.mapping = some mapping) (hvalue : mapping.get value = some A) {type : String} :
    (emitUnionFromMap arms disc doc).lookup value = some type ↔
      mappedValue disc A = some value ∧ type = exportIdent A := by
  have hcase : ∀ t, (value, t) ∈ emitUnionFromMap arms disc doc ↔
      mappedValue disc A = some value ∧ t = exportIdent A := by
    intro t
    rw [mem_emitUnionFromMap hplain]
    constructor
    · rintro ⟨arm, -, hmapped, rfl⟩
      obtain ⟨mapping', hmapping', hget⟩ := mappedValue_eq_some hmapped
      obtain rfl := Option.some.inj (hmapping.symm.trans hmapping')
      obtain rfl := Option.some.inj (hvalue.symm.trans hget)
      exact ⟨hmapped, rfl⟩
    · rintro ⟨hmapped, rfl⟩
      exact ⟨A, hA, hmapped, rfl⟩
  constructor
  · intro hlookup
    exact (hcase type).mp (mem_of_lookup_eq_some hlookup)
  · intro h
    cases hlookup : (emitUnionFromMap arms disc doc).lookup value with
    | none =>
        refine absurd ?_ (lookup_eq_none_iff.mp hlookup)
        exact List.mem_map_of_mem (f := Prod.fst) ((hcase type).mpr h)
    | some t =>
        rw [((hcase t).mp (mem_of_lookup_eq_some hlookup)).2, h.2]

theorem exists_lookup_emitUnionDiscriminant {A value : String} (hA : A ∈ arms)
    (hvalue : mappedValue disc A = some value) :
    ∃ value', (emitUnionDiscriminant arms disc doc).lookup (exportIdent A) = some value' := by
  rw [← Option.ne_none_iff_exists', ne_eq, lookup_eq_none_iff, not_not]
  have hmem : (exportIdent A, value) ∈ emitUnionDiscriminant arms disc doc := by
    refine List.mem_filterMap.mpr ⟨A, hA, ?_⟩
    rw [discriminantValue_of_plain (hplain A hA), hvalue]
    rfl
  exact List.mem_map_of_mem (f := Prod.fst) hmem

/-- An arm gets its first mapped value back unless one before it has its type name. -/
theorem lookup_emitUnionDiscriminant {A value : String} (hvalue : mappedValue disc A = some value) :
    (emitUnionDiscriminant arms disc doc).lookup (exportIdent A) = some value ↔
      ∃ before after, arms = before ++ A :: after ∧
        ∀ X ∈ before, exportIdent X = exportIdent A → mappedValue disc X = none := by
  rw [emitUnionDiscriminant, lookup_filterMap_map, List.findSome?_eq_some_iff]
  constructor
  · rintro ⟨before, X, after, hsplit, hX, hbefore⟩
    have hmem : ∀ Y ∈ before ++ X :: after, Y ∈ arms := fun Y hY => hsplit ▸ hY
    split at hX
    · next hname =>
        rw [discriminantValue_of_plain (hplain X (hmem X (by simp)))] at hX
        obtain ⟨mapping, hmapping, hget⟩ := mappedValue_eq_some hX
        obtain ⟨mapping', hmapping', hget'⟩ := mappedValue_eq_some hvalue
        obtain rfl := Option.some.inj (hmapping.symm.trans hmapping')
        obtain rfl := Option.some.inj (hget.symm.trans hget')
        refine ⟨before, after, hsplit, fun Y hY hsame => ?_⟩
        have hnone := hbefore Y hY
        rw [if_pos hsame.symm,
          discriminantValue_of_plain (hplain Y (hmem Y (List.mem_append_left _ hY)))] at hnone
        exact hnone
    · cases hX
  · rintro ⟨before, after, rfl, hbefore⟩
    refine ⟨before, A, after, rfl, ?_, fun X hX => ?_⟩
    · rw [if_pos rfl, discriminantValue_of_plain (hplain A (by simp)), hvalue]
    · split
      · next hsame =>
          rw [discriminantValue_of_plain (hplain X (List.mem_append_left _ hX))]
          exact hbefore X hX hsame.symm
      · rfl

end Mapped

/-- A value belongs to an arm: it is mapped to it or, without a mapping, is its name. -/
def Belongs (disc : Discriminator) (value arm : String) : Prop :=
  match disc.mapping with
  | some mapping => mapping.get value = some arm
  | none => value = arm

/-- **When a union round-trips in Go**: exactly if the value is the first one that the mapping
has for the arm, and no arm before it that has a value shares its type name. -/
theorem newUnion_roundTrip_iff {o : ObjectModel} (u : DiscriminatedUnion o) {doc : Document}
    {A value : String} {m : M} {v : V}
    (hplain : ∀ arm ∈ u.arms, PlainProperty doc.schemas arm u.discriminator.propertyName)
    (hA : A ∈ u.arms) (hbelongs : Belongs u.discriminator value A)
    (hvalue : json.asString m u.discriminator.propertyName = some value)
    (hdecodes : json.decode m (exportIdent A) = some v) :
    newUnion json (exportIdent o.name) u.arms u.discriminator doc m = .ok (exportIdent A, v) ∧
      unionDiscriminant u.arms u.discriminator doc (exportIdent A, v) = value ↔
    mappedValue u.discriminator A = some value ∧ ∃ before after, u.arms = before ++ A :: after ∧
      ∀ X ∈ before, exportIdent X = exportIdent A → mappedValue u.discriminator X = none := by
  unfold newUnion unionDiscriminant
  rw [hvalue, Option.getD_some]
  dsimp only
  constructor
  · rintro ⟨hnew, hback⟩
    cases hlookup : (emitUnionFromMap u.arms u.discriminator doc).lookup value with
    | none =>
        rw [hlookup] at hnew
        cases hnew
    | some type =>
        obtain ⟨arm, -, hmapped, -⟩ :=
          (mem_emitUnionFromMap hplain).mp (mem_of_lookup_eq_some hlookup)
        obtain ⟨mapping, hmapping, hget⟩ := mappedValue_eq_some hmapped
        rw [Belongs, hmapping] at hbelongs
        obtain rfl := Option.some.inj (hget.symm.trans hbelongs)
        refine ⟨hmapped, (lookup_emitUnionDiscriminant hplain hmapped).mp ?_⟩
        obtain ⟨value', hvalue'⟩ := exists_lookup_emitUnionDiscriminant hplain hA hmapped
        rw [hvalue', Option.getD_some] at hback
        rw [hvalue', hback]
  · rintro ⟨hmapped, hbefore⟩
    obtain ⟨mapping, hmapping, hget⟩ := mappedValue_eq_some hmapped
    rw [(lookup_emitUnionFromMap hplain hA hmapping hget).mpr ⟨hmapped, rfl⟩,
      (lookup_emitUnionDiscriminant hplain hmapped).mpr hbefore]
    dsimp only
    rw [hdecodes]
    exact ⟨rfl, rfl⟩

end Union

/-- A struct with a field for the kind, decoded from an object. -/
def kindJson : GoJson (List (String × Value)) Value String where
  asString := fun m key => (m.lookup key).bind Value.asStr
  marshal := fun m => some (.object m)
  unmarshal := fun _ v =>
    match v with
    | .object entries =>
        match entries.lookup "kind" with
        | none => some ""
        | some .null => some ""
        | some (.string s) => some s
        | some _ => none
    | .null => some ""
    | _ => none

theorem plainProperty_petUnion : ∀ arm ∈ petUnion.arms,
    PlainProperty kindDocument.schemas arm petUnion.discriminator.propertyName := by
  have harms : petUnion.arms = ["Cat", "Dog"] := rfl
  rw [harms]
  intro arm harm
  rcases List.mem_cons.mp harm with rfl | harm
  · exact ⟨_, _, rfl, rfl, rfl⟩
  · obtain rfl := List.mem_singleton.mp harm
    exact ⟨_, _, rfl, rfl, rfl⟩

theorem newUnion_roundTrip_cat :
    newUnion kindJson (exportIdent "Pet") petUnion.arms petDiscriminator kindDocument
        [("kind", .string "cat")] = .ok (exportIdent "Cat", "cat") ∧
      unionDiscriminant petUnion.arms petDiscriminator kindDocument (exportIdent "Cat", "cat") =
        "cat" :=
  (newUnion_roundTrip_iff kindJson petUnion plainProperty_petUnion (by decide)
    (show Belongs petDiscriminator "cat" "Cat" from rfl) rfl rfl).mpr
    ⟨by decide, [], ["Dog"], rfl, fun _ hX => absurd hX List.not_mem_nil⟩

/-- A kitten is a cat by the mapping, and unknown to the constructor. -/
theorem kitten_unknown : ¬ ∀ (M B V : Type) (json : GoJson M B V) (o : ObjectModel)
    (u : DiscriminatedUnion o) (doc : Document) (A value : String) (m : M) (v : V),
    (∀ arm ∈ u.arms, PlainProperty doc.schemas arm u.discriminator.propertyName) →
    A ∈ u.arms → Belongs u.discriminator value A →
    json.asString m u.discriminator.propertyName = some value →
    json.decode m (exportIdent A) = some v →
    newUnion json (exportIdent o.name) u.arms u.discriminator doc m = .ok (exportIdent A, v) ∧
      unionDiscriminant u.arms u.discriminator doc (exportIdent A, v) = value := by
  intro h
  have hkitten := h _ _ _ kindJson _ petUnion kindDocument "Cat" "kitten"
    [("kind", .string "kitten")] "kitten" plainProperty_petUnion (by decide) rfl rfl rfl
  obtain ⟨hmapped, -⟩ := (newUnion_roundTrip_iff kindJson petUnion plainProperty_petUnion
    (by decide) (show Belongs petDiscriminator "kitten" "Cat" from rfl) rfl rfl).mp hkitten
  exact absurd hmapped (by decide)

end Go

/-! ## §3  Rust -/

namespace Rust

section Untagged

-- which values serde reads as a field type, or as a model that is no struct
variable (accepts : RustType → Value → Prop) (registry : SchemaRegistry)

/-- A field reads its entry; a missing one is `None` where the field can be. -/
def FieldAccepts (f : RustField) (entries : List (String × Value)) : Prop :=
  match entries.lookup f.json with
  | some v => accepts f.type v
  | none => f.skipNone = true ∨ ∃ t, f.type = .option t

/-- What the fields of a struct leave to the struct that is flattened into it. -/
def leftOver (fields : List RustField) (entries : List (String × Value)) :
    List (String × Value) :=
  entries.filter fun e => !(fields.map (·.json)).contains e.1

/-- The type of a model reads a value. A struct reads its own fields and lets its base read the
rest; entries that nothing asks for are ignored. -/
inductive ArmAccepts : String → Value → Prop where
  | struct {arm o entries} : registry.get arm = some (.object o) → o.properties ≠ [] →
      (∀ f ∈ structFields o registry, FieldAccepts accepts f entries) →
      (∀ base, baseName o = some base →
        ArmAccepts base (.object (leftOver (structFields o registry) entries))) →
      ArmAccepts arm (.object entries)
  | other {arm v} : (∀ o, registry.get arm = some (.object o) → o.properties = []) →
      accepts (.path (pascal arm)) v → ArmAccepts arm v

/-- `#[serde(untagged)]`: the arm is the first one that reads the value. -/
def Untagged (arms : List String) (v : Value) (arm : String) : Prop :=
  ∃ before after, arms = before ++ arm :: after ∧ ArmAccepts accepts registry arm v ∧
    ∀ X ∈ before, ¬ArmAccepts accepts registry X v

end Untagged

/-- The value that is returned for an arm: its name where it has none. -/
def armValue (disc : Discriminator) (registry : SchemaRegistry) (arm : String) : String :=
  (discriminantValue arm disc.propertyName registry disc).getD (pascal arm)

/-- The cases of `discriminant()`: a variant and its value. -/
def emitUnionImpl (arms : List String) (disc : Discriminator) (registry : SchemaRegistry) :
    List (String × String) :=
  arms.map fun arm => (pascal arm, armValue disc registry arm)

def discriminant (arms : List String) (disc : Discriminator) (registry : SchemaRegistry)
    (variant : String) : String :=
  ((emitUnionImpl arms disc registry).lookup variant).getD ""

/-- Why the type of a model does not read a value: an entry that its property cannot take, a
missing entry of a property that must be there, the same in what is left to its base, or that it
is no struct. A struct that holds itself reads nothing. -/
inductive Misses (accepts : RustType → Value → Prop) (registry : SchemaRegistry) :
    String → Value → Prop where
  | entry {arm o p entries v} : registry.get arm = some (.object o) → Declares registry o p →
      entries.lookup p.name = some v → ¬accepts (propertyType p) v →
      Misses accepts registry arm (.object entries)
  | missing {arm o p entries} : registry.get arm = some (.object o) → Declares registry o p →
      entries.lookup p.name = none → p.required = true →
      (∀ t, renderType p.ty ≠ .option t) → Misses accepts registry arm (.object entries)
  | base {arm o base entries} : registry.get arm = some (.object o) → o.properties ≠ [] →
      baseName o = some base →
      Misses accepts registry base (.object (leftOver (structFields o registry) entries)) →
      Misses accepts registry arm (.object entries)
  | noObject {arm o v} : registry.get arm = some (.object o) → o.properties ≠ [] →
      (∀ entries, v ≠ .object entries) → Misses accepts registry arm v
  | other {arm v} : (∀ o, registry.get arm = some (.object o) → o.properties = []) →
      ¬accepts (.path (pascal arm)) v → Misses accepts registry arm v
  | endless {arm o v} : registry.get arm = some (.object o) →
      ¬Acc (fun b o => Base registry o b) o → Misses accepts registry arm v

section Arms

variable {accepts : RustType → Value → Prop} {registry : SchemaRegistry}

theorem mem_structFields_iff {o : ObjectModel} {f : RustField} :
    f ∈ structFields o registry ↔
      ∃ p, Declares registry o p ∧ f = ⟨p.name, !p.required, propertyType p⟩ := by
  rw [structFields, List.mem_map]
  exact exists_congr fun p => and_congr_right fun _ => eq_comm

/-- What a field for a property cannot read. -/
theorem not_fieldAccepts_iff {p : Property} {entries : List (String × Value)} :
    ¬FieldAccepts accepts ⟨p.name, !p.required, propertyType p⟩ entries ↔
      (∃ v, entries.lookup p.name = some v ∧ ¬accepts (propertyType p) v) ∨
      entries.lookup p.name = none ∧ p.required = true ∧ ∀ t, renderType p.ty ≠ .option t := by
  unfold FieldAccepts
  dsimp only
  cases hlookup : entries.lookup p.name with
  | some v => simp
  | none =>
      cases hrequired : p.required with
      | true => simp [propertyType, hrequired]
      | false => simp

/-- A model without a chain that goes on forever. -/
theorem acc_of_nil {o : ObjectModel} (h : o.properties = []) :
    Acc (fun b o => Base registry o b) o :=
  ⟨_, fun _ hbase => absurd h hbase.1⟩

/-- What is read has an end. -/
theorem ArmAccepts.acc {arm : String} {v : Value} (h : ArmAccepts accepts registry arm v) :
    ∀ o, registry.get arm = some (.object o) → Acc (fun b o => Base registry o b) o := by
  induction h with
  | @struct arm o entries hget _ _ _ ih =>
      intro o' hget'
      obtain rfl := Model.object.inj (Option.some.inj (hget.symm.trans hget'))
      refine ⟨_, fun b ⟨_, base, hbase, hb⟩ => ih base hbase b hb⟩
  | other hnone _ =>
      intro o hget
      exact acc_of_nil (hnone o hget)

theorem ArmAccepts.not_misses {arm : String} {v : Value} (h : ArmAccepts accepts registry arm v) :
    ¬Misses accepts registry arm v := by
  induction h with
  | @struct arm o entries hget hprops hfields hbase ih =>
      have hsame : ∀ {o'}, registry.get arm = some (.object o') → o' = o := fun hget' =>
        Model.object.inj (Option.some.inj (hget'.symm.trans hget))
      intro hmisses
      cases hmisses with
      | entry hget' hp hlookup hnot =>
          obtain rfl := hsame hget'
          exact not_fieldAccepts_iff.mpr (Or.inl ⟨_, hlookup, hnot⟩)
            (hfields _ (mem_structFields_iff.mpr ⟨_, hp, rfl⟩))
      | missing hget' hp hlookup hrequired htype =>
          obtain rfl := hsame hget'
          exact not_fieldAccepts_iff.mpr (Or.inr ⟨hlookup, hrequired, htype⟩)
            (hfields _ (mem_structFields_iff.mpr ⟨_, hp, rfl⟩))
      | base hget' _ hbase' hmisses =>
          obtain rfl := hsame hget'
          exact ih _ hbase' hmisses
      | noObject _ _ hnone => exact hnone entries rfl
      | other hnone _ => exact hprops (hnone o hget)
      | endless hget' hendless =>
          exact hendless ((ArmAccepts.struct hget hprops hfields hbase).acc _ hget')
  | @other arm v hnone haccepts =>
      intro hmisses
      cases hmisses with
      | entry hget hp _ _ => exact List.ne_nil_of_mem (declares_iff.mp hp).1 (hnone _ hget)
      | missing hget hp _ _ _ => exact List.ne_nil_of_mem (declares_iff.mp hp).1 (hnone _ hget)
      | base hget hprops _ _ => exact hprops (hnone _ hget)
      | noObject hget hprops _ => exact hprops (hnone _ hget)
      | other _ hnot => exact hnot haccepts
      | endless hget hendless => exact hendless (acc_of_nil (hnone _ hget))

/-- A struct whose chain ends reads an object unless something is in the way. -/
theorem armAccepts_of_acc {o : ObjectModel} (hends : Acc (fun b o => Base registry o b) o) :
    ∀ {arm : String} {entries : List (String × Value)}, registry.get arm = some (.object o) →
      o.properties ≠ [] → ¬Misses accepts registry arm (.object entries) →
        ArmAccepts accepts registry arm (.object entries) := by
  induction hends with
  | intro o _ ih =>
      intro arm entries hget hprops hnot
      refine .struct hget hprops (fun f hf => ?_) fun base hbase => ?_
      · obtain ⟨p, hp, rfl⟩ := mem_structFields_iff.mp hf
        by_contra hrejects
        rcases not_fieldAccepts_iff.mp hrejects with ⟨v, hlookup, hv⟩ | ⟨hlookup, hreq, htype⟩
        · exact hnot (.entry hget hp hlookup hv)
        · exact hnot (.missing hget hp hlookup hreq htype)
      · have hrest : ¬Misses accepts registry base
            (.object (leftOver (structFields o registry) entries)) :=
          fun hmisses => hnot (.base hget hprops hbase hmisses)
        by_cases hstruct : ∃ b, registry.get base = some (.object b) ∧ b.properties ≠ []
        · obtain ⟨b, hb, hbprops⟩ := hstruct
          exact ih b ⟨hprops, base, hbase, hb⟩ hb hbprops hrest
        · push Not at hstruct
          refine .other hstruct ?_
          by_contra hrejects
          exact hrest (.other hstruct hrejects)

/-- A type reads a value exactly if nothing is in the way. -/
theorem armAccepts_iff {arm : String} {v : Value} :
    ArmAccepts accepts registry arm v ↔ ¬Misses accepts registry arm v := by
  refine ⟨ArmAccepts.not_misses, fun hnot => ?_⟩
  by_cases hstruct : ∃ o, registry.get arm = some (.object o) ∧ o.properties ≠ []
  · obtain ⟨o, hget, hprops⟩ := hstruct
    by_cases hobject : ∃ entries, v = .object entries
    · obtain ⟨entries, rfl⟩ := hobject
      by_cases hends : Acc (fun b o => Base registry o b) o
      · exact armAccepts_of_acc hends hget hprops hnot
      · exact absurd (.endless hget hends) hnot
    · push Not at hobject
      exact absurd (.noObject hget hprops hobject) hnot
  · push Not at hstruct
    refine .other hstruct ?_
    by_contra hrejects
    exact hnot (.other hstruct hrejects)

/-- A variant's value is that of the first arm with its name. -/
theorem discriminant_eq_iff {arms : List String} {disc : Discriminator} {A value : String}
    (hA : A ∈ arms) : discriminant arms disc registry (pascal A) = value ↔
      ∃ before Y after, arms = before ++ Y :: after ∧ pascal Y = pascal A ∧
        armValue disc registry Y = value ∧ ∀ X ∈ before, pascal X ≠ pascal A := by
  have hlookup : (emitUnionImpl arms disc registry).lookup (pascal A) =
      arms.findSome? fun arm =>
        if pascal A = pascal arm then some (armValue disc registry arm) else none := by
    rw [emitUnionImpl, ← lookup_filterMap_map (fun arm => some (armValue disc registry arm)) pascal]
    exact congrArg (List.lookup _) (List.filterMap_eq_map (f := fun arm => (pascal arm,
      armValue disc registry arm)) ▸ rfl)
  have hsome : ∃ w, (emitUnionImpl arms disc registry).lookup (pascal A) = some w := by
    rw [← Option.ne_none_iff_exists', ne_eq, lookup_eq_none_iff, not_not, emitUnionImpl,
      List.map_map]
    exact List.mem_map_of_mem (f := Prod.fst ∘ fun arm => (pascal arm, armValue disc registry arm)) hA
  obtain ⟨w, hw⟩ := hsome
  have hvalue : discriminant arms disc registry (pascal A) = value ↔
      (emitUnionImpl arms disc registry).lookup (pascal A) = some value := by
    rw [discriminant, hw, Option.getD_some, Option.some.injEq]
  rw [hvalue, hlookup, List.findSome?_eq_some_iff]
  constructor
  · rintro ⟨before, Y, after, hsplit, hY, hbefore⟩
    split at hY
    · next hname =>
        refine ⟨before, Y, after, hsplit, hname.symm, Option.some.inj hY, fun X hX hsame => ?_⟩
        have hnone := hbefore X hX
        rw [if_pos hsame.symm] at hnone
        cases hnone
    · cases hY
  · rintro ⟨before, Y, after, hsplit, hname, rfl, hbefore⟩
    refine ⟨before, Y, after, hsplit, if_pos hname.symm, fun X hX => ?_⟩
    exact if_neg fun hsame => hbefore X hX hsame.symm

/-- **When a union decodes right in Rust**: exactly if nothing keeps the arm from reading the
value, something keeps every arm before it, and the value is the one of the first arm with the
name of its variant. -/
theorem untagged_decodes_iff {o : ObjectModel} (u : DiscriminatedUnion o) {A value : String}
    {v : Value} (hA : A ∈ u.arms)
    (hvalue : v.get u.discriminator.propertyName = some (.string value)) :
    Untagged accepts registry u.arms v A ∧ v.get u.discriminator.propertyName =
        some (.string (discriminant u.arms u.discriminator registry (pascal A))) ↔
      ¬Misses accepts registry A v ∧
      (∃ before after, u.arms = before ++ A :: after ∧
        ∀ X ∈ before, Misses accepts registry X v) ∧
      ∃ before Y after, u.arms = before ++ Y :: after ∧ pascal Y = pascal A ∧
        armValue u.discriminator registry Y = value ∧ ∀ X ∈ before, pascal X ≠ pascal A := by
  rw [hvalue, Option.some.injEq, Value.string.injEq, eq_comm, discriminant_eq_iff hA, ← and_assoc]
  refine and_congr_left fun _ => ?_
  simp only [Untagged, armAccepts_iff, not_not]
  constructor
  · rintro ⟨before, after, hsplit, hreads, hmisses⟩
    exact ⟨hreads, before, after, hsplit, hmisses⟩
  · rintro ⟨hreads, before, after, hsplit, hmisses⟩
    exact ⟨before, after, hsplit, hreads, hmisses⟩

end Arms

/-- Which values are read as a type, for types that hold texts. -/
def readsText : RustType → Value → Prop
  | .path name, v => name = "String" ∧ v.isString = true ∨ name = "serde_json::Value"
  | .option t, v => v.isNull = true ∨ readsText t v
  | .vec t, v => ∃ items, v = .array items ∧ ∀ x ∈ items, readsText t x
  | .hashMap t, v => ∃ entries, v = .object entries ∧ ∀ e ∈ entries, readsText t e.2

/-- Whatever its kind, an object with a text there is read as a cat and as a dog. -/
theorem armAccepts_kindModel {name : String} (s : String)
    (hget : kindDocument.schemas.get name = some (kindModel name)) :
    ArmAccepts readsText kindDocument.schemas name (.object [("kind", .string s)]) := by
  refine .struct hget (List.cons_ne_nil _ _) (fun f hf => ?_) (fun base hbase => by cases hbase)
  obtain ⟨p, hp, rfl⟩ := mem_structFields_iff.mp hf
  obtain rfl := List.mem_singleton.mp (declares_iff.mp hp).1
  exact Or.inl ⟨rfl, rfl⟩

theorem untagged_decodes_cat : Untagged readsText kindDocument.schemas petUnion.arms
      (.object [("kind", .string "cat")]) "Cat" ∧
    (Value.object [("kind", .string "cat")]).get "kind" = some (.string
      (discriminant petUnion.arms petDiscriminator kindDocument.schemas (pascal "Cat"))) :=
  (untagged_decodes_iff petUnion (by decide) rfl).mpr
    ⟨(armAccepts_kindModel "cat" rfl).not_misses,
      ⟨[], ["Dog"], rfl, fun _ hX => absurd hX List.not_mem_nil⟩,
      [], "Cat", ["Dog"], rfl, rfl, by decide, fun _ hX => absurd hX List.not_mem_nil⟩

/-- A dog is decoded as a cat. -/
theorem dog_decoded_as_cat : ¬ ∀ (accepts : RustType → Value → Prop) (registry : SchemaRegistry)
    (o : ObjectModel) (u : DiscriminatedUnion o) (A value : String) (v : Value)
    (mapping : IndexMap String String), A ∈ u.arms → u.discriminator.mapping = some mapping →
    mapping.get value = some A → v.get u.discriminator.propertyName = some (.string value) →
    ArmAccepts accepts registry A v →
    Untagged accepts registry u.arms v A ∧ v.get u.discriminator.propertyName =
      some (.string (discriminant u.arms u.discriminator registry (pascal A))) := by
  intro h
  obtain ⟨⟨before, after, hsplit, -, hbefore⟩, -⟩ := h readsText kindDocument.schemas petModel
    petUnion "Dog" "dog" (.object [("kind", .string "dog")]) _ (by decide) rfl rfl rfl
    (armAccepts_kindModel "dog" rfl)
  have harms : petUnion.arms = ["Cat", "Dog"] := rfl
  rw [harms] at hsplit
  cases before with
  | nil =>
      obtain ⟨hname, -⟩ := List.cons.inj hsplit
      exact absurd hname (by decide)
  | cons X before =>
      obtain ⟨rfl, -⟩ := List.cons.inj hsplit
      exact hbefore "Cat" List.mem_cons_self (armAccepts_kindModel "dog" rfl)

end Rust

end SpecForge
