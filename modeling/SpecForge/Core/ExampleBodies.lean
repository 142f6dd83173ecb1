import SpecForge.Core.TestGen
import SpecForge.Core.MockConformance
import SpecForge.Lib.JsonText

/-!
# The bodies of the generated mock servers (`testgen.rs`)

The Go and the Rust tests answer requests with the example of a type, which is put together as a
text. Names and enum values are put between quotes as they are.

- §1 what a schema asks of a body. §2 what the generators write, and what can go wrong at a type.
- §3 texts of types: each is read as a body that has what the schema asks for, or as none.
- §4 whole examples.
-/

namespace SpecForge.ExampleBodies

open Lib
open Lib.Quoted (units)
open Lib.JsonText (Tree Parses Plain ReadAs Insists Opens Delimited)
open OpenApi (OpenAPI Schema SchemaData)

/-! ## §1  Bodies -/

/-- The array or map type that a model is an alias of. -/
def collection (o : ObjectModel) : Option IrType :=
  match o.shapeType with
  | some (.array item nullable) => some (.array item nullable)
  | some (.map value) => some (.map value)
  | _ => none

section

variable (schemas : SchemaRegistry)

/-- A value of the type is to have the name: it is that of a property, here or behind the shape, or
a member of an `allOf` asks for it. -/
inductive Demands : IrType → String → Prop where
  | property {name nullable description o p} : schemas.get name = some (.object o) →
      p ∈ o.properties → Demands (.reference name nullable description) p.name
  | shape {name nullable description o s k} : schemas.get name = some (.object o) →
      o.shapeType = some s → Demands s k → Demands (.reference name nullable description) k
  | member {members discriminator m k} : m ∈ members → Demands m k →
      Demands (.composition .allOf members discriminator) k

/-- The value has the names and the enum values of the type. Of several alternatives the first
counts, as of several enum values. -/
inductive Mirrors : IrType → Tree → Prop where
  | scalar {s v} : Mirrors (.scalar s) v
  | any {v} : Mirrors .any v
  | unknown {v} : Mirrors .unknown v
  | stringEnum {variants nullable v} :
      (∀ first, variants.head? = some first → v = .string (units first.toList)) →
      Mirrors (.stringEnum variants nullable) v
  | array {item nullable items} : (∀ j ∈ items, Mirrors item j) →
      Mirrors (.array item nullable) (.array items)
  | map {value entries} : (∀ e ∈ entries, Mirrors value e.2) →
      Mirrors (.map value) (.object entries)
  | missing {name nullable description v} : schemas.get name = none →
      Mirrors (.reference name nullable description) v
  | enum {name nullable description e v} : schemas.get name = some (.enum e) →
      (∀ first, e.variants.head? = some first → v = .string (units first.value.toList)) →
      Mirrors (.reference name nullable description) v
  | aliased {name nullable description o s v} : schemas.get name = some (.object o) →
      collection o = some s → Mirrors s v →
      (∀ k, Demands schemas (.reference name nullable description) k → units k.toList ∈ v.keys) →
      Mirrors (.reference name nullable description) v
  | object {name nullable description o entries} : schemas.get name = some (.object o) →
      collection o = none → entries.length = o.properties.length →
      (∀ x ∈ o.properties.zip entries, x.2.1 = units x.1.name.toList) →
      (∀ x ∈ o.properties.zip entries, Mirrors x.1.ty x.2.2) →
      (o.properties = [] → ∀ s, o.shapeType = some s → Mirrors s (.object [])) →
      (∀ k, Demands schemas (.reference name nullable description) k →
        units k.toList ∈ (Tree.object entries).keys) →
      Mirrors (.reference name nullable description) (.object entries)
  | empty {kind discriminator v} : Mirrors (.composition kind [] discriminator) v
  | first {kind m ms discriminator v} : Mirrors m v →
      (∀ k, Demands schemas (.composition kind (m :: ms) discriminator) k →
        units k.toList ∈ v.keys) →
      Mirrors (.composition kind (m :: ms) discriminator) v

/-! ## §2  Texts -/

/-- The names in the example of a type. -/
inductive Shows : IrType → String → Prop where
  | map {value} : Shows (.map value) "key"
  | aliased {name nullable description o s k} : schemas.get name = some (.object o) →
      collection o = some s → Shows s k → Shows (.reference name nullable description) k
  | property {name nullable description o p} : schemas.get name = some (.object o) →
      collection o = none → p ∈ o.properties → Shows (.reference name nullable description) p.name
  | first {kind m ms discriminator k} : Shows m k →
      Shows (.composition kind (m :: ms) discriminator) k

/-- The enum value that the example of a type is. -/
def enumValue : IrType → Option String
  | .stringEnum variants _ => variants.head?
  | .reference name _ _ =>
      match schemas.get name with
      | some (.enum e) => e.variants.head?.map (·.value)
      | _ => none
  | _ => none

/-- The example of the type, apart from what it contains, is as the type asks for. -/
structure Writable (t : IrType) : Prop where
  /-- Binary data is written as a call. -/
  notBinary : t ≠ .scalar .binary
  value : ∀ first, enumValue schemas t = some first → ∀ c ∈ first.toList, Plain c
  names : ∀ k, Shows schemas t k → ∀ c ∈ k.toList, Plain c
  /-- A map has the one name `key`, a composition those of its first member. -/
  keys : ∀ k, Demands schemas t k → Shows schemas t k
  /-- A model without properties that is no alias of an array or a map is written as `{}`. -/
  bare : ∀ name nullable description o s, t = .reference name nullable description →
    schemas.get name = some (.object o) → collection o = none → o.properties = [] →
    o.shapeType = some s → Mirrors schemas s (.object [])

/-- The type and all that its example contains. -/
def WritableThroughout (t : IrType) : Prop :=
  ∀ s, Relation.ReflTransGen (ExampleCalls literalTypes schemas) t s → Writable schemas s

end

section

variable {schemas : SchemaRegistry}

theorem writableThroughout_iff {t : IrType} : WritableThroughout schemas t ↔
    Writable schemas t ∧
      ∀ s, ExampleCalls literalTypes schemas t s → WritableThroughout schemas s := by
  constructor
  · intro h
    exact ⟨h t .refl, fun s hs u hu => h u (.head hs hu)⟩
  · rintro ⟨ht, hs⟩ u hu
    rcases hu.cases_head with rfl | ⟨s, hts, hsu⟩
    · exact ht
    · exact hs s hts u hsu

/-! ## §3  Texts of types -/

/-- A text for the type: if it can go well, it is read as a body of the type, and it goes well if
it is read as one. -/
structure Spells (schemas : SchemaRegistry) (t : IrType) (cs : List Char) : Prop where
  opens : Opens cs
  writes : WritableThroughout schemas t → ∃ v, ReadAs cs v ∧ Mirrors schemas t v
  insists : Insists cs (Mirrors schemas t) fun v =>
    WritableThroughout schemas t ∧ ∀ k : String, units k.toList ∈ v.keys ↔ Shows schemas t k

/-- A type whose example contains no other. -/
def Leaf (schemas : SchemaRegistry) : IrType → Prop
  | .array _ _ | .map _ => False
  | .reference name _ _ => ∀ o, schemas.get name ≠ some (.object o)
  | .composition _ members _ => members = []
  | _ => True

theorem Leaf.not_calls {t s : IrType} (h : Leaf schemas t) :
    ¬ ExampleCalls literalTypes schemas t s := by
  intro hcalls
  cases hcalls with
  | item => exact h
  | entry => exact h
  | first => exact List.cons_ne_nil _ _ h
  | model hget => exact h _ hget

theorem Leaf.not_shows {t : IrType} {k : String} (h : Leaf schemas t) : ¬ Shows schemas t k := by
  intro hshows
  cases hshows with
  | map => exact h
  | aliased hget => exact h _ hget
  | property hget => exact h _ hget
  | first => exact List.cons_ne_nil _ _ h

theorem Leaf.not_demands {t : IrType} {k : String} (h : Leaf schemas t) :
    ¬ Demands schemas t k := by
  intro hdemands
  cases hdemands with
  | property hget => exact h _ hget
  | shape hget => exact h _ hget
  | member hm =>
      have hnil : _ = [] := h
      rw [hnil] at hm
      exact List.not_mem_nil hm

/-- The example of such a type is right if its value can be written. -/
theorem writableThroughout_leaf {t : IrType} (h : Leaf schemas t) (hbinary : t ≠ .scalar .binary) :
    WritableThroughout schemas t ↔
      ∀ first, enumValue schemas t = some first → ∀ c ∈ first.toList, Plain c := by
  rw [writableThroughout_iff]
  constructor
  · exact fun hw => hw.1.value
  · intro hvalue
    refine ⟨⟨hbinary, hvalue, fun k hk => absurd hk h.not_shows,
      fun k hk => absurd hk h.not_demands, ?_⟩, fun s hs => absurd hs h.not_calls⟩
    rintro name nullable description o s rfl hget
    exact absurd hget (h o)

/-- A fixed text. -/
theorem spells_fixed {t : IrType} {cs : List Char} {tree : Tree} (h : Leaf schemas t)
    (hbinary : t ≠ .scalar .binary) (hvalue : enumValue schemas t = none) (hopens : Opens cs)
    (hread : ∀ n rest, Delimited rest → JsonText.value (n + 1) (cs ++ rest) = some (tree, rest))
    (hkeys : tree.keys = []) (hmirrors : Mirrors schemas t tree) : Spells schemas t cs where
  opens := hopens
  writes _ := ⟨tree, JsonText.readAs_of_eq hread, hmirrors⟩
  insists := by
    apply JsonText.insists_of_eq hread
    intro _
    refine ⟨(writableThroughout_leaf h hbinary).mpr ?_, fun k => ?_⟩
    · rw [hvalue]
      exact nofun
    · rw [hkeys]
      exact iff_of_false List.not_mem_nil h.not_shows

theorem opens_quoted (cs : List Char) : Opens ('"' :: cs) :=
  ⟨'"', cs, rfl, rfl, by decide, by decide⟩

/-- An enum value between quotes. -/
theorem spells_enumValue {t : IrType} {first : String} (h : Leaf schemas t)
    (hbinary : t ≠ .scalar .binary) (hvalue : enumValue schemas t = some first)
    (hmirrors : ∀ v, Mirrors schemas t v ↔ v = .string (units first.toList)) :
    Spells schemas t ('"' :: (first.toList ++ ['"'])) where
  opens := opens_quoted _
  writes hw := by
    have hplain := (writableThroughout_leaf h hbinary).mp hw first hvalue
    exact ⟨_, JsonText.readAs_quoted hplain, (hmirrors _).mpr rfl⟩
  insists := by
    apply JsonText.insists_quoted (fun v => (hmirrors v).mp)
    intro hplain
    refine ⟨(writableThroughout_leaf h hbinary).mpr ?_, fun k => ?_⟩
    · intro first' hfirst'
      rw [hvalue] at hfirst'
      rwa [← Option.some.inj hfirst']
    · exact iff_of_false List.not_mem_nil h.not_shows

theorem writable_array {item : IrType} {nullable : Bool} :
    Writable schemas (.array item nullable) := by
  refine ⟨nofun, nofun, ?_, ?_, nofun⟩
  · rintro k ⟨⟩
  · rintro k ⟨⟩

theorem spells_array {item : IrType} {nullable : Bool} {cs : List Char}
    (h : Spells schemas item cs) : Spells schemas (.array item nullable) (JsonText.arrayText cs) := by
  have hthrough : WritableThroughout schemas (.array item nullable) ↔
      WritableThroughout schemas item := by
    rw [writableThroughout_iff]
    constructor
    · exact fun hw => hw.2 item .item
    · refine fun hw => ⟨writable_array, ?_⟩
      rintro s ⟨⟩
      exact hw
  refine ⟨⟨'[', _, rfl, rfl, by decide, by decide⟩, fun hw => ?_, ?_⟩
  · obtain ⟨v, hread, hmirrors⟩ := h.writes (hthrough.mp hw)
    refine ⟨.array [v], JsonText.readAs_array h.opens hread, .array ?_⟩
    rw [List.forall_mem_singleton]
    exact hmirrors
  · refine (JsonText.insists_array h.opens h.insists).imp ?_ ?_
    · rintro v hv items rfl
      cases hv with
      | array hitems => exact hitems
    · rintro v - ⟨j, rfl, hw, -⟩
      refine ⟨hthrough.mpr hw, fun k => iff_of_false List.not_mem_nil ?_⟩
      rintro ⟨⟩

/-- The text of a map. -/
def mapText (cs : List Char) : List Char :=
  JsonText.objectText (fun _ => "key".toList) (fun _ => ' ' :: cs) [()]

theorem plain_key : ∀ c ∈ "key".toList, Plain c := JsonText.plain_of_all (by decide)

theorem units_string_inj {k k' : String} : units k.toList = units k'.toList ↔ k = k' := by
  rw [Quoted.units_injective.eq_iff, String.toList_inj]

theorem shows_map {value : IrType} {k : String} : Shows schemas (.map value) k ↔ k = "key" := by
  constructor
  · rintro ⟨⟩
    rfl
  · rintro rfl
    exact .map

theorem writable_map {value : IrType} : Writable schemas (.map value) := by
  refine ⟨nofun, nofun, fun k hk => ?_, ?_, nofun⟩
  · rw [shows_map.mp hk]
    exact plain_key
  · rintro k ⟨⟩

theorem spells_map {value : IrType} {cs : List Char} (h : Spells schemas value cs) :
    Spells schemas (.map value) (mapText cs) := by
  have hthrough : WritableThroughout schemas (.map value) ↔ WritableThroughout schemas value := by
    rw [writableThroughout_iff]
    constructor
    · exact fun hw => hw.2 value .entry
    · refine fun hw => ⟨writable_map, ?_⟩
      rintro s ⟨⟩
      exact hw
  refine ⟨⟨'\x7b', _, rfl, rfl, by decide, by decide⟩, fun hw => ?_, ?_⟩
  · obtain ⟨v, hread, hmirrors⟩ := h.writes (hthrough.mp hw)
    refine ⟨_, JsonText.readAs_object (fun _ => v) ?_, .map ?_⟩
    · exact fun _ _ => ⟨plain_key, JsonText.readAs_blank hread⟩
    · rw [List.map_singleton, List.forall_mem_singleton]
      exact hmirrors
  · refine (JsonText.insists_object (fun _ => "key".toList) (fun _ => ' ' :: cs) [()]
      fun _ _ => JsonText.insists_blank h.insists).imp ?_ ?_
    · rintro v hv es rfl p hp
      cases hv with
      | map hes => exact ⟨Or.inl plain_key, hes p.2 (List.of_mem_zip hp).2⟩
    · rintro v - ⟨es, rfl, hes⟩
      obtain ⟨e, es, ⟨-, hkey, hw, -⟩, hnil, rfl⟩ := List.forall₂_cons_left_iff.mp hes
      obtain rfl := List.forall₂_nil_left_iff.mp hnil
      refine ⟨hthrough.mpr hw, fun k => ?_⟩
      rw [shows_map, Tree.keys, List.map_singleton, List.mem_singleton, hkey, units_string_inj]

/-- A type whose example is that of another one, of which it may ask for more names. -/
theorem spells_through {t s : IrType} {cs : List Char} (h : Spells schemas s cs)
    (hmirrors : ∀ v, Mirrors schemas t v ↔
      Mirrors schemas s v ∧ ∀ k : String, Demands schemas t k → units k.toList ∈ v.keys)
    (hshows : ∀ k, Shows schemas t k ↔ Shows schemas s k)
    (hthrough : WritableThroughout schemas t ↔
      WritableThroughout schemas s ∧ ∀ k, Demands schemas t k → Shows schemas s k) :
    Spells schemas t cs where
  opens := h.opens
  writes hw := by
    obtain ⟨hs, hdemands⟩ := hthrough.mp hw
    obtain ⟨v, hread, hv⟩ := h.writes hs
    have hkeys := (h.insists.of_readAs hread hv).2
    exact ⟨v, hread, (hmirrors v).mpr ⟨hv, fun k hk => (hkeys k).mpr (hdemands k hk)⟩⟩
  insists := by
    refine h.insists.imp (fun v hv => ((hmirrors v).mp hv).1) ?_
    rintro v hv ⟨hs, hkeys⟩
    refine ⟨hthrough.mpr ⟨hs, fun k hk => (hkeys k).mp (((hmirrors v).mp hv).2 k hk)⟩, fun k => ?_⟩
    rw [hkeys, hshows]

theorem spells_first {kind : CompositionKind} {m : IrType} {ms : List IrType}
    {discriminator : Option Discriminator} {cs : List Char} (h : Spells schemas m cs) :
    Spells schemas (.composition kind (m :: ms) discriminator) cs := by
  have hshows : ∀ k, Shows schemas (.composition kind (m :: ms) discriminator) k ↔
      Shows schemas m k := by
    intro k
    constructor
    · rintro ⟨⟩
      assumption
    · exact .first
  refine spells_through h (fun v => ?_) hshows ?_
  · constructor
    · rintro ⟨⟩
      exact ⟨by assumption, by assumption⟩
    · rintro ⟨hv, hkeys⟩
      exact .first hv hkeys
  · rw [writableThroughout_iff]
    constructor
    · rintro ⟨hw, hcalls⟩
      exact ⟨hcalls m .first, fun k hk => (hshows k).mp (hw.keys k hk)⟩
    · rintro ⟨hm, hdemands⟩
      refine ⟨⟨nofun, nofun, fun k hk => ?_, fun k hk => (hshows k).mpr (hdemands k hk), nofun⟩, ?_⟩
      · exact (hm m .refl).names k ((hshows k).mp hk)
      · rintro s ⟨⟩
        exact hm

/-- What the alias of an array or a map is expanded to. -/
theorem calls_of_collection {o : ObjectModel} {s : IrType} (h : collection o = some s) :
    Writable schemas s ∧
      ∀ u, ExampleCalls literalTypes schemas s u ↔ u ∈ literalTypes o := by
  rcases hshape : o.shapeType with _ | shape
  · simp only [collection, hshape, reduceCtorEq] at h
  · cases shape with
    | array item nullable =>
        simp only [collection, hshape, Option.some.injEq] at h
        have htypes : literalTypes o = [item] := by simp only [literalTypes, hshape]
        rw [← h, htypes]
        refine ⟨writable_array, fun u => ?_⟩
        rw [List.mem_singleton]
        constructor
        · rintro ⟨⟩
          rfl
        · rintro rfl
          exact .item
    | map value =>
        simp only [collection, hshape, Option.some.injEq] at h
        have htypes : literalTypes o = [value] := by simp only [literalTypes, hshape]
        rw [← h, htypes]
        refine ⟨writable_map, fun u => ?_⟩
        rw [List.mem_singleton]
        constructor
        · rintro ⟨⟩
          rfl
        · rintro rfl
          exact .entry
    | _ => simp only [collection, hshape, reduceCtorEq] at h

theorem literalTypes_of_collection {o : ObjectModel} (h : collection o = none) :
    literalTypes o = propertyTypes o := by
  rcases hshape : o.shapeType with _ | shape
  · simp only [literalTypes, hshape]
  · cases shape with
    | array item nullable => simp only [collection, hshape, reduceCtorEq] at h
    | map value => simp only [collection, hshape, reduceCtorEq] at h
    | _ => simp only [literalTypes, hshape]

/-- Where the names of entries are given one by one, they are given. -/
theorem keys_of_forall₂ {α : Type} {key : α → List Char} {Q : α → List ℕ × Tree → Prop}
    {xs : List α} {es : List (List ℕ × Tree)}
    (h : List.Forall₂ (fun x e => (∀ c ∈ key x, Plain c) ∧ e.1 = units (key x) ∧ Q x e) xs es) :
    (Tree.object es).keys = xs.map fun x => units (key x) := by
  rw [Tree.keys]
  induction h with
  | nil => rfl
  | cons hx _ ih => rw [List.map_cons, List.map_cons, ih, hx.2.1]

section Model

variable {name : String} {nullable : Bool} {description : Option String} {o o' : ObjectModel}

theorem eq_of_get (hget : schemas.get name = some (.object o))
    (hget' : schemas.get name = some (.object o')) : o' = o := by
  rw [hget] at hget'
  cases hget'
  rfl

theorem exampleCalls_reference (hget : schemas.get name = some (.object o)) {u : IrType} :
    ExampleCalls literalTypes schemas (.reference name nullable description) u ↔
      u ∈ literalTypes o := by
  constructor
  · intro hcalls
    cases hcalls with
    | model hget' hmem =>
        obtain rfl := eq_of_get hget hget'
        exact hmem
  · exact .model hget

theorem enumValue_object (hget : schemas.get name = some (.object o)) :
    enumValue schemas (.reference name nullable description) = none := by
  simp only [enumValue, hget]

theorem mirrors_enum {e : EnumModel} (hget : schemas.get name = some (.enum e)) {v : Tree} :
    Mirrors schemas (.reference name nullable description) v ↔
      ∀ s, e.variants.head?.map (·.value) = some s → v = .string (units s.toList) := by
  simp only [Option.map_eq_some_iff, forall_exists_index, and_imp, forall_comm (α := String),
    forall_eq']
  constructor
  · intro hv
    cases hv with
    | missing hget' =>
        rw [hget] at hget'
        cases hget'
    | enum hget' hfirst =>
        rw [hget] at hget'
        cases hget'
        exact hfirst
    | aliased hget' =>
        rw [hget] at hget'
        cases hget'
    | object hget' =>
        rw [hget] at hget'
        cases hget'
  · exact .enum hget

section Aliased

variable {s : IrType} (hget : schemas.get name = some (.object o)) (hcollection : collection o = some s)
include hget hcollection

theorem shows_aliased {k : String} :
    Shows schemas (.reference name nullable description) k ↔ Shows schemas s k := by
  constructor
  · intro hk
    cases hk with
    | aliased hget' hcollection' hk =>
        obtain rfl := eq_of_get hget hget'
        rw [hcollection] at hcollection'
        cases hcollection'
        exact hk
    | property hget' hcollection' =>
        obtain rfl := eq_of_get hget hget'
        rw [hcollection] at hcollection'
        cases hcollection'
  · exact .aliased hget hcollection

theorem mirrors_aliased {v : Tree} :
    Mirrors schemas (.reference name nullable description) v ↔ Mirrors schemas s v ∧
      ∀ k : String, Demands schemas (.reference name nullable description) k →
        units k.toList ∈ v.keys := by
  constructor
  · intro hv
    cases hv with
    | missing hget' =>
        rw [hget] at hget'
        cases hget'
    | enum hget' =>
        rw [hget] at hget'
        cases hget'
    | aliased hget' hcollection' hv hkeys =>
        obtain rfl := eq_of_get hget hget'
        rw [hcollection] at hcollection'
        cases hcollection'
        exact ⟨hv, hkeys⟩
    | object hget' hcollection' =>
        obtain rfl := eq_of_get hget hget'
        rw [hcollection] at hcollection'
        cases hcollection'
  · rintro ⟨hv, hkeys⟩
    exact .aliased hget hcollection hv hkeys

/-- An alias is written as the array or the map. -/
theorem spells_aliased {cs : List Char} (h : Spells schemas s cs) :
    Spells schemas (.reference name nullable description) cs := by
  obtain ⟨hwritable, hcalls⟩ : Writable schemas s ∧ _ := calls_of_collection hcollection
  refine spells_through h (fun v => mirrors_aliased hget hcollection)
    (fun k => shows_aliased hget hcollection) ?_
  rw [writableThroughout_iff, writableThroughout_iff]
  simp only [exampleCalls_reference hget, hcalls]
  constructor
  · rintro ⟨hw, hparts⟩
    exact ⟨⟨hwritable, hparts⟩, fun k hk => (shows_aliased hget hcollection).mp (hw.keys k hk)⟩
  · rintro ⟨⟨hs, hparts⟩, hdemands⟩
    refine ⟨⟨nofun, ?_, ?_, ?_, ?_⟩, hparts⟩
    · rw [enumValue_object hget]
      exact nofun
    · exact fun k hk => hs.names k ((shows_aliased hget hcollection).mp hk)
    · exact fun k hk => (shows_aliased hget hcollection).mpr (hdemands k hk)
    · rintro _ _ _ o' s' ⟨⟩ hget' hcollection'
      obtain rfl := eq_of_get hget hget'
      rw [hcollection] at hcollection'
      cases hcollection'

end Aliased

section Properties

variable (hget : schemas.get name = some (.object o)) (hcollection : collection o = none)
include hget hcollection

theorem shows_object {k : String} : Shows schemas (.reference name nullable description) k ↔
    k ∈ o.properties.map (·.name) := by
  rw [List.mem_map]
  constructor
  · intro hk
    cases hk with
    | aliased hget' hcollection' =>
        obtain rfl := eq_of_get hget hget'
        rw [hcollection] at hcollection'
        cases hcollection'
    | property hget' _ hp =>
        obtain rfl := eq_of_get hget hget'
        exact ⟨_, hp, rfl⟩
  · rintro ⟨p, hp, rfl⟩
    exact .property hget hcollection hp

theorem mirrors_object {v : Tree} : Mirrors schemas (.reference name nullable description) v ↔
    ∃ entries, v = .object entries ∧ entries.length = o.properties.length ∧
      (∀ x ∈ o.properties.zip entries, x.2.1 = units x.1.name.toList) ∧
      (∀ x ∈ o.properties.zip entries, Mirrors schemas x.1.ty x.2.2) ∧
      (o.properties = [] → ∀ s, o.shapeType = some s → Mirrors schemas s (.object [])) ∧
      ∀ k : String, Demands schemas (.reference name nullable description) k →
        units k.toList ∈ v.keys := by
  constructor
  · intro hv
    cases hv with
    | missing hget' =>
        rw [hget] at hget'
        cases hget'
    | enum hget' =>
        rw [hget] at hget'
        cases hget'
    | aliased hget' hcollection' =>
        obtain rfl := eq_of_get hget hget'
        rw [hcollection] at hcollection'
        cases hcollection'
    | object hget' _ hlength hkeys hvalues hbare hdemands =>
        obtain rfl := eq_of_get hget hget'
        exact ⟨_, rfl, hlength, hkeys, hvalues, hbare, hdemands⟩
  · rintro ⟨entries, rfl, hlength, hkeys, hvalues, hbare, hdemands⟩
    exact .object hget hcollection hlength hkeys hvalues hbare hdemands

theorem through_object : WritableThroughout schemas (.reference name nullable description) ↔
    Writable schemas (.reference name nullable description) ∧
      ∀ p ∈ o.properties, WritableThroughout schemas p.ty := by
  rw [writableThroughout_iff]
  simp only [exampleCalls_reference hget, literalTypes_of_collection hcollection, propertyTypes,
    List.forall_mem_map]

/-- Other models are written property by property. -/
theorem spells_object (text : Property → List Char)
    (h : ∀ p ∈ o.properties, Spells schemas p.ty (text p)) :
    Spells schemas (.reference name nullable description)
      (JsonText.objectText (fun p => p.name.toList) text o.properties) := by
  refine ⟨⟨'\x7b', _, rfl, rfl, by decide, by decide⟩, fun hw => ?_, ?_⟩
  · obtain ⟨hself, hparts⟩ := (through_object hget hcollection).mp hw
    have hvalue : ∀ p : Property, ∃ v, p ∈ o.properties →
        ReadAs (text p) v ∧ Mirrors schemas p.ty v := by
      intro p
      by_cases hp : p ∈ o.properties
      · obtain ⟨v, hv⟩ := (h p hp).writes (hparts p hp)
        exact ⟨v, fun _ => hv⟩
      · exact ⟨.null, fun hp' => absurd hp' hp⟩
    choose tree htree using hvalue
    have hnames : ∀ p ∈ o.properties, ∀ c ∈ p.name.toList, Plain c :=
      fun p hp => hself.names p.name (.property hget hcollection hp)
    refine ⟨_, JsonText.readAs_object tree fun p hp => ⟨hnames p hp, (htree p hp).1⟩, ?_⟩
    rw [mirrors_object hget hcollection]
    refine ⟨_, rfl, List.length_map _, ?_, ?_, fun hnil s hs => ?_, fun k hk => ?_⟩
    · rw [← List.map_prod_left_eq_zip, List.forall_mem_map]
      exact fun p _ => rfl
    · rw [← List.map_prod_left_eq_zip, List.forall_mem_map]
      exact fun p hp => (htree p hp).2
    · exact hself.bare _ _ _ o s rfl hget hcollection hnil hs
    · obtain ⟨p, hp, rfl⟩ := List.mem_map.mp ((shows_object hget hcollection).mp (hself.keys k hk))
      rw [Tree.keys, List.map_map]
      exact List.mem_map_of_mem hp
  · refine (JsonText.insists_object (fun p => p.name.toList) text o.properties
      fun p hp => (h p hp).insists).imp ?_ ?_
    · rintro v hv es rfl x hx
      obtain ⟨entries, heq, -, hkeys, hvalues, -⟩ := (mirrors_object hget hcollection).mp hv
      cases heq
      exact ⟨Or.inr (hkeys x hx), hvalues x hx⟩
    · rintro v hv ⟨es, rfl, hes⟩
      obtain ⟨entries, heq, -, -, -, hbare, hdemands⟩ := (mirrors_object hget hcollection).mp hv
      cases heq
      have hshows : ∀ k : String, units k.toList ∈ (Tree.object es).keys ↔
          Shows schemas (.reference name nullable description) k := by
        intro k
        rw [shows_object hget hcollection, keys_of_forall₂ hes, List.mem_map, List.mem_map]
        simp only [units_string_inj]
      refine ⟨(through_object hget hcollection).mpr ⟨⟨nofun, ?_, ?_, ?_, ?_⟩, ?_⟩, hshows⟩
      · rw [enumValue_object hget]
        exact nofun
      · intro k hk
        obtain ⟨p, hp, rfl⟩ := List.mem_map.mp ((shows_object hget hcollection).mp hk)
        obtain ⟨e, -, hplain, -⟩ := forall₂_mem_left hes hp
        exact hplain
      · exact fun k hk => (hshows k).mp (hdemands k hk)
      · rintro _ _ _ o' s ⟨⟩ hget' - hnil hs
        obtain rfl := eq_of_get hget hget'
        exact hbare hnil s hs
      · intro p hp
        obtain ⟨e, -, -, -, hw, -⟩ := forall₂_mem_left hes hp
        exact hw

end Properties

end Model

/-! ## §4  Examples -/

theorem toList_quoted (s : String) : ("\"" ++ s ++ "\"").toList = '"' :: (s.toList ++ ['"']) := by
  rw [String.toList_append, String.toList_append, List.append_assoc]
  rfl

/-- A fixed quoted text. -/
theorem spells_quoted {t : IrType} {s : String} (h : Leaf schemas t)
    (hbinary : t ≠ .scalar .binary) (hvalue : enumValue schemas t = none)
    (hplain : ∀ c ∈ s.toList, Plain c) (hmirrors : ∀ v, Mirrors schemas t v) :
    Spells schemas t ("\"" ++ s ++ "\"").toList := by
  rw [toList_quoted]
  refine spells_fixed h hbinary hvalue (opens_quoted _) (fun n rest _ => ?_) rfl
    (hmirrors (.string (units s.toList)))
  rw [List.cons_append, List.append_assoc, List.singleton_append, JsonText.value_quoted,
    JsonText.string_append rest hplain]
  rfl

theorem spells_enumLiteral {t : IrType} {first : Option String} (h : Leaf schemas t)
    (hbinary : t ≠ .scalar .binary) (hvalue : enumValue schemas t = first)
    (hmirrors : ∀ v, Mirrors schemas t v ↔ ∀ s, first = some s → v = .string (units s.toList)) :
    Spells schemas t (enumLiteral first).toList := by
  cases first with
  | none =>
      have hplain := JsonText.plain_of_all (show ("enum_value".toList.all _) = true by decide)
      exact spells_quoted h hbinary hvalue hplain fun v => (hmirrors v).mpr nofun
  | some s =>
      rw [enumLiteral, toList_quoted]
      refine spells_enumValue h hbinary hvalue fun v => (hmirrors v).trans ?_
      constructor
      · exact fun hv => hv s rfl
      · rintro hv _ ⟨⟩
        exact hv

/-- The text for binary data is no JSON. -/
theorem spells_binary : Spells schemas (.scalar .binary) (scalarLiteral .binary).toList where
  opens := ⟨'n', _, rfl, rfl, by decide, by decide⟩
  writes hw := absurd rfl (hw _ .refl).notBinary
  insists := JsonText.insists_of_none fun _ _ => rfl

theorem spells_scalar (s : Scalar) : Spells schemas (.scalar s) (scalarLiteral s).toList := by
  cases s with
  | string =>
      exact spells_quoted trivial nofun rfl (s := "example") (JsonText.plain_of_all (by decide))
        fun _ => .scalar
  | dateTime =>
      exact spells_quoted trivial nofun rfl (s := "2024-01-01T00:00:00Z")
        (JsonText.plain_of_all (by decide)) fun _ => .scalar
  | uuid =>
      exact spells_quoted trivial nofun rfl (s := "550e8400-e29b-41d4-a716-446655440000")
        (JsonText.plain_of_all (by decide)) fun _ => .scalar
  | integer | integer64 =>
      exact spells_fixed trivial nofun rfl ⟨'1', _, rfl, rfl, by decide, by decide⟩
        (fun n rest hrest => JsonText.value_one n hrest) rfl .scalar
  | float =>
      exact spells_fixed trivial nofun rfl ⟨'1', _, rfl, rfl, by decide, by decide⟩
        (fun n rest hrest => JsonText.value_onePointZero n hrest) rfl .scalar
  | boolean | base64 =>
      exact spells_fixed trivial nofun rfl ⟨'t', _, rfl, rfl, by decide, by decide⟩
        (fun n rest _ => JsonText.value_true n rest) rfl .scalar
  | binary => exact spells_binary

/-- The text of an empty object. -/
theorem spells_braces {t : IrType} (h : Leaf schemas t) (hbinary : t ≠ .scalar .binary)
    (hvalue : enumValue schemas t = none) (hmirrors : Mirrors schemas t (.object [])) :
    Spells schemas t "\x7b\x7d".toList :=
  spells_fixed h hbinary hvalue ⟨'\x7b', _, rfl, rfl, by decide, by decide⟩
    (fun n rest _ => JsonText.value_emptyObject n rest) rfl hmirrors

theorem spells_null {t : IrType} (h : Leaf schemas t) (hbinary : t ≠ .scalar .binary)
    (hvalue : enumValue schemas t = none) (hmirrors : Mirrors schemas t .null) :
    Spells schemas t "null".toList :=
  spells_fixed h hbinary hvalue ⟨'n', _, rfl, rfl, by decide, by decide⟩
    (fun n rest _ => JsonText.value_null n rest) rfl hmirrors

theorem toList_array (inner : String) :
    ("[" ++ inner ++ "]").toList = JsonText.arrayText inner.toList := by
  rw [String.toList_append, String.toList_append, List.append_assoc]
  rfl

theorem toList_map (inner : String) : (jsonSyntax.map inner).toList = mapText inner.toList := by
  simp only [jsonSyntax, mapText, JsonText.objectText, JsonText.entryText, List.map_singleton,
    JsonText.joined_singleton, String.toList_append, List.append_assoc]
  rfl

theorem toList_object (indent : ℕ) (props : List Property) (text : Property → String) :
    (jsonSyntax.object indent (props.map fun p => (p.name, text p))).toList =
      JsonText.objectText (fun p => p.name.toList) (fun p => (text p).toList) props := by
  have hentry : ∀ p : Property, ("\"" ++ p.name ++ "\":" ++ text p).toList =
      JsonText.entryText p.name.toList (text p).toList := by
    intro p
    rw [String.toList_append, String.toList_append, String.toList_append, List.append_assoc,
      List.append_assoc]
    rfl
  have hjoin : (Text.join "," (props.map fun p => "\"" ++ p.name ++ "\":" ++ text p)).toList =
      JsonText.joined (props.map fun p => JsonText.entryText p.name.toList (text p).toList) := by
    rw [Text.join, String.toList_intercalate, List.map_map]
    exact congrArg _ (List.map_congr_left fun p _ => hentry p)
  dsimp only [jsonSyntax]
  rw [String.toList_append, String.toList_append, List.append_assoc, List.map_map, JsonText.objectText,
    ← hjoin]
  rfl

theorem eq_map_of_mapM {α β : Type} {f : α → Option β} {g : α → β} {l : List α} {bs : List β}
    (hg : ∀ a b, f a = some b → g a = b) (h : l.mapM f = some bs) : bs = l.map g := by
  have hmap : List.Forall₂ (· = ·) (l.map g) bs :=
    List.forall₂_map_left_iff.mpr ((mapM_eq_some.mp h).imp fun a b => hg a b)
  rw [List.forall₂_eq_eq_eq] at hmap
  exact hmap.symm

section Recursion

variable {recurse : IrType → ℕ → Option String}
  (hrecurse : ∀ t i s, recurse t i = some s → Spells schemas t s.toList)
include hrecurse

theorem spells_objectLiteral {name : String} {nullable : Bool} {description : Option String}
    {o : ObjectModel} (hget : schemas.get name = some (.object o)) (hcollection : collection o = none)
    {indent : ℕ} {s : String} (h : objectLiteral jsonSyntax recurse o indent = some s) :
    Spells schemas (.reference name nullable description) s.toList := by
  unfold objectLiteral at h
  split at h
  · next hempty =>
      have hnil : o.properties = [] := List.isEmpty_iff.mp hempty
      have hspells : Spells schemas (.reference name nullable description)
          (JsonText.objectText (fun p => p.name.toList) (fun _ => []) o.properties) := by
        apply spells_object hget hcollection
        rw [hnil]
        exact List.forall_mem_nil _
      rw [hnil] at hspells
      rw [← Option.some.inj h]
      exact hspells
  · obtain ⟨props, hprops, rfl⟩ := Option.map_eq_some_iff.mp h
    have hmap := eq_map_of_mapM (g := fun p => (p.name, (recurse p.ty (indent + 1)).getD ""))
      (fun p e he => ?_) hprops
    · rw [hmap, toList_object]
      refine spells_object hget hcollection _ fun p hp => ?_
      obtain ⟨e, -, he⟩ := forall₂_mem_left (mapM_eq_some.mp hprops) hp
      obtain ⟨val, hval, -⟩ := Option.map_eq_some_iff.mp he
      rw [hval]
      exact hrecurse _ _ _ hval
    · obtain ⟨val, hval, rfl⟩ := Option.map_eq_some_iff.mp he
      rw [hval]
      rfl

theorem spells_model {name : String} {nullable : Bool} {description : Option String} {m : Model}
    (hget : schemas.get name = some m) {indent : ℕ} {s : String}
    (h : modelLiteral jsonSyntax recurse indent m = some s) :
    Spells schemas (.reference name nullable description) s.toList := by
  cases m with
  | enum e =>
      rw [← Option.some.inj h]
      refine spells_enumLiteral ?_ nofun ?_ fun v => ?_
      · intro o ho
        rw [hget] at ho
        cases ho
      · simp only [enumValue, hget]
      · exact mirrors_enum hget
  | object o =>
      dsimp only [modelLiteral] at h
      split at h
      · next item nullable' hshape =>
          obtain ⟨inner, hinner, rfl⟩ := Option.map_eq_some_iff.mp h
          rw [toList_array]
          apply spells_aliased hget (s := .array item nullable')
          · rw [collection, hshape]
          · exact spells_array (hrecurse _ _ _ hinner)
      · next value hshape =>
          obtain ⟨inner, hinner, rfl⟩ := Option.map_eq_some_iff.mp h
          rw [toList_map]
          apply spells_aliased hget (s := .map value)
          · rw [collection, hshape]
          · exact spells_map (hrecurse _ _ _ hinner)
      · next hnotArray hnotMap =>
          refine spells_objectLiteral hrecurse hget ?_ h
          unfold collection
          split
          · next hshape => exact absurd hshape (hnotArray _ _)
          · next hshape => exact absurd hshape (hnotMap _)
          · rfl

end Recursion

/-- **What the generators write is read as a body of the type, or nothing is.** -/
theorem spells_generateLiteral (n : ℕ) : ∀ (t : IrType) (indent : ℕ) (s : String),
    generateLiteral jsonSyntax schemas n t indent = some s → Spells schemas t s.toList := by
  induction n with
  | zero =>
      intro t indent s h
      cases h
  | succ n ih =>
      intro t indent s h
      unfold generateLiteral at h
      rcases t with scalar | ⟨variants, nullable⟩ | ⟨item, nullable⟩ | value
        | ⟨name, nullable, description⟩ | ⟨kind, members, discriminator⟩ | _ | _
      · rw [← Option.some.inj h]
        exact spells_scalar scalar
      · rw [← Option.some.inj h]
        refine spells_enumLiteral trivial (fun h => by cases h) rfl fun v => ?_
        constructor
        · rintro ⟨⟩
          assumption
        · exact .stringEnum
      · obtain ⟨inner, hinner, rfl⟩ := Option.map_eq_some_iff.mp h
        rw [toList_array]
        exact spells_array (ih _ _ _ hinner)
      · obtain ⟨inner, hinner, rfl⟩ := Option.map_eq_some_iff.mp h
        rw [toList_map]
        exact spells_map (ih _ _ _ hinner)
      · dsimp only at h
        cases hget : schemas.get name with
        | none =>
            rw [hget] at h
            rw [← Option.some.inj h]
            refine spells_braces ?_ (fun h => by cases h) ?_ (.missing hget)
            · intro o ho
              rw [hget] at ho
              cases ho
            · simp only [enumValue, hget]
        | some m =>
            rw [hget] at h
            exact spells_model ih hget h
      · rcases members with _ | ⟨m, ms⟩
        · rw [← Option.some.inj h]
          exact spells_braces rfl (fun h => by cases h) rfl .empty
        · exact spells_first (ih _ _ _ h)
      · rw [← Option.some.inj h]
        exact spells_null trivial (fun h => by cases h) rfl .any
      · rw [← Option.some.inj h]
        exact spells_null trivial (fun h => by cases h) rfl .unknown

end

/-- What the literals of a type contain is consulted for the type. -/
theorem literalCalls_wellFounded {reg : SchemaRegistry} (hac : reg.AcyclicRefs) :
    WellFounded fun s t => ExampleCalls literalTypes reg t s := by
  refine Subrelation.wf ?_ (consults_wellFounded hac).transGen
  intro s t hcalls
  cases hcalls with
  | item => exact .single .item
  | entry => exact .single .entry
  | first => exact .single (.member List.mem_cons_self)
  | model hget hmem =>
      unfold literalTypes at hmem
      split at hmem
      · next hshape =>
          obtain rfl := List.mem_singleton.mp hmem
          exact .head .item (.single (.shape hget hshape))
      · next hshape =>
          obtain rfl := List.mem_singleton.mp hmem
          exact .head .entry (.single (.shape hget hshape))
      · obtain ⟨p, hp, rfl⟩ := List.mem_map.mp hmem
        exact .single (.property hget hp)

/-- Both generators write the same text for the type, and it is JSON for a value of the type. -/
def BodyMirrors (d : Document) (t : IrType) : Prop :=
  ∃ text v, Returns (fun n => generateRustExample n t d.schemas) text ∧
    Returns (fun n => generateGoExample n t d.schemas) text ∧
    Parses text.toList v ∧ Mirrors d.schemas t v

theorem writable_of_bodyMirrors {d : Document} {t : IrType} (h : BodyMirrors d t) :
    WritableThroughout d.schemas t := by
  obtain ⟨text, v, ⟨n, hn⟩, -, hparses, hmirrors⟩ := h
  exact ((spells_generateLiteral n t 0 text hn).insists.of_parses hparses hmirrors).1

/-- **A generated body is JSON with the names and the enum values of its type if and only if nothing
in the example of the type goes wrong.** -/
theorem bodyMirrors_iff {d : Document} (hac : d.schemas.AcyclicRefs) (t : IrType) :
    BodyMirrors d t ↔ WritableThroughout d.schemas t := by
  constructor
  · exact writable_of_bodyMirrors
  · intro hw
    obtain ⟨text, n, hn⟩ : ∃ text, Returns (fun n => generateLiteral jsonSyntax d.schemas n t 0)
        text := generateLiteral_iff_acc.mpr ((literalCalls_wellFounded hac).apply t)
    obtain ⟨v, hread, hmirrors⟩ := (spells_generateLiteral n t 0 text hn).writes hw
    exact ⟨text, v, ⟨n, hn⟩, ⟨n, hn⟩, hread.parses, hmirrors⟩

/-- A document whose one operation answers with the enum. -/
theorem enumTags_resolved (value : String) : ∃ d op e,
    resolve (tagsSpec (enumTags value)) = .ok d ∧ d.operations = [op] ∧
    firstSuccessBody op = some (.reference "Tags" false none) ∧
    d.schemas.models.entries = [("Tags", .enum e)] ∧ d.schemas.get "Tags" = some (.enum e) ∧
    e.variants.head?.map (·.value) = some value :=
  ⟨_, _, _, rfl, rfl, rfl, rfl, rfl, rfl⟩

theorem writableThroughout_enum {schemas : SchemaRegistry} {name value : String} {nullable : Bool}
    {description : Option String} {e : EnumModel} (hget : schemas.get name = some (.enum e))
    (hvalue : e.variants.head?.map (·.value) = some value) :
    WritableThroughout schemas (.reference name nullable description) ↔
      ∀ c ∈ value.toList, Plain c := by
  have hleaf : Leaf schemas (.reference name nullable description) := by
    intro o ho
    rw [hget] at ho
    cases ho
  rw [writableThroughout_leaf hleaf nofun]
  simp only [enumValue, hget, hvalue, Option.some.injEq, forall_eq']

theorem red_mirrored : ∃ d, resolve (tagsSpec (enumTags "red")) = .ok d ∧
    BodyMirrors d (.reference "Tags" false none) := by
  obtain ⟨d, op, e, hd, -, -, hentries, hget, hvalue⟩ := enumTags_resolved "red"
  refine ⟨d, hd, (bodyMirrors_iff (acyclicRefs_enum hentries) _).mpr ?_⟩
  rw [writableThroughout_enum hget hvalue]
  exact JsonText.plain_of_all (by decide)

/-- A quote in an enum value ends the string. -/
theorem quote_not_mirrored : ¬ ∀ spec d op t, resolve spec = .ok d → d.schemas.AcyclicRefs →
    op ∈ d.operations → firstSuccessBody op = some t → BodyMirrors d t := by
  intro h
  obtain ⟨d, op, e, hd, hops, hbody, hentries, hget, hvalue⟩ := enumTags_resolved "a\"b"
  have hop : op ∈ d.operations := by
    rw [hops]
    exact List.mem_singleton_self op
  have hwritable := writable_of_bodyMirrors (h _ d op _ hd (acyclicRefs_enum hentries) hop hbody)
  rw [writableThroughout_enum hget hvalue] at hwritable
  exact (hwritable '"' (by decide)).1 rfl

end SpecForge.ExampleBodies
