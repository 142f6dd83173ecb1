import SpecForge.Core.JsonWriter
import SpecForge.Core.Serialize

/-!
# What is left when the keys are sorted

A value made for what is serialised has its objects sorted (§1). The IR can still be read off such
a value, but for the order of the keys in the mappings of discriminators: they are the only keys
that come from the document and stand in no list.

- §2 equalities up to a relation between mappings; §3 the views of a value that keep enough.
- §4 types; §5 models; §6 operations.
-/

namespace SpecForge

open Lib (IndexMap)
open Json (Numberless)

/-! ## §1  Sorted values -/

namespace Json

mutual

/-- `to_value`, for what a serialisation writes. -/
def toValue : Value → Value
  | .null => .null
  | .bool b => .bool b
  | .number n => .number n
  | .string s => .string s
  | .array items => .array (toValues items)
  | .object entries => .object (Lib.BTreeMap.collect (toValueEntries entries))

def toValues : List Value → List Value
  | [] => []
  | v :: vs => toValue v :: toValues vs

def toValueEntries : List (String × Value) → List (String × Value)
  | [] => []
  | (k, v) :: es => (k, toValue v) :: toValueEntries es

end

theorem toValues_eq_map (items : List Value) : toValues items = items.map toValue := by
  induction items with
  | nil => rfl
  | cons v vs ih => rw [toValues, ih, List.map_cons]

theorem toValueEntries_eq_map (entries : List (String × Value)) :
    toValueEntries entries = Lib.BTreeMap.mapEntries (fun _ => toValue) entries := by
  induction entries with
  | nil => rfl
  | cons e es ih =>
      rw [toValueEntries, ih]
      rfl

theorem get_toValue {entries : List (String × Value)} (hnd : (entries.map Prod.fst).Nodup)
    (k : String) : (toValue (.object entries)).get k = (entries.lookup k).map toValue := by
  rw [toValue, Value.get_object, toValueEntries_eq_map, Lib.BTreeMap.lookup_collect,
    ← Lib.BTreeMap.lookup_mapEntries (f := fun _ => toValue) k entries]
  apply Lib.lookup_perm (List.reverse_perm _)
  rw [List.map_reverse, List.nodup_reverse, Lib.BTreeMap.mapEntries, List.map_map]
  exact hnd

theorem Numberless.toValue {v : Value} (h : Numberless v) : Numberless (Json.toValue v) := by
  induction h with
  | null => exact .null
  | bool b => exact .bool b
  | string s => exact .string s
  | @array items _ ih =>
      rw [Json.toValue, toValues_eq_map]
      refine .array fun v hv => ?_
      obtain ⟨w, hw, rfl⟩ := List.mem_map.mp hv
      exact ih w hw
  | @object entries _ ih =>
      rw [Json.toValue, toValueEntries_eq_map]
      refine .object fun e he => ?_
      obtain ⟨e', he', rfl⟩ := List.mem_map.mp (Lib.BTreeMap.mem_of_mem_collect he)
      exact ih e' he'

end Json

/-! ## §2  Up to a relation -/

section UpTo

variable {α β M : Type} {S : M → M → Prop} {l l' r r' : List M} {P Q : Prop}

/-- The lists are as long as each other, and once their members are related one by one, `P` holds.
-/
def UpTo (S : M → M → Prop) (l l' : List M) (P : Prop) : Prop :=
  l.length = l'.length ∧ ((∀ p ∈ l.zip l', S p.1 p.2) → P)

theorem UpTo.nil (h : P) : UpTo S [] [] P := ⟨rfl, fun _ => h⟩

theorem UpTo.imp (h : UpTo S l l' P) (hPQ : P → Q) : UpTo S l l' Q :=
  ⟨h.1, fun hall => hPQ (h.2 hall)⟩

theorem UpTo.append (h : UpTo S l l' P) (h' : UpTo S r r' Q) :
    UpTo S (l ++ r) (l' ++ r') (P ∧ Q) := by
  refine ⟨by rw [List.length_append, List.length_append, h.1, h'.1], fun hall => ?_⟩
  rw [List.zip_append h.1, List.forall_mem_append] at hall
  exact ⟨h.2 hall.1, h'.2 hall.2⟩

/-- Lists with images that are equal one by one. -/
theorem UpTo.map {f : α → β} {maps : α → List M} {as bs : List α}
    (h : ∀ a ∈ as, ∀ b ∈ bs, f a = f b → UpTo S (maps a) (maps b) (a = b))
    (heq : as.map f = bs.map f) : UpTo S (as.flatMap maps) (bs.flatMap maps) (as = bs) := by
  induction as generalizing bs with
  | nil =>
      rw [List.map_nil, eq_comm, List.map_eq_nil_iff] at heq
      rw [heq]
      exact .nil rfl
  | cons a as ih =>
      cases bs with
      | nil => cases heq
      | cons b bs =>
          rw [List.map_cons, List.map_cons, List.cons.injEq] at heq
          have hhead := h a List.mem_cons_self b List.mem_cons_self heq.1
          have htail := ih (fun x hx y hy =>
            h x (List.mem_cons_of_mem a hx) y (List.mem_cons_of_mem b hy)) heq.2
          refine (hhead.append htail).imp ?_
          rintro ⟨rfl, rfl⟩
          rfl

end UpTo

/-! ## §3  Views -/

def mappingValue (m : IndexMap String String) : Value :=
  .object (m.entries.map fun e => (e.1, .string e.2))

/-- What is seen of a value: all of it, but perhaps the order of its keys. `Same` is what two
mappings that look the same must have in common to be the same. -/
structure View where
  view : Value → Value
  null : view .null = .null
  bool : ∀ b, view (.bool b) = .bool b
  string : ∀ s, view (.string s) = .string s
  array : ∀ items, view (.array items) = .array (items.map view)
  isObject : ∀ entries, (view (.object entries)).isObject = true
  get : ∀ entries k, (entries.map Prod.fst).Nodup →
    (view (.object entries)).get k = (entries.lookup k).map view
  Same : IndexMap String String → IndexMap String String → Prop
  mapping : ∀ m m', view (mappingValue m) = view (mappingValue m') → Same m m' → m = m'

namespace Lib.IndexMap

theorem entries_eq {V : Type} (m : IndexMap String V) :
    m.entries = m.keys.filterMap fun k => (m.get k).map fun v => (k, v) := by
  unfold keys
  rw [List.filterMap_map]
  conv_lhs => rw [← List.filterMap_some (l := m.entries)]
  refine List.filterMap_congr fun e he => ?_
  rw [Function.comp_apply, mem_entries_iff.mp he, Option.map_some]

theorem ext_of_get {V : Type} {m m' : IndexMap String V} (hkeys : m.keys = m'.keys)
    (hget : ∀ k, m.get k = m'.get k) : m = m' := by
  apply IndexMap.ext
  rw [entries_eq, entries_eq, hkeys, funext hget]

end Lib.IndexMap

/-- The value as it is written. -/
def View.written : View where
  view := id
  null := rfl
  bool _ := rfl
  string _ := rfl
  array items := by rw [List.map_id]; rfl
  isObject _ := rfl
  get entries k _ := by rw [Option.map_id]; rfl
  Same _ _ := True
  mapping m m' heq _ := by
    apply IndexMap.ext
    have hinj : Function.Injective fun e : String × String => (e.1, Value.string e.2) := by
      rintro ⟨k, v⟩ ⟨k', v'⟩ h
      simpa using h
    exact List.map_injective_iff.mpr hinj (Value.object.inj heq)

theorem nodup_mappingValue (m : IndexMap String String) :
    ((m.entries.map fun e => (e.1, Value.string e.2)).map Prod.fst).Nodup := by
  rw [List.map_map]
  exact m.nodup

theorem get_mappingValue (m : IndexMap String String) (k : String) :
    (m.entries.map fun e => (e.1, Value.string e.2)).lookup k = (m.get k).map .string :=
  Lib.BTreeMap.lookup_mapEntries (f := fun _ => Value.string) k m.entries

/-- The value with its keys sorted. -/
def View.sorted : View where
  view := Json.toValue
  null := rfl
  bool _ := rfl
  string _ := rfl
  array items := by rw [Json.toValue, Json.toValues_eq_map]
  isObject _ := rfl
  get _ k hnd := Json.get_toValue hnd k
  Same m m' := m.keys = m'.keys
  mapping m m' heq hkeys := by
    refine IndexMap.ext_of_get hkeys fun k => ?_
    have hk := congrArg (·.get k) heq
    simp only [mappingValue, Json.get_toValue (nodup_mappingValue _), get_mappingValue,
      Option.map_map] at hk
    refine Option.map_injective ?_ hk
    intro s t hst
    simpa [Json.toValue] using hst

namespace View

attribute [simp] View.null View.bool View.string View.array

variable {V : View} {entries entries' : List (String × Value)}

/-- Objects that look the same have fields that do. -/
theorem field (heq : V.view (.object entries) = V.view (.object entries'))
    (hnd : (entries.map Prod.fst).Nodup) (hnd' : (entries'.map Prod.fst).Nodup) {v v' : Value}
    (k : String) (hv : entries.lookup k = some v) (hv' : entries'.lookup k = some v') :
    V.view v = V.view v' := by
  have hk := congrArg (·.get k) heq
  simp only [V.get _ k hnd, V.get _ k hnd', hv, hv', Option.map_some] at hk
  exact Option.some.inj hk

@[simp] theorem object_ne_null : V.view (.object entries) ≠ .null := by
  intro h
  have hobject := V.isObject entries
  rw [h] at hobject
  cases hobject

@[simp] theorem object_ne_string {s : String} : V.view (.object entries) ≠ .string s := by
  intro h
  have hobject := V.isObject entries
  rw [h] at hobject
  cases hobject

@[simp] theorem string_ne_object {s : String} : .string s ≠ V.view (.object entries) :=
  object_ne_string.symm

theorem variant_inj {tag tag' : String} {v v' : Value}
    (heq : V.view (serializeVariant tag v) = V.view (serializeVariant tag' v')) :
    tag = tag' ∧ V.view v = V.view v' := by
  have hself : ∀ (t : String) (w : Value), [(t, w)].lookup t = some w :=
    fun t w => Lib.lookup_cons_self rfl
  have htag := congrArg (·.get tag) heq
  simp only [serializeVariant] at htag
  rw [V.get [(tag, v)] _ (List.nodup_singleton tag),
    V.get [(tag', v')] _ (List.nodup_singleton tag'), hself] at htag
  by_cases hne : tag = tag'
  · subst hne
    rw [hself] at htag
    exact ⟨rfl, Option.some.inj htag⟩
  · have hother : [(tag', v')].lookup tag = none := Lib.lookup_cons_ne hne
    rw [hother] at htag
    cases htag

@[simp] theorem variant_ne {tag tag' : String} (hne : tag ≠ tag') {v v' : Value} :
    V.view (serializeVariant tag v) ≠ V.view (serializeVariant tag' v') :=
  fun heq => hne (variant_inj heq).1

@[simp] theorem variant_ne_string {tag s : String} {v : Value} :
    V.view (serializeVariant tag v) ≠ .string s :=
  object_ne_string

@[simp] theorem string_ne_variant {tag s : String} {v : Value} :
    .string s ≠ V.view (serializeVariant tag v) :=
  string_ne_object

@[simp] theorem text_eq_iff {o o' : Option String} :
    V.view (serializeOption .string o) = V.view (serializeOption .string o') ↔ o = o' := by
  cases o <;> cases o' <;> simp [serializeOption]

theorem option_upTo {α M : Type} {S : M → M → Prop} {f : α → Value} {maps : α → List M}
    (hnull : ∀ a, V.view (f a) ≠ .null)
    (h : ∀ a b, V.view (f a) = V.view (f b) → UpTo S (maps a) (maps b) (a = b)) {o o' : Option α}
    (heq : V.view (serializeOption f o) = V.view (serializeOption f o')) :
    UpTo S (o.elim [] maps) (o'.elim [] maps) (o = o') := by
  cases o with
  | none =>
      cases o' with
      | none => exact .nil rfl
      | some b =>
          simp only [serializeOption, V.null] at heq
          exact absurd heq.symm (hnull b)
  | some a =>
      cases o' with
      | none =>
          simp only [serializeOption, V.null] at heq
          exact absurd heq (hnull a)
      | some b =>
          refine (h a b heq).imp ?_
          rintro rfl
          rfl

theorem array_upTo {α M : Type} {S : M → M → Prop} {f : α → Value} {maps : α → List M}
    (h : ∀ a b, V.view (f a) = V.view (f b) → UpTo S (maps a) (maps b) (a = b)) {l l' : List α}
    (heq : V.view (.array (l.map f)) = V.view (.array (l'.map f))) :
    UpTo S (l.flatMap maps) (l'.flatMap maps) (l = l') := by
  simp only [V.array, Value.array.injEq, List.map_map] at heq
  exact UpTo.map (fun a _ b _ => h a b) heq

theorem array_inj {α : Type} {f : α → Value} (h : ∀ a b, V.view (f a) = V.view (f b) → a = b)
    {l l' : List α} (heq : V.view (.array (l.map f)) = V.view (.array (l'.map f))) : l = l' := by
  simp only [V.array, Value.array.injEq, List.map_map] at heq
  exact List.map_injective_iff.mpr h heq

end View

/-! ## §4  Types -/

def Discriminator.mappings (d : Discriminator) : List (IndexMap String String) := d.mapping.toList

mutual

/-- The mappings in a type, as they come in what is written of it. -/
def IrType.mappings : IrType → List (IndexMap String String)
  | .array item _ => item.mappings
  | .map value => value.mappings
  | .composition _ members d => membersMappings members ++ d.elim [] Discriminator.mappings
  | _ => []

def membersMappings : List IrType → List (IndexMap String String)
  | [] => []
  | m :: ms => m.mappings ++ membersMappings ms

end

section Types

variable {V : View}

theorem Scalar.serialize_inj {s s' : Scalar} (heq : V.view s.serialize = V.view s'.serialize) :
    s = s' := by
  cases s <;> cases s' <;> simp [Scalar.serialize] at heq ⊢

theorem CompositionKind.serialize_inj {k k' : CompositionKind}
    (heq : V.view k.serialize = V.view k'.serialize) : k = k' := by
  cases k <;> cases k' <;> simp [CompositionKind.serialize] at heq ⊢

theorem Discriminator.upTo {d d' : Discriminator}
    (heq : V.view d.serialize = V.view d'.serialize) :
    UpTo V.Same d.mappings d'.mappings (d = d') := by
  have hname := View.field heq (by simp) (by simp) "property_name" rfl rfl
  have hmapping := View.field heq (by simp) (by simp) "mapping" rfl rfl
  have hone : ∀ m m', V.view (mappingValue m) = V.view (mappingValue m') →
      UpTo V.Same [m] [m'] (m = m') := by
    intro m m' h
    refine ⟨rfl, fun hall => V.mapping m m' h ?_⟩
    exact hall (m, m') List.mem_cons_self
  have hoption := View.option_upTo (fun m => View.object_ne_null) hone hmapping
  obtain ⟨n, m⟩ := d
  obtain ⟨n', m'⟩ := d'
  have hsingle : ∀ o : Option (IndexMap String String), o.elim [] (fun m => [m]) = o.toList := by
    rintro (_ | m) <;> rfl
  rw [hsingle, hsingle] at hoption
  refine hoption.imp ?_
  rintro rfl
  simpa using hname

@[simp] theorem IrType.serialize_ne_null (t : IrType) : V.view t.serialize ≠ .null := by
  cases t <;> simp [IrType.serialize, serializeVariant]

mutual

theorem IrType.upTo : ∀ {t t' : IrType}, V.view t.serialize = V.view t'.serialize →
    UpTo V.Same t.mappings t'.mappings (t = t')
  | .scalar s, t', heq => by
      cases t' with
      | scalar s' =>
          rw [Scalar.serialize_inj (View.variant_inj heq).2]
          exact .nil rfl
      | _ => simp [IrType.serialize] at heq
  | .stringEnum vs b, t', heq => by
      cases t' with
      | stringEnum vs' b' =>
          have hdata := (View.variant_inj heq).2
          have hvs := View.array_inj (fun s s' h => by simpa using h)
            (View.field hdata (by simp) (by simp) "variants" rfl rfl)
          have hb := View.field hdata (by simp) (by simp) "nullable" rfl rfl
          rw [hvs, show b = b' by simpa using hb]
          exact .nil rfl
      | _ => simp [IrType.serialize] at heq
  | .array item b, t', heq => by
      cases t' with
      | array item' b' =>
          have hdata := (View.variant_inj heq).2
          have hitem := View.field hdata (by simp) (by simp) "item" rfl rfl
          have hb := View.field hdata (by simp) (by simp) "nullable" rfl rfl
          refine (IrType.upTo hitem).imp fun h => ?_
          rw [h, show b = b' by simpa using hb]
      | _ => simp [IrType.serialize] at heq
  | .map value, t', heq => by
      cases t' with
      | map value' =>
          have hdata := (View.variant_inj heq).2
          have hvalue := View.field hdata (by simp) (by simp) "value" rfl rfl
          exact (IrType.upTo hvalue).imp fun h => by rw [h]
      | _ => simp [IrType.serialize] at heq
  | .reference n b d, t', heq => by
      cases t' with
      | reference n' b' d' =>
          have hdata := (View.variant_inj heq).2
          have hn := View.field hdata (by simp) (by simp) "name" rfl rfl
          have hb := View.field hdata (by simp) (by simp) "nullable" rfl rfl
          have hd := View.field hdata (by simp) (by simp) "description" rfl rfl
          rw [show n = n' by simpa using hn, show b = b' by simpa using hb,
            View.text_eq_iff.mp hd]
          exact .nil rfl
      | _ => simp [IrType.serialize] at heq
  | .composition k ms d, t', heq => by
      cases t' with
      | composition k' ms' d' =>
          have hdata := (View.variant_inj heq).2
          have hk := View.field hdata (by simp) (by simp) "kind" rfl rfl
          have hms := View.field hdata (by simp) (by simp) "members" rfl rfl
          have hd := View.field hdata (by simp) (by simp) "discriminator" rfl rfl
          rw [V.array, V.array, Value.array.injEq] at hms
          have hdisc := View.option_upTo (fun d => View.object_ne_null)
            (fun d d' => Discriminator.upTo) hd
          refine ((membersUpTo hms).append hdisc).imp ?_
          rintro ⟨rfl, rfl⟩
          rw [CompositionKind.serialize_inj hk]
      | _ => simp [IrType.serialize] at heq
  | .any, t', heq => by
      cases t' with
      | any => exact .nil rfl
      | _ => simp [IrType.serialize] at heq
  | .unknown, t', heq => by
      cases t' with
      | unknown => exact .nil rfl
      | _ => simp [IrType.serialize] at heq

theorem membersUpTo : ∀ {ms ms' : List IrType},
    (serializeMembers ms).map V.view = (serializeMembers ms').map V.view →
      UpTo V.Same (membersMappings ms) (membersMappings ms') (ms = ms')
  | [], ms', heq => by
      cases ms' with
      | nil => exact .nil rfl
      | cons m' ms' => cases heq
  | m :: ms, ms', heq => by
      cases ms' with
      | nil => cases heq
      | cons m' ms' =>
          rw [serializeMembers, serializeMembers, List.map_cons, List.map_cons,
            List.cons.injEq] at heq
          refine ((IrType.upTo heq.1).append (membersUpTo heq.2)).imp ?_
          rintro ⟨rfl, rfl⟩
          rfl

end

end Types

/-! ## §5  Models -/

def Property.mappings (p : Property) : List (IndexMap String String) := p.ty.mappings

def typeMappings (t : Option IrType) : List (IndexMap String String) := t.elim [] IrType.mappings

def ObjectModel.mappings (o : ObjectModel) : List (IndexMap String String) :=
  o.properties.flatMap Property.mappings ++ (typeMappings o.additionalProperties ++
    (typeMappings o.shapeType ++ typeMappings o.baseType))

def Model.mappings : Model → List (IndexMap String String)
  | .object o => o.mappings
  | .enum _ => []

def SchemaRegistry.mappings (r : SchemaRegistry) : List (IndexMap String String) :=
  r.models.values.flatMap Model.mappings

section Models

variable {V : View}

theorem type_upTo {t t' : Option IrType}
    (heq : V.view (serializeOption IrType.serialize t) =
      V.view (serializeOption IrType.serialize t')) :
    UpTo V.Same (typeMappings t) (typeMappings t') (t = t') :=
  View.option_upTo IrType.serialize_ne_null (fun _ _ => IrType.upTo) heq

theorem Property.upTo {p p' : Property} (heq : V.view p.serialize = V.view p'.serialize) :
    UpTo V.Same p.mappings p'.mappings (p = p') := by
  have hname := View.field heq (by simp) (by simp) "name" rfl rfl
  have hty := View.field heq (by simp) (by simp) "ty" rfl rfl
  have hrequired := View.field heq (by simp) (by simp) "required" rfl rfl
  have hdescription := View.field heq (by simp) (by simp) "description" rfl rfl
  refine (IrType.upTo hty).imp fun h => ?_
  cases p
  cases p'
  simp_all

theorem ObjectModel.upTo {o o' : ObjectModel} (heq : V.view o.serialize = V.view o'.serialize) :
    UpTo V.Same o.mappings o'.mappings (o = o') := by
  have hname := View.field heq (by simp) (by simp) "name" rfl rfl
  have hdescription := View.field heq (by simp) (by simp) "description" rfl rfl
  have hproperties := View.field heq (by simp) (by simp) "properties" rfl rfl
  have hadditional := View.field heq (by simp) (by simp) "additional_properties" rfl rfl
  have hshape := View.field heq (by simp) (by simp) "shape_type" rfl rfl
  have hbase := View.field heq (by simp) (by simp) "base_type" rfl rfl
  have htypes := (type_upTo hadditional).append ((type_upTo hshape).append (type_upTo hbase))
  refine ((View.array_upTo (fun _ _ => Property.upTo) hproperties).append htypes).imp ?_
  rintro ⟨hps, hadds, hshapes, hbases⟩
  cases o
  cases o'
  simp_all

theorem EnumVariant.serialize_inj {v v' : EnumVariant}
    (heq : V.view v.serialize = V.view v'.serialize) : v = v' := by
  have hvalue := View.field heq (by simp) (by simp) "value" rfl rfl
  have hdescription := View.field heq (by simp) (by simp) "description" rfl rfl
  cases v
  cases v'
  simp_all

theorem EnumModel.serialize_inj {e e' : EnumModel} (heq : V.view e.serialize = V.view e'.serialize) :
    e = e' := by
  have hname := View.field heq (by simp) (by simp) "name" rfl rfl
  have hdescription := View.field heq (by simp) (by simp) "description" rfl rfl
  have hvariants := View.array_inj (fun _ _ => EnumVariant.serialize_inj)
    (View.field heq (by simp) (by simp) "variants" rfl rfl)
  cases e
  cases e'
  simp_all

theorem Model.upTo {m m' : Model} (heq : V.view m.serialize = V.view m'.serialize) :
    UpTo V.Same m.mappings m'.mappings (m = m') := by
  cases m with
  | object o =>
      cases m' with
      | object o' => exact (ObjectModel.upTo (View.variant_inj heq).2).imp fun h => by rw [h]
      | enum e' => simp [Model.serialize] at heq
  | enum e =>
      cases m' with
      | object o' => simp [Model.serialize] at heq
      | enum e' =>
          rw [EnumModel.serialize_inj (View.variant_inj heq).2]
          exact .nil rfl

end Models

/-! ## §6  Operations -/

def Parameter.mappings (p : Parameter) : List (IndexMap String String) := p.ty.mappings

def Response.mappings (r : Response) : List (IndexMap String String) := typeMappings r.body

def RequestBody.mappings (b : RequestBody) : List (IndexMap String String) := b.ty.mappings

def Operation.mappings (op : Operation) : List (IndexMap String String) :=
  op.parameters.flatMap Parameter.mappings ++ (op.requestBody.elim [] RequestBody.mappings ++
    op.responses.flatMap Response.mappings)

def Webhook.mappings (w : Webhook) : List (IndexMap String String) :=
  w.requestBody.elim [] RequestBody.mappings ++ w.responses.flatMap Response.mappings

/-- The mappings of the discriminators in a document, in the order in which they are written. -/
def Document.mappings (d : Document) : List (IndexMap String String) :=
  d.schemas.mappings ++ (d.operations.flatMap Operation.mappings ++
    d.webhooks.flatMap Webhook.mappings)

section Operations

variable {V : View}

theorem HttpMethod.serialize_inj {m m' : HttpMethod}
    (heq : V.view m.serialize = V.view m'.serialize) : m = m' := by
  cases m <;> cases m' <;> simp [HttpMethod.serialize] at heq ⊢

theorem ParamLocation.serialize_inj {l l' : ParamLocation}
    (heq : V.view l.serialize = V.view l'.serialize) : l = l' := by
  cases l <;> cases l' <;> simp [ParamLocation.serialize] at heq ⊢

theorem SecurityScheme.serialize_inj {s s' : SecurityScheme}
    (heq : V.view s.serialize = V.view s'.serialize) : s = s' := by
  cases s with
  | httpBearer => cases s' <;> simp [SecurityScheme.serialize] at heq ⊢
  | apiKey header =>
      cases s' with
      | httpBearer => simp [SecurityScheme.serialize] at heq
      | apiKey header' =>
          have hheader := View.field (View.variant_inj heq).2 (by simp) (by simp) "header" rfl rfl
          simpa using hheader

theorem Parameter.upTo {p p' : Parameter} (heq : V.view p.serialize = V.view p'.serialize) :
    UpTo V.Same p.mappings p'.mappings (p = p') := by
  have hname := View.field heq (by simp) (by simp) "name" rfl rfl
  have hlocation := ParamLocation.serialize_inj
    (View.field heq (by simp) (by simp) "location" rfl rfl)
  have hty := View.field heq (by simp) (by simp) "ty" rfl rfl
  have hrequired := View.field heq (by simp) (by simp) "required" rfl rfl
  have hdescription := View.field heq (by simp) (by simp) "description" rfl rfl
  refine (IrType.upTo hty).imp fun h => ?_
  cases p
  cases p'
  simp_all

theorem Response.upTo {r r' : Response} (heq : V.view r.serialize = V.view r'.serialize) :
    UpTo V.Same r.mappings r'.mappings (r = r') := by
  have hstatus := View.field heq (by simp) (by simp) "status" rfl rfl
  have hdescription := View.field heq (by simp) (by simp) "description" rfl rfl
  have hbody := View.field heq (by simp) (by simp) "body" rfl rfl
  refine (type_upTo hbody).imp fun h => ?_
  cases r
  cases r'
  simp_all

theorem RequestBody.upTo {b b' : RequestBody} (heq : V.view b.serialize = V.view b'.serialize) :
    UpTo V.Same b.mappings b'.mappings (b = b') := by
  have hty := View.field heq (by simp) (by simp) "ty" rfl rfl
  have hrequired := View.field heq (by simp) (by simp) "required" rfl rfl
  have hdescription := View.field heq (by simp) (by simp) "description" rfl rfl
  refine (IrType.upTo hty).imp fun h => ?_
  cases b
  cases b'
  simp_all

/-- What is written of an operation, but for its retry policy. -/
def Operation.fields (op : Operation) : List (String × Value) := [
  ("operation_id", .string op.operationId),
  ("method", op.method.serialize),
  ("path", .string op.path),
  ("tag", serializeOption .string op.tag),
  ("summary", serializeOption .string op.summary),
  ("description", serializeOption .string op.description),
  ("parameters", .array (op.parameters.map Parameter.serialize)),
  ("request_body", serializeOption RequestBody.serialize op.requestBody),
  ("responses", .array (op.responses.map Response.serialize))]

theorem Operation.upTo {op op' : Operation} (hretry : op.retryPolicy = op'.retryPolicy)
    (h : ∀ k v v', op.fields.lookup k = some v → op'.fields.lookup k = some v' →
      V.view v = V.view v') :
    UpTo V.Same op.mappings op'.mappings (op = op') := by
  have hid := h "operation_id" _ _ rfl rfl
  have hmethod := HttpMethod.serialize_inj (h "method" _ _ rfl rfl)
  have hpath := h "path" _ _ rfl rfl
  have htag := h "tag" _ _ rfl rfl
  have hsummary := h "summary" _ _ rfl rfl
  have hdescription := h "description" _ _ rfl rfl
  have hparameters := View.array_upTo (fun _ _ => Parameter.upTo) (h "parameters" _ _ rfl rfl)
  have hbody := View.option_upTo (fun b => View.object_ne_null) (fun _ _ => RequestBody.upTo)
    (h "request_body" _ _ rfl rfl)
  have hresponses := View.array_upTo (fun _ _ => Response.upTo) (h "responses" _ _ rfl rfl)
  refine (hparameters.append (hbody.append hresponses)).imp ?_
  rintro ⟨hps, hb, hrs⟩
  cases op
  cases op'
  simp_all

end Operations

end SpecForge
