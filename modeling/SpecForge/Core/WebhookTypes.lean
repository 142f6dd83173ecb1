import SpecForge.Core.Decoding
import SpecForge.Core.DowngradeScope
import SpecForge.Core.RefSiblings

/-!
# The types of webhook schemas

A webhook's schema is read as raw JSON, an operation's is downgraded and decoded first. §1
says what the webhook reader looks at, §2 which decoded schemas have a type that it can
give, §3 when both readers give one schema the same type.
-/

namespace SpecForge

open Lib
open Lib.Text
open OpenApi (ReferenceOr Schema SchemaKind OApiType AdditionalProperties)

/-! ## §1  Raw schemas -/

def Value.typeName (v : Value) : Option TypeName := typeNamed (v.get "type")

/-- The scalar of a type, for a string without format and `enum`. -/
def TypeName.scalar : TypeName → Option Scalar
  | .string => some .string
  | .number => some .float
  | .integer => some .integer
  | .boolean => some .boolean
  | .array | .object => none

/-- Neither a reference nor of a known type. -/
def Unread (o : Option Value) : Prop :=
  ∀ v, o = some v → v.reference = none ∧ v.typeName = none

section

variable {v : Value} {T : TypeName} {ref : String} {s : Scalar}

def webhookItem (v : Value) : IrType := ((v.get "items").map webhookJsonToType).getD .unknown

theorem webhookItems_eq (obj : List (String × Value)) :
    webhookItems obj = webhookItem (.object obj) := by
  induction obj with
  | nil => rfl
  | cons entry obj ih =>
      obtain ⟨k, v⟩ := entry
      rw [webhookItems, webhookItem, Value.get_object]
      split
      · next hk => rw [lookup_cons_self hk.symm]; rfl
      · next hk =>
          rw [lookup_cons_ne (Ne.symm hk), ih]
          rfl

theorem webhookJsonToType_reference (h : v.reference = some ref) :
    webhookJsonToType v = .reference (refName ref) false none := by
  cases v with
  | object obj =>
      have href : (obj.lookup "$ref").bind Value.asStr = some ref := h
      rw [webhookJsonToType, href]
      rfl
  | _ => cases h

theorem webhookJsonToType_typed (href : v.reference = none) : webhookJsonToType v =
    match v.typeName with
    | some .array => .array (webhookItem v) false
    | some .object => .any
    | some T => (T.scalar.map IrType.scalar).getD .unknown
    | none => .unknown := by
  cases v with
  | object obj =>
      have hnone : (obj.lookup "$ref").bind Value.asStr = none := href
      rw [webhookJsonToType, hnone, Value.typeName, typeNamed, Value.get_object]
      dsimp only
      cases (obj.lookup "type").bind Value.asStr with
      | none => simp
      | some name =>
          rw [Option.bind_some, webhookItems_eq]
          generalize hT : TypeName.ofStr name = T
          unfold TypeName.ofStr at hT
          split at hT
          case h_7 hstring hnumber hinteger hboolean harray hobject =>
            subst hT
            simp only [Option.some.injEq]
            rw [if_neg hstring, if_neg hinteger, if_neg hnumber, if_neg hboolean, if_neg harray,
              if_neg hobject]
          all_goals
            subst hT
            simp [TypeName.scalar]
  | _ => rfl

theorem webhookJsonToType_eq_unknown_iff :
    webhookJsonToType v = .unknown ↔ v.reference = none ∧ v.typeName = none := by
  cases href : v.reference with
  | some ref =>
      rw [webhookJsonToType_reference href]
      simp
  | none =>
      rw [webhookJsonToType_typed href]
      cases v.typeName with
      | none => simp
      | some T => cases T <;> simp [TypeName.scalar]

theorem webhookItem_eq_unknown_iff : webhookItem v = .unknown ↔ Unread (v.get "items") := by
  unfold webhookItem Unread
  cases v.get "items" with
  | none => simp
  | some x =>
      rw [Option.map_some, Option.getD_some, webhookJsonToType_eq_unknown_iff]
      simp

end

/-! ## §2  Decoded schemas -/

/-- No format that the IR has a scalar for. -/
def PlainFormat (o : Option Value) : Prop :=
  ∀ f, o.bind Value.asStr = some f →
    f ≠ "date" ∧ f ≠ "date-time" ∧ eqIgnoreAsciiCase f "uuid" = false

/-- Neither an `enum` with strings nor such a format. -/
structure PlainString (v : Value) : Prop where
  enumeration : ∀ xs, v.get "enum" = some (.array xs) → ∀ x ∈ xs, x.asStr = none
  format : PlainFormat (v.get "format")

/-- No map is made of an object with these `additionalProperties`. -/
def Closed (o : Option Value) : Prop := present o = none ∨ o = some (.bool false)

/-- The type of a schema `v` by the variant that it is decoded as. -/
inductive TypeOf (decode : Value → Option (ReferenceOr Schema)) (v : Value) :
    Variant → IrType → Prop where
  | reference {ref} : TypeOf decode v (.reference ref) (.reference (refName ref) false none)
  | scalar {T s} : T.scalar = some s → (T = .string → PlainString v) →
      TypeOf decode v (.typed T) (.scalar s)
  | format {s} : ¬PlainString v → s = .dateTime ∨ s = .uuid →
      TypeOf decode v (.typed .string) (.scalar s)
  | stringEnum {variants nullable} : ¬PlainString v →
      TypeOf decode v (.typed .string) (.stringEnum variants nullable)
  | array {items nullable} : ReadsOptional decode (present (v.get "items")) items →
      (nullable = true ↔ v.get "nullable" = some (.bool true)) →
      TypeOf decode v (.typed .array) (.array ((items.map refOrSchemaToType).getD .unknown) nullable)
  | object : Closed (v.get "additionalProperties") → TypeOf decode v (.typed .object) .any
  | map {t} : ¬Closed (v.get "additionalProperties") → TypeOf decode v (.typed .object) (.map t)
  | described {members rs ref description} :
      List.Forall₂ (fun m r => decode m = some r) members rs →
      allofRefSiblingDescription rs = some (.reference (refName ref) false description) →
      TypeOf decode v (.allOf members) (.reference (refName ref) false description)
  | allOf {members rs types discriminator} :
      List.Forall₂ (fun m r => decode m = some r) members rs →
      allofRefSiblingDescription rs = none →
      TypeOf decode v (.allOf members) (.composition .allOf types discriminator)
  | oneOf {members discriminator} :
      TypeOf decode v .oneOf (.composition .oneOf members discriminator)
  | anyOf {members discriminator} :
      TypeOf decode v .anyOf (.composition .anyOf members discriminator)
  | not : TypeOf decode v .not .any
  | any : TypeOf decode v .any .any

section

variable {decode : Value → Option (ReferenceOr Schema)} {v : Value} {w : Variant}
  {r : ReferenceOr Schema} {T : TypeName} {t i : IrType} {s : Scalar} {name : String}
  {o : Option Value} {a : Option AdditionalProperties}

theorem readEnum_strings_eq_nil_iff : (readEnum o).filterMap id = [] ↔
    ∀ xs, o = some (.array xs) → ∀ x ∈ xs, x.asStr = none := by
  unfold readEnum
  rcases o with _ | v
  · simp
  · cases v with
    | array xs => simp [Value.asArray, List.filterMap_map]
    | _ => simp [Value.asArray]

theorem stringScalar_readFormat {f : String} (hf : o.bind Value.asStr = some f) :
    stringScalar (readFormat o) = if f = "date" ∨ f = "date-time" then .dateTime
      else if eqIgnoreAsciiCase f "uuid" then .uuid else .string := by
  generalize hformat : readFormat o = format
  rw [readFormat, hf] at hformat
  split at hformat
  case h_1 h => cases h
  case h_7 hdate hdateTime _ _ _ h =>
    obtain rfl := Option.some.inj h
    subst hformat
    rw [if_neg (not_or.mpr ⟨hdate, hdateTime⟩), stringScalar]
  all_goals
    next h =>
      obtain rfl := Option.some.inj h
      subst hformat
      rfl

theorem stringScalar_readFormat_cases :
    stringScalar (readFormat o) = .string ∧ PlainFormat o ∨
      (stringScalar (readFormat o) = .dateTime ∨ stringScalar (readFormat o) = .uuid) ∧
        ¬PlainFormat o := by
  unfold PlainFormat
  cases hf : o.bind Value.asStr with
  | none =>
      rw [readFormat, hf]
      refine Or.inl ⟨rfl, fun f hnone => ?_⟩
      cases hnone
  | some f =>
      rw [stringScalar_readFormat hf]
      simp only [Option.some.injEq, forall_eq']
      split
      · next hdate =>
          refine Or.inr ⟨Or.inl rfl, fun hplain => ?_⟩
          rcases hdate with hdate | hdateTime
          · exact hplain.1 hdate
          · exact hplain.2.1 hdateTime
      · next hdate =>
          obtain ⟨hdate, hdateTime⟩ := not_or.mp hdate
          cases eqIgnoreAsciiCase f "uuid" with
          | true => exact Or.inr ⟨Or.inr rfl, fun hplain => Bool.noConfusion hplain.2.2⟩
          | false => exact Or.inl ⟨rfl, hdate, hdateTime, rfl⟩

theorem closed_iff (h : ReadsAdditional decode (present o) a) :
    Closed o ↔ a = none ∨ a = some (.any false) := by
  have hsome : ∀ {v}, some v = present o → o = some v := fun hv =>
    (Option.eq_some_of_filter_eq_some hv.symm)
  unfold Closed
  generalize hp : present o = o' at h
  cases h with
  | none => simp
  | @any b =>
      rw [hsome hp.symm]
      cases b <;> simp
  | @schema v r hbool _ =>
      rw [hsome hp.symm]
      cases v <;> simp_all [Value.isBoolean]

/-- **What is made of a decoded schema.** -/
theorem typeOf_reads (h : Reads decode v w r) : TypeOf decode v w (refOrSchemaToType r) := by
  cases h with
  | reference => exact .reference
  | @item _ data kind hdata hkind =>
      rw [refOrSchemaToType]
      cases hkind with
      | typed htype =>
          rw [schemaKindToType]
          cases htype with
          | string =>
              rw [typeToIr]
              cases henum : (readEnum (v.get "enum")).filterMap id with
              | cons x xs =>
                  refine .stringEnum fun hplain => ?_
                  rw [readEnum_strings_eq_nil_iff.mpr hplain.enumeration] at henum
                  cases henum
              | nil =>
                  have henum' := readEnum_strings_eq_nil_iff.mp henum
                  rcases stringScalar_readFormat_cases (o := v.get "format") with
                    ⟨hscalar, hformat⟩ | ⟨hscalar, hformat⟩
                  · exact .scalar (congrArg some hscalar.symm) fun _ => ⟨henum', hformat⟩
                  · exact .format (fun hplain => hformat hplain.format) hscalar
          | number => exact .scalar rfl TypeName.noConfusion
          | integer => exact .scalar rfl TypeName.noConfusion
          | boolean => exact .scalar rfl TypeName.noConfusion
          | @array items hitems =>
              cases items <;> rw [typeToIr] <;> exact .array hitems hdata.nullable
          | @object o hadditional =>
              rcases o with ⟨properties, required, _ | b | s⟩
              · rw [typeToIr]
                exact .object ((closed_iff hadditional).mpr (Or.inl rfl))
              · cases b with
                | false =>
                    rw [typeToIr]
                    exact .object ((closed_iff hadditional).mpr (Or.inr rfl))
                | true =>
                    rw [typeToIr]
                    exact .map fun h => by simpa using (closed_iff hadditional).mp h
              · rw [typeToIr]
                exact .map fun h => by simpa using (closed_iff hadditional).mp h
      | @allOf _ rs hmembers =>
          rw [schemaKindToType]
          cases hrs : allofRefSiblingDescription rs with
          | none => exact .allOf hmembers hrs
          | some t =>
              obtain ⟨ref, s, _, _, rfl⟩ := allofRefSiblingDescription_eq_some_iff.mp hrs
              exact .described hmembers hrs
      | oneOf => exact .oneOf
      | anyOf => exact .anyOf
      | not => exact .not
      | any => exact .any

theorem ne_unknown_of_typeOf (h : TypeOf decode v w t) : t ≠ .unknown := by
  rintro rfl
  cases h

theorem scalar_iff (h : TypeOf decode v w t) (hT : T.scalar = some s) :
    t = .scalar s ↔ w = .typed T ∧ (T = .string → PlainString v) := by
  constructor
  · rintro rfl
    cases h with
    | @scalar T' _ hT' hplain =>
        have hscalar : T'.scalar = T.scalar := hT'.trans hT.symm
        obtain rfl : T' = T := by
          cases T' <;> cases T <;> first | rfl | exact absurd hscalar (by decide) | cases hT
        exact ⟨rfl, hplain⟩
    | format _ hs =>
        rcases hs with rfl | rfl <;> cases T <;> cases hT
  · rintro ⟨rfl, hplain⟩
    cases h with
    | scalar hT' _ => rw [Option.some.inj (hT.symm.trans hT')]
    | format hnot _ => exact absurd (hplain rfl) hnot
    | stringEnum hnot => exact absurd (hplain rfl) hnot
    | _ => cases hT

theorem readsOptional_unique {x y : Option (ReferenceOr Schema)} (hx : ReadsOptional decode o x)
    (hy : ReadsOptional decode o y) : x = y := by
  cases hx with
  | none =>
      cases hy with
      | none => rfl
  | some hx =>
      cases hy with
      | some hy => exact hx.symm.trans hy

theorem array_iff (h : TypeOf decode v w t) : t = .array i false ↔
    w = .typed .array ∧ v.get "nullable" ≠ some (.bool true) ∧
      ∃ items, ReadsOptional decode (present (v.get "items")) items ∧
        i = (items.map refOrSchemaToType).getD .unknown := by
  constructor
  · rintro rfl
    cases h with
    | array hitems hnullable =>
        exact ⟨rfl, fun htrue => Bool.noConfusion (hnullable.mpr htrue), _, hitems, rfl⟩
  · rintro ⟨rfl, hnot, items, hitems, rfl⟩
    cases h with
    | scalar hT _ => cases hT
    | @array items' nullable hitems' hnullable =>
        obtain rfl : nullable = false := by
          rw [← Bool.not_eq_true, hnullable]
          exact hnot
        rw [readsOptional_unique hitems hitems']

theorem any_iff (h : TypeOf decode v w t) : t = .any ↔
    w = .any ∨ w = .not ∨ w = .typed .object ∧ Closed (v.get "additionalProperties") := by
  constructor
  · rintro rfl
    cases h with
    | any => exact Or.inl rfl
    | not => exact Or.inr (Or.inl rfl)
    | object hclosed => exact Or.inr (Or.inr ⟨rfl, hclosed⟩)
  · rintro (rfl | rfl | ⟨rfl, hclosed⟩)
    · cases h
      rfl
    · cases h
      rfl
    · cases h with
      | scalar hT _ => cases hT
      | object _ => rfl
      | map hnot => exact absurd hclosed hnot

theorem reference_iff (h : TypeOf decode v w t) : t = .reference name false none ↔
    (∃ ref, w = .reference ref ∧ name = refName ref) ∨ ∃ members rs, w = .allOf members ∧
      List.Forall₂ (fun m r => decode m = some r) members rs ∧
      allofRefSiblingDescription rs = some (.reference name false none) := by
  constructor
  · rintro rfl
    cases h with
    | reference => exact Or.inl ⟨_, rfl, rfl⟩
    | described hmembers hrs => exact Or.inr ⟨_, _, rfl, hmembers, hrs⟩
  · rintro (⟨ref, rfl, rfl⟩ | ⟨members, rs, rfl, hmembers, hrs⟩)
    · cases h
      rfl
    · have hunique : ∀ {rs'}, List.Forall₂ (fun m r => decode m = some r) members rs' → rs' = rs :=
        fun hmembers' => (Relator.RightUnique.forall₂
          fun _ _ _ hx hy => Option.some.inj (hx.symm.trans hy)) hmembers' hmembers
      cases h with
      | described hmembers' hrs' =>
          rw [hunique hmembers', hrs] at hrs'
          exact (Option.some.inj hrs').symm
      | allOf hmembers' hnone =>
          rw [hunique hmembers', hrs] at hnone
          cases hnone

end

/-! ## §3  Agreement -/

/-- A schema without a type and without a composition that is deprecated and says nothing
else. -/
structure DeprecatedOnly (D : Decoder) (v : Value) : Prop where
  variant : D.rawVariant v = .any
  deprecated : v.rewritten.get "deprecated" = some (.bool true)
  title : (v.rewritten.get "title").bind Value.asStr = none
  description : (v.rewritten.get "description").bind Value.asStr = none

/-- An operation's schema is read as a reference without a description. -/
inductive RefersTo (D : Decoder) (v : Value) (ref : String) : Prop where
  | reference : D.rawVariant v = .reference ref → RefersTo D v ref
  | sibling {m n} : D.rawVariant v = .allOf [m, n] ∨ D.rawVariant v = .allOf [n, m] →
      D.rawVariant m = .reference ref → DeprecatedOnly D n → RefersTo D v ref

/-- The schema `x` of a webhook and the schema `y` of an operation are given one type. -/
inductive Agrees (D : Decoder) : Value → Value → Prop where
  | reference {x y ref ref'} : x.reference = some ref → RefersTo D y ref' →
      refName ref = refName ref' → Agrees D x y
  | scalar {x y T} : x.reference = none → x.typeName = some T → T.scalar.isSome →
      D.rawVariant y = .typed T → (T = .string → PlainString y.rewritten) → Agrees D x y
  | array {x y} : x.reference = none → x.typeName = some .array →
      D.rawVariant y = .typed .array → y.rewritten.get "nullable" ≠ some (.bool true) →
      Unread (x.get "items") → present (y.rewritten.get "items") = none → Agrees D x y
  | arrayOf {x y i j} : x.reference = none → x.typeName = some .array →
      D.rawVariant y = .typed .array → y.rewritten.get "nullable" ≠ some (.bool true) →
      x.get "items" = some i → present (y.rewritten.get "items") = some j → Agrees D i j →
      Agrees D x y
  | object {x y} : x.reference = none → x.typeName = some .object →
      D.rawVariant y = .any ∨ D.rawVariant y = .not ∨ D.rawVariant y = .typed .object ∧
        Closed (y.rewritten.get "additionalProperties") → Agrees D x y

section

variable {D : Decoder} {x y v : Value} {r : ReferenceOr Schema} {name ref : String}

theorem reads_reference_iff (hD : D.Lawful) (h : D.decode (downgraded v) = some r) :
    r = .reference ref ↔ D.rawVariant v = .reference ref := by
  have hreads := reads_downgraded hD h
  generalize D.rawVariant v = w at hreads ⊢
  cases hreads with
  | reference => simp
  | item _ hkind =>
      cases hkind <;> simp

theorem deprecatedOnly_iff (hD : D.Lawful) (h : D.decode (downgraded v) = some r) :
    DeprecatedOnly D v ↔ ∃ s, r = .item s ∧ MetadataOnly s ∧
      s.schemaData.description.or s.schemaData.title = none := by
  have hreads := reads_downgraded hD h
  constructor
  · rintro ⟨hvariant, hdeprecated, htitle, hdescription⟩
    rw [hvariant] at hreads
    cases hreads with
    | @item _ data kind hdata hkind =>
        cases hkind with
        | any =>
            refine ⟨_, rfl, ⟨rfl, ?_⟩, ?_⟩
            · simp [hdata.deprecated.mpr hdeprecated]
            · simp [hdata.title, hdata.description, htitle, hdescription]
  · rintro ⟨s, rfl, ⟨hkind, hmeta⟩, hor⟩
    generalize hw : D.rawVariant v = w at hreads
    cases hreads with
    | @item _ data kind hdata hreadsKind =>
        dsimp only at hkind hmeta hor
        subst hkind
        cases hreadsKind with
        | any =>
            rw [Option.or_eq_none_iff] at hor
            obtain ⟨hdescription, htitle⟩ := hor
            refine ⟨hw, ?_, ?_, ?_⟩
            · simpa [hdescription, htitle, hdata.deprecated] using hmeta
            · rw [← hdata.title, htitle]
            · rw [← hdata.description, hdescription]

theorem decode_pair {m n : Value} {rs : List (ReferenceOr Schema)}
    (h : List.Forall₂ (fun m r => D.decode (downgraded m) = some r) [m, n] rs) :
    ∃ p q, rs = [p, q] ∧ D.decode (downgraded m) = some p ∧ D.decode (downgraded n) = some q := by
  rcases h with _ | ⟨hm, _ | ⟨hn, _ | _⟩⟩
  exact ⟨_, _, rfl, hm, hn⟩

theorem pair_of_decode {members : List Value} {p q : ReferenceOr Schema}
    (h : List.Forall₂ (fun m r => D.decode (downgraded m) = some r) members [p, q]) :
    ∃ m n, members = [m, n] ∧ D.decode (downgraded m) = some p ∧
      D.decode (downgraded n) = some q := by
  rcases h with _ | ⟨hm, _ | ⟨hn, _ | _⟩⟩
  exact ⟨_, _, rfl, hm, hn⟩

/-- The type is a bare reference exactly if the schema is one, up to a deprecation. -/
theorem refersTo_iff (hD : D.Lawful) (h : D.decode (downgraded v) = some r) :
    refOrSchemaToType r = .reference name false none ↔
      ∃ ref, RefersTo D v ref ∧ name = refName ref := by
  have hreads := reads_downgraded hD h
  rw [reference_iff (typeOf_reads hreads)]
  constructor
  · rintro (⟨ref, hw, rfl⟩ | ⟨members, rs, hw, hmembers, hrs⟩)
    · exact ⟨ref, .reference hw, rfl⟩
    · obtain ⟨ref, s, hpair, hs, ht⟩ := allofRefSiblingDescription_eq_some_iff.mp hrs
      obtain ⟨rfl, -, hor⟩ := IrType.reference.inj ht
      refine ⟨ref, ?_, rfl⟩
      rcases hpair with rfl | rfl
      · obtain ⟨m, n, rfl, hm, hn⟩ := pair_of_decode hmembers
        exact .sibling (Or.inl hw) ((reads_reference_iff hD hm).mp rfl)
          ((deprecatedOnly_iff hD hn).mpr ⟨s, rfl, hs, hor.symm⟩)
      · obtain ⟨n, m, rfl, hn, hm⟩ := pair_of_decode hmembers
        exact .sibling (Or.inr hw) ((reads_reference_iff hD hm).mp rfl)
          ((deprecatedOnly_iff hD hn).mpr ⟨s, rfl, hs, hor.symm⟩)
  · rintro ⟨ref, hw | ⟨hw, hm, hn⟩, rfl⟩
    · exact Or.inl ⟨ref, hw, rfl⟩
    · right
      have hmembers : ∀ {members}, D.rawVariant v = .allOf members →
          ∃ rs, List.Forall₂ (fun m r => D.decode (downgraded m) = some r) members rs := by
        intro members hw
        rw [hw] at hreads
        rcases hreads with _ | ⟨_, _ | _ | hmembers⟩
        exact ⟨_, hmembers⟩
      rcases hw with hw | hw
      · obtain ⟨rs, hrs⟩ := hmembers hw
        obtain ⟨p, q, rfl, hp, hq⟩ := decode_pair hrs
        obtain rfl := (reads_reference_iff hD hp).mpr hm
        obtain ⟨s, rfl, hs, hor⟩ := (deprecatedOnly_iff hD hq).mp hn
        exact ⟨_, _, hw, hrs, allofRefSiblingDescription_eq_some_iff.mpr
          ⟨ref, s, Or.inl rfl, hs, by rw [hor]⟩⟩
      · obtain ⟨rs, hrs⟩ := hmembers hw
        obtain ⟨q, p, rfl, hq, hp⟩ := decode_pair hrs
        obtain rfl := (reads_reference_iff hD hp).mpr hm
        obtain ⟨s, rfl, hs, hor⟩ := (deprecatedOnly_iff hD hq).mp hn
        exact ⟨_, _, hw, hrs, allofRefSiblingDescription_eq_some_iff.mpr
          ⟨ref, s, Or.inr rfl, hs, by rw [hor]⟩⟩

theorem typed_array_iff (hD : D.Lawful) (hx : x.reference = none) (htype : x.typeName = some .array)
    (hitem : ∀ i, x.get "items" = some i → ∀ j r, D.decode (downgraded j) = some r →
      (webhookJsonToType i = refOrSchemaToType r ↔ Agrees D i j))
    (h : D.decode (downgraded y) = some r) :
    refOrSchemaToType r = .array (webhookItem x) false ↔ Agrees D x y := by
  rw [array_iff (typeOf_reads (reads_downgraded hD h))]
  constructor
  · rintro ⟨hw, hnullable, items, hitems, hi⟩
    generalize hp : present (y.rewritten.get "items") = o at hitems
    cases hitems with
    | none => exact .array hx htype hw hnullable (webhookItem_eq_unknown_iff.mp hi) hp
    | @some j r' hj =>
        rw [Option.map_some, Option.getD_some, webhookItem] at hi
        cases hxi : x.get "items" with
        | none =>
            rw [hxi] at hi
            exact absurd hi.symm (ne_unknown_of_typeOf (typeOf_reads (reads_downgraded hD hj)))
        | some i =>
            rw [hxi] at hi
            exact .arrayOf hx htype hw hnullable hxi hp ((hitem i hxi j r' hj).mp hi)
  · intro hagrees
    cases hagrees with
    | reference href _ _ => cases hx.symm.trans href
    | scalar _ htype' hscalar _ _ =>
        cases htype.symm.trans htype'
        cases hscalar
    | array _ _ hw hnullable hunread hp =>
        exact ⟨hw, hnullable, none, hp ▸ .none, webhookItem_eq_unknown_iff.mpr hunread⟩
    | @arrayOf _ _ i j _ _ hw hnullable hxi hp hij =>
        have hreads := reads_downgraded hD h
        rw [hw] at hreads
        rcases hreads with _ | ⟨_, ⟨_ | _ | _ | _ | hitems⟩⟩
        have hitems' := hitems
        rw [hp] at hitems'
        cases hitems' with
        | @some _ r' hj =>
            refine ⟨hw, hnullable, _, hitems, ?_⟩
            rw [webhookItem, hxi]
            exact (hitem i hxi j r' hj).mpr hij
    | object _ htype' _ => cases htype.symm.trans htype'

theorem agrees_scalar_iff {T : TypeName} (hx : x.reference = none) (htype : x.typeName = some T)
    (hscalar : T.scalar.isSome) : Agrees D x y ↔
      D.rawVariant y = .typed T ∧ (T = .string → PlainString y.rewritten) := by
  constructor
  · intro hagrees
    cases hagrees with
    | reference href _ _ => cases hx.symm.trans href
    | scalar _ htype' _ hw hplain =>
        cases htype.symm.trans htype'
        exact ⟨hw, hplain⟩
    | _ _ htype' =>
        cases htype.symm.trans htype'
        cases hscalar
  · rintro ⟨hw, hplain⟩
    exact .scalar hx htype hscalar hw hplain

theorem agrees_object_iff (hx : x.reference = none) (htype : x.typeName = some .object) :
    Agrees D x y ↔ D.rawVariant y = .any ∨ D.rawVariant y = .not ∨
      D.rawVariant y = .typed .object ∧ Closed (y.rewritten.get "additionalProperties") := by
  constructor
  · intro hagrees
    cases hagrees with
    | reference href _ _ => cases hx.symm.trans href
    | scalar _ htype' hscalar _ _ =>
        cases htype.symm.trans htype'
        cases hscalar
    | object _ _ hany => exact hany
    | _ _ htype' => cases htype.symm.trans htype'
  · exact .object hx htype

theorem not_agrees (hx : x.reference = none) (htype : x.typeName = none) : ¬Agrees D x y := by
  intro hagrees
  cases hagrees with
  | reference href _ _ => cases hx.symm.trans href
  | _ _ htype' => cases htype.symm.trans htype'

/-- **A webhook gives a schema the type that an operation gives one exactly if they agree.** -/
theorem webhookJsonToType_eq_iff (hD : D.Lawful) (x : Value) :
    ∀ y r, D.decode (downgraded y) = some r →
      (webhookJsonToType x = refOrSchemaToType r ↔ Agrees D x y) := by
  induction x using Value.part_induction with
  | hstep x ih =>
      intro y r h
      have htypeOf := typeOf_reads (reads_downgraded hD h)
      cases href : x.reference with
      | some ref =>
          rw [webhookJsonToType_reference href, eq_comm, refersTo_iff hD h]
          constructor
          · rintro ⟨ref', hrefers, hname⟩
            exact .reference href hrefers hname
          · intro hagrees
            cases hagrees with
            | reference href' hrefers hname =>
                cases href.symm.trans href'
                exact ⟨_, hrefers, hname⟩
            | _ href' => cases href.symm.trans href'
      | none =>
          rw [webhookJsonToType_typed href, eq_comm]
          have hscalar : ∀ {T s}, T.scalar = some s → x.typeName = some T →
              (refOrSchemaToType r = .scalar s ↔ Agrees D x y) := fun hT htype => by
            rw [scalar_iff htypeOf hT, agrees_scalar_iff href htype (Option.isSome_of_eq_some hT)]
          cases htype : x.typeName with
          | none =>
              exact iff_of_false (ne_unknown_of_typeOf htypeOf) (not_agrees href htype)
          | some T =>
              cases T with
              | string => exact hscalar rfl htype
              | number => exact hscalar rfl htype
              | integer => exact hscalar rfl htype
              | boolean => exact hscalar rfl htype
              | object => exact (any_iff htypeOf).trans (agrees_object_iff href htype).symm
              | array =>
                  refine typed_array_iff hD href htype (fun i hi => ?_) h
                  obtain ⟨obj, rfl⟩ := Value.isObject_iff.mp (Value.isObject_of_get hi)
                  exact ih i (.member (mem_of_lookup_eq_some hi))

/-- In a document the decoder is given what the downgrade has in the place of the schema. -/
theorem webhookJsonToType_eq_iff_of_counterpart (hD : D.Lawful) {doc s s' : Value}
    (hwf : WellFormed doc)
    (hs : Counterpart doc (downgrade31To30 doc) (.one .schema) s (some s'))
    (h : D.decode s' = some r) :
    webhookJsonToType s = refOrSchemaToType r ↔ Agrees D s s := by
  obtain ⟨lost, -, hrelated⟩ := place_of_counterpart hwf hs
  have hobject := hD.isObject _ _ h
  obtain rfl : lost = false := by
    rw [← Bool.not_eq_true]
    rintro rfl
    rcases hrelated with hnone | ⟨xs, hxs⟩
    · cases hnone
    · cases hxs
      cases hobject
  obtain rfl : s' = downgraded s := Option.some.inj hrelated
  exact webhookJsonToType_eq_iff hD s s r h

/-- **The two readers of schemas agree on exactly the schemas that have none of the keywords
that only one of them reads.** -/
theorem webhook_type_agrees_iff (hD : D.Lawful) {s : Value}
    (h : D.decode (downgraded s) = some r) :
    webhookJsonToType s = refOrSchemaToType r ↔ Agrees D s s :=
  webhookJsonToType_eq_iff hD s s r h

end

/-- A decoder of three forms of schemas. -/
def decodeSample : Value → Option (ReferenceOr Schema)
  | .object [("$ref", .string ref)] => some (.reference ref)
  | .object [("items", .object [("$ref", .string ref)]), ("type", .string "array")] =>
      some (.item ⟨.default, .type (.array (some (.reference ref)))⟩)
  | .object [("format", .string "uuid"), ("type", .string "string")] =>
      some (.item ⟨.default, .type (.string ⟨.unknown "uuid", []⟩)⟩)
  | _ => none

def sampleDecoder : Decoder := ⟨decodeSample, fun _ _ => true⟩

theorem readsData_default {v : Value} (hnullable : v.get "nullable" = none)
    (hdeprecated : v.get "deprecated" = none) (htitle : v.get "title" = none)
    (hdescription : v.get "description" = none) : ReadsData v .default where
  nullable := by simp [hnullable, OpenApi.SchemaData.default]
  deprecated := by simp [hdeprecated, OpenApi.SchemaData.default]
  title := by rw [htitle]; rfl
  description := by rw [hdescription]; rfl

theorem sampleDecoder_lawful : sampleDecoder.Lawful where
  isObject := by
    intro v r h
    change decodeSample v = some r at h
    unfold decodeSample at h
    split at h <;> first | rfl | cases h
  reads := by
    intro v r h
    change decodeSample v = some r at h
    unfold decodeSample at h
    split at h
    · cases h
      exact .reference
    · cases h
      exact .item (readsData_default rfl rfl rfl rfl) (.typed (.array (.some rfl)))
    · cases h
      exact .item (readsData_default rfl rfl rfl rfl) (.typed .string)
    · cases h

def petArray : Value :=
  .object [("items", .object [("$ref", .string "#/components/schemas/Pet")]),
    ("type", .string "array")]

def uuidString : Value := .object [("format", .string "uuid"), ("type", .string "string")]

theorem petArray_type_agrees :
    webhookJsonToType petArray = refOrSchemaToType (.item ⟨.default,
      .type (.array (some (.reference "#/components/schemas/Pet")))⟩) := by
  have hdown : downgraded petArray = petArray := by rfl
  have hdecode : sampleDecoder.decode (downgraded petArray) = some (.item ⟨.default,
      .type (.array (some (.reference "#/components/schemas/Pet")))⟩) := by rfl
  have hpet : Agrees sampleDecoder petArray petArray := by
    refine .arrayOf rfl rfl rfl ?_ rfl rfl (.reference rfl (.reference rfl) rfl)
    intro hnullable
    cases hnullable
  exact (webhook_type_agrees_iff sampleDecoder_lawful hdecode).mpr hpet

/-- A `uuid` is a string in a webhook and a `uuid` in an operation. -/
theorem uuid_type_disagrees : ∃ D : Decoder, D.Lawful ∧ ∃ s r,
    D.decode (downgraded s) = some r ∧ webhookJsonToType s ≠ refOrSchemaToType r := by
  refine ⟨sampleDecoder, sampleDecoder_lawful, uuidString, _, rfl, ?_⟩
  have hwebhook : webhookJsonToType uuidString = .scalar .string := rfl
  have hoperation : refOrSchemaToType (.item ⟨.default,
      .type (.string ⟨.unknown "uuid", []⟩)⟩) = .scalar .uuid := by
    rw [refOrSchemaToType, schemaKindToType, typeToIr]
    rfl
  rw [hwebhook, hoperation]
  intro heq
  cases heq

end SpecForge
