import SpecForge.Cli.RoundTrip
import SpecForge.Core.Positions

/-!
# The schemas of an upgraded document

A schema of 3.1 has no `nullable`, and its exclusive bounds are numbers. The upgrade rewrites
`nullable: true` next to a type, and `true` next to a number for the bound; the other forms
stay.

- §1 where the schemas of a document are; §2 the upgrade keeps them there; §3 what it leaves of
  the keywords of 3.0; §4 documents.
-/

namespace SpecForge.Cli

open Lib

/-! ## §1  Positions -/

/-- The role of a member. -/
def memberRole (k : String) : Role → Option Role
  | .document => documentFields.lookup k
  | .one .callback => if k = "$ref" ∨ Text.startsWith "x-" k then none else some (.one .pathItem)
  | .one .schema =>
      if k = "prefixItems" then some (.list .schema) else Kind.schema.fields.lookup k
  | .one kind => kind.fields.lookup k
  | .names extensible kind => if extensible && Text.startsWith "x-" k then none else some (.one kind)
  | .schemas => some (.one .schema)
  | .list _ | .literal => none

/-- A value of the document with its role. -/
inductive Position (doc : Value) : Role → Value → Prop where
  | root : Position doc .document doc
  | member {r v k r' w} : Position doc r v → memberRole k r = some r' → v.get k = some w →
      Position doc r' w
  | item {kind xs x} : Position doc (.list kind) (.array xs) → x ∈ xs → Position doc (.one kind) x

/-- As in every OpenAPI document, the entries of maps are objects or booleans. -/
def MapsOfObjects (doc : Value) : Prop := ∀ r v, Position doc r v → EntriesOk v r

/-- The names of the members are up to the document. -/
def isMap : Role → Bool
  | .one .callback | .names _ _ | .schemas => true
  | _ => false

/-! ## §2  The upgrade and positions -/

theorem get_upgrade30To31 (obj : List (String × Value)) (k : String) :
    (upgrade30To31 (.object obj)).get k = ((upgradeKeywords obj).lookup k).map upgrade30To31 := by
  rw [upgrade30To31_object]
  exact BTreeMap.lookup_mapEntries k _

/-- The keys whose values the upgrade looks at. -/
def readKeys : List String := upgradedKeys ++ ["minimum", "maximum"]

section

variable {obj : List (String × Value)} {k : String}

/-- In a map from names nothing is rewritten, but an entry `nullable` may go. -/
theorem upgradeKeywords_of_entries
    (h : ∀ k ∈ readKeys, ∀ w, obj.lookup k = some w → w.isObject = true ∨ w.isBoolean = true) :
    upgradeKeywords obj = obj ∨ obj.lookup "nullable" = some (.bool true) ∧
      upgradeKeywords obj = BTreeMap.removeKey "nullable" obj := by
  have hnullable : upgradeNullable obj = obj ∨ obj.lookup "nullable" = some (.bool true) ∧
      upgradeNullable obj = BTreeMap.removeKey "nullable" obj := by
    unfold upgradeNullable
    split
    · next type nullable htype hnull =>
        split
        · next htrue =>
            have hstr : type.asStr = none := by
              rcases h "type" (by decide) type htype with ht | ht
              · obtain ⟨entries, rfl⟩ := Value.isObject_iff.mp ht
                rfl
              · cases type <;> cases ht
                rfl
            have hbool : nullable = .bool true := by
              cases nullable <;> cases htrue
              rfl
            rw [hstr]
            exact Or.inr ⟨hbool ▸ hnull, rfl⟩
        · exact Or.inl rfl
    · exact Or.inl rfl
  have hexclusive : ∀ (field companion : String) (o : List (String × Value)),
      companion ∈ readKeys → o.lookup companion = obj.lookup companion →
      upgradeExclusive field companion o = o := by
    intro field companion o hmem heq
    unfold upgradeExclusive
    split
    · split
      · next n hn =>
          rw [heq] at hn
          rcases h companion hmem _ hn with hn' | hn' <;> cases hn'
      · rfl
    · rfl
  have henum : ∀ o : List (String × Value), o.lookup "enum" = obj.lookup "enum" →
      upgradeEnum o = o := by
    intro o heq
    unfold upgradeEnum
    split
    · next v hv =>
        rw [heq] at hv
        rcases h "enum" (by decide) _ hv with hv' | hv' <;> cases hv'
    · rfl
  have hother : ∀ k, k ≠ "type" → k ≠ "nullable" →
      (upgradeNullable obj).lookup k = obj.lookup k := fun k => lookup_upgradeNullable_ne
  have hall : upgradeKeywords obj = upgradeNullable obj := by
    unfold upgradeKeywords
    dsimp only
    rw [hexclusive _ "minimum" _ (by decide) (hother _ (by decide) (by decide)),
      hexclusive _ "maximum" _ (by decide) (hother _ (by decide) (by decide)),
      henum _ (hother _ (by decide) (by decide))]
  rw [hall]
  exact hnullable

end

/-- The fixed names under which the grammar goes on are not those that are rewritten. -/
theorem notMem_upgradedKeys {r r' : Role} {k : String} (hmap : isMap r = false)
    (h : memberRole k r = some r') : r' = .literal ∨ k ∉ upgradedKeys := by
  have hlookup : ∀ fields : List (String × Role), fields.lookup k = some r' →
      (fields.all fun e => decide (e.2 = .literal) || !upgradedKeys.contains e.1) = true →
      r' = .literal ∨ k ∉ upgradedKeys := by
    intro fields hk hall
    have hentry := List.all_eq_true.mp hall (k, r') (mem_of_lookup_eq_some hk)
    simpa using hentry
  cases r with
  | document => exact hlookup _ h (by decide)
  | list kind => cases h
  | names extensible kind => cases hmap
  | schemas => cases hmap
  | literal => cases h
  | one kind =>
      cases kind with
      | callback => cases hmap
      | schema =>
          have hrole : (if k = "prefixItems" then some (.list .schema)
            else Kind.schema.fields.lookup k) = some r' := h
          by_cases hk : k = "prefixItems"
          · rw [hk]
            exact Or.inr (by decide)
          · rw [if_neg hk] at hrole
            exact hlookup _ hrole (by decide)
      | _ => exact hlookup _ h (by decide)

theorem entries_of_map {obj : List (String × Value)} {r : Role} (hmap : isMap r = true)
    (hok : EntriesOk (.object obj) r) : ∀ k ∈ readKeys, ∀ w, obj.lookup k = some w →
      w.isObject = true ∨ w.isBoolean = true := by
  intro k hk w hw
  have hplain : ¬Text.startsWith "x-" k = true ∧ k ≠ "$ref" := by
    have hall : (readKeys.all fun k => !Text.startsWith "x-" k && k != "$ref") = true := by decide
    simpa using List.all_eq_true.mp hall k hk
  cases r with
  | document => cases hmap
  | list kind => cases hmap
  | literal => cases hmap
  | schemas => exact hok k w hw
  | names extensible kind =>
      refine hok k w hw fun hext => hplain.1 ?_
      exact (Bool.and_eq_true _ _ ▸ hext).2
  | one kind =>
      cases kind with
      | callback => exact hok k w hw hplain.2 hplain.1
      | _ => cases hmap

/-- What the grammar goes on to stays under its name. -/
theorem get_upgraded_member {v : Value} {r r' : Role} {k : String} (hok : EntriesOk v r)
    (hrole : memberRole k r = some r') (hne : r' ≠ .literal) :
    (upgrade30To31 v).get k = (v.get k).map upgrade30To31 ∨
      v.get k = some (.bool true) ∧ (upgrade30To31 v).get k = none := by
  cases v with
  | object obj =>
      rw [get_upgrade30To31, Value.get_object]
      cases hmap : isMap r with
      | false =>
          have hkey := (notMem_upgradedKeys hmap hrole).resolve_left hne
          rw [lookup_upgradeKeywords_of_notMem hkey]
          exact Or.inl rfl
      | true =>
          rcases upgradeKeywords_of_entries (entries_of_map hmap hok) with heq | ⟨hnull, heq⟩
          · rw [heq]
            exact Or.inl rfl
          · rw [heq]
            by_cases hk : k = "nullable"
            · rw [hk, BTreeMap.lookup_removeKey_self]
              exact Or.inr ⟨hnull, rfl⟩
            · rw [BTreeMap.lookup_removeKey_ne hk]
              exact Or.inl rfl
  | _ => exact Or.inl rfl

/-- A position of the upgraded document is one of the document, upgraded. -/
theorem exists_position {doc : Value} (hmaps : MapsOfObjects doc) {r : Role} {w' : Value}
    (h : Position (upgrade30To31 doc) r w') :
    r = .literal ∨ ∃ w, Position doc r w ∧ w' = upgrade30To31 w := by
  induction h with
  | root => exact Or.inr ⟨doc, .root, rfl⟩
  | @member r v' k r' w' _ hrole hget ih =>
      by_cases hne : r' = .literal
      · exact Or.inl hne
      · refine Or.inr ?_
        rcases ih with rfl | ⟨v, hv, rfl⟩
        · cases hrole
        · rcases get_upgraded_member (hmaps r v hv) hrole hne with heq | ⟨-, heq⟩
          · rw [heq] at hget
            obtain ⟨w, hw, rfl⟩ := Option.map_eq_some_iff.mp hget
            exact ⟨w, .member hv hrole hw, rfl⟩
          · rw [heq] at hget
            cases hget
  | @item kind xs' x' _ hx ih =>
      rcases ih with h | ⟨v, hv, heq⟩
      · cases h
      · cases v with
        | array xs =>
            rw [upgrade30To31_array, Value.array.injEq] at heq
            rw [heq] at hx
            obtain ⟨x, hmem, rfl⟩ := List.mem_map.mp hx
            exact Or.inr ⟨x, .item hv hmem, rfl⟩
        | object obj =>
            rw [upgrade30To31_object] at heq
            cases heq
        | _ => cases heq

/-- A position of the document stays one, unless a boolean stands there. -/
theorem position_upgraded {doc : Value} (hmaps : MapsOfObjects doc) {r : Role} {w : Value}
    (h : Position doc r w) :
    r = .literal ∨ w.isBoolean = true ∨ Position (upgrade30To31 doc) r (upgrade30To31 w) := by
  induction h with
  | root => exact Or.inr (Or.inr .root)
  | @member r v k r' w hv hrole hget ih =>
      by_cases hne : r' = .literal
      · exact Or.inl hne
      · refine Or.inr ?_
        rcases ih with rfl | hbool | hposition
        · cases hrole
        · cases v <;> cases hbool
          cases hget
        · rcases get_upgraded_member (hmaps r v hv) hrole hne with heq | ⟨hw, -⟩
          · refine Or.inr (.member hposition hrole ?_)
            rw [heq, hget]
            rfl
          · rw [hget] at hw
            cases hw
            exact Or.inl rfl
  | @item kind xs x _ hx ih =>
      rcases ih with h | h | hposition
      · cases h
      · cases h
      · rw [upgrade30To31_array] at hposition
        exact Or.inr (Or.inr (.item hposition (List.mem_map_of_mem hx)))

/-! ## §3  Keywords of 3.0 -/

/-- The object has no `nullable` and no boolean for an exclusive bound. -/
structure Without30 (v : Value) : Prop where
  nullable : v.get "nullable" = none
  minimum : ∀ b, v.get "exclusiveMinimum" ≠ some (.bool b)
  maximum : ∀ b, v.get "exclusiveMaximum" ≠ some (.bool b)

/-- A flag for an exclusive bound is set, next to a number for the bound. -/
def Bounded (v : Value) (field companion : String) : Prop :=
  ∀ b, v.get field = some (.bool b) → b = true ∧ ∃ n, v.get companion = some (.number n)

/-- The forms of `nullable` and of exclusive bounds for which there is a rule. -/
structure Rewritable (v : Value) : Prop where
  nullable : ∀ w, v.get "nullable" = some w → w = .bool true ∧ (v.get "type").isSome = true
  minimum : Bounded v "exclusiveMinimum" "minimum"
  maximum : Bounded v "exclusiveMaximum" "maximum"

section

variable {obj : List (String × Value)}

theorem lookup_nullable_upgradeNullable : (upgradeNullable obj).lookup "nullable" = none ↔
    ∀ w, obj.lookup "nullable" = some w → w = .bool true ∧ (obj.lookup "type").isSome = true := by
  unfold upgradeNullable
  split
  · next type nullable htype hnull =>
      split
      · next htrue =>
          have hbool : nullable = .bool true := by
            cases nullable <;> cases htrue
            rfl
          rw [BTreeMap.lookup_removeKey_self]
          refine iff_of_true rfl fun w hw => ?_
          rw [hnull, Option.some.injEq] at hw
          exact ⟨hw ▸ hbool, htype ▸ rfl⟩
      · next htrue =>
          rw [hnull]
          refine iff_of_false (by simp) fun h => htrue ?_
          rw [(h nullable rfl).1]
          rfl
  · next hnone =>
      cases hnull : obj.lookup "nullable" with
      | none => simp
      | some nullable =>
          refine iff_of_false (by simp) fun h => ?_
          obtain ⟨type, htype⟩ := Option.isSome_iff_exists.mp (h nullable rfl).2
          exact hnone type nullable htype hnull

theorem lookup_bool_upgradeExclusive {field companion : String} :
    (∀ b, (upgradeExclusive field companion obj).lookup field ≠ some (.bool b)) ↔
      ∀ b, obj.lookup field = some (.bool b) →
        b = true ∧ ∃ n, obj.lookup companion = some (.number n) := by
  unfold upgradeExclusive
  split
  · next htrue =>
      split
      · next n hn =>
          rw [BTreeMap.lookup_insertKey_self]
          refine iff_of_true (by simp) fun b hb => ?_
          rw [htrue, Option.some.injEq, Value.bool.injEq] at hb
          exact ⟨hb.symm, n, hn⟩
      · next hnone =>
          refine iff_of_false (fun h => h true htrue) fun h => ?_
          obtain ⟨-, n, hn⟩ := h true htrue
          exact hnone n hn
  · next hnot =>
      constructor
      · exact fun h b hb => absurd hb (h b)
      · intro h b hb
        obtain ⟨rfl, -⟩ := h b hb
        exact hnot hb

theorem lookup_exclusiveMinimum : (upgradeKeywords obj).lookup "exclusiveMinimum" =
    (upgradeExclusive "exclusiveMinimum" "minimum" (upgradeNullable obj)).lookup
      "exclusiveMinimum" := by
  unfold upgradeKeywords
  rw [lookup_upgradeEnum_ne (by decide) (by decide), lookup_upgradeExclusive_ne (by decide)]

theorem lookup_exclusiveMaximum : (upgradeKeywords obj).lookup "exclusiveMaximum" =
    (upgradeExclusive "exclusiveMaximum" "maximum"
      (upgradeExclusive "exclusiveMinimum" "minimum" (upgradeNullable obj))).lookup
        "exclusiveMaximum" := by
  unfold upgradeKeywords
  rw [lookup_upgradeEnum_ne (by decide) (by decide)]

end

theorem map_upgrade_eq_bool {o : Option Value} {b : Bool} :
    o.map upgrade30To31 = some (.bool b) ↔ o = some (.bool b) := by
  cases o with
  | none => simp
  | some v => cases v <;> simp [upgrade30To31]

/-- **The upgrade of an object leaves nothing of 3.0 exactly if there is a rule for every form
that the object has.** -/
theorem without30_upgrade_iff (v : Value) : Without30 (upgrade30To31 v) ↔ Rewritable v := by
  cases v with
  | object obj =>
      have hnullable : (upgrade30To31 (.object obj)).get "nullable" = none ↔
          ∀ w, obj.lookup "nullable" = some w →
            w = .bool true ∧ (obj.lookup "type").isSome = true := by
        rw [get_upgrade30To31, Option.map_eq_none_iff,
          lookup_upgradeKeywords_nullable (Or.inr rfl), lookup_nullable_upgradeNullable]
      have hminimum : (∀ b, (upgrade30To31 (.object obj)).get "exclusiveMinimum" ≠
          some (.bool b)) ↔ Bounded (.object obj) "exclusiveMinimum" "minimum" := by
        have h := @lookup_bool_upgradeExclusive (upgradeNullable obj) "exclusiveMinimum" "minimum"
        rw [lookup_upgradeNullable_ne (by decide) (by decide),
          lookup_upgradeNullable_ne (by decide) (by decide)] at h
        simp only [get_upgrade30To31, ne_eq, map_upgrade_eq_bool, lookup_exclusiveMinimum]
        exact h
      have hmaximum : (∀ b, (upgrade30To31 (.object obj)).get "exclusiveMaximum" ≠
          some (.bool b)) ↔ Bounded (.object obj) "exclusiveMaximum" "maximum" := by
        have h := @lookup_bool_upgradeExclusive
          (upgradeExclusive "exclusiveMinimum" "minimum" (upgradeNullable obj))
          "exclusiveMaximum" "maximum"
        have hinner : ∀ k, k ≠ "exclusiveMinimum" → k ≠ "type" → k ≠ "nullable" →
            (upgradeExclusive "exclusiveMinimum" "minimum" (upgradeNullable obj)).lookup k =
              obj.lookup k := fun k hmin htype hnull => by
          rw [lookup_upgradeExclusive_ne hmin, lookup_upgradeNullable_ne htype hnull]
        rw [hinner "exclusiveMaximum" (by decide) (by decide) (by decide),
          hinner "maximum" (by decide) (by decide) (by decide)] at h
        simp only [get_upgrade30To31, ne_eq, map_upgrade_eq_bool, lookup_exclusiveMaximum]
        exact h
      constructor
      · rintro ⟨h1, h2, h3⟩
        exact ⟨hnullable.mp h1, hminimum.mp h2, hmaximum.mp h3⟩
      · rintro ⟨h1, h2, h3⟩
        exact ⟨hnullable.mpr h1, hminimum.mpr h2, hmaximum.mpr h3⟩
  | _ =>
      refine iff_of_true ⟨rfl, fun b h => ?_, fun b h => ?_⟩ ⟨fun w h => ?_, fun b h => ?_,
        fun b h => ?_⟩ <;> cases h

/-! ## §4  Documents -/

/-- **An upgraded document has no schema with a keyword of 3.0 if and only if** each `nullable`
of a schema is `true` and next to a type, and each boolean for an exclusive bound is `true` and
next to a number for the bound. -/
theorem upgraded_without30_iff {doc : Value} (hmaps : MapsOfObjects doc) :
    (∀ v, Position (upgrade30To31 doc) (.one .schema) v → Without30 v) ↔
      ∀ v, Position doc (.one .schema) v → Rewritable v := by
  constructor
  · intro h v hv
    rcases position_upgraded hmaps hv with hrole | hbool | hposition
    · cases hrole
    · rw [← without30_upgrade_iff]
      cases v <;> cases hbool
      constructor
      · rfl
      · intro b h
        cases h
      · intro b h
        cases h
    · exact (without30_upgrade_iff v).mp (h _ hposition)
  · intro h v' hv'
    rcases exists_position hmaps hv' with hrole | ⟨v, hv, rfl⟩
    · cases hrole
    · exact (without30_upgrade_iff v).mpr (h v hv)

/-- A text, with a flag for `null`. -/
def flagSchema (flag : Bool) : Value :=
  .object [("nullable", .bool flag), ("type", .string "string")]

/-- A document with one schema. -/
def flagDoc (flag : Bool) : Value :=
  .object [("components", .object [("schemas", .object [("Name", flagSchema flag)])]),
    ("info", .object [("title", .string "Names"), ("version", .string "1")]),
    ("openapi", .string "3.0.3"), ("paths", .object [])]

theorem position_flagSchema (flag : Bool) :
    Position (flagDoc flag) (.one .schema) (flagSchema flag) :=
  .member (.member (.member .root (k := "components") rfl rfl) (k := "schemas") rfl rfl)
    (k := "Name") rfl rfl

theorem position_flagDoc {flag : Bool} {r : Role} {v : Value} (h : Position (flagDoc flag) r v) :
    (r, v) ∈ [(.document, flagDoc flag), (.names true .pathItem, .object []),
      (.one .components, .object [("schemas", .object [("Name", flagSchema flag)])]),
      (.schemas, .object [("Name", flagSchema flag)]), (.one .schema, flagSchema flag)] := by
  induction h with
  | root => exact List.mem_cons_self
  | @member r v k r' w _ hrole hget ih =>
      have hentry : ∀ {entries : List (String × Value)}, v = .object entries →
          (k, w) ∈ entries := by
        rintro entries rfl
        exact mem_of_lookup_eq_some hget
      simp only [List.mem_cons, Prod.mk.injEq, List.not_mem_nil, or_false] at ih
      rcases ih with ⟨rfl, rfl⟩ | ⟨rfl, rfl⟩ | ⟨rfl, rfl⟩ | ⟨rfl, rfl⟩ | ⟨rfl, rfl⟩ <;>
        have hmem := hentry rfl <;>
        simp only [List.mem_cons, Prod.mk.injEq, List.not_mem_nil, or_false] at hmem
      · rcases hmem with ⟨rfl, rfl⟩ | ⟨rfl, rfl⟩ | ⟨rfl, rfl⟩ | ⟨rfl, rfl⟩ <;> cases hrole <;> simp
      · obtain ⟨rfl, rfl⟩ := hmem
        cases hrole
        simp
      · obtain ⟨rfl, rfl⟩ := hmem
        cases hrole
        simp
      · rcases hmem with ⟨rfl, rfl⟩ | ⟨rfl, rfl⟩ <;> cases hrole
  | item _ _ ih => simp [flagSchema] at ih

theorem mapsOfObjects_flagDoc (flag : Bool) : MapsOfObjects (flagDoc flag) := by
  intro r v h
  have hmem := position_flagDoc h
  simp only [List.mem_cons, Prod.mk.injEq, List.not_mem_nil, or_false] at hmem
  rcases hmem with ⟨rfl, rfl⟩ | ⟨rfl, rfl⟩ | ⟨rfl, rfl⟩ | ⟨rfl, rfl⟩ | ⟨rfl, rfl⟩
  · trivial
  · intro k w hw
    cases hw
  · trivial
  · intro k w hw
    obtain ⟨rfl, rfl⟩ := Prod.mk.inj (List.mem_singleton.mp (mem_of_lookup_eq_some hw))
    exact Or.inl rfl
  · trivial

/-- A name that may be null. -/
theorem upgraded_without30_nullable : MapsOfObjects (flagDoc true) ∧
    ∀ v, Position (upgrade30To31 (flagDoc true)) (.one .schema) v → Without30 v := by
  refine ⟨mapsOfObjects_flagDoc true, ?_⟩
  refine (upgraded_without30_iff (mapsOfObjects_flagDoc true)).mpr fun v hv => ?_
  have hschema : v = flagSchema true := by simpa using position_flagDoc hv
  rw [hschema]
  refine ⟨fun w hw => ?_, fun b hb => ?_, fun b hb => ?_⟩
  · cases hw
    exact ⟨rfl, rfl⟩
  · cases hb
  · cases hb

/-- A schema that says that it may not be null keeps saying so. -/
theorem upgraded_keeps_nullable : MapsOfObjects (flagDoc false) ∧
    ¬∀ v, Position (upgrade30To31 (flagDoc false)) (.one .schema) v → Without30 v := by
  refine ⟨mapsOfObjects_flagDoc false, fun h => ?_⟩
  have hposition : Position (upgrade30To31 (flagDoc false)) (.one .schema)
      (upgrade30To31 (flagSchema false)) := by
    rcases position_upgraded (mapsOfObjects_flagDoc false) (position_flagSchema false) with
      hrole | hbool | hposition
    · cases hrole
    · cases hbool
    · exact hposition
  have hrewritable := (without30_upgrade_iff (flagSchema false)).mp (h _ hposition)
  have hflag := (hrewritable.nullable (.bool false) rfl).1
  cases hflag

end SpecForge.Cli
