import SpecForge.Cli.UpgradedSchemas
import SpecForge.Core.DowngradeTwice

/-!
# Converting again and again

`convert` takes a document to 3.1 or to 3.0, and its result can be converted again. The upgrade
does nothing the second time (§1). After a downgrade of an upgraded document no conversion loses
anything any more (§2, §3), so that from there on only two documents are ever written (§4).
-/

namespace SpecForge.Cli

open Lib

/-! ## §1  Upgrading twice -/

/-- The upgrade finds nothing to rewrite in the members. -/
structure Upgraded (obj : List (String × Value)) : Prop where
  nullable : obj.lookup "nullable" = some (.bool true) → obj.lookup "type" = none
  minimum : obj.lookup "exclusiveMinimum" = some (.bool true) →
    ∀ n, obj.lookup "minimum" ≠ some (.number n)
  maximum : obj.lookup "exclusiveMaximum" = some (.bool true) →
    ∀ n, obj.lookup "maximum" ≠ some (.number n)
  enum : ∀ v, obj.lookup "enum" ≠ some (.array [v])

section

variable {obj : List (String × Value)} {v : Value}

theorem upgradeNullable_eq_self (h : obj.lookup "nullable" = some (.bool true) →
    obj.lookup "type" = none) : upgradeNullable obj = obj := by
  unfold upgradeNullable
  split
  · next type nullable htype hnullable =>
      apply if_neg
      intro htrue
      have hbool : nullable = .bool true := by cases nullable <;> simp_all [Value.asBool]
      rw [h (hbool ▸ hnullable)] at htype
      cases htype
  · rfl

theorem upgradeExclusive_eq_self {field companion : String}
    (h : obj.lookup field = some (.bool true) → ∀ n, obj.lookup companion ≠ some (.number n)) :
    upgradeExclusive field companion obj = obj := by
  unfold upgradeExclusive
  split
  · next htrue =>
      split
      · next n hn => exact absurd hn (h htrue n)
      · rfl
  · rfl

theorem upgradeEnum_eq_self (h : ∀ v, obj.lookup "enum" ≠ some (.array [v])) :
    upgradeEnum obj = obj := by
  unfold upgradeEnum
  split
  · next v hv => exact absurd hv (h v)
  · rfl

theorem Upgraded.keywords (h : Upgraded obj) : upgradeKeywords obj = obj := by
  rw [upgradeKeywords, upgradeNullable_eq_self h.nullable, upgradeExclusive_eq_self h.minimum,
    upgradeExclusive_eq_self h.maximum, upgradeEnum_eq_self h.enum]

/-- Next to a type, `nullable` is not `true` any more. -/
theorem lookup_nullable_upgraded (h : (upgradeNullable obj).lookup "nullable" =
    some (.bool true)) : (upgradeNullable obj).lookup "type" = none := by
  unfold upgradeNullable at h ⊢
  split
  · next type nullable htype hnullable =>
      rw [htype, hnullable] at h
      dsimp only at h
      split at h
      · rw [BTreeMap.lookup_removeKey_self] at h
        cases h
      · next hnot =>
          rw [hnullable] at h
          exact absurd (congrArg (Option.bind · Value.asBool) h) hnot
  · next hnone =>
      cases htype : obj.lookup "type" with
      | none => rfl
      | some type =>
          split at h
          · next type' nullable' htype' hnullable' => exact absurd hnullable' (hnone _ _ htype')
          · exact absurd h (hnone type _ htype)

/-- A bound that is still a flag has no number next to it. -/
theorem lookup_exclusive_upgraded {field companion : String} (hne : companion ≠ field)
    (h : (upgradeExclusive field companion obj).lookup field = some (.bool true)) (n : Number) :
    (upgradeExclusive field companion obj).lookup companion ≠ some (.number n) := by
  rw [lookup_upgradeExclusive_ne hne]
  unfold upgradeExclusive at h
  split at h
  · split at h
    · rw [BTreeMap.lookup_insertKey_self] at h
      cases h
    · next hnone => exact hnone n
  · next hnot => exact absurd h hnot

theorem lookup_enum_upgraded (v : Value) : (upgradeEnum obj).lookup "enum" ≠ some (.array [v]) := by
  unfold upgradeEnum
  split
  · rw [BTreeMap.lookup_removeKey_self]
    nofun
  · next hnone => exact hnone v

/-- **The rewritten keywords are upgraded.** -/
theorem upgraded_upgradeKeywords (obj : List (String × Value)) :
    Upgraded (upgradeKeywords obj) := by
  constructor
  · rw [lookup_upgradeKeywords_nullable (Or.inr rfl), lookup_upgradeKeywords_nullable (Or.inl rfl)]
    exact lookup_nullable_upgraded
  · intro h n
    have hminimum : (upgradeKeywords obj).lookup "minimum" = (upgradeExclusive "exclusiveMinimum"
        "minimum" (upgradeNullable obj)).lookup "minimum" := by
      rw [lookup_upgradeExclusive_ne (by decide), lookup_upgradeKeywords_of_notMem (by decide),
        lookup_upgradeNullable_ne (by decide) (by decide)]
    rw [hminimum]
    rw [lookup_exclusiveMinimum] at h
    exact lookup_exclusive_upgraded (by decide) h n
  · intro h n
    have hmaximum : (upgradeKeywords obj).lookup "maximum" = (upgradeExclusive "exclusiveMaximum"
        "maximum" (upgradeExclusive "exclusiveMinimum" "minimum" (upgradeNullable obj))).lookup
          "maximum" := by
      rw [lookup_upgradeExclusive_ne (by decide), lookup_upgradeExclusive_ne (by decide),
        lookup_upgradeKeywords_of_notMem (by decide),
        lookup_upgradeNullable_ne (by decide) (by decide)]
    rw [hmaximum]
    rw [lookup_exclusiveMaximum] at h
    exact lookup_exclusive_upgraded (by decide) h n
  · exact lookup_enum_upgraded

theorem upgradeKeywords_mapEntries (obj : List (String × Value)) :
    upgradeKeywords (BTreeMap.mapEntries (fun _ => upgrade30To31) obj) =
      BTreeMap.mapEntries (fun _ => upgrade30To31) (upgradeKeywords obj) := by
  have h := upgrade30To31_object obj
  rw [upgrade30To31, upgradeEntries_eq] at h
  exact Value.object.inj h

/-- **The upgrade does nothing the second time**, whatever the value. -/
theorem upgrade_upgrade (v : Value) : upgrade30To31 (upgrade30To31 v) = upgrade30To31 v := by
  induction v using Value.induction with
  | array items ih =>
      rw [upgrade30To31_array, upgrade30To31_array, List.map_map]
      exact congrArg Value.array (List.map_congr_left ih)
  | object obj ih =>
      have hvalues : BTreeMap.mapEntries (fun _ => upgrade30To31)
          (BTreeMap.mapEntries (fun _ => upgrade30To31) obj) =
            BTreeMap.mapEntries (fun _ => upgrade30To31) obj := by
        rw [BTreeMap.mapEntries, BTreeMap.mapEntries, List.map_map]
        apply List.map_congr_left
        intro e he
        exact congrArg (Prod.mk e.1) (ih e he)
      calc upgrade30To31 (upgrade30To31 (.object obj))
          = .object (BTreeMap.mapEntries (fun _ => upgrade30To31) (upgradeKeywords
              (upgradeKeywords (BTreeMap.mapEntries (fun _ => upgrade30To31) obj)))) := by
            rw [upgrade30To31_object obj, ← upgradeKeywords_mapEntries, upgrade30To31_object]
        _ = .object (BTreeMap.mapEntries (fun _ => upgrade30To31)
              (upgradeKeywords (BTreeMap.mapEntries (fun _ => upgrade30To31) obj))) := by
            rw [(upgraded_upgradeKeywords _).keywords]
        _ = upgrade30To31 (.object obj) := by
            rw [← upgradeKeywords_mapEntries, hvalues, upgrade30To31_object,
              upgradeKeywords_mapEntries]
  | _ => rfl

end

/-! ## §2  What has settled -/

/-- An object of 3.0 that an upgrade and a downgrade give back: no keyword of 3.1 is in it, and
where it is nullable, its type has a name. -/
structure Settled (obj : List (String × Value)) : Prop where
  absent : ∀ k ∈ removedKeywords, obj.lookup k = none
  exclusive : ∀ field ∈ ["exclusiveMinimum", "exclusiveMaximum"], ∀ n,
    obj.lookup field ≠ some (.number n)
  types : ∀ arr, obj.lookup "type" = some (.array arr) → arr.any isNullName = true →
    2 ≤ (arr.filter fun t => !isNullName t).length
  nullable : obj.lookup "nullable" = some (.bool true) → ∀ t, obj.lookup "type" = some t →
    ∃ name, name ≠ "null" ∧ t = .string name

section

variable {obj : List (String × Value)} {v : Value}

theorem downgradeType_eq_self (h : ∀ arr, obj.lookup "type" = some (.array arr) →
    arr.any isNullName = true → 2 ≤ (arr.filter fun t => !isNullName t).length) :
    downgradeType obj = obj := by
  unfold downgradeType
  split
  · next arr harr =>
      split
      · next hany =>
          have hlen := h arr harr hany
          split
          · next hone =>
              rw [hone] at hlen
              simp at hlen
          · next hnone =>
              rw [hnone] at hlen
              simp at hlen
          · rfl
      · rfl
  · rfl

/-- What the downgrade leaves of a type and of `nullable`: a name that is nullable, no type that
is, or both as they were. -/
theorem downgradeType_named (htypes : TypesNamed obj) :
    ((downgradeType obj).lookup "nullable" = some (.bool true) ∧
      ∀ t, (downgradeType obj).lookup "type" = some t →
        ∃ name, name ≠ "null" ∧ t = .string name) ∨
    downgradeType obj = obj ∧ ∀ arr, obj.lookup "type" = some (.array arr) →
      arr.any isNullName = true → 2 ≤ (arr.filter fun t => !isNullName t).length := by
  unfold downgradeType
  split
  · next arr harr =>
      split
      · split
        · next t hone =>
            -- one type is left, and it is a name
            left
            have ht : t ∈ arr.filter fun v => !isNullName v := hone ▸ List.mem_cons_self
            obtain ⟨hmem, hnot⟩ := List.mem_filter.mp ht
            obtain ⟨name, rfl⟩ := htypes arr harr t hmem
            rw [BTreeMap.lookup_insertKey_self, BTreeMap.lookup_insertKey_ne (by decide),
              BTreeMap.lookup_insertKey_self]
            refine ⟨rfl, fun t' ht' => ⟨name, ?_, (Option.some.inj ht').symm⟩⟩
            rintro rfl
            cases hnot
        · left
          rw [BTreeMap.lookup_insertKey_self, BTreeMap.lookup_insertKey_ne (by decide),
            BTreeMap.lookup_removeKey_self]
          exact ⟨rfl, nofun⟩
        · next hnone hmany =>
            refine Or.inr ⟨rfl, fun arr' harr' _ => ?_⟩
            obtain rfl : arr = arr' := by simpa [harr] using harr'
            rcases hrest : arr.filter fun t => !isNullName t with _ | ⟨t, _ | ⟨t', rest⟩⟩
            · exact absurd hrest hmany
            · exact absurd hrest (hnone t)
            · simp
      · next hany =>
          refine Or.inr ⟨rfl, fun arr' harr' hany' => ?_⟩
          obtain rfl : arr = arr' := by simpa [harr] using harr'
          exact absurd hany' hany
  · next hother => exact Or.inr ⟨rfl, fun arr harr => absurd harr (hother arr)⟩

/-- The downgrade settles what has named types and is not nullable next to a type. -/
theorem settled_downgradeKeywords (htypes : TypesNamed obj)
    (hnullable : obj.lookup "nullable" = some (.bool true) → obj.lookup "type" = none) :
    Settled (SpecForge.downgradeKeywords obj) := by
  constructor
  · exact fun k hk => lookup_downgradeKeywords_removed hk
  · exact fun field hfield n => lookup_downgradeKeywords_ne_number hfield n
  · intro arr harr hany
    rw [lookup_downgradeKeywords_type] at harr
    rcases downgradeType_named htypes with ⟨-, hname⟩ | ⟨hself, hlen⟩
    · obtain ⟨name, -, heq⟩ := hname _ harr
      cases heq
    · exact hlen arr (hself ▸ harr) hany
  · intro hnull t ht
    rw [lookup_downgradeKeywords_type] at ht
    rw [lookup_downgradeKeywords_nullable] at hnull
    rcases downgradeType_named htypes with ⟨-, hname⟩ | ⟨hself, -⟩
    · exact hname t ht
    · rw [hself] at hnull ht
      rw [hnullable hnull] at ht
      cases ht

/-- The downgrade of the type undoes the upgrade. -/
theorem Settled.lookup_downgradeType (h : Settled obj) {u : List (String × Value)}
    (htype : u.lookup "type" = (upgradeNullable obj).lookup "type")
    (hnullable : u.lookup "nullable" = (upgradeNullable obj).lookup "nullable") :
    (downgradeType u).lookup "type" = obj.lookup "type" ∧
      (downgradeType u).lookup "nullable" = obj.lookup "nullable" := by
  by_cases htaken : obj.lookup "nullable" = some (.bool true) → obj.lookup "type" = none
  · rw [upgradeNullable_eq_self htaken] at htype hnullable
    rw [downgradeType_eq_self (htype ▸ h.types)]
    exact ⟨htype, hnullable⟩
  · rw [Classical.not_imp] at htaken
    obtain ⟨hnull, hsome⟩ := htaken
    obtain ⟨t, ht⟩ := Option.ne_none_iff_exists'.mp hsome
    obtain ⟨name, hname, rfl⟩ := h.nullable hnull t ht
    have hup : upgradeNullable obj = BTreeMap.removeKey "nullable"
        (BTreeMap.insertKey "type" (.array [.string name, .string "null"]) obj) := by
      rw [upgradeNullable, ht, hnull]
      rfl
    rw [hup, BTreeMap.lookup_removeKey_ne (by decide), BTreeMap.lookup_insertKey_self] at htype
    have hdown : downgradeType u = BTreeMap.insertKey "nullable" (.bool true)
        (BTreeMap.insertKey "type" (.string name) u) := by
      have hnot : isNullName (.string name) = false := by
        simpa [isNullName, Value.asStr] using hname
      rw [downgradeType, htype]
      simp [hnot, show isNullName (.string "null") = true from rfl]
    rw [hdown, BTreeMap.lookup_insertKey_ne (by decide), BTreeMap.lookup_insertKey_self,
      BTreeMap.lookup_insertKey_self, ht, hnull]
    exact ⟨rfl, rfl⟩

theorem Settled.lookup_exclusive (h : Settled obj) {field : String}
    (hfield : field ∈ ["exclusiveMinimum", "exclusiveMaximum"]) :
    (SpecForge.downgradeKeywords (upgradeKeywords obj)).lookup field = obj.lookup field := by
  rcases @lookup_upgradeKeywords_exclusive obj field hfield with hsame | ⟨htrue, n, hn⟩
  · rw [lookup_downgradeKeywords_of_not_number hfield fun n hn =>
      h.exclusive field hfield n (hsame ▸ hn), hsame]
  · rw [lookup_downgradeKeywords_exclusive hfield hn, htrue]

theorem Settled.lookup_enum (h : Settled obj) :
    (SpecForge.downgradeKeywords (upgradeKeywords obj)).lookup "enum" = obj.lookup "enum" := by
  have hbefore : ∀ k, k ≠ "type" → k ≠ "nullable" → k ≠ "exclusiveMinimum" →
      k ≠ "exclusiveMaximum" → (upgradeExclusive "exclusiveMaximum" "maximum"
        (upgradeExclusive "exclusiveMinimum" "minimum" (upgradeNullable obj))).lookup k =
          obj.lookup k := by
    intro k htype hnullable hmin hmax
    rw [lookup_upgradeExclusive_ne hmax, lookup_upgradeExclusive_ne hmin,
      lookup_upgradeNullable_ne htype hnullable]
  have hconst := hbefore "const" (by decide) (by decide) (by decide) (by decide)
  rw [h.absent _ (by decide)] at hconst
  rw [lookup_downgradeKeywords_enum, ← hbefore "enum" (by decide) (by decide) (by decide)
    (by decide)]
  exact lookup_upgradeEnum hconst

/-- A settled object gets its keywords back. -/
theorem Settled.keywords (h : Settled obj) (hsorted : BTreeMap.Sorted obj) :
    SpecForge.downgradeKeywords (upgradeKeywords obj) = obj := by
  apply BTreeMap.Sorted.eq_of_lookup
    (sorted_downgradeKeywords (sorted_upgradeKeywords hsorted)) hsorted
  intro k
  by_cases hkeyword : k ∈ keywordKeys
  · have hremoved : ∀ k ∈ removedKeywords,
        (SpecForge.downgradeKeywords (upgradeKeywords obj)).lookup k = obj.lookup k := by
      intro k hk
      rw [lookup_downgradeKeywords_removed hk, h.absent k hk]
    have htypes := h.lookup_downgradeType (lookup_upgradeKeywords_nullable (Or.inl rfl))
      (lookup_upgradeKeywords_nullable (Or.inr rfl))
    simp only [keywordKeys, List.mem_cons, List.not_mem_nil, or_false] at hkeyword
    rcases hkeyword with rfl | rfl | rfl | rfl | rfl | rfl | rfl | rfl | rfl | rfl
    · rw [lookup_downgradeKeywords_type, htypes.1]
    · rw [lookup_downgradeKeywords_nullable, htypes.2]
    · exact h.lookup_exclusive (by decide)
    · exact h.lookup_exclusive (by decide)
    · exact hremoved _ (by decide)
    · exact h.lookup_enum
    · exact hremoved _ (by decide)
    · have hdep : (upgradeKeywords obj).lookup "dependentRequired" = none := by
        rw [lookup_upgradeKeywords_of_notMem (by decide), h.absent _ (by decide)]
      rw [lookup_downgradeKeywords_required_of_none hdep,
        lookup_upgradeKeywords_of_notMem (by decide)]
    · exact hremoved _ (by decide)
    · have htuple : (upgradeKeywords obj).lookup "prefixItems" = none := by
        rw [lookup_upgradeKeywords_of_notMem (by decide), h.absent _ (by decide)]
      rw [lookup_downgradeKeywords_items, firstPrefixItem, htuple,
        lookup_upgradeKeywords_of_notMem (by decide)]
      rfl
  · have hupgraded : k ∉ upgradedKeys := by
      intro hmem
      refine hkeyword ?_
      simp only [upgradedKeys, List.mem_cons, List.not_mem_nil, or_false] at hmem
      rcases hmem with rfl | rfl | rfl | rfl | rfl | rfl <;> decide
    rw [lookup_downgradeKeywords_of_notMem hkeyword, lookup_upgradeKeywords_of_notMem hupgraded]

/-- A member that is no keyword changes nothing in this. -/
theorem Settled.insertKey (h : Settled obj) {k : String} (hk : k ∉ keywordKeys) (w : Value) :
    Settled (BTreeMap.insertKey k w obj) := by
  have hlookup : ∀ j ∈ keywordKeys, (BTreeMap.insertKey k w obj).lookup j = obj.lookup j :=
    fun j hj => BTreeMap.lookup_insertKey_ne (ne_of_mem_of_not_mem hj hk) w obj
  have hremoved : removedKeywords ⊆ keywordKeys := by decide
  have hbounds : ["exclusiveMinimum", "exclusiveMaximum"] ⊆ keywordKeys := by decide
  constructor
  · intro j hj
    rw [hlookup j (hremoved hj)]
    exact h.absent j hj
  · intro field hfield
    rw [hlookup field (hbounds hfield)]
    exact h.exclusive field hfield
  · rw [hlookup "type" (by decide)]
    exact h.types
  · rw [hlookup "nullable" (by decide), hlookup "type" (by decide)]
    exact h.nullable

theorem asStr_upgrade (v : Value) : (upgrade30To31 v).asStr = v.asStr := by
  cases v <;> rfl

/-- The upgrade of the values keeps an object settled. -/
theorem Settled.mapEntries (h : Settled obj) :
    Settled (BTreeMap.mapEntries (fun _ => upgrade30To31) obj) := by
  have hnull : isNullName ∘ upgrade30To31 = isNullName := by
    funext v
    rw [Function.comp_apply, isNullName, asStr_upgrade, isNullName]
  have hnot : (fun t => !isNullName t) ∘ upgrade30To31 = fun t => !isNullName t :=
    funext fun t => congrArg not (congrFun hnull t)
  constructor
  · intro k hk
    rw [BTreeMap.lookup_mapEntries, h.absent k hk, Option.map_none]
  · intro field hfield n hn
    rw [BTreeMap.lookup_mapEntries, Option.map_eq_some_iff] at hn
    obtain ⟨v, hv, hnumber⟩ := hn
    cases v with
    | number m => exact h.exclusive field hfield m hv
    | _ => cases hnumber
  · intro arr harr hany
    rw [BTreeMap.lookup_mapEntries, Option.map_eq_some_iff] at harr
    obtain ⟨v, hv, harr⟩ := harr
    cases v with
    | array ts =>
        rw [upgrade30To31_array] at harr
        obtain rfl := Value.array.inj harr
        rw [List.any_map, hnull] at hany
        rw [List.filter_map, hnot, List.length_map]
        exact h.types ts hv hany
    | _ => cases harr
  · intro hnullable t ht
    rw [BTreeMap.lookup_mapEntries, map_upgrade_eq_bool] at hnullable
    rw [BTreeMap.lookup_mapEntries, Option.map_eq_some_iff] at ht
    obtain ⟨t', ht', rfl⟩ := ht
    obtain ⟨name, hname, rfl⟩ := h.nullable hnullable t' ht'
    exact ⟨name, hname, rfl⟩

/-- What is settled at every depth comes back from an upgrade and a downgrade. -/
theorem downgrade_upgrade_of_settled (hordered : v.isOrdered = true)
    (h : EveryObject Settled v) : downgradeValue (upgrade30To31 v) = v := by
  rw [downgradeValue_eq]
  induction v using Value.induction with
  | array items ih =>
      rw [Value.isOrdered_array] at hordered
      rw [everyObject_array] at h
      rw [upgrade30To31_array, downgradeValue_array, List.map_map]
      refine congrArg Value.array ((List.map_congr_left ?_).trans (List.map_id items))
      exact fun x hx => ih x hx (hordered x hx) (h x hx)
  | object obj ih =>
      rw [Value.isOrdered_object] at hordered
      obtain ⟨hself, hparts⟩ := everyObject_object.mp h
      have hkeywords := hself.mapEntries.keywords (BTreeMap.sorted_mapEntries hordered.1)
      rw [upgrade30To31, upgradeEntries_eq, downgradeValue_object, hkeywords,
        BTreeMap.mapEntries, BTreeMap.mapEntries, List.map_map]
      refine congrArg Value.object ((List.map_congr_left ?_).trans (List.map_id obj))
      intro e he
      exact congrArg (Prod.mk e.1) (ih e he (hordered.2 e he) (hparts e he))
  | _ => rfl

/-! ## §3  What settles -/

/-- The types are named, and none is next to a `nullable` that holds. -/
structure Taken (obj : List (String × Value)) : Prop where
  types : TypesNamed obj
  nullable : obj.lookup "nullable" = some (.bool true) → obj.lookup "type" = none

theorem typesNamed_insertKey {k : String} (hk : k ≠ "type") (w : Value) (h : TypesNamed obj) :
    TypesNamed (BTreeMap.insertKey k w obj) := by
  intro arr harr
  rw [BTreeMap.lookup_insertKey_ne hk.symm] at harr
  exact h arr harr

theorem Taken.insertKey (h : Taken obj) {k : String} (htype : k ≠ "type")
    (hnullable : k ≠ "nullable") (w : Value) : Taken (BTreeMap.insertKey k w obj) where
  types := typesNamed_insertKey htype w h.types
  nullable := by
    rw [BTreeMap.lookup_insertKey_ne hnullable.symm, BTreeMap.lookup_insertKey_ne htype.symm]
    exact h.nullable

theorem typesNamed_upgrade (h : TypesNamed obj) :
    TypesNamed (BTreeMap.mapEntries (fun _ => upgrade30To31) obj) := by
  intro arr harr t ht
  rw [BTreeMap.lookup_mapEntries, Option.map_eq_some_iff] at harr
  obtain ⟨v, hv, harr⟩ := harr
  cases v with
  | array ts =>
      rw [upgrade30To31_array] at harr
      obtain rfl := Value.array.inj harr
      obtain ⟨t', ht', rfl⟩ := List.mem_map.mp ht
      obtain ⟨name, rfl⟩ := h ts hv t' ht'
      exact ⟨name, rfl⟩
  | _ => cases harr

theorem typesNamed_upgradeNullable (h : TypesNamed obj) :
    TypesNamed (upgradeNullable obj) := by
  intro arr harr t ht
  unfold Cli.upgradeNullable at harr
  split at harr
  · next type nullable htype hnullable =>
      split at harr
      · rw [BTreeMap.lookup_removeKey_ne (by decide)] at harr
        cases hname : type.asStr with
        | none =>
            rw [hname] at harr
            exact h arr harr t ht
        | some name =>
            rw [hname, BTreeMap.lookup_insertKey_self] at harr
            obtain rfl := Value.array.inj (Option.some.inj harr)
            rcases List.mem_pair.mp ht with rfl | rfl
            · exact ⟨_, rfl⟩
            · exact ⟨_, rfl⟩
      · exact h arr harr t ht
  · exact h arr harr t ht

theorem taken_upgradeKeywords (h : TypesNamed obj) : Taken (upgradeKeywords obj) where
  types := by
    intro arr harr
    rw [lookup_upgradeKeywords_nullable (Or.inl rfl)] at harr
    exact typesNamed_upgradeNullable h arr harr
  nullable := (upgraded_upgradeKeywords obj).nullable

section Values

variable {P : List (String × Value) → Prop}

theorem everyObject_insertKey {k : String} {w : Value} (h : ∀ e ∈ obj, EveryObject P e.2)
    (hw : EveryObject P w) : ∀ e ∈ BTreeMap.insertKey k w obj, EveryObject P e.2 := by
  intro e he
  rcases BTreeMap.mem_insertKey he with rfl | he
  · exact hw
  · exact h e he

theorem everyObject_removeKey (k : String) (h : ∀ e ∈ obj, EveryObject P e.2) :
    ∀ e ∈ BTreeMap.removeKey k obj, EveryObject P e.2 :=
  fun e he => h e (List.mem_of_mem_filter he)

/-- The upgrade of the keywords only moves values, and puts in names and numbers. -/
theorem everyObject_upgradeKeywords (h : ∀ e ∈ obj, EveryObject P e.2) :
    ∀ e ∈ upgradeKeywords obj, EveryObject P e.2 := by
  have hnullable : ∀ e ∈ upgradeNullable obj, EveryObject P e.2 := by
    unfold upgradeNullable
    split
    · split
      · apply everyObject_removeKey
        split
        · apply everyObject_insertKey h
          rw [everyObject_array]
          intro w hw
          rcases List.mem_pair.mp hw with rfl | rfl <;> exact everyObject_leaf rfl rfl
        · exact h
      · exact h
    · exact h
  have hexclusive : ∀ field companion (obj : List (String × Value)),
      (∀ e ∈ obj, EveryObject P e.2) →
        ∀ e ∈ upgradeExclusive field companion obj, EveryObject P e.2 := by
    intro field companion obj h
    unfold upgradeExclusive
    split
    · split
      · exact everyObject_insertKey h (everyObject_leaf rfl rfl)
      · exact h
    · exact h
  have hbounds := hexclusive "exclusiveMaximum" "maximum" _
    (hexclusive "exclusiveMinimum" "minimum" _ hnullable)
  unfold upgradeKeywords upgradeEnum
  dsimp only
  split
  · next v henum =>
      apply everyObject_removeKey
      apply everyObject_insertKey hbounds
      have harray := hbounds _ (mem_of_lookup_eq_some henum)
      exact everyObject_array.mp harray v List.mem_cons_self
  · exact hbounds

/-- What the upgrade makes of every object, whose values are all done before its keywords. -/
theorem everyObject_upgrade {Q : List (String × Value) → Prop}
    (hobject : ∀ obj, P obj →
      Q (upgradeKeywords (BTreeMap.mapEntries (fun _ => upgrade30To31) obj)))
    (h : EveryObject P v) : EveryObject Q (upgrade30To31 v) := by
  induction v using Value.induction with
  | object obj ih =>
      obtain ⟨hself, hparts⟩ := everyObject_object.mp h
      rw [upgrade30To31, upgradeEntries_eq]
      refine everyObject_object.mpr ⟨hobject obj hself, everyObject_upgradeKeywords ?_⟩
      intro e he
      obtain ⟨e', he', rfl⟩ := List.mem_map.mp he
      exact ih e' he' (hparts e' he')
  | array items ih =>
      rw [upgrade30To31_array, everyObject_array]
      intro w hw
      obtain ⟨w', hw', rfl⟩ := List.mem_map.mp hw
      exact ih w' hw' (everyObject_array.mp h w' hw')
  | _ => exact everyObject_leaf rfl rfl

end Values

theorem lookup_downgradeEntries {k : String} (hk : k ≠ "dependentRequired") :
    (SpecForge.downgradeEntries obj).lookup k =
      (obj.lookup k).map SpecForge.downgradeValue := by
  have hentry : downgradeEntry k = SpecForge.downgradeValue :=
    funext fun w => downgradeEntry_of_ne hk
  rw [SpecForge.downgradeEntries_eq, BTreeMap.lookup_mapEntries]
  show Option.map (downgradeEntry k) _ = _
  rw [hentry]

theorem typesNamed_downgradeEntries (h : TypesNamed obj) :
    TypesNamed (SpecForge.downgradeEntries obj) := by
  intro arr harr t ht
  rw [lookup_downgradeEntries (by decide), Option.map_eq_some_iff] at harr
  obtain ⟨w, hw, harr⟩ := harr
  obtain ⟨ts, rfl, rfl⟩ := downgradeValue_eq_array harr
  obtain ⟨t', ht', rfl⟩ := List.mem_map.mp ht
  obtain ⟨name, rfl⟩ := h ts hw t' ht'
  exact ⟨name, rfl⟩

/-- What an upgrade leaves has no `nullable` to take in. -/
theorem everyObject_taken (h : EveryObject TypesNamed v) : EveryObject Taken (upgrade30To31 v) :=
  everyObject_upgrade (fun _ hobj => taken_upgradeKeywords (typesNamed_upgrade hobj)) h

/-- **A downgrade settles what was upgraded.** -/
theorem everyObject_settled (h : EveryObject Taken v) : EveryObject Settled (downgradeValue v) := by
  rw [downgradeValue_eq]
  apply everyObject_downgrade _ h
  intro obj htaken
  apply settled_downgradeKeywords (typesNamed_downgradeEntries htaken.types)
  intro hnullable
  rw [lookup_downgradeEntries (by decide), Option.map_eq_some_iff] at hnullable
  obtain ⟨w, hw, hbool⟩ := hnullable
  have htrue : w = .bool true := by
    cases w <;> cases hbool
    rfl
  rw [lookup_downgradeEntries (by decide), htaken.nullable (htrue ▸ hw), Option.map_none]

theorem isOrdered_iff : v.isOrdered = true ↔ EveryObject BTreeMap.Sorted v := by
  refine ⟨everyObject_sorted, fun h => ?_⟩
  induction v using Value.induction with
  | object obj ih =>
      obtain ⟨hself, hparts⟩ := everyObject_object.mp h
      exact Value.isOrdered_object.mpr ⟨hself, fun e he => ih e he (hparts e he)⟩
  | array items ih =>
      exact Value.isOrdered_array.mpr fun w hw => ih w hw (everyObject_array.mp h w hw)
  | _ => rfl

theorem isOrdered_upgrade (h : v.isOrdered = true) : (upgrade30To31 v).isOrdered = true := by
  rw [isOrdered_iff] at h ⊢
  apply everyObject_upgrade _ h
  exact fun obj hsorted => sorted_upgradeKeywords (BTreeMap.sorted_mapEntries hsorted)

theorem isOrdered_downgrade (h : v.isOrdered = true) : (downgradeValue v).isOrdered = true := by
  rw [isOrdered_iff] at h ⊢
  rw [downgradeValue_eq]
  apply everyObject_downgrade _ h
  intro obj hsorted
  rw [SpecForge.downgradeEntries_eq]
  exact sorted_downgradeKeywords (BTreeMap.sorted_mapEntries hsorted)

/-- The downgrade keeps the types named. -/
theorem everyObject_typesNamed (h : EveryObject TypesNamed v) :
    EveryObject TypesNamed (downgradeValue v) := by
  rw [downgradeValue_eq]
  apply everyObject_downgrade _ h
  intro obj htypes arr harr t ht
  have hentries := typesNamed_downgradeEntries htypes
  rw [lookup_downgradeKeywords_type] at harr
  rcases downgradeType_named hentries with ⟨-, hname⟩ | ⟨hself, -⟩
  · obtain ⟨name, -, heq⟩ := hname _ harr
    cases heq
  · exact hentries arr (hself ▸ harr) t ht

/-- The upgrade of the keywords reads its own keys only. -/
theorem lookup_upgradeKeywords_congr {obj' : List (String × Value)} {k : String}
    (hk : k ∉ readKeys) (h : ∀ j, j ≠ k → obj.lookup j = obj'.lookup j) :
    ∀ j, j ≠ k → (upgradeKeywords obj).lookup j = (upgradeKeywords obj').lookup j := by
  have hread : ∀ j ∈ readKeys, j ≠ k := fun j hj heq => hk (heq ▸ hj)
  have hexclusive : ∀ field ∈ readKeys, ∀ companion ∈ readKeys, ∀ o o' : List (String × Value),
      (∀ j, j ≠ k → o.lookup j = o'.lookup j) → ∀ j, j ≠ k →
        (upgradeExclusive field companion o).lookup j =
          (upgradeExclusive field companion o').lookup j := by
    intro field hfield companion hcompanion o o' ho j hj
    unfold upgradeExclusive
    rw [ho field (hread field hfield), ho companion (hread companion hcompanion)]
    split
    · split
      · rw [BTreeMap.lookup_insertKey, BTreeMap.lookup_insertKey, ho j hj]
      · exact ho j hj
    · exact ho j hj
  have hnullable : ∀ j, j ≠ k → (upgradeNullable obj).lookup j =
      (upgradeNullable obj').lookup j := by
    intro j hj
    unfold upgradeNullable
    rw [h "type" (hread _ (by decide)), h "nullable" (hread _ (by decide))]
    split
    · split
      · rw [BTreeMap.lookup_removeKey, BTreeMap.lookup_removeKey]
        split
        · rfl
        · split
          · rw [BTreeMap.lookup_insertKey, BTreeMap.lookup_insertKey, h j hj]
          · exact h j hj
      · exact h j hj
    · exact h j hj
  have hbounds := hexclusive "exclusiveMaximum" (by decide) "maximum" (by decide) _ _
    (hexclusive "exclusiveMinimum" (by decide) "minimum" (by decide) _ _ hnullable)
  intro j hj
  unfold upgradeKeywords upgradeEnum
  dsimp only
  rw [hbounds "enum" (hread _ (by decide))]
  split
  · rw [BTreeMap.lookup_removeKey, BTreeMap.lookup_removeKey, BTreeMap.lookup_insertKey,
      BTreeMap.lookup_insertKey, hbounds j hj]
  · exact hbounds j hj

/-- A member that no keyword reads can be put in before or after the upgrade. -/
theorem upgrade_insert {k : String} (hk : k ∉ readKeys) {w : Value} (hw : upgrade30To31 w = w)
    (hordered : v.isOrdered = true) :
    upgrade30To31 (v.insert k w) = (upgrade30To31 v).insert k w := by
  cases v with
  | object obj =>
      rw [Value.isOrdered_object] at hordered
      have hkeys : upgradeKeywords (BTreeMap.insertKey k w obj) =
          BTreeMap.insertKey k w (upgradeKeywords obj) := by
        apply BTreeMap.Sorted.eq_of_lookup
          (sorted_upgradeKeywords (BTreeMap.sorted_insertKey hordered.1))
          (BTreeMap.sorted_insertKey (sorted_upgradeKeywords hordered.1))
        intro j
        by_cases hj : j = k
        · subst hj
          rw [lookup_upgradeKeywords_of_notMem fun hmem => hk (List.mem_append_left _ hmem),
            BTreeMap.lookup_insertKey_self, BTreeMap.lookup_insertKey_self]
        · rw [BTreeMap.lookup_insertKey_ne hj]
          exact lookup_upgradeKeywords_congr hk
            (fun i hi => BTreeMap.lookup_insertKey_ne hi w obj) j hj
      show upgrade30To31 (.object (BTreeMap.insertKey k w obj)) =
        (upgrade30To31 (.object obj)).insert k w
      rw [upgrade30To31_object, upgrade30To31_object, hkeys, BTreeMap.mapEntries_insertKey, hw]
      rfl
  | _ => rfl

end

/-! ## §4  Runs of the command -/

inductive OpenApiVersion where
  | v31
  | v30
deriving DecidableEq

def currentVersion (json : Value) : String :=
  ((json.get "openapi").bind Value.asStr).getD "3.0.3"

/-- What `run_convert` makes of the document. -/
def convert (target : OpenApiVersion) (json : Value) : Value :=
  match target with
  | .v31 =>
      let json := if Text.startsWith "3.1" (currentVersion json) then json
        else upgrade30To31 json
      json.insert "openapi" (.string "3.1.0")
  | .v30 =>
      let json := if Text.startsWith "3.1" (currentVersion json) then downgrade31To30 json
        else json
      json.insert "openapi" (.string "3.0.3")

/-- One command after the other, each on what the one before has written. -/
def convertAll (targets : List OpenApiVersion) (json : Value) : Value :=
  targets.foldl (fun json target => convert target json) json

section

variable {obj : List (String × Value)} {json : Value} {P : List (String × Value) → Prop}

theorem everyObject_insert {k : String} {w : Value}
    (hinsert : ∀ obj, P obj → P (BTreeMap.insertKey k w obj)) (hw : EveryObject P w)
    (h : EveryObject P json) : EveryObject P (json.insert k w) := by
  cases json with
  | object obj =>
      obtain ⟨hself, hparts⟩ := everyObject_object.mp h
      exact everyObject_object.mpr ⟨hinsert obj hself, everyObject_insertKey hparts hw⟩
  | _ => exact h

theorem insertKey_eq_self {k : String} {w : Value} (hsorted : BTreeMap.Sorted obj)
    (hw : obj.lookup k = some w) : BTreeMap.insertKey k w obj = obj := by
  apply BTreeMap.Sorted.eq_of_lookup (BTreeMap.sorted_insertKey hsorted) hsorted
  intro j
  by_cases hj : j = k
  · rw [hj, BTreeMap.lookup_insertKey_self, hw]
  · exact BTreeMap.lookup_insertKey_ne hj w obj

theorem insertKey_insertKey (hsorted : BTreeMap.Sorted obj) (k : String) (v w : Value) :
    BTreeMap.insertKey k w (BTreeMap.insertKey k v obj) = BTreeMap.insertKey k w obj := by
  apply BTreeMap.Sorted.eq_of_lookup
    (BTreeMap.sorted_insertKey (BTreeMap.sorted_insertKey hsorted))
    (BTreeMap.sorted_insertKey hsorted)
  intro j
  rw [BTreeMap.lookup_insertKey, BTreeMap.lookup_insertKey, BTreeMap.lookup_insertKey]
  split <;> rfl

theorem convert_not_object (h : json.isObject = false) :
    convert .v31 json = upgrade30To31 json ∧ convert .v30 json = json := by
  have hversion : currentVersion json = "3.0.3" := by
    rw [currentVersion, Value.get_of_not_object h]
    rfl
  have hold : Text.startsWith "3.1" "3.0.3" = false := by decide
  have hupgraded : (upgrade30To31 json).isObject = false := by
    cases json with
    | object obj => cases h
    | _ => rfl
  constructor
  · rw [convert, hversion, hold]
    exact Value.insert_of_not_object hupgraded
  · rw [convert, hversion, hold]
    exact Value.insert_of_not_object h

/-- A document of 3.1 with the version of its last conversion. -/
theorem convert_of_new (target : OpenApiVersion)
    (hversion : obj.lookup "openapi" = some (.string "3.1.0")) :
    convert target (.object obj) = match target with
      | .v31 => (Value.object obj).insert "openapi" (.string "3.1.0")
      | .v30 => (downgrade31To30 (.object obj)).insert "openapi" (.string "3.0.3") := by
  have hcurrent : currentVersion (.object obj) = "3.1.0" := by
    rw [currentVersion, Value.get_object, hversion]
    rfl
  have hnew : Text.startsWith "3.1" "3.1.0" = true := by decide
  cases target <;> rw [convert, hcurrent, hnew] <;> rfl

/-- A document of 3.0 with the version of its last conversion. -/
theorem convert_of_old (target : OpenApiVersion)
    (hversion : obj.lookup "openapi" = some (.string "3.0.3")) :
    convert target (.object obj) = match target with
      | .v31 => (upgrade30To31 (.object obj)).insert "openapi" (.string "3.1.0")
      | .v30 => (Value.object obj).insert "openapi" (.string "3.0.3") := by
  have hcurrent : currentVersion (.object obj) = "3.0.3" := by
    rw [currentVersion, Value.get_object, hversion]
    rfl
  have hold : Text.startsWith "3.1" "3.0.3" = false := by decide
  cases target <;> rw [convert, hcurrent, hold] <;> rfl

theorem convertAll_append (first last : List OpenApiVersion) (json : Value) :
    convertAll (first ++ last) json = convertAll last (convertAll first json) :=
  List.foldl_append

theorem convertAll_singleton (target : OpenApiVersion) (json : Value) :
    convertAll [target] json = convert target json := rfl

/-- A document of 3.0 from which no conversion takes anything away. -/
structure SettledDoc (json : Value) : Prop where
  back : convert .v30 (convert .v31 json) = json
  stays : convert .v30 json = json
  again : convert .v31 (convert .v31 json) = convert .v31 json

/-- What an upgraded document has under a key that no keyword reads. -/
theorem upgrade_eq_object (obj : List (String × Value)) : ∃ obj',
    upgrade30To31 (.object obj) = .object obj' ∧ ∀ k, k ∉ upgradedKeys →
      obj'.lookup k = (obj.lookup k).map upgrade30To31 := by
  refine ⟨_, upgrade30To31_object obj, fun k hk => ?_⟩
  rw [BTreeMap.lookup_mapEntries, lookup_upgradeKeywords_of_notMem hk]

theorem settledDoc_of_settled (hordered : (Value.object obj).isOrdered = true)
    (hsettled : EveryObject Settled (.object obj)) {paths : Value}
    (hpaths : obj.lookup "paths" = some paths)
    (hversion : obj.lookup "openapi" = some (.string "3.0.3")) : SettledDoc (.object obj) := by
  obtain ⟨hsorted, -⟩ := Value.isOrdered_object.mp hordered
  -- the document under its new version, before and after the upgrade
  have hrenamed : ((Value.object obj).insert "openapi" (.string "3.1.0")).isOrdered = true := by
    rw [isOrdered_iff] at hordered ⊢
    exact everyObject_insert (fun _ h => BTreeMap.sorted_insertKey h) (everyObject_leaf rfl rfl)
      hordered
  have hinserted : EveryObject Settled
      ((Value.object obj).insert "openapi" (.string "3.1.0")) := by
    apply everyObject_insert _ (everyObject_leaf rfl rfl) hsettled
    exact fun obj hobj => hobj.insertKey (by decide) _
  obtain ⟨new, hnew, hlookup⟩ :=
    upgrade_eq_object (BTreeMap.insertKey "openapi" (.string "3.1.0") obj)
  have hupgraded : convert .v31 (.object obj) = .object new := by
    rw [convert_of_old .v31 hversion]
    show (upgrade30To31 (.object obj)).insert "openapi" (.string "3.1.0") = _
    rw [← upgrade_insert (by decide) rfl hordered, ← hnew]
    rfl
  have hnewVersion : new.lookup "openapi" = some (.string "3.1.0") := by
    rw [hlookup _ (by decide), BTreeMap.lookup_insertKey_self]
    rfl
  have hnewPaths : (Value.object new).get "paths" = some (upgrade30To31 paths) := by
    rw [Value.get_object, hlookup _ (by decide), BTreeMap.lookup_insertKey_ne (by decide), hpaths]
    rfl
  have hdowngraded : downgrade31To30 (.object new) =
      .object (BTreeMap.insertKey "openapi" (.string "3.1.0") obj) := by
    rw [downgrade31To30_eq, ensurePaths_of_get hnewPaths, ← downgradeValue_eq, ← hnew]
    exact downgrade_upgrade_of_settled hrenamed hinserted
  constructor
  · rw [hupgraded, convert_of_new .v30 hnewVersion]
    show (downgrade31To30 (.object new)).insert "openapi" (.string "3.0.3") = _
    rw [hdowngraded]
    refine congrArg Value.object ?_
    rw [insertKey_insertKey hsorted, insertKey_eq_self hsorted hversion]
  · rw [convert_of_old .v30 hversion]
    exact congrArg Value.object (insertKey_eq_self hsorted hversion)
  · rw [hupgraded, convert_of_new .v31 hnewVersion]
    refine congrArg Value.object (insertKey_eq_self ?_ hnewVersion)
    have hnewOrdered : (upgrade30To31 (.object (BTreeMap.insertKey "openapi" (.string "3.1.0")
      obj))).isOrdered = true := isOrdered_upgrade hrenamed
    rw [hnew, Value.isOrdered_object] at hnewOrdered
    exact hnewOrdered.1

/-- A version that was put into an object. -/
theorem insert_version (obj : List (String × Value)) (version : String) : ∃ obj',
    (Value.object obj).insert "openapi" (.string version) = .object obj' ∧
      obj'.lookup "openapi" = some (.string version) ∧
      ∀ k, k ≠ "openapi" → obj'.lookup k = obj.lookup k :=
  ⟨_, rfl, BTreeMap.lookup_insertKey_self _ _ _,
    fun _ hk => BTreeMap.lookup_insertKey_ne hk _ _⟩

theorem isOrdered_insert (version : String) (h : json.isOrdered = true) :
    (json.insert "openapi" (.string version)).isOrdered = true := by
  rw [isOrdered_iff] at h ⊢
  exact everyObject_insert (fun _ h => BTreeMap.sorted_insertKey h) (everyObject_leaf rfl rfl) h

/-- A downgraded document is an object with paths, whatever it was before. -/
theorem downgrade_eq_object (obj : List (String × Value)) : ∃ obj' paths,
    downgrade31To30 (.object obj) = .object obj' ∧ obj'.lookup "paths" = some paths := by
  obtain ⟨obj', w, hensured, hpaths, -⟩ := exists_ensurePaths obj
  refine ⟨BTreeMap.mapEntries (fun _ => SpecForge.downgradeValue)
    (SpecForge.downgradeKeywords obj'), SpecForge.downgradeValue w, ?_, ?_⟩
  · rw [downgrade31To30_eq, hensured, SpecForge.downgradeValue_object]
  · rw [BTreeMap.lookup_mapEntries, lookup_downgradeKeywords_of_notMem (by decide), hpaths]
    rfl

theorem isOrdered_downgrade31To30 (h : json.isOrdered = true) :
    (downgrade31To30 json).isOrdered = true := by
  rw [downgrade31To30_eq, ← downgradeValue_eq]
  exact isOrdered_downgrade (isOrdered_ensurePaths h)

/-- The first conversion to 3.0 leaves the types named. -/
theorem convert_old (hordered : (Value.object obj).isOrdered = true)
    (htypes : EveryObject TypesNamed (.object obj)) : ∃ old,
    convert .v30 (.object obj) = .object old ∧ old.lookup "openapi" = some (.string "3.0.3") ∧
      (Value.object old).isOrdered = true ∧ EveryObject TypesNamed (.object old) := by
  have hnamed : ∀ o, EveryObject TypesNamed o →
      EveryObject TypesNamed (o.insert "openapi" (.string "3.0.3")) := fun o ho =>
    everyObject_insert (fun _ h => typesNamed_insertKey (by decide) _ h) (everyObject_leaf rfl rfl)
      ho
  rw [convert]
  split
  · obtain ⟨obj', -, hobj', -⟩ := downgrade_eq_object obj
    obtain ⟨old, hold, hversion, -⟩ := insert_version obj' "3.0.3"
    have hdowngraded : EveryObject TypesNamed (downgrade31To30 (.object obj)) := by
      rw [downgrade31To30_eq, ← downgradeValue_eq]
      exact everyObject_typesNamed (typesNamed_ensurePaths htypes)
    rw [hobj', hold]
    refine ⟨old, rfl, hversion, ?_, ?_⟩
    · rw [← hold, ← hobj']
      exact isOrdered_insert _ (isOrdered_downgrade31To30 hordered)
    · rw [← hold, ← hobj']
      exact hnamed _ hdowngraded
  · obtain ⟨old, hold, hversion, -⟩ := insert_version obj "3.0.3"
    exact ⟨old, hold, hversion, hold ▸ isOrdered_insert _ hordered, hold ▸ hnamed _ htypes⟩

/-- The conversion to 3.1 leaves no `nullable` next to a type. -/
theorem convert_new (hversion : obj.lookup "openapi" = some (.string "3.0.3"))
    (hordered : (Value.object obj).isOrdered = true)
    (htypes : EveryObject TypesNamed (.object obj)) : ∃ new,
    convert .v31 (.object obj) = .object new ∧ new.lookup "openapi" = some (.string "3.1.0") ∧
      (Value.object new).isOrdered = true ∧ EveryObject Taken (.object new) := by
  obtain ⟨obj', hobj', -⟩ := upgrade_eq_object obj
  obtain ⟨new, hnew, hversion', -⟩ := insert_version obj' "3.1.0"
  have htaken : EveryObject Taken ((upgrade30To31 (.object obj)).insert "openapi"
      (.string "3.1.0")) :=
    everyObject_insert (fun _ h => h.insertKey (by decide) (by decide) _)
      (everyObject_leaf rfl rfl) (everyObject_taken htypes)
  have hsorted := isOrdered_insert "3.1.0" (isOrdered_upgrade hordered)
  rw [hobj', hnew] at htaken hsorted
  refine ⟨new, ?_, hversion', hsorted, htaken⟩
  rw [convert_of_old .v31 hversion]
  show (upgrade30To31 (.object obj)).insert "openapi" (.string "3.1.0") = _
  rw [hobj', hnew]

/-- **A downgrade of an upgraded document is settled.** -/
theorem settledDoc_convert (hordered : json.isOrdered = true)
    (htypes : EveryObject TypesNamed json) :
    SettledDoc (convert .v30 (convert .v31 (convert .v30 json))) := by
  cases hobject : json.isObject with
  | false =>
      obtain ⟨hup, hdown⟩ := convert_not_object hobject
      have hupgraded : (upgrade30To31 json).isObject = false := by
        cases json with
        | object obj => cases hobject
        | _ => rfl
      obtain ⟨hup', hdown'⟩ := convert_not_object hupgraded
      rw [upgrade_upgrade] at hup'
      rw [hdown, hup, hdown']
      exact ⟨by rw [hup', hdown'], hdown', by rw [hup', hup']⟩
  | true =>
      obtain ⟨obj, rfl⟩ := Value.isObject_iff.mp hobject
      obtain ⟨old, hold, hversion, holdOrdered, holdTypes⟩ := convert_old hordered htypes
      obtain ⟨new, hnew, hnewVersion, hnewOrdered, hnewTaken⟩ :=
        convert_new hversion holdOrdered holdTypes
      obtain ⟨last, paths, hlast, hpaths⟩ := downgrade_eq_object new
      obtain ⟨doc, hdoc, hdocVersion, hdocLookup⟩ := insert_version last "3.0.3"
      have hensured : EveryObject Taken (ensurePaths (.object new)) := by
        apply everyObject_ensurePaths _ _ hnewTaken
        · exact ⟨nofun, nofun⟩
        · exact fun o w ho => ho.insertKey (by decide) (by decide) w
      have hsettled : EveryObject Settled (downgrade31To30 (.object new)) := by
        rw [downgrade31To30_eq, ← downgradeValue_eq]
        exact everyObject_settled hensured
      have hdocSettled : EveryObject Settled
          ((downgrade31To30 (.object new)).insert "openapi" (.string "3.0.3")) :=
        everyObject_insert (fun _ h => h.insertKey (by decide) _) (everyObject_leaf rfl rfl)
          hsettled
      have hdocOrdered := isOrdered_insert "3.0.3" (isOrdered_downgrade31To30 hnewOrdered)
      rw [hlast, hdoc] at hdocSettled hdocOrdered
      rw [hold, hnew, convert_of_new .v30 hnewVersion]
      show SettledDoc ((downgrade31To30 (.object new)).insert "openapi" (.string "3.0.3"))
      rw [hlast, hdoc]
      have hdocPaths : doc.lookup "paths" = some paths := by
        rw [hdocLookup _ (by decide)]
        exact hpaths
      exact settledDoc_of_settled hdocOrdered hdocSettled hdocPaths hdocVersion

/-- **From there on two documents are written**, whatever the targets: the last target says which
of them it is. -/
theorem convertAll_settled (hordered : json.isOrdered = true)
    (htypes : EveryObject TypesNamed json) (targets : List OpenApiVersion) :
    convertAll ([.v30, .v31, .v30] ++ targets) json =
      if targets.getLast? = some .v31 then convertAll ([.v30, .v31, .v30] ++ [.v31]) json
      else convertAll [.v30, .v31, .v30] json := by
  have hthree : convertAll [.v30, .v31, .v30] json =
      convert .v30 (convert .v31 (convert .v30 json)) := by
    simp only [convertAll, List.foldl_cons, List.foldl_nil]
  have hdoc : SettledDoc (convertAll [.v30, .v31, .v30] json) :=
    hthree ▸ settledDoc_convert hordered htypes
  rw [convertAll_append, convertAll_append [.v30, .v31, .v30] [.v31]]
  generalize convertAll [.v30, .v31, .v30] json = doc at hdoc ⊢
  induction targets using List.reverseRecOn with
  | nil => rfl
  | append_singleton targets target ih =>
      rw [convertAll_append, ih, convertAll_singleton, convertAll_singleton,
        List.getLast?_concat]
      cases target with
      | v31 =>
          split
          · rw [if_pos rfl, hdoc.again]
          · rw [if_pos rfl]
      | v30 =>
          split
          · rw [if_neg nofun]
            exact hdoc.back
          · rw [if_neg nofun]
            exact hdoc.stays

end

/-- A schema that has nothing but a constant and a type that may be null. -/
def constantDoc : Value :=
  .object [("components", .object [("const", .string "Rex"),
    ("type", .array [.string "string", .string "null"])]), ("openapi", .string "3.1.0")]

theorem convertAll_constantDoc :
    convertAll [.v30, .v31, .v30, .v31, .v31, .v30] constantDoc =
      .object [("components", .object [("enum", .array [.string "Rex"]), ("nullable", .bool true),
        ("type", .string "string")]), ("openapi", .string "3.0.3"), ("paths", .object [])] := by
  have hstring : ∀ s, EveryObject TypesNamed (.string s) := fun s => everyObject_leaf rfl rfl
  have htypes : EveryObject TypesNamed constantDoc := by
    simp [constantDoc, everyObject_object, everyObject_array, hstring, TypesNamed,
      List.lookup_cons]
  have hordered : constantDoc.isOrdered = true := by decide +kernel
  refine (convertAll_settled hordered htypes [.v31, .v31, .v30]).trans ?_
  rw [if_neg (by decide)]
  rfl

end SpecForge.Cli
