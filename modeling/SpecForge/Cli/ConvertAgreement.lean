import SpecForge.Cli.Convert
import SpecForge.Core.Downgraded

/-!
# The two downgrades

The CLI's downgrade leaves out the core's first pass, which turns a reference with siblings
into an `allOf`. §1 compares what both make of one object: its bounds and its `required`
names, which are the keywords that the first pass can change; §2 the members that end up in
the result, and so where the first pass makes a difference.
-/

namespace SpecForge.Cli

open Lib

section

variable {obj : List (String × Value)} {v w : Value} {k : String}

/-! ## §1  One object with and without the first pass -/

/-- Both passes and the second one alone give the same. -/
def Same (v : Value) : Prop := downgraded v = SpecForge.downgradeValue v

theorem same_array {items : List Value} : Same (.array items) ↔ ∀ v ∈ items, Same v := by
  rw [Same, downgraded_array, downgradeValue_array, Value.array.injEq, List.map_inj_left]
  rfl

theorem same_of_not_container (harray : v.asArray = none) (hobject : v.isObject = false) :
    Same v := by
  rcases v with _ | _ | _ | _ | _ | _
  · rfl
  · rfl
  · rfl
  · rfl
  · cases harray
  · cases hobject

theorem same_of_asStr {s : String} (h : v.asStr = some s) : Same v := by
  rcases v with _ | _ | _ | _ | _ | _
  · cases h
  · cases h
  · cases h
  · rfl
  · cases h
  · cases h

/-- What becomes of `required` when some names are asked for. -/
def requiredOf (required : Option Value) (extra : List String) : Option Value :=
  if extra.isEmpty then required
  else
    match required.getD (.array []) with
    | .array names => some (.array (pushRequired names extra))
    | _ => required

def askedFor (obj : List (String × Value)) : List String :=
  ((obj.lookup "dependentRequired").map extraRequired).getD []

theorem lookup_downgradeKeywords_required :
    (SpecForge.downgradeKeywords obj).lookup "required" =
      requiredOf (obj.lookup "required") (askedFor obj) := by
  have hbefore : ∀ k, k ∉ ["type", "nullable", "exclusiveMinimum", "exclusiveMaximum", "const",
      "enum"] → (downgradeConst (downgradeExclusive "exclusiveMaximum"
        (downgradeExclusive "exclusiveMinimum" (downgradeType obj)))).lookup k =
          obj.lookup k := by
    intro k hk
    simp only [List.mem_cons, List.not_mem_nil, or_false, not_or] at hk
    obtain ⟨htype, hnullable, hmin, hmax, hconst, henum⟩ := hk
    rw [lookup_downgradeConst_ne hconst henum, lookup_downgradeExclusive_ne hmax,
      lookup_downgradeExclusive_ne hmin, lookup_downgradeType_ne htype hnullable]
  unfold SpecForge.downgradeKeywords
  rw [lookup_downgradePrefixItems_ne (by decide) (by decide), downgradeDependentRequired,
    hbefore _ (by decide), askedFor]
  rcases obj.lookup "dependentRequired" with _ | deps
  · exact hbefore _ (by decide)
  · dsimp only [Option.map_some, Option.getD_some]
    rw [requiredOf, BTreeMap.lookup_removeKey_ne (by decide), hbefore _ (by decide)]
    split
    · rw [BTreeMap.lookup_removeKey_ne (by decide), hbefore _ (by decide)]
    · have hkept := hbefore "required" (by decide)
      rw [← BTreeMap.lookup_removeKey_ne (show "required" ≠ "dependentRequired" by decide)] at hkept
      cases (obj.lookup "required").getD (.array []) with
      | array names => exact BTreeMap.lookup_insertKey_self _ _ _
      | _ => exact hkept

/-- The names pushed are new ones; there are none exactly if all are there. -/
theorem pushRequired_eq_append (names : List Value) (extra : List String) :
    ∃ pushed : List String, pushRequired names extra = names ++ pushed.map Value.string ∧
      (pushed = [] ↔ ∀ dep ∈ extra, names.any (fun v => v.asStr == some dep) = true) := by
  unfold pushRequired
  induction extra generalizing names with
  | nil => exact ⟨[], by simp, by simp⟩
  | cons dep extra ih =>
      rw [List.foldl_cons]
      by_cases hlisted : names.any (fun v => v.asStr == some dep) = true
      · obtain ⟨pushed, heq, hiff⟩ := ih names
        rw [if_pos hlisted]
        refine ⟨pushed, heq, ?_⟩
        rw [hiff, List.forall_mem_cons, and_iff_right hlisted]
      · obtain ⟨pushed, heq, -⟩ := ih (names ++ [.string dep])
        rw [if_neg hlisted]
        refine ⟨dep :: pushed, ?_, ?_⟩
        · rw [heq, List.append_assoc]
          rfl
        · refine iff_of_false (List.cons_ne_nil _ _) fun hall => ?_
          exact hlisted (hall dep List.mem_cons_self)

theorem pushRequired_extract (names : List Value) (extra : List String) :
    pushRequired (names.map extractRefSiblings) extra =
      (pushRequired names extra).map extractRefSiblings :=
  map_pushRequired_of asStr_extractRefSiblings (fun _ => rfl) names extra

theorem requiredOf_nil (required : Option Value) : requiredOf required [] = required := rfl

theorem requiredOf_array {names : List Value} {extra : List String} (h : extra ≠ []) :
    requiredOf (some (.array names)) extra = some (.array (pushRequired names extra)) := by
  rw [requiredOf, if_neg (by simpa using h)]
  rfl

theorem requiredOf_none {extra : List String} (h : extra ≠ []) :
    requiredOf none extra = some (.array (pushRequired [] extra)) := by
  rw [requiredOf, if_neg (by simpa using h)]
  rfl

theorem requiredOf_of_not_array {extra : List String} (h : v.asArray = none) :
    requiredOf (some v) extra = some v := by
  rw [requiredOf]
  split
  · rfl
  · rw [Option.getD_some]
    split
    · cases h
    · rfl

/-- The names are those that a reference with siblings among the dependencies hides. -/
def hidesNames (obj : List (String × Value)) : Bool :=
  ((obj.lookup "dependentRequired").map Value.hasRefSiblings).getD false

theorem askedFor_extract :
    askedFor (BTreeMap.mapEntries (fun _ => extractRefSiblings) obj) =
      if hidesNames obj then [] else askedFor obj := by
  rw [askedFor, askedFor, hidesNames, BTreeMap.lookup_mapEntries]
  rcases obj.lookup "dependentRequired" with _ | (_ | _ | _ | _ | _ | deps)
  · rfl
  · rfl
  · rfl
  · rfl
  · rfl
  · rfl
  · change extraRequired (extractRefSiblings (.object deps)) =
      if (siblingRef deps).isSome then [] else extraRequired (.object deps)
    rw [extractRefSiblings]
    rcases siblingRef deps with _ | ref
    · rw [if_neg (by simp), extractEntries_eq]
      change (deps.map _).flatMap _ = deps.flatMap _
      rw [List.flatMap_map]
      apply List.flatMap_congr
      intro e _
      show ((extractRefSiblings e.2).asArray.getD []).filterMap Value.asStr =
        (e.2.asArray.getD []).filterMap Value.asStr
      rcases e.2 with _ | _ | _ | _ | items | o
      · rfl
      · rfl
      · rfl
      · rfl
      · rw [extractRefSiblings, extractItems_eq]
        show (items.map extractRefSiblings).filterMap Value.asStr = items.filterMap Value.asStr
        rw [List.filterMap_map]
        congr 1
        funext v
        exact asStr_extractRefSiblings v
      · rw [extractRefSiblings]
        split <;> rfl
    · rfl

/-- The name is required already, or `required` is no list of names. -/
def Listed (required : Option Value) (name : String) : Prop :=
  ∃ v, required = some v ∧
    ∀ names, v = .array names → names.any (fun v => v.asStr == some name) = true

theorem same_pushRequired {names : List Value} {extra : List String} :
    Same (.array (pushRequired names extra)) ↔ Same (.array names) := by
  obtain ⟨pushed, heq, -⟩ := pushRequired_eq_append names extra
  rw [heq, same_array, same_array]
  constructor
  · exact fun h v hv => h v (List.mem_append_left _ hv)
  · intro h v hv
    rcases List.mem_append.mp hv with hv | hv
    · exact h v hv
    · obtain ⟨t, -, rfl⟩ := List.mem_map.mp hv
      exact same_of_asStr rfl

theorem map_same_iff {o : Option Value} :
    (o.map extractRefSiblings).map SpecForge.downgradeValue = o.map SpecForge.downgradeValue ↔
      ∀ v, o = some v → Same v := by
  rcases o with _ | v
  · simp
  · rw [Option.map_some, Option.map_some, Option.map_some, Option.some.injEq]
    constructor
    · rintro h w ⟨⟩
      exact h
    · exact fun h => h v rfl

theorem asArray_extract (h : v.asArray = none) : (extractRefSiblings v).asArray = none := by
  rcases v with _ | _ | _ | _ | _ | o
  · rfl
  · rfl
  · rfl
  · rfl
  · cases h
  · rw [extractRefSiblings]
    split <;> rfl

theorem requiredOf_extract (required : Option Value) (extra : List String) :
    requiredOf (required.map extractRefSiblings) extra =
      (requiredOf required extra).map extractRefSiblings := by
  by_cases hextra : extra = []
  · rw [hextra, requiredOf_nil, requiredOf_nil]
  · have harray : ∀ names, extractRefSiblings (.array names) =
        .array (names.map extractRefSiblings) := by
      intro names
      rw [extractRefSiblings, extractItems_eq]
    rcases required with _ | v
    · rw [Option.map_none, requiredOf_none hextra, Option.map_some, harray,
        ← pushRequired_extract]
      rfl
    · rcases hv : v.asArray with _ | names
      · rw [Option.map_some, requiredOf_of_not_array (asArray_extract hv),
          requiredOf_of_not_array hv, Option.map_some]
      · obtain rfl : v = .array names := by
          rcases v with _ | _ | _ | _ | _ | _ <;> cases hv
          rfl
        rw [Option.map_some, harray, requiredOf_array hextra, requiredOf_array hextra,
          Option.map_some, harray, pushRequired_extract]

theorem same_requiredOf (required : Option Value) (extra : List String) :
    (∀ v, requiredOf required extra = some v → Same v) ↔ ∀ v, required = some v → Same v := by
  by_cases hextra : extra = []
  · rw [hextra, requiredOf_nil]
  · rcases required with _ | v
    · rw [requiredOf_none hextra]
      refine iff_of_true ?_ (by rintro v ⟨⟩)
      rintro v ⟨⟩
      exact same_pushRequired.mpr (same_array.mpr fun v hv => absurd hv List.not_mem_nil)
    · rcases hv : v.asArray with _ | names
      · rw [requiredOf_of_not_array hv]
      · obtain rfl : v = .array names := by
          rcases v with _ | _ | _ | _ | _ | _ <;> cases hv
          rfl
        rw [requiredOf_array hextra]
        constructor
        · rintro h v ⟨⟩
          exact same_pushRequired.mp (h _ rfl)
        · rintro h v ⟨⟩
          exact same_pushRequired.mpr (h _ rfl)

/-- Without the names, `required` is the same only if it has them all. -/
theorem required_hidden_iff (required : Option Value) (extra : List String) :
    (required.map extractRefSiblings).map SpecForge.downgradeValue =
        (requiredOf required extra).map SpecForge.downgradeValue ↔
      (∀ name ∈ extra, Listed required name) ∧ ∀ v, required = some v → Same v := by
  by_cases hextra : extra = []
  · rw [hextra, requiredOf_nil, map_same_iff]
    simp
  · obtain ⟨name, rest, hcons⟩ := List.exists_cons_of_ne_nil hextra
    rcases required with _ | v
    · rw [Option.map_none, requiredOf_none hextra]
      refine iff_of_false (by simp) ?_
      rintro ⟨hlisted, -⟩
      obtain ⟨v, hv, -⟩ := hlisted name (hcons ▸ List.mem_cons_self)
      cases hv
    · rcases hv : v.asArray with _ | names
      · rw [requiredOf_of_not_array hv, map_same_iff]
        refine (and_iff_right ?_).symm
        intro name _
        refine ⟨v, rfl, ?_⟩
        rintro names rfl
        cases hv
      · obtain rfl : v = .array names := by
          rcases v with _ | _ | _ | _ | _ | _ <;> cases hv
          rfl
        obtain ⟨pushed, heq, hpushed⟩ := pushRequired_eq_append names extra
        have hlisted : (∀ name ∈ extra, Listed (some (.array names)) name) ↔ pushed = [] := by
          rw [hpushed]
          refine forall₂_congr fun name _ => ?_
          constructor
          · rintro ⟨v, ⟨⟩, hnames⟩
            exact hnames names rfl
          · intro hany
            refine ⟨_, rfl, ?_⟩
            rintro names' ⟨⟩
            exact hany
        rw [hlisted, requiredOf_array hextra, heq]
        constructor
        · intro h
          have hlengths := congrArg (fun o : Option Value =>
            ((o.bind Value.asArray).map List.length)) h
          have harray : extractRefSiblings (.array names) =
              .array (names.map extractRefSiblings) := by
            rw [extractRefSiblings, extractItems_eq]
          simp only [Option.map_some, harray, downgradeValue_array, Option.bind_some,
            Value.asArray, List.length_map, List.length_append, Option.some.injEq] at hlengths
          have hnone : pushed = [] := List.eq_nil_of_length_eq_zero (by omega)
          subst hnone
          rw [List.map_nil, List.append_nil, map_same_iff] at h
          exact ⟨rfl, h⟩
        · rintro ⟨rfl, hsame⟩
          rw [List.map_nil, List.append_nil, map_same_iff]
          exact hsame

/-! ## §2  The members of the result -/

/-- A type array of at most one type and `null`, which overwrites `nullable`. -/
def hasNullType (obj : List (String × Value)) : Bool :=
  match obj.lookup "type" with
  | some (.array arr) =>
      arr.any isNullName && decide ((arr.filter fun v => !isNullName v).length ≤ 1)
  | _ => false

/-- The member is in the result, under its key or another one. -/
structure Stays (obj : List (String × Value)) (k : String) : Prop where
  dependentRequired : k ≠ "dependentRequired"
  prefixItems : k ≠ "prefixItems"
  items : k = "items" → firstPrefixItem obj = none
  enum : k = "enum" → obj.lookup "const" = none
  nullable : k = "nullable" → hasNullType obj = false

/-- The second pass goes from a value into a part of it. -/
inductive Visited : Value → Value → Prop where
  | item {items : List Value} {w : Value} : w ∈ items → Visited (.array items) w
  | member {obj : List (String × Value)} {k : String} {w : Value} : obj.lookup k = some w →
      Stays obj k → Visited (.object obj) w
  | prefixItem {obj : List (String × Value)} {w : Value} : firstPrefixItem obj = some w →
      Visited (.object obj) w

theorem stays_of_notMem (h : k ∉ keywordKeys) : Stays obj k := by
  constructor
  · rintro rfl
    exact h (by decide)
  · rintro rfl
    exact h (by decide)
  · rintro rfl
    exact absurd (by decide) h
  · rintro rfl
    exact absurd (by decide) h
  · rintro rfl
    exact absurd (by decide) h

theorem stays_of_mem (h : k ∈ ["type", "exclusiveMinimum", "exclusiveMaximum", "const",
    "required"]) : Stays obj k := by
  simp only [List.mem_cons, List.not_mem_nil, or_false] at h
  rcases h with rfl | rfl | rfl | rfl | rfl
  all_goals
    exact ⟨by decide, by decide, fun h => absurd h (by decide), fun h => absurd h (by decide),
      fun h => absurd h (by decide)⟩

/-- The three things that the rewriting of the type may do. -/
theorem downgradeType_cases :
    (∃ arr t, obj.lookup "type" = some (.array arr) ∧ hasNullType obj = true ∧ t ∈ arr ∧
      (∀ v ∈ arr, isNullName v = true ∨ v = t) ∧
      (downgradeType obj).lookup "type" = some t ∧
      (downgradeType obj).lookup "nullable" = some (.bool true)) ∨
    (∃ arr, obj.lookup "type" = some (.array arr) ∧ hasNullType obj = true ∧
      (∀ v ∈ arr, isNullName v = true) ∧ (downgradeType obj).lookup "type" = none ∧
      (downgradeType obj).lookup "nullable" = some (.bool true)) ∨
    hasNullType obj = false ∧ downgradeType obj = obj := by
  rcases htype : obj.lookup "type" with _ | type
  · refine Or.inr (Or.inr ⟨?_, ?_⟩)
    · rw [hasNullType, htype]
    · rw [downgradeType, htype]
  · rcases harr : type.asArray with _ | arr
    · refine Or.inr (Or.inr ⟨?_, ?_⟩)
      · rw [hasNullType, htype]
        rcases type with _ | _ | _ | _ | _ | _ <;> first | rfl | cases harr
      · rw [downgradeType, htype]
        rcases type with _ | _ | _ | _ | _ | _ <;> first | rfl | cases harr
    · obtain rfl : type = .array arr := by
        rcases type with _ | _ | _ | _ | _ | _ <;> cases harr
        rfl
      rcases hany : arr.any isNullName with _ | _
      · refine Or.inr (Or.inr ⟨?_, ?_⟩)
        · rw [hasNullType, htype]
          dsimp only
          rw [hany, Bool.false_and]
        · rw [downgradeType, htype]
          dsimp only
          rw [hany, if_neg Bool.false_ne_true]
      · rcases hfilter : arr.filter fun v => !isNullName v with _ | ⟨t, _ | ⟨t', ts⟩⟩
        · refine Or.inr (Or.inl ⟨arr, rfl, ?_, ?_, ?_⟩)
          · rw [hasNullType, htype]
            dsimp only
            rw [hany, hfilter]
            rfl
          · intro v hv
            simpa using List.filter_eq_nil_iff.mp hfilter v hv
          · rw [downgradeType, htype]
            dsimp only
            rw [hany, if_pos rfl, hfilter]
            dsimp only
            rw [BTreeMap.lookup_insertKey_ne (by decide), BTreeMap.lookup_removeKey_self,
              BTreeMap.lookup_insertKey_self]
            exact ⟨rfl, rfl⟩
        · refine Or.inl ⟨arr, t, rfl, ?_, ?_, ?_, ?_⟩
          · rw [hasNullType, htype]
            dsimp only
            rw [hany, hfilter]
            rfl
          · exact List.mem_of_mem_filter (hfilter ▸ List.mem_cons_self)
          · intro v hv
            rcases hnull : isNullName v with _ | _
            · have hmem : v ∈ arr.filter fun v => !isNullName v :=
                List.mem_filter.mpr ⟨hv, by rw [hnull]; rfl⟩
              rw [hfilter, List.mem_singleton] at hmem
              exact Or.inr hmem
            · exact Or.inl rfl
          · rw [downgradeType, htype]
            dsimp only
            rw [hany, if_pos rfl, hfilter]
            dsimp only
            rw [BTreeMap.lookup_insertKey_ne (by decide), BTreeMap.lookup_insertKey_self,
              BTreeMap.lookup_insertKey_self]
            exact ⟨rfl, rfl⟩
        · refine Or.inr (Or.inr ⟨?_, ?_⟩)
          · rw [hasNullType, htype]
            dsimp only
            rw [hany, hfilter]
            rfl
          · rw [downgradeType, htype]
            dsimp only
            rw [hany, if_pos rfl, hfilter]

theorem same_of_isNullName (h : isNullName v = true) : Same v := by
  rw [isNullName, beq_iff_eq] at h
  exact same_of_asStr h

theorem same_type_iff : (∀ v, (downgradeType obj).lookup "type" = some v → Same v) ↔
    ∀ v, obj.lookup "type" = some v → Same v := by
  rcases @downgradeType_cases obj with ⟨arr, t, htype, -, ht, hall, hdown, -⟩ |
    ⟨arr, htype, -, hall, hdown, -⟩ | ⟨-, hdown⟩
  · rw [htype, hdown]
    constructor
    · rintro h v ⟨⟩
      rw [same_array]
      intro x hx
      rcases hall x hx with hnull | rfl
      · exact same_of_isNullName hnull
      · exact h x rfl
    · rintro h v ⟨⟩
      exact same_array.mp (h _ rfl) t ht
  · rw [htype, hdown]
    refine iff_of_true (by rintro v ⟨⟩) ?_
    rintro v ⟨⟩
    exact same_array.mpr fun x hx => same_of_isNullName (hall x hx)
  · rw [hdown]

theorem same_nullable_iff : (∀ v, (downgradeType obj).lookup "nullable" = some v → Same v) ↔
    (hasNullType obj = false → ∀ v, obj.lookup "nullable" = some v → Same v) := by
  rcases @downgradeType_cases obj with ⟨arr, t, -, hnull, -, -, -, hdown⟩ |
    ⟨arr, -, hnull, -, -, hdown⟩ | ⟨hnull, hdown⟩
  · rw [hdown, hnull]
    refine iff_of_true ?_ (by simp)
    rintro v ⟨⟩
    exact same_of_not_container rfl rfl
  · rw [hdown, hnull]
    refine iff_of_true ?_ (by simp)
    rintro v ⟨⟩
    exact same_of_not_container rfl rfl
  · rw [hdown, hnull]
    simp

theorem same_exclusive_iff (hfield : k ∈ ["exclusiveMinimum", "exclusiveMaximum"]) :
    (∀ v, (SpecForge.downgradeKeywords obj).lookup k = some v → Same v) ↔
      ∀ v, obj.lookup k = some v → Same v := by
  by_cases hnum : ∃ n, obj.lookup k = some (.number n)
  · obtain ⟨n, hn⟩ := hnum
    rw [lookup_downgradeKeywords_exclusive hfield hn, hn]
    refine iff_of_true ?_ ?_
    · rintro v ⟨⟩
      exact same_of_not_container rfl rfl
    · rintro v ⟨⟩
      exact same_of_not_container rfl rfl
  · rw [lookup_downgradeKeywords_of_not_number hfield fun n hn => hnum ⟨n, hn⟩]

/-- The members of the result, but for `required`, are the visited ones. -/
theorem same_members_iff :
    ((∀ k ≠ "required", ∀ v, (SpecForge.downgradeKeywords obj).lookup k = some v → Same v) ∧
      ∀ v, obj.lookup "required" = some v → Same v) ↔
    ∀ w, Visited (.object obj) w → Same w := by
  constructor
  · rintro ⟨hmembers, hrequired⟩ w (_ | @⟨_, k, _, hk, hstays⟩ | @⟨_, _, hfirst⟩)
    · by_cases hkeyword : k ∈ keywordKeys
      · simp only [keywordKeys, List.mem_cons, List.not_mem_nil, or_false] at hkeyword
        rcases hkeyword with rfl | rfl | rfl | rfl | rfl | rfl | rfl | rfl | rfl | rfl
        · have htype := hmembers "type" (by decide)
          rw [lookup_downgradeKeywords_type] at htype
          exact same_type_iff.mp htype w hk
        · have hnullable := hmembers "nullable" (by decide)
          rw [lookup_downgradeKeywords_nullable] at hnullable
          exact same_nullable_iff.mp hnullable (hstays.nullable rfl) w hk
        · exact (same_exclusive_iff (by decide)).mp (hmembers _ (by decide)) w hk
        · exact (same_exclusive_iff (by decide)).mp (hmembers _ (by decide)) w hk
        · have henum := hmembers "enum" (by decide) (.array [w]) (by
            rw [lookup_downgradeKeywords_enum, hk]
            rfl)
          exact same_array.mp henum w (List.mem_singleton.mpr rfl)
        · refine hmembers "enum" (by decide) w ?_
          rw [lookup_downgradeKeywords_enum, hstays.enum rfl, hk]
          rfl
        · exact absurd rfl hstays.dependentRequired
        · exact hrequired w hk
        · exact absurd rfl hstays.prefixItems
        · refine hmembers "items" (by decide) w ?_
          rw [lookup_downgradeKeywords_items, hstays.items rfl, hk]
          rfl
      · refine hmembers k (by rintro rfl; exact hkeyword (by decide)) w ?_
        rw [lookup_downgradeKeywords_of_notMem hkeyword, hk]
    · refine hmembers "items" (by decide) w ?_
      rw [lookup_downgradeKeywords_items, hfirst]
      rfl
  · intro hvisited
    have hmember : ∀ k v, obj.lookup k = some v → Stays obj k → Same v :=
      fun k v hk hstays => hvisited v (.member hk hstays)
    refine ⟨?_, fun v hv => hmember _ v hv (stays_of_mem (by decide))⟩
    intro k hrequired v hv
    by_cases hkeyword : k ∈ keywordKeys
    · simp only [keywordKeys, List.mem_cons, List.not_mem_nil, or_false] at hkeyword
      rcases hkeyword with rfl | rfl | rfl | rfl | rfl | rfl | rfl | rfl | rfl | rfl
      · rw [lookup_downgradeKeywords_type] at hv
        exact same_type_iff.mpr (fun v hv => hmember _ v hv (stays_of_mem (by decide))) v hv
      · rw [lookup_downgradeKeywords_nullable] at hv
        refine same_nullable_iff.mpr (fun hnull v hv => hmember _ v hv ?_) v hv
        exact ⟨by decide, by decide, fun h => absurd h (by decide),
          fun h => absurd h (by decide), fun _ => hnull⟩
      · exact (same_exclusive_iff (by decide)).mpr
          (fun v hv => hmember _ v hv (stays_of_mem (by decide))) v hv
      · exact (same_exclusive_iff (by decide)).mpr
          (fun v hv => hmember _ v hv (stays_of_mem (by decide))) v hv
      · rw [lookup_downgradeKeywords_removed (by decide)] at hv
        cases hv
      · rw [lookup_downgradeKeywords_enum] at hv
        rcases hconst : obj.lookup "const" with _ | c
        · rw [hconst] at hv
          refine hmember _ v hv ⟨by decide, by decide, fun h => absurd h (by decide),
            fun _ => hconst, fun h => absurd h (by decide)⟩
        · rw [hconst] at hv
          obtain rfl : Value.array [c] = v := Option.some.inj hv
          rw [same_array]
          intro x hx
          rw [List.mem_singleton.mp hx]
          exact hmember _ c hconst (stays_of_mem (by decide))
      · rw [lookup_downgradeKeywords_removed (by decide)] at hv
        cases hv
      · exact absurd rfl hrequired
      · rw [lookup_downgradeKeywords_removed (by decide)] at hv
        cases hv
      · rw [lookup_downgradeKeywords_items] at hv
        rcases hfirst : firstPrefixItem obj with _ | first
        · rw [hfirst] at hv
          exact hmember _ v hv ⟨by decide, by decide, fun _ => hfirst,
            fun h => absurd h (by decide), fun h => absurd h (by decide)⟩
        · rw [hfirst] at hv
          obtain rfl : first = v := Option.some.inj hv
          exact hvisited first (.prefixItem hfirst)
    · rw [lookup_downgradeKeywords_of_notMem hkeyword] at hv
      exact hmember k v hv (stays_of_notMem hkeyword)

/-- The first pass leaves this object as it is, and does not take a name from its
`required`. -/
structure Bare (obj : List (String × Value)) : Prop where
  noSiblings : siblingRef obj = none
  required : hidesNames obj = true → ∀ name ∈ askedFor obj, Listed (obj.lookup "required") name

theorem same_object_iff (hsorted : BTreeMap.Sorted obj) :
    Same (.object obj) ↔ Bare obj ∧ ∀ w, Visited (.object obj) w → Same w := by
  rcases hsiblings : siblingRef obj with _ | ref
  · have hlookups : Same (.object obj) ↔ ∀ k,
        ((SpecForge.downgradeKeywords (BTreeMap.mapEntries (fun _ => extractRefSiblings) obj)).lookup
          k).map SpecForge.downgradeValue =
        ((SpecForge.downgradeKeywords obj).lookup k).map SpecForge.downgradeValue := by
      rw [Same, downgraded_object hsiblings, downgradeValue_object, Value.object.injEq]
      constructor
      · intro h k
        have hk := congrArg (List.lookup k) h
        rwa [BTreeMap.lookup_mapEntries, BTreeMap.lookup_mapEntries] at hk
      · intro h
        apply BTreeMap.Sorted.eq_of_lookup
        · exact BTreeMap.sorted_mapEntries
            (sorted_downgradeKeywords (BTreeMap.sorted_mapEntries hsorted))
        · exact BTreeMap.sorted_mapEntries (sorted_downgradeKeywords hsorted)
        · intro k
          rw [BTreeMap.lookup_mapEntries, BTreeMap.lookup_mapEntries]
          exact h k
    have hother : ∀ k ≠ "required",
        (SpecForge.downgradeKeywords (BTreeMap.mapEntries (fun _ => extractRefSiblings) obj)).lookup
          k = ((SpecForge.downgradeKeywords obj).lookup k).map extractRefSiblings := by
      intro k hk
      by_cases hexclusive : k ∈ ["exclusiveMinimum", "exclusiveMaximum"]
      · exact lookup_downgradeKeywords_extract_exclusive hexclusive
      · refine lookup_downgradeKeywords_extract ?_
        simp only [List.mem_cons, List.not_mem_nil, or_false, not_or] at hexclusive ⊢
        exact ⟨hexclusive.1, hexclusive.2, hk⟩
    have hrequired : ((SpecForge.downgradeKeywords
          (BTreeMap.mapEntries (fun _ => extractRefSiblings) obj)).lookup "required").map
            SpecForge.downgradeValue =
          ((SpecForge.downgradeKeywords obj).lookup "required").map SpecForge.downgradeValue ↔
        (hidesNames obj = true → ∀ name ∈ askedFor obj, Listed (obj.lookup "required") name) ∧
          ∀ v, obj.lookup "required" = some v → Same v := by
      rw [lookup_downgradeKeywords_required, lookup_downgradeKeywords_required,
        askedFor_extract, BTreeMap.lookup_mapEntries]
      rcases hidesNames obj with _ | _
      · rw [if_neg Bool.false_ne_true, requiredOf_extract, map_same_iff, same_requiredOf]
        simp
      · rw [if_pos rfl, requiredOf_nil, required_hidden_iff]
        simp
    rw [hlookups, ← same_members_iff]
    constructor
    · intro h
      obtain ⟨hlisted, hsame⟩ := hrequired.mp (h "required")
      refine ⟨⟨hsiblings, hlisted⟩, ?_, hsame⟩
      intro k hk
      rw [← map_same_iff, ← hother k hk]
      exact h k
    · rintro ⟨hbare, hmembers, hsame⟩ k
      by_cases hk : k = "required"
      · rw [hk]
        exact hrequired.mpr ⟨hbare.required, hsame⟩
      · rw [hother k hk, map_same_iff]
        exact hmembers k hk
  · refine iff_of_false ?_ ?_
    · intro h
      have hget := congrArg (Value.get · "$ref") h
      rw [downgraded_wrapper hsiblings, downgradeValue_object] at hget
      simp only [Value.get_object, BTreeMap.lookup_mapEntries] at hget
      rw [lookup_downgradeKeywords_of_notMem (by decide)] at hget
      have hnone : obj.lookup "$ref" = none := by
        rw [← Option.map_eq_none_iff, ← hget]
        rfl
      rw [siblingRef, hnone] at hsiblings
      cases hsiblings
    · rintro ⟨hbare, -⟩
      rw [hbare.noSiblings] at hsiblings
      cases hsiblings

/-- Every object that the second pass comes to is one that the first pass leaves alone. -/
def EveryBare (v : Value) : Prop :=
  ∀ obj, Relation.ReflTransGen Visited v (.object obj) → Bare obj

theorem everyBare_iff : EveryBare v ↔
    (∀ obj, v = .object obj → Bare obj) ∧ ∀ w, Visited v w → EveryBare w := by
  constructor
  · intro h
    refine ⟨?_, fun w hw obj hobj => h obj (.head hw hobj)⟩
    rintro obj rfl
    exact h obj .refl
  · rintro ⟨hself, hparts⟩ obj hobj
    rcases Relation.ReflTransGen.cases_head hobj with rfl | ⟨w, hw, hobj⟩
    · exact hself obj rfl
    · exact hparts w hw obj hobj

theorem part_of_visited (h : Visited v w) :
    Value.Part v w ∨ ∃ items, Value.Part v (.array items) ∧ w ∈ items := by
  rcases h with hw | ⟨hk, -⟩ | hfirst
  · exact Or.inl (.item hw)
  · exact Or.inl (.member (mem_of_lookup_eq_some hk))
  · rw [firstPrefixItem, Option.bind_eq_some_iff] at hfirst
    obtain ⟨items, hitems, hhead⟩ := hfirst
    rw [Option.bind_eq_some_iff] at hitems
    obtain ⟨p, hp, harr⟩ := hitems
    obtain rfl : p = .array items := by
      rcases p with _ | _ | _ | _ | _ | _ <;> cases harr
      rfl
    exact Or.inr ⟨items, .member (mem_of_lookup_eq_some hp), List.mem_of_mem_head? hhead⟩

/-- Both passes are the second one exactly if all objects on its way are bare. -/
theorem same_iff : v.isOrdered = true → (Same v ↔ EveryBare v) := by
  -- the first of `prefixItems` is two levels down
  have hboth : (v.isOrdered = true → (Same v ↔ EveryBare v)) ∧
      ∀ items, v = .array items → ∀ w ∈ items, w.isOrdered = true → (Same w ↔ EveryBare w) := by
    induction v using Value.induction with
    | array items ih =>
        constructor
        · intro hordered
          rw [Value.isOrdered_array] at hordered
          rw [same_array, everyBare_iff]
          constructor
          · intro h
            refine ⟨by rintro obj ⟨⟩, ?_⟩
            rintro w (hw | _ | _)
            exact ((ih w hw).1 (hordered w hw)).mp (h w hw)
          · rintro ⟨-, hparts⟩ w hw
            exact ((ih w hw).1 (hordered w hw)).mpr (hparts w (.item hw))
        · rintro items' ⟨⟩ w hw
          exact (ih w hw).1
    | object obj ih =>
        refine ⟨?_, by rintro items ⟨⟩⟩
        intro hordered
        rw [Value.isOrdered_object] at hordered
        have hparts : ∀ w, Visited (.object obj) w → (Same w ↔ EveryBare w) := by
          intro w hw
          rcases part_of_visited hw with hpart | ⟨items, hpart, hmem⟩
          · rcases hpart with _ | @⟨_, e, he⟩
            exact (ih e he).1 (hordered.2 e he)
          · obtain ⟨e, he, heq⟩ : ∃ e ∈ obj, e.2 = .array items := by
              generalize hv : Value.array items = v at hpart
              rcases hpart with _ | @⟨_, e, he⟩
              exact ⟨e, he, rfl⟩
            refine (ih e he).2 items heq w hmem ?_
            have hitems := hordered.2 e he
            rw [heq, Value.isOrdered_array] at hitems
            exact hitems w hmem
        rw [same_object_iff hordered.1, everyBare_iff]
        apply and_congr
        · constructor
          · rintro h obj' ⟨⟩
            exact h
          · exact fun h => h obj rfl
        · exact forall₂_congr hparts
    | _ =>
        refine ⟨fun _ => ?_, by rintro items ⟨⟩⟩
        refine iff_of_true (same_of_not_container rfl rfl) ?_
        rw [everyBare_iff]
        exact ⟨by rintro obj ⟨⟩, by rintro w (_ | _ | _)⟩
  exact hboth.1

theorem isOrdered_ensurePaths (h : v.isOrdered = true) : (ensurePaths v).isOrdered = true := by
  rw [ensurePaths]
  split
  · rcases v with _ | _ | _ | _ | _ | obj
    · exact h
    · exact h
    · exact h
    · exact h
    · exact h
    · rw [Value.isOrdered_object] at h
      rw [Value.insert, Value.isOrdered_object]
      refine ⟨BTreeMap.sorted_insertKey h.1, ?_⟩
      intro e he
      rcases BTreeMap.mem_insertKey he with rfl | he
      · rfl
      · exact h.2 e he
  · exact h

end

/-- The CLI and the core downgrade a document to the same value exactly if no object that
ends up in the result is a reference with siblings, and none takes names for `required` from
one. -/
theorem downgrades_agree_iff (json : Value) (hordered : json.isOrdered = true) :
    downgrade31To30 json = SpecForge.downgrade31To30 json ↔ EveryBare (ensurePaths json) := by
  rw [downgrade31To30_eq, ← same_iff (isOrdered_ensurePaths hordered)]
  exact eq_comm

/-- A document of 3.1 with one schema that has one property. -/
def petDoc (pet : List (String × Value)) : Value :=
  .object
    [("components", .object [("schemas", .object [("Owner", .object [("properties",
      .object [("pet", .object pet)])])])]),
    ("info", .object [("title", .string "Pets"), ("version", .string "1")]),
    ("openapi", .string "3.1.0"),
    ("paths", .object [])]

def petProperty (json : Value) : Option Value :=
  ((((json.get "components").bind (·.get "schemas")).bind (·.get "Owner")).bind
    (·.get "properties")).bind (·.get "pet")

theorem downgrades_differ : ¬ ∀ json, json.isOrdered = true → is31 json = true →
    downgrade31To30 json = SpecForge.downgrade31To30 json := by
  intro h
  have heq := h (petDoc [("$ref", .string "#/components/schemas/Pet"),
    ("description", .string "The pet")]) (by decide +kernel) (by decide +kernel)
  have hallOf := congrArg (fun json => ((petProperty json).bind (·.get "allOf")).isSome) heq
  revert hallOf
  decide +kernel

theorem downgrades_agree_iff_lone :
    let json := petDoc [("$ref", .string "#/components/schemas/Pet")]
    json.isOrdered = true ∧ EveryBare (ensurePaths json) :=
  ⟨by decide +kernel, (downgrades_agree_iff _ (by decide +kernel)).mp rfl⟩

end SpecForge.Cli
