import SpecForge.Cli.Convert
import SpecForge.Core.DowngradeScope
import SpecForge.Lib.Bounds
import Mathlib.Algebra.Order.Field.Basic
import Mathlib.Algebra.Order.Ring.Rat
import Mathlib.Tactic.Linarith

/-!
# Numeric bounds after a downgrade

What the bounds of a schema object allow, as 3.1 reads them in the document and as 3.0 reads
them in the downgraded one (§1). Objects of the document and of the result are matched by
their positions, for the downgrade of the core and that of the CLI (§2). The downgrade puts
`true` in the place of an exclusive bound, so what is allowed stays the same only if that
number is the companion's too, or no number is allowed in either reading (§3).
-/

namespace SpecForge

open Lib Lib.Bounds

/-! ## §1  Bounds and their readings -/

/-- The value of a double. -/
def FiniteF64.toRat (f : FiniteF64) : ℚ :=
  let exponent := ((f.bits >>> 52) &&& 0x7ff).toNat
  let fraction := (f.bits &&& 0xfffffffffffff).toNat
  let magnitude : ℚ :=
    if exponent = 0 then fraction * 2 ^ (-1074 : ℤ)
    else ((2 ^ 52 + fraction : ℕ) : ℚ) * 2 ^ ((exponent : ℤ) - 1075)
  if f.bits >>> 63 = 0 then magnitude else -magnitude

def Number.toRat : Number → ℚ
  | .posInt n => n.toNat
  | .negInt i _ => i.toInt
  | .float f => f.toRat

def numberOf : Option Value → Option ℚ
  | some (.number n) => some n.toRat
  | _ => none

def isTrue : Option Value → Bool
  | some (.bool b) => b
  | _ => false

/-- The bounds as 3.1 reads them: exclusive bounds are numbers. -/
def allowed31 (v : Value) : Set ℚ :=
  above (numberOf (v.get "minimum")) (numberOf (v.get "exclusiveMinimum")) ∩
    below (numberOf (v.get "maximum")) (numberOf (v.get "exclusiveMaximum"))

/-- The bounds as 3.0 reads them: exclusive bounds are flags of the others. -/
def allowed30 (v : Value) : Set ℚ :=
  aboveFlagged (numberOf (v.get "minimum")) (isTrue (v.get "exclusiveMinimum")) ∩
    belowFlagged (numberOf (v.get "maximum")) (isTrue (v.get "exclusiveMaximum"))

/-! ## §2  Objects and their counterparts -/

/-- The two programs that downgrade. -/
inductive Downgrader where
  | core
  | cli

namespace Downgrader

def downgrade : Downgrader → Value → Value
  | .core => downgrade31To30
  | .cli => Cli.downgrade31To30

/-- Where the members of an object are: the core moves those next to a reference. -/
def body (d : Downgrader) (v w : Value) : Option Value :=
  match d with
  | .core =>
      if v.hasRefSiblings then ((w.get "allOf").bind Value.asArray).bind (·[1]?) else some w
  | .cli => some w

end Downgrader

/-- The member is under its key when the keywords have been rewritten, as a property called `type`
is. A list under `required` has names in it. -/
def KeepsKey (obj : List (String × Value)) (k : String) (x : Value) : Prop :=
  (downgradeKeywords obj).lookup k = some x ∧ (k = "required" → x.asArray = none)

/-- The value `w` of the result stands where `v` stands in the document. -/
inductive Corresponds (d : Downgrader) (json result : Value) : Value → Value → Prop where
  | root : Corresponds d json result json result
  | item {items images : List Value} {i : ℕ} {x y : Value} :
      Corresponds d json result (.array items) (.array images) → items[i]? = some x →
      images[i]? = some y → Corresponds d json result x y
  | member {obj : List (String × Value)} {w b : Value} {k : String} {x y : Value} :
      Corresponds d json result (.object obj) w → d.body (.object obj) w = some b →
      KeepsKey obj k x → obj.lookup k = some x → b.get k = some y → Corresponds d json result x y
  | const {obj : List (String × Value)} {w b : Value} {x y : Value} :
      Corresponds d json result (.object obj) w → d.body (.object obj) w = some b →
      obj.lookup "const" = some x → b.get "enum" = some (.array [y]) →
      Corresponds d json result x y
  | prefixItem {obj : List (String × Value)} {w b : Value} {x y : Value} :
      Corresponds d json result (.object obj) w → d.body (.object obj) w = some b →
      firstPrefixItem obj = some x → b.get "items" = some y → Corresponds d json result x y

namespace Downgrader

/-- What becomes of a value inside a document. -/
def image : Downgrader → Value → Value
  | .core => downgraded
  | .cli => downgradeValue

section

variable {d : Downgrader} {obj : List (String × Value)} {k : String}

theorem downgrade_eq (json : Value) : d.downgrade json = d.image (ensurePaths json) := by
  rcases d with _ | _
  · rfl
  · exact Cli.downgrade31To30_eq json

theorem image_array (items : List Value) :
    d.image (.array items) = .array (items.map d.image) := by
  rcases d with _ | _
  · exact downgraded_array items
  · exact downgradeValue_array items

theorem get_image (hbare : d = .core → siblingRef obj = none) (hk : k ≠ "required") :
    (d.image (.object obj)).get k = ((downgradeKeywords obj).lookup k).map d.image := by
  rcases d with _ | _
  · by_cases hexclusive : k ∈ ["exclusiveMinimum", "exclusiveMaximum"]
    · change (downgraded (.object obj)).get k = _
      rw [get_downgraded (hbare rfl), lookup_downgradeKeywords_extract_exclusive hexclusive,
        Option.map_map]
      rfl
    · refine get_downgraded_keyword (hbare rfl) ?_
      simp only [List.mem_cons, List.not_mem_nil, or_false, not_or] at hexclusive ⊢
      exact ⟨hexclusive.1, hexclusive.2, hk⟩
  · change (downgradeValue (.object obj)).get k = _
    rw [downgradeValue_object, Value.get_object, BTreeMap.lookup_mapEntries]
    rfl

theorem get_image_required (hbare : d = .core → siblingRef obj = none) {x : Value}
    (hx : obj.lookup "required" = some x) (hlist : x.asArray = none) :
    (d.image (.object obj)).get "required" = some (d.image x) := by
  rcases d with _ | _
  · have hextract : (BTreeMap.mapEntries (fun _ => extractRefSiblings) obj).lookup "required" =
        some (extractRefSiblings x) := by
      rw [BTreeMap.lookup_mapEntries, hx]
      rfl
    have hlist' : (extractRefSiblings x).asArray = none := by
      rcases x with _ | _ | _ | _ | items | o
      · rfl
      · rfl
      · rfl
      · rfl
      · cases hlist
      · rw [extractRefSiblings]
        split <;> rfl
    change (downgraded (.object obj)).get "required" = some (downgraded x)
    rw [get_downgraded (hbare rfl), lookup_downgradeKeywords_required_of_not_array hextract hlist']
    rfl
  · change (downgradeValue (.object obj)).get "required" = some (downgradeValue x)
    rw [downgradeValue_object, Value.get_object, BTreeMap.lookup_mapEntries,
      lookup_downgradeKeywords_required_of_not_array hx hlist]
    rfl

theorem numberOf_image (o : Option Value) : numberOf (o.map d.image) = numberOf o := by
  rcases o with _ | v
  · rfl
  · rcases d with _ | _
    · rcases v with _ | _ | _ | _ | items | obj
      · rfl
      · rfl
      · rfl
      · rfl
      · rw [Option.map_some, image_array]
        rfl
      · rcases hsiblings : siblingRef obj with _ | ref
        · change numberOf (some (downgraded (.object obj))) = none
          rw [downgraded_object hsiblings]
          rfl
        · change numberOf (some (downgraded (.object obj))) = none
          rw [downgraded_wrapper hsiblings]
          rfl
    · rcases v with _ | _ | _ | _ | items | obj
      · rfl
      · rfl
      · rfl
      · rfl
      · rfl
      · rfl

theorem isTrue_image (o : Option Value) : isTrue (o.map d.image) = isTrue o := by
  rcases o with _ | v
  · rfl
  · rcases d with _ | _
    · rcases v with _ | _ | _ | _ | items | obj
      · rfl
      · rfl
      · rfl
      · rfl
      · rw [Option.map_some, image_array]
        rfl
      · rcases hsiblings : siblingRef obj with _ | ref
        · change isTrue (some (downgraded (.object obj))) = false
          rw [downgraded_object hsiblings]
          rfl
        · change isTrue (some (downgraded (.object obj))) = false
          rw [downgraded_wrapper hsiblings]
          rfl
    · rcases v with _ | _ | _ | _ | items | obj
      · rfl
      · rfl
      · rfl
      · rfl
      · rfl
      · rfl

/-- The members of one object are those of the other, but for a reference and `paths`. -/
structure Carries (obj o : List (String × Value)) : Prop where
  lookup_eq : ∀ k ∉ ["$ref", "paths"], o.lookup k = obj.lookup k
  keeps : ∀ k x, obj.lookup k = some x → o.lookup k = some x ∨
    o.lookup k = none ∧ k = "$ref" ∧ ∃ ref, x = .string ref

theorem Carries.same {o : List (String × Value)} (h : Carries obj o) : SameKeywords o obj := by
  intro k hk
  have hapart : ∀ k ∈ keywordKeys, k ∉ ["$ref", "paths"] := by decide
  exact h.lookup_eq k (hapart k hk)

/-- A member that keeps its key is there in the image. -/
theorem get_image_kept {o : List (String × Value)} {x : Value}
    (hbare : d = .core → siblingRef o = none) (hcarries : Carries obj o)
    (hkeeps : KeepsKey obj k x) (ho : o.lookup k = some x) :
    (d.image (.object o)).get k = some (d.image x) := by
  by_cases hrequired : k = "required"
  · subst hrequired
    exact get_image_required hbare ho (hkeeps.2 rfl)
  · have hlookup : (downgradeKeywords o).lookup k = some x := by
      by_cases hkeyword : k ∈ keywordKeys
      · rw [sameKeywords_downgradeKeywords hcarries.same k hkeyword, hkeeps.1]
      · rw [lookup_downgradeKeywords_of_notMem hkeyword, ho]
    rw [get_image hbare hrequired, hlookup]
    rfl

/-- What the body of a counterpart is: the image of the members, or of the empty `paths` next
to a lone reference. -/
inductive Holds (d : Downgrader) (obj : List (String × Value)) (b : Value) : Prop where
  | image (o : List (String × Value)) : (d = .core → siblingRef o = none) → Carries obj o →
      b = d.image (.object o) → Holds d obj b
  | lone : (∀ k ≠ "$ref", obj.lookup k = none) →
      (∃ ref, obj.lookup "$ref" = some (.string ref)) → (∀ k ≠ "allOf", b.get k = none) →
      Holds d obj b

theorem ensurePaths_cases (obj : List (String × Value)) :
    ensurePaths (.object obj) = .object obj ∨ obj.lookup "paths" = none ∧
      ensurePaths (.object obj) = .object (BTreeMap.insertKey "paths" (.object []) obj) := by
  rcases hpaths : obj.lookup "paths" with _ | paths
  · exact Or.inr ⟨rfl, by rw [ensurePaths, Value.get_object, hpaths]; rfl⟩
  · exact Or.inl (by rw [ensurePaths, Value.get_object, hpaths])

theorem siblingRef_eq_some_iff {ref : String} : siblingRef obj = some ref ↔
    (obj.lookup "$ref").bind Value.asStr = some ref ∧ ref ≠ "" ∧
      BTreeMap.removeKey "$ref" obj ≠ [] := by
  rw [siblingRef]
  rcases (obj.lookup "$ref").bind Value.asStr with _ | ref'
  · simp
  · dsimp only
    split
    · next hboth =>
        rw [Option.some.injEq]
        constructor
        · rintro rfl
          exact ⟨rfl, hboth⟩
        · exact And.left
    · next hnot =>
        refine iff_of_false (by simp) ?_
        rintro ⟨heq, hboth⟩
        exact hnot (Option.some.inj heq ▸ hboth)

theorem siblingRef_insertKey {ref : String} (h : siblingRef obj = some ref) (v : Value) :
    siblingRef (BTreeMap.insertKey "paths" v obj) = some ref := by
  rw [siblingRef_eq_some_iff] at h ⊢
  rw [BTreeMap.lookup_insertKey_ne (by decide)]
  refine ⟨h.1, h.2.1, ?_⟩
  intro hnil
  have hget : (BTreeMap.removeKey "$ref" (BTreeMap.insertKey "paths" v obj)).lookup
      "paths" = some v := by
    rw [BTreeMap.lookup_removeKey_ne (by decide), BTreeMap.lookup_insertKey_self]
  rw [hnil] at hget
  cases hget

theorem lookup_ref_of_bind {ref : String} (h : (obj.lookup "$ref").bind Value.asStr = some ref) :
    obj.lookup "$ref" = some (.string ref) := by
  obtain ⟨v, hv, hstr⟩ := Option.bind_eq_some_iff.mp h
  rcases v with _ | _ | _ | s | _ | _
  · cases hstr
  · cases hstr
  · cases hstr
  · obtain rfl := Option.some.inj hstr
    exact hv
  · cases hstr
  · cases hstr

/-- What a counterpart is the image of. -/
theorem exists_source {w : Value}
    (hw : w = d.image (.object obj) ∨ w = d.image (ensurePaths (.object obj))) :
    ∃ o, w = d.image (.object o) ∧ Carries obj o ∧
      (o = obj ∨ o = BTreeMap.insertKey "paths" (.object []) obj) := by
  have hself : Carries obj obj := ⟨fun _ _ => rfl, fun _ _ h => Or.inl h⟩
  rcases hw with rfl | rfl
  · exact ⟨obj, rfl, hself, Or.inl rfl⟩
  · rcases ensurePaths_cases obj with heq | ⟨hnone, heq⟩
    · exact ⟨obj, by rw [heq], hself, Or.inl rfl⟩
    · refine ⟨_, by rw [heq], ⟨?_, ?_⟩, Or.inr rfl⟩
      · intro k hk
        simp only [List.mem_cons, List.not_mem_nil, or_false, not_or] at hk
        exact BTreeMap.lookup_insertKey_ne hk.2 _ _
      · intro k x hx
        left
        rw [BTreeMap.lookup_insertKey_ne ?_, hx]
        rintro rfl
        rw [hnone] at hx
        cases hx

/-- The body of a counterpart is there. -/
theorem exists_body {w : Value}
    (hw : w = d.image (.object obj) ∨ w = d.image (ensurePaths (.object obj))) :
    ∃ b, d.body (.object obj) w = some b := by
  rcases d with _ | _
  · change ∃ b, (if (siblingRef obj).isSome then _ else some w) = some b
    rcases hsiblings : siblingRef obj with _ | ref
    · exact ⟨w, rfl⟩
    · obtain ⟨o, rfl, -, hsame⟩ := exists_source hw
      have hsiblings' : siblingRef o = some ref := by
        rcases hsame with rfl | rfl
        · exact hsiblings
        · exact siblingRef_insertKey hsiblings _
      rw [if_pos Option.isSome_some]
      change ∃ b, (((downgraded (.object o)).get "allOf").bind Value.asArray).bind (·[1]?) = some b
      rw [downgraded_wrapper hsiblings']
      exact ⟨_, rfl⟩
  · exact ⟨w, rfl⟩

theorem holds_of_body {w b : Value}
    (hw : w = d.image (.object obj) ∨ w = d.image (ensurePaths (.object obj)))
    (hb : d.body (.object obj) w = some b) : Holds d obj b := by
  obtain ⟨o, ho, hcarries, hsame⟩ := exists_source hw
  rcases d with _ | _
  · change (if (siblingRef obj).isSome then _ else some w) = some b at hb
    rcases hsiblings : siblingRef obj with _ | ref
    · rw [hsiblings, if_neg (by simp)] at hb
      obtain rfl := Option.some.inj hb
      rcases hsiblings' : siblingRef o with _ | ref
      · exact .image o (fun _ => hsiblings') hcarries ho
      · rcases hsame with rfl | rfl
        · rw [hsiblings] at hsiblings'
          cases hsiblings'
        · have hparts := siblingRef_eq_some_iff.mp hsiblings'
          rw [BTreeMap.lookup_insertKey_ne (by decide)] at hparts
          refine .lone ?_ ⟨ref, lookup_ref_of_bind hparts.1⟩ ?_
          · intro k hk
            -- the reference is alone in the document
            have hempty : BTreeMap.removeKey "$ref" obj = [] := by
              by_contra hne
              have hsome := siblingRef_eq_some_iff.mpr ⟨hparts.1, hparts.2.1, hne⟩
              rw [hsiblings] at hsome
              cases hsome
            rw [← BTreeMap.lookup_removeKey_ne hk, hempty]
            rfl
          · intro k hk
            rw [ho]
            change (downgraded _).get k = none
            rw [downgraded_wrapper hsiblings', Value.get_object]
            exact (lookup_cons_ne hk).trans rfl
    · rw [hsiblings, if_pos Option.isSome_some, ho] at hb
      have hsiblings' : siblingRef o = some ref := by
        rcases hsame with rfl | rfl
        · exact hsiblings
        · exact siblingRef_insertKey hsiblings _
      change (((downgraded (.object o)).get "allOf").bind Value.asArray).bind (·[1]?) = some b
        at hb
      rw [downgraded_wrapper hsiblings'] at hb
      refine .image (BTreeMap.removeKey "$ref" o) (fun _ => siblingRef_removeKey o) ⟨?_, ?_⟩
        (Option.some.inj hb).symm
      · intro k hk
        have href : k ≠ "$ref" := fun heq => hk (by simp [heq])
        rw [BTreeMap.lookup_removeKey_ne href, hcarries.lookup_eq k hk]
      · intro k x hx
        by_cases href : k = "$ref"
        · subst href
          have hstring := lookup_ref_of_bind (siblingRef_eq_some_iff.mp hsiblings').1
          rcases hcarries.keeps "$ref" x hx with hkept | ⟨hgone, -⟩
          · rw [hstring, Option.some.injEq] at hkept
            exact Or.inr ⟨BTreeMap.lookup_removeKey_self _ _, rfl, ref, hkept.symm⟩
          · rw [hstring] at hgone
            cases hgone
        · rw [BTreeMap.lookup_removeKey_ne href]
          exact hcarries.keeps k x hx
  · obtain rfl : w = b := Option.some.inj hb
    exact .image o (fun h => nomatch h) hcarries ho

theorem firstPrefixItem_eq {o : List (String × Value)} (h : Carries obj o) :
    firstPrefixItem o = firstPrefixItem obj := by
  rw [firstPrefixItem, firstPrefixItem, h.lookup_eq _ (by decide)]

/-- Whatever corresponds is the image, up to the `paths` that the whole document is given. -/
theorem image_of_corresponds {json v w : Value}
    (h : Corresponds d json (d.downgrade json) v w) :
    w = d.image v ∨ w = d.image (ensurePaths v) := by
  induction h with
  | root => exact Or.inr (downgrade_eq _)
  | @item items images i x y _ hx hy ih =>
      have himages : Value.array images = d.image (.array items) := ih.elim id id
      rw [image_array, Value.array.injEq] at himages
      rw [himages, List.getElem?_map, hx] at hy
      exact Or.inl (Option.some.inj hy).symm
  | @member obj w b k x y _ hb hkeeps hx hy ih =>
      rcases holds_of_body ih hb with ⟨o, hbare, hcarries, rfl⟩ | ⟨hlone, -, hwrapper⟩
      · rcases hcarries.keeps k x hx with hkept | ⟨hgone, rfl, -⟩
        · rw [get_image_kept hbare hcarries hkeeps hkept] at hy
          exact Or.inl (Option.some.inj hy).symm
        · rw [get_image hbare (by decide), lookup_downgradeKeywords_of_notMem (by decide),
            hgone] at hy
          cases hy
      · have href : k = "$ref" := by
          by_contra hne
          rw [hlone k hne] at hx
          cases hx
        rw [href, hwrapper _ (by decide)] at hy
        cases hy
  | @const obj w b x y _ hb hx hy ih =>
      rcases holds_of_body ih hb with ⟨o, hbare, hcarries, rfl⟩ | ⟨hlone, -, -⟩
      · rw [get_image hbare (by decide), lookup_downgradeKeywords_enum,
          hcarries.lookup_eq "const" (by decide), hx] at hy
        have himage : d.image (.array [x]) = .array [y] := Option.some.inj hy
        rw [image_array, Value.array.injEq] at himage
        exact Or.inl (List.singleton_inj.mp himage).symm
      · rw [hlone _ (by decide)] at hx
        cases hx
  | @prefixItem obj w b x y _ hb hx hy ih =>
      rcases holds_of_body ih hb with ⟨o, hbare, hcarries, rfl⟩ | ⟨hlone, -, -⟩
      · rw [get_image hbare (by decide), lookup_downgradeKeywords_items,
          firstPrefixItem_eq hcarries, hx] at hy
        exact Or.inl (Option.some.inj hy).symm
      · rw [firstPrefixItem, hlone _ (by decide)] at hx
        cases hx

/-- A member that a path goes through keeps its key, unless it is displaced. -/
theorem keepsKey_of_member {r r' : Role} {x : Value} (hok : EntriesOk (.object obj) r)
    (hrole : r.member (.object obj) k = some r') (hx : obj.lookup k = some x)
    (hplaced : r.displaced (.object obj) k = false) :
    KeepsKey obj k x ∧ (k = "$ref" → ∀ ref, x ≠ .string ref) := by
  have hplain : k ∉ keywordKeys → KeepsKey obj k x := fun hkeyword =>
    ⟨(lookup_downgradeKeywords_of_notMem hkeyword).trans hx,
      fun hrequired => absurd (hrequired ▸ (by decide : "required" ∈ keywordKeys)) hkeyword⟩
  have hentry : NoKeywords obj → (Value.object obj).displaces k = false → KeepsKey obj k x :=
    fun hentries hdisplaced => ⟨lookup_downgradeKeywords_entry hentries hx hdisplaced,
      fun hrequired => asArray_of_entry (hentries k (hrequired ▸ by decide) x hx)⟩
  have hstring : (x.isObject = true ∨ x.isBoolean = true) → ∀ ref, x ≠ .string ref := by
    rintro hobject ref rfl
    rcases hobject with h | h <;> cases h
  cases r with
  | document =>
      obtain ⟨href, -, -, hkeyword⟩ := documentField_facts hrole
      exact ⟨hplain hkeyword, fun h => absurd h href⟩
  | list kind => cases hrole
  | literal => cases hrole
  | schemas =>
      have hall : ∀ k w, obj.lookup k = some w → w.isObject = true ∨ w.isBoolean = true := hok
      exact ⟨hentry (noKeywords_of_entries fun k w hw _ => hall k w hw) hplaced,
        fun _ => hstring (hall k x hx)⟩
  | names extensible kind =>
      have hall : ∀ k ∈ "$ref" :: keywordKeys, ∀ w, obj.lookup k = some w →
          w.isObject = true ∨ w.isBoolean = true := fun k hk w hw =>
        hok k w hw fun hext => extension_free k hk ((Bool.and_eq_true _ _).mp hext).2
      refine ⟨hentry (fun k hk => hall k (List.mem_cons_of_mem _ hk)) hplaced, fun href => ?_⟩
      exact hstring (hall k (href ▸ List.mem_cons_self) x hx)
  | one kind =>
      by_cases hcallback : kind = .callback
      · subst hcallback
        have hentries : NoKeywords obj := fun k hk w hw =>
          hok k w hw (fun href => absurd hk (href ▸ by decide))
            (extension_free k (List.mem_cons_of_mem _ hk))
        have hdisplaced : ((Value.object obj).hasRefSiblings || (Value.object obj).displaces k) =
            false := hplaced
        rw [Bool.or_eq_false_iff] at hdisplaced
        refine ⟨hentry hentries hdisplaced.2, fun href => ?_⟩
        rw [href, Role.member, if_pos (Or.inl rfl)] at hrole
        cases hrole
      · rw [member_one hcallback] at hrole
        split at hrole
        · cases hrole
        · next hreplaced =>
            obtain ⟨href, -, -, hkeyword⟩ := field_facts hrole
            refine ⟨?_, fun h => absurd h href⟩
            by_cases hmem : k ∈ keywordKeys
            · rw [Bool.not_eq_true, Value.replaced, Bool.or_eq_false_iff] at hreplaced
              have hnone : ∀ {o : Option Value}, o.isSome = false → o = none :=
                fun h => Option.isNone_iff_eq_none.mp (Option.isSome_eq_false_iff.mp h)
              rcases hkeyword hmem with rfl | rfl
              · have hfirst : firstPrefixItem obj = none := hnone hreplaced.1
                refine ⟨?_, fun h => absurd h (by decide)⟩
                rw [lookup_downgradeKeywords_items, hfirst, Option.none_or, hx]
              · have hconst : obj.lookup "const" = none := hnone hreplaced.2
                refine ⟨?_, fun h => absurd h (by decide)⟩
                rw [lookup_downgradeKeywords_enum, hconst, Option.map_none, Option.none_or, hx]
            · exact hplain hmem

/-- **Every place of a well-formed document has its counterpart**, unless something on the way to
it is lost. -/
theorem exists_corresponds {json : Value} (hwf : WellFormed json) {r : Role} {v : Value}
    {lost : Bool} (h : Place json r v lost) (hlost : lost = false) :
    ∃ w, Corresponds d json (d.downgrade json) v w := by
  induction h with
  | root => exact ⟨_, .root⟩
  | @member r v lost k r' x hplace hrole hget ih =>
      rw [Bool.or_eq_false_iff] at hlost
      obtain ⟨w, hw⟩ := ih hlost.1
      obtain ⟨obj, rfl⟩ := Value.isObject_iff.mp (Value.isObject_of_get hget)
      obtain ⟨b, hb⟩ := exists_body (image_of_corresponds hw)
      obtain ⟨hkeeps, hname⟩ := keepsKey_of_member (hwf _ _ _ hplace) hrole hget hlost.2
      rcases holds_of_body (image_of_corresponds hw) hb with
        ⟨o, hbare, hcarries, rfl⟩ | ⟨hlone, ⟨ref, href⟩, -⟩
      · rcases hcarries.keeps _ _ hget with hkept | ⟨-, rfl, ref, rfl⟩
        · exact ⟨_, .member hw hb hkeeps hget (get_image_kept hbare hcarries hkeeps hkept)⟩
        · exact absurd rfl (hname rfl ref)
      · have hlookup := hget
        rw [Value.get_object] at hlookup
        by_cases hk : k = "$ref"
        · rw [hk, href, Option.some.injEq] at hlookup
          exact absurd hlookup.symm (hname hk ref)
        · rw [hlone k hk] at hlookup
          cases hlookup
  | @item kind xs lost x i _ hx ih =>
      obtain ⟨w, hw⟩ := ih hlost
      have hlist : w = d.image (.array xs) := (image_of_corresponds hw).elim id id
      rw [image_array] at hlist
      subst hlist
      exact ⟨d.image x, .item hw hx (by rw [List.getElem?_map, hx]; rfl)⟩
  | @prefixItem obj lost x _ hfirst ih =>
      obtain ⟨w, hw⟩ := ih hlost
      obtain ⟨b, hb⟩ := exists_body (image_of_corresponds hw)
      rcases holds_of_body (image_of_corresponds hw) hb with
        ⟨o, hbare, hcarries, rfl⟩ | ⟨hlone, -, -⟩
      · refine ⟨d.image x, .prefixItem hw hb hfirst ?_⟩
        rw [get_image hbare (by decide), lookup_downgradeKeywords_items,
          firstPrefixItem_eq hcarries, hfirst]
        rfl
      · rw [firstPrefixItem, hlone _ (by decide)] at hfirst
        cases hfirst

/-! ## §3  What is allowed -/

/-- The bound of the result is exclusive: it was so, or had a number next to it. -/
def becomesExclusive (obj : List (String × Value)) (field : String) : Bool :=
  (numberOf (obj.lookup field)).isSome || isTrue (obj.lookup field)

theorem isTrue_downgradeKeywords {field : String}
    (hfield : field ∈ ["exclusiveMinimum", "exclusiveMaximum"]) :
    isTrue ((downgradeKeywords obj).lookup field) = becomesExclusive obj field := by
  by_cases hnum : ∃ n, obj.lookup field = some (.number n)
  · obtain ⟨n, hn⟩ := hnum
    rw [lookup_downgradeKeywords_exclusive hfield hn, becomesExclusive, hn]
    rfl
  · have hnone : numberOf (obj.lookup field) = none := by
      rcases hlookup : obj.lookup field with _ | (_ | _ | n | _ | _ | _)
      · rfl
      · rfl
      · rfl
      · exact absurd ⟨n, hlookup⟩ hnum
      · rfl
      · rfl
      · rfl
    rw [lookup_downgradeKeywords_of_not_number hfield fun n hn => hnum ⟨n, hn⟩,
      becomesExclusive, hnone]
    rfl

/-- The bounds of a counterpart: the numbers of the bounds stay, those of the exclusive bounds
become flags. -/
theorem allowed30_of_holds {b : Value} (h : Holds d obj b) :
    allowed30 b =
      aboveFlagged (numberOf (obj.lookup "minimum")) (becomesExclusive obj "exclusiveMinimum") ∩
        belowFlagged (numberOf (obj.lookup "maximum"))
          (becomesExclusive obj "exclusiveMaximum") := by
  rcases h with ⟨o, hbare, hcarries, rfl⟩ | ⟨hlone, -, hwrapper⟩
  · have hnumber : ∀ k ∈ ["minimum", "maximum"],
        numberOf ((d.image (.object o)).get k) = numberOf (obj.lookup k) := by
      intro k hk
      rcases List.mem_pair.mp hk with rfl | rfl
      · rw [get_image hbare (by decide), numberOf_image,
          lookup_downgradeKeywords_of_notMem (by decide), hcarries.lookup_eq _ (by decide)]
      · rw [get_image hbare (by decide), numberOf_image,
          lookup_downgradeKeywords_of_notMem (by decide), hcarries.lookup_eq _ (by decide)]
    have hflag : ∀ field ∈ ["exclusiveMinimum", "exclusiveMaximum"],
        isTrue ((d.image (.object o)).get field) = becomesExclusive obj field := by
      intro field hfield
      rcases List.mem_pair.mp hfield with rfl | rfl
      · rw [get_image hbare (by decide), isTrue_image, isTrue_downgradeKeywords (by decide),
          becomesExclusive, becomesExclusive, hcarries.lookup_eq _ (by decide)]
      · rw [get_image hbare (by decide), isTrue_image, isTrue_downgradeKeywords (by decide),
          becomesExclusive, becomesExclusive, hcarries.lookup_eq _ (by decide)]
    rw [allowed30, hnumber _ (by decide), hnumber _ (by decide), hflag _ (by decide),
      hflag _ (by decide)]
  · rw [allowed30, hwrapper _ (by decide), hwrapper _ (by decide), hwrapper _ (by decide),
      hwrapper _ (by decide), becomesExclusive, becomesExclusive, hlone _ (by decide),
      hlone _ (by decide), hlone _ (by decide), hlone _ (by decide)]
    rfl

end

end Downgrader

/-- A side of the range that both readings agree on: the exclusive bound is the number of its
companion, and `true` has no companion. -/
def SideKept (obj : List (String × Value)) (bound exclusive : String) : Prop :=
  Agree (numberOf (obj.lookup bound)) (numberOf (obj.lookup exclusive))
    (Downgrader.becomesExclusive obj exclusive)

/-- No number is allowed in either reading. -/
def NothingAllowed (obj : List (String × Value)) : Prop :=
  Crossed (numberOf (obj.lookup "minimum")) (numberOf (obj.lookup "exclusiveMinimum"))
    (numberOf (obj.lookup "maximum")) (numberOf (obj.lookup "exclusiveMaximum"))

/-- The downgrade keeps what the bounds of an object allow exactly if each side of the range
is kept, or nothing is allowed before and after. -/
theorem bounds_kept_iff (d : Downgrader) (json : Value) (obj : List (String × Value))
    (w b : Value) (h : Corresponds d json (d.downgrade json) (.object obj) w)
    (hb : d.body (.object obj) w = some b) :
    (∀ x, x ∈ allowed31 (.object obj) ↔ x ∈ allowed30 b) ↔
      (SideKept obj "minimum" "exclusiveMinimum" ∧ SideKept obj "maximum" "exclusiveMaximum") ∨
        NothingAllowed obj := by
  rw [← Set.ext_iff, Downgrader.allowed30_of_holds
    (Downgrader.holds_of_body (Downgrader.image_of_corresponds h) hb)]
  have hflag : ∀ field, (numberOf (obj.lookup field)).isSome = true →
      Downgrader.becomesExclusive obj field = true := by
    intro field hsome
    rw [Downgrader.becomesExclusive, hsome, Bool.true_or]
  exact range_eq_iff (hflag _) (hflag _)

/-- A number above five, and one that is said to be so twice. -/
def aboveFive : List (String × Value) :=
  [("exclusiveMinimum", .number (.posInt 5)), ("type", .string "number")]

def aboveFiveTwice : List (String × Value) :=
  [("exclusiveMinimum", .number (.posInt 5)), ("minimum", .number (.posInt 5))]

/-- Neither program keeps the bounds of every schema. -/
theorem aboveFive_lost : ¬ ∃ d : Downgrader, ∀ json obj w b,
    Corresponds d json (d.downgrade json) (.object obj) w → d.body (.object obj) w = some b →
    (numberOf (obj.lookup "exclusiveMinimum")).isSome = true ∨
      (numberOf (obj.lookup "exclusiveMaximum")).isSome = true →
    ∀ x, x ∈ allowed31 (.object obj) ↔ x ∈ allowed30 b := by
  rintro ⟨d, h⟩
  have hbody : d.body (.object aboveFive) (d.downgrade (.object aboveFive)) =
      some (d.downgrade (.object aboveFive)) := by
    rcases d with _ | _ <;> rfl
  have hthree := h (.object aboveFive) aboveFive _ _ .root hbody (Or.inl rfl) 3
  have hallowed : (3 : ℚ) ∈ allowed30 (d.downgrade (.object aboveFive)) := by
    rcases d with _ | _
    · exact ⟨fun m hm => (nomatch hm), fun m hm => (nomatch hm)⟩
    · exact ⟨fun m hm => (nomatch hm), fun m hm => (nomatch hm)⟩
  have hlower := (hthree.mpr hallowed).1.2 5 rfl
  change (5 : ℚ) < 3 at hlower
  linarith

/-- A schema with a property called `type`. -/
def typedProperty (schema : List (String × Value)) : Value :=
  .object [("properties", .object [("type", .object schema)])]

theorem bounds_kept_iff_twice :
    (∃ w, Corresponds .core (typedProperty aboveFiveTwice)
        (downgrade31To30 (typedProperty aboveFiveTwice)) (.object aboveFiveTwice) w ∧
      ∀ x, x ∈ allowed31 (.object aboveFiveTwice) ↔ x ∈ allowed30 w) ∧
    ∃ w, Corresponds .cli (typedProperty aboveFiveTwice)
        (Cli.downgrade31To30 (typedProperty aboveFiveTwice)) (.object aboveFiveTwice) w ∧
      ∀ x, x ∈ allowed31 (.object aboveFiveTwice) ↔ x ∈ allowed30 w := by
  have hplain : KeepsKey [("properties", .object [("type", .object aboveFiveTwice)])]
      "properties" (.object [("type", .object aboveFiveTwice)]) := ⟨rfl, fun h => nomatch h⟩
  have htype : KeepsKey [("type", .object aboveFiveTwice)] "type" (.object aboveFiveTwice) :=
    ⟨rfl, fun h => nomatch h⟩
  have hkept : SideKept aboveFiveTwice "minimum" "exclusiveMinimum" ∧
      SideKept aboveFiveTwice "maximum" "exclusiveMaximum" := ⟨rfl, Or.inl rfl⟩
  have hcounterpart : ∀ d : Downgrader, Corresponds d (typedProperty aboveFiveTwice)
      (d.downgrade (typedProperty aboveFiveTwice)) (.object aboveFiveTwice)
      (d.image (.object aboveFiveTwice)) := by
    intro d
    have hproperties : Corresponds d (typedProperty aboveFiveTwice)
        (d.downgrade (typedProperty aboveFiveTwice)) (.object [("type", .object aboveFiveTwice)])
        (d.image (.object [("type", .object aboveFiveTwice)])) := by
      rcases d with _ | _
      · exact .member .root rfl hplain rfl rfl
      · exact .member .root rfl hplain rfl rfl
    rcases d with _ | _
    · exact .member hproperties rfl htype rfl rfl
    · exact .member hproperties rfl htype rfl rfl
  exact ⟨⟨_, hcounterpart .core,
      (bounds_kept_iff .core _ _ _ _ (hcounterpart .core) rfl).mpr (Or.inl hkept)⟩,
    ⟨_, hcounterpart .cli,
      (bounds_kept_iff .cli _ _ _ _ (hcounterpart .cli) rfl).mpr (Or.inl hkept)⟩⟩

end SpecForge
