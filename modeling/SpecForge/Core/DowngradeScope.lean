import SpecForge.Core.Downgraded

/-!
# What the downgrade rewrites

Both passes go through the raw document without knowing what its objects are for. §1
follows the positions of the document into the downgraded one. The downgrade keeps
names, literal data and references exactly where nothing looks like a keyword (§2).
-/

namespace SpecForge

open Lib

/-! ## §1  Positions -/

/-- The position is not there any more: at most a keyword's list is in its place. -/
def Gone (o : Option Value) : Role → Prop
  | .one _ => o = none ∨ ∃ xs, o = some (.array xs)
  | _ => o = none

/-- What the downgrade makes of a value with a role. -/
def Role.image (v : Value) : Role → Value
  | .document => downgrade31To30 v
  | _ => downgraded v

/-- The counterpart of a position: the downgraded value, or nothing. -/
def Related (v : Value) (lost : Bool) (o : Option Value) (r : Role) : Prop :=
  if lost = true then Gone o r else o = some (r.image v)

section

variable {obj : List (String × Value)} {k ref : String} {v w : Value} {o : Option Value}
  {r r' : Role} {kind : Kind}

theorem gone_none (r : Role) : Gone none r := by
  cases r with
  | one kind => exact Or.inl rfl
  | _ => rfl

/-- No field of a known object has the name of a keyword that is rewritten, but for the two
that `replaced` is about. -/
theorem field_facts (hfield : kind.fields.lookup k = some r) :
    k ≠ "$ref" ∧ r ≠ .document ∧ (kind ≠ .schema → k ≠ "allOf") ∧
      (k ∈ keywordKeys → k = "items" ∨ k = "enum") := by
  have hmem := mem_of_lookup_eq_some hfield
  have hall : ∀ kind : Kind, ∀ e ∈ kind.fields, e.1 ≠ "$ref" ∧ e.2 ≠ .document ∧
      (kind ≠ .schema → e.1 ≠ "allOf") ∧ (e.1 ∈ keywordKeys → e.1 = "items" ∨ e.1 = "enum") := by
    intro kind
    cases kind <;> decide
  exact hall kind (k, r) hmem

theorem documentField_facts (hfield : documentFields.lookup k = some r) :
    k ≠ "$ref" ∧ r ≠ .document ∧ k ≠ "allOf" ∧ k ∉ keywordKeys := by
  have hall : ∀ e ∈ documentFields, e.1 ≠ "$ref" ∧ e.2 ≠ .document ∧ e.1 ≠ "allOf" ∧
      e.1 ∉ keywordKeys := by decide
  exact hall (k, r) (mem_of_lookup_eq_some hfield)

theorem image_of_ne (h : r ≠ .document) : r.image v = downgraded v := by
  cases r with
  | document => exact absurd rfl h
  | _ => rfl

/-- Below a position that is gone there is nothing. -/
theorem Gone.bind (h : Gone o r) : (r.body v o).bind (·.get k) = none := by
  have hdirect : ∀ {k : String}, o.bind (·.get k) = none := by
    intro k
    cases r with
    | one kind =>
        rcases h with rfl | ⟨xs, rfl⟩
        · rfl
        · rfl
    | _ =>
        obtain rfl : o = none := h
        rfl
  unfold Role.body
  split
  · split
    · rw [hdirect]
      rfl
    · exact hdirect
  · exact hdirect

/-- A wrapped object has lost its members. -/
theorem get_wrapped (h : siblingRef obj = some ref) :
    (k ≠ "allOf" → (downgraded (.object obj)).get k = none) ∧
      ((downgraded (.object obj)).get k = none ∨
        ∃ xs, (downgraded (.object obj)).get k = some (.array xs)) := by
  rw [downgraded_wrapper h, Value.get_object]
  constructor
  · intro hk
    rw [lookup_cons_ne hk]
    rfl
  · by_cases hk : k = "allOf"
    · exact Or.inr ⟨_, lookup_cons_self hk⟩
    · rw [lookup_cons_ne hk]
      exact Or.inl rfl

theorem siblingRef_of_hasRefSiblings (h : (Value.object obj).hasRefSiblings = true) :
    ∃ ref, siblingRef obj = some ref := Option.isSome_iff_exists.mp h

/-- A field that is not replaced, of an object that is not wrapped. -/
theorem get_downgraded_field (hsiblings : siblingRef obj = none)
    (hfield : kind.fields.lookup k = some r) (hreplaced : (Value.object obj).replaced k = false) :
    (downgraded (.object obj)).get k = (obj.lookup k).map downgraded := by
  refine get_downgraded_plain hsiblings fun hk => ?_
  have hnone : ∀ {o : Option Value}, o.isSome = false → o = none :=
    fun h => Option.isNone_iff_eq_none.mp (Option.isSome_eq_false_iff.mp h)
  rw [Value.replaced, Bool.or_eq_false_iff] at hreplaced
  rcases (field_facts hfield).2.2.2 hk with rfl | rfl
  · exact Or.inl ⟨rfl, hnone hreplaced.1⟩
  · exact Or.inr ⟨rfl, hnone hreplaced.2⟩

theorem noKeywords_of_entries (h : ∀ k w, obj.lookup k = some w → k ∈ keywordKeys →
    w.isObject = true ∨ w.isBoolean = true) : NoKeywords obj :=
  fun k hk w hw => h k w hw hk

theorem siblingRef_of_entry (h : ∀ w, obj.lookup "$ref" = some w →
    w.isObject = true ∨ w.isBoolean = true) : siblingRef obj = none := by
  unfold siblingRef
  cases href : obj.lookup "$ref" with
  | none => rfl
  | some w =>
      have hw := h w href
      cases w with
      | string s => simp [Value.isObject, Value.isBoolean] at hw
      | _ => rfl

/-- An entry of a map of names. -/
theorem related_entry (hsiblings : siblingRef obj = none) (hentries : NoKeywords obj)
    (hw : obj.lookup k = some w) : Related w ((Value.object obj).displaces k)
      ((downgraded (.object obj)).get k) (.one kind) := by
  have hentry := get_downgraded_entry hsiblings hentries hw
  unfold Related
  split
  · next hdisplaced => exact hentry.2 hdisplaced
  · next hplaced => exact hentry.1 (Bool.eq_false_iff.mpr hplaced)

theorem extension_free : ∀ k ∈ "$ref" :: keywordKeys, ¬Text.startsWith "x-" k = true := by
  decide

/-- A field of an object that is no schema and no callback. -/
theorem related_field (hschema : kind ≠ .schema) (hfield : kind.fields.lookup k = some r')
    (hreplaced : (Value.object obj).replaced k = false) (hw : obj.lookup k = some w) :
    Related w (Value.object obj).hasRefSiblings ((downgraded (.object obj)).get k) r' := by
  obtain ⟨-, hdocument, hallOf, -⟩ := field_facts hfield
  unfold Related
  split
  · next hsiblings =>
      obtain ⟨ref, href⟩ := siblingRef_of_hasRefSiblings hsiblings
      rw [(get_wrapped href).1 (hallOf hschema)]
      exact gone_none r'
  · next hsiblings =>
      rw [get_downgraded_field (siblingRef_of_bare (Bool.eq_false_iff.mpr hsiblings)) hfield hreplaced,
        hw, Option.map_some, image_of_ne hdocument]

theorem lookup_removeKey_ref (h : k ≠ "$ref") :
    (BTreeMap.removeKey "$ref" obj).lookup k = obj.lookup k := BTreeMap.lookup_removeKey_ne h obj

/-- A field of a schema, wrapped or not. -/
theorem get_body_schema (hfield : Kind.schema.fields.lookup k = some r')
    (hreplaced : (Value.object obj).replaced k = false) :
    ((Role.one .schema).body (.object obj) (some (downgraded (.object obj)))).bind (·.get k) =
      (obj.lookup k).map downgraded := by
  unfold Role.body
  dsimp only
  split
  · next hsiblings =>
      obtain ⟨ref, href⟩ := siblingRef_of_hasRefSiblings hsiblings
      have hk := (field_facts hfield).1
      rw [downgraded_wrapper href]
      show (downgraded (.object (BTreeMap.removeKey "$ref" obj))).get k = _
      rw [get_downgraded_field (siblingRef_removeKey obj) hfield, lookup_removeKey_ref hk]
      rw [← hreplaced]
      simp only [Value.replaced, Value.get_object, Value.asObject, Option.bind_some,
        firstPrefixItem, lookup_removeKey_ref (show "prefixItems" ≠ "$ref" by decide),
        lookup_removeKey_ref (show "const" ≠ "$ref" by decide)]
  · next hsiblings =>
      exact get_downgraded_field (siblingRef_of_bare (Bool.eq_false_iff.mpr hsiblings)) hfield
        hreplaced

theorem get_body_prefixItem (hfirst : firstPrefixItem obj = some w) :
    ((Role.one .schema).body (.object obj) (some (downgraded (.object obj)))).bind
      (·.get "items") = some (downgraded w) := by
  unfold Role.body
  dsimp only
  split
  · next hsiblings =>
      obtain ⟨ref, href⟩ := siblingRef_of_hasRefSiblings hsiblings
      rw [downgraded_wrapper href]
      show (downgraded (.object (BTreeMap.removeKey "$ref" obj))).get "items" = _
      refine get_downgraded_items (siblingRef_removeKey obj) ?_
      rw [firstPrefixItem, lookup_removeKey_ref (by decide)]
      exact hfirst
  · next hsiblings =>
      exact get_downgraded_items (siblingRef_of_bare (Bool.eq_false_iff.mpr hsiblings)) hfirst

/-- The document gets its paths if it has none; what it has stays. -/
theorem ensurePaths_object (hk : k ≠ "$ref") (hw : obj.lookup k = some w) :
    ∃ obj', ensurePaths (.object obj) = .object obj' ∧ obj'.lookup k = some w ∧
      (siblingRef obj').isSome = (Value.object obj).hasRefSiblings := by
  unfold ensurePaths
  rw [Value.get_object]
  cases hpaths : obj.lookup "paths" with
  | some ps => exact ⟨obj, rfl, hw, rfl⟩
  | none =>
      refine ⟨BTreeMap.insertKey "paths" (.object []) obj, rfl, ?_, ?_⟩
      · rw [BTreeMap.lookup_insertKey_ne, hw]
        rintro rfl
        rw [hpaths] at hw
        cases hw
      · have hne : ∀ {l : List (String × Value)}, l.lookup k = some w →
            BTreeMap.removeKey "$ref" l ≠ [] := by
          intro l hl hnil
          have hlookup := @lookup_removeKey_ref l k hk
          rw [hnil, hl] at hlookup
          cases hlookup
        have hinsert : (BTreeMap.insertKey "paths" (.object []) obj).lookup k = some w := by
          rw [BTreeMap.lookup_insertKey_ne, hw]
          rintro rfl
          rw [hpaths] at hw
          cases hw
        show (siblingRef _).isSome = (siblingRef obj).isSome
        unfold siblingRef
        rw [BTreeMap.lookup_insertKey_ne (by decide)]
        simp only [ne_eq, hne hw, hne hinsert]

theorem related_documentField (hfield : documentFields.lookup k = some r')
    (hw : obj.lookup k = some w) : Related w (Value.object obj).hasRefSiblings
      ((downgrade31To30 (.object obj)).get k) r' := by
  obtain ⟨href, hdocument, hallOf, hkeyword⟩ := documentField_facts hfield
  obtain ⟨obj', hobj', hw', hsiblings⟩ := ensurePaths_object href hw
  have hdown : downgrade31To30 (.object obj) = downgraded (.object obj') := by
    rw [downgrade31To30, hobj', downgraded]
  rw [hdown, ← hsiblings]
  unfold Related
  cases hsib : siblingRef obj' with
  | some ref =>
      rw [(get_wrapped hsib).1 hallOf]
      exact gone_none r'
  | none =>
      show _ = some (r'.image w)
      rw [get_downgraded_plain hsib fun h => absurd h hkeyword, hw', Option.map_some,
        image_of_ne hdocument]

theorem member_one (h : kind ≠ .callback) : (Role.one kind).member v k =
    if v.replaced k then none else kind.fields.lookup k := by
  cases kind <;> first | rfl | exact absurd rfl h

/-- A callback is a map of expressions, but a reference may stand in its place. -/
theorem related_expression (hok : EntriesOk (.object obj) (.one .callback))
    (hrole : (Role.one .callback).member (.object obj) k = some r') (hw : obj.lookup k = some w) :
    Related w ((Role.one .callback).displaced (.object obj) k)
      ((downgraded (.object obj)).get k) r' := by
  have hentries : NoKeywords obj := fun k hk w hw =>
    hok k w hw (fun href => absurd hk (href ▸ by decide))
      (extension_free k (List.mem_cons_of_mem _ hk))
  have hrole' : some (Role.one .pathItem) = some r' := by
    rw [← hrole, Role.member, if_neg]
    intro hext
    rw [Role.member, if_pos hext] at hrole
    cases hrole
  cases hrole'
  show Related w ((Value.object obj).hasRefSiblings || (Value.object obj).displaces k)
    ((downgraded (.object obj)).get k) (.one .pathItem)
  cases hsib : siblingRef obj with
  | none =>
      have hbare : (Value.object obj).hasRefSiblings = false := congrArg Option.isSome hsib
      rw [hbare, Bool.false_or]
      exact related_entry hsib hentries hw
  | some ref =>
      have hwrapped : (Value.object obj).hasRefSiblings = true := congrArg Option.isSome hsib
      rw [hwrapped, Bool.true_or]
      exact (get_wrapped hsib).2

/-- An object with fields. A schema keeps them even if it is wrapped. -/
theorem related_member_of_kind (hcallback : kind ≠ .callback)
    (hrole : (Role.one kind).member (.object obj) k = some r') (hw : obj.lookup k = some w) :
    Related w ((Role.one kind).displaced (.object obj) k)
      (((Role.one kind).body (.object obj) (some (downgraded (.object obj)))).bind (·.get k)) r' := by
  have hfield : (Value.object obj).replaced k = false ∧ kind.fields.lookup k = some r' := by
    rw [member_one hcallback] at hrole
    split at hrole
    · cases hrole
    · next hreplaced => exact ⟨Bool.eq_false_iff.mpr hreplaced, hrole⟩
  obtain ⟨hreplaced, hfield⟩ := hfield
  by_cases hschema : kind = .schema
  · subst hschema
    show _ = some (r'.image w)
    rw [image_of_ne (field_facts hfield).2.1, get_body_schema hfield hreplaced, hw,
      Option.map_some]
  · have hdisplaced : (Role.one kind).displaced (.object obj) k =
        (Value.object obj).hasRefSiblings := by
      cases kind <;> first | rfl | exact absurd rfl hschema | exact absurd rfl hcallback
    have hbody : (Role.one kind).body (.object obj) (some (downgraded (.object obj))) =
        some (downgraded (.object obj)) := by
      cases kind <;> first | rfl | exact absurd rfl hschema
    rw [hdisplaced, hbody]
    exact related_field hschema hfield hreplaced hw

/-- **One step of a path: the member of the downgraded value is the downgraded member, or
it is gone.** -/
theorem related_member (hok : EntriesOk v r) (hrel : Related v false o r)
    (hrole : r.member v k = some r') (hget : v.get k = some w) :
    Related w (r.displaced v k) ((r.body v o).bind (·.get k)) r' := by
  obtain ⟨obj, rfl⟩ := Value.isObject_iff.mp (Value.isObject_of_get hget)
  obtain rfl : o = some (r.image (.object obj)) := hrel
  have hw : obj.lookup k = some w := hget
  cases r with
  | document => exact related_documentField hrole hw
  | list kind => cases hrole
  | literal => cases hrole
  | schemas =>
      cases hrole
      have hentries : ∀ k w, obj.lookup k = some w → w.isObject = true ∨ w.isBoolean = true := hok
      exact related_entry (siblingRef_of_entry (hentries _))
        (noKeywords_of_entries fun k w hw _ => hentries k w hw) hw
  | names extensible kind =>
      have hentries : ∀ k ∈ "$ref" :: keywordKeys, ∀ w, obj.lookup k = some w →
          w.isObject = true ∨ w.isBoolean = true := fun k hk w hw =>
        hok k w hw fun hext => extension_free k hk ((Bool.and_eq_true _ _).mp hext).2
      rw [Role.member] at hrole
      split at hrole
      · cases hrole
      · cases hrole
        exact related_entry (siblingRef_of_entry (hentries _ List.mem_cons_self))
          (fun k hk => hentries k (List.mem_cons_of_mem _ hk)) hw
  | one kind =>
      by_cases hcallback : kind = .callback
      · subst hcallback
        exact related_expression hok hrole hw
      · exact related_member_of_kind hcallback hrole hw

/-- A step from a position that may be gone. -/
theorem related_step {lost : Bool} (hok : EntriesOk v r) (hrel : Related v lost o r)
    (hrole : r.member v k = some r') (hget : v.get k = some w) :
    Related w (lost || r.displaced v k) ((r.body v o).bind (·.get k)) r' := by
  cases lost with
  | true =>
      have hgone : Gone o r := hrel
      rw [hgone.bind]
      exact gone_none r'
  | false =>
      rw [Bool.false_or]
      exact related_member hok hrel hrole hget

theorem related_item {lost : Bool} {xs : List Value} {i : ℕ} {x : Value}
    (hrel : Related (.array xs) lost o (.list kind)) (hx : xs[i]? = some x) :
    Related x lost ((o.bind Value.asArray).bind (·[i]?)) (.one kind) := by
  cases lost with
  | true =>
      obtain rfl : o = none := hrel
      exact gone_none (.one kind)
  | false =>
      obtain rfl : o = some (downgraded (.array xs)) := hrel
      rw [downgraded_array]
      show (xs.map downgraded)[i]? = some (downgraded x)
      rw [List.getElem?_map, hx, Option.map_some]

theorem related_prefixItem {lost : Bool} (hrel : Related (.object obj) lost o (.one .schema))
    (hfirst : firstPrefixItem obj = some w) :
    Related w lost (((Role.one .schema).body (.object obj) o).bind (·.get "items"))
      (.one .schema) := by
  cases lost with
  | true =>
      have hgone : Gone o (.one .schema) := hrel
      rw [hgone.bind]
      exact gone_none (.one .schema)
  | false =>
      obtain rfl : o = some (downgraded (.object obj)) := hrel
      exact get_body_prefixItem hfirst

end

/-- Every position of the document has its counterpart. -/
theorem counterpart_of_place {doc : Value} (hwf : WellFormed doc) {r : Role} {v : Value}
    {lost : Bool} (h : Place doc r v lost) :
    ∃ o, Counterpart doc (downgrade31To30 doc) r v o ∧ Related v lost o r := by
  induction h with
  | root => exact ⟨_, .root, rfl⟩
  | member hplace hrole hget ih =>
      obtain ⟨o, hcounter, hrel⟩ := ih
      exact ⟨_, .member hcounter hrole hget, related_step (hwf _ _ _ hplace) hrel hrole hget⟩
  | item _ hx ih =>
      obtain ⟨o, hcounter, hrel⟩ := ih
      exact ⟨_, .item hcounter hx, related_item hrel hx⟩
  | prefixItem _ hfirst ih =>
      obtain ⟨o, hcounter, hrel⟩ := ih
      exact ⟨_, .prefixItem hcounter hfirst, related_prefixItem hrel hfirst⟩

theorem place_of_counterpart {doc : Value} (hwf : WellFormed doc) {r : Role} {v : Value}
    {o : Option Value} (h : Counterpart doc (downgrade31To30 doc) r v o) :
    ∃ lost, Place doc r v lost ∧ Related v lost o r := by
  induction h with
  | root => exact ⟨false, .root, rfl⟩
  | member _ hrole hget ih =>
      obtain ⟨lost, hplace, hrel⟩ := ih
      exact ⟨_, .member hplace hrole hget, related_step (hwf _ _ _ hplace) hrel hrole hget⟩
  | item _ hx ih =>
      obtain ⟨lost, hplace, hrel⟩ := ih
      exact ⟨_, .item hplace hx, related_item hrel hx⟩
  | prefixItem _ hfirst ih =>
      obtain ⟨lost, hplace, hrel⟩ := ih
      exact ⟨_, .prefixItem hplace hfirst, related_prefixItem hrel hfirst⟩

/-! ## §2  What is kept -/

/-- The downgrade must not touch what stands here. -/
def Obliged (v : Value) : Role → Prop
  | .schemas | .literal => True
  | .one kind => kind.referable = true ∧ ∃ ref, v.get "$ref" = some (.string ref)
  | _ => False

/-- Nothing at the position looks like a keyword: a map has no name that is removed, data is
inert, and a reference stands alone. -/
def Safe (v : Value) : Role → Prop
  | .schemas => ∀ k ∈ removedKeywords, v.get k = none
  | .literal => Inert v
  | .one _ => v.hasRefSiblings = false
  | _ => True

section

variable {v : Value} {o : Option Value} {r : Role}

theorem get_downgraded_of_not_object {k : String} (h : v.isObject = false) :
    (downgraded v).get k = none := by
  cases v with
  | object _ => cases h
  | array xs =>
      rw [downgraded_array]
      rfl
  | _ => rfl

theorem kept_schemas_iff (hok : EntriesOk v .schemas) :
    Kept v (some (downgraded v)) .schemas ↔ Safe v .schemas := by
  have hkept : Kept v (some (downgraded v)) .schemas ↔
      ∀ k, ((downgraded v).get k).isSome = (v.get k).isSome := by
    constructor
    · rintro ⟨v', hv', hkeys⟩
      cases hv'
      exact hkeys
    · exact fun hkeys => ⟨_, rfl, hkeys⟩
  rw [hkept]
  cases hobj : v.isObject with
  | true =>
      obtain ⟨obj, rfl⟩ := Value.isObject_iff.mp hobj
      exact keys_downgraded_iff (siblingRef_of_entry (hok _))
        (noKeywords_of_entries fun k w hw _ => hok k w hw)
  | false =>
      constructor
      · exact fun _ k _ => Value.get_of_not_object hobj
      · intro _ k
        rw [get_downgraded_of_not_object hobj, Value.get_of_not_object hobj]

theorem get_ref_downgraded_iff {ref : String} (href : v.get "$ref" = some (.string ref)) :
    (downgraded v).get "$ref" = some (.string ref) ↔ v.hasRefSiblings = false := by
  obtain ⟨obj, rfl⟩ := Value.isObject_iff.mp (Value.isObject_of_get href)
  cases hsib : siblingRef obj with
  | none =>
      have hbare : (Value.object obj).hasRefSiblings = false := congrArg Option.isSome hsib
      have hlookup : obj.lookup "$ref" = some (.string ref) := href
      rw [hbare, get_downgraded_plain hsib fun h => absurd h (by decide), hlookup]
      simp only [iff_true]
      rfl
  | some _ =>
      have hwrapped : (Value.object obj).hasRefSiblings = true := congrArg Option.isSome hsib
      rw [hwrapped, (get_wrapped hsib).1 (by decide)]
      simp

/-- A position is kept exactly if it is not lost and safe, where something must be kept. -/
theorem kept_iff {lost : Bool} (hok : EntriesOk v r) (hrel : Related v lost o r) :
    Kept v o r ↔ (Obliged v r → lost = false ∧ Safe v r) := by
  cases r with
  | document => exact iff_of_true trivial fun h => h.elim
  | list kind => exact iff_of_true trivial fun h => h.elim
  | names extensible kind => exact iff_of_true trivial fun h => h.elim
  | schemas =>
      cases lost with
      | true =>
          obtain rfl : o = none := hrel
          exact iff_of_false (fun ⟨_, h, _⟩ => nomatch h) fun h => nomatch (h trivial).1
      | false =>
          obtain rfl : o = some (downgraded v) := hrel
          rw [kept_schemas_iff hok]
          exact ⟨fun h _ => ⟨rfl, h⟩, fun h => (h trivial).2⟩
  | literal =>
      cases lost with
      | true =>
          obtain rfl : o = none := hrel
          exact iff_of_false (fun h => nomatch h) fun h => nomatch (h trivial).1
      | false =>
          obtain rfl : o = some (downgraded v) := hrel
          show some (downgraded v) = some v ↔ _
          rw [Option.some_inj, downgraded_eq_self_iff]
          exact ⟨fun h _ => ⟨rfl, h⟩, fun h => (h trivial).2⟩
  | one kind =>
      cases lost with
      | true =>
          have hnone : o.bind (·.get "$ref") = none := by
            rcases hrel with rfl | ⟨xs, rfl⟩
            · rfl
            · rfl
          constructor
          · rintro hkept ⟨hreferable, ref, href⟩
            have hget := hkept hreferable ref href
            rw [hnone] at hget
            cases hget
          · exact fun h hreferable ref href => nomatch (h ⟨hreferable, ref, href⟩).1
      | false =>
          obtain rfl : o = some (downgraded v) := hrel
          constructor
          · rintro hkept ⟨hreferable, ref, href⟩
            exact ⟨rfl, (get_ref_downgraded_iff href).mp (hkept hreferable ref href)⟩
          · exact fun h hreferable ref href =>
              (get_ref_downgraded_iff href).mpr (h ⟨hreferable, ref, href⟩).2

end

/-- **The downgrade keeps the names of schemas and properties, the literal data and the
references of a document exactly if none of them is lost on the way and nothing at their
positions looks like a keyword.** -/
theorem downgrade_keeps_iff {doc : Value} (hwf : WellFormed doc) :
    (∀ r v o, Counterpart doc (downgrade31To30 doc) r v o → Kept v o r) ↔
      ∀ r v lost, Place doc r v lost → Obliged v r → lost = false ∧ Safe v r := by
  constructor
  · intro hkept r v lost hplace
    obtain ⟨o, hcounter, hrel⟩ := counterpart_of_place hwf hplace
    exact (kept_iff (hwf r v lost hplace) hrel).mp (hkept r v o hcounter)
  · intro hsafe r v o hcounter
    obtain ⟨lost, hplace, hrel⟩ := place_of_counterpart hwf hcounter
    exact (kept_iff (hwf r v lost hplace) hrel).mpr (hsafe r v lost hplace)

def stringSchema : Value := .object [("type", .string "string")]

/-- The properties, the schema and the components of a document with one schema of one
property. -/
def oneProperty (name : String) : Value := .object [(name, stringSchema)]

def petSchema (name : String) : Value :=
  .object [("properties", oneProperty name), ("type", .string "object")]

def petComponents (name : String) : Value :=
  .object [("schemas", .object [("Pet", petSchema name)])]

def propertyDoc (name : String) : Value :=
  .object [("components", petComponents name), ("openapi", .string "3.1.0")]

section

variable {name : String} {r : Role} {v : Value} {lost : Bool}

theorem entry_of_get {obj : List (String × Value)} {k : String} {w : Value}
    (h : (Value.object obj).get k = some w) : (k, w) ∈ obj := mem_of_lookup_eq_some h

/-- The positions of the document. -/
theorem place_propertyDoc (h : Place (propertyDoc name) r v lost) :
    (r, v, lost) ∈ [(.document, propertyDoc name, false),
      (.one .components, petComponents name, false),
      (.schemas, .object [("Pet", petSchema name)], false),
      (.one .schema, petSchema name, false), (.schemas, oneProperty name, false),
      (.one .schema, stringSchema, (oneProperty name).displaces name)] := by
  induction h with
  | root => exact List.mem_cons_self
  | member _ hrole hget ih =>
      simp only [List.mem_cons, List.not_mem_nil, or_false, Prod.mk.injEq] at ih
      rcases ih with ⟨rfl, rfl, rfl⟩ | ⟨rfl, rfl, rfl⟩ | ⟨rfl, rfl, rfl⟩ | ⟨rfl, rfl, rfl⟩ |
        ⟨rfl, rfl, rfl⟩ | ⟨rfl, rfl, rfl⟩
      · have hentry := entry_of_get hget
        simp only [List.mem_cons, List.not_mem_nil, or_false, Prod.mk.injEq] at hentry
        rcases hentry with ⟨rfl, rfl⟩ | ⟨rfl, rfl⟩
        · cases hrole
          exact .tail _ (.head _)
        · cases hrole
      · have hentry := entry_of_get hget
        simp only [List.mem_cons, List.not_mem_nil, or_false, Prod.mk.injEq] at hentry
        obtain ⟨rfl, rfl⟩ := hentry
        cases hrole
        exact .tail _ (.tail _ (.head _))
      · have hentry := entry_of_get hget
        simp only [List.mem_cons, List.not_mem_nil, or_false, Prod.mk.injEq] at hentry
        obtain ⟨rfl, rfl⟩ := hentry
        cases hrole
        exact .tail _ (.tail _ (.tail _ (.head _)))
      · have hentry := entry_of_get hget
        simp only [List.mem_cons, List.not_mem_nil, or_false, Prod.mk.injEq] at hentry
        rcases hentry with ⟨rfl, rfl⟩ | ⟨rfl, rfl⟩
        · cases hrole
          exact .tail _ (.tail _ (.tail _ (.tail _ (.head _))))
        · cases hrole
      · have hentry := entry_of_get hget
        simp only [List.mem_cons, List.not_mem_nil, or_false, Prod.mk.injEq] at hentry
        obtain ⟨rfl, rfl⟩ := hentry
        cases hrole
        exact .tail _ (.tail _ (.tail _ (.tail _ (.tail _ (.head _)))))
      · have hentry := entry_of_get hget
        simp only [List.mem_cons, List.not_mem_nil, or_false, Prod.mk.injEq] at hentry
        obtain ⟨rfl, rfl⟩ := hentry
        cases hrole
  | item hplace _ ih => simp at ih
  | prefixItem _ hfirst ih =>
      simp only [List.mem_cons, List.not_mem_nil, or_false, Prod.mk.injEq] at ih
      rcases ih with ⟨hr, -⟩ | ⟨hr, -⟩ | ⟨hr, -⟩ | ⟨-, hv, -⟩ | ⟨hr, -⟩ | ⟨-, hv, -⟩
      · cases hr
      · cases hr
      · cases hr
      · cases hv
        cases hfirst
      · cases hr
      · cases hv
        cases hfirst

theorem wellFormed_propertyDoc (name : String) : WellFormed (propertyDoc name) := by
  intro r v lost hplace
  have hmem := place_propertyDoc hplace
  simp only [List.mem_cons, List.not_mem_nil, or_false, Prod.mk.injEq] at hmem
  rcases hmem with ⟨rfl, rfl, -⟩ | ⟨rfl, rfl, -⟩ | ⟨rfl, rfl, -⟩ | ⟨rfl, rfl, -⟩ | ⟨rfl, rfl, -⟩ |
    ⟨rfl, rfl, -⟩
  · trivial
  · trivial
  · intro k w hget
    obtain ⟨-, rfl⟩ := Prod.mk.inj (List.mem_singleton.mp (entry_of_get hget))
    exact Or.inl rfl
  · trivial
  · intro k w hget
    obtain ⟨-, rfl⟩ := Prod.mk.inj (List.mem_singleton.mp (entry_of_get hget))
    exact Or.inl rfl
  · trivial

end

/-- A property with an ordinary name is kept. -/
theorem ordinary_property_kept : WellFormed (propertyDoc "name") ∧
    ∀ r v o, Counterpart (propertyDoc "name") (downgrade31To30 (propertyDoc "name")) r v o →
      Kept v o r := by
  have hfree : ∀ {key : String} {x : Value}, key ∉ removedKeywords →
      Safe (.object [(key, x)]) .schemas := by
    intro key x hkey k hk
    refine lookup_eq_none_iff.mpr fun h => hkey ?_
    obtain rfl : k = key := List.mem_singleton.mp h
    exact hk
  refine ⟨wellFormed_propertyDoc "name", (downgrade_keeps_iff (wellFormed_propertyDoc "name")).mpr
    fun r v lost hplace hobliged => ?_⟩
  have hmem := place_propertyDoc hplace
  simp only [List.mem_cons, List.not_mem_nil, or_false, Prod.mk.injEq] at hmem
  rcases hmem with ⟨rfl, rfl, rfl⟩ | ⟨rfl, rfl, rfl⟩ | ⟨rfl, rfl, rfl⟩ | ⟨rfl, rfl, rfl⟩ |
    ⟨rfl, rfl, rfl⟩ | ⟨rfl, rfl, rfl⟩
  · exact hobliged.elim
  · cases hobliged.1
  · exact ⟨rfl, hfree (by decide)⟩
  · cases hobliged.1
  · exact ⟨rfl, hfree (by decide)⟩
  · cases hobliged.1

/-- A property named `const` is taken for the keyword. -/
theorem const_property_lost : ∃ doc, is31 doc = true ∧ WellFormed doc ∧
    ¬∀ r v o, Counterpart doc (downgrade31To30 doc) r v o → Kept v o r := by
  refine ⟨propertyDoc "const", by decide, wellFormed_propertyDoc "const", fun hkept => ?_⟩
  have hcounter : Counterpart (propertyDoc "const") (downgrade31To30 (propertyDoc "const"))
      .schemas (oneProperty "const") _ :=
    .member (k := "properties") (.member (k := "Pet") (.member (k := "schemas")
      (.member (k := "components") .root rfl rfl) rfl rfl) rfl rfl) rfl rfl
  obtain ⟨v', hv', hkeys⟩ := hkept _ _ _ hcounter
  cases hv'
  exact absurd (hkeys "const") (by decide)

end SpecForge
