import SpecForge.Core.MergeReferences
import SpecForge.Core.Mock
import SpecForge.Lib.Once

/-!
# What merging keeps

Merging is a union: of the definitions, where a later document wins, and of the lists, where the
first entry wins. The components are created where the first document has none, but its paths and
its lists are not.

- §1 paths, schemas and security schemes; §2 `==` as an equivalence; §3 tags, requirements and
  servers.
-/

namespace SpecForge

open Lib

/-! ## §1  Definitions -/

section

variable {first merged spec : Value} {rest specs : List Value} {f : Value → Option Value}

theorem latest_eq_none_iff : latest f specs = none ↔ ∀ spec ∈ specs, f spec = none := by
  induction specs with
  | nil => exact ⟨fun _ => List.forall_mem_nil _, fun _ => rfl⟩
  | cons spec specs ih =>
      rw [latest, Option.or_eq_none_iff, ih, List.forall_mem_cons]
      exact and_comm

/-- The members that definitions are merged in are objects wherever they are present. -/
structure SectionsAreObjects (spec : Value) : Prop where
  paths : ∀ p, spec.get "paths" = some p → p.isObject = true
  components : ∀ c, spec.get "components" = some c → c.isObject = true
  sections : ∀ sec ∈ mergedSections, ∀ x, spec.section sec = some x → x.isObject = true

/-- The merged document has the definitions of all documents, the last one wins, and nothing else
of the first document is changed but its lists. -/
structure LaterWins (first : Value) (rest : List Value) (merged : Value) : Prop where
  paths : ∀ k, merged.pathItem k = latest (·.pathItem k) (first :: rest)
  components : ∀ sec ∈ mergedSections, ∀ name,
    merged.component sec name = latest (·.component sec name) (first :: rest)
  others : ∀ k ∉ mergedMembers, merged.get k = first.get k

theorem paths_laterWins_iff (hfirst : SectionsAreObjects first) :
    (∀ k, (rest.foldl mergeInto first).pathItem k = latest (·.pathItem k) (first :: rest)) ↔
      (first.get "paths").isSome = true ∨ ∀ spec ∈ rest, ∀ k, spec.pathItem k = none := by
  cases hp : first.get "paths" with
  | some p =>
      have htakes : TakesPaths first := ⟨p, hp, hfirst.paths p hp⟩
      exact iff_of_true (fun k => pathItem_run htakes) (Or.inl rfl)
  | none =>
      have hnot : ¬ TakesPaths first := by
        rintro ⟨t, ht, -⟩
        rw [hp] at ht
        cases ht
      have hmerged : ∀ k, (rest.foldl mergeInto first).pathItem k = none := by
        intro k
        rw [Value.pathItem, paths_run_of_not_takes hnot, hp, Option.bind_none]
      have hfirstNone : ∀ k, first.pathItem k = none := by
        intro k
        rw [Value.pathItem, hp, Option.bind_none]
      constructor
      · intro hall
        refine Or.inr fun spec hspec k => ?_
        have hnone := (hall k).symm.trans (hmerged k)
        exact latest_eq_none_iff.mp hnone spec (List.mem_cons_of_mem _ hspec)
      · rintro (habsurd | hall) k
        · cases habsurd
        · rw [hmerged k]
          exact (latest_eq_none_iff.mpr
            (List.forall_mem_cons.mpr ⟨hfirstNone k, fun spec hspec => hall spec hspec k⟩)).symm

theorem components_laterWins_iff (hfirst : SectionsAreObjects first) :
    (∀ sec ∈ mergedSections, ∀ name, (rest.foldl mergeInto first).component sec name =
      latest (·.component sec name) (first :: rest)) ↔
      first.isObject = true ∨
        ∀ spec ∈ rest, ∀ sec ∈ mergedSections, ∀ name, spec.component sec name = none := by
  cases hobj : first.isObject with
  | true =>
      refine iff_of_true (fun sec hsec name => component_run ?_) (Or.inl rfl)
      refine ⟨hsec, hobj, fun c hc => ⟨hfirst.components c hc, fun x hx => ?_⟩⟩
      exact hfirst.sections sec hsec x ((section_of_some hc).trans hx)
  | false =>
      have hnot : ∀ sec, ¬ TakesSection first sec := by
        rintro sec ⟨-, htakes, -⟩
        rw [hobj] at htakes
        cases htakes
      have hfirstNone : ∀ sec, first.section sec = none := by
        intro sec
        cases first with
        | object entries => cases hobj
        | _ => rfl
      have hmerged : ∀ sec name, (rest.foldl mergeInto first).component sec name = none := by
        intro sec name
        rw [component_eq_section, section_run_of_not_takes (hnot sec), hfirstNone, Option.bind_none]
      constructor
      · intro hall
        refine Or.inr fun spec hspec sec hsec name => ?_
        have hnone := (hall sec hsec name).symm.trans (hmerged sec name)
        exact latest_eq_none_iff.mp hnone spec (List.mem_cons_of_mem _ hspec)
      · rintro (habsurd | hall) sec hsec name
        · cases habsurd
        · rw [hmerged sec name]
          have hnone : first.component sec name = none := by
            rw [component_eq_section, hfirstNone, Option.bind_none]
          exact (latest_eq_none_iff.mpr (List.forall_mem_cons.mpr
            ⟨hnone, fun spec hspec => hall spec hspec sec hsec name⟩)).symm

/-- **Later definitions win and none is lost, exactly if the first document has paths or no other
has any, and the first document is an object or no other has a schema or a security scheme.** -/
theorem mergeSpecs_laterWins_iff (hfirst : SectionsAreObjects first) :
    (∃ merged, mergeSpecs (first :: rest) = .ok merged ∧ LaterWins first rest merged) ↔
      ((first.get "paths").isSome = true ∨ ∀ spec ∈ rest, ∀ k, spec.pathItem k = none) ∧
      (first.isObject = true ∨
        ∀ spec ∈ rest, ∀ sec ∈ mergedSections, ∀ name, spec.component sec name = none) := by
  constructor
  · rintro ⟨merged, hmerge, hwins⟩
    obtain rfl : rest.foldl mergeInto first = merged := Except.ok.inj hmerge
    exact ⟨(paths_laterWins_iff hfirst).mp hwins.paths,
      (components_laterWins_iff hfirst).mp hwins.components⟩
  · rintro ⟨hpaths, hcomponents⟩
    exact ⟨_, rfl, (paths_laterWins_iff hfirst).mpr hpaths,
      (components_laterWins_iff hfirst).mpr hcomponents, fun k hk => get_run_of_notMem hk⟩

end

/-- A document without paths, as a file of shared schemas has none. -/
def sharedSpec : Value := .object [("components", .object [("schemas", .object [])]),
  ("openapi", .string "3.1.0")]

theorem sectionsAreObjects_sharedSpec : SectionsAreObjects sharedSpec := by
  constructor
  · intro p hp
    cases hp
  · intro c hc
    obtain rfl := Option.some.inj hc
    rfl
  · intro sec hsec x hx
    rcases List.mem_pair.mp hsec with rfl | rfl
    · obtain rfl := Option.some.inj hx
      rfl
    · cases hx

theorem sectionsAreObjects_petsSpec : SectionsAreObjects petsSpec := by
  constructor
  · intro p hp
    obtain rfl := Option.some.inj hp
    rfl
  · intro c hc
    cases hc
  · intro sec _ x hx
    cases hx

/-- A document with a path, a schema and a security scheme of its own, and a shared path and
schema. -/
def ownedSpec (owner : String) : Value := .object [
  ("components", .object [
    ("schemas", .object [(owner, .object []), ("Pet", .object [("title", .string owner)])]),
    ("securitySchemes", .object [(owner, .object [])])]),
  ("openapi", .string "3.0.3"),
  ("paths", .object [("/" ++ owner, .object []), ("/pets", .object [("summary", .string owner)])])]

theorem sectionsAreObjects_ownedSpec (owner : String) : SectionsAreObjects (ownedSpec owner) := by
  constructor
  · intro p hp
    obtain rfl := Option.some.inj hp
    rfl
  · intro c hc
    obtain rfl := Option.some.inj hc
    rfl
  · intro sec hsec x hx
    rcases List.mem_pair.mp hsec with rfl | rfl
    · obtain rfl := Option.some.inj hx
      rfl
    · obtain rfl := Option.some.inj hx
      rfl

/-- The later of two documents has the shared path and schema; a third has neither. -/
theorem mergeSpecs_laterWins_ownedSpec :
    ∃ merged, mergeSpecs [ownedSpec "store", ownedSpec "clinic", sharedSpec] = .ok merged ∧
      LaterWins (ownedSpec "store") [ownedSpec "clinic", sharedSpec] merged ∧
      merged.pathItem "/pets" = some (.object [("summary", .string "clinic")]) := by
  have hpaths : ((ownedSpec "store").get "paths").isSome = true ∨
      ∀ spec ∈ [ownedSpec "clinic", sharedSpec], ∀ k, spec.pathItem k = none := Or.inl rfl
  obtain ⟨merged, hmerged, hwins⟩ :=
    (mergeSpecs_laterWins_iff (sectionsAreObjects_ownedSpec "store")).mpr ⟨hpaths, Or.inl rfl⟩
  exact ⟨merged, hmerged, hwins, hwins.paths "/pets"⟩

/-- The paths of the second document are lost. -/
theorem paths_lost : SectionsAreObjects sharedSpec ∧ SectionsAreObjects petsSpec ∧
    ¬ ∃ merged, mergeSpecs [sharedSpec, petsSpec] = .ok merged ∧
      LaterWins sharedSpec [petsSpec] merged := by
  refine ⟨sectionsAreObjects_sharedSpec, sectionsAreObjects_petsSpec, ?_⟩
  rintro ⟨merged, hmerge, hwins⟩
  obtain rfl := Except.ok.inj hmerge
  have hpath := hwins.paths "/pets"
  cases hpath

/-! ## §2  Equal values -/

/-- The two zeros are one. -/
def Number.canonical : Number → Number
  | .float f => .float (if f.bits <<< 1 = 0 then FiniteF64.zero else f)
  | n => n

mutual

/-- Values that are `==` have one canonical form. -/
def Value.canonical : Value → Value
  | .number n => .number n.canonical
  | .array items => .array (canonicalItems items)
  | .object entries => .object (canonicalEntries entries)
  | v => v

def canonicalItems : List Value → List Value
  | [] => []
  | v :: vs => v.canonical :: canonicalItems vs

def canonicalEntries : List (String × Value) → List (String × Value)
  | [] => []
  | (k, v) :: es => (k, v.canonical) :: canonicalEntries es

end

section

variable {v w x : Value}

theorem Number.beq_iff {a b : Number} : a.beq b = true ↔ a.canonical = b.canonical := by
  cases a with
  | float f =>
      cases b with
      | float g =>
          simp only [Number.beq, Number.canonical, Number.float.injEq, Bool.or_eq_true,
            Bool.and_eq_true, beq_iff_eq]
          by_cases hf : f.bits <<< 1 = 0
          · by_cases hg : g.bits <<< 1 = 0
            · simp [hf, hg]
            · have hne : f ≠ g := by
                rintro rfl
                exact hg hf
              have hzero : FiniteF64.zero ≠ g := by
                rintro rfl
                exact hg rfl
              simp [hf, hg, hne, hzero]
          · by_cases hg : g.bits <<< 1 = 0
            · have hne : f ≠ g := by
                rintro rfl
                exact hf hg
              have hzero : f ≠ FiniteF64.zero := by
                rintro rfl
                exact hf rfl
              simp [hf, hg, hne, hzero]
            · simp [hf, hg]
      | _ => simp [Number.beq, Number.canonical]
  | _ =>
      cases b <;> simp [Number.beq, Number.canonical]

/-- **`==` holds exactly between values of one canonical form.** -/
theorem beq_iff_canonical : v.beq w = true ↔ v.canonical = w.canonical := by
  induction v using Value.induction generalizing w with
  | array xs ih =>
      cases w with
      | array ys =>
          rw [Value.beq, Value.canonical, Value.canonical, Value.array.injEq]
          induction xs generalizing ys with
          | nil => cases ys <;> simp [Value.beqItems, canonicalItems]
          | cons x xs ihxs =>
              obtain ⟨hx, hxs⟩ := List.forall_mem_cons.mp ih
              cases ys with
              | nil => simp [Value.beqItems, canonicalItems]
              | cons y ys =>
                  rw [Value.beqItems, Bool.and_eq_true, hx, ihxs hxs, canonicalItems,
                    canonicalItems, List.cons.injEq]
      | _ => simp [Value.beq, Value.canonical]
  | object es ih =>
      cases w with
      | object fs =>
          rw [Value.beq, Value.canonical, Value.canonical, Value.object.injEq]
          induction es generalizing fs with
          | nil => cases fs <;> simp [Value.beqEntries, canonicalEntries]
          | cons e es ihes =>
              obtain ⟨he, hes⟩ := List.forall_mem_cons.mp ih
              obtain ⟨k, x⟩ := e
              cases fs with
              | nil => simp [Value.beqEntries, canonicalEntries]
              | cons f fs =>
                  obtain ⟨l, y⟩ := f
                  rw [Value.beqEntries, Bool.and_eq_true, Bool.and_eq_true, beq_iff_eq, he,
                    ihes hes, canonicalEntries, canonicalEntries, List.cons.injEq, Prod.mk.injEq]
      | _ => simp [Value.beq, Value.canonical]
  | number n =>
      cases w with
      | number m => simp [Value.beq, Value.canonical, Number.beq_iff]
      | _ => simp [Value.beq, Value.canonical]
  | _ => cases w <;> simp [Value.beq, Value.canonical]

theorem isSame_beq : Once.IsSame Value.beq where
  refl v := beq_iff_canonical.mpr rfl
  symm v w := Bool.eq_iff_iff.mpr (by rw [beq_iff_canonical, beq_iff_canonical, eq_comm])
  trans h h' :=
    beq_iff_canonical.mpr ((beq_iff_canonical.mp h).trans (beq_iff_canonical.mp h'))

end

/-! ## §3  Lists -/

/-- A tag is identified by its name. -/
def sameTag (a b : Value) : Bool := decide (tagName a = tagName b)

theorem isSame_sameTag : Once.IsSame sameTag where
  refl _ := decide_eq_true rfl
  symm _ _ := decide_eq_decide.mpr eq_comm
  trans h h' := decide_eq_true ((of_decide_eq_true h).trans (of_decide_eq_true h'))

/-- No list of the document has an entry twice. -/
structure DistinctLists (spec : Value) : Prop where
  tags : Once.Distinct sameTag (spec.listed "tags")
  unique : ∀ key ∈ ["security", "servers"], Once.Distinct Value.beq (spec.listed key)

/-- The entries of a list in all documents, one after the other. -/
def allListed (key : String) (specs : List Value) : List Value := (specs.map (·.listed key)).flatten

/-- The lists of the merged document have every tag, requirement and server of the documents, each
of them once, and no others. -/
structure ListsKept (specs : List Value) (merged : Value) : Prop where
  tags : Once.KeptOnce sameTag (merged.listed "tags") (allListed "tags" specs)
  unique : ∀ key ∈ ["security", "servers"],
    Once.KeptOnce Value.beq (merged.listed key) (allListed key specs)

/-- The tags with those of a later document. -/
def addTags (arr news : List Value) : List Value :=
  arr ++ news.filter fun tag =>
    (tagName tag).all fun n => decide (n ∉ arr.filterMap tagName)

/-- The document has a tag without a name. -/
def HasUnnamedTag (tags : List Value) : Prop := ∃ tag ∈ tags, tagName tag = none

section

variable {first merged e x : Value} {rest : List Value} {key : String} {arr news : List Value}
  {lists : List (List Value)}

theorem listed_run (add : List Value → List Value → List Value) (rest : List Value)
    (hstep : ∀ {t s ms}, t.get key = some (.array ms) →
      (mergeInto t s).get key = some (.array (add ms (s.listed key))))
    (h : TakesItems first key) : (rest.foldl mergeInto first).listed key =
      (rest.map (·.listed key)).foldl add (first.listed key) := by
  obtain ⟨ts, hts⟩ := h
  have hrun : ∀ (rest : List Value) {first : Value} {ts : List Value},
      first.get key = some (.array ts) → (rest.foldl mergeInto first).get key =
        some (.array ((rest.map (·.listed key)).foldl add ts)) := by
    intro rest
    induction rest with
    | nil => exact fun hts => hts
    | cons s rest ih =>
        intro first ts hts
        rw [List.foldl_cons, ih (hstep hts)]
        rfl
  rw [listed_of_get (hrun rest hts), listed_of_get hts]

theorem listed_run_of_not_takes (hkey : key ∈ ["tags", "security", "servers"])
    (h : ¬ TakesItems first key) : (rest.foldl mergeInto first).listed key = [] := by
  rw [Value.listed, get_list_run_of_not_takes hkey h]
  cases hget : first.get key with
  | none => rfl
  | some v =>
      cases v with
      | array xs => exact absurd ⟨xs, hget⟩ h
      | _ => rfl

theorem listed_of_not_takes (h : ¬ TakesItems first key) : first.listed key = [] := by
  rw [Value.listed]
  cases hget : first.get key with
  | none => rfl
  | some v =>
      cases v with
      | array xs => exact absurd ⟨xs, hget⟩ h
      | _ => rfl

theorem find?_addTags (e : Value) (arr news : List Value) :
    (addTags arr news).find? (sameTag e) = (arr ++ news).find? (sameTag e) := by
  rw [addTags, List.find?_append, List.find?_append]
  cases hfind : arr.find? (sameTag e) with
  | some a => rfl
  | none =>
      rw [Option.none_or, Option.none_or, List.find?_filter]
      congr 1
      funext tag
      -- a tag of this name is not there yet, so the filter lets it through
      cases htag : sameTag e tag with
      | false => simp
      | true =>
          rw [decide_eq_true_eq, Option.all_eq_true]
          refine ⟨fun n hn => ?_, rfl⟩
          rw [decide_eq_true_eq, List.mem_filterMap]
          rintro ⟨a, ha, han⟩
          apply List.find?_eq_none.mp hfind a ha
          exact decide_eq_true ((of_decide_eq_true htag).trans (hn.trans han.symm))

theorem mem_of_mem_addTags (h : x ∈ addTags arr news) : x ∈ arr ++ news := by
  rcases List.mem_append.mp h with h | h
  · exact List.mem_append_left _ h
  · exact List.mem_append_right _ (List.mem_filter.mp h).1

theorem hasUnnamedTag_addTags :
    HasUnnamedTag (addTags arr news) ↔ HasUnnamedTag arr ∨ HasUnnamedTag news := by
  constructor
  · rintro ⟨tag, htag, hname⟩
    rcases List.mem_append.mp (mem_of_mem_addTags htag) with h | h
    · exact Or.inl ⟨tag, h, hname⟩
    · exact Or.inr ⟨tag, h, hname⟩
  · rintro (⟨tag, htag, hname⟩ | ⟨tag, htag, hname⟩)
    · exact ⟨tag, List.mem_append_left _ htag, hname⟩
    · refine ⟨tag, List.mem_append_right _ (List.mem_filter.mpr ⟨htag, ?_⟩), hname⟩
      rw [hname]
      rfl

theorem distinct_addTags_iff (hnews : Once.Distinct sameTag news) :
    Once.Distinct sameTag (addTags arr news) ↔
      Once.Distinct sameTag arr ∧ ¬ (HasUnnamedTag arr ∧ HasUnnamedTag news) := by
  rw [addTags, Once.Distinct, List.pairwise_append]
  constructor
  · rintro ⟨harr, -, hcross⟩
    refine ⟨harr, ?_⟩
    rintro ⟨⟨a, ha, hname⟩, ⟨b, hb, hname'⟩⟩
    have hnot := hcross a ha b (List.mem_filter.mpr ⟨hb, by rw [hname']; rfl⟩)
    exact of_decide_eq_false hnot (hname.trans hname'.symm)
  · rintro ⟨harr, hunnamed⟩
    refine ⟨harr, List.Pairwise.filter _ hnews, fun a ha b hb => ?_⟩
    obtain ⟨hb, hnew⟩ := List.mem_filter.mp hb
    apply decide_eq_false
    intro hname
    cases hb' : tagName b with
    | none => exact hunnamed ⟨⟨a, ha, hname.trans hb'⟩, ⟨b, hb, hb'⟩⟩
    | some n =>
        rw [hb', Option.all_some, decide_eq_true_eq] at hnew
        exact hnew (List.mem_filterMap.mpr ⟨a, ha, hname.trans hb'⟩)

/-- Tags brought together are told apart if at most one of the lists has one without a name. -/
theorem distinct_foldl_addTags_iff (harr : Once.Distinct sameTag arr)
    (hlists : ∀ news ∈ lists, Once.Distinct sameTag news) :
    Once.Distinct sameTag (lists.foldl addTags arr) ↔
      (arr :: lists).Pairwise fun xs ys => ¬ (HasUnnamedTag xs ∧ HasUnnamedTag ys) := by
  have hmono : ∀ (lists : List (List Value)) {arr : List Value},
      Once.Distinct sameTag (lists.foldl addTags arr) → Once.Distinct sameTag arr := by
    intro lists
    induction lists with
    | nil => exact fun h => h
    | cons news lists ih => exact fun h => (List.pairwise_append.mp (ih h)).1
  induction lists generalizing arr with
  | nil => exact iff_of_true harr (List.pairwise_singleton _ _)
  | cons news lists ih =>
      obtain ⟨hnews, hlists⟩ := List.forall_mem_cons.mp hlists
      rw [List.foldl_cons]
      by_cases hboth : HasUnnamedTag arr ∧ HasUnnamedTag news
      · refine iff_of_false (fun h => ?_) (fun h => ?_)
        · exact ((distinct_addTags_iff hnews).mp (hmono lists h)).2 hboth
        · exact List.rel_of_pairwise_cons h List.mem_cons_self hboth
      · refine (ih ((distinct_addTags_iff hnews).mpr ⟨harr, hboth⟩) hlists).trans ?_
        simp only [List.pairwise_cons, List.forall_mem_cons, hasUnnamedTag_addTags]
        constructor
        · rintro ⟨hcross, hrest⟩
          refine ⟨⟨hboth, fun ys hys h => ?_⟩, fun ys hys h => ?_, hrest⟩
          · exact hcross ys hys ⟨Or.inl h.1, h.2⟩
          · exact hcross ys hys ⟨Or.inr h.1, h.2⟩
        · rintro ⟨⟨-, harr⟩, hnews, hrest⟩
          refine ⟨?_, hrest⟩
          rintro ys hys ⟨h | h, h'⟩
          · exact harr ys hys ⟨h, h'⟩
          · exact hnews ys hys ⟨h, h'⟩

theorem allListed_cons : allListed key (first :: rest) =
    first.listed key ++ (rest.map (·.listed key)).flatten :=
  rfl

/-- A list that nothing is added to has all entries if the other documents have none. -/
theorem keptOnce_of_not_takes {same : Value → Value → Bool}
    (hkey : key ∈ ["tags", "security", "servers"]) (h : ¬ TakesItems first key) :
    Once.KeptOnce same ((rest.foldl mergeInto first).listed key) (allListed key (first :: rest)) ↔
      ∀ spec ∈ rest, spec.listed key = [] := by
  rw [listed_run_of_not_takes hkey h, allListed_cons, listed_of_not_takes h, List.nil_append,
    Once.keptOnce_nil, List.flatten_eq_nil_iff]
  exact List.forall_mem_map

theorem tags_kept_iff (hdistinct : ∀ spec ∈ first :: rest, DistinctLists spec) :
    Once.KeptOnce sameTag ((rest.foldl mergeInto first).listed "tags")
        (allListed "tags" (first :: rest)) ↔
      (TakesItems first "tags" ∨ ∀ spec ∈ rest, spec.listed "tags" = []) ∧
      (first :: rest).Pairwise fun spec spec' =>
        ¬ (HasUnnamedTag (spec.listed "tags") ∧ HasUnnamedTag (spec'.listed "tags")) := by
  obtain ⟨hfirst, hrest⟩ := List.forall_mem_cons.mp hdistinct
  by_cases htakes : TakesItems first "tags"
  · have hrun := listed_run addTags rest (fun h => tags_mergeInto h) htakes
    have hlists : ∀ news ∈ rest.map (·.listed "tags"), Once.Distinct sameTag news :=
      List.forall_mem_map.mpr fun spec hspec => (hrest spec hspec).tags
    rw [hrun, allListed_cons,
      Once.keptOnce_foldl_iff isSame_sameTag find?_addTags fun h => mem_of_mem_addTags h]
    refine (distinct_foldl_addTags_iff hfirst.tags hlists).trans ?_
    rw [← List.map_cons (f := fun spec : Value => spec.listed "tags"), List.pairwise_map]
    exact (and_iff_right (Or.inl htakes)).symm
  · rw [keptOnce_of_not_takes List.mem_cons_self htakes]
    constructor
    · intro hnone
      refine ⟨Or.inr hnone, List.pairwise_cons.mpr ⟨?_, ?_⟩⟩
      · rintro spec - ⟨⟨tag, htag, -⟩, -⟩
        rw [listed_of_not_takes htakes] at htag
        cases htag
      · apply List.pairwise_of_forall_mem_list
        rintro spec hspec spec' - ⟨⟨tag, htag, -⟩, -⟩
        rw [hnone spec hspec] at htag
        cases htag
    · rintro ⟨h | h, -⟩
      · exact absurd h htakes
      · exact h

theorem unique_kept_iff (hkey : key ∈ ["security", "servers"]) (hfirst : DistinctLists first) :
    Once.KeptOnce Value.beq ((rest.foldl mergeInto first).listed key)
        (allListed key (first :: rest)) ↔
      TakesItems first key ∨ ∀ spec ∈ rest, spec.listed key = [] := by
  by_cases htakes : TakesItems first key
  · have hrun := listed_run (Once.addUnique Value.beq) rest (fun h => unique_mergeInto hkey h)
      htakes
    refine iff_of_true ?_ (Or.inl htakes)
    rw [hrun, allListed_cons, Once.keptOnce_foldl_iff isSame_beq
      (fun e arr news => Once.find?_addUnique isSame_beq) fun h => Once.mem_of_mem_addUnique h]
    exact List.foldlRecOn _ _ (hfirst.unique key hkey) fun _ h _ _ => Once.distinct_addUnique h
  · rw [keptOnce_of_not_takes (List.mem_cons_of_mem _ hkey) htakes]
    exact (or_iff_right htakes).symm

/-- **Merging keeps every entry of the three lists once, exactly if the first document has each
list that a later one has entries of, and at most one document has a tag without a name.** -/
theorem mergeSpecs_listsKept_iff (hdistinct : ∀ spec ∈ first :: rest, DistinctLists spec) :
    (∃ merged, mergeSpecs (first :: rest) = .ok merged ∧ ListsKept (first :: rest) merged) ↔
      (∀ key ∈ ["tags", "security", "servers"],
        TakesItems first key ∨ ∀ spec ∈ rest, spec.listed key = []) ∧
      (first :: rest).Pairwise fun spec spec' =>
        ¬ (HasUnnamedTag (spec.listed "tags") ∧ HasUnnamedTag (spec'.listed "tags")) := by
  have hfirst := hdistinct first List.mem_cons_self
  rw [List.forall_mem_cons, and_assoc, and_left_comm, ← tags_kept_iff hdistinct]
  constructor
  · rintro ⟨merged, hmerge, hkept⟩
    obtain rfl : rest.foldl mergeInto first = merged := Except.ok.inj hmerge
    exact ⟨fun key hkey => (unique_kept_iff hkey hfirst).mp (hkept.unique key hkey), hkept.tags⟩
  · rintro ⟨hunique, htags⟩
    exact ⟨_, rfl, htags, fun key hkey => (unique_kept_iff hkey hfirst).mpr (hunique key hkey)⟩

end

/-- A document with one tag. -/
def taggedSpec : Value := .object [("openapi", .string "3.0.3"),
  ("tags", .array [.object [("name", .string "pets")]])]

theorem distinctLists_taggedSpec : DistinctLists taggedSpec := by
  refine ⟨List.pairwise_singleton _ _, fun key hkey => ?_⟩
  rcases List.mem_pair.mp hkey with rfl | rfl <;> exact List.Pairwise.nil

theorem distinctLists_petsSpec : DistinctLists petsSpec := by
  refine ⟨List.Pairwise.nil, fun key hkey => ?_⟩
  rcases List.mem_pair.mp hkey with rfl | rfl <;> exact List.Pairwise.nil

/-- A document with two entries in each of the lists. -/
def listedSpec (first second : String) : Value := .object [("openapi", .string "3.0.3"),
  ("security", .array [.object [(first, .array [])], .object [(second, .array [])]]),
  ("servers", .array [.object [("url", .string first)], .object [("url", .string second)]]),
  ("tags", .array [.object [("name", .string first)], .object [("name", .string second)]])]

theorem distinctLists_listedSpec {first second : String} (h : first ≠ second) :
    DistinctLists (listedSpec first second) := by
  refine ⟨List.pairwise_pair.mpr ?_, fun key hkey => ?_⟩
  · show decide (some first = some second) = false
    simpa using h
  · rcases List.mem_pair.mp hkey with rfl | rfl
    · refine List.pairwise_pair.mpr ?_
      simp [Value.beq, Value.beqEntries, h]
    · refine List.pairwise_pair.mpr ?_
      simp [Value.beq, Value.beqEntries, h]

/-- One entry of each list is in both documents. -/
theorem mergeSpecs_listsKept_listedSpec :
    ∃ merged, mergeSpecs [listedSpec "pets" "orders", listedSpec "orders" "users"] = .ok merged ∧
      ListsKept [listedSpec "pets" "orders", listedSpec "orders" "users"] merged := by
  have hdistinct : ∀ spec ∈ [listedSpec "pets" "orders", listedSpec "orders" "users"],
      DistinctLists spec := by
    intro spec hspec
    rcases List.mem_pair.mp hspec with rfl | rfl
    · exact distinctLists_listedSpec (by decide)
    · exact distinctLists_listedSpec (by decide)
  refine (mergeSpecs_listsKept_iff hdistinct).mpr ⟨fun key hkey => Or.inl ?_, ?_⟩
  · rcases List.mem_cons.mp hkey with rfl | hkey
    · exact ⟨_, rfl⟩
    · rcases List.mem_pair.mp hkey with rfl | rfl <;> exact ⟨_, rfl⟩
  · refine List.pairwise_pair.mpr ?_
    rintro ⟨⟨tag, htag, hnone⟩, -⟩
    rcases List.mem_pair.mp htag with rfl | rfl <;> cases hnone

/-- The tag of the second document is lost. -/
theorem tag_lost : DistinctLists petsSpec ∧ DistinctLists taggedSpec ∧
    ¬ ∃ merged, mergeSpecs [petsSpec, taggedSpec] = .ok merged ∧
      ListsKept [petsSpec, taggedSpec] merged := by
  refine ⟨distinctLists_petsSpec, distinctLists_taggedSpec, ?_⟩
  rintro ⟨merged, hmerge, hkept⟩
  obtain rfl := Except.ok.inj hmerge
  have honce := hkept.tags.once (.object [("name", .string "pets")]) List.mem_cons_self
  cases honce

end SpecForge
