import SpecForge.Core.Merge

/-!
# References of a merged document

Merging only adds: what the first document resolves, the merged one resolves (§2). What it
adds comes from paths, two sections and three lists of the later documents (§1, §3), so a
reference that comes in with them and points into another section may be left without its
target (§4).
-/

namespace SpecForge

open Lib
open Value (Refers)

/-! ## §1  Lists -/

section

variable {v w x t s e : Value} {k r : String}

/-- Equal values hold the same members, up to equality. -/
theorem lookup_of_beqEntries : ∀ {es fs : List (String × Value)}, Value.beqEntries es fs = true →
    fs.lookup k = some w → ∃ v, es.lookup k = some v ∧ v.beq w = true
  | [], [], _, h => by cases h
  | (l, v) :: es, (l', v') :: fs, hbeq, h => by
      rw [Value.beqEntries, Bool.and_eq_true, Bool.and_eq_true, beq_iff_eq] at hbeq
      obtain ⟨⟨rfl, hv⟩, hrest⟩ := hbeq
      by_cases hk : k = l
      · rw [lookup_cons_self hk] at h ⊢
        cases h
        exact ⟨v, rfl, hv⟩
      · rw [lookup_cons_ne hk] at h ⊢
        exact lookup_of_beqEntries hrest h

theorem get_of_beq (hbeq : v.beq w = true) (h : w.get k = some x) :
    ∃ y, v.get k = some y ∧ y.beq x = true := by
  obtain ⟨fs, rfl⟩ := Value.isObject_iff.mp (Value.isObject_of_get h)
  cases v with
  | object es => exact lookup_of_beqEntries hbeq h
  | _ => simp [Value.beq] at hbeq

theorem mem_of_beqItems : ∀ {xs ys : List Value}, Value.beqItems xs ys = true → x ∈ ys →
    ∃ y ∈ xs, y.beq x = true
  | [], [], _, h => by cases h
  | y :: xs, y' :: ys, hbeq, h => by
      rw [Value.beqItems, Bool.and_eq_true] at hbeq
      rcases List.mem_cons.mp h with rfl | h
      · exact ⟨y, List.mem_cons_self, hbeq.1⟩
      · obtain ⟨z, hz, hzx⟩ := mem_of_beqItems hbeq.2 h
        exact ⟨z, List.mem_cons_of_mem _ hz, hzx⟩

theorem eq_string_of_beq (h : v.beq (.string r) = true) : v = .string r := by
  cases v with
  | string s => exact congrArg Value.string (beq_iff_eq.mp h)
  | _ => simp [Value.beq] at h

/-- Equal values hold the same references. -/
theorem refers_of_beq (h : w.Refers r) : ∀ {v : Value}, v.beq w = true → v.Refers r := by
  induction h with
  | here hget =>
      intro v hbeq
      obtain ⟨y, hy, hbeq⟩ := get_of_beq hbeq hget
      exact .here (eq_string_of_beq hbeq ▸ hy)
  | item hx _ ih =>
      intro v hbeq
      cases v with
      | array ys =>
          obtain ⟨y, hy, hbeq⟩ := mem_of_beqItems hbeq hx
          exact .item hy (ih hbeq)
      | _ => simp [Value.beq] at hbeq
  | member hget _ ih =>
      intro v hbeq
      obtain ⟨y, hy, hbeq⟩ := get_of_beq hbeq hget
      exact .member hy (ih hbeq)

/-- The list that items of other documents are appended to. -/
def TakesItems (spec : Value) (key : String) : Prop := ∃ xs, spec.get key = some (.array xs)

theorem listed_of_get {xs : List Value} (h : v.get k = some (.array xs)) : v.listed k = xs := by
  rw [Value.listed, h]
  rfl

/-- A reference stands in one of the items. -/
def ListRefers (r : String) (xs : List Value) : Prop := ∃ x ∈ xs, x.Refers r

theorem listRefers_foldl (ys : List Value) : ∀ {xs : List Value},
    ListRefers r (ys.foldl (fun arr entry =>
      if arr.any (·.beq entry) then arr else arr ++ [entry]) xs) ↔
    ListRefers r xs ∨ ListRefers r ys := by
  induction ys with
  | nil =>
      intro xs
      simp [ListRefers]
  | cons y ys ih =>
      intro xs
      rw [List.foldl_cons, ih]
      have hcons : ListRefers r (y :: ys) ↔ y.Refers r ∨ ListRefers r ys := by
        simp [ListRefers]
      rw [hcons, ← or_assoc]
      refine or_congr ?_ Iff.rfl
      split
      · next hany =>
          obtain ⟨x, hx, hbeq⟩ := List.any_eq_true.mp hany
          constructor
          · exact Or.inl
          · rintro (h | h)
            · exact h
            · exact ⟨x, hx, refers_of_beq h hbeq⟩
      · simp only [ListRefers, List.mem_append, List.mem_singleton, or_and_right, exists_or,
          exists_eq_left]

end

/-! ## §2  What the merged document holds -/

section

variable {first w : Value} {rest : List Value} {k key path sec name r : String}

/-- What no source changes, the run does not change. -/
theorem run_eq {α : Type} {f : Value → α} {P : Value → Prop}
    (hstep : ∀ t s, P t → f (mergeInto t s) = f t ∧ P (mergeInto t s)) (rest : List Value) :
    ∀ {first : Value}, P first → f (rest.foldl mergeInto first) = f first := by
  induction rest with
  | nil =>
      intro first _
      rfl
  | cons s rest ih =>
      intro first hP
      rw [List.foldl_cons, ih (hstep first s hP).2, (hstep first s hP).1]

/-- What each source has its say in, the last one decides. -/
theorem run_latest {f : Value → Option Value} {P : Value → Prop}
    (hstep : ∀ t s, P t → f (mergeInto t s) = (f s).or (f t) ∧ P (mergeInto t s))
    (rest : List Value) : ∀ {first : Value}, P first →
    f (rest.foldl mergeInto first) = (latest f rest).or (f first) := by
  induction rest with
  | nil =>
      intro first _
      rfl
  | cons s rest ih =>
      intro first hP
      rw [List.foldl_cons, ih (hstep first s hP).2, (hstep first s hP).1, latest,
        Option.or_assoc]

theorem get_run_of_notMem (hk : k ∉ mergedMembers) :
    (rest.foldl mergeInto first).get k = first.get k :=
  run_eq (f := (·.get k)) (P := fun _ => True) (fun _ _ _ => ⟨get_mergeInto_of_notMem hk, trivial⟩)
    rest trivial

theorem pathItem_run (htakes : TakesPaths first) :
    (rest.foldl mergeInto first).pathItem path =
      (latest (·.pathItem path) rest).or (first.pathItem path) :=
  run_latest (f := (·.pathItem path)) (P := TakesPaths)
    (fun _ _ h => ⟨pathItem_mergeInto h, takesPaths_mergeInto h⟩) rest htakes

theorem paths_run_of_not_takes (htakes : ¬TakesPaths first) :
    (rest.foldl mergeInto first).get "paths" = first.get "paths" := by
  refine run_eq (f := (·.get "paths")) (P := fun t => ¬TakesPaths t) (fun t s h => ?_) rest htakes
  refine ⟨get_paths_of_not_takes h, ?_⟩
  unfold TakesPaths
  rw [get_paths_of_not_takes h]
  exact h

theorem component_mergeInto {t s : Value} (htakes : TakesSection t sec) :
    (mergeInto t s).component sec name = (s.component sec name).or (t.component sec name) := by
  rw [component_eq_section, component_eq_section, component_eq_section, section_mergeInto htakes]
  cases s.section sec with
  | none => rfl
  | some x =>
      show (insertAll ((t.section sec).getD (.object [])) x).get name =
        (x.get name).or ((t.section sec).bind (·.get name))
      have hobj : ((t.section sec).getD (.object [])).isObject = true := by
        cases hx : t.section sec with
        | none => rfl
        | some y =>
            obtain ⟨c, hc, hy⟩ := Option.bind_eq_some_iff.mp hx
            exact (htakes.2.2 c hc).2 y hy
      rw [get_insertAll hobj, get_getD_empty]

theorem component_run (htakes : TakesSection first sec) :
    (rest.foldl mergeInto first).component sec name =
      (latest (·.component sec name) rest).or (first.component sec name) :=
  run_latest (f := (·.component sec name)) (P := (TakesSection · sec))
    (fun _ _ h => ⟨component_mergeInto h, takesSection_mergeInto h⟩) rest htakes

theorem takesSection_run (htakes : TakesSection first sec) :
    TakesSection (rest.foldl mergeInto first) sec :=
  List.foldlRecOn (motive := (TakesSection · sec)) rest mergeInto htakes
    fun _ h _ _ => takesSection_mergeInto h

theorem takesSection_of_mergeInto {t s : Value} (h : TakesSection (mergeInto t s) sec) :
    TakesSection t sec := by
  by_contra hnot
  refine hnot ⟨h.1, isObject_mergeInto.symm.trans h.2.1, fun c hc => ?_⟩
  have hstep := h.2.2 _ (get_components_of_some hc)
  refine ⟨isObject_componentsStep.symm.trans hstep.1, fun x hx => hstep.2 x ?_⟩
  rw [← section_of_some (get_components_of_some hc), section_of_not_takes hnot,
    section_of_some hc, hx]

theorem section_run_of_not_takes (htakes : ¬TakesSection first sec) :
    (rest.foldl mergeInto first).section sec = first.section sec :=
  run_eq (f := (·.section sec)) (P := fun t => ¬TakesSection t sec)
    (fun _ _ h => ⟨section_of_not_takes h, fun h' => h (takesSection_of_mergeInto h')⟩) rest htakes

/-- Components that are no object are those of the first document. -/
theorem components_run_of_not_object {c : Value}
    (hc : (rest.foldl mergeInto first).get "components" = some c) (hobj : c.isObject = false) :
    first.get "components" = some c := by
  by_cases hfirst : ∀ c', first.get "components" = some c' → c'.isObject = true
  · have hrun : ∀ c', (rest.foldl mergeInto first).get "components" = some c' →
        c'.isObject = true := by
      refine List.foldlRecOn (motive := fun t : Value =>
        ∀ c', t.get "components" = some c' → c'.isObject = true) rest mergeInto hfirst ?_
      intro t ih s _ c' hc'
      cases ht : t.get "components" with
      | some d =>
          rw [get_components_of_some ht] at hc'
          cases hc'
          exact isObject_componentsStep.trans (ih d ht)
      | none =>
          rw [get_components_of_none ht] at hc'
          split at hc'
          · cases hc'
            exact isObject_componentsStep
          · cases hc'
    exact absurd (hrun c hc) (by simp [hobj])
  · push Not at hfirst
    obtain ⟨c', hc', hobj'⟩ := hfirst
    rw [← hc]
    refine (run_eq (f := (·.get "components"))
      (P := fun t => ∃ c, t.get "components" = some c ∧ c.isObject = false) ?_ rest
      ⟨c', hc', by simpa using hobj'⟩).symm
    rintro t s ⟨d, hd, hdobj⟩
    have hsame : (mergeInto t s).get "components" = t.get "components" := by
      rw [get_components_of_some hd, componentsStep_of_not_object hdobj, hd]
    exact ⟨hsame, d, hsame.trans hd, hdobj⟩

def tagNames (spec : Value) : List String := (spec.listed "tags").filterMap tagName

/-- A later document has the tag, and no document before it has one of that name. -/
def NewTag (first : Value) (rest : List Value) (tag : Value) : Prop :=
  ∃ pre s, pre ++ [s] <+: rest ∧ tag ∈ s.listed "tags" ∧
    ∀ n, tagName tag = some n → ∀ s' ∈ first :: pre, n ∉ tagNames s'

theorem tags_mergeInto {t s : Value} {ms : List Value} (h : t.get "tags" = some (.array ms)) :
    (mergeInto t s).get "tags" = some (.array (ms ++ (s.listed "tags").filter fun tag =>
      (tagName tag).all fun n => decide (n ∉ ms.filterMap tagName))) := by
  rw [get_mergeInto_tags, h, Value.listed]
  cases s.get "tags" with
  | none => simp
  | some x =>
      cases x with
      | array xs => rfl
      | _ => simp [appendTags, Value.asArray]

theorem newTag_append {s tag : Value} : NewTag first (rest ++ [s]) tag ↔
    NewTag first rest tag ∨ (tag ∈ s.listed "tags" ∧
      ∀ n, tagName tag = some n → ∀ s' ∈ first :: rest, n ∉ tagNames s') := by
  constructor
  · rintro ⟨pre, s', hpre, htag⟩
    rcases List.prefix_concat_iff.mp hpre with heq | hpre
    · obtain ⟨hrest, hs⟩ := List.append_inj' heq rfl
      rw [hrest, List.singleton_inj.mp hs] at htag
      exact Or.inr htag
    · exact Or.inl ⟨pre, s', hpre, htag⟩
  · rintro (⟨pre, s', hpre, htag⟩ | htag)
    · exact ⟨pre, s', hpre.trans (List.prefix_append rest [s]), htag⟩
    · exact ⟨rest, s, List.prefix_rfl, htag⟩

/-- The tags of the merged document are those of the first one and the new ones. -/
theorem tags_run {ts : List Value} (h : first.get "tags" = some (.array ts)) (rest : List Value) :
    ∃ ms, (rest.foldl mergeInto first).get "tags" = some (.array ms) ∧
      (∀ n, n ∈ ms.filterMap tagName ↔ ∃ s ∈ first :: rest, n ∈ tagNames s) ∧
      ∀ tag, tag ∈ ms ↔ tag ∈ ts ∨ NewTag first rest tag := by
  induction rest using List.reverseRecOn with
  | nil =>
      refine ⟨ts, h, fun n => ?_, fun tag => ?_⟩
      · simp [tagNames, listed_of_get h]
      · simp [NewTag]
  | append_singleton rest s ih =>
      obtain ⟨ms, hms, hnames, htags⟩ := ih
      rw [List.foldl_concat]
      have hnew : ∀ tag, ((tagName tag).all fun n => decide (n ∉ ms.filterMap tagName)) = true ↔
          ∀ n, tagName tag = some n → ∀ s' ∈ first :: rest, n ∉ tagNames s' := by
        intro tag
        rw [Option.all_eq_true]
        refine forall_congr' fun n => imp_congr Iff.rfl ?_
        rw [decide_eq_true_iff, hnames]
        push Not
        rfl
      refine ⟨_, tags_mergeInto hms, fun n => ?_, fun tag => ?_⟩
      · have hsplit : (∃ s' ∈ first :: (rest ++ [s]), n ∈ tagNames s') ↔
            (∃ s' ∈ first :: rest, n ∈ tagNames s') ∨ n ∈ tagNames s := by
          rw [← List.cons_append]
          simp only [List.mem_append, List.mem_singleton, or_and_right, exists_or, exists_eq_left]
        rw [List.filterMap_append, List.mem_append, hnames, hsplit]
        constructor
        · rintro (hn | hn)
          · exact Or.inl hn
          · obtain ⟨tag, htag, hname⟩ := List.mem_filterMap.mp hn
            exact Or.inr (List.mem_filterMap.mpr ⟨tag, (List.mem_filter.mp htag).1, hname⟩)
        · rintro (hn | hn)
          · exact Or.inl hn
          · by_cases hold : ∃ s' ∈ first :: rest, n ∈ tagNames s'
            · exact Or.inl hold
            · obtain ⟨tag, htag, hname⟩ := List.mem_filterMap.mp hn
              refine Or.inr (List.mem_filterMap.mpr ⟨tag, List.mem_filter.mpr ⟨htag, ?_⟩, hname⟩)
              refine (hnew tag).mpr fun n' hn' s' hs' hmem => hold ⟨s', hs', ?_⟩
              rw [hname] at hn'
              cases hn'
              exact hmem
      · rw [List.mem_append, htags, List.mem_filter, hnew, newTag_append, or_assoc]

theorem unique_mergeInto {t s : Value} {ms : List Value} (hkey : key ∈ ["security", "servers"])
    (h : t.get key = some (.array ms)) :
    (mergeInto t s).get key = some (.array ((s.listed key).foldl (fun arr entry =>
      if arr.any (·.beq entry) then arr else arr ++ [entry]) ms)) := by
  rw [get_mergeInto_unique hkey, h, Value.listed]
  cases s.get key with
  | none => rfl
  | some x => cases x <;> rfl

/-- A list without repetitions holds the references of all the documents. -/
theorem unique_run {ts : List Value} (hkey : key ∈ ["security", "servers"])
    (h : first.get key = some (.array ts)) (rest : List Value) :
    ∃ ms, (rest.foldl mergeInto first).get key = some (.array ms) ∧
      (ListRefers r ms ↔ ListRefers r ts ∨ ∃ s ∈ rest, ListRefers r (s.listed key)) := by
  induction rest using List.reverseRecOn with
  | nil => exact ⟨ts, h, by simp⟩
  | append_singleton rest s ih =>
      obtain ⟨ms, hms, hrefers⟩ := ih
      rw [List.foldl_concat]
      refine ⟨_, unique_mergeInto hkey hms, ?_⟩
      rw [listRefers_foldl, hrefers, or_assoc]
      simp only [List.mem_append, List.mem_singleton, or_and_right, exists_or, exists_eq_left]

theorem get_list_run_of_not_takes (hkey : key ∈ ["tags", "security", "servers"])
    (htakes : ¬TakesItems first key) : (rest.foldl mergeInto first).get key = first.get key := by
  refine run_eq (f := (·.get key)) (P := fun t => ¬TakesItems t key) ?_ rest htakes
  intro t s hnot
  have hsame : (mergeInto t s).get key = t.get key := by
    have happend : ∀ {x y : Value}, t.get key = some x →
        appendTags x y = x ∧ appendUnique x y = x := by
      intro x y hx
      cases x with
      | array xs => exact absurd ⟨xs, hx⟩ hnot
      | _ => exact ⟨rfl, rfl⟩
    rw [List.mem_cons, List.mem_pair] at hkey
    rcases hkey with rfl | hkey
    · rw [get_mergeInto_tags]
      split
      · next x y hx hy => rw [(happend hx).1, hx]
      · rfl
    · rw [get_mergeInto_unique (List.mem_pair.mpr hkey)]
      split
      · next x y hx hy => rw [(happend hx).2, hx]
      · rfl
  refine ⟨hsame, ?_⟩
  unfold TakesItems
  rw [hsame]
  exact hnot

end

/-! ## §3  What later documents bring in -/

/-- The later documents bring the reference in: it stands in the last path item of a
path, in the last schema or security scheme of a name, in a new tag, or in an item of the
two other lists. -/
inductive Brings (first : Value) (rest : List Value) (r : String) : Prop where
  | path {p w} : TakesPaths first → latest (·.pathItem p) rest = some w → EntryRefers r p w →
      Brings first rest r
  | component {sec name w} : TakesSection first sec →
      latest (·.component sec name) rest = some w → EntryRefers r name w → Brings first rest r
  | tag {t} : TakesItems first "tags" → NewTag first rest t → t.Refers r → Brings first rest r
  | item {key s} : key ∈ ["security", "servers"] → TakesItems first key → s ∈ rest →
      ListRefers r (s.listed key) → Brings first rest r

section

variable {first s : Value} {rest : List Value} {k r : String}

theorem refers_of_get_get {v c : Value} {k k' : String} {w : Value} (hc : v.get k = some c)
    (hw : c.get k' = some w) (h : EntryRefers r k' w) : v.Refers r :=
  .member hc (h.refers hw)

theorem refers_of_listed {x : Value} (hx : x ∈ s.listed k) (h : x.Refers r) : s.Refers r := by
  unfold Value.listed at hx
  cases hget : s.get k with
  | none => simp [hget] at hx
  | some l =>
      rw [hget] at hx
      cases l with
      | array xs => exact .member hget (.item hx h)
      | _ => cases hx

theorem refers_of_pathItem {p : String} {w : Value} (hw : s.pathItem p = some w)
    (h : EntryRefers r p w) : s.Refers r := by
  obtain ⟨ps, hps, hget⟩ := Option.bind_eq_some_iff.mp hw
  exact refers_of_get_get hps hget h

theorem refers_of_component {sec name : String} {w : Value} (hw : s.component sec name = some w)
    (h : EntryRefers r name w) : s.Refers r := by
  obtain ⟨x, hx, hget⟩ := Option.bind_eq_some_iff.mp hw
  obtain ⟨c, hc, hsec⟩ := Option.bind_eq_some_iff.mp hx
  exact .member hc (.member hsec (h.refers hget))

/-- What is brought in comes from a later document. -/
theorem Brings.exists_refers (h : Brings first rest r) : ∃ s ∈ rest, s.Refers r := by
  cases h with
  | path _ hlatest hentry =>
      obtain ⟨s, hs, hw⟩ := exists_of_latest hlatest
      exact ⟨s, hs, refers_of_pathItem hw hentry⟩
  | component _ hlatest hentry =>
      obtain ⟨s, hs, hw⟩ := exists_of_latest hlatest
      exact ⟨s, hs, refers_of_component hw hentry⟩
  | tag _ hnew hrefers =>
      obtain ⟨pre, s, hpre, htag, -⟩ := hnew
      exact ⟨s, hpre.subset (by simp), refers_of_listed htag hrefers⟩
  | item _ _ hs hlist =>
      obtain ⟨x, hx, hrefers⟩ := hlist
      exact ⟨_, hs, refers_of_listed hx hrefers⟩

theorem Brings.refers_run (h : Brings first rest r) : (rest.foldl mergeInto first).Refers r := by
  cases h with
  | path htakes hlatest hentry =>
      refine refers_of_pathItem ?_ hentry
      rw [pathItem_run htakes, hlatest, Option.some_or]
  | @component sec name w htakes hlatest hentry =>
      have hw : (rest.foldl mergeInto first).component sec name = some w := by
        rw [component_run htakes, hlatest, Option.some_or]
      exact refers_of_component hw hentry
  | tag htakes hnew hrefers =>
      obtain ⟨ts, hts⟩ := htakes
      obtain ⟨ms, hms, -, htags⟩ := tags_run hts rest
      exact .member hms (.item ((htags _).mpr (Or.inr hnew)) hrefers)
  | item hkey htakes hs hlist =>
      obtain ⟨ts, hts⟩ := htakes
      obtain ⟨ms, hms, hrefers⟩ := unique_run hkey hts rest
      obtain ⟨x, hx, hr⟩ := hrefers.mpr (Or.inr ⟨_, hs, hlist⟩)
      exact .member hms (.item hx hr)

/-- A reference among the merged components was there, or came in. -/
theorem brings_of_components {c : Value} (hc : (rest.foldl mergeInto first).get "components" = some c)
    (h : c.Refers r) : first.Refers r ∨ Brings first rest r := by
  cases hobj : c.isObject with
  | false => exact Or.inl (.member (components_run_of_not_object hc hobj) h)
  | true =>
      obtain ⟨sec, x, hx, hentry⟩ := (refers_object_iff hobj).mp h
      by_cases htakes : TakesSection first sec
      · have hsec : sec ≠ "$ref" := by
          rcases List.mem_pair.mp htakes.1 with rfl | rfl <;> decide
        have hxobj : x.isObject = true := ((takesSection_run htakes).2.2 c hc).2 x hx
        obtain ⟨name, w, hw, hentry⟩ :=
          (refers_object_iff hxobj).mp ((entryRefers_iff_refers hsec).mp hentry)
        have hcomponent : (rest.foldl mergeInto first).component sec name = some w := by
          rw [component_eq_section, section_of_some hc, hx, Option.bind_some, hw]
        rw [component_run htakes] at hcomponent
        rcases Option.or_eq_some_iff.mp hcomponent with hlatest | ⟨-, hfirst⟩
        · exact Or.inr (.component htakes hlatest hentry)
        · exact Or.inl (refers_of_component hfirst hentry)
      · have hsection : first.section sec = some x := by
          rw [← section_run_of_not_takes htakes, section_of_some hc, hx]
        obtain ⟨c', hc', hx'⟩ := Option.bind_eq_some_iff.mp hsection
        exact Or.inl (refers_of_get_get hc' hx' hentry)

theorem brings_of_paths {w : Value} (hw : (rest.foldl mergeInto first).get "paths" = some w)
    (h : w.Refers r) : first.Refers r ∨ Brings first rest r := by
  by_cases htakes : TakesPaths first
  · have htakes' : TakesPaths (rest.foldl mergeInto first) :=
      List.foldlRecOn (motive := TakesPaths) rest mergeInto htakes
        fun _ h _ _ => takesPaths_mergeInto h
    obtain ⟨ps, hps, hpsobj⟩ := htakes'
    rw [hw] at hps
    cases hps
    obtain ⟨p, x, hx, hentry⟩ := (refers_object_iff hpsobj).mp h
    have hitem : (rest.foldl mergeInto first).pathItem p = some x := by
      rw [Value.pathItem, hw, Option.bind_some, hx]
    rw [pathItem_run htakes] at hitem
    rcases Option.or_eq_some_iff.mp hitem with hlatest | ⟨-, hfirst⟩
    · exact Or.inr (.path htakes hlatest hentry)
    · exact Or.inl (refers_of_pathItem hfirst hentry)
  · rw [paths_run_of_not_takes htakes] at hw
    exact Or.inl (.member hw h)

theorem brings_of_list {w : Value} (hlist : k = "tags" ∨ k = "security" ∨ k = "servers")
    (hw : (rest.foldl mergeInto first).get k = some w) (h : w.Refers r) :
    first.Refers r ∨ Brings first rest r := by
  by_cases htakes : TakesItems first k
  · obtain ⟨ts, hts⟩ := htakes
    rcases hlist with rfl | hlist
    · obtain ⟨ms, hms, -, htags⟩ := tags_run hts rest
      rw [hw] at hms
      cases hms
      obtain ⟨x, hx, hr⟩ := refers_array_iff.mp h
      rcases (htags x).mp hx with hx | hnew
      · exact Or.inl (.member hts (.item hx hr))
      · exact Or.inr (.tag ⟨ts, hts⟩ hnew hr)
    · have hkey := List.mem_pair.mpr hlist
      obtain ⟨ms, hms, hrefers⟩ := unique_run (r := r) hkey hts rest
      rw [hw] at hms
      cases hms
      rcases hrefers.mp (refers_array_iff.mp h) with hr | ⟨s, hs, hr⟩
      · exact Or.inl (.member hts (refers_array_iff.mpr hr))
      · exact Or.inr (.item hkey ⟨ts, hts⟩ hs hr)
  · rw [get_list_run_of_not_takes (by simpa using hlist) htakes] at hw
    exact Or.inl (.member hw h)

/-- A reference of the merged document was in the first one, or came in. -/
theorem brings_of_refers (h : (rest.foldl mergeInto first).Refers r) :
    first.Refers r ∨ Brings first rest r := by
  by_cases hobj : (rest.foldl mergeInto first).isObject = true
  · obtain ⟨k, w, hget, hentry⟩ := (refers_object_iff hobj).mp h
    by_cases hmerged : k ∈ mergedMembers
    · have hk : k ≠ "$ref" := by
        rintro rfl
        exact absurd hmerged (by decide)
      have hw := (entryRefers_iff_refers hk).mp hentry
      simp only [mergedMembers, List.mem_cons, List.not_mem_nil, or_false] at hmerged
      rcases hmerged with rfl | rfl | hlist
      · exact brings_of_paths hget hw
      · exact brings_of_components hget hw
      · exact brings_of_list hlist hget hw
    · rw [get_run_of_notMem hmerged] at hget
      exact Or.inl (hentry.refers hget)
  · have hfirst : first.isObject = false := by
      rw [Bool.not_eq_true] at hobj
      rw [← hobj]
      exact (run_eq (f := Value.isObject) (P := fun _ => True)
        (fun _ _ _ => ⟨isObject_mergeInto, trivial⟩) rest trivial).symm
    have hsame : rest.foldl mergeInto first = first :=
      List.foldlRecOn (motive := (· = first)) rest mergeInto rfl fun t ht s _ => by
        rw [ht, mergeInto_of_not_object hfirst]
    exact Or.inl (hsame ▸ h)

end

/-! ## §4  Do the references still resolve? -/

section

variable {first merged : Value} {rest : List Value} {sec name : String}

/-- What the first document resolves stays resolved. -/
theorem component_isSome_of_first (h : (first.component sec name).isSome = true) :
    ((rest.foldl mergeInto first).component sec name).isSome = true := by
  by_cases htakes : TakesSection first sec
  · rw [component_run htakes, Option.isSome_or, h, Bool.or_true]
  · rw [component_eq_section, section_run_of_not_takes htakes, ← component_eq_section]
    exact h

/-- **The merged document resolves its references exactly if all that later documents
bring in point into the two merged sections, or at what the first document has.** -/
theorem refs_resolve_merged_iff (hmerge : mergeSpecs (first :: rest) = .ok merged)
    (hresolve : ∀ spec ∈ first :: rest, RefsResolve spec) :
    RefsResolve merged ↔
      ∀ r sec name, Brings first rest r → componentRef r = some (sec, name) →
        TakesSection first sec ∨ (first.component sec name).isSome = true := by
  obtain rfl : rest.foldl mergeInto first = merged := Except.ok.inj hmerge
  constructor
  · intro hmerged r sec name hbrings href
    have hsome := hmerged r sec name hbrings.refers_run href
    by_cases htakes : TakesSection first sec
    · exact Or.inl htakes
    · rw [component_eq_section, section_run_of_not_takes htakes, ← component_eq_section] at hsome
      exact Or.inr hsome
  · intro hbrought r sec name hrefers href
    rcases brings_of_refers hrefers with hfirst | hbrings
    · exact component_isSome_of_first
        (hresolve first List.mem_cons_self r sec name hfirst href)
    · rcases hbrought r sec name hbrings href with htakes | hsome
      · obtain ⟨s, hs, hr⟩ := hbrings.exists_refers
        have hsource := hresolve s (List.mem_cons_of_mem _ hs) r sec name hr href
        rw [component_run htakes, Option.isSome_or,
          latest_isSome (f := (·.component sec name)) hs hsource, Bool.true_or]
      · exact component_isSome_of_first hsome

end

/-- An operation with a parameter, and a component for it. -/
def ordersSpec (sec : String) (component parameter : Value) : Value :=
  .object [
    ("components", .object [(sec, .object [("Limit", component)])]),
    ("openapi", .string "3.0.3"),
    ("paths", .object [("/orders", .object [("get", .object [
      ("parameters", .array [parameter])])])])]

/-- A parameter with a schema of the components. -/
def limitParameter : Value :=
  .object [("in", .string "query"), ("name", .string "limit"),
    ("schema", .object [("$ref", .string "#/components/schemas/Limit")])]

def petsSpec : Value :=
  .object [("openapi", .string "3.0.3"), ("paths", .object [("/pets", .object [])])]

theorem refsResolve_petsSpec : RefsResolve petsSpec := refsResolve_of_refs (by decide)

/-- Schemas come along with the path items that use them. -/
theorem refs_resolve_with_schemas : ∃ merged,
    mergeSpecs [petsSpec, ordersSpec "schemas" (.object [("type", .string "integer")])
      limitParameter] = .ok merged ∧ RefsResolve merged := by
  refine ⟨_, rfl, (refs_resolve_merged_iff rfl ?_).mpr ?_⟩
  · intro spec hspec
    rcases List.mem_pair.mp hspec with rfl | rfl
    · exact refsResolve_petsSpec
    · exact refsResolve_of_refs (by decide)
  · intro r sec name hbrings href
    obtain ⟨s, hs, hr⟩ := hbrings.exists_refers
    rw [List.mem_singleton.mp hs] at hr
    obtain rfl : r = "#/components/schemas/Limit" := List.mem_singleton.mp hr.mem_refs
    have hsec : sec = "schemas" := by
      have hcomponent : componentRef "#/components/schemas/Limit" = some ("schemas", "Limit") := by
        decide
      rw [hcomponent] at href
      cases href
      rfl
    refine Or.inl ⟨hsec ▸ List.mem_cons_self, rfl, fun c hc => ?_⟩
    cases hc

/-- A parameter of the second document stays behind, and the reference to it is dangling. -/
theorem merged_parameter_dangles : ∃ first second merged, RefsResolve first ∧
    RefsResolve second ∧ mergeSpecs [first, second] = .ok merged ∧ ¬RefsResolve merged := by
  refine ⟨petsSpec, ordersSpec "parameters"
    (.object [("in", .string "query"), ("name", .string "limit")])
    (.object [("$ref", .string "#/components/parameters/Limit")]), _, refsResolve_petsSpec,
    refsResolve_of_refs (by decide), rfl, fun hresolve => ?_⟩
  have hrefers : Refers "#/components/parameters/Limit" (mergeInto petsSpec
      (ordersSpec "parameters" (.object [("in", .string "query"), ("name", .string "limit")])
        (.object [("$ref", .string "#/components/parameters/Limit")]))) :=
    .member (k := "paths") rfl (.member (k := "/orders") rfl (.member (k := "get") rfl
      (.member (k := "parameters") rfl (.item List.mem_cons_self (.here rfl)))))
  have hcomponent : componentRef "#/components/parameters/Limit" =
      some ("parameters", "Limit") := by decide
  exact absurd (hresolve _ _ _ hrefers hcomponent) (by decide)

end SpecForge
