import SpecForge.Lib.UniqueNames
import SpecForge.Native.Calls
import SpecForge.Native.FiniteTypes

/-!
# Identifiers in Go declarations

- §1 which texts are identifiers; §2 the fields of a struct; §3 the arguments of a method.

The fields of the own properties are told apart by numbers. Nothing of the kind happens to the
embedded base, to `AdditionalProperties`, and to the arguments.
-/

namespace SpecForge.Go

open Native Lib

/-! ## §1  Identifiers -/

def keywords : List String :=
  ["break", "default", "func", "interface", "select", "case", "defer", "go", "map", "struct",
   "chan", "else", "goto", "package", "switch", "const", "fallthrough", "if", "range", "type",
   "continue", "for", "import", "return", "var"]

/-- Go has more letters and digits, none of which the emitter writes. -/
def isIdentifier (s : String) : Bool :=
  match s.toList with
  | [] => false
  | c :: cs =>
      (c.isAlpha || c == '_') && cs.all (fun c => c.isAlphanum || c == '_') &&
        !keywords.contains s

/-- All keywords are reserved names. -/
theorem keywords_subset : keywords ⊆ goReserved := by decide

/-- Of texts of letters and digits, those that start with a digit and the keywords are no
identifiers. -/
theorem isIdentifier_iff {s : String} {c : Char} {cs : List Char} (hs : s.toList = c :: cs)
    (hall : ∀ x ∈ s.toList, x.isAlphanum = true) :
    isIdentifier s = true ↔ c.isDigit = false ∧ s ∉ keywords := by
  rw [hs, List.forall_mem_cons] at hall
  have hrest : (cs.all fun c => c.isAlphanum || c == '_') = true := by
    rw [List.all_eq_true]
    intro x hx
    rw [hall.2 x hx, Bool.true_or]
  have hunderscore : (c == '_') = false := beq_false_of_ne (ne_underscore_of_alphanum hall.1)
  have hfirst : c.isAlpha = true ↔ c.isDigit = false := by
    have halnum : (c.isAlpha || c.isDigit) = true := hall.1
    have hnot : c.isAlpha = true → c.isDigit = false := by
      intro halpha
      have hcase : (c.isUpper || c.isLower) = true := halpha
      rw [Bool.or_eq_true] at hcase
      exact hcase.elim Ascii.isDigit_eq_false_of_isUpper Ascii.isDigit_eq_false_of_isLower
    refine ⟨hnot, fun hdigit => ?_⟩
    rwa [hdigit, Bool.or_false] at halnum
  rw [isIdentifier, hs]
  simp only [hunderscore, hrest, Bool.or_false, Bool.and_true, Bool.and_eq_true,
    Bool.not_eq_true', hfirst, List.contains_eq_mem, decide_eq_false_iff_not]

theorem not_capitalised_of_mem_keywords {s : String} (h : s ∈ keywords) : ¬Capitalised s := by
  rintro ⟨c, cs, hs, hc⟩
  have hlower : (keywords.all fun w => !(w.toList.head?.any Char.isUpper)) = true := by decide
  have hw := List.all_eq_true.mp hlower s h
  rw [hs, List.head?_cons, Option.any_some, hc] at hw
  cases hw

theorem isIdentifier_of_capitalised {s : String} (h : Capitalised s)
    (hall : ∀ x ∈ s.toList, x.isAlphanum = true) : isIdentifier s = true := by
  obtain ⟨c, cs, hs, hc⟩ := h
  rw [isIdentifier_iff hs hall]
  exact ⟨Ascii.isDigit_eq_false_of_isUpper hc,
    fun hmem => not_capitalised_of_mem_keywords hmem ⟨c, cs, hs, hc⟩⟩

theorem alphanum_append {s t : String} (hs : ∀ x ∈ s.toList, x.isAlphanum = true)
    (ht : ∀ x ∈ t.toList, x.isAlphanum = true) : ∀ x ∈ (s ++ t).toList, x.isAlphanum = true := by
  intro x hx
  rw [String.toList_append, List.mem_append] at hx
  exact hx.elim (hs x) (ht x)

theorem alphanum_pascal (input : String) : ∀ x ∈ (pascal input).toList, x.isAlphanum = true := by
  rw [pascal, String.toList_ofList]
  exact alphanum_pascalChars _

theorem alphanum_fieldName (input : String) :
    ∀ x ∈ (fieldName input).toList, x.isAlphanum = true := by
  unfold fieldName
  dsimp only
  split
  · exact alphanum_append (alphanum_pascal _) (by simp)
  · exact alphanum_pascal _

theorem capitalised_fieldName (input : String) : Capitalised (fieldName input) := by
  unfold fieldName
  dsimp only
  split
  · exact (capitalised_pascal _).append "Field"
  · exact capitalised_pascal _

theorem fieldName_eq (input : String) : fieldName input =
    let name := pascal (String.ofList (input.toList.flatMap fieldChar))
    if isGoReserved (String.ofList (name.toList.map Char.toLower)) then name ++ "Field"
    else name := by
  unfold fieldName
  dsimp only
  rw [← String.toList_map, String.ofList_toList]

theorem isIdentifier_exportIdent (input : String) : isIdentifier (exportIdent input) = true := by
  apply isIdentifier_of_capitalised (capitalised_exportIdent input)
  unfold exportIdent
  dsimp only
  split
  · exact alphanum_append (alphanum_pascal _) (by simp)
  · exact alphanum_pascal _

/-! ## §2  The fields of a struct -/

/-- The fields of properties, each told apart from those before it. -/
def propertyIdents (used : List String) : List Property → List String
  | [] => []
  | p :: properties =>
      let field := uniqueFieldName (fieldName p.name) used
      field :: propertyIdents (used ++ [field]) properties

/-- The embedded base is a field with the name of its type. -/
def structIdents (schemas : SchemaRegistry) (o : ObjectModel) : List String :=
  if isStructModel o && !o.properties.isEmpty then
    ((baseName o).map exportIdent).toList ++ propertyIdents [] (ownProperties schemas o) ++
      (o.additionalProperties.map fun _ => "AdditionalProperties").toList
  else []

theorem uniqueFrom_eq (base : String) (used : List String) : ∀ attempts n : ℕ,
    uniqueFrom base used attempts n =
      UniqueNames.firstFree (fun n => base ++ toString n) used attempts n
  | 0, _ => rfl
  | attempts + 1, n => by
      rw [uniqueFrom, UniqueNames.firstFree, uniqueFrom_eq base used attempts (n + 1)]

theorem propertyIdents_eq (used : List String) (properties : List Property) :
    propertyIdents used properties =
      UniqueNames.uniques (fun base n => base ++ toString n) used
        (properties.map fun p => fieldName p.name) := by
  induction properties generalizing used with
  | nil => rfl
  | cons p properties ih =>
      have hunique : uniqueFieldName (fieldName p.name) used =
          UniqueNames.unique (fun base n => base ++ toString n) (fieldName p.name) used := by
        rw [uniqueFieldName, UniqueNames.unique, uniqueFrom_eq]
      rw [propertyIdents, List.map_cons, UniqueNames.uniques, hunique, ih]

theorem nodup_propertyIdents (properties : List Property) :
    (propertyIdents [] properties).Nodup := by
  rw [propertyIdents_eq]
  exact UniqueNames.nodup_uniques UniqueNames.append_toString_injective [] _

theorem isIdentifier_propertyIdents {ident : String} {properties : List Property}
    (h : ident ∈ propertyIdents [] properties) : isIdentifier ident = true := by
  rw [propertyIdents_eq] at h
  obtain ⟨base, hbase, hcases⟩ := UniqueNames.exists_of_mem_uniques h
  obtain ⟨p, -, rfl⟩ := List.mem_map.mp hbase
  rcases hcases with rfl | ⟨n, -, rfl⟩
  · exact isIdentifier_of_capitalised (capitalised_fieldName p.name) (alphanum_fieldName p.name)
  · apply isIdentifier_of_capitalised ((capitalised_fieldName p.name).append _)
    refine alphanum_append (alphanum_fieldName p.name) fun x hx => ?_
    exact Ascii.isAlphanum_of_isDigit (UniqueNames.isDigit_of_mem_toString hx)

/-- A name without a number is a field only where a property is called so. -/
theorem additionalProperties_mem_iff (properties : List Property) :
    "AdditionalProperties" ∈ propertyIdents [] properties ↔
      ∃ p ∈ properties, fieldName p.name = "AdditionalProperties" := by
  rw [propertyIdents_eq]
  constructor
  · intro h
    obtain ⟨base, hbase, hcases⟩ := UniqueNames.exists_of_mem_uniques h
    obtain ⟨p, hp, rfl⟩ := List.mem_map.mp hbase
    rcases hcases with heq | ⟨n, -, heq⟩
    · exact ⟨p, hp, heq.symm⟩
    · obtain ⟨c, hlast, hdigit⟩ :=
        UniqueNames.exists_getLast?_append_toString (fieldName p.name) n
      have hs : "AdditionalProperties".toList.getLast? = some 's' := by decide
      rw [← heq, hs] at hlast
      cases hlast
      cases hdigit
  · rintro ⟨p, hp, heq⟩
    apply UniqueNames.mem_uniques _ (List.not_mem_nil)
    exact List.mem_map.mpr ⟨p, hp, heq⟩

/-- What keeps the base and `AdditionalProperties` apart from the rest. -/
structure FieldsApart (schemas : SchemaRegistry) (o : ObjectModel) : Prop where
  base : ∀ base, baseName o = some base →
    exportIdent base ∉ propertyIdents [] (ownProperties schemas o)
  additional : o.additionalProperties.isSome = true → ∀ p ∈ ownProperties schemas o,
    fieldName p.name ≠ "AdditionalProperties"
  both : o.properties ≠ [] → o.additionalProperties.isSome = true → ∀ base,
    baseName o = some base → exportIdent base ≠ "AdditionalProperties"

theorem isIdentifier_structIdents {schemas : SchemaRegistry} {o : ObjectModel} {ident : String}
    (h : ident ∈ structIdents schemas o) : isIdentifier ident = true := by
  unfold structIdents at h
  split at h
  · rw [List.mem_append, List.mem_append] at h
    rcases h with (h | h) | h
    · rw [Option.mem_toList, Option.map_eq_some_iff] at h
      obtain ⟨base, -, rfl⟩ := h
      exact isIdentifier_exportIdent base
    · exact isIdentifier_propertyIdents h
    · rw [Option.mem_toList, Option.map_eq_some_iff] at h
      obtain ⟨addl, -, rfl⟩ := h
      decide
  · cases h

theorem nodup_structIdents_iff (schemas : SchemaRegistry) (o : ObjectModel) :
    (structIdents schemas o).Nodup ↔ FieldsApart schemas o := by
  by_cases hprops : o.properties = []
  · have hown : ownProperties schemas o = [] := by rw [ownProperties, hprops, List.filter_nil]
    have hidents : structIdents schemas o = [] := by
      rw [structIdents, hprops, List.isEmpty_nil, Bool.not_true, Bool.and_false]
      rfl
    rw [hidents]
    refine ⟨fun _ => ⟨?_, ?_, fun h => absurd hprops h⟩, fun _ => List.nodup_nil⟩
    · intro base _ hmem
      rw [hown] at hmem
      cases hmem
    · intro _ p hp
      rw [hown] at hp
      cases hp
  · have hstruct : (isStructModel o && !o.properties.isEmpty) = true := by
      rw [isStructModel, List.isEmpty_eq_false_iff.mpr hprops]
      rfl
    have hnodup := nodup_propertyIdents (ownProperties schemas o)
    rw [structIdents, if_pos hstruct]
    constructor
    · intro h
      rw [List.append_assoc, List.nodup_append] at h
      refine ⟨fun base hbase hmem => ?_, fun haddl p hp heq => ?_, fun _ haddl base hbase heq => ?_⟩
      · rw [hbase] at h
        exact h.2.2 _ (List.mem_singleton.mpr rfl) _ (List.mem_append_left _ hmem) rfl
      · obtain ⟨addl, haddl⟩ := Option.isSome_iff_exists.mp haddl
        rw [haddl, List.nodup_append] at h
        refine h.2.1.2.2 _ ?_ _ (List.mem_singleton.mpr rfl) rfl
        exact (additionalProperties_mem_iff _).mpr ⟨p, hp, heq⟩
      · obtain ⟨addl, haddl⟩ := Option.isSome_iff_exists.mp haddl
        rw [hbase, haddl] at h
        refine h.2.2 _ (List.mem_singleton.mpr rfl) _ ?_ heq
        exact List.mem_append_right _ (List.mem_singleton.mpr rfl)
    · intro h
      rw [List.append_assoc, List.nodup_append, List.nodup_append]
      refine ⟨?_, ⟨hnodup, ?_, ?_⟩, ?_⟩
      · cases baseName o with
        | none => exact List.nodup_nil
        | some base => exact List.nodup_singleton _
      · cases o.additionalProperties with
        | none => exact List.nodup_nil
        | some addl => exact List.nodup_singleton _
      · intro ident hident other hother heq
        rw [Option.mem_toList, Option.map_eq_some_iff] at hother
        obtain ⟨addl, haddl, rfl⟩ := hother
        rw [heq, additionalProperties_mem_iff] at hident
        obtain ⟨p, hp, hname⟩ := hident
        exact h.additional (haddl ▸ rfl) p hp hname
      · intro ident hident other hother heq
        rw [Option.mem_toList, Option.map_eq_some_iff] at hident
        obtain ⟨base, hbase, rfl⟩ := hident
        rcases List.mem_append.mp hother with hother | hother
        · exact h.base base hbase (heq ▸ hother)
        · rw [Option.mem_toList, Option.map_eq_some_iff] at hother
          obtain ⟨addl, haddl, rfl⟩ := hother
          exact h.both hprops (haddl ▸ rfl) base hbase heq

/-! ## §3  The arguments of a method -/

def argumentNames (op : Operation) : List String :=
  "ctx" :: argIdents op ++ if op.requestBody.isSome then ["body"] else []

/-- The letters and digits of a name, those that start a word in upper case. -/
def camelForm (name : String) : String := String.ofList (paramChars 0 false name.toList)

/-- Two joined names that end up as one: one is empty, or reserved, and is given the other. -/
def Replaces (s t : String) : Prop := s = "" ∧ t = "p" ∨ s ∈ goReserved ∧ t = s ++ "Val"

/-- Two names of parameters that give one argument. -/
def Clash (a b : String) : Prop :=
  camelForm a = camelForm b ∨ Replaces (camelForm a) (camelForm b) ∨ Replaces (camelForm b) (camelForm a)

/-- The first letter or digit of the name is a digit. -/
def leadingDigit (name : String) : Bool := (name.toList.find? Char.isAlphanum).any Char.isDigit

theorem goParamIdent_cases (name : String) :
    camelForm name = "" ∧ goParamIdent name = "p" ∨
    camelForm name ∈ goReserved ∧ goParamIdent name = camelForm name ++ "Val" ∨
    camelForm name ≠ "" ∧ camelForm name ∉ goReserved ∧ goParamIdent name = camelForm name := by
  unfold goParamIdent
  show camelForm name = "" ∧ (if camelForm name = "" then _ else _) = _ ∨ _
  by_cases hempty : camelForm name = ""
  · exact Or.inl ⟨hempty, if_pos hempty⟩
  · by_cases hreserved : camelForm name ∈ goReserved
    · refine Or.inr (Or.inl ⟨hreserved, ?_⟩)
      exact (if_neg hempty).trans (if_pos (List.contains_iff_mem.mpr hreserved))
    · refine Or.inr (Or.inr ⟨hempty, hreserved, ?_⟩)
      exact (if_neg hempty).trans (if_neg fun h => hreserved (List.contains_iff_mem.mp h))

theorem append_val_notMem {s : String} (h : s ∈ goReserved) : s ++ "Val" ∉ goReserved := by
  have hall : (goReserved.all fun r => !goReserved.contains (r ++ "Val")) = true := by decide
  simpa using List.all_eq_true.mp hall s h

theorem append_val_ne_empty (s : String) : s ++ "Val" ≠ "" := by
  intro h
  have hlength := congrArg String.length h
  rw [String.length_append] at hlength
  exact absurd hlength (Nat.succ_ne_zero _)

theorem append_val_ne_p (s : String) : s ++ "Val" ≠ "p" := by
  intro h
  have hlength := congrArg String.length h
  rw [String.length_append] at hlength
  have hval : "Val".length = 3 := rfl
  have hp : "p".length = 1 := rfl
  omega

/-- A name that replaces another stays as it is. -/
theorem goParamIdent_eq_of_replaces {a b : String} (h : Replaces (camelForm a) (camelForm b)) :
    goParamIdent a = goParamIdent b := by
  rcases h with ⟨ha, hb⟩ | ⟨ha, hb⟩
  · have hp : "p" ∉ goReserved := by decide
    rcases goParamIdent_cases a with ⟨-, heq⟩ | ⟨hmem, -⟩ | ⟨hne, -⟩
    · rcases goParamIdent_cases b with ⟨hempty, -⟩ | ⟨hmem, -⟩ | ⟨-, -, heq'⟩
      · exact absurd (hb.symm.trans hempty) (by decide)
      · exact absurd (hb ▸ hmem) hp
      · rw [heq, heq', hb]
    · rw [ha] at hmem
      exact absurd hmem (by decide)
    · exact absurd ha hne
  · rcases goParamIdent_cases a with ⟨hempty, -⟩ | ⟨-, heq⟩ | ⟨-, hnot, -⟩
    · rw [hempty] at ha
      exact absurd ha (by decide)
    · rcases goParamIdent_cases b with ⟨hempty, -⟩ | ⟨hmem, -⟩ | ⟨-, -, heq'⟩
      · exact absurd (hb.symm.trans hempty) (append_val_ne_empty _)
      · exact absurd (hb ▸ hmem) (append_val_notMem ha)
      · rw [heq, heq', hb]
    · exact absurd ha hnot

theorem goParamIdent_eq_iff (a b : String) : goParamIdent a = goParamIdent b ↔ Clash a b := by
  constructor
  · intro h
    rcases goParamIdent_cases a with ⟨ha, heq⟩ | ⟨ha, heq⟩ | ⟨-, -, heq⟩ <;>
      rcases goParamIdent_cases b with ⟨hb, heq'⟩ | ⟨hb, heq'⟩ | ⟨-, -, heq'⟩ <;>
      rw [heq, heq'] at h
    · exact Or.inl (ha.trans hb.symm)
    · exact absurd h.symm (append_val_ne_p _)
    · exact Or.inr (Or.inl (Or.inl ⟨ha, h.symm⟩))
    · exact absurd h (append_val_ne_p _)
    · exact Or.inl (String.append_left_inj _ |>.mp h)
    · exact Or.inr (Or.inl (Or.inr ⟨ha, h.symm⟩))
    · exact Or.inr (Or.inr (Or.inl ⟨hb, h⟩))
    · exact Or.inr (Or.inr (Or.inr ⟨hb, h⟩))
    · exact Or.inl h
  · rintro (h | h | h)
    · have hform : ∀ name, goParamIdent name =
          (fun s => if s = "" then "p" else if isGoReserved s then s ++ "Val" else s)
            (camelForm name) := fun _ => rfl
      rw [hform a, hform b, h]
    · exact goParamIdent_eq_of_replaces h
    · exact (goParamIdent_eq_of_replaces h).symm

theorem alphanum_paramChars : ∀ (i : ℕ) (nextUpper : Bool) (cs : List Char),
    ∀ x ∈ paramChars i nextUpper cs, x.isAlphanum = true
  | _, _, [], x, hx => by cases hx
  | i, nextUpper, c :: cs, x, hx => by
      rw [paramChars] at hx
      split at hx
      · next hc =>
          have hupper : c.toUpper.isAlphanum = true :=
            (Ascii.toUpper_alphanum hc).elim Ascii.isAlphanum_of_isUpper
              Ascii.isAlphanum_of_isDigit
          split at hx <;> [skip; split at hx] <;> rcases List.mem_cons.mp hx with rfl | hx
          · exact Ascii.alphanum_toLower hc
          · exact alphanum_paramChars _ _ _ x hx
          · exact hupper
          · exact alphanum_paramChars _ _ _ x hx
          · exact hc
          · exact alphanum_paramChars _ _ _ x hx
      · exact alphanum_paramChars _ _ _ x hx

/-- The first character is that of the name, in some case. -/
theorem head_paramChars : ∀ (i : ℕ) (nextUpper : Bool) (cs : List Char),
    (paramChars i nextUpper cs).head?.any Char.isDigit =
      (cs.find? Char.isAlphanum).any Char.isDigit
  | _, _, [] => rfl
  | i, nextUpper, c :: cs => by
      rw [paramChars]
      split
      · next hc =>
          rw [List.find?_cons_of_pos hc]
          split <;> [skip; split]
          · exact Ascii.isDigit_toLower c
          · exact Ascii.isDigit_toUpper c
          · rfl
      · next hc =>
          rw [List.find?_cons_of_neg hc]
          exact head_paramChars _ _ cs

theorem goParamIdent_notMem_reserved (name : String) : goParamIdent name ∉ goReserved := by
  rcases goParamIdent_cases name with ⟨-, heq⟩ | ⟨hmem, heq⟩ | ⟨-, hnot, heq⟩
  · rw [heq]
    decide
  · rw [heq]
    exact append_val_notMem hmem
  · rwa [heq]

theorem isIdentifier_goParamIdent (name : String) :
    isIdentifier (goParamIdent name) = true ↔ leadingDigit name = false := by
  have hjoined : ∀ x ∈ (camelForm name).toList, x.isAlphanum = true := by
    rw [camelForm, String.toList_ofList]
    exact alphanum_paramChars 0 false name.toList
  have hdigit : (camelForm name).toList.head?.any Char.isDigit = leadingDigit name := by
    rw [camelForm, String.toList_ofList, head_paramChars, leadingDigit]
  have hall : ∀ x ∈ (goParamIdent name).toList, x.isAlphanum = true := by
    rcases goParamIdent_cases name with ⟨-, heq⟩ | ⟨-, heq⟩ | ⟨-, -, heq⟩ <;> rw [heq]
    · simp
    · exact alphanum_append hjoined (by simp)
    · exact hjoined
  have hhead : (goParamIdent name).toList.head?.any Char.isDigit = leadingDigit name := by
    rw [← hdigit]
    rcases goParamIdent_cases name with ⟨h, heq⟩ | ⟨h, heq⟩ | ⟨-, -, heq⟩ <;> rw [heq]
    · rw [h]
      rfl
    · have hne : (camelForm name).toList ≠ [] := by
        intro hnil
        rw [String.toList_eq_nil_iff.mp hnil] at h
        exact absurd h (by decide)
      rw [String.toList_append, List.head?_append_of_ne_nil _ hne]
  cases hs : (goParamIdent name).toList with
  | nil =>
      rcases goParamIdent_cases name with ⟨-, heq⟩ | ⟨-, heq⟩ | ⟨hne, -, heq⟩
      · rw [heq] at hs
        cases hs
      · rw [heq] at hs
        exact absurd (String.toList_eq_nil_iff.mp hs) (append_val_ne_empty _)
      · rw [heq] at hs
        exact absurd (String.toList_eq_nil_iff.mp hs) hne
  | cons c cs =>
      rw [isIdentifier_iff hs hall, ← hhead, hs]
      refine ⟨fun h => h.1, fun h => ⟨h, fun hkey => ?_⟩⟩
      exact goParamIdent_notMem_reserved name (keywords_subset hkey)

end SpecForge.Go
