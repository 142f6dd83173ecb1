import SpecForge.Lib.Fuel
import SpecForge.Native.Unions
import SpecForge.Ts.Literals
import SpecForge.Ts.Models

/-!
# Narrowing a union (`models.rs`)

For each arm of a union there is a guard, a conjunction of checks; `narrow` tries the guards in
order and returns the name of the first arm whose guard accepts.

- §1 the guards and their text; §2 what they do as JavaScript; §3 guards of plain arms; §4 when
  they follow the mapping of the discriminator.

A guard looks for one value of the discriminator at most, the first one that is mapped to its
arm. Without such a value it accepts whatever has the property and the fields.
-/

namespace SpecForge.Ts

open Lib
open Native (PlainProperty mappedValue DiscriminatedUnion)

/-! ## §1  Guards -/

/-- What one operand of a guard asks for. -/
inductive Check where
  | object
  | equals (prop literal : String)
  | present (prop : String)
  | has (name : String)

def Check.text : Check → String
  | .object => objectCheck
  | .equals prop literal => valueAccess prop ++ " === " ++ literal
  | .present prop => valueAccess prop ++ " !== undefined"
  | .has name => "\"" ++ escapeQuotes name ++ "\" in (value as object)"

/-- The fields that tell an arm without a value from the others. -/
def fieldChecks (armName : String) (registry : SchemaRegistry) (extraExclude : Option String) :
    List Check :=
  match registry.get armName with
  | some (.object obj) =>
      let reqs := ((obj.properties.filter (·.required)).map (·.name)).filter
        fun n => extraExclude != some n
      (if reqs.isEmpty then obj.properties.map (·.name) else reqs).map .has
  | _ => []

def armChecks (armName : String) (discProp : Option String) (registry : Option SchemaRegistry)
    (disc : Option Discriminator) : List Check :=
  match discProp, registry with
  | some prop, some reg =>
      match discriminantLiteral armName prop reg disc with
      | some lit => [.object, .equals prop lit]
      | none => .object :: .present prop :: fieldChecks armName reg (some prop)
  | none, some reg => .object :: fieldChecks armName reg none
  | _, none => [.object]

/-- The guard of an arm, for the type it narrows to. -/
structure Guard where
  type : String
  checks : List Check

def unionGuards (members : List IrType) (discriminator : Option Discriminator)
    (registry : Option SchemaRegistry) : List Guard :=
  (unionArms members).map fun arm =>
    ⟨pascal arm, armChecks arm (discriminator.map (·.propertyName)) registry discriminator⟩

def Guard.text (unionName : String) (g : Guard) : String :=
  ("export function is" ++ unionName ++ g.type ++ "(value: ") ++ unionName ++
  "): value is " ++ g.type ++ " \x7b\n" ++
  ("  return " ++ Text.join " && " (g.checks.map Check.text) ++ ";\n") ++
  "\x7d\n"

def guardsText (unionName : String) (guards : List Guard) : String :=
  "/** Runtime type guards for the `" ++ unionName ++ "` union. */\n" ++
  Text.join "" (guards.map (Guard.text unionName)) ++
  "/** Return which `" ++ unionName ++ "` arm `value` matches, or `undefined`. */\n" ++
  ("export function narrow" ++ unionName ++ "(value: ") ++ unionName ++ "): " ++
  Text.join " | " (guards.map fun g => "\"" ++ g.type ++ "\"") ++
  " | undefined \x7b\n" ++
  Text.join "" (guards.map fun g =>
    "  if (is" ++ unionName ++ g.type ++ "(value)) return \"" ++ g.type ++ "\";\n") ++
  "  return undefined;\n" ++
  "\x7d\n"

theorem join_fieldChecks (armName : String) (registry : SchemaRegistry)
    (extraExclude : Option String) : requiredFieldCheck armName registry extraExclude =
      if (fieldChecks armName registry extraExclude).isEmpty then none
      else some (Text.join " && "
        ((fieldChecks armName registry extraExclude).map Check.text)) := by
  unfold requiredFieldCheck fieldChecks
  cases registry.get armName with
  | none => rfl
  | some m =>
      cases m with
      | enum e => rfl
      | object obj =>
          dsimp only
          rw [List.isEmpty_map, List.map_map]
          rfl

theorem armTypeCheck_eq (armName : String) (discProp : Option String)
    (registry : Option SchemaRegistry) (disc : Option Discriminator) :
    armTypeCheck armName discProp registry disc =
      Text.join " && " ((armChecks armName discProp registry disc).map Check.text) := by
  have hfields : ∀ (front : List Check) (reg : SchemaRegistry) (exclude : Option String),
      front ≠ [] → Text.join " && "
        ((front ++ fieldChecks armName reg exclude).map Check.text) =
      match requiredFieldCheck armName reg exclude with
      | some req => Text.join " && " (front.map Check.text) ++ " && " ++ req
      | none => Text.join " && " (front.map Check.text) := by
    intro front reg exclude hfront
    rw [join_fieldChecks]
    cases hchecks : fieldChecks armName reg exclude with
    | nil =>
        rw [List.append_nil]
        rfl
    | cons check checks =>
        rw [List.isEmpty_cons, if_neg Bool.false_ne_true]
        rw [List.map_append]
        exact String.intercalate_append_of_ne_nil (by simpa using hfront) (by simp)
  unfold armTypeCheck armChecks
  cases registry with
  | none => cases discProp <;> rfl
  | some reg =>
      cases discProp with
      | none =>
          dsimp only
          rw [← List.singleton_append, hfields [.object] reg none (List.cons_ne_nil _ _)]
          rfl
      | some prop =>
          dsimp only
          cases discriminantLiteral armName prop reg disc with
          | some lit =>
              show _ = objectCheck ++ " && " ++ (valueAccess prop ++ " === " ++ lit)
              simp only [String.append_assoc]
          | none =>
              show _ = Text.join " && "
                (([Check.object, Check.present prop] ++ fieldChecks armName reg (some prop)).map Check.text)
              rw [hfields _ reg (some prop) (List.cons_ne_nil _ _)]
              cases requiredFieldCheck armName reg (some prop) with
              | none =>
                  show _ = objectCheck ++ " && " ++ (valueAccess prop ++ " !== undefined")
                  simp only [String.append_assoc]
              | some req =>
                  show _ = objectCheck ++ " && " ++ (valueAccess prop ++ " !== undefined") ++
                    " && " ++ req
                  have hjoined : " !== undefined && " = " !== undefined" ++ " && " := rfl
                  rw [hjoined]
                  simp only [String.append_assoc]

theorem erase_flatMap {α : Type} (l : List α) (f : α → Marked Mention) :
    Marked.erase (l.flatMap f) = Text.join "" (l.map fun a => (f a).erase) := by
  induction l with
  | nil => rfl
  | cons a l ih =>
      rw [List.flatMap_cons, Marked.erase_append, ih, List.map_cons]
      cases l with
      | nil => exact String.append_empty
      | cons b l => exact (String.intercalate_cons_cons.trans (by simp [Text.join])).symm

/-- The emitted text is that of the guards. -/
theorem erase_emitUnionGuards {unionName : String} {members : List IrType}
    {discriminator : Option Discriminator} {registry : Option SchemaRegistry}
    {m : Marked Mention} (h : emitUnionGuards unionName members discriminator registry = some m) :
    m.erase = guardsText unionName (unionGuards members discriminator registry) := by
  dsimp only [emitUnionGuards] at h
  by_cases harms : (unionArms members).isEmpty = true
  · rw [if_pos harms] at h
    cases h
  · rw [if_neg harms] at h
    have hm := Option.some.inj h
    clear h
    subst hm
    unfold guardsText unionGuards
    rw [List.map_map, List.map_map, List.map_map]
    unfold Guard.text
    simp only [Marked.erase_append, Marked.erase_plain, Marked.erase_mark, erase_flatMap,
      Function.comp_def, armTypeCheck_eq]

/-! ## §2  What they do -/

/-- What reading a property can give; the keys and texts of JavaScript are code units. -/
inductive Slot where
  | absent
  | undefined
  | text (units : List ℕ)
  | other
deriving DecidableEq

abbrev JsObject := List ℕ → Slot

/-- A check, with its literals read. -/
inductive Test where
  | object
  | equals (key value : List ℕ)
  | present (key : List ℕ)
  | has (key : List ℕ)

def Test.holds (o : JsObject) : Test → Bool
  | .object => true
  | .equals key value => o key == .text value
  | .present key => o key != .absent && o key != .undefined
  | .has key => o key != .absent

def readLiteral (literal : String) : Option (List ℕ) :=
  match JsLiteral.literal literal.toList with
  | some (value, []) => some value
  | _ => none

/-- The key that `valueAccess` reads: a literal in brackets, or a name behind a dot. -/
def readKey (prop : String) : Option (List ℕ) :=
  let key := propertyKey prop
  if Text.startsWith "\"" key then readLiteral key else some (Quoted.units key.toList)

def Check.read : Check → Option Test
  | .object => some .object
  | .equals prop literal =>
      (readKey prop).bind fun key => (readLiteral literal).map fun value => .equals key value
  | .present prop => (readKey prop).map .present
  | .has name => (readLiteral ("\"" ++ escapeQuotes name ++ "\"")).map .has

/-- The functions of the guards, if the text is a program: a module declares no name twice. -/
def load (guards : List Guard) : Option (List (String × List Test)) :=
  if (guards.map (·.type)).Nodup then
    guards.mapM fun g => (g.checks.mapM Check.read).map (g.type, ·)
  else none

def accepts (o : JsObject) (guard : String × List Test) : Bool := guard.2.all (Test.holds o)

/-- The function `narrow`. -/
def narrow (functions : List (String × List Test)) (o : JsObject) : Option String :=
  (functions.find? (accepts o)).map (·.1)

theorem readLiteral_stringLiteral (v : String) :
    readLiteral (stringLiteral v) = if OneLine v then some (Quoted.units v.toList) else none := by
  have h := literal_stringLiteral v []
  rw [List.append_nil] at h
  rw [readLiteral, h]
  by_cases hline : OneLine v
  · rw [if_pos hline, if_pos hline]
  · rw [if_neg hline, if_neg hline]

/-- The characters of an identifier stay on its line, and none is a quote. -/
theorem identifier_chars {s : String} (h : isValidIdentifier s = true) :
    ∀ c ∈ s.toList, Stays c ∧ c ≠ '"' := by
  have hchar : ∀ c : Char, (c.isAlphanum || c == '_' || c == '$') = true → Stays c ∧ c ≠ '"' := by
    intro c hc
    refine ⟨⟨?_, ?_⟩, ?_⟩ <;>
    · rintro rfl
      cases hc
  unfold isValidIdentifier at h
  split at h
  · cases h
  · next first chars hs =>
      rw [Bool.and_eq_true, List.all_eq_true] at h
      rw [hs, List.forall_mem_cons]
      refine ⟨hchar first ?_, fun c hc => hchar c (h.2 c hc)⟩
      have hfirst := h.1
      rw [Bool.or_eq_true, Bool.or_eq_true] at hfirst ⊢
      refine hfirst.imp (fun hl => hl.imp (fun hl => ?_) id) id
      rw [Char.isAlphanum, hl, Bool.true_or]

theorem readKey_eq (prop : String) :
    readKey prop = if OneLine prop then some (Quoted.units prop.toList) else none := by
  unfold readKey
  dsimp only
  by_cases hident : (isValidIdentifier prop && !isReserved prop) = true
  · have hchars := identifier_chars (Bool.and_eq_true _ _ ▸ hident).1
    have hline : OneLine prop := oneLine_iff_stays.mpr fun c hc => (hchars c hc).1
    have hkey : propertyKey prop = prop := by rw [propertyKey, if_pos hident]
    have hstart : Text.startsWith "\"" prop = false := by
      rw [← Bool.not_eq_true, Text.startsWith_iff]
      rintro ⟨rest, hrest⟩
      have hquote : '"' ∈ prop.toList := by
        rw [hrest, String.toList_append]
        exact List.mem_append_left _ (List.mem_singleton.mpr rfl)
      exact (hchars '"' hquote).2 rfl
    rw [hkey, hstart, if_neg Bool.false_ne_true, if_pos hline]
  · have hkey : propertyKey prop = stringLiteral prop := by rw [propertyKey, if_neg hident]
    have hstart : Text.startsWith "\"" (stringLiteral prop) = true := by
      rw [stringLiteral, String.append_assoc, Text.startsWith_append]
    rw [hkey, hstart, if_pos rfl, readLiteral_stringLiteral]

theorem forall₂_of_load {guards : List Guard} {functions : List (String × List Test)}
    (h : load guards = some functions) : (guards.map (·.type)).Nodup ∧
      List.Forall₂ (fun g f => f.1 = g.type ∧ g.checks.mapM Check.read = some f.2)
        guards functions := by
  unfold load at h
  split at h
  · next hnodup =>
      refine ⟨hnodup, (mapM_eq_some.mp h).imp fun g f hgf => ?_⟩
      obtain ⟨tests, htests, rfl⟩ := Option.map_eq_some_iff.mp hgf
      exact ⟨rfl, htests⟩
  · cases h

/-! ## §3  Plain arms -/

section Plain

variable {registry : SchemaRegistry} {arm : String} {disc : Discriminator}

/-- A plain arm has the literal of the first value that is mapped to it. -/
theorem discriminantLiteral_of_plain (h : PlainProperty registry arm disc.propertyName) :
    discriminantLiteral arm disc.propertyName registry (some disc) =
      (mappedValue disc arm).map stringLiteral := by
  obtain ⟨obj, p, hobj, hp, hty⟩ := h
  unfold discriminantLiteral mappedValue
  rw [hobj]
  dsimp only
  rw [hp]
  dsimp only
  rw [hty]
  dsimp only
  rw [Option.none_or, Option.bind_some, Option.map_bind]
  congr 1
  funext mapping
  exact (Option.map_map stringLiteral Prod.fst _).symm

theorem armChecks_of_mapped (h : PlainProperty registry arm disc.propertyName) {v : String}
    (hv : mappedValue disc arm = some v) :
    armChecks arm (some disc.propertyName) (some registry) (some disc) =
      [.object, .equals disc.propertyName (stringLiteral v)] := by
  unfold armChecks
  dsimp only
  rw [discriminantLiteral_of_plain h, hv]
  rfl

theorem armChecks_of_unmapped (h : PlainProperty registry arm disc.propertyName)
    (hv : mappedValue disc arm = none) :
    armChecks arm (some disc.propertyName) (some registry) (some disc) =
      .object :: .present disc.propertyName ::
        fieldChecks arm registry (some disc.propertyName) := by
  unfold armChecks
  dsimp only
  rw [discriminantLiteral_of_plain h, hv]
  rfl

/-- The test of a mapped arm, if it is a program. -/
theorem read_mapped {prop v : String} {tests : List Test} :
    [Check.object, .equals prop (stringLiteral v)].mapM Check.read = some tests ↔
      OneLine prop ∧ OneLine v ∧
        tests = [.object, .equals (Quoted.units prop.toList) (Quoted.units v.toList)] := by
  have hread : Check.read (.equals prop (stringLiteral v)) =
      if OneLine prop ∧ OneLine v then
        some (.equals (Quoted.units prop.toList) (Quoted.units v.toList)) else none := by
    rw [Check.read, readKey_eq, readLiteral_stringLiteral]
    by_cases hprop : OneLine prop <;> by_cases hv : OneLine v <;> simp [hprop, hv]
  rw [mapM_eq_some, List.forall₂_cons_left_iff]
  simp only [List.forall₂_cons_left_iff, List.forall₂_nil_left_iff, hread]
  constructor
  · rintro ⟨first, rest, hfirst, ⟨second, rest', hsecond, rfl, rfl⟩, rfl⟩
    cases hfirst
    split at hsecond
    · next hlines =>
        cases hsecond
        exact ⟨hlines.1, hlines.2, rfl⟩
    · cases hsecond
  · rintro ⟨hprop, hv, rfl⟩
    exact ⟨_, _, rfl, ⟨_, _, if_pos ⟨hprop, hv⟩, rfl, rfl⟩, rfl⟩

theorem mappedValue_isSome {mapping : IndexMap String String} (hmapping : disc.mapping = some mapping)
    {v : String} (hv : mapping.get v = some arm) : ∃ w, mappedValue disc arm = some w := by
  have hfind : (mapping.entries.find? fun e => e.2 == arm).isSome = true := by
    rw [List.find?_isSome]
    exact ⟨(v, arm), IndexMap.mem_entries_iff.mpr hv, beq_self_eq_true arm⟩
  obtain ⟨entry, hentry⟩ := Option.isSome_iff_exists.mp hfind
  exact ⟨entry.1, by rw [mappedValue, hmapping, Option.bind_some, hentry]; rfl⟩

/-- An object that has everything passes all checks of an arm without a value. -/
theorem holds_of_everything {checks : List Check} {tests : List Test} {v : List ℕ}
    (hchecks : ∀ check ∈ checks, ∀ prop literal, check ≠ .equals prop literal)
    (hread : checks.mapM Check.read = some tests) :
    tests.all (Test.holds fun _ => .text v) = true := by
  rw [List.all_eq_true]
  intro test htest
  obtain ⟨check, hcheck, hread⟩ := forall₂_mem_right (mapM_eq_some.mp hread) htest
  cases check with
  | object =>
      cases hread
      rfl
  | equals prop literal => exact absurd rfl (hchecks _ hcheck prop literal)
  | present prop =>
      obtain ⟨key, -, rfl⟩ := Option.map_eq_some_iff.mp hread
      rfl
  | has name =>
      rw [Check.read, Option.map_eq_some_iff] at hread
      obtain ⟨key, -, rfl⟩ := hread
      rfl

theorem fieldChecks_ne_equals {exclude : Option String} :
    ∀ check ∈ fieldChecks arm registry exclude, ∀ prop literal, check ≠ .equals prop literal := by
  intro check hcheck prop literal
  unfold fieldChecks at hcheck
  split at hcheck
  · obtain ⟨name, -, rfl⟩ := List.mem_map.mp hcheck
    intro h
    cases h
  · cases hcheck

end Plain

/-! ## §4  The mapping -/

/-- An object with a mapped value in its discriminator is narrowed to the arm of the value, and
the guards of the other arms reject it. -/
def HonoursMapping (members : List IrType) (disc : Discriminator) (registry : SchemaRegistry) :
    Prop :=
  ∀ mapping, disc.mapping = some mapping → ∀ v arm, mapping.get v = some arm →
    ∀ o : JsObject, o (Quoted.units disc.propertyName.toList) = .text (Quoted.units v.toList) →
      ∃ functions, load (unionGuards members (some disc) (some registry)) = some functions ∧
        narrow functions o = some (pascal arm) ∧
        ∀ other ∈ unionArms members, other ≠ arm →
          ∀ f ∈ functions, f.1 = pascal other → accepts o f = false

/-- Each arm has one value, and the guards are a program. -/
structure OneValueEach (members : List IrType) (prop : String)
    (mapping : IndexMap String String) : Prop where
  names : ((unionArms members).map pascal).Nodup
  prop : OneLine prop
  values : ∀ v arm, mapping.get v = some arm → OneLine v
  arms : ∀ arm ∈ unionArms members, ∃! v, mapping.get v = some arm

section Mapping

variable {members : List IrType} {disc : Discriminator} {registry : SchemaRegistry}
  {mapping : IndexMap String String}

/-- The tests of a union in which each arm has one value. -/
def valueTest (disc : Discriminator) (arm : String) : String × List Test :=
  (pascal arm, [.object, .equals (Quoted.units disc.propertyName.toList)
    (Quoted.units ((mappedValue disc arm).getD "").toList)])

theorem load_of_oneValueEach
    (hplain : ∀ arm ∈ unionArms members, PlainProperty registry arm disc.propertyName)
    (hmapping : disc.mapping = some mapping)
    (h : OneValueEach members disc.propertyName mapping) :
    load (unionGuards members (some disc) (some registry)) =
      some ((unionArms members).map (valueTest disc)) := by
  have hnames : ((unionGuards members (some disc) (some registry)).map (·.type)).Nodup := by
    rw [unionGuards, List.map_map]
    exact h.names
  rw [load, if_pos hnames, mapM_eq_some, unionGuards, List.forall₂_map_left_iff,
    List.forall₂_map_right_iff, List.forall₂_same]
  intro arm harm
  obtain ⟨v, hv, -⟩ := h.arms arm harm
  obtain ⟨w, hw⟩ := mappedValue_isSome hmapping hv
  obtain ⟨mapping', hmapping', hget⟩ := Native.mappedValue_eq_some hw
  obtain rfl := Option.some.inj (hmapping.symm.trans hmapping')
  have hread : (armChecks arm (some disc.propertyName) (some registry) (some disc)).mapM
      Check.read = some (valueTest disc arm).2 := by
    rw [armChecks_of_mapped (hplain arm harm) hw, valueTest, hw]
    exact read_mapped.mpr ⟨h.prop, h.values w arm hget, rfl⟩
  exact Option.map_eq_some_iff.mpr ⟨_, hread, rfl⟩

theorem accepts_valueTest {v arm other : String} {o : JsObject}
    (hmapping : disc.mapping = some mapping) (hv : mapping.get v = some arm)
    (ho : o (Quoted.units disc.propertyName.toList) = .text (Quoted.units v.toList))
    (hother : ∃! w, mapping.get w = some other) :
    accepts o (valueTest disc other) = decide (other = arm) := by
  obtain ⟨w, hw, hunique⟩ := hother
  obtain ⟨w', hw'⟩ := mappedValue_isSome hmapping hw
  obtain ⟨mapping', hmapping', hget⟩ := Native.mappedValue_eq_some hw'
  obtain rfl := Option.some.inj (hmapping.symm.trans hmapping')
  have hvalue : (mappedValue disc other).getD "" = w := by rw [hw', hunique w' hget]; rfl
  have hunits : (Slot.text (Quoted.units v.toList) == Slot.text (Quoted.units w.toList)) =
      decide (other = arm) := by
    rw [Bool.eq_iff_iff, beq_iff_eq, decide_eq_true_iff, Slot.text.injEq,
      Quoted.units_injective.eq_iff, String.toList_inj]
    constructor
    · rintro rfl
      exact Option.some.inj (hw.symm.trans hv)
    · rintro rfl
      exact hunique v hv
  simp only [accepts, valueTest, hvalue, List.all_cons, List.all_nil, Test.holds, ho, hunits,
    Bool.true_and, Bool.and_true]

theorem honours_of_oneValueEach
    (hplain : ∀ arm ∈ unionArms members, PlainProperty registry arm disc.propertyName)
    (hmembers : ∀ v arm, mapping.get v = some arm → arm ∈ unionArms members)
    (hmapping : disc.mapping = some mapping)
    (h : OneValueEach members disc.propertyName mapping) :
    HonoursMapping members disc registry := by
  intro mapping' hmapping' v arm hv o ho
  obtain rfl := Option.some.inj (hmapping.symm.trans hmapping')
  have haccepts : ∀ other ∈ unionArms members,
      accepts o (valueTest disc other) = decide (other = arm) := fun other hother =>
    accepts_valueTest hmapping hv ho (h.arms other hother)
  refine ⟨_, load_of_oneValueEach hplain hmapping h, ?_, ?_⟩
  · have hfind : (unionArms members).find? (accepts o ∘ valueTest disc) = some arm := by
      have hsome : ((unionArms members).find? (accepts o ∘ valueTest disc)).isSome = true := by
        rw [List.find?_isSome]
        refine ⟨arm, hmembers v arm hv, ?_⟩
        rw [Function.comp_apply, haccepts arm (hmembers v arm hv), decide_eq_true rfl]
      obtain ⟨found, hfound⟩ := Option.isSome_iff_exists.mp hsome
      have htrue := List.find?_some hfound
      rw [Function.comp_apply, haccepts found (List.mem_of_find?_eq_some hfound),
        decide_eq_true_iff] at htrue
      rw [hfound, htrue]
    rw [narrow, List.find?_map, hfind]
    rfl
  · intro other hother hne f hf hname
    obtain ⟨arm', harm', rfl⟩ := List.mem_map.mp hf
    obtain rfl := List.inj_on_of_nodup_map h.names harm' hother hname
    rw [haccepts arm' harm', decide_eq_false hne]

/-- What there is to know of a union whose guards are a program. -/
theorem exists_tests {functions : List (String × List Test)}
    (h : load (unionGuards members (some disc) (some registry)) = some functions) :
    ((unionArms members).map pascal).Nodup ∧
    (∀ arm ∈ unionArms members, ∃ tests, (pascal arm, tests) ∈ functions ∧
      (armChecks arm (some disc.propertyName) (some registry) (some disc)).mapM Check.read =
        some tests) ∧
    ∀ f ∈ functions, ∃ arm ∈ unionArms members, f.1 = pascal arm ∧
      (armChecks arm (some disc.propertyName) (some registry) (some disc)).mapM Check.read =
        some f.2 := by
  obtain ⟨hnodup, hall⟩ := forall₂_of_load h
  rw [unionGuards, List.map_map] at hnodup
  rw [unionGuards, List.forall₂_map_left_iff] at hall
  refine ⟨hnodup, fun arm harm => ?_, fun f hf => ?_⟩
  · obtain ⟨f, hf, hname, hread⟩ := forall₂_mem_left hall harm
    refine ⟨f.2, ?_, hread⟩
    have hpair : f = (pascal arm, f.2) := Prod.ext hname rfl
    exact hpair ▸ hf
  · obtain ⟨arm, harm, hname, hread⟩ := forall₂_mem_right hall hf
    exact ⟨arm, harm, hname, hread⟩

theorem oneValueEach_of_honours
    (hplain : ∀ arm ∈ unionArms members, PlainProperty registry arm disc.propertyName)
    (hmembers : ∀ v arm, mapping.get v = some arm → arm ∈ unionArms members)
    (hmapping : disc.mapping = some mapping) (hne : mapping.entries ≠ [])
    (h : HonoursMapping members disc registry) :
    OneValueEach members disc.propertyName mapping := by
  obtain ⟨⟨v₀, arm₀⟩, hentry⟩ := List.exists_mem_of_ne_nil _ hne
  have hv₀ := IndexMap.mem_entries_iff.mp hentry
  obtain ⟨functions, hload, -⟩ :=
    h mapping hmapping v₀ arm₀ hv₀ (fun _ => .text (Quoted.units v₀.toList)) rfl
  obtain ⟨hnames, htests, hfrom⟩ := exists_tests hload
  -- an arm without a value accepts an object that has everything
  have hsome : ∀ arm ∈ unionArms members, ∃ w, mappedValue disc arm = some w := by
    intro arm harm
    cases hvalue : mappedValue disc arm with
    | some w => exact ⟨w, rfl⟩
    | none =>
        exfalso
        obtain ⟨tests, hmem, hread⟩ := htests arm harm
        obtain ⟨functions', hload', -, hothers⟩ :=
          h mapping hmapping v₀ arm₀ hv₀ (fun _ => .text (Quoted.units v₀.toList)) rfl
        obtain rfl := Option.some.inj (hload.symm.trans hload')
        have hother : arm ≠ arm₀ := by
          rintro rfl
          obtain ⟨w, hw⟩ := mappedValue_isSome hmapping hv₀
          rw [hvalue] at hw
          cases hw
        have hrejects := hothers arm harm hother _ hmem rfl
        rw [armChecks_of_unmapped (hplain arm harm) hvalue] at hread
        have hholds : accepts (fun _ => .text (Quoted.units v₀.toList)) (pascal arm, tests) = true := by
          refine holds_of_everything ?_ hread
          rw [List.forall_mem_cons, List.forall_mem_cons]
          refine ⟨fun _ _ heq => ?_, fun _ _ heq => ?_, fieldChecks_ne_equals⟩ <;> cases heq
        rw [hrejects] at hholds
        cases hholds
  have hlines : ∀ arm ∈ unionArms members, ∀ w, mappedValue disc arm = some w →
      OneLine disc.propertyName ∧ OneLine w := by
    intro arm harm w hw
    obtain ⟨tests, -, hread⟩ := htests arm harm
    rw [armChecks_of_mapped (hplain arm harm) hw, read_mapped] at hread
    exact ⟨hread.1, hread.2.1⟩
  -- a second value of an arm is not looked for
  have honly : ∀ arm ∈ unionArms members, ∀ w, mappedValue disc arm = some w →
      ∀ v, mapping.get v = some arm → v = w := by
    intro arm harm w hw v hv
    obtain ⟨functions', hload', hnarrow, -⟩ :=
      h mapping hmapping v arm hv (fun _ => .text (Quoted.units v.toList)) rfl
    obtain rfl := Option.some.inj (hload.symm.trans hload')
    obtain ⟨f, hfind, hname⟩ := Option.map_eq_some_iff.mp hnarrow
    have haccepts := List.find?_some hfind
    obtain ⟨arm', harm', hname', hread⟩ := hfrom f (List.mem_of_find?_eq_some hfind)
    obtain rfl := List.inj_on_of_nodup_map hnames harm' harm (hname'.symm.trans hname)
    rw [armChecks_of_mapped (hplain arm' harm') hw, read_mapped] at hread
    rw [accepts, hread.2.2] at haccepts
    simpa [Test.holds, Quoted.units_injective.eq_iff, String.toList_inj] using haccepts
  refine ⟨hnames, ?_, fun v arm hv => ?_, fun arm harm => ?_⟩
  · have harm := hmembers v₀ arm₀ hv₀
    obtain ⟨w, hw⟩ := hsome arm₀ harm
    exact (hlines arm₀ harm w hw).1
  · have harm := hmembers v arm hv
    obtain ⟨w, hw⟩ := hsome arm harm
    rw [honly arm harm w hw v hv]
    exact (hlines arm harm w hw).2
  · obtain ⟨w, hw⟩ := hsome arm harm
    obtain ⟨mapping', hmapping', hget⟩ := Native.mappedValue_eq_some hw
    obtain rfl := Option.some.inj (hmapping.symm.trans hmapping')
    exact ⟨w, hget, honly arm harm w hw⟩

end Mapping

/-- **Narrowing honours the mapping of the discriminator if and only if** the mapping is empty, or
every arm has exactly one value, the arms have distinct type names, and neither a value nor the
property is broken into lines. -/
theorem narrowing_honours_iff {o : ObjectModel} (u : DiscriminatedUnion o)
    (registry : SchemaRegistry)
    (hplain : ∀ arm ∈ unionArms u.members,
      PlainProperty registry arm u.discriminator.propertyName)
    (hmembers : ∀ mapping, u.discriminator.mapping = some mapping →
      ∀ v arm, mapping.get v = some arm → arm ∈ unionArms u.members) :
    HonoursMapping u.members u.discriminator registry ↔
      ∀ mapping, u.discriminator.mapping = some mapping → mapping.entries ≠ [] →
        OneValueEach u.members u.discriminator.propertyName mapping := by
  constructor
  · intro h mapping hmapping hne
    exact oneValueEach_of_honours hplain (hmembers mapping hmapping) hmapping hne h
  · intro h mapping hmapping v arm hv
    have hne : mapping.entries ≠ [] := List.ne_nil_of_mem (IndexMap.mem_entries_iff.mpr hv)
    exact honours_of_oneValueEach hplain (hmembers mapping hmapping) hmapping
      (h mapping hmapping hne) mapping hmapping v arm hv

/-- Cats and dogs, each called by one name. -/
def speciesDiscriminator : Discriminator where
  propertyName := "kind"
  mapping := some (IndexMap.ofList [("cat", "Cat"), ("dog", "Dog")])

def speciesModel : ObjectModel where
  name := "Pet"
  description := none
  properties := []
  additionalProperties := none
  shapeType := some (.composition .oneOf
    [.reference "Cat" false none, .reference "Dog" false none] (some speciesDiscriminator))
  baseType := none

theorem oneOf_ne_allOf : CompositionKind.oneOf ≠ CompositionKind.allOf := by decide

def speciesUnion : DiscriminatedUnion speciesModel := ⟨.oneOf, _, _, rfl, oneOf_ne_allOf, rfl⟩

theorem plainProperty_kind : ∀ arm ∈ ["Cat", "Dog"],
    PlainProperty Native.kindDocument.schemas arm "kind" := Go.plainProperty_petUnion

theorem narrowing_honours_species :
    HonoursMapping speciesUnion.members speciesDiscriminator Native.kindDocument.schemas := by
  have hentry : ∀ v arm, (IndexMap.ofList [("cat", "Cat"), ("dog", "Dog")]).get v = some arm →
      v = "cat" ∧ arm = "Cat" ∨ v = "dog" ∧ arm = "Dog" := by
    intro v arm hv
    have hmem : (v, arm) ∈ [("cat", "Cat"), ("dog", "Dog")] := IndexMap.mem_entries_iff.mpr hv
    simpa only [List.mem_cons, Prod.mk.injEq, List.not_mem_nil, or_false] using hmem
  refine (narrowing_honours_iff speciesUnion _ plainProperty_kind ?_).mpr ?_
  · rintro mapping hmapping v arm hv
    obtain rfl := Option.some.inj hmapping
    rcases hentry v arm hv with ⟨-, rfl⟩ | ⟨-, rfl⟩ <;> decide
  · rintro mapping hmapping -
    obtain rfl := Option.some.inj hmapping
    refine ⟨by decide, by decide, fun v arm hv => ?_, fun arm harm => ?_⟩
    · rcases hentry v arm hv with ⟨rfl, -⟩ | ⟨rfl, -⟩ <;> decide
    · have hmem : arm ∈ ["Cat", "Dog"] := harm
      have harm' : arm = "Cat" ∨ arm = "Dog" := by
        simpa only [List.mem_cons, List.not_mem_nil, or_false] using hmem
      rcases harm' with rfl | rfl
      · refine ⟨"cat", rfl, fun v hv => ?_⟩
        rcases hentry v _ hv with ⟨h, -⟩ | ⟨-, h⟩
        · exact h
        · exact absurd h (by decide)
      · refine ⟨"dog", rfl, fun v hv => ?_⟩
        rcases hentry v _ hv with ⟨-, h⟩ | ⟨h, -⟩
        · exact absurd h (by decide)
        · exact h

/-- Kittens are cats, and no guard knows of it. -/
theorem kitten_not_narrowed :
    (∀ arm ∈ unionArms Native.petUnion.members,
      PlainProperty Native.kindDocument.schemas arm Native.petDiscriminator.propertyName) ∧
    (∀ mapping, Native.petDiscriminator.mapping = some mapping →
      ∀ v arm, mapping.get v = some arm → arm ∈ unionArms Native.petUnion.members) ∧
    ¬HonoursMapping Native.petUnion.members Native.petDiscriminator
      Native.kindDocument.schemas := by
  have hmembers : ∀ mapping, Native.petDiscriminator.mapping = some mapping →
      ∀ v arm, mapping.get v = some arm → arm ∈ unionArms Native.petUnion.members := by
    rintro mapping hmapping v arm hv
    obtain rfl := Option.some.inj hmapping
    have hentry : (v, arm) ∈ [("cat", "Cat"), ("kitten", "Cat"), ("dog", "Dog")] :=
      IndexMap.mem_entries_iff.mpr hv
    have harm : arm = "Cat" ∨ arm = "Cat" ∨ arm = "Dog" := by
      simp only [List.mem_cons, Prod.mk.injEq, List.not_mem_nil, or_false] at hentry
      exact hentry.imp And.right (Or.imp And.right And.right)
    rcases harm with rfl | rfl | rfl <;> decide
  refine ⟨plainProperty_kind, hmembers, fun h => ?_⟩
  have hplain : ∀ arm ∈ unionArms Native.petUnion.members,
      PlainProperty Native.kindDocument.schemas arm Native.petDiscriminator.propertyName :=
    plainProperty_kind
  have hone := oneValueEach_of_honours hplain (hmembers _ rfl) rfl (by decide) h
  obtain ⟨v, -, hunique⟩ := hone.arms "Cat" (by decide)
  have hcat : "cat" = "kitten" := (hunique "cat" rfl).trans (hunique "kitten" rfl).symm
  exact absurd hcat (by decide)

end SpecForge.Ts
