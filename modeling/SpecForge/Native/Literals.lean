import SpecForge.Lib.FormatString
import SpecForge.Lib.GoLiteral
import SpecForge.Lib.RustLiteral
import SpecForge.Lib.UniqueNames
import SpecForge.Native.FiniteTypes

/-!
# String literals of the Go and the Rust emitter

Both escape quotes and backslashes and nothing else. The `Display` of a Rust enum hands such a
literal to `write!`, which takes it for a format string.

- §1 the literals; §2 the `Display` of an enum; §3 when all of them say what they are written for.
-/

namespace SpecForge

open Lib Native

/-! ## §1  Literals -/

namespace Go

def escapeGoString (s : String) : String := Quoted.escapeQuotes s

def goStringLit (s : String) : String := "\"" ++ escapeGoString s ++ "\""

/-- The line of a constant in `emit_enum`. -/
def constLine (name value : String) : String :=
  "\t" ++ (name ++ pascal value) ++ " " ++ name ++ " = \"" ++ escapeGoString value ++ "\"\n"

/-- The text is a literal with this value, between `before` and `after`. -/
def HasLiteral (rules : GoLiteral.Compiler) (text before after value : String) : Prop :=
  ∃ cs, text.toList = before.toList ++ cs ∧
    GoLiteral.literal rules cs = some (Utf8.encode value.toList, after.toList)

/-- The literal has the value, alone and in a constant. -/
structure LiteralRoundTrips (rules : GoLiteral.Compiler) (s : String) : Prop where
  literal : HasLiteral rules (goStringLit s) "" "" s
  constant : ∀ name, HasLiteral rules (constLine name s)
    ("\t" ++ (name ++ pascal s) ++ " " ++ name ++ " = ") "\n" s

/-- No line feed, and nothing that the compiler refuses. -/
def OneLine (rules : GoLiteral.Compiler) (s : String) : Prop :=
  '\n' ∉ s.toList ∧ (rules.refusesNul = true → Char.ofNat 0 ∉ s.toList) ∧
    (rules.refusesMark = true → Char.ofNat 0xFEFF ∉ s.toList)

section Literal

variable {rules : GoLiteral.Compiler} {s : String}

theorem oneLine_iff : OneLine rules s ↔ ∀ c ∈ s.toList, GoLiteral.Holds rules c := by
  have hrefuses : ∀ c, rules.refuses c = false ↔
      (rules.refusesNul = true → c ≠ Char.ofNat 0) ∧
        (rules.refusesMark = true → c ≠ Char.ofNat 0xFEFF) := by
    intro c
    simp [GoLiteral.Compiler.refuses]
  simp only [GoLiteral.Holds, hrefuses, OneLine]
  constructor
  · rintro ⟨hline, hnul, hmark⟩ c hc
    exact ⟨fun heq => hline (heq ▸ hc), fun hrule heq => hnul hrule (heq ▸ hc),
      fun hrule heq => hmark hrule (heq ▸ hc)⟩
  · intro h
    exact ⟨fun hc => (h _ hc).1 rfl, fun hrule hc => (h _ hc).2.1 hrule rfl,
      fun hrule hc => (h _ hc).2.2 hrule rfl⟩

theorem literal_goStringLit (rest : List Char)
    [Decidable (∀ c ∈ s.toList, GoLiteral.Holds rules c)] :
    GoLiteral.literal rules ((goStringLit s).toList ++ rest) =
      if ∀ c ∈ s.toList, GoLiteral.Holds rules c then some (Utf8.encode s.toList, rest)
      else none := by
  have hquote : ("\"" : String).toList = ['"'] := rfl
  rw [goStringLit, String.toList_append, String.toList_append, hquote, escapeGoString,
    Quoted.toList_escapeQuotes, List.append_assoc, List.append_assoc, List.singleton_append,
    List.singleton_append, GoLiteral.literal_escaped]

theorem hasLiteral_of_holds (h : ∀ c ∈ s.toList, GoLiteral.Holds rules c) (before after : String) :
    HasLiteral rules (before ++ goStringLit s ++ after) before after s := by
  refine ⟨(goStringLit s).toList ++ after.toList, ?_, ?_⟩
  · rw [String.toList_append, String.toList_append, List.append_assoc]
  · rw [literal_goStringLit, if_pos h]

theorem constLine_eq (name value : String) : constLine name value =
    ("\t" ++ (name ++ pascal value) ++ " " ++ name ++ " = ") ++ goStringLit value ++ "\n" := by
  have hopen : (" = \"" : String) = " = " ++ "\"" := rfl
  have hclose : ("\"\n" : String) = "\"" ++ "\n" := rfl
  rw [constLine, goStringLit, hopen, hclose]
  simp only [String.append_assoc]

/-- **A Go literal is read as what it is written for** if and only if that has no line feed and
nothing that the compiler refuses. -/
theorem literalRoundTrips_iff : LiteralRoundTrips rules s ↔ OneLine rules s := by
  rw [oneLine_iff]
  constructor
  · intro h
    obtain ⟨cs, htext, hread⟩ := h.literal
    have hcs : cs = (goStringLit s).toList ++ [] := by
      rw [List.append_nil, htext]
      rfl
    rw [hcs, literal_goStringLit] at hread
    by_contra hholds
    rw [if_neg hholds] at hread
    cases hread
  · intro h
    refine ⟨?_, fun name => ?_⟩
    · have hliteral := hasLiteral_of_holds h "" ""
      rw [String.empty_append, String.append_empty] at hliteral
      exact hliteral
    · rw [constLine_eq]
      exact hasLiteral_of_holds h _ _

end Literal

end Go

namespace Rust

def escapeRustString (s : String) : String := Quoted.escapeQuotes s

def rustStringLit (s : String) : String := "\"" ++ escapeRustString s ++ "\""

/-- The literal has the value. -/
def LiteralRoundTrips (s : String) : Prop :=
  RustLiteral.literal (rustStringLit s).toList = some (s.toList, [])

theorem literal_rustStringLit (s : String) : (rustStringLit s).toList =
    '"' :: (s.toList.flatMap Quoted.escapeChar ++ ['"']) := by
  have hquote : ("\"" : String).toList = ['"'] := rfl
  rw [rustStringLit, String.toList_append, String.toList_append, hquote, escapeRustString,
    Quoted.toList_escapeQuotes, List.append_assoc, List.singleton_append]

/-- **A Rust literal is read as what it is written for** if and only if that has no carriage
return. -/
theorem literalRoundTrips_iff (s : String) : LiteralRoundTrips s ↔ '\r' ∉ s.toList := by
  rw [LiteralRoundTrips, literal_rustStringLit]
  exact RustLiteral.literal_escaped_iff s.toList []

/-! ## §2  The `Display` of an enum -/

/-- The name of a variant, before it is made unique. -/
def variantBase (value : String) : String :=
  let var := pascal value
  if var = "" then "Empty" else var

/-- `format!("{var}{n}")` -/
def numberedVariant (var : String) (n : ℕ) : String := var ++ toString n

/-- The variants of `emit_enum`, each with its wire value. -/
def variantsMeta (e : EnumModel) : List (String × String) :=
  (UniqueNames.uniques numberedVariant [] (e.variants.map fun v => variantBase v.value)).zip
    (e.variants.map (·.value))

/-- The arms of `fmt`: a variant and the literal that is handed to `write!`. -/
def displayArms (e : EnumModel) : List (String × String) :=
  (variantsMeta e).map fun (cand, wire) => (cand, rustStringLit wire)

/-- `write!(f, literal)`: the text that is written, where this compiles. -/
def writeMacro (args : FormatString.Arguments) (literal : String) : Option (List Char) :=
  match RustLiteral.literal literal.toList with
  | some (value, []) => FormatString.write args value
  | _ => none

/-- The `impl` compiles: each variant has a name that is no keyword, and each literal is a format
string. What may stand in braces there is `self`, whose `Debug` is the name of the variant. -/
def displayCompiles (args : String → FormatString.Arguments) (e : EnumModel) : Bool :=
  (displayArms e).all fun (cand, literal) =>
    cand != "Self" && (writeMacro (args cand) literal).isSome

/-- What `fmt` writes for a variant. -/
def display (args : String → FormatString.Arguments) (e : EnumModel) (cand : String) :
    Option (List Char) :=
  if displayCompiles args e then ((displayArms e).lookup cand).bind (writeMacro (args cand))
  else none

/-- Every variant is written as its wire value. -/
def Displays (args : String → FormatString.Arguments) (e : EnumModel) : Prop :=
  ∀ p ∈ variantsMeta e, display args e p.1 = some p.2.toList

/-- No carriage return and no braces. -/
def Plain (s : String) : Prop := '\r' ∉ s.toList ∧ '\x7b' ∉ s.toList ∧ '\x7d' ∉ s.toList

section Display

variable {args : String → FormatString.Arguments} {e : EnumModel}

theorem writeMacro_eq_self_iff {args : FormatString.Arguments} {s : String} :
    writeMacro args (rustStringLit s) = some s.toList ↔ Plain s := by
  rw [writeMacro, literal_rustStringLit]
  constructor
  · intro h
    split at h
    · next value hread =>
        obtain ⟨hnone, hsub⟩ := RustLiteral.value_of_read [] s.toList hread
        rcases FormatString.braces_lt_of_writeFrom h with hlt | hzero
        · -- braces got lost on the way
          exact absurd (hsub.countP_le.trans_lt' hlt) (lt_irrefl _)
        · have hsame : FormatString.write args value = some value :=
            FormatString.write_eq_self_iff.mpr (FormatString.braces_eq_zero_iff.mp hzero.2)
          rw [hsame] at h
          rw [Option.some.inj h] at hnone hzero
          exact ⟨hnone, FormatString.braces_eq_zero_iff.mp hzero.1⟩
    · cases h
  · rintro ⟨hreturn, hbraces⟩
    have hread : RustLiteral.literal ('"' :: (s.toList.flatMap Quoted.escapeChar ++ ['"'])) =
        some (s.toList, []) := (RustLiteral.literal_escaped_iff s.toList []).mpr hreturn
    rw [hread]
    exact FormatString.write_eq_self_iff.mpr hbraces

theorem variantBase_eq_pascal (value : String) : variantBase value = pascal value := by
  obtain ⟨c, cs, hpascal, -⟩ := capitalised_pascal value
  rw [variantBase, if_neg]
  rintro hempty
  rw [hempty] at hpascal
  cases hpascal

/-- A variant is called `Self` exactly if a value is. -/
theorem self_mem_iff : "Self" ∈ (variantsMeta e).map Prod.fst ↔
    ∃ v ∈ e.variants, pascal v.value = "Self" := by
  have hnames : (variantsMeta e).map Prod.fst =
      UniqueNames.uniques numberedVariant [] (e.variants.map fun v => variantBase v.value) := by
    rw [variantsMeta, List.map_fst_zip]
    rw [UniqueNames.length_uniques, List.length_map, List.length_map]
  rw [hnames]
  constructor
  · intro h
    obtain ⟨base, hmem, hcases⟩ := UniqueNames.exists_of_mem_uniques h
    obtain ⟨v, hv, rfl⟩ := List.mem_map.mp hmem
    rw [variantBase_eq_pascal] at hcases
    rcases hcases with heq | ⟨n, -, heq⟩
    · exact ⟨v, hv, heq.symm⟩
    · obtain ⟨c, hlast, hdigit⟩ := UniqueNames.exists_getLast?_append_toString (pascal v.value) n
      rw [numberedVariant] at heq
      rw [← heq] at hlast
      obtain rfl := Option.some.inj (show some 'f' = some c from hlast)
      cases hdigit
  · rintro ⟨v, hv, heq⟩
    refine UniqueNames.mem_uniques ?_ List.not_mem_nil
    exact List.mem_map.mpr ⟨v, hv, by rw [variantBase_eq_pascal, heq]⟩

theorem nodup_variantsMeta (e : EnumModel) : ((variantsMeta e).map Prod.fst).Nodup := by
  rw [variantsMeta, List.map_fst_zip]
  · exact UniqueNames.nodup_uniques (fun var => UniqueNames.append_toString_injective var) _ _
  · rw [UniqueNames.length_uniques, List.length_map, List.length_map]

theorem snd_variantsMeta (e : EnumModel) :
    (variantsMeta e).map Prod.snd = e.variants.map (·.value) := by
  rw [variantsMeta, List.map_snd_zip]
  rw [UniqueNames.length_uniques, List.length_map, List.length_map]

theorem lookup_displayArms {cand wire : String} (h : (cand, wire) ∈ variantsMeta e) :
    (displayArms e).lookup cand = some (rustStringLit wire) := by
  refine lookup_eq_some_of_mem ?_ (List.mem_map.mpr ⟨_, h, rfl⟩)
  rw [displayArms, List.map_map]
  exact nodup_variantsMeta e

/-- **The `Display` of an enum writes the wire values** if and only if they have no carriage
returns and no braces, and none of them gives a variant the name `Self`. -/
theorem displays_iff : Displays args e ↔
    ∀ v ∈ e.variants, Plain v.value ∧ pascal v.value ≠ "Self" := by
  constructor
  · intro h v hv
    have hmem : v.value ∈ (variantsMeta e).map Prod.snd := by
      rw [snd_variantsMeta]
      exact List.mem_map_of_mem hv
    obtain ⟨⟨cand, wire⟩, hp, rfl⟩ := List.mem_map.mp hmem
    have hdisplay := h _ hp
    rw [display] at hdisplay
    split at hdisplay
    · next hcompiles =>
        rw [lookup_displayArms hp, Option.bind_some] at hdisplay
        refine ⟨writeMacro_eq_self_iff.mp hdisplay, fun hself => ?_⟩
        obtain ⟨⟨self, wire'⟩, hp', hname⟩ := List.mem_map.mp (self_mem_iff.mpr ⟨v, hv, hself⟩)
        obtain rfl := hname
        have harm := List.all_eq_true.mp hcompiles _ (List.mem_map.mpr ⟨_, hp', rfl⟩)
        simp at harm
    · cases hdisplay
  · intro h
    have hplain : ∀ p ∈ variantsMeta e, Plain p.2 := by
      intro p hp
      have hmem : p.2 ∈ e.variants.map (·.value) := by
        rw [← snd_variantsMeta]
        exact List.mem_map_of_mem hp
      obtain ⟨v, hv, heq⟩ := List.mem_map.mp hmem
      rw [← heq]
      exact (h v hv).1
    have hcompiles : displayCompiles args e = true := by
      rw [displayCompiles, List.all_eq_true]
      rintro ⟨cand, literal⟩ harm
      obtain ⟨⟨cand', wire⟩, hp, heq⟩ := List.mem_map.mp harm
      obtain ⟨rfl, rfl⟩ := Prod.mk.inj heq
      rw [Bool.and_eq_true, bne_iff_ne, writeMacro_eq_self_iff.mpr (hplain _ hp)]
      refine ⟨?_, rfl⟩
      rintro rfl
      obtain ⟨v, hv, hself⟩ := self_mem_iff.mp (List.mem_map_of_mem (f := Prod.fst) hp)
      exact (h v hv).2 hself
    rintro ⟨cand, wire⟩ hp
    rw [display, if_pos hcompiles, lookup_displayArms hp, Option.bind_some]
    exact writeMacro_eq_self_iff.mpr (hplain _ hp)

end Display

end Rust

/-! ## §3  Literals and enums -/

/-- **Literals and enums say what they are written for** if and only if a text has no line feed, no
carriage return and nothing that the Go compiler refuses, and the values of an enum have no
carriage returns and no braces, and none gives a variant the name `Self`. -/
theorem literals_and_enums_roundTrip_iff (rules : GoLiteral.Compiler)
    (args : String → FormatString.Arguments) (s : String) (e : EnumModel) :
    Go.LiteralRoundTrips rules s ∧ Rust.LiteralRoundTrips s ∧ Rust.Displays args e ↔
      Go.OneLine rules s ∧ '\r' ∉ s.toList ∧
        ∀ v ∈ e.variants, Rust.Plain v.value ∧ pascal v.value ≠ "Self" := by
  rw [Go.literalRoundTrips_iff, Rust.literalRoundTrips_iff, Rust.displays_iff]

/-- Nothing can stand in braces. -/
def noArguments : FormatString.Arguments where
  read _ := none
  braceless h := by cases h
  suffix h := by cases h

def templateEnum : EnumModel := ⟨"Template", none, [⟨"\x7bid\x7d", none⟩]⟩

/-- A line feed breaks the Go literal, a carriage return the Rust one, and a value in braces asks
for an argument. -/
theorem literals_and_enums_broken : ¬(∀ rules s, Go.LiteralRoundTrips rules s) ∧
    (¬∀ s, Rust.LiteralRoundTrips s) ∧ ¬∀ args e, Rust.Displays args e := by
  refine ⟨fun h => ?_, fun h => ?_, fun h => ?_⟩
  · have hline := Go.literalRoundTrips_iff.mp (h ⟨true, true⟩ "\n")
    exact hline.1 (by decide)
  · exact (Rust.literalRoundTrips_iff "\r").mp (h "\r") (by decide)
  · have hplain := Rust.displays_iff.mp (h (fun _ => noArguments) templateEnum) _ List.mem_cons_self
    exact hplain.1.2.1 (by decide)

end SpecForge
