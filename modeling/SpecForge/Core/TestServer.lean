import SpecForge.Core.MockRoutes
import SpecForge.Lib.JsLiteral
import SpecForge.Lib.RegExp

/-!
# The server of the TypeScript tests (`testgen.rs`)

Every operation becomes a branch that tests the path of the request against a regular expression.
The pattern is written into a string literal, which takes away the backslashes that
`regex_escape` put in front of special characters.

- §1 the expressions that are generated, and what they say of a request; §2 the patterns behind
  the quotes, §3 what they match; §4 templates, segment by segment.
- §5 which matchers accept what the template describes.
- §6 which branch answers a request; where every operation answers its own.
-/

namespace SpecForge.TestServer

open Lib
open Lib.Quoted (units charUnits)
open Lib.Text (join)
open Mock (Fills Target)

/-! ## §1  Generated expressions -/

def isSpecial (c : Char) : Bool :=
  c ∈ ['.', '^', '$', '|', '?', '*', '+', '(', ')', '[', ']', '\x7b', '\x7d']

def regexEscape (s : String) : String :=
  String.ofList (s.toList.flatMap fun c => if isSpecial c then ['\\', c] else [c])

def isPlaceholder (seg : String) : Bool :=
  Text.startsWith "\x7b" seg && Text.endsWith "\x7d" seg

def segments (path : String) : List String := Text.split '/' (Text.trimMatches '/' path)

def segmentPattern (seg : String) : String :=
  if isPlaceholder seg then "[^/]+" else regexEscape seg

/-- The slash behind the last segment is taken back. -/
def regexPattern (path : String) : String :=
  "^/" ++ join "/" ((segments path).map segmentPattern) ++ "$"

def tsPathMatch (path : String) : String × String :=
  (path, "req.url && new RegExp('" ++ regexPattern path ++ "').test(req.url.split('?')[0])")

/-- What stands behind the literal. -/
def callText : List Char := ").test(req.url.split('?')[0])".toList

/-- What the call says of a `req.url`, for the pattern that is read from the literal and the text
behind it; `none` if that is another text, or if the constructor throws. -/
def evalCall (url : String) (literal : List ℕ × List Char) : Option Bool :=
  if literal.2 = callText then
    if url.isEmpty then some false
    else (RegExp.compile literal.1).map fun regexp =>
      RegExp.test regexp (units (Text.beforeChar '?' url).toList)
  else none

def evalMatch (expr url : String) : Option Bool :=
  (Text.stripPrefix "req.url && new RegExp(" expr).bind fun argument =>
    (JsLiteral.singleQuoted argument.toList).bind (evalCall url)

def matchesPath (path url : String) : Option Bool := evalMatch (tsPathMatch path).2 url

/-- A dot is any character. -/
example : matchesPath "/pets.json" "/pets-json" = some true := by decide

/-! ## §2  Behind the quotes -/

/-- What ends a literal in single quotes. -/
def closers : List Char := ['\x27', '\n', '\r']

/-- The text of a path has no backslash in it. -/
def Unescaped (path : String) : Prop :=
  ∀ seg ∈ segments path, isPlaceholder seg = false → '\\' ∉ seg.toList

def escape (c : Char) : List Char := if isSpecial c then ['\\', c] else [c]

theorem toList_regexEscape (s : String) : (regexEscape s).toList = s.toList.flatMap escape :=
  String.toList_ofList

/-- The quotes take the backslash away again. -/
theorem adds_escape {c : Char} (hslash : c ≠ '\\') (hclose : c ∉ closers) :
    JsLiteral.Adds (escape c) (charUnits c) := by
  unfold escape
  by_cases hspecial : isSpecial c = true
  · rw [if_pos hspecial]
    apply JsLiteral.adds_escaped
    simp only [isSpecial, List.mem_cons, List.not_mem_nil, or_false, decide_eq_true_eq] at hspecial
    rcases hspecial with rfl | rfl | rfl | rfl | rfl | rfl | rfl | rfl | rfl | rfl | rfl | rfl | rfl
      <;> rfl
  · rw [if_neg hspecial]
    apply JsLiteral.adds_plain
    simp only [closers, List.mem_cons, List.not_mem_nil, or_false, not_or] at hclose ⊢
    exact ⟨hclose.1, hslash, hclose.2⟩

theorem adds_flatMap_escape : ∀ {cs : List Char}, '\\' ∉ cs → (∀ c ∈ cs, c ∉ closers) →
    JsLiteral.Adds (cs.flatMap escape) (units cs)
  | [], _, _ => JsLiteral.adds_nil
  | c :: cs, hslash, hclose => by
      obtain ⟨hc, hcs⟩ := List.forall_mem_cons.mp hclose
      rw [List.mem_cons, not_or] at hslash
      exact (adds_escape (Ne.symm hslash.1) hc).append (adds_flatMap_escape hslash.2 hcs)

theorem cuts_flatMap_escape : ∀ {cs : List Char}, '\\' ∉ cs → (∃ c ∈ cs, c ∈ closers) →
    JsLiteral.Cuts (cs.flatMap escape)
  | [], _, h => absurd h.choose_spec.1 List.not_mem_nil
  | c :: cs, hslash, h => by
      rw [List.mem_cons, not_or] at hslash
      rw [List.flatMap_cons]
      by_cases hc : c ∈ closers
      · have hplain : escape c = [c] := by
          refine if_neg ?_
          simp only [closers, List.mem_cons, List.not_mem_nil, or_false] at hc
          rcases hc with rfl | rfl | rfl <;> decide
        rw [hplain]
        exact JsLiteral.cuts_cons hc _
      · obtain ⟨d, hd, hclose⟩ := h
        have hcs : d ∈ cs := (List.mem_cons.mp hd).resolve_left fun heq => hc (heq ▸ hclose)
        exact (cuts_flatMap_escape hslash.2 ⟨d, hcs, hclose⟩).behind
          (adds_escape (Ne.symm hslash.1) hc)

/-- A segment as the regular expression has it. -/
def segmentUnits (seg : String) : List ℕ :=
  if isPlaceholder seg then units "[^/]+".toList else units seg.toList

/-- The pattern that the constructor is given. -/
def patternUnits (path : String) : List ℕ :=
  '^'.toNat :: ((segments path).flatMap fun seg => '/'.toNat :: segmentUnits seg) ++ ['$'.toNat]

theorem cons_intercalate {α : Type*} (a : α) {ls : List (List α)} (h : ls ≠ []) :
    a :: [a].intercalate ls = ls.flatMap (a :: ·) := by
  induction ls with
  | nil => exact absurd rfl h
  | cons l ls ih =>
      cases ls with
      | nil => simp
      | cons l' ls =>
          have hrest := ih (List.cons_ne_nil l' ls)
          rw [List.intercalate_cons_cons, List.append_assoc, List.singleton_append, hrest]
          rfl

theorem segments_ne_nil (path : String) : segments path ≠ [] := Text.split_ne_nil '/' _

theorem toList_join (parts : List String) :
    (join "/" parts).toList = ['/'].intercalate (parts.map String.toList) := by
  have hsep : "/".toList = ['/'] := rfl
  rw [join, String.toList_intercalate, hsep]

theorem toList_anchored {parts : List String} (hne : parts ≠ []) :
    ("^/" ++ join "/" parts ++ "$").toList =
      '^' :: (parts.flatMap fun part => '/' :: part.toList) ++ ['$'] := by
  have hparts : parts.map String.toList ≠ [] := fun h => hne (List.map_eq_nil_iff.mp h)
  have hjoin := cons_intercalate '/' hparts
  rw [List.flatMap_map] at hjoin
  have hhead : "^/".toList = ['^', '/'] := rfl
  have hend : "$".toList = ['$'] := rfl
  rw [String.toList_append, String.toList_append, toList_join, hhead, hend, ← hjoin]
  simp only [List.cons_append, List.nil_append]

theorem toList_regexPattern (path : String) : (regexPattern path).toList =
    '^' :: ((segments path).flatMap fun seg => '/' :: (segmentPattern seg).toList) ++ ['$'] := by
  have hne : (segments path).map segmentPattern ≠ [] := fun h =>
    segments_ne_nil path (List.map_eq_nil_iff.mp h)
  have hpattern := toList_anchored hne
  rw [List.flatMap_map] at hpattern
  exact hpattern

theorem adds_plain_text : ∀ {cs : List Char}, (∀ c ∈ cs, c ∉ ['\x27', '\\', '\n', '\r']) →
    JsLiteral.Adds cs (units cs)
  | [], _ => JsLiteral.adds_nil
  | c :: cs, h => by
      obtain ⟨hc, hcs⟩ := List.forall_mem_cons.mp h
      exact (JsLiteral.adds_plain hc).append (adds_plain_text hcs)

section

variable {path : String}

/-- Nothing in the text of the segment ends the literal. -/
def Clear (seg : String) : Prop := isPlaceholder seg = false → ∀ c ∈ seg.toList, c ∉ closers

theorem adds_segmentPattern {seg : String} (hslash : isPlaceholder seg = false → '\\' ∉ seg.toList)
    (hclear : Clear seg) : JsLiteral.Adds (segmentPattern seg).toList (segmentUnits seg) := by
  unfold segmentPattern segmentUnits
  by_cases hplace : isPlaceholder seg = true
  · rw [if_pos hplace, if_pos hplace]
    refine adds_plain_text fun c hc => ?_
    replace hc : c ∈ ['[', '^', '/', ']', '+'] := hc
    simp only [List.mem_cons, List.not_mem_nil, or_false] at hc
    rcases hc with rfl | rfl | rfl | rfl | rfl <;> decide
  · rw [if_neg hplace, if_neg hplace, toList_regexEscape]
    rw [Bool.not_eq_true] at hplace
    exact adds_flatMap_escape (hslash hplace) (hclear hplace)

theorem cuts_segmentPattern {seg : String} (hslash : isPlaceholder seg = false → '\\' ∉ seg.toList)
    (hclear : ¬Clear seg) : JsLiteral.Cuts (segmentPattern seg).toList := by
  rw [Clear] at hclear
  push Not at hclear
  obtain ⟨hplace, c, hc, hclose⟩ := hclear
  rw [segmentPattern, if_neg (ne_true_of_eq_false hplace), toList_regexEscape]
  exact cuts_flatMap_escape (hslash hplace) ⟨c, hc, hclose⟩

theorem adds_slash : JsLiteral.Adds ['/'] ['/'.toNat] := JsLiteral.adds_plain (by decide)

theorem adds_caret : JsLiteral.Adds ['^'] ['^'.toNat] := JsLiteral.adds_plain (by decide)

theorem adds_dollar : JsLiteral.Adds ['$'] ['$'.toNat] := JsLiteral.adds_plain (by decide)

theorem adds_segments : ∀ {segs : List String},
    (∀ seg ∈ segs, isPlaceholder seg = false → '\\' ∉ seg.toList) → (∀ seg ∈ segs, Clear seg) →
    JsLiteral.Adds (segs.flatMap fun seg => '/' :: (segmentPattern seg).toList)
      (segs.flatMap fun seg => '/'.toNat :: segmentUnits seg)
  | [], _, _ => JsLiteral.adds_nil
  | seg :: segs, hslash, hclear => by
      obtain ⟨hseg, hsegs⟩ := List.forall_mem_cons.mp hslash
      obtain ⟨hhead, htail⟩ := List.forall_mem_cons.mp hclear
      exact (adds_slash.append (adds_segmentPattern hseg hhead)).append
        (adds_segments hsegs htail)

theorem cuts_segments : ∀ {segs : List String},
    (∀ seg ∈ segs, isPlaceholder seg = false → '\\' ∉ seg.toList) → (∃ seg ∈ segs, ¬Clear seg) →
    JsLiteral.Cuts (segs.flatMap fun seg => '/' :: (segmentPattern seg).toList)
  | [], _, h => absurd h.choose_spec.1 List.not_mem_nil
  | seg :: segs, hslash, h => by
      obtain ⟨hseg, hsegs⟩ := List.forall_mem_cons.mp hslash
      rw [List.flatMap_cons]
      by_cases hclear : Clear seg
      · obtain ⟨other, hother, hnot⟩ := h
        have htail : other ∈ segs :=
          (List.mem_cons.mp hother).resolve_left fun heq => hnot (heq ▸ hclear)
        exact (cuts_segments hsegs ⟨other, htail, hnot⟩).behind
          (adds_slash.append (adds_segmentPattern hseg hclear))
      · exact ((cuts_segmentPattern hseg hclear).behind adds_slash).append _

theorem evalMatch_quoted (pattern url : String) :
    evalMatch ("req.url && new RegExp('" ++ pattern ++ "').test(req.url.split('?')[0])") url =
      (JsLiteral.singleQuoted ('\x27' :: pattern.toList ++ '\x27' :: callText)).bind
        (evalCall url) := by
  have hopen : "req.url && new RegExp('" = "req.url && new RegExp(" ++ "'" := rfl
  have hclose : ("').test(req.url.split('?')[0])").toList = '\x27' :: callText := rfl
  have hquote : "'".toList = ['\x27'] := rfl
  rw [evalMatch, hopen, String.append_assoc, String.append_assoc, Text.stripPrefix_append,
    Option.bind_some, String.toList_append, String.toList_append, hquote, hclose]
  simp only [List.cons_append, List.nil_append]

theorem matchesPath_eq (path url : String) : matchesPath path url =
    (JsLiteral.singleQuoted ('\x27' :: (regexPattern path).toList ++ '\x27' :: callText)).bind
      (evalCall url) :=
  evalMatch_quoted (regexPattern path) url

theorem singleQuoted_of_adds {cs : List Char} {us : List ℕ} (h : JsLiteral.Adds cs us)
    (rest : List Char) :
    JsLiteral.singleQuoted ('\x27' :: cs ++ '\x27' :: rest) = some (us, rest) := by
  have hclose : JsLiteral.stepSingle .plain '\x27' = some .close := rfl
  show Quoted.read JsLiteral.stepSingle .plain (cs ++ '\x27' :: rest) = _
  rw [h, Quoted.read_close hclose, Option.map_some, Quoted.prepend, List.append_nil]

theorem length_le_of_cuts {cs rest behind : List Char} {us : List ℕ} (h : JsLiteral.Cuts cs)
    (hread : JsLiteral.singleQuoted ('\x27' :: cs ++ rest) = some (us, behind)) :
    rest.length ≤ behind.length :=
  h rest us behind hread

/-- The pattern is read as it was before it was escaped. -/
theorem matchesPath_of_clear (hslash : Unescaped path) (hclear : ∀ seg ∈ segments path, Clear seg)
    (url : String) : matchesPath path url =
      if url.isEmpty then some false
      else (RegExp.compile (patternUnits path)).map fun regexp =>
        RegExp.test regexp (units (Text.beforeChar '?' url).toList) := by
  have hadds : JsLiteral.Adds (regexPattern path).toList (patternUnits path) := by
    have hall := (adds_caret.append (adds_segments hslash hclear)).append adds_dollar
    rw [toList_regexPattern, patternUnits]
    simpa only [List.cons_append, List.nil_append] using hall
  rw [matchesPath_eq, singleQuoted_of_adds hadds, Option.bind_some, evalCall, if_pos rfl]

/-- Where the literal ends too early, no expression is left. -/
theorem matchesPath_of_not_clear (hslash : Unescaped path)
    (hclear : ∃ seg ∈ segments path, ¬Clear seg) (url : String) : matchesPath path url = none := by
  have hcuts : JsLiteral.Cuts (regexPattern path).toList := by
    have hall := ((cuts_segments hslash hclear).behind adds_caret).append ['$']
    rw [toList_regexPattern]
    simpa only [List.cons_append, List.nil_append] using hall
  rw [matchesPath_eq]
  rcases hread : JsLiteral.singleQuoted ('\x27' :: (regexPattern path).toList ++
      '\x27' :: callText) with _ | ⟨pattern, behind⟩
  · rfl
  · have hlen := length_le_of_cuts hcuts hread
    rw [Option.bind_some, evalCall, if_neg]
    intro hbehind
    change behind = callText at hbehind
    rw [hbehind, List.length_cons] at hlen
    omega

end

/-! ## §3  What the patterns match -/

/-- The text of the segment has no character that is special in a pattern. -/
def PlainText (seg : String) : Prop :=
  isPlaceholder seg = false → ∀ c ∈ seg.toList, isSpecial c = false ∧ c ≠ '\\'

def segmentTerms (seg : String) : List RegExp.Term :=
  RegExp.literal ['/'.toNat] ++
    if isPlaceholder seg then [.atom (.noneOf ['/'.toNat]) .plus]
    else RegExp.literal (units seg.toList)

theorem plain_of_not_special {c : Char} (hspecial : isSpecial c = false) (hslash : c ≠ '\\') {u : ℕ}
    (hu : u ∈ charUnits c) : RegExp.Plain u := by
  intro hsyntax
  have hall : ∀ n ∈ '^'.toNat :: '$'.toNat :: '.'.toNat :: '['.toNat :: RegExp.reserved,
      n < 128 ∧ (isSpecial (Char.ofNat n) = true ∨ Char.ofNat n = '\\') := by decide
  obtain ⟨hsmall, hchar⟩ := hall u hsyntax
  have hc : Char.ofNat u = c := by
    rw [← (Quoted.mem_charUnits_iff hsmall).mp hu, Char.ofNat_toNat]
  rw [hc, hspecial] at hchar
  exact hchar.elim Bool.false_ne_true hslash

theorem plain_units {cs : List Char} (h : ∀ c ∈ cs, isSpecial c = false ∧ c ≠ '\\') :
    ∀ u ∈ units cs, RegExp.Plain u := by
  intro u hu
  obtain ⟨c, hc, hu⟩ := List.mem_flatMap.mp hu
  exact plain_of_not_special (h c hc).1 (h c hc).2 hu

theorem unquantified_slash (us : List ℕ) : RegExp.Unquantified ('/'.toNat :: us) :=
  RegExp.Plain.unquantified (by decide) us

theorem unquantified_segments (segs : List String) : RegExp.Unquantified
    ((segs.flatMap fun seg => '/'.toNat :: segmentUnits seg) ++ ['$'.toNat]) := by
  cases segs with
  | nil => exact ⟨by decide, by decide⟩
  | cons seg segs => exact unquantified_slash _

theorem units_class : units "[^/]+".toList =
    ['['.toNat, '^'.toNat, '/'.toNat, ']'.toNat, '+'.toNat] := by decide

theorem read_segment {seg : String} (h : PlainText seg) {rest : List ℕ}
    (hrest : RegExp.Unquantified rest) :
    RegExp.read .free ('/'.toNat :: segmentUnits seg ++ rest) =
      (RegExp.read .free rest).map (segmentTerms seg ++ ·) := by
  have hslash : ∀ u ∈ ['/'.toNat], RegExp.Plain u := by decide
  unfold segmentUnits segmentTerms
  by_cases hplace : isPlaceholder seg = true
  · rw [if_pos hplace, if_pos hplace, units_class]
    have hbracket : RegExp.Unquantified
        ('['.toNat :: '^'.toNat :: '/'.toNat :: ']'.toNat :: '+'.toNat :: rest) :=
      ⟨fun h => absurd (Option.some.inj h) (by decide),
        fun h => absurd (Option.some.inj h) (by decide)⟩
    have hread := RegExp.read_literal hslash hbracket
    rw [RegExp.read_noneOf_plus (by decide) (by decide), Option.map_map] at hread
    exact hread
  · rw [if_neg hplace, if_neg hplace]
    have hplain : ∀ u ∈ '/'.toNat :: units seg.toList, RegExp.Plain u :=
      List.forall_mem_cons.mpr ⟨by decide,
        plain_units (h (by rwa [Bool.not_eq_true] at hplace))⟩
    exact RegExp.read_literal hplain hrest

theorem read_segments : ∀ {segs : List String}, (∀ seg ∈ segs, PlainText seg) →
    RegExp.read .free ((segs.flatMap fun seg => '/'.toNat :: segmentUnits seg) ++ ['$'.toNat]) =
      some (segs.flatMap segmentTerms ++ [.stop])
  | [], _ => rfl
  | seg :: segs, h => by
      obtain ⟨hseg, hsegs⟩ := List.forall_mem_cons.mp h
      rw [List.flatMap_cons, List.append_assoc, read_segment hseg (unquantified_segments segs),
        read_segments hsegs, Option.map_some, List.flatMap_cons, List.append_assoc]

/-- The units that a segment of the pattern stands for. -/
def Accepts (seg : String) (part : List ℕ) : Prop :=
  if isPlaceholder seg then part ≠ [] ∧ '/'.toNat ∉ part else part = units seg.toList

theorem run_segment (seg : String) (ts : List RegExp.Term) (us : List ℕ) :
    RegExp.run (segmentTerms seg ++ ts) false us = true ↔
      ∃ part rest, us = '/'.toNat :: part ++ rest ∧ Accepts seg part ∧
        RegExp.run ts false rest = true := by
  unfold segmentTerms Accepts
  rw [List.append_assoc, RegExp.run_literal]
  by_cases hplace : isPlaceholder seg = true
  · simp only [if_pos hplace]
    constructor
    · rintro ⟨rest, rfl, hrun⟩
      obtain ⟨v, w, rfl, hne, hv, hw⟩ := RegExp.oneOrMore_iff.mp hrun
      refine ⟨v, w, rfl, ⟨hne, fun hmem => ?_⟩, hw⟩
      exact absurd (hv _ hmem) (by decide)
    · rintro ⟨v, w, rfl, ⟨hne, hslash⟩, hw⟩
      refine ⟨v ++ w, rfl, RegExp.oneOrMore_iff.mpr ⟨v, w, rfl, hne, fun u hu => ?_, hw⟩⟩
      have hother : u ≠ '/'.toNat := fun heq => hslash (heq ▸ hu)
      simpa [RegExp.Atom.accepts] using hother
  · simp only [if_neg hplace, RegExp.run_literal]
    constructor
    · rintro ⟨rest, rfl, w, rfl, hw⟩
      exact ⟨_, w, rfl, rfl, hw⟩
    · rintro ⟨part, w, rfl, rfl, hw⟩
      exact ⟨_, rfl, w, rfl, hw⟩

theorem run_segments : ∀ (segs : List String) (us : List ℕ),
    RegExp.run (segs.flatMap segmentTerms ++ [.stop]) false us = true ↔
      ∃ parts, List.Forall₂ Accepts segs parts ∧ us = parts.flatMap ('/'.toNat :: ·)
  | [], us => by
      have hstop : RegExp.run [.stop] false us = true ↔ us = [] := by
        simp [RegExp.run]
      rw [List.flatMap_nil, List.nil_append, hstop]
      simp
  | seg :: segs, us => by
      rw [List.flatMap_cons, List.append_assoc, run_segment]
      simp only [run_segments segs]
      constructor
      · rintro ⟨part, _, rfl, hpart, parts, hparts, rfl⟩
        exact ⟨part :: parts, .cons hpart hparts, rfl⟩
      · rintro ⟨_, hparts, rfl⟩
        obtain ⟨part, parts, hpart, htail, rfl⟩ := List.forall₂_cons_left_iff.mp hparts
        exact ⟨part, _, rfl, hpart, parts, htail, rfl⟩

/-- The characters that a segment of the pattern stands for. -/
def Describes (seg : String) (part : List Char) : Prop :=
  if isPlaceholder seg then part ≠ [] ∧ '/' ∉ part else part = seg.toList

theorem ascii_mem_units {d : Char} (hd : d.toNat < 128) {cs : List Char} :
    d.toNat ∈ units cs ↔ d ∈ cs := by
  constructor
  · intro h
    obtain ⟨c, hc, hu⟩ := List.mem_flatMap.mp h
    rwa [← Char.toNat_inj.mp ((Quoted.mem_charUnits_iff hd).mp hu)]
  · intro h
    exact List.mem_flatMap.mpr ⟨d, h, (Quoted.mem_charUnits_iff hd).mpr rfl⟩

theorem slash_mem_units {cs : List Char} : '/'.toNat ∈ units cs ↔ '/' ∈ cs :=
  ascii_mem_units (by decide)

theorem units_eq_nil {cs : List Char} : units cs = [] ↔ cs = [] :=
  ⟨fun h => Quoted.units_injective h, fun h => h ▸ rfl⟩

theorem accepts_units {seg : String} {part : List Char} :
    Accepts seg (units part) ↔ Describes seg part := by
  unfold Accepts Describes
  by_cases hplace : isPlaceholder seg = true
  · rw [if_pos hplace, if_pos hplace, slash_mem_units, ne_eq, units_eq_nil]
  · rw [if_neg hplace, if_neg hplace]
    exact Quoted.units_injective.eq_iff

/-- No slash, and then the end or a slash. -/
theorem takeWhile_cut {α : Type*} [BEq α] [LawfulBEq α] {a : α} {v w : List α} (hv : a ∉ v)
    (hw : ∀ b ∈ w.head?, b = a) : (v ++ w).takeWhile (· != a) = v := by
  have hall : ∀ b ∈ v, (b != a) = true := fun b hb => bne_iff_ne.mpr fun h => hv (h ▸ hb)
  rw [List.takeWhile_append_of_pos hall]
  cases w with
  | nil => simp
  | cons b w =>
      have hb : b = a := hw b rfl
      simp [hb]

/-- A text can be cut wherever its code units can, next to slashes. -/
theorem exists_cut {cs : List Char} {v w : List ℕ} (h : units cs = v ++ w) (hv : '/'.toNat ∉ v)
    (hw : ∀ u ∈ w.head?, u = '/'.toNat) :
    ∃ a b, cs = a ++ b ∧ units a = v ∧ units b = w := by
  have hsplit : units (cs.takeWhile (· != '/')) ++ units (cs.dropWhile (· != '/')) = v ++ w := by
    rw [← Quoted.units_append, List.takeWhile_append_dropWhile, h]
  have hfront : '/'.toNat ∉ units (cs.takeWhile (· != '/')) := fun hmem =>
    absurd (List.mem_takeWhile_imp (slash_mem_units.mp hmem)) (by decide)
  have hback : ∀ u ∈ (units (cs.dropWhile (· != '/'))).head?, u = '/'.toNat := by
    rcases hrest : cs.dropWhile (· != '/') with _ | ⟨c, rest⟩
    · rintro u ⟨⟩
    · have hc : c = '/' := by
        have := List.head?_dropWhile_not (· != '/') cs
        rw [hrest] at this
        simpa using this
      rw [hc]
      rintro u ⟨⟩
      rfl
  have hv' := takeWhile_cut hv hw
  rw [← hsplit, takeWhile_cut hfront hback] at hv'
  refine ⟨_, _, (List.takeWhile_append_dropWhile (p := (· != '/'))).symm, hv', ?_⟩
  rw [hv'] at hsplit
  exact List.append_cancel_left hsplit

theorem head?_flatMap_cons {α : Type*} (a : α) (parts : List (List α)) :
    ∀ b ∈ (parts.flatMap (a :: ·)).head?, b = a := by
  cases parts with
  | nil => rintro b ⟨⟩
  | cons part parts =>
      rintro b ⟨⟩
      rfl

theorem units_flatMap_slash (parts : List (List Char)) :
    units (parts.flatMap ('/' :: ·)) = (parts.map units).flatMap ('/'.toNat :: ·) := by
  induction parts with
  | nil => rfl
  | cons part parts ih =>
      rw [List.flatMap_cons, Quoted.units_append, ih]
      rfl

/-- Segments have no slash, so what they accept can be told by the characters. -/
theorem exists_accepted_iff : ∀ {segs : List String}, (∀ seg ∈ segs, '/' ∉ seg.toList) →
    ∀ {cs : List Char},
    (∃ parts, List.Forall₂ Accepts segs parts ∧ units cs = parts.flatMap ('/'.toNat :: ·)) ↔
      ∃ parts, List.Forall₂ Describes segs parts ∧ cs = parts.flatMap ('/' :: ·)
  | [], _, cs => by simp [units_eq_nil]
  | seg :: segs, h, cs => by
      obtain ⟨hseg, hsegs⟩ := List.forall_mem_cons.mp h
      have ih := @exists_accepted_iff segs hsegs
      constructor
      · rintro ⟨_, hparts, hcs⟩
        obtain ⟨part, parts, hpart, htail, rfl⟩ := List.forall₂_cons_left_iff.mp hparts
        have hslash : '/'.toNat ∉ part := by
          unfold Accepts at hpart
          split at hpart
          · exact hpart.2
          · rw [hpart, slash_mem_units]
            exact hseg
        obtain ⟨c, cs, rfl⟩ : ∃ c cs', cs = c :: cs' := by
          cases cs with
          | nil => cases hcs
          | cons c cs => exact ⟨c, cs, rfl⟩
        obtain ⟨rfl, hrest⟩ := Quoted.charUnits_append_inj (d := '/') hcs
        obtain ⟨a, b, rfl, rfl, hb⟩ := exists_cut hrest hslash (head?_flatMap_cons _ parts)
        obtain ⟨rest, hdescribed, rfl⟩ := ih.mp ⟨parts, htail, hb⟩
        exact ⟨a :: rest, .cons (accepts_units.mp hpart) hdescribed, rfl⟩
      · rintro ⟨parts, hparts, rfl⟩
        refine ⟨parts.map units, ?_, units_flatMap_slash parts⟩
        exact List.forall₂_map_right_iff.mpr (hparts.imp fun _ _ => accepts_units.mpr)

theorem not_mem_of_mem_splitOn {c : Char} {cs part : List Char} (h : part ∈ cs.splitOn c) :
    c ∉ part := by
  induction cs generalizing part with
  | nil =>
      rw [List.splitOn_nil, List.mem_singleton] at h
      rw [h]
      exact List.not_mem_nil
  | cons d cs ih =>
      rw [List.splitOn_eq_splitOnP, List.splitOnP_cons_eq_if_modifyHead] at h
      split at h
      · rcases List.mem_cons.mp h with rfl | h
        · exact List.not_mem_nil
        · exact ih h
      · next hd =>
          obtain ⟨w, ws, hsplit⟩ := List.exists_cons_of_ne_nil (List.splitOnP_ne_nil (· == c) cs)
          rw [List.splitOn_eq_splitOnP, hsplit] at ih
          rw [hsplit] at h
          rcases List.mem_cons.mp h with rfl | h
          · rw [List.mem_cons, not_or]
            exact ⟨fun heq => hd (beq_iff_eq.mpr heq.symm), ih List.mem_cons_self⟩
          · exact ih (List.mem_cons_of_mem w h)

theorem slash_not_mem_segment {path seg : String} (h : seg ∈ segments path) : '/' ∉ seg.toList := by
  obtain ⟨cs, hcs, rfl⟩ := List.mem_map.mp h
  rw [String.toList_ofList]
  exact not_mem_of_mem_splitOn hcs

theorem unescaped_of_plain {path : String} (h : ∀ seg ∈ segments path, PlainText seg) :
    Unescaped path :=
  fun seg hseg hplace hmem => (h seg hseg hplace _ hmem).2 rfl

theorem compile_patternUnits {path : String} (h : ∀ seg ∈ segments path, PlainText seg) :
    RegExp.compile (patternUnits path) =
      some (.start :: ((segments path).flatMap segmentTerms ++ [.stop])) := by
  have hstep : RegExp.step .free '^'.toNat = some ([.start], .free) := rfl
  rw [RegExp.compile, patternUnits, List.cons_append, RegExp.read_cons hstep, read_segments h,
    Option.map_some, List.singleton_append]

/-- A pattern that begins with a slash does not look at what stands before it. -/
theorem run_first {segs : List String} (hne : segs ≠ []) (us : List ℕ) :
    RegExp.run (segs.flatMap segmentTerms ++ [.stop]) true us =
      RegExp.run (segs.flatMap segmentTerms ++ [.stop]) false us := by
  obtain ⟨seg, segs, rfl⟩ := List.exists_cons_of_ne_nil hne
  rfl

/-- **A matcher whose path has no special characters accepts what has its segments**, each a
placeholder's value or the segment itself. -/
theorem matchesPath_iff {path : String} (hplain : ∀ seg ∈ segments path, PlainText seg)
    (hclear : ∀ seg ∈ segments path, Clear seg) {url : String} (hquery : '?' ∉ url.toList) :
    ∃ b, matchesPath path url = some b ∧ (b = true ↔
      ∃ parts, List.Forall₂ Describes (segments path) parts ∧
        url.toList = parts.flatMap ('/' :: ·)) := by
  rw [matchesPath_of_clear (unescaped_of_plain hplain) hclear, compile_patternUnits hplain,
    Text.beforeChar_eq_self hquery]
  by_cases hempty : url.isEmpty = true
  · rw [if_pos hempty]
    refine ⟨false, rfl, iff_of_false Bool.false_ne_true ?_⟩
    rintro ⟨parts, hparts, hurl⟩
    rw [String.isEmpty_iff.mp hempty] at hurl
    cases parts with
    | nil => exact segments_ne_nil path (List.forall₂_nil_right_iff.mp hparts)
    | cons part parts => cases hurl
  · rw [if_neg hempty]
    refine ⟨_, rfl, ?_⟩
    beta_reduce
    rw [RegExp.test_start, run_first (segments_ne_nil path), run_segments]
    exact exists_accepted_iff fun seg => slash_not_mem_segment

/-! ## §4  Templates -/

/-- Every brace that opens is closed. -/
def Closed (template : List Char) : Prop :=
  ∀ front rest, template = front ++ '\x7b' :: rest → '\x7d' ∈ rest

theorem Closed.tail {c : Char} {template : List Char} (h : Closed (c :: template)) :
    Closed template :=
  fun front rest heq => h (c :: front) rest (congrArg (c :: ·) heq)

theorem Closed.suffix {front template : List Char} (h : Closed (front ++ template)) :
    Closed template :=
  fun front' rest heq => h (front ++ front') rest (by rw [heq, List.append_assoc])

theorem closed_of_not_mem {template : List Char} (h : '\x7b' ∉ template) : Closed template :=
  fun front rest heq => absurd (by rw [heq]; simp) h

theorem fills_cons {c : Char} (hc : c ≠ '\x7b') {template url : List Char} :
    Fills (c :: template) url ↔ ∃ rest, url = c :: rest ∧ Fills template rest := by
  constructor
  · intro h
    cases h with
    | text _ hrest => exact ⟨_, rfl, hrest⟩
    | param => exact absurd rfl hc
  · rintro ⟨rest, rfl, hrest⟩
    exact .text (Or.inl hc) hrest

theorem fills_nil {url : List Char} : Fills [] url ↔ url = [] :=
  ⟨fun h => by cases h; rfl, fun h => h ▸ .nil⟩

/-- The first brace that closes is where the name ends. -/
theorem append_cons_inj {c : Char} {v v' w w' : List Char} (hv : c ∉ v) (hv' : c ∉ v')
    (h : v ++ c :: w = v' ++ c :: w') : v = v' ∧ w = w' := by
  have htake := congrArg (List.takeWhile (· != c)) h
  have hhead : ∀ u : List Char, ∀ b ∈ (c :: u).head?, b = c := by
    rintro u b ⟨⟩
    rfl
  rw [takeWhile_cut hv (hhead w), takeWhile_cut hv' (hhead w')] at htake
  subst htake
  exact ⟨rfl, (List.cons.inj (List.append_cancel_left h)).2⟩

theorem fills_param {name template url : List Char} (hname : '\x7d' ∉ name) :
    Fills ('\x7b' :: name ++ '\x7d' :: template) url ↔ ∃ value rest, url = value ++ rest ∧
      (value ≠ [] ∧ '/' ∉ value ∧ '?' ∉ value) ∧ Fills template rest := by
  constructor
  · intro h
    generalize ht : '\x7b' :: name ++ '\x7d' :: template = t at h
    cases h with
    | nil => cases ht
    | text hc _ =>
        obtain ⟨rfl, rfl⟩ := List.cons.inj ht
        exact absurd (List.mem_append_right _ List.mem_cons_self) (hc.resolve_left (absurd rfl))
    | param hname' hvalue hslash hquery hrest =>
        obtain ⟨rfl, rfl⟩ := append_cons_inj hname hname' (List.cons.inj ht).2
        exact ⟨_, _, rfl, ⟨hvalue, hslash, hquery⟩, hrest⟩
  · rintro ⟨value, rest, rfl, ⟨hvalue, hslash, hquery⟩, hrest⟩
    exact .param hname hvalue hslash hquery hrest

/-- **Templates are filled in one behind the other**, if the first leaves no brace open. -/
theorem fills_append {a b url : List Char} (ha : Closed a) :
    Fills (a ++ b) url ↔ ∃ x y, url = x ++ y ∧ Fills a x ∧ Fills b y := by
  induction hn : a.length using Nat.strong_induction_on generalizing a url with
  | h n ih =>
      subst hn
      cases a with
      | nil => simp [fills_nil]
      | cons c a =>
          by_cases hc : c = '\x7b'
          · subst hc
            obtain ⟨name, rest, rfl, hname⟩ := List.eq_append_cons_of_mem (ha [] a rfl)
            have hclosed : Closed rest := (Closed.suffix ha.tail).tail
            have hshort : rest.length < ('\x7b' :: (name ++ '\x7d' :: rest)).length := by
              simp only [List.length_cons, List.length_append]
              omega
            have hsplit : '\x7b' :: (name ++ '\x7d' :: rest) ++ b =
                '\x7b' :: name ++ '\x7d' :: (rest ++ b) := by simp
            rw [hsplit, fills_param hname]
            constructor
            · rintro ⟨value, _, rfl, hvalue, hrest⟩
              obtain ⟨x, y, rfl, hx, hy⟩ := (ih _ hshort hclosed rfl).mp hrest
              exact ⟨value ++ x, y, (List.append_assoc _ _ _).symm,
                (fills_param hname).mpr ⟨value, x, rfl, hvalue, hx⟩, hy⟩
            · rintro ⟨_, y, rfl, hx, hy⟩
              obtain ⟨value, x, rfl, hvalue, hx⟩ := (fills_param hname).mp hx
              exact ⟨value, x ++ y, List.append_assoc _ _ _, hvalue,
                (ih _ hshort hclosed rfl).mpr ⟨x, y, rfl, hx, hy⟩⟩
          · rw [List.cons_append, fills_cons hc]
            constructor
            · rintro ⟨_, rfl, hrest⟩
              obtain ⟨x, y, rfl, hx, hy⟩ := (ih _ (Nat.lt_succ_self _) ha.tail rfl).mp hrest
              exact ⟨c :: x, y, rfl, (fills_cons hc).mpr ⟨x, rfl, hx⟩, hy⟩
            · rintro ⟨_, y, rfl, hx, hy⟩
              obtain ⟨x, rfl, hrest⟩ := (fills_cons hc).mp hx
              exact ⟨x ++ y, rfl,
                (ih _ (Nat.lt_succ_self _) ha.tail rfl).mpr ⟨x, y, rfl, hrest, hy⟩⟩

/-- Braces stand in placeholders only. -/
def BracesApart (seg : String) : Prop :=
  isPlaceholder seg = false → '\x7b' ∉ seg.toList

theorem placeholder_iff {seg : String} : isPlaceholder seg = true ↔
    ∃ inner, seg.toList = '\x7b' :: inner ++ ['\x7d'] := by
  rw [isPlaceholder, Bool.and_eq_true, Text.startsWith, Text.endsWith, decide_eq_true_iff,
    decide_eq_true_iff]
  have hopen : "\x7b".toList = ['\x7b'] := rfl
  have hclose : "\x7d".toList = ['\x7d'] := rfl
  rw [hopen, hclose]
  constructor
  · rintro ⟨⟨rest, hrest⟩, front, hfront⟩
    cases front with
    | nil => rw [← hrest] at hfront; cases hfront
    | cons c front =>
        rw [← hrest] at hfront
        obtain ⟨rfl, -⟩ := List.cons.inj hfront
        exact ⟨front, by rw [← hrest, ← hfront]⟩
  · rintro ⟨inner, hseg⟩
    rw [hseg]
    exact ⟨⟨inner ++ ['\x7d'], rfl⟩, '\x7b' :: inner, rfl⟩

theorem closed_segment {seg : String} (h : BracesApart seg) : Closed seg.toList := by
  by_cases hplace : isPlaceholder seg = true
  · obtain ⟨inner, hseg⟩ := placeholder_iff.mp hplace
    intro front rest heq
    -- the last character is a brace that closes
    have hlast := congrArg List.getLast? (hseg.symm.trans heq)
    rw [List.getLast?_concat, List.getLast?_append_cons] at hlast
    cases rest with
    | nil => exact absurd (Option.some.inj hlast) (by decide)
    | cons c rest => exact List.mem_of_getLast? hlast.symm
  · exact closed_of_not_mem (h (by rwa [Bool.not_eq_true] at hplace))

/-- A path without its slashes in front, one slash before each segment. -/
theorem fills_segments : ∀ {segs : List String}, (∀ seg ∈ segs, BracesApart seg) →
    ∀ {tail url : List Char},
    Fills ((segs.flatMap fun seg => '/' :: seg.toList) ++ tail) url ↔
      ∃ parts rest, url = parts.flatMap ('/' :: ·) ++ rest ∧
        List.Forall₂ (fun seg part => Fills seg.toList part) segs parts ∧ Fills tail rest
  | [], _, tail, url => by simp
  | seg :: segs, h, tail, url => by
      obtain ⟨hseg, hsegs⟩ := List.forall_mem_cons.mp h
      rw [List.flatMap_cons, List.append_assoc, List.cons_append, fills_cons (by decide)]
      simp only [fills_append (closed_segment hseg), fills_segments hsegs]
      constructor
      · rintro ⟨_, rfl, x, _, rfl, hx, parts, rest, rfl, hparts, hrest⟩
        exact ⟨x :: parts, rest, by simp, .cons hx hparts, hrest⟩
      · rintro ⟨_, rest, rfl, hparts, hrest⟩
        obtain ⟨x, parts, hx, htail, rfl⟩ := List.forall₂_cons_left_iff.mp hparts
        refine ⟨x ++ (parts.flatMap ('/' :: ·) ++ rest), ?_, x, _, rfl, hx, parts, rest, rfl, htail,
          hrest⟩
        rw [List.flatMap_cons, List.append_assoc]
        rfl

theorem fills_text {template url : List Char} (h : '\x7b' ∉ template) :
    Fills template url ↔ url = template := by
  induction template generalizing url with
  | nil => exact fills_nil
  | cons c template ih =>
      rw [List.mem_cons, not_or] at h
      rw [fills_cons (Ne.symm h.1)]
      simp only [ih h.2, exists_eq_right]

/-- Values bring no slash in, and no query. -/
theorem not_mem_of_fills {c : Char} (hc : c = '/' ∨ c = '?') {template url : List Char}
    (h : Fills template url) (hmem : c ∉ template) : c ∉ url := by
  induction h with
  | nil => exact hmem
  | text _ _ ih =>
      rw [List.mem_cons, not_or] at hmem ⊢
      exact ⟨hmem.1, ih hmem.2⟩
  | param _ _ hslash hquery _ ih =>
      rw [List.mem_append, not_or]
      refine ⟨?_, ih fun hrest => hmem ?_⟩
      · rcases hc with rfl | rfl
        · exact hslash
        · exact hquery
      · exact List.mem_append_right _ (List.mem_cons_of_mem _ hrest)

theorem eq_nil_of_fills_nil {template : List Char} (h : Fills template []) : template = [] := by
  generalize hurl : [] = url at h
  cases h with
  | nil => rfl
  | text => cases hurl
  | param _ hvalue => exact absurd (List.append_eq_nil_iff.mp hurl.symm).1 hvalue

theorem slash_trimmed (path : String) : '/' :: (Text.trimMatches '/' path).toList =
    (segments path).flatMap fun seg => '/' :: seg.toList := by
  have hparts : (segments path).map String.toList ≠ [] := fun h =>
    segments_ne_nil path (List.map_eq_nil_iff.mp h)
  have hsep : "/".toList = ['/'] := rfl
  have hjoin := toList_join (segments path)
  rw [segments, Text.join_split hsep] at hjoin
  rw [hjoin]
  exact (cons_intercalate '/' hparts).trans (List.flatMap_map _ _ _)

theorem mem_path_of_mem_segment {path seg : String} (hseg : seg ∈ segments path) {c : Char}
    (hc : c ∈ seg.toList) : c ∈ path.toList := by
  have hne : c ≠ '/' := fun heq => slash_not_mem_segment hseg (heq ▸ hc)
  rw [← Text.mem_trimMatches hne]
  refine (List.mem_cons.mp ?_).resolve_left hne
  rw [slash_trimmed]
  exact List.mem_flatMap.mpr ⟨seg, hseg, List.mem_cons_of_mem _ hc⟩

theorem toList_slash_append (s : String) : ("/" ++ s).toList = '/' :: s.toList := by
  rw [String.toList_append]
  rfl

/-- The slashes that are trimmed away. -/
theorem exists_slashes (path : String) : ∃ m n, path.toList =
      List.replicate m '/' ++ (Text.trimMatches '/' path).toList ++ List.replicate n '/' ∧
    (Text.trimMatches '/' path).toList.head? ≠ some '/' ∧
    ((Text.trimMatches '/' path).toList = [] → n = 0) := by
  obtain ⟨n, hback, -⟩ := Text.exists_trimMatches '/' path
  have hfront : path.toList.takeWhile (· == '/') =
      List.replicate (path.toList.takeWhile (· == '/')).length '/' :=
    List.eq_replicate_iff.mpr ⟨rfl, fun c hc =>
      eq_of_beq (List.mem_takeWhile_imp (p := (· == '/')) hc)⟩
  have hhead := List.head?_dropWhile_not (· == '/') path.toList
  rw [hback] at hhead
  refine ⟨(path.toList.takeWhile (· == '/')).length, n, ?_, ?_, ?_⟩
  · rw [← hfront, List.append_assoc, ← hback, List.takeWhile_append_dropWhile]
  · intro hslash
    rcases htrim : (Text.trimMatches '/' path).toList with _ | ⟨c, rest⟩
    · rw [htrim] at hslash
      cases hslash
    · rw [htrim] at hslash hhead
      cases hslash
      exact absurd hhead (by simp)
  · intro htrim
    rw [htrim, List.nil_append] at hhead
    cases n with
    | zero => rfl
    | succ n =>
        rw [List.replicate_succ] at hhead
        exact absurd hhead (by simp)

/-- What a path describes, by its segments. -/
theorem fills_path {path : String} (h : ∀ seg ∈ segments path, BracesApart seg) {m n : ℕ}
    (hpath : path.toList =
      List.replicate m '/' ++ (Text.trimMatches '/' path).toList ++ List.replicate n '/')
    {url : List Char} : Fills path.toList url ↔
      ∃ parts, List.Forall₂ (fun seg part => Fills seg.toList part) (segments path) parts ∧
        '/' :: url = List.replicate m '/' ++ parts.flatMap ('/' :: ·) ++ List.replicate n '/' := by
  have hslashes : ∀ k, '\x7b' ∉ List.replicate k '/' := fun k hmem =>
    absurd (List.eq_of_mem_replicate hmem) (by decide)
  have hshift : '/' :: path.toList = List.replicate m '/' ++
      (((segments path).flatMap fun seg => '/' :: seg.toList) ++ List.replicate n '/') := by
    have hturn : '/' :: List.replicate m '/' = List.replicate m '/' ++ ['/'] := by
      rw [← List.replicate_succ, List.replicate_succ']
    rw [← slash_trimmed, hpath]
    generalize (Text.trimMatches '/' path).toList = text
    rw [← List.cons_append, ← List.cons_append, hturn]
    simp only [List.append_assoc, List.cons_append, List.nil_append]
  have hcons : Fills path.toList url ↔ Fills ('/' :: path.toList) ('/' :: url) := by
    rw [fills_cons (by decide)]
    simp
  rw [hcons, hshift, fills_append (closed_of_not_mem (hslashes m))]
  simp only [fills_text (hslashes m), fills_segments h, fills_text (hslashes n)]
  constructor
  · rintro ⟨_, _, hurl, rfl, parts, _, rfl, hparts, rfl⟩
    exact ⟨parts, hparts, by rw [hurl, List.append_assoc]⟩
  · rintro ⟨parts, hparts, hurl⟩
    exact ⟨_, _, by rw [hurl, List.append_assoc], rfl, parts, _, rfl, hparts, rfl⟩

/-! ## §5  Exact matchers -/

theorem forall₂_iff_of_mem {α β : Type*} {R S : α → β → Prop} : ∀ {l : List α} {bs : List β},
    (∀ a ∈ l, ∀ b ∈ bs, (R a b ↔ S a b)) → (List.Forall₂ R l bs ↔ List.Forall₂ S l bs)
  | [], [], _ => iff_of_true .nil .nil
  | [], _ :: _, _ => iff_of_false nofun nofun
  | _ :: _, [], _ => iff_of_false nofun nofun
  | a :: l, b :: bs, h => by
      have hrest := forall₂_iff_of_mem fun x hx y hy =>
        h x (List.mem_cons_of_mem a hx) y (List.mem_cons_of_mem b hy)
      rw [List.forall₂_cons, List.forall₂_cons, hrest, h a List.mem_cons_self b List.mem_cons_self]

/-- Paths without a query, and without the special characters that group, choose or count. -/
structure Readable (path : String) : Prop where
  query : '?' ∉ path.toList
  text : ∀ seg ∈ segments path, isPlaceholder seg = false →
    ∀ c ∈ seg.toList, c ∉ ['|', '(', ')', '[', ']', '\x7b', '\x7d', '\\']

/-- The matcher accepts the paths that the template describes, and no others. -/
def Exact (path : String) : Prop :=
  ∀ url : String, '?' ∉ url.toList →
    ∃ b, matchesPath path url = some b ∧ (b = true ↔ Fills path.toList url.toList)

def misread : List Char := ['.', '^', '$', '*', '+']

/-- There is one slash in front and none at the end, a placeholder is a segment of its own, and no
other segment has a character that the quotes or the pattern read as something else. -/
structure Faithful (path : String) : Prop where
  slashes : path = "/" ++ Text.trimMatches '/' path
  placeholder : ∀ seg ∈ segments path, isPlaceholder seg = true → '\x7d' ∉ seg.toList.dropLast
  text : ∀ seg ∈ segments path, isPlaceholder seg = false →
    ∀ c ∈ seg.toList, c ∉ misread ∧ c ∉ closers

theorem textOnly_iff {p : Char → Prop} [DecidablePred p] {segs : List String} :
    (segs.all fun seg => isPlaceholder seg || seg.toList.all fun c => p c) = true ↔
      ∀ seg ∈ segs, isPlaceholder seg = false → ∀ c ∈ seg.toList, p c := by
  simp only [List.all_eq_true, Bool.or_eq_true, decide_eq_true_eq, or_iff_not_imp_left,
    Bool.not_eq_true]

instance (path : String) : Decidable (Readable path) :=
  decidable_of_iff ('?' ∉ path.toList ∧ ((segments path).all fun seg => isPlaceholder seg ||
      seg.toList.all fun c => c ∉ ['|', '(', ')', '[', ']', '\x7b', '\x7d', '\\']) = true)
    ⟨fun ⟨hquery, htext⟩ => ⟨hquery, textOnly_iff.mp htext⟩,
      fun h => ⟨h.query, textOnly_iff.mpr h.text⟩⟩

instance (path : String) : Decidable (Faithful path) :=
  decidable_of_iff (path = "/" ++ Text.trimMatches '/' path ∧
      (∀ seg ∈ segments path, isPlaceholder seg = true → '\x7d' ∉ seg.toList.dropLast) ∧
      ((segments path).all fun seg => isPlaceholder seg ||
        seg.toList.all fun c => c ∉ misread ∧ c ∉ closers) = true)
    ⟨fun ⟨hslashes, hplace, htext⟩ => ⟨hslashes, hplace, textOnly_iff.mp htext⟩,
      fun h => ⟨h.slashes, h.placeholder, textOnly_iff.mpr h.text⟩⟩

section

variable {path : String}

theorem Readable.bracesApart (h : Readable path) : ∀ seg ∈ segments path, BracesApart seg :=
  fun seg hseg hplace hmem => h.text seg hseg hplace _ hmem (by decide)

theorem Readable.unescaped (h : Readable path) : Unescaped path :=
  fun seg hseg hplace hmem => h.text seg hseg hplace _ hmem (by decide)

theorem Readable.plainText (h : Readable path) (hmisread : ∀ seg ∈ segments path,
    isPlaceholder seg = false → ∀ c ∈ seg.toList, c ∉ misread) :
    ∀ seg ∈ segments path, PlainText seg := by
  intro seg hseg hplace c hc
  have htext := h.text seg hseg hplace c hc
  have hquery : c ≠ '?' := fun heq => h.query (heq ▸ mem_path_of_mem_segment hseg hc)
  have hother := hmisread seg hseg hplace c hc
  simp only [misread, List.mem_cons, List.not_mem_nil, or_false, not_or] at htext hother
  simp [isSpecial, htext, hother, hquery]

/-- A segment describes what its template is filled in to. -/
theorem fills_iff_describes {seg : String} (hbraces : BracesApart seg)
    (hsingle : isPlaceholder seg = true → '\x7d' ∉ seg.toList.dropLast) {part : List Char}
    (hquery : '?' ∉ part) : Fills seg.toList part ↔ Describes seg part := by
  unfold Describes
  by_cases hplace : isPlaceholder seg = true
  · rw [if_pos hplace]
    obtain ⟨name, hseg⟩ := placeholder_iff.mp hplace
    have hname : '\x7d' ∉ name := by
      have hlast := hsingle hplace
      rw [hseg, List.dropLast_concat, List.mem_cons, not_or] at hlast
      exact hlast.2
    rw [hseg, fills_param hname]
    simp only [fills_nil]
    constructor
    · rintro ⟨value, _, rfl, ⟨hne, hslash, -⟩, rfl⟩
      rw [List.append_nil]
      exact ⟨hne, hslash⟩
    · rintro ⟨hne, hslash⟩
      exact ⟨part, [], (List.append_nil _).symm, ⟨hne, hslash, hquery⟩, rfl⟩
  · rw [if_neg hplace]
    exact fills_text (hbraces (by rwa [Bool.not_eq_true] at hplace))

/-- Segment by segment, a faithful path describes what its template is filled in to. -/
theorem Faithful.fills_iff (hreadable : Readable path) (h : Faithful path) {url : List Char}
    (hurl : '?' ∉ url) : Fills path.toList url ↔
      ∃ parts, List.Forall₂ Describes (segments path) parts ∧ url = parts.flatMap ('/' :: ·) := by
  have hpath : path.toList = (segments path).flatMap (fun seg => '/' :: seg.toList) ++ [] := by
    rw [List.append_nil, ← slash_trimmed]
    exact (congrArg String.toList h.slashes).trans (toList_slash_append _)
  have hsegments : ∀ parts : List (List Char), url = parts.flatMap ('/' :: ·) →
      (List.Forall₂ (fun seg part => Fills seg.toList part) (segments path) parts ↔
        List.Forall₂ Describes (segments path) parts) := by
    intro parts hparts
    refine forall₂_iff_of_mem fun seg hseg part hpart => ?_
    refine fills_iff_describes (hreadable.bracesApart seg hseg) (h.placeholder seg hseg) ?_
    intro hmem
    refine hurl ?_
    rw [hparts]
    exact List.mem_flatMap.mpr ⟨part, hpart, List.mem_cons_of_mem _ hmem⟩
  rw [hpath, fills_segments hreadable.bracesApart]
  simp only [fills_nil]
  constructor
  · rintro ⟨parts, _, heq, hparts, rfl⟩
    rw [List.append_nil] at heq
    exact ⟨parts, (hsegments parts heq).mp hparts, heq⟩
  · rintro ⟨parts, hparts, heq⟩
    exact ⟨parts, [], by rw [List.append_nil, heq], (hsegments parts heq).mpr hparts, rfl⟩

theorem Faithful.exact (hreadable : Readable path) (h : Faithful path) : Exact path := by
  intro url hurl
  have hplain := hreadable.plainText fun seg hseg hplace c hc => (h.text seg hseg hplace c hc).1
  have hclear : ∀ seg ∈ segments path, Clear seg := fun seg hseg hplace c hc =>
    (h.text seg hseg hplace c hc).2
  obtain ⟨b, hb, hiff⟩ := matchesPath_iff hplain hclear hurl
  exact ⟨b, hb, hiff.trans (h.fills_iff hreadable hurl).symm⟩

/-- Where nothing is read from the literal, nothing is matched. -/
theorem Exact.clear (hreadable : Readable path) (h : Exact path) :
    ∀ seg ∈ segments path, Clear seg := by
  by_contra hclear
  push Not at hclear
  obtain ⟨b, hb, -⟩ := h "" List.not_mem_nil
  rw [matchesPath_of_not_clear hreadable.unescaped hclear] at hb
  cases hb

/-- Characters that are misread, replaced by a letter. -/
def replaceChar (c : Char) : Char := if c ∈ misread then 'a' else c

def replaceUnit (u : ℕ) : ℕ := if u ∈ misread.map Char.toNat then 'a'.toNat else u

theorem of_misread {d : Char} (h : d ∈ misread) :
    charUnits 'a' = (charUnits d).map replaceUnit ∧ d.toNat < 128 ∧ d ≠ '/' ∧ d ≠ 'a' := by
  simp only [misread, List.mem_cons, List.not_mem_nil, or_false] at h
  rcases h with rfl | rfl | rfl | rfl | rfl <;> decide

theorem charUnits_replaceChar (c : Char) :
    charUnits (replaceChar c) = (charUnits c).map replaceUnit := by
  unfold replaceChar
  by_cases hc : c ∈ misread
  · rw [if_pos hc]
    exact (of_misread hc).1
  · rw [if_neg hc]
    refine (List.map_id _).symm.trans (List.map_congr_left fun u hu => Eq.symm (if_neg ?_))
    intro hmem
    obtain ⟨d, hd, rfl⟩ := List.mem_map.mp hmem
    have hcd := (Quoted.mem_charUnits_iff (of_misread hd).2.1).mp hu
    exact hc (Char.toNat_inj.mp hcd ▸ hd)

theorem units_replaceChar (cs : List Char) :
    units (cs.map replaceChar) = (units cs).map replaceUnit := by
  induction cs with
  | nil => rfl
  | cons c cs ih =>
      rw [List.map_cons, Quoted.units_cons, Quoted.units_cons, ih, charUnits_replaceChar,
        List.map_append]

theorem closed_unit {u : ℕ} (h : RegExp.Plain u) : (RegExp.Atom.unit u).Closed replaceUnit := by
  intro v hv
  have hmisread : ∀ n ∈ misread.map Char.toNat, ¬RegExp.Plain n := by decide
  have hkept : replaceUnit v = v := by
    refine if_neg fun hmem => hmisread v hmem ?_
    rwa [show v = u from eq_of_beq hv]
  rwa [hkept]

theorem closed_dot : RegExp.Atom.dot.Closed replaceUnit := by
  intro u hu
  unfold replaceUnit
  split
  · rfl
  · exact hu

theorem closed_class : (RegExp.Atom.noneOf ['/'.toNat]).Closed replaceUnit := by
  intro u hu
  unfold replaceUnit
  split
  · rfl
  · exact hu

theorem atomsOnly_text : ∀ {us rest : List ℕ}, (∀ u ∈ us, u ≠ '['.toNat) →
    RegExp.AtomsOnly (·.Closed replaceUnit) rest →
    RegExp.AtomsOnly (·.Closed replaceUnit) (us ++ rest)
  | [], _, _, hrest => hrest
  | u :: us, _, h, hrest => by
      obtain ⟨hu, hus⟩ := List.forall_mem_cons.mp h
      exact (atomsOnly_text hus hrest).cons hu closed_dot closed_unit

/-- All atoms of the pattern accept the letter where they accept what it stands for. -/
theorem atomsOnly_segments : ∀ {segs : List String} {rest : List ℕ},
    (∀ seg ∈ segs, isPlaceholder seg = false → '[' ∉ seg.toList) →
    RegExp.AtomsOnly (·.Closed replaceUnit) rest →
    RegExp.AtomsOnly (·.Closed replaceUnit)
      ((segs.flatMap fun seg => '/'.toNat :: segmentUnits seg) ++ rest)
  | [], _, _, hrest => hrest
  | seg :: segs, _, h, hrest => by
      obtain ⟨hseg, hsegs⟩ := List.forall_mem_cons.mp h
      have htail := atomsOnly_segments hsegs hrest
      rw [List.flatMap_cons, List.append_assoc, List.cons_append]
      refine RegExp.AtomsOnly.cons ?_ (by decide) closed_dot closed_unit
      unfold segmentUnits
      by_cases hplace : isPlaceholder seg = true
      · rw [if_pos hplace, units_class]
        exact htail.noneOf_plus (by decide) (by decide) closed_class
      · rw [if_neg hplace]
        refine atomsOnly_text (fun u hu heq => ?_) htail
        rw [heq] at hu
        exact hseg (by rwa [Bool.not_eq_true] at hplace) ((ascii_mem_units (by decide)).mp hu)

theorem isEmpty_ofList (cs : List Char) : (String.ofList cs).isEmpty = cs.isEmpty := by
  rw [Bool.eq_iff_iff, String.isEmpty_iff, List.isEmpty_iff, ← String.toList_inj,
    String.toList_ofList]
  rfl

theorem not_mem_replaceChar {c : Char} (hc : c ≠ 'a') {cs : List Char} (h : c ∉ cs) :
    c ∉ cs.map replaceChar := by
  intro hmem
  obtain ⟨d, hd, heq⟩ := List.mem_map.mp hmem
  unfold replaceChar at heq
  split at heq
  · exact hc heq.symm
  · exact h (heq ▸ hd)

/-- What a matcher accepts, it accepts with a letter for each character that it misreads. -/
theorem matchesPath_replaceChar (hreadable : Readable path)
    (hclear : ∀ seg ∈ segments path, Clear seg) {url : List Char} (hquery : '?' ∉ url)
    (h : matchesPath path (String.ofList url) = some true) :
    matchesPath path (String.ofList (url.map replaceChar)) = some true := by
  have hquery' := not_mem_replaceChar (by decide) hquery
  have hnil : (String.ofList (url.map replaceChar)).isEmpty = (String.ofList url).isEmpty := by
    rw [isEmpty_ofList, isEmpty_ofList]
    cases url <;> rfl
  rw [matchesPath_of_clear hreadable.unescaped hclear] at h ⊢
  rw [hnil, Text.beforeChar_eq_self (by rwa [String.toList_ofList]), String.toList_ofList,
    units_replaceChar]
  rw [Text.beforeChar_eq_self (by rwa [String.toList_ofList]), String.toList_ofList] at h
  split at h
  · cases h
  · next hnonempty =>
    obtain ⟨ts, hts, htest⟩ := Option.map_eq_some_iff.mp h
    have hbrackets : ∀ seg ∈ segments path, isPlaceholder seg = false → '[' ∉ seg.toList :=
      fun seg hseg hplace hmem => hreadable.text seg hseg hplace _ hmem (by decide)
    have hdollar : RegExp.AtomsOnly (·.Closed replaceUnit) ['$'.toNat] :=
      RegExp.atomsOnly_nil.cons (by decide) closed_dot closed_unit
    have hatoms : RegExp.AtomsOnly (·.Closed replaceUnit) (patternUnits path) :=
      (atomsOnly_segments hbrackets hdollar).cons (by decide) closed_dot closed_unit
    rw [if_neg hnonempty, hts, Option.map_some,
      RegExp.test_map (hatoms .free (Or.inl rfl) ts hts) htest]

theorem Exact.not_misread (hreadable : Readable path) (h : Exact path) :
    ∀ seg ∈ segments path, isPlaceholder seg = false → ∀ c ∈ seg.toList, c ∉ misread := by
  intro seg hseg hplace c hc hmisread
  obtain ⟨url, hfills, hchars⟩ := Mock.exists_fills path.toList
  have hquery : '?' ∉ url := fun hmem =>
    (hchars _ hmem).elim hreadable.query (fun heq => absurd heq (by decide))
  obtain ⟨b, hb, hiff⟩ := h (String.ofList url) (by rwa [String.toList_ofList])
  rw [String.toList_ofList] at hiff
  rw [hiff.mpr hfills] at hb
  have hreplaced := matchesPath_replaceChar hreadable (h.clear hreadable) hquery hb
  obtain ⟨b', hb', hiff'⟩ := h (String.ofList (url.map replaceChar)) (by
    rw [String.toList_ofList]
    exact not_mem_replaceChar (by decide) hquery)
  rw [hreplaced] at hb'
  cases hb'
  obtain ⟨m, n, hpath, -, -⟩ := exists_slashes path
  have hfilled := hiff'.mp rfl
  rw [String.toList_ofList] at hfilled
  -- the template has the character, and so has whatever it describes
  obtain ⟨parts, hparts, hurl⟩ := (fills_path hreadable.bracesApart hpath).mp hfilled
  obtain ⟨part, hpart, hsame⟩ := forall₂_mem_left hparts hseg
  rw [fills_text (hreadable.bracesApart seg hseg hplace)] at hsame
  have hmem : c ∈ '/' :: url.map replaceChar := by
    rw [hurl, List.mem_append, List.mem_append]
    refine Or.inl (Or.inr (List.mem_flatMap.mpr ⟨part, hpart, List.mem_cons_of_mem _ ?_⟩))
    rwa [hsame]
  obtain ⟨-, -, hslash, hletter⟩ := of_misread hmisread
  obtain ⟨d, hd, heq⟩ := List.mem_map.mp ((List.mem_cons.mp hmem).resolve_left hslash)
  unfold replaceChar at heq
  split at heq
  · exact hletter heq.symm
  · next hother => exact hother (heq ▸ hmisread)

/-- The segment, and a letter for a placeholder. -/
def sample (seg : String) : List Char := if isPlaceholder seg then ['a'] else seg.toList

theorem describes_sample (seg : String) : Describes seg (sample seg) := by
  unfold Describes sample
  split
  · exact ⟨by decide, by decide⟩
  · rfl

theorem slash_not_mem_samples (path : String) :
    ∀ part ∈ (segments path).map sample, '/' ∉ part := by
  intro part hpart
  obtain ⟨seg, hseg, rfl⟩ := List.mem_map.mp hpart
  unfold sample
  split
  · decide
  · exact slash_not_mem_segment hseg

theorem slash_not_mem_parts {parts : List (List Char)}
    (h : List.Forall₂ (fun seg part => Fills seg.toList part) (segments path) parts) :
    ∀ part ∈ parts, '/' ∉ part := by
  intro part hpart
  obtain ⟨seg, hseg, hfills⟩ := forall₂_mem_right h hpart
  exact not_mem_of_fills (Or.inl rfl) hfills (slash_not_mem_segment hseg)

/-- The path with a letter for every placeholder is described by it. -/
theorem Exact.fills_sample (hreadable : Readable path) (h : Exact path) :
    Fills path.toList ((segments path).flatMap fun seg => '/' :: sample seg) := by
  have hquery : '?' ∉ (segments path).flatMap fun seg => '/' :: sample seg := by
    intro hmem
    obtain ⟨seg, hseg, hmem⟩ := List.mem_flatMap.mp hmem
    have hsample := (List.mem_cons.mp hmem).resolve_left (by decide)
    unfold sample at hsample
    split at hsample
    · exact absurd hsample (by decide)
    · exact hreadable.query (mem_path_of_mem_segment hseg hsample)
  have hplain := hreadable.plainText (h.not_misread hreadable)
  rw [← String.toList_ofList (l := (segments path).flatMap fun seg => '/' :: sample seg)] at hquery
  obtain ⟨b, hb, hiff⟩ := h _ hquery
  obtain ⟨b', hb', hiff'⟩ := matchesPath_iff hplain (h.clear hreadable) hquery
  rw [hb'] at hb
  cases hb
  rw [String.toList_ofList] at hiff hiff'
  refine hiff.mp (hiff'.mpr ⟨(segments path).map sample, ?_, (List.flatMap_map _ _ _).symm⟩)
  rw [List.forall₂_map_right_iff]
  exact List.forall₂_same.mpr fun seg _ => describes_sample seg

theorem count_slashes {parts : List (List Char)} (h : ∀ part ∈ parts, '/' ∉ part) :
    (parts.flatMap ('/' :: ·)).count '/' = parts.length := by
  induction parts with
  | nil => rfl
  | cons part parts ih =>
      obtain ⟨hpart, hparts⟩ := List.forall_mem_cons.mp h
      rw [List.flatMap_cons, List.count_append, ih hparts, List.count_cons_self,
        List.count_eq_zero.mpr hpart, List.length_cons]
      omega

theorem flatMap_slash_inj : ∀ {ps qs : List (List Char)}, (∀ p ∈ ps, '/' ∉ p) →
    (∀ q ∈ qs, '/' ∉ q) → ps.flatMap ('/' :: ·) = qs.flatMap ('/' :: ·) → ps = qs
  | [], [], _, _, _ => rfl
  | [], _ :: _, _, _, h => by cases h
  | _ :: _, [], _, _, h => by cases h
  | p :: ps, q :: qs, hps, hqs, h => by
      obtain ⟨hp, hps'⟩ := List.forall_mem_cons.mp hps
      obtain ⟨hq, hqs'⟩ := List.forall_mem_cons.mp hqs
      have hrest : p ++ ps.flatMap ('/' :: ·) = q ++ qs.flatMap ('/' :: ·) := (List.cons.inj h).2
      have htake := congrArg (List.takeWhile (· != '/')) hrest
      rw [takeWhile_cut hp (head?_flatMap_cons _ ps), takeWhile_cut hq (head?_flatMap_cons _ qs)]
        at htake
      rw [htake] at hrest
      rw [htake, flatMap_slash_inj hps' hqs' (List.append_cancel_left hrest)]

/-- A path that describes its sample has one slash in front of its segments, and none behind. -/
theorem slashes_of_sample {m n : ℕ} (hpath : path.toList =
      List.replicate m '/' ++ (Text.trimMatches '/' path).toList ++ List.replicate n '/')
    (hhead : (Text.trimMatches '/' path).toList.head? ≠ some '/')
    (hempty : (Text.trimMatches '/' path).toList = [] → n = 0) {parts : List (List Char)}
    (hparts : List.Forall₂ (fun seg part => Fills seg.toList part) (segments path) parts)
    (hsample : '/' :: (segments path).flatMap (fun seg => '/' :: sample seg) =
      List.replicate m '/' ++ parts.flatMap ('/' :: ·) ++ List.replicate n '/') :
    m = 1 ∧ n = 0 := by
  have hslash := slash_not_mem_parts hparts
  have hcount := congrArg (List.count '/') hsample
  have hmapped := count_slashes (slash_not_mem_samples path)
  rw [List.flatMap_map, List.length_map] at hmapped
  rw [List.count_cons_self, hmapped, List.count_append, List.count_append, count_slashes hslash,
    List.count_replicate_self, List.count_replicate_self, hparts.length_eq] at hcount
  rcases Nat.eq_zero_or_pos m with rfl | hm
  · -- then the first segment is empty, and the trimmed path begins with a slash
    exfalso
    have hn : n = 1 := by omega
    obtain ⟨seg, segs, hsegs⟩ := List.exists_cons_of_ne_nil (segments_ne_nil path)
    rw [hsegs] at hparts hsample
    obtain ⟨part, rest, hfills, -, rfl⟩ := List.forall₂_cons_left_iff.mp hparts
    have htail : '/' :: (sample seg ++ segs.flatMap fun seg => '/' :: sample seg) =
        part ++ rest.flatMap ('/' :: ·) ++ List.replicate n '/' := (List.cons.inj hsample).2
    have hpart : part = [] := by
      cases part with
      | nil => rfl
      | cons c part =>
          obtain ⟨rfl, -⟩ := List.cons.inj htail
          exact absurd List.mem_cons_self (hslash _ List.mem_cons_self)
    subst hpart
    have htrimmed := slash_trimmed path
    rw [hsegs, List.flatMap_cons, eq_nil_of_fills_nil hfills, List.singleton_append] at htrimmed
    have hfirst := head?_flatMap_cons '/' (segs.map String.toList)
    rw [List.flatMap_map, ← (List.cons.inj htrimmed).2] at hfirst
    rcases htext : (Text.trimMatches '/' path).toList with _ | ⟨c, text⟩
    · exact absurd (hempty htext) (by omega)
    · rw [htext] at hhead hfirst
      exact hhead (congrArg some (hfirst c rfl))
  · omega

/-- One letter is too short for more than a placeholder. -/
theorem placeholder_of_fills_letter {seg : String} (hplace : isPlaceholder seg = true)
    (h : Fills seg.toList ['a']) : '\x7d' ∉ seg.toList.dropLast := by
  obtain ⟨inner, hseg⟩ := placeholder_iff.mp hplace
  rw [hseg, List.dropLast_concat, List.mem_cons, not_or]
  refine ⟨by decide, fun hmem => ?_⟩
  obtain ⟨name, rest, rfl, hname⟩ := List.eq_append_cons_of_mem hmem
  have htemplate : '\x7b' :: (name ++ '\x7d' :: rest) ++ ['\x7d'] =
      '\x7b' :: name ++ '\x7d' :: (rest ++ ['\x7d']) := by simp
  rw [hseg, htemplate, fills_param hname] at h
  obtain ⟨value, r, hurl, ⟨hne, -⟩, hrest⟩ := h
  obtain ⟨c, value, rfl⟩ := List.exists_cons_of_ne_nil hne
  have hnil := (List.append_eq_nil_iff.mp (List.cons.inj hurl).2.symm).2
  rw [hnil] at hrest
  exact absurd (List.append_eq_nil_iff.mp (eq_nil_of_fills_nil hrest)).2 (List.cons_ne_nil _ _)

theorem Exact.faithful (hreadable : Readable path) (h : Exact path) : Faithful path := by
  obtain ⟨m, n, hpath, hhead, hempty⟩ := exists_slashes path
  obtain ⟨parts, hparts, hsample⟩ :=
    (fills_path hreadable.bracesApart hpath).mp (h.fills_sample hreadable)
  obtain ⟨rfl, rfl⟩ := slashes_of_sample hpath hhead hempty hparts hsample
  refine ⟨?_, fun seg hseg hplace => ?_, fun seg hseg hplace c hc =>
    ⟨h.not_misread hreadable seg hseg hplace c hc, h.clear hreadable seg hseg hplace c hc⟩⟩
  · rw [← String.toList_inj, toList_slash_append, hpath]
    simp
  · have hsame : ((segments path).map sample).flatMap ('/' :: ·) = parts.flatMap ('/' :: ·) := by
      rw [List.replicate_one, List.singleton_append, List.replicate_zero, List.append_nil]
        at hsample
      rw [List.flatMap_map]
      exact (List.cons.inj hsample).2
    rw [← flatMap_slash_inj (slash_not_mem_samples path) (slash_not_mem_parts hparts) hsame,
      List.forall₂_map_right_iff] at hparts
    have hfills := List.forall₂_same.mp hparts seg hseg
    rw [sample, if_pos hplace] at hfills
    exact placeholder_of_fills_letter hplace hfills

/-- **A matcher accepts what its template describes, and nothing else, exactly if the path has one
slash in front and none at the end, whole placeholders, and no `.`, `^`, `$`, `*`, `+`, quote or line
break in its text**: none of these is escaped where the expression is read. -/
theorem exact_iff_faithful (path : String) (h : Readable path) : Exact path ↔ Faithful path :=
  ⟨Exact.faithful h, Faithful.exact h⟩

end

theorem exact_iff_faithful_json : ¬Faithful "/pets.json" ∧
    (Exact "/pets.json" ↔ Faithful "/pets.json") :=
  ⟨by decide, exact_iff_faithful "/pets.json" (by decide)⟩

/-! ## §6  Branches -/

/-- What ends the comment in front of a branch. -/
def lineBreaks : List Char := ['\n', '\r', '\u2028', '\u2029']

/-- The branch that is taken, or none: then the request is not found. An expression that throws ends
the server. -/
def dispatch (method url : String) : List Operation → Option (Option ℕ)
  | [] => some none
  | op :: ops => (matchesPath op.path url).bind fun matched =>
      if matched && method == op.method.upper then some (some 0)
      else (dispatch method url ops).map (Option.map (· + 1))

/-- The path of an operation also stands in the comment. What is behind a line break in it is code,
and not read here. -/
def respond (method url : String) (ops : List Operation) : Option (Option ℕ) :=
  if ops.all fun op => lineBreaks.all (· ∉ op.path.toList) then dispatch method url ops else none

/-- A part can be meant for both segments. -/
def Meets (s t : String) : Prop :=
  s = t ∨ isPlaceholder s = true ∧ t ≠ "" ∨ isPlaceholder t = true ∧ s ≠ ""

/-- A request can be meant for both paths. -/
def Overlap (a b : String) : Prop := List.Forall₂ Meets (segments a) (segments b)

instance (s t : String) : Decidable (Meets s t) :=
  inferInstanceAs (Decidable (_ ∨ _))

instance (a b : String) : Decidable (Overlap a b) :=
  inferInstanceAs (Decidable (List.Forall₂ Meets _ _))

example : Overlap "/pets/\x7bpetId\x7d" "/pets/mine" := by decide +kernel

/-- Whether the branch of an operation is taken. -/
def taken (method url : String) (op : Operation) : Bool :=
  (matchesPath op.path url).getD false && method == op.method.upper

theorem dispatch_eq {method url : String} {ops : List Operation}
    (h : ∀ op ∈ ops, (matchesPath op.path url).isSome = true) :
    dispatch method url ops = some (ops.findIdx? (taken method url)) := by
  induction ops with
  | nil => rfl
  | cons op ops ih =>
      obtain ⟨hop, hops⟩ := List.forall_mem_cons.mp h
      obtain ⟨matched, hmatched⟩ := Option.isSome_iff_exists.mp hop
      rw [dispatch, hmatched, Option.bind_some, ih hops, List.findIdx?_cons]
      have htaken : taken method url op = (matched && method == op.method.upper) := by
        rw [taken, hmatched, Option.getD_some]
      rw [htaken]
      split
      · rfl
      · rfl

/-- The query makes no difference. -/
theorem matchesPath_query (path : String) {url : List Char} (hne : url ≠ []) (hquery : '?' ∉ url)
    (query : List Char) : matchesPath path (String.ofList (url ++ '?' :: query)) =
      matchesPath path (String.ofList url) := by
  have hbefore : Text.beforeChar '?' (String.ofList (url ++ '?' :: query)) = String.ofList url := by
    have hjoined : String.ofList (url ++ '?' :: query) =
        String.ofList url ++ String.ofList ['?'] ++ String.ofList query := by
      rw [← String.toList_inj]
      simp
    rw [hjoined, Text.beforeChar_append, Text.beforeChar_eq_self (by rwa [String.toList_ofList])]
  have hempty : (String.ofList (url ++ '?' :: query)).isEmpty = (String.ofList url).isEmpty := by
    rw [isEmpty_ofList, isEmpty_ofList]
    cases url with
    | nil => exact absurd rfl hne
    | cons => rfl
  rw [matchesPath_eq, matchesPath_eq]
  congr 1
  funext literal
  rw [evalCall, evalCall, hbefore, hempty, Text.beforeChar_eq_self (by rwa [String.toList_ofList])]

theorem Meets.symm {s t : String} (h : Meets s t) : Meets t s := by
  rcases h with rfl | hs | ht
  · exact Or.inl rfl
  · exact Or.inr (Or.inr hs)
  · exact Or.inr (Or.inl ht)

theorem meets_of_placeholder {s t : String} {part : List Char} (hs : isPlaceholder s = true)
    (hpart : Describes s part) (ht : Describes t part) : Meets s t := by
  refine Or.inr (Or.inl ⟨hs, ?_⟩)
  rintro rfl
  rw [Describes, if_pos hs] at hpart
  exact hpart.1 ht

/-- Two segments meet where one part is described by both. -/
theorem meets_of_describes {s t : String} {part : List Char} (hs : Describes s part)
    (ht : Describes t part) : Meets s t := by
  by_cases hplace : isPlaceholder s = true
  · exact meets_of_placeholder hplace hs ht
  by_cases hplace' : isPlaceholder t = true
  · exact (meets_of_placeholder hplace' ht hs).symm
  rw [Describes, if_neg hplace] at hs
  rw [Describes, if_neg hplace'] at ht
  exact Or.inl (String.toList_inj.mp (hs.symm.trans ht))

theorem describes_of_placeholder {s t : String} (hs : isPlaceholder s = true) (ht : t ≠ "")
    (hslash : '/' ∉ t.toList) : Describes s (sample t) := by
  rw [Describes, if_pos hs, sample]
  split
  · exact ⟨by decide, by decide⟩
  · refine ⟨fun hnil => ht (String.toList_inj.mp hnil), hslash⟩

theorem Meets.exists_describes {s t : String} (h : Meets s t) (hs : '/' ∉ s.toList)
    (ht : '/' ∉ t.toList) : ∃ part, (part = sample s ∨ part = sample t) ∧
      Describes s part ∧ Describes t part := by
  rcases h with rfl | ⟨hplace, hne⟩ | ⟨hplace, hne⟩
  · exact ⟨sample s, Or.inl rfl, describes_sample s, describes_sample s⟩
  · exact ⟨sample t, Or.inr rfl, describes_of_placeholder hplace hne ht, describes_sample t⟩
  · exact ⟨sample s, Or.inl rfl, describes_sample s, describes_of_placeholder hplace hne hs⟩

/-- A sample is as free of a character as its segment is. -/
theorem not_mem_sample {c : Char} (hc : c ≠ 'a') {seg : String} (h : c ∉ seg.toList) :
    c ∉ sample seg := by
  unfold sample
  split
  · simpa using hc
  · exact h

theorem exists_common_parts {ss ts : List String} (h : List.Forall₂ Meets ss ts)
    (hss : ∀ s ∈ ss, '/' ∉ s.toList ∧ '?' ∉ s.toList)
    (hts : ∀ t ∈ ts, '/' ∉ t.toList ∧ '?' ∉ t.toList) :
    ∃ parts, List.Forall₂ Describes ss parts ∧ List.Forall₂ Describes ts parts ∧
      ∀ part ∈ parts, '?' ∉ part := by
  induction h with
  | nil => exact ⟨[], .nil, .nil, nofun⟩
  | cons hmeets _ ih =>
      obtain ⟨hs, hss⟩ := List.forall_mem_cons.mp hss
      obtain ⟨ht, hts⟩ := List.forall_mem_cons.mp hts
      obtain ⟨parts, hl, hr, hparts⟩ := ih hss hts
      obtain ⟨part, hpart, hdl, hdr⟩ := hmeets.exists_describes hs.1 ht.1
      refine ⟨part :: parts, .cons hdl hl, .cons hdr hr, List.forall_mem_cons.mpr ⟨?_, hparts⟩⟩
      rcases hpart with rfl | rfl
      · exact not_mem_sample (by decide) hs.2
      · exact not_mem_sample (by decide) ht.2

theorem forall₂_meets {ss ts : List String} {parts : List (List Char)}
    (hs : List.Forall₂ Describes ss parts) (ht : List.Forall₂ Describes ts parts) :
    List.Forall₂ Meets ss ts := by
  induction hs generalizing ts with
  | nil =>
      cases ht with
      | nil => exact .nil
  | cons hdl _ ih =>
      cases ht with
      | cons hdr ht => exact .cons (meets_of_describes hdl hdr) (ih ht)

theorem slash_not_mem_described {path : String} {parts : List (List Char)}
    (h : List.Forall₂ Describes (segments path) parts) : ∀ part ∈ parts, '/' ∉ part := by
  intro part hpart
  obtain ⟨seg, hseg, hdescribes⟩ := forall₂_mem_right h hpart
  unfold Describes at hdescribes
  split at hdescribes
  · exact hdescribes.2
  · exact hdescribes ▸ slash_not_mem_segment hseg

/-- Two faithful paths overlap if a request fills both in. -/
theorem overlap_iff {a b : String} (ha : Readable a ∧ Faithful a) (hb : Readable b ∧ Faithful b) :
    Overlap a b ↔ ∃ url, Fills a.toList url ∧ Fills b.toList url := by
  constructor
  · intro h
    have hclean : ∀ {path : String}, Readable path → ∀ seg ∈ segments path,
        '/' ∉ seg.toList ∧ '?' ∉ seg.toList := fun hreadable seg hseg =>
      ⟨slash_not_mem_segment hseg, fun hmem => hreadable.query (mem_path_of_mem_segment hseg hmem)⟩
    obtain ⟨parts, hl, hr, hparts⟩ := exists_common_parts h (hclean ha.1) (hclean hb.1)
    have hquery : '?' ∉ parts.flatMap ('/' :: ·) := by
      intro hmem
      obtain ⟨part, hpart, hmem⟩ := List.mem_flatMap.mp hmem
      exact hparts part hpart ((List.mem_cons.mp hmem).resolve_left (by decide))
    exact ⟨_, (ha.2.fills_iff ha.1 hquery).mpr ⟨parts, hl, rfl⟩,
      (hb.2.fills_iff hb.1 hquery).mpr ⟨parts, hr, rfl⟩⟩
  · rintro ⟨url, hfa, hfb⟩
    have hquery : '?' ∉ url := not_mem_of_fills (Or.inr rfl) hfa ha.1.query
    obtain ⟨parts, hl, hurl⟩ := (ha.2.fills_iff ha.1 hquery).mp hfa
    obtain ⟨parts', hr, hurl'⟩ := (hb.2.fills_iff hb.1 hquery).mp hfb
    rw [← flatMap_slash_inj (slash_not_mem_described hl) (slash_not_mem_described hr)
      (hurl.symm.trans hurl')] at hr
    exact forall₂_meets hl hr

/-- A matcher of a faithful path looks at the path of a target. -/
theorem matchesPath_target {path : String} (h : Readable path ∧ Faithful path) {url : List Char}
    (hne : url ≠ []) (hquery : '?' ∉ url) {target : List Char}
    (htarget : target = url ∨ ∃ query, target = url ++ '?' :: query) :
    ∃ b, matchesPath path (String.ofList target) = some b ∧
      (b = true ↔ Fills path.toList url) := by
  have hsame : matchesPath path (String.ofList target) = matchesPath path (String.ofList url) := by
    rcases htarget with rfl | ⟨query, rfl⟩
    · rfl
    · exact matchesPath_query path hne hquery query
  obtain ⟨b, hb, hiff⟩ := h.2.exact h.1 (String.ofList url) (by rwa [String.toList_ofList])
  rw [String.toList_ofList] at hiff
  exact ⟨b, hsame.trans hb, hiff⟩

theorem ne_nil_of_fills {path : String} (h : Faithful path) {url : List Char}
    (hfills : Fills path.toList url) : url ≠ [] := by
  rintro rfl
  have hnil := eq_nil_of_fills_nil hfills
  rw [h.slashes, toList_slash_append] at hnil
  cases hnil

/-- A request is meant for an operation. -/
def MeantFor (method : HttpMethod) (url : List Char) (op : Operation) : Prop :=
  method = op.method ∧ Fills op.path.toList url

section

variable {ops : List Operation} (hops : ∀ op ∈ ops, Readable op.path ∧ Faithful op.path)
  (hcomments : ∀ op ∈ ops, ∀ c ∈ lineBreaks, c ∉ op.path.toList)

include hops hcomments

/-- The first operation that a request is meant for answers it. -/
theorem respond_target {method : HttpMethod} {url : List Char} (hne : url ≠ []) (hquery : '?' ∉ url)
    {target : List Char} (htarget : target = url ∨ ∃ query, target = url ++ '?' :: query) (i : ℕ) :
    respond method.upper (String.ofList target) ops = some (some i) ↔
      (∃ op, ops[i]? = some op ∧ MeantFor method url op) ∧
        ∀ j op, j < i → ops[j]? = some op → ¬MeantFor method url op := by
  have hinside : (ops.all fun op => lineBreaks.all (· ∉ op.path.toList)) = true := by
    simpa only [List.all_eq_true, decide_eq_true_eq] using hcomments
  have hmatch := fun op hop => matchesPath_target (hops op hop) hne hquery htarget
  have htaken : ∀ op ∈ ops, (taken method.upper (String.ofList target) op = true ↔
      MeantFor method url op) := by
    intro op hop
    obtain ⟨b, hb, hiff⟩ := hmatch op hop
    have hupper : method.upper = op.method.upper ↔ method = op.method :=
      ⟨Mock.upper_inj, congrArg HttpMethod.upper⟩
    rw [taken, hb, Option.getD_some, Bool.and_eq_true, beq_iff_eq, hiff, hupper, MeantFor, and_comm]
  have hsome : ∀ op ∈ ops, (matchesPath op.path (String.ofList target)).isSome = true := by
    intro op hop
    obtain ⟨b, hb, -⟩ := hmatch op hop
    rw [hb]
    rfl
  rw [respond, if_pos hinside, dispatch_eq hsome, Option.some_inj, List.findIdx?_eq_some_iff_getElem]
  constructor
  · rintro ⟨hi, hfirst, hearlier⟩
    refine ⟨⟨ops[i], List.getElem?_eq_getElem hi, (htaken _ (List.getElem_mem hi)).mp hfirst⟩, ?_⟩
    intro j op hj hop hmeant
    obtain ⟨hlt, rfl⟩ := List.getElem?_eq_some_iff.mp hop
    exact hearlier j hj ((htaken _ (List.getElem_mem hlt)).mpr hmeant)
  · rintro ⟨⟨op, hop, hmeant⟩, hearlier⟩
    obtain ⟨hi, rfl⟩ := List.getElem?_eq_some_iff.mp hop
    refine ⟨hi, (htaken _ (List.getElem_mem hi)).mpr hmeant, fun j hj htrue => ?_⟩
    have hlt : j < ops.length := hj.trans hi
    exact hearlier j _ hj (List.getElem?_eq_getElem hlt)
      ((htaken _ (List.getElem_mem hlt)).mp htrue)

end

/-- **Every operation answers the requests that are meant for it exactly if no two paths of one
method overlap**: the branches of the others are never taken first. -/
theorem respond_iff (ops : List Operation) (hops : ∀ op ∈ ops, Readable op.path ∧ Faithful op.path)
    (hcomments : ∀ op ∈ ops, ∀ c ∈ lineBreaks, c ∉ op.path.toList) :
    (∀ i op, ops[i]? = some op → ∀ target, Target op target →
      respond op.method.upper (String.ofList target) ops = some (some i)) ↔
    ops.Pairwise fun a b => a.method = b.method → ¬Overlap a.path b.path := by
  rw [List.pairwise_iff_getElem]
  constructor
  · intro h j i hj hi hlt hmethod hoverlap
    have hmem := fun {k} (hk : k < ops.length) => hops _ (List.getElem_mem hk)
    obtain ⟨url, hfj, hfi⟩ := (overlap_iff (hmem hj) (hmem hi)).mp hoverlap
    have hanswer := h i _ (List.getElem?_eq_getElem hi) url ⟨url, hfi, Or.inl rfl⟩
    have hquery : '?' ∉ url := not_mem_of_fills (Or.inr rfl) hfi (hmem hi).1.query
    rw [respond_target hops hcomments (ne_nil_of_fills (hmem hi).2 hfi) hquery (Or.inl rfl)] at hanswer
    exact hanswer.2 j _ hlt (List.getElem?_eq_getElem hj) ⟨hmethod.symm, hfj⟩
  · rintro h i op hop target ⟨url, hfills, htarget⟩
    have hmem := hops op (List.mem_of_getElem? hop)
    have hquery : '?' ∉ url := not_mem_of_fills (Or.inr rfl) hfills hmem.1.query
    rw [respond_target hops hcomments (ne_nil_of_fills hmem.2 hfills) hquery htarget]
    refine ⟨⟨op, hop, rfl, hfills⟩, ?_⟩
    rintro j earlier hlt hearlier ⟨hmethod, hfills'⟩
    obtain ⟨hi, rfl⟩ := List.getElem?_eq_some_iff.mp hop
    obtain ⟨hj, rfl⟩ := List.getElem?_eq_some_iff.mp hearlier
    exact h j i hj hi hlt hmethod.symm
      ((overlap_iff (hops _ (List.getElem_mem hj)) hmem).mpr ⟨url, hfills', hfills⟩)

def getOperation (operationId path : String) : Operation :=
  ⟨operationId, .get, path, none, none, none, [], none, [], none⟩

/-- The first takes the request `/pets/mine` from the second. -/
def shadowedOps : List Operation :=
  [getOperation "getPet" "/pets/\x7bpetId\x7d", getOperation "myPets" "/pets/mine"]

theorem respond_iff_shadowed :
    (∀ i op, shadowedOps[i]? = some op → ∀ target, Target op target →
      respond op.method.upper (String.ofList target) shadowedOps = some (some i)) ↔
    shadowedOps.Pairwise fun a b => a.method = b.method → ¬Overlap a.path b.path := by
  have hclean : ∀ op ∈ shadowedOps, (Readable op.path ∧ Faithful op.path) ∧
      (lineBreaks.all (· ∉ op.path.toList)) = true := by
    intro op hop
    simp only [shadowedOps, List.mem_cons, List.not_mem_nil, or_false] at hop
    rcases hop with rfl | rfl <;> decide
  refine respond_iff shadowedOps (fun op hop => (hclean op hop).1) fun op hop => ?_
  simpa only [List.all_eq_true, decide_eq_true_eq] using (hclean op hop).2

end SpecForge.TestServer
