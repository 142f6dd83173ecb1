import SpecForge.Lib.Semver

/-!
# The version of the generated crate

`sanitize_semver` drops what is neither a digit nor a dot and keeps the first three numbers between
the dots. What it drops separates nothing, so the digits on its two sides become one number.

- §1 the function; §2 its parts are the digit runs of the version; §3 when the outcome is legal.
-/

namespace SpecForge.Rust

open Lib

/-! ## §1  `sanitize_semver` -/

/-- `str::split` at every character that the pattern takes. -/
def splitWhere (p : Char → Bool) (s : String) : List String :=
  (s.toList.splitOnP p).map String.ofList

def semverNums (v : String) : List String :=
  let parts := splitWhere (fun c => !c.isDigit && c != '.') v
  let cleaned := String.join parts
  (Text.split '.' cleaned).filter (fun s => !s.isEmpty)

def sanitizeSemver (v : String) : String :=
  match semverNums v with
  | a :: b :: c :: _ => a ++ "." ++ b ++ "." ++ c
  | [a, b] => a ++ "." ++ b ++ ".0"
  | [a] => a ++ ".0.0"
  | [] => "0.1.0"

/-- Three numerals with dots between them. -/
def LegalVersion (s : String) : Prop := ∃ core : Semver.Core, s.toList = core.text

/-! ## §2  The numbers -/

theorem flatten_splitOnP {α : Type*} (p : α → Bool) :
    ∀ l : List α, (l.splitOnP p).flatten = l.filter (fun x => !p x)
  | [] => rfl
  | x :: l => by
      have ih := flatten_splitOnP p l
      rw [List.splitOnP_cons_eq_if_modifyHead]
      cases hx : p x with
      | true => simp [hx, ih]
      | false =>
          cases hs : l.splitOnP p with
          | nil => exact absurd hs (List.splitOnP_ne_nil p l)
          | cons part parts =>
              rw [hs] at ih
              simp [hx, ← ih]

/-- Dropping what `p` rejects, but for the separator, before the text is split is dropping it in
each part. -/
theorem splitOn_filter {α : Type*} [BEq α] [LawfulBEq α] {p : α → Bool} {sep : α}
    (hsep : p sep = false) : ∀ l : List α,
    (l.filter (fun x => p x || x == sep)).splitOn sep = (l.splitOn sep).map (List.filter p)
  | [] => rfl
  | x :: l => by
      have ih := splitOn_filter hsep l
      obtain ⟨part, parts, hs⟩ := List.exists_cons_of_ne_nil (List.splitOn_ne_nil sep l)
      by_cases hx : x = sep
      · subst hx
        have hkeep : (p x || x == x) = true := by rw [beq_self_eq_true, Bool.or_true]
        rw [List.filter_cons, if_pos hkeep, List.splitOn_cons_eq_if_modifyHead,
          List.splitOn_cons_eq_if_modifyHead, if_pos (beq_self_eq_true x),
          if_pos (beq_self_eq_true x), ih]
        rfl
      · have hne : (x == sep) = false := beq_eq_false_iff_ne.mpr hx
        rw [hs, List.map_cons] at ih
        cases hp : p x with
        | true => simp [List.splitOn_cons_eq_if_modifyHead, hne, hp, hs, ih]
        | false => simp [List.splitOn_cons_eq_if_modifyHead, hne, hp, hs, ih]

theorem toList_join_splitWhere (p : Char → Bool) (s : String) :
    (String.join (splitWhere p s)).toList = s.toList.filter (fun c => !p c) := by
  have hid : String.toList ∘ String.ofList = id := funext fun l => String.toList_ofList
  rw [splitWhere, String.toList_join, ← flatten_splitOnP, List.flatMap_def, List.map_map, hid,
    List.map_id]

theorem isEmpty_ofList (l : List Char) : (String.ofList l).isEmpty = decide (l = []) := by
  rw [Bool.eq_iff_iff, String.isEmpty_iff, decide_eq_true_iff, ← String.toList_inj,
    String.toList_ofList]
  rfl

/-- **The numbers are the digit runs of the version.** -/
theorem semverNums_eq (v : String) :
    semverNums v = (Semver.digitRuns v.toList).map String.ofList := by
  have hkeep : (fun c : Char => !(!c.isDigit && c != '.')) = fun c => c.isDigit || c == '.' := by
    funext c
    simp [bne]
  rw [semverNums, Text.split, toList_join_splitWhere, hkeep, splitOn_filter rfl,
    Semver.digitRuns, List.filter_map]
  apply congrArg (List.map String.ofList)
  apply List.filter_congr
  intro part _
  show (!(String.ofList part).isEmpty) = decide (part ≠ [])
  rw [isEmpty_ofList, decide_not]

/-! ## §3  Legal versions -/

/-- No zero in front of other digits. -/
def NoPadding (run : List Char) : Prop := run.head? = some '0' → run = ['0']

/-- The three numbers of the outcome. -/
def semverParts : List (List Char) → List Char × List Char × List Char
  | a :: b :: c :: _ => (a, b, c)
  | [a, b] => (a, b, ['0'])
  | [a] => (a, ['0'], ['0'])
  | [] => (['0'], ['1'], ['0'])

theorem toList_sanitizeSemver (v : String) :
    (sanitizeSemver v).toList = (semverParts (Semver.digitRuns v.toList)).1 ++ '.' ::
      ((semverParts (Semver.digitRuns v.toList)).2.1 ++ '.' ::
        (semverParts (Semver.digitRuns v.toList)).2.2) := by
  rw [sanitizeSemver, semverNums_eq]
  rcases Semver.digitRuns v.toList with _ | ⟨a, _ | ⟨b, _ | ⟨c, runs⟩⟩⟩
  · rfl
  all_goals simp [semverParts]

section Legal

variable {v : String} {core : Semver.Core} {a b c suffix : List Char}

theorem isNumeral_zero : Semver.IsNumeral ['0'] where
  ne_nil := List.cons_ne_nil _ _
  digits := by simp
  noZero _ := rfl

theorem isNumeral_one : Semver.IsNumeral ['1'] where
  ne_nil := List.cons_ne_nil _ _
  digits := by simp
  noZero h := absurd h (by decide)

theorem isNumeral_iff_of_mem {run cs : List Char} (h : run ∈ Semver.digitRuns cs) :
    Semver.IsNumeral run ↔ NoPadding run := by
  obtain ⟨hne, hdigits⟩ := Semver.digitRuns_mem h
  exact ⟨fun hnum => hnum.noZero, fun hpad => ⟨hne, hdigits, hpad⟩⟩

/-- The dots of a core are where the numerals end. -/
theorem parts_of_text_eq (ha : '.' ∉ a) (hb : '.' ∉ b) (hc : '.' ∉ c)
    (h : a ++ '.' :: (b ++ '.' :: c) = core.text) :
    a = core.major ∧ b = core.minor ∧ c = core.patch := by
  have hsplit := congrArg (List.splitOn '.') h
  rw [Semver.Core.text, List.splitOn_append_cons_self, List.splitOn_append_cons_self,
    List.splitOn_append_cons_self, List.splitOn_append_cons_self,
    List.splitOn_eq_singleton ha, List.splitOn_eq_singleton hb, List.splitOn_eq_singleton hc,
    List.splitOn_eq_singleton core.isMajor.dot_notMem,
    List.splitOn_eq_singleton core.isMinor.dot_notMem,
    List.splitOn_eq_singleton core.isPatch.dot_notMem] at hsplit
  simpa using hsplit

theorem dot_notMem_of_mem {run cs : List Char} (h : run ∈ Semver.digitRuns cs) : '.' ∉ run :=
  fun hdot => by
    have hdigit := (Semver.digitRuns_mem h).2 '.' hdot
    cases hdigit

/-- Three texts without dots make a legal version when they are numerals. -/
theorem exists_core_iff (ha : '.' ∉ a) (hb : '.' ∉ b) (hc : '.' ∉ c) :
    (∃ core : Semver.Core, a ++ '.' :: (b ++ '.' :: c) = core.text) ↔
      Semver.IsNumeral a ∧ Semver.IsNumeral b ∧ Semver.IsNumeral c := by
  constructor
  · rintro ⟨core, h⟩
    obtain ⟨rfl, rfl, rfl⟩ := parts_of_text_eq ha hb hc h
    exact ⟨core.isMajor, core.isMinor, core.isPatch⟩
  · rintro ⟨hnumA, hnumB, hnumC⟩
    exact ⟨⟨a, b, c, hnumA, hnumB, hnumC⟩, rfl⟩

theorem legalVersion_iff :
    LegalVersion (sanitizeSemver v) ↔
      ∀ run ∈ (Semver.digitRuns v.toList).take 3, NoPadding run := by
  have hdot : '.' ∉ ['0'] := by decide
  rw [LegalVersion, toList_sanitizeSemver]
  have hmem : ∀ run ∈ Semver.digitRuns v.toList,
      '.' ∉ run ∧ (Semver.IsNumeral run ↔ NoPadding run) :=
    fun run h => ⟨dot_notMem_of_mem h, isNumeral_iff_of_mem h⟩
  revert hmem
  rcases Semver.digitRuns v.toList with _ | ⟨a, _ | ⟨b, _ | ⟨c, runs⟩⟩⟩
  · intro _
    have hone : '.' ∉ ['1'] := by decide
    show (∃ core : Semver.Core, ['0'] ++ '.' :: (['1'] ++ '.' :: ['0']) = core.text) ↔ _
    rw [exists_core_iff hdot hone hdot]
    simp [isNumeral_zero, isNumeral_one]
  · intro hmem
    obtain ⟨hdotA, hnumA⟩ := hmem a (by simp)
    rw [semverParts, exists_core_iff hdotA hdot hdot, hnumA]
    simp [isNumeral_zero]
  · intro hmem
    obtain ⟨hdotA, hnumA⟩ := hmem a (by simp)
    obtain ⟨hdotB, hnumB⟩ := hmem b (by simp)
    rw [semverParts, exists_core_iff hdotA hdotB hdot, hnumA, hnumB]
    simp [isNumeral_zero]
  · intro hmem
    obtain ⟨hdotA, hnumA⟩ := hmem a (by simp)
    obtain ⟨hdotB, hnumB⟩ := hmem b (by simp)
    obtain ⟨hdotC, hnumC⟩ := hmem c (by simp)
    rw [semverParts, exists_core_iff hdotA hdotB hdotC, hnumA, hnumB, hnumC]
    simp

theorem sanitizeSemver_eq_core_iff (h : Semver.HasCore v.toList core suffix) :
    (sanitizeSemver v).toList = core.text ↔
      Semver.digitsOf (suffix.takeWhile (· != '.')) = [] := by
  obtain ⟨runs, hruns⟩ := h.digitRuns
  rw [toList_sanitizeSemver, hruns, semverParts, Semver.Core.text]
  simp

/-- **The version of the crate is legal, and the core of a semantic version, when** none of the
first three numbers is padded with zeros and no digit comes between a core and the first dot
behind it. -/
theorem sanitizeSemver_legal_iff (v : String) :
    (LegalVersion (sanitizeSemver v) ∧ ∀ core suffix, Semver.HasCore v.toList core suffix →
        (sanitizeSemver v).toList = core.text) ↔
      (∀ run ∈ (Semver.digitRuns v.toList).take 3, NoPadding run) ∧
        ∀ core suffix, Semver.HasCore v.toList core suffix →
          Semver.digitsOf (suffix.takeWhile (· != '.')) = [] := by
  rw [legalVersion_iff]
  constructor
  · rintro ⟨hpad, hcore⟩
    exact ⟨hpad, fun core suffix h => (sanitizeSemver_eq_core_iff h).mp (hcore core suffix h)⟩
  · rintro ⟨hpad, hsuffix⟩
    exact ⟨hpad, fun core suffix h => (sanitizeSemver_eq_core_iff h).mpr (hsuffix core suffix h)⟩

end Legal

/-! A release candidate loses its hyphen, and a date keeps its zeros. -/

def firstRelease : Semver.Core where
  major := ['1']
  minor := ['0']
  patch := ['0']
  isMajor := isNumeral_one
  isMinor := isNumeral_zero
  isPatch := isNumeral_zero

theorem sanitizeSemver_candidate :
    Semver.HasCore "1.0.0-rc1".toList firstRelease "-rc1".toList ∧
      (sanitizeSemver "1.0.0-rc1").toList ≠ firstRelease.text ∧
      ¬ LegalVersion (sanitizeSemver "2024.01.15") := by
  refine ⟨⟨⟨[['r', 'c', '1']], [], ?_, by simp, rfl⟩, .inl rfl⟩, by decide, ?_⟩
  · intro x hx
    rw [List.mem_singleton.mp hx]
    exact ⟨⟨by decide, by simp⟩, fun h => absurd (h 'r' (by decide)) (by decide)⟩
  · rw [legalVersion_iff]
    intro h
    have hpad := h ['0', '1'] (by decide) rfl
    cases hpad

end SpecForge.Rust
