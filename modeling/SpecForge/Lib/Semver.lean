import SpecForge.Lib.Text

/-!
# Semantic versions

A version is a core of three numerals, which a pre-release and a build may follow. Texts are lists
of characters.

- §1 the grammar; §2 the digits between the dots of a text.
-/

namespace SpecForge.Lib.Semver

/-! ## §1  The grammar -/

/-- Digits without a zero in front of others. -/
structure IsNumeral (cs : List Char) : Prop where
  ne_nil : cs ≠ []
  digits : ∀ c ∈ cs, c.isDigit = true
  noZero : cs.head? = some '0' → cs = ['0']

structure Core where
  major : List Char
  minor : List Char
  patch : List Char
  isMajor : IsNumeral major
  isMinor : IsNumeral minor
  isPatch : IsNumeral patch

def Core.text (core : Core) : List Char :=
  core.major ++ '.' :: (core.minor ++ '.' :: core.patch)

structure IsIdentifier (cs : List Char) : Prop where
  ne_nil : cs ≠ []
  chars : ∀ c ∈ cs, c.isAlphanum = true ∨ c = '-'

/-- An identifier of digits only is a numeral. -/
structure IsPreRelease (cs : List Char) : Prop extends IsIdentifier cs where
  numeral : (∀ c ∈ cs, c.isDigit = true) → IsNumeral cs

def dotted (mark : Char) (identifiers : List (List Char)) : List Char :=
  if identifiers = [] then [] else mark :: ['.'].intercalate identifiers

/-- What may stand behind a core. -/
def IsSuffix (cs : List Char) : Prop :=
  ∃ pre build : List (List Char), (∀ x ∈ pre, IsPreRelease x) ∧ (∀ x ∈ build, IsIdentifier x) ∧
    cs = dotted '-' pre ++ dotted '+' build

/-- A version with this core, behind an optional `v`. -/
def HasCore (cs : List Char) (core : Core) (suffix : List Char) : Prop :=
  IsSuffix suffix ∧ (cs = core.text ++ suffix ∨ cs = 'v' :: (core.text ++ suffix))

/-! ## §2  Digits between dots -/

def digitsOf (cs : List Char) : List Char := cs.filter Char.isDigit

/-- The digits between the dots, where there are any. -/
def digitRuns (cs : List Char) : List (List Char) :=
  ((cs.splitOn '.').map digitsOf).filter (· ≠ [])

section Digits

variable {cs ds : List Char}

theorem digitsOf_append : digitsOf (cs ++ ds) = digitsOf cs ++ digitsOf ds := List.filter_append ..

theorem digitsOf_eq_self (h : ∀ c ∈ cs, c.isDigit = true) : digitsOf cs = cs :=
  List.filter_eq_self.mpr h

theorem isDigit_of_mem_digitsOf {c : Char} (h : c ∈ digitsOf cs) : c.isDigit = true :=
  (List.mem_filter.mp h).2

theorem digitRuns_of_notMem (h : '.' ∉ cs) (hne : digitsOf cs ≠ []) :
    digitRuns cs = [digitsOf cs] := by
  rw [digitRuns, List.splitOn_eq_singleton h, List.map_singleton]
  simp [hne]

theorem digitRuns_append (cs ds : List Char) :
    digitRuns (cs ++ '.' :: ds) = digitRuns cs ++ digitRuns ds := by
  rw [digitRuns, List.splitOn_append_cons_self, List.map_append, List.filter_append]
  rfl

theorem digitRuns_mem {run : List Char} (h : run ∈ digitRuns cs) :
    run ≠ [] ∧ ∀ c ∈ run, c.isDigit = true := by
  obtain ⟨hrun, hne⟩ := List.mem_filter.mp h
  obtain ⟨part, -, rfl⟩ := List.mem_map.mp hrun
  exact ⟨of_decide_eq_true hne, fun c hc => isDigit_of_mem_digitsOf hc⟩

theorem IsNumeral.dot_notMem (h : IsNumeral cs) : '.' ∉ cs := fun hdot => by
  have hdigit := h.digits '.' hdot
  cases hdigit

/-- A numeral is a run of its own, whatever stands in front of it that is no digit. -/
theorem IsNumeral.digitRuns (h : IsNumeral cs) (hpre : '.' ∉ ds) (hds : digitsOf ds = []) :
    digitRuns (ds ++ cs) = [cs] := by
  have hself : digitsOf (ds ++ cs) = cs := by
    rw [digitsOf_append, hds, List.nil_append, digitsOf_eq_self h.digits]
  rw [digitRuns_of_notMem, hself]
  · rw [List.mem_append, not_or]
    exact ⟨hpre, h.dot_notMem⟩
  · rw [hself]
    exact h.ne_nil

/-- What stands in front of the first dot of a suffix goes with the last numeral. -/
theorem IsNumeral.digitRuns_append (h : IsNumeral cs) (suffix : List Char) :
    ∃ runs, Semver.digitRuns (cs ++ suffix) =
      (cs ++ digitsOf (suffix.takeWhile (· != '.'))) :: runs := by
  have hrun : ∀ {ds : List Char}, '.' ∉ ds →
      Semver.digitRuns (cs ++ ds) = [cs ++ digitsOf ds] := by
    intro ds hds
    have hdigits : digitsOf (cs ++ ds) = cs ++ digitsOf ds := by
      rw [digitsOf_append, digitsOf_eq_self h.digits]
    rw [digitRuns_of_notMem, hdigits]
    · rw [List.mem_append, not_or]
      exact ⟨h.dot_notMem, hds⟩
    · rw [hdigits]
      exact List.append_ne_nil_of_left_ne_nil h.ne_nil _
  by_cases hdot : '.' ∈ suffix
  · obtain ⟨front, rest, rfl, hfront⟩ := List.eq_append_cons_of_mem hdot
    have hself : (front ++ '.' :: rest).takeWhile (· != '.') = front := by
      rw [Text.takeWhile_bne_append_cons, List.takeWhile_eq_self_iff]
      intro c hc
      exact bne_iff_ne.mpr fun heq => hfront (heq ▸ hc)
    rw [hself, ← List.append_assoc, Semver.digitRuns_append, hrun hfront]
    exact ⟨_, rfl⟩
  · have hself : suffix.takeWhile (· != '.') = suffix := by
      rw [List.takeWhile_eq_self_iff]
      intro c hc
      exact bne_iff_ne.mpr fun heq => hdot (heq ▸ hc)
    rw [hself, hrun hdot]
    exact ⟨[], rfl⟩

/-- **The runs of a version start with its core**, but for the digits up to the first dot behind
it, which go with the patch number. -/
theorem HasCore.digitRuns {core : Core} {suffix : List Char} (h : HasCore cs core suffix) :
    ∃ runs, Semver.digitRuns cs = core.major :: core.minor ::
      (core.patch ++ digitsOf (suffix.takeWhile (· != '.'))) :: runs := by
  obtain ⟨runs, hruns⟩ := core.isPatch.digitRuns_append suffix
  have hmajor : ∀ {front : List Char}, '.' ∉ front → digitsOf front = [] →
      Semver.digitRuns (front ++ core.major ++ '.' ::
          (core.minor ++ '.' :: (core.patch ++ suffix))) =
        core.major :: core.minor ::
          (core.patch ++ digitsOf (suffix.takeWhile (· != '.'))) :: runs := by
    intro front hdot hfront
    have hminor : Semver.digitRuns core.minor = [core.minor] :=
      core.isMinor.digitRuns List.not_mem_nil rfl
    rw [Semver.digitRuns_append, core.isMajor.digitRuns hdot hfront, Semver.digitRuns_append,
      hminor, hruns]
    rfl
  have htext : core.text ++ suffix =
      core.major ++ '.' :: (core.minor ++ '.' :: (core.patch ++ suffix)) := by
    simp only [Core.text, List.append_assoc, List.cons_append]
  refine ⟨runs, ?_⟩
  rcases h.2 with rfl | rfl
  · rw [htext]
    exact hmajor List.not_mem_nil rfl
  · have hv : '.' ∉ ['v'] := by decide
    rw [htext]
    exact hmajor hv rfl

end Digits

end SpecForge.Lib.Semver
