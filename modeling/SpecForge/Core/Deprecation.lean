import SpecForge.Lib.Lowercase
import SpecForge.Rust.Sse

/-!
# Suggested alternatives (`deprecation.rs`)

A phrase is searched for in a lowercased copy of the text, and the alternative is cut out of the text
itself. The positions of the copy are not always those of the text.

- §1 the search. §2 what an alternative is.
- §3 what is taken behind a phrase. §4 when that is the alternative.
-/

namespace SpecForge.Deprecation

open Lib
open Lib.ByteSlices
open Rust (isWhitespace)

/-! ## §1  The search -/

inductive Phrase where
  | useInstead
  | replacedBy
  | replacedWith
  | migrateTo

def Phrase.pattern : Phrase → List Char
  | .useInstead => "use ".toList
  | .replacedBy => "replaced by ".toList
  | .replacedWith => "replaced with ".toList
  | .migrateTo => "migrate to ".toList

/-- The phrases in the order in which they are tried. -/
def phrases : List Phrase := [.useInstead, .replacedBy, .replacedWith, .migrateTo]

def instead : List Char := " instead".toList

def isStop (c : Char) : Bool := c == '.' || c == ',' || c == '\n' || c == ';'

section

variable (t : CaseTable)

/-- A position in the lowercased copy is taken to one in the text: that of the character with the same
number. -/
def lowerToText (text : List Char) (lowerPos : ℕ) : ℕ :=
  ((((charIndices 0 text).zip (charIndices 0 (t.toLowercase text))).find? fun p =>
    decide (lowerPos ≤ p.2.1)).map fun p => p.1.1).getD (byteLen text)

/-- Where the alternative ends behind the phrase. -/
def Phrase.stop (after : List Char) : Phrase → Option ℕ
  | .useInstead => find instead (t.toLowercase after)
  | _ => some ((findChar isStop after).getD (byteLen after))

/-- The alternative in the text behind a phrase. Without a value a slice does not exist, and the
program panics. -/
def alternativeIn (p : Phrase) (after : Slice) : Option (Option Slice) :=
  match p.stop t after.chars with
  | none => some none
  | some stop => (after.upTo stop).map fun part =>
      let alt := part.trim isWhitespace
      if alt.chars.isEmpty then none else some alt

/-- The search for one phrase. -/
def attempt (text : List Char) (p : Phrase) : Option (Option Slice) :=
  match find p.pattern (t.toLowercase text) with
  | none => some none
  | some pos =>
      (Slice.from ⟨[], text⟩ (lowerToText t text (pos + byteLen p.pattern))).bind
        (alternativeIn t p)

def searchFrom (text : List Char) : List Phrase → Option (Option (Phrase × Slice))
  | [] => some none
  | p :: ps => (attempt t text p).bind fun
      | some alt => some (some (p, alt))
      | none => searchFrom text ps

def search (text : List Char) : Option (Option (Phrase × Slice)) := searchFrom t text phrases

def extractAlternative (text : String) : Option (Option String) :=
  (search t text.toList).map fun found => found.map fun f => String.ofList f.2.chars

/-! ## §2  Alternatives -/

/-- The first piece of the text that reads like the phrase, but for the case. -/
structure Found (text : List Char) (p : Phrase) (before phrase rest : List Char) : Prop where
  length : phrase.length = p.pattern.length
  first : First (t.StartsLike p.pattern) text before (phrase ++ rest)

/-- What stands behind the phrase in front of its terminator. -/
def Bounds (p : Phrase) (rest part : List Char) : Prop :=
  match p with
  | .useInstead => ∃ tail, First (t.StartsLike instead) rest part tail
  | _ => part = rest.takeWhile fun c => !isStop c

/-- The part of the text between the phrase and its terminator, without the blanks around it. -/
def Between (text : List Char) (p : Phrase) (alt : Slice) : Prop :=
  ∃ before phrase rest part, Found t text p before phrase rest ∧ Bounds t p rest part ∧
    alt = Slice.trim isWhitespace ⟨before ++ phrase, part⟩

/-- No slice fails, and what is returned is what stands between the phrase that was matched and its
terminator. -/
def Extracts (text : String) : Prop :=
  ∃ found, search t text.toList = some found ∧
    extractAlternative t text = some (found.map fun f => String.ofList f.2.chars) ∧
    ∀ p alt, found = some (p, alt) → Between t text.toList p alt

/-! ## §3  What is taken -/

/-- So many bytes are taken for the part: those of its lowercase for `use … instead`. -/
def Phrase.size (part : List Char) : Phrase → ℕ
  | .useInstead => t.lowerLen part
  | _ => byteLen part

/-- What is taken is blank, so that nothing is suggested for the phrase. -/
def TakesBlank (p : Phrase) (behind : List Char) : Prop :=
  ∀ part, Bounds t p behind part →
    ∃ taken, taken <+: behind ∧ byteLen taken = p.size t part ∧ Blank isWhitespace taken

/-- What is taken is the part, but for blanks: the terminator is not in what is skipped, and the
number of bytes is that of the part, or one more, or less by blanks at its end. -/
def TakesPart (p : Phrase) (skipped behind : List Char) : Prop :=
  Blank isWhitespace skipped ∧ ∀ part, Bounds t p behind part →
    Bounds t p (skipped ++ behind) (skipped ++ part) ∧
    (p.size t part = byteLen part + 1 ∨ ∃ taken piece, part = taken ++ piece ∧
      Blank isWhitespace piece ∧ p.size t part = byteLen taken)

/-- As many characters are skipped behind the phrase as there are `İ` in front of it. -/
def Silent (text : List Char) (p : Phrase) : Prop :=
  ∀ before phrase rest, Found t text p before phrase rest →
    TakesBlank t p (rest.drop (before.count 'İ'))

def Exact (text : List Char) (p : Phrase) : Prop :=
  ∀ before phrase rest, Found t text p before phrase rest →
    TakesPart t p (rest.take (before.count 'İ')) (rest.drop (before.count 'İ'))

end

section

variable {t : CaseTable} {p : Phrase}

theorem keyword_pattern (p : Phrase) : CaseTable.Keyword p.pattern := by
  cases p <;> decide

theorem keyword_instead : CaseTable.Keyword instead := by decide

theorem stop_eq_some_iff {behind : List Char} {n : ℕ} :
    p.stop t behind = some n ↔ ∃ part, Bounds t p behind part ∧ n = p.size t part := by
  have hstop : some ((findChar isStop behind).getD (byteLen behind)) = some n ↔
      ∃ part, (part = behind.takeWhile fun c => !isStop c) ∧ n = byteLen part := by
    rw [findChar_getD, Option.some.injEq, exists_eq_left, eq_comm]
  cases p with
  | useInstead =>
      refine (CaseTable.find_eq_some_iff keyword_instead).trans ?_
      constructor
      · rintro ⟨part, tail, hfirst, rfl⟩
        exact ⟨part, ⟨tail, hfirst⟩, rfl⟩
      · rintro ⟨part, ⟨tail, hfirst⟩, rfl⟩
        exact ⟨part, tail, hfirst, rfl⟩
  | _ => exact hstop

/-- The position in the text is that of the character with the same number. -/
theorem getD_find?_charIndices : ∀ (text lowered rest : List Char) (i j : ℕ),
    text.length ≤ lowered.length + rest.length →
    ((((charIndices i text).zip (charIndices j (lowered ++ rest))).find? fun p =>
      decide (j + byteLen lowered ≤ p.2.1)).map fun p => p.1.1).getD (i + byteLen text) =
        i + byteLen (text.take lowered.length)
  | [], lowered, rest, i, j, _ => by rw [List.take_nil]; rfl
  | c :: text, [], [], i, j, h => absurd h (Nat.not_succ_le_zero _)
  | c :: text, [], d :: rest, i, j, _ => by
      simp [charIndices]
  | c :: text, d :: lowered, rest, i, j, h => by
      have hpos := d.utf8Size_pos
      have ih := getD_find?_charIndices text lowered rest (i + c.utf8Size) (j + d.utf8Size)
        (by simpa [Nat.succ_add] using h)
      have hlt : ¬ j + (d.utf8Size + byteLen lowered) ≤ j := by omega
      simp only [List.cons_append, charIndices, List.zip_cons_cons, List.find?_cons, byteLen_cons,
        decide_eq_false hlt, List.length_cons, List.take_succ_cons]
      rw [← Nat.add_assoc, ← Nat.add_assoc, ← Nat.add_assoc]
      exact ih

theorem lowerToText_append {front rest lowered : List Char}
    (h : t.toLowercase (front ++ rest) = lowered ++ t.toLowercaseFrom front rest) :
    lowerToText t (front ++ rest) (byteLen lowered) =
      byteLen ((front ++ rest).take lowered.length) := by
  have hlength : (front ++ rest).length ≤
      lowered.length + (t.toLowercaseFrom front rest).length := by
    obtain ⟨lowered', heq, hlen, -⟩ := CaseTable.toLowercaseFrom_append (t := t) [] []
      (front ++ rest)
    rw [List.append_nil] at heq
    have h' := congrArg List.length (heq.symm.trans h)
    simp only [CaseTable.toLowercaseFrom, List.append_nil, List.length_append] at h' hlen ⊢
    omega
  have hfind := getD_find?_charIndices (front ++ rest) lowered (t.toLowercaseFrom front rest) 0 0
    hlength
  rw [lowerToText, h]
  simpa only [Nat.zero_add] using hfind

/-- Behind the phrase as many characters are skipped as there are `İ` in front of it. -/
theorem attempt_of_found {text before phrase rest : List Char}
    (h : Found t text p before phrase rest) : attempt t text p = alternativeIn t p
      ⟨before ++ phrase ++ rest.take (before.count 'İ'), rest.drop (before.count 'İ')⟩ := by
  obtain ⟨phrase', rest', heq, hlength, hdotted, hbytes⟩ := h.first.holds.exists_phrase
  obtain ⟨rfl, rfl⟩ := List.append_inj heq (h.length.trans hlength.symm)
  have htext : text = before ++ phrase ++ rest := by rw [h.first.eq, List.append_assoc]
  have hfind : find p.pattern (t.toLowercase text) = some (t.lowerLen before) :=
    CaseTable.find_of_first (keyword_pattern p) h.first
  obtain ⟨lowered, hlowered, hchars, hlen⟩ :=
    CaseTable.toLowercaseFrom_append (t := t) rest [] (before ++ phrase)
  rw [CaseTable.lowerLen_append, hbytes] at hlen
  rw [List.count_append, List.count_eq_zero.mpr hdotted, Nat.add_zero] at hchars
  have htake : (before ++ phrase ++ rest).take lowered.length =
      before ++ phrase ++ rest.take (before.count 'İ') := by
    rw [hchars, List.take_length_add_append]
  have hsplit : before ++ phrase ++ rest = before ++ phrase ++ rest.take (before.count 'İ') ++
      rest.drop (before.count 'İ') := by
    rw [List.append_assoc _ (rest.take _), List.take_append_drop]
  have hfrom := Slice.from_append [] (before ++ phrase ++ rest.take (before.count 'İ'))
    (rest.drop (before.count 'İ'))
  rw [attempt, hfind]
  dsimp only
  rw [htext, ← hlen, lowerToText_append hlowered, htake]
  nth_rewrite 1 [hsplit]
  rw [hfrom, Option.bind_some, List.nil_append]

theorem attempt_of_not_found {text : List Char}
    (h : ∀ before phrase rest, ¬ Found t text p before phrase rest) :
    attempt t text p = some none := by
  have hnone : find p.pattern (t.toLowercase text) = none := by
    rcases exists_first_or_forall (t.StartsLike p.pattern) text with ⟨before, rest, hfirst⟩ | hnone
    · obtain ⟨phrase, rest, rfl, hlength, -⟩ := hfirst.holds.exists_phrase
      exact absurd ⟨hlength, hfirst⟩ (h before phrase rest)
    · exact CaseTable.find_eq_none (keyword_pattern p) hnone
  rw [attempt, hnone]

/-! ## §4  The alternative -/

theorem Bounds.unique {behind part part' : List Char} (h : Bounds t p behind part)
    (h' : Bounds t p behind part') : part = part' := by
  cases p with
  | useInstead =>
      obtain ⟨tail, hfirst⟩ := h
      obtain ⟨tail', hfirst'⟩ := h'
      exact (hfirst.unique hfirst').1
  | _ => exact Eq.trans h (Eq.symm h')

theorem Bounds.isPrefix {behind part : List Char} (h : Bounds t p behind part) :
    part <+: behind := by
  cases p with
  | useInstead =>
      obtain ⟨tail, hfirst⟩ := h
      exact ⟨tail, hfirst.eq.symm⟩
  | _ =>
      rw [show part = _ from h]
      exact List.takeWhile_prefix _

/-- What bounds a text bounds it without a piece of the part. -/
theorem Bounds.of_append {skipped behind part : List Char}
    (h : Bounds t p (skipped ++ behind) (skipped ++ part)) : Bounds t p behind part := by
  have hstop : skipped ++ part = ((skipped ++ behind).takeWhile fun c => !isStop c) →
      part = behind.takeWhile fun c => !isStop c := by
    intro heq
    have hskipped : ∀ c ∈ skipped, (!isStop c) = true := by
      intro c hc
      have hmem : c ∈ skipped ++ part := List.mem_append_left _ hc
      rw [heq] at hmem
      exact List.mem_takeWhile_imp (p := fun c => !isStop c) hmem
    rw [List.takeWhile_append_of_pos hskipped] at heq
    exact List.append_cancel_left heq
  cases p with
  | useInstead =>
      obtain ⟨tail, hfirst⟩ := h
      exact ⟨tail, ((first_append_iff skipped).mp hfirst).1⟩
  | _ => exact hstop h

theorem alternativeIn_eq_none_iff {start behind : List Char} :
    alternativeIn t p ⟨start, behind⟩ = some none ↔ TakesBlank t p behind := by
  unfold alternativeIn
  rcases hstop : p.stop t behind with _ | n
  · refine iff_of_true rfl fun part hpart => ?_
    have hsome := stop_eq_some_iff.mpr ⟨part, hpart, rfl⟩
    rw [hstop] at hsome
    cases hsome
  · obtain ⟨part, hpart, rfl⟩ := stop_eq_some_iff.mp hstop
    dsimp only
    rw [Option.map_eq_some_iff]
    constructor
    · rintro ⟨⟨before, taken⟩, hup, hblank⟩ part' hpart'
      obtain rfl := hpart.unique hpart'
      obtain ⟨-, hpre, hlen⟩ := Slice.upTo_eq_some_iff.mp hup
      refine ⟨taken, hpre, hlen, ?_⟩
      split at hblank
      · next hempty => exact trim_chars_eq_nil_iff.mp (List.isEmpty_iff.mp hempty)
      · cases hblank
    · intro h
      obtain ⟨taken, hpre, hlen, hblank⟩ := h part hpart
      refine ⟨⟨start, taken⟩, Slice.upTo_eq_some_iff.mpr ⟨rfl, hpre, hlen⟩, if_pos ?_⟩
      exact List.isEmpty_iff.mpr (trim_chars_eq_nil_iff.mpr hblank)

theorem alternativeIn_eq_some_iff {start behind : List Char} {alt : Slice} :
    alternativeIn t p ⟨start, behind⟩ = some (some alt) ↔
      ∃ part taken, Bounds t p behind part ∧ taken <+: behind ∧ byteLen taken = p.size t part ∧
        ¬ Blank isWhitespace taken ∧ alt = Slice.trim isWhitespace ⟨start, taken⟩ := by
  unfold alternativeIn
  constructor
  · intro h
    rcases hstop : p.stop t behind with _ | n
    · rw [hstop] at h
      cases h
    · rw [hstop] at h
      obtain ⟨part, hpart, rfl⟩ := stop_eq_some_iff.mp hstop
      obtain ⟨⟨before, taken⟩, hup, hsome⟩ := Option.map_eq_some_iff.mp h
      obtain ⟨rfl, hpre, hlen⟩ := Slice.upTo_eq_some_iff.mp hup
      dsimp only at hsome
      split at hsome
      · cases hsome
      · next hne =>
          refine ⟨part, taken, hpart, hpre, hlen, fun hblank => hne ?_, (Option.some.inj hsome).symm⟩
          exact List.isEmpty_iff.mpr (trim_chars_eq_nil_iff.mpr hblank)
  · rintro ⟨part, taken, hpart, hpre, hlen, hne, rfl⟩
    rw [stop_eq_some_iff.mpr ⟨part, hpart, rfl⟩]
    refine Option.map_eq_some_iff.mpr
      ⟨⟨start, taken⟩, Slice.upTo_eq_some_iff.mpr ⟨rfl, hpre, hlen⟩, if_neg fun hempty => hne ?_⟩
    exact trim_chars_eq_nil_iff.mp (List.isEmpty_iff.mp hempty)

/-- The terminator of `use` starts with a space, and goes on with what is no blank. -/
theorem startsLike_instead {tail : List Char} (h : t.StartsLike instead tail) :
    ∃ c rest, tail = ' ' :: c :: rest ∧ isWhitespace c = false := by
  have hinstead : instead = ' ' :: 'i' :: "nstead".toList := rfl
  have hspace : ∀ n < 128, (Char.ofNat n).toLower = ' ' → Char.ofNat n = ' ' := by decide
  have hletter : ∀ n < 128, (Char.ofNat n).toLower = 'i' → isWhitespace (Char.ofNat n) = false := by
    decide
  rw [hinstead] at h
  cases tail with
  | nil => cases h
  | cons c tail =>
      obtain ⟨-, -, hc, h⟩ := h
      cases tail with
      | nil => cases h
      | cons d rest =>
          obtain ⟨-, -, hd, -⟩ := h
          obtain ⟨hc128, hc⟩ := CaseTable.toLower_of_lower hc (by decide) (by decide)
          obtain ⟨hd128, hd⟩ := CaseTable.toLower_of_lower hd (by decide) (by decide)
          rw [← Char.ofNat_toNat c] at hc
          rw [← Char.ofNat_toNat d] at hd
          have hc' := hspace c.toNat hc128 hc
          have hd' := hletter d.toNat hd128 hd
          rw [Char.ofNat_toNat] at hc' hd'
          exact ⟨d, rest, by rw [hc'], hd'⟩

theorem blank_space : Blank isWhitespace [' '] := by
  intro c hc
  rw [List.mem_singleton.mp hc]
  rfl

/-- The number of bytes is right if what is taken is the part, or differs from it by blanks. -/
theorem size_iff {behind part : List Char} (hpart : Bounds t p behind part) :
    (p.size t part = byteLen part + 1 ∨ ∃ taken piece, part = taken ++ piece ∧
      Blank isWhitespace piece ∧ p.size t part = byteLen taken) ↔
    ∃ taken, taken <+: behind ∧ byteLen taken = p.size t part ∧
      ∃ piece, Blank isWhitespace piece ∧ (taken = part ++ piece ∨ part = taken ++ piece) := by
  constructor
  · rintro (hsize | ⟨taken, piece, rfl, hblank, hsize⟩)
    · cases p with
      | useInstead =>
          obtain ⟨tail, hfirst⟩ := hpart
          obtain ⟨c, rest, rfl, -⟩ := startsLike_instead hfirst.holds
          refine ⟨part ++ [' '], ⟨c :: rest, ?_⟩, ?_, [' '], blank_space, Or.inl rfl⟩
          · rw [hfirst.eq, List.append_assoc]
            rfl
          · rw [byteLen_append, hsize]
            rfl
      | _ => exact absurd hsize (Nat.ne_of_lt (Nat.lt_succ_self _))
    · have hpre : taken <+: taken ++ piece := List.prefix_append taken piece
      exact ⟨taken, hpre.trans hpart.isPrefix, hsize.symm, piece, hblank, Or.inr rfl⟩
  · rintro ⟨taken, hpre, hlen, piece, hblank, rfl | rfl⟩
    · cases p with
      | useInstead =>
          obtain ⟨tail, hfirst⟩ := hpart
          obtain ⟨c, rest, rfl, hc⟩ := startsLike_instead hfirst.holds
          rw [hfirst.eq, List.prefix_append_right_inj] at hpre
          rw [← hlen]
          cases piece with
          | nil =>
              right
              exact ⟨part, [], (List.append_nil part).symm, nofun, by rw [List.append_nil]⟩
          | cons d piece =>
              obtain ⟨rfl, hrest⟩ := List.cons_prefix_cons.mp hpre
              cases piece with
              | nil =>
                  left
                  rw [byteLen_append]
                  rfl
              | cons e piece =>
                  obtain ⟨rfl, -⟩ := List.cons_prefix_cons.mp hrest
                  have he := hblank e (List.mem_cons_of_mem _ List.mem_cons_self)
                  rw [hc] at he
                  cases he
      | _ =>
          right
          exact ⟨part, [], (List.append_nil part).symm, nofun, rfl⟩
    · exact Or.inr ⟨taken, piece, rfl, hblank, hlen.symm⟩

theorem Found.unique {text before phrase rest before' phrase' rest' : List Char}
    (h : Found t text p before phrase rest) (h' : Found t text p before' phrase' rest') :
    before = before' ∧ phrase = phrase' ∧ rest = rest' := by
  obtain ⟨hbefore, heq⟩ := h.first.unique h'.first
  exact ⟨hbefore, List.append_inj heq (h.length.trans h'.length.symm)⟩

theorem between_iff {text before phrase rest : List Char} (h : Found t text p before phrase rest)
    {alt : Slice} : Between t text p alt ↔
      ∃ part, Bounds t p rest part ∧ alt = Slice.trim isWhitespace ⟨before ++ phrase, part⟩ := by
  constructor
  · rintro ⟨before', phrase', rest', part, h', hpart, rfl⟩
    obtain ⟨rfl, rfl, rfl⟩ := h.unique h'
    exact ⟨part, hpart, rfl⟩
  · rintro ⟨part, hpart, rfl⟩
    exact ⟨before, phrase, rest, part, h, hpart, rfl⟩

/-- What is taken behind a phrase is the alternative if it is the part, but for blanks. -/
theorem alternativeIn_between_iff {text before phrase skipped behind : List Char}
    (h : Found t text p before phrase (skipped ++ behind)) (hblank : ¬ TakesBlank t p behind) :
    (∃ alt, alternativeIn t p ⟨before ++ phrase ++ skipped, behind⟩ = some (some alt) ∧
      Between t text p alt) ↔ TakesPart t p skipped behind := by
  simp only [alternativeIn_eq_some_iff, between_iff h]
  constructor
  · rintro ⟨alt, ⟨part, taken, hpart, hpre, hlen, hne, rfl⟩, whole, hwhole, heq⟩
    obtain ⟨hskipped, rest, rfl, hsame⟩ := trim_start_iff.mp heq.symm
    obtain rfl := hpart.unique hwhole.of_append
    refine ⟨hskipped, fun part' hpart' => ?_⟩
    obtain rfl := hpart.unique hpart'
    have hcomparable := List.prefix_or_prefix_of_prefix hpart.isPrefix hpre
    exact ⟨hwhole, (size_iff hpart).mpr ⟨taken, hpre, hlen, (trim_eq_iff hne hcomparable).mp hsame⟩⟩
  · rintro ⟨hskipped, hparts⟩
    obtain ⟨part, hpart, hnone⟩ : ∃ part, Bounds t p behind part ∧ ∀ taken, taken <+: behind →
        byteLen taken = p.size t part → ¬ Blank isWhitespace taken := by
      by_contra hall
      apply hblank
      intro part hpart
      by_contra hnone
      exact hall ⟨part, hpart, fun taken hpre hlen htaken => hnone ⟨taken, hpre, hlen, htaken⟩⟩
    obtain ⟨hwhole, hsize⟩ := hparts part hpart
    obtain ⟨taken, hpre, hlen, hpiece⟩ := (size_iff hpart).mp hsize
    have hne := hnone taken hpre hlen
    have hcomparable := List.prefix_or_prefix_of_prefix hpart.isPrefix hpre
    refine ⟨_, ⟨part, taken, hpart, hpre, hlen, hne, rfl⟩, skipped ++ part, hwhole, ?_⟩
    rw [trim_append_left hskipped]
    exact ((trim_eq_iff hne hcomparable).mpr hpiece).symm

theorem attempt_eq_none_iff {text : List Char} :
    attempt t text p = some none ↔ Silent t text p := by
  constructor
  · intro h before phrase rest hfound
    rw [attempt_of_found hfound] at h
    exact alternativeIn_eq_none_iff.mp h
  · intro h
    by_cases hfound : ∃ before phrase rest, Found t text p before phrase rest
    · obtain ⟨before, phrase, rest, hfound⟩ := hfound
      rw [attempt_of_found hfound]
      exact alternativeIn_eq_none_iff.mpr (h before phrase rest hfound)
    · apply attempt_of_not_found
      intro before phrase rest h'
      exact hfound ⟨before, phrase, rest, h'⟩

theorem attempt_between_iff {text : List Char} (hsilent : ¬ Silent t text p) :
    (∃ alt, attempt t text p = some (some alt) ∧ Between t text p alt) ↔ Exact t text p := by
  obtain ⟨before, phrase, rest, hfound, hblank⟩ : ∃ before phrase rest,
      Found t text p before phrase rest ∧ ¬ TakesBlank t p (rest.drop (before.count 'İ')) := by
    by_contra hall
    apply hsilent
    intro before phrase rest hfound
    by_contra hblank
    exact hall ⟨before, phrase, rest, hfound, hblank⟩
  rw [attempt_of_found hfound]
  have hsplit := hfound
  rw [← List.take_append_drop (before.count 'İ') rest] at hsplit
  rw [alternativeIn_between_iff hsplit hblank]
  constructor
  · intro h before' phrase' rest' hfound'
    obtain ⟨rfl, rfl, rfl⟩ := hfound.unique hfound'
    exact h
  · exact fun h => h before phrase rest hfound

/-- The search goes on to the first phrase that is not silent, and no further. -/
theorem searchFrom_between_iff (t : CaseTable) (text : List Char) : ∀ ps : List Phrase,
    (∃ found, searchFrom t text ps = some found ∧
      ∀ p alt, found = some (p, alt) → Between t text p alt) ↔
    ∀ earlier p later, ps = earlier ++ p :: later → (∀ q ∈ earlier, Silent t text q) →
      Silent t text p ∨ Exact t text p
  | [] => by
      refine iff_of_true ⟨none, rfl, nofun⟩ fun earlier p later h => ?_
      exact absurd h.symm (by simp)
  | p :: ps => by
      have ih := searchFrom_between_iff t text ps
      by_cases hsilent : Silent t text p
      · have hstep : searchFrom t text (p :: ps) = searchFrom t text ps := by
          rw [searchFrom, attempt_eq_none_iff.mpr hsilent]
          rfl
        rw [hstep, ih]
        constructor
        · intro h earlier q later heq hearlier
          cases earlier with
          | nil =>
              obtain ⟨rfl, -⟩ := List.cons.inj heq
              exact Or.inl hsilent
          | cons r earlier =>
              rw [List.forall_mem_cons] at hearlier
              exact h earlier q later (List.cons.inj heq).2 hearlier.2
        · intro h earlier q later heq hearlier
          apply h (p :: earlier) q later (congrArg (p :: ·) heq)
          exact List.forall_mem_cons.mpr ⟨hsilent, hearlier⟩
      · have hexact : (∃ found, searchFrom t text (p :: ps) = some found ∧
            ∀ q alt, found = some (q, alt) → Between t text q alt) ↔ Exact t text p := by
          rw [← attempt_between_iff hsilent]
          constructor
          · rintro ⟨found, hfound, hbetween⟩
            obtain ⟨_ | alt, hattempt, hnext⟩ := Option.bind_eq_some_iff.mp hfound
            · exact absurd (attempt_eq_none_iff.mp hattempt) hsilent
            · exact ⟨alt, hattempt, hbetween p alt (Option.some.inj hnext).symm⟩
          · rintro ⟨alt, hattempt, hbetween⟩
            refine ⟨some (p, alt), ?_, ?_⟩
            · rw [searchFrom, hattempt]
              rfl
            · rintro q alt' ⟨⟩
              exact hbetween
        rw [hexact]
        constructor
        · intro h earlier q later heq hearlier
          cases earlier with
          | nil =>
              obtain ⟨rfl, -⟩ := List.cons.inj heq
              exact Or.inr h
          | cons r earlier =>
              obtain ⟨rfl, -⟩ := List.cons.inj heq
              exact absurd (hearlier p List.mem_cons_self) hsilent
        · exact fun h => (h [] p ps rfl nofun).resolve_left hsilent

/-- **The function cuts out what stands between a phrase and its terminator, without a slice that
fails, if and only if what it takes behind the first phrase for which it takes more than blanks is
that part**, but for blanks. -/
theorem extracts_iff (t : CaseTable) (text : String) : Extracts t text ↔
    ∀ earlier p later, phrases = earlier ++ p :: later →
      (∀ q ∈ earlier, Silent t text.toList q) →
      Silent t text.toList p ∨ Exact t text.toList p := by
  rw [← searchFrom_between_iff]
  constructor
  · rintro ⟨found, hsearch, -, hbetween⟩
    exact ⟨found, hsearch, hbetween⟩
  · rintro ⟨found, hsearch, hbetween⟩
    refine ⟨found, hsearch, ?_, hbetween⟩
    rw [extractAlternative, search, hsearch]
    rfl

example : extractAlternative CaseTable.ascii "Deprecated. Use newApi instead." =
    some (some "newApi") := by
  decide +kernel

/-- Two Kelvin signs take six bytes, and two in lowercase. -/
theorem kelvin_panics : ¬ ∀ (t : CaseTable) (text : String), Extracts t text := by
  intro h
  obtain ⟨found, hsearch, -⟩ := h CaseTable.ascii "use \u212A\u212A instead"
  have hnone : search CaseTable.ascii "use \u212A\u212A instead".toList = none := by rfl
  rw [hnone] at hsearch
  cases hsearch

end

end SpecForge.Deprecation
