import Mathlib.Algebra.BigOperators.Group.List.Basic
import Mathlib.Algebra.Ring.Nat
import Mathlib.Data.List.DropRight
import Mathlib.Data.List.Infix

/-!
# Slices of a text, by bytes

Positions in a text are numbers of bytes in UTF-8, and a text can be cut between characters only. A
slice knows what stands before it, so that equal slices are the same part of a text.

- §1 first places; §2 bytes, and places found by them.
- §3 slices; §4 slices without blanks around them.
-/

namespace SpecForge.Lib.ByteSlices

/-! ## §1  First places -/

section First

universe u

variable {α : Type u}

/-- `before` is the least that can be taken off so that `P` holds of the rest. -/
structure First (P : List α → Prop) (s before rest : List α) : Prop where
  eq : s = before ++ rest
  holds : P rest
  least : ∀ before' rest', s = before' ++ rest' → P rest' → before.length ≤ before'.length

variable {P : List α → Prop} {s before before' rest rest' : List α}

theorem First.unique (h : First P s before rest) (h' : First P s before' rest') :
    before = before' ∧ rest = rest' := by
  have hlength := Nat.le_antisymm (h.least _ _ h'.eq h'.holds) (h'.least _ _ h.eq h.holds)
  exact List.append_inj (h.eq.symm.trans h'.eq) hlength

theorem first_nil (h : P s) : First P s [] s :=
  ⟨rfl, h, fun _ _ _ _ => Nat.zero_le _⟩

theorem First.cons {a : α} (ha : ¬ P (a :: s)) (h : First P s before rest) :
    First P (a :: s) (a :: before) rest := by
  refine ⟨congrArg (a :: ·) h.eq, h.holds, fun before' rest' heq hP => ?_⟩
  cases before' with
  | nil =>
      rw [List.nil_append] at heq
      rw [← heq] at hP
      exact absurd hP ha
  | cons b before' =>
      obtain ⟨-, rfl⟩ := List.cons.inj heq
      exact Nat.succ_le_succ (h.least before' rest' rfl hP)

theorem exists_first_or_forall (P : List α → Prop) : ∀ s : List α,
    (∃ before rest, First P s before rest) ∨ ∀ before rest, s = before ++ rest → ¬ P rest
  | [] => by
      by_cases h : P []
      · exact Or.inl ⟨_, _, first_nil h⟩
      · right
        intro before rest heq
        rw [(List.append_eq_nil_iff.mp heq.symm).2]
        exact h
  | a :: s => by
      by_cases h : P (a :: s)
      · exact Or.inl ⟨_, _, first_nil h⟩
      · rcases exists_first_or_forall P s with ⟨before, rest, hfirst⟩ | hnone
        · exact Or.inl ⟨_, _, hfirst.cons h⟩
        · right
          intro before rest heq
          cases before with
          | nil =>
              rw [List.nil_append] at heq
              rwa [← heq]
          | cons b before => exact hnone before rest (List.cons.inj heq).2

/-- A place behind a piece is the first one if it is so without the piece, and none is in it. -/
theorem first_append_iff (piece : List α) : First P (piece ++ s) (piece ++ before) rest ↔
    First P s before rest ∧ ∀ j < piece.length, ¬ P ((piece ++ s).drop j) := by
  constructor
  · intro h
    refine ⟨⟨?_, h.holds, fun before' rest' heq hP => ?_⟩, fun j hj hP => ?_⟩
    · have heq := h.eq
      rwa [List.append_assoc, List.append_cancel_left_eq] at heq
    · have hle := h.least (piece ++ before') rest' (by rw [heq, List.append_assoc]) hP
      rw [List.length_append, List.length_append] at hle
      omega
    · have hle := h.least _ _ (List.take_append_drop j _).symm hP
      rw [List.length_append, List.length_take] at hle
      omega
  · rintro ⟨h, hnone⟩
    refine ⟨by rw [h.eq, List.append_assoc], h.holds, fun before' rest' heq hP => ?_⟩
    rcases List.append_eq_append_iff.mp heq with ⟨mid, rfl, hmid⟩ | ⟨mid, rfl, hmid⟩
    · rw [List.length_append, List.length_append]
      exact Nat.add_le_add_left (h.least mid rest' hmid hP) _
    · cases mid with
      | nil =>
          rw [List.nil_append] at hmid
          have hle := h.least [] s rfl (hmid ▸ hP)
          rw [List.length_append, List.append_nil]
          exact Nat.add_le_add_left hle _
      | cons a mid =>
          have hlt : before'.length < (before' ++ a :: mid).length := by simp
          refine absurd ?_ (hnone _ hlt)
          rw [List.append_assoc, ← hmid, List.drop_left]
          exact hP

end First

/-! ## §2  Bytes -/

def byteLen (cs : List Char) : ℕ := (cs.map Char.utf8Size).sum

@[simp] theorem byteLen_nil : byteLen [] = 0 := rfl

@[simp] theorem byteLen_cons (c : Char) (cs : List Char) :
    byteLen (c :: cs) = c.utf8Size + byteLen cs := List.sum_cons

@[simp] theorem byteLen_append (cs ds : List Char) :
    byteLen (cs ++ ds) = byteLen cs + byteLen ds := by
  rw [byteLen, List.map_append, List.sum_append]
  rfl

/-- `char_indices`, from an offset on. -/
def charIndices (offset : ℕ) : List Char → List (ℕ × Char)
  | [] => []
  | c :: cs => (offset, c) :: charIndices (offset + c.utf8Size) cs

/-- `str::find` of a text. -/
def find (pattern : List Char) : List Char → Option ℕ
  | [] => if pattern.isPrefixOf [] then some 0 else none
  | c :: cs =>
      if pattern.isPrefixOf (c :: cs) then some 0
      else (find pattern cs).map (c.utf8Size + ·)

theorem find_of_prefix {pattern s : List Char} (h : pattern <+: s) : find pattern s = some 0 := by
  have hpre := List.isPrefixOf_iff_prefix.mpr h
  cases s with
  | nil => exact if_pos hpre
  | cons c cs => exact if_pos hpre

theorem find_cons {pattern cs : List Char} {c : Char} (h : ¬ pattern <+: c :: cs) :
    find pattern (c :: cs) = (find pattern cs).map (c.utf8Size + ·) :=
  if_neg (mt List.isPrefixOf_iff_prefix.mp h)

/-- `str::find` of a character. -/
def findChar (p : Char → Bool) : List Char → Option ℕ
  | [] => none
  | c :: cs => if p c then some 0 else (findChar p cs).map (c.utf8Size + ·)

theorem findChar_getD (p : Char → Bool) : ∀ cs : List Char,
    (findChar p cs).getD (byteLen cs) = byteLen (cs.takeWhile fun c => !p c)
  | [] => rfl
  | c :: cs => by
      have ih := findChar_getD p cs
      rw [findChar]
      by_cases hc : p c = true
      · rw [if_pos hc, List.takeWhile_cons_of_neg (by simp [hc])]
        rfl
      · rw [if_neg hc, List.takeWhile_cons_of_pos (by simp [hc]), byteLen_cons, byteLen_cons, ← ih]
        cases findChar p cs <;> rfl

/-- `str::split_at`, if there is a boundary. -/
def splitAtByte (n : ℕ) : List Char → Option (List Char × List Char)
  | [] => if n = 0 then some ([], []) else none
  | c :: cs =>
      if n = 0 then some ([], c :: cs)
      else if c.utf8Size ≤ n then
        (splitAtByte (n - c.utf8Size) cs).map fun p => (c :: p.1, p.2)
      else none

theorem splitAtByte_eq_some_iff : ∀ {cs front rest : List Char} {n : ℕ},
    splitAtByte n cs = some (front, rest) ↔ cs = front ++ rest ∧ byteLen front = n
  | [], front, rest, n => by
      rw [splitAtByte]
      constructor
      · intro h
        split at h
        · next hn =>
            obtain ⟨rfl, rfl⟩ := Prod.mk.inj (Option.some.inj h)
            exact ⟨rfl, hn.symm⟩
        · cases h
      · rintro ⟨heq, rfl⟩
        obtain ⟨rfl, rfl⟩ := List.append_eq_nil_iff.mp heq.symm
        rfl
  | c :: cs, front, rest, n => by
      have hpos := c.utf8Size_pos
      rw [splitAtByte]
      constructor
      · intro h
        split at h
        · next hn =>
            obtain ⟨rfl, rfl⟩ := Prod.mk.inj (Option.some.inj h)
            exact ⟨rfl, hn.symm⟩
        · split at h
          · next hle =>
              obtain ⟨⟨front', rest'⟩, hsplit, heq⟩ := Option.map_eq_some_iff.mp h
              obtain ⟨rfl, rfl⟩ := Prod.mk.inj heq
              obtain ⟨rfl, hlen⟩ := splitAtByte_eq_some_iff.mp hsplit
              refine ⟨rfl, ?_⟩
              rw [byteLen_cons, hlen]
              omega
          · cases h
      · rintro ⟨heq, rfl⟩
        cases front with
        | nil =>
            rw [if_pos byteLen_nil, ← List.nil_append rest, ← heq]
        | cons d front =>
            obtain ⟨rfl, rfl⟩ := List.cons.inj heq
            have hsplit : splitAtByte (byteLen front) (front.append rest) = some (front, rest) :=
              splitAtByte_eq_some_iff.mpr ⟨rfl, rfl⟩
            rw [byteLen_cons, if_neg (by omega), if_pos (Nat.le_add_right _ _),
              Nat.add_sub_cancel_left, hsplit]
            rfl

theorem splitAtByte_append (front rest : List Char) :
    splitAtByte (byteLen front) (front ++ rest) = some (front, rest) :=
  splitAtByte_eq_some_iff.mpr ⟨rfl, rfl⟩

/-! ## §3  Slices -/

/-- A part of a text, and what stands before it. -/
structure Slice where
  before : List Char
  chars : List Char

/-- `&s[n..]`. -/
def Slice.from (s : Slice) (n : ℕ) : Option Slice :=
  (splitAtByte n s.chars).map fun p => ⟨s.before ++ p.1, p.2⟩

/-- `&s[..n]`. -/
def Slice.upTo (s : Slice) (n : ℕ) : Option Slice :=
  (splitAtByte n s.chars).map fun p => ⟨s.before, p.1⟩

theorem Slice.from_append (before front rest : List Char) :
    Slice.from ⟨before, front ++ rest⟩ (byteLen front) = some ⟨before ++ front, rest⟩ := by
  rw [Slice.from, splitAtByte_append]
  rfl

theorem Slice.upTo_eq_some_iff {s t : Slice} {n : ℕ} : s.upTo n = some t ↔
    t.before = s.before ∧ t.chars <+: s.chars ∧ byteLen t.chars = n := by
  rw [Slice.upTo, Option.map_eq_some_iff]
  constructor
  · rintro ⟨⟨front, rest⟩, hsplit, rfl⟩
    obtain ⟨heq, hlen⟩ := splitAtByte_eq_some_iff.mp hsplit
    exact ⟨rfl, ⟨rest, heq.symm⟩, hlen⟩
  · obtain ⟨before, chars⟩ := t
    rintro ⟨rfl, ⟨rest, heq⟩, hlen⟩
    exact ⟨(chars, rest), splitAtByte_eq_some_iff.mpr ⟨heq.symm, hlen⟩, rfl⟩

/-! ## §4  Blanks around slices -/

section Trim

variable (blank : Char → Bool)

/-- `str::trim`. -/
def Slice.trim (s : Slice) : Slice where
  before := s.before ++ s.chars.takeWhile blank
  chars := (s.chars.dropWhile blank).rdropWhile blank

def Blank (cs : List Char) : Prop := ∀ c ∈ cs, blank c = true

variable {blank}

theorem trim_chars_eq_nil_iff {s : Slice} : (s.trim blank).chars = [] ↔ Blank blank s.chars := by
  rw [Slice.trim, List.rdropWhile_eq_nil_iff]
  constructor
  · intro h c hc
    rw [← List.takeWhile_append_dropWhile (p := blank) (l := s.chars)] at hc
    rcases List.mem_append.mp hc with hc | hc
    · exact List.mem_takeWhile_imp hc
    · exact h c hc
  · exact fun h c hc => h c ((List.dropWhile_suffix blank).subset hc)

/-- Blanks in front do not count. -/
theorem trim_append_left {before piece chars : List Char} (h : Blank blank piece) :
    Slice.trim blank ⟨before, piece ++ chars⟩ = Slice.trim blank ⟨before ++ piece, chars⟩ := by
  simp only [Slice.trim, List.takeWhile_append_of_pos h, List.dropWhile_append_of_pos h,
    List.append_assoc]

theorem rdropWhile_append_blank (cs : List Char) : ∀ {piece : List Char}, Blank blank piece →
    (cs ++ piece).rdropWhile blank = cs.rdropWhile blank := by
  intro piece
  induction piece using List.reverseRecOn with
  | nil => exact fun _ => by rw [List.append_nil]
  | append_singleton piece c ih =>
      intro h
      have hc : blank c = true := h c (List.mem_append_right _ (List.mem_singleton_self c))
      rw [← List.append_assoc, List.rdropWhile_concat_pos _ _ _ hc]
      exact ih fun d hd => h d (List.mem_append_left _ hd)

/-- Blanks at the end do not count either. -/
theorem trim_append_right {before chars piece : List Char} (hchars : ¬ Blank blank chars)
    (h : Blank blank piece) :
    Slice.trim blank ⟨before, chars ++ piece⟩ = Slice.trim blank ⟨before, chars⟩ := by
  have hdrop : chars.dropWhile blank ≠ [] := by
    intro hnil
    rw [List.dropWhile_eq_nil_iff] at hnil
    exact hchars hnil
  have hne : (chars.takeWhile blank).length ≠ chars.length := by
    intro hlength
    have hsum := congrArg List.length (List.takeWhile_append_dropWhile (p := blank) (l := chars))
    rw [List.length_append, hlength] at hsum
    have hpos := List.length_pos_of_ne_nil hdrop
    omega
  have htake : (chars ++ piece).takeWhile blank = chars.takeWhile blank := by
    rw [List.takeWhile_append, if_neg hne]
  have hrest : (chars ++ piece).dropWhile blank = chars.dropWhile blank ++ piece := by
    rw [List.dropWhile_append, if_neg (by rwa [List.isEmpty_iff])]
  rw [Slice.trim, Slice.trim, htake, hrest, rdropWhile_append_blank _ h]

/-- A slice is what is left of it between two blank pieces. -/
theorem trim_spec (blank : Char → Bool) (s : Slice) : ∃ lead trail, Blank blank lead ∧ Blank blank trail ∧
    (s.trim blank).before = s.before ++ lead ∧
    s.chars = lead ++ (s.trim blank).chars ++ trail := by
  refine ⟨s.chars.takeWhile blank, (s.chars.dropWhile blank).rtakeWhile blank,
    fun c hc => List.mem_takeWhile_imp hc, fun c hc => List.mem_rtakeWhile_imp hc, rfl, ?_⟩
  rw [Slice.trim, List.append_assoc, List.rdropWhile_append_rtakeWhile,
    List.takeWhile_append_dropWhile]

/-- **Of two slices that start at one place, one continues the other by blanks if they are the same
without blanks around them.** -/
theorem trim_eq_iff {before chars chars' : List Char} (hne : ¬ Blank blank chars')
    (hpre : chars <+: chars' ∨ chars' <+: chars) :
    Slice.trim blank ⟨before, chars⟩ = Slice.trim blank ⟨before, chars'⟩ ↔
      ∃ piece, Blank blank piece ∧ (chars' = chars ++ piece ∨ chars = chars' ++ piece) := by
  constructor
  · intro heq
    obtain ⟨lead, trail, -, htrail, hbefore, hchars⟩ :=
      trim_spec blank ⟨before, chars⟩
    obtain ⟨lead', trail', -, htrail', hbefore', hchars'⟩ :=
      trim_spec blank ⟨before, chars'⟩
    rw [heq] at hbefore hchars
    have hlead : lead = lead' := List.append_cancel_left (hbefore.symm.trans hbefore')
    subst hlead
    generalize (Slice.trim blank ⟨before, chars'⟩).chars = trimmed at hchars hchars'
    dsimp only at hchars hchars'
    rcases hpre with ⟨piece, hpiece⟩ | ⟨piece, hpiece⟩
    · refine ⟨piece, fun c hc => htrail' c ?_, Or.inl hpiece.symm⟩
      rw [hchars, hchars', List.append_assoc, List.append_cancel_left_eq] at hpiece
      rw [← hpiece]
      exact List.mem_append_right _ hc
    · refine ⟨piece, fun c hc => htrail c ?_, Or.inr hpiece.symm⟩
      rw [hchars, hchars', List.append_assoc, List.append_cancel_left_eq] at hpiece
      rw [← hpiece]
      exact List.mem_append_right _ hc
  · rintro ⟨piece, hpiece, rfl | rfl⟩
    · have hchars : ¬ Blank blank chars := by
        intro hblank
        apply hne
        exact fun c hc => (List.mem_append.mp hc).elim (hblank c) (hpiece c)
      exact (trim_append_right hchars hpiece).symm
    · exact trim_append_right hne hpiece

/-- A slice that starts earlier is the same without blanks only if there are blanks between the two
starts. -/
theorem trim_start_iff {before piece chars chars' : List Char} :
    Slice.trim blank ⟨before, chars⟩ = Slice.trim blank ⟨before ++ piece, chars'⟩ ↔
      Blank blank piece ∧ ∃ rest, chars = piece ++ rest ∧
        Slice.trim blank ⟨before ++ piece, rest⟩ = Slice.trim blank ⟨before ++ piece, chars'⟩ := by
  constructor
  · intro heq
    obtain ⟨lead, trail, hlead, -, hbefore, hspec⟩ := trim_spec blank ⟨before, chars⟩
    obtain ⟨lead', trail', -, -, hbefore', -⟩ :=
      trim_spec blank ⟨before ++ piece, chars'⟩
    rw [heq] at hbefore
    have hpiece : lead = piece ++ lead' := by
      have h := hbefore.symm.trans hbefore'
      rwa [List.append_assoc, List.append_cancel_left_eq] at h
    have hblank : Blank blank piece := by
      intro c hc
      rw [hpiece] at hlead
      exact hlead c (List.mem_append_left _ hc)
    dsimp only at hspec
    rw [hpiece, List.append_assoc, List.append_assoc] at hspec
    refine ⟨hblank, _, hspec, ?_⟩
    rw [← trim_append_left hblank, ← hspec]
    exact heq
  · rintro ⟨hblank, rest, rfl, heq⟩
    rw [trim_append_left hblank]
    exact heq

end Trim

end SpecForge.Lib.ByteSlices
