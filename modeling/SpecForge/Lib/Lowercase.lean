import SpecForge.Lib.ByteSlices

/-!
# Texts in lowercase

One character becomes two, and many take another number of bytes in lowercase. A text is searched in
lowercase; where the pattern is found there, the text itself reads the same but for the case.

- §1 lowercase; §2 what a text reads in lowercase. §3 searching.
-/

namespace SpecForge.Lib

open ByteSlices

/-! ## §1  Lowercase -/

/-- The tables behind `str::to_lowercase`. -/
structure CaseTable where
  /-- The lowercase of all characters but `İ`, which becomes two, and `Σ`. -/
  lower : Char → Char
  /-- Whether a `Σ` between these texts ends a word. -/
  finalSigma : List Char → List Char → Bool
  lower_ascii : ∀ c : Char, c.toNat < 128 → lower c = c.toLower
  /-- The Kelvin sign is the one character outside ASCII that becomes a character of ASCII. -/
  lower_kelvin : lower '\u212A' = 'k'
  ascii_of_lower : ∀ c : Char, (lower c).toNat < 128 → c.toNat < 128 ∨ c = '\u212A'

namespace CaseTable

/-- The table of the letters of ASCII. -/
def ascii : CaseTable where
  lower c := if c = '\u212A' then 'k' else if c.toNat < 128 then c.toLower else c
  finalSigma _ _ := false
  lower_ascii c hc := by
    have hkelvin : c ≠ '\u212A' := by
      rintro rfl
      exact absurd hc (by decide)
    rw [if_neg hkelvin, if_pos hc]
  lower_kelvin := rfl
  ascii_of_lower c h := by
    by_cases hkelvin : c = '\u212A'
    · exact Or.inr hkelvin
    · left
      by_contra hc
      rw [if_neg hkelvin, if_neg hc] at h
      exact hc h

variable (t : CaseTable)

/-- What a character becomes between two texts. -/
def piece (before : List Char) (c : Char) (after : List Char) : List Char :=
  if c = 'İ' then ['i', '\u0307']
  else if c = 'Σ' then [if t.finalSigma before after then 'ς' else 'σ']
  else [t.lower c]

def toLowercaseFrom (before : List Char) : List Char → List Char
  | [] => []
  | c :: cs => t.piece before c cs ++ toLowercaseFrom (before ++ [c]) cs

/-- `str::to_lowercase`. -/
def toLowercase (cs : List Char) : List Char := t.toLowercaseFrom [] cs

/-- The bytes of a character in lowercase. -/
def lowerSize (c : Char) : ℕ :=
  if c = 'İ' then 3 else if c = 'Σ' then 2 else (t.lower c).utf8Size

def lowerLen (cs : List Char) : ℕ := (cs.map t.lowerSize).sum

variable {t}

theorem lowerLen_append (cs ds : List Char) :
    t.lowerLen (cs ++ ds) = t.lowerLen cs + t.lowerLen ds := by
  rw [lowerLen, List.map_append, List.sum_append]
  rfl

/-- A text of ASCII changes its letters only. -/
theorem toLowercase_of_ascii {cs : List Char} (h : ∀ c ∈ cs, c.toNat < 128) :
    t.toLowercase cs = cs.map Char.toLower := by
  have hfrom : ∀ (cs before : List Char), (∀ c ∈ cs, c.toNat < 128) →
      t.toLowercaseFrom before cs = cs.map Char.toLower := by
    intro cs
    induction cs with
    | nil => exact fun _ _ => rfl
    | cons c cs ih =>
        intro before hall
        have hc : c.toNat < 128 := hall c List.mem_cons_self
        have hdotted : c ≠ 'İ' := by
          rintro rfl
          exact absurd hc (by decide)
        have hsigma : c ≠ 'Σ' := by
          rintro rfl
          exact absurd hc (by decide)
        rw [toLowercaseFrom, ih _ fun x hx => hall x (List.mem_cons_of_mem c hx), piece,
          if_neg hdotted, if_neg hsigma, t.lower_ascii c hc]
        rfl
  exact hfrom cs [] h

/-- What becomes another character of ASCII than `k` is of ASCII itself. -/
theorem toLower_of_lower {c d : Char} (h : t.lower c = d) (hd : d.toNat < 128) (hk : d ≠ 'k') :
    c.toNat < 128 ∧ c.toLower = d := by
  rcases t.ascii_of_lower c (h ▸ hd) with hc | rfl
  · exact ⟨hc, (t.lower_ascii c hc).symm.trans h⟩
  · exact absurd (h.symm.trans t.lower_kelvin) hk

theorem byteLen_piece (before : List Char) (c : Char) (after : List Char) :
    byteLen (t.piece before c after) = t.lowerSize c := by
  unfold piece lowerSize
  split
  · rfl
  · split
    · split <;> rfl
    · rfl

theorem length_piece (before : List Char) (c : Char) (after : List Char) :
    (t.piece before c after).length = if c = 'İ' then 2 else 1 := by
  unfold piece
  split
  · rfl
  · split <;> rfl

/-- What a text becomes begins with what its front becomes, which has two characters for each `İ`. -/
theorem toLowercaseFrom_append (rest : List Char) : ∀ (ctx front : List Char), ∃ lowered,
    t.toLowercaseFrom ctx (front ++ rest) = lowered ++ t.toLowercaseFrom (ctx ++ front) rest ∧
      lowered.length = front.length + front.count 'İ' ∧ byteLen lowered = t.lowerLen front
  | ctx, [] => ⟨[], by rw [List.append_nil]; rfl, rfl, rfl⟩
  | ctx, c :: front => by
      obtain ⟨lowered, heq, hlength, hbytes⟩ := toLowercaseFrom_append rest (ctx ++ [c]) front
      refine ⟨t.piece ctx c (front ++ rest) ++ lowered, ?_, ?_, ?_⟩
      · rw [List.cons_append, toLowercaseFrom, heq, List.append_assoc, List.append_assoc]
        rfl
      · rw [List.length_append, length_piece, hlength, List.length_cons, List.count_cons]
        by_cases hc : c = 'İ'
        · simp only [hc, if_true, beq_self_eq_true]
          omega
        · simp only [hc, if_false, beq_iff_eq]
          omega
      · rw [byteLen_append, byteLen_piece, hbytes]
        rfl

/-! ## §2  Reading in lowercase -/

variable (t) in
/-- The text starts with the pattern, but for the case. -/
def StartsLike : List Char → List Char → Prop
  | [], _ => True
  | _ :: _, [] => False
  | p :: ps, c :: cs => c ≠ 'İ' ∧ c ≠ 'Σ' ∧ t.lower c = p ∧ StartsLike ps cs

/-- A text that no part of what `İ` or `Σ` becomes belongs to. -/
def Keyword (pattern : List Char) : Prop :=
  '\u0307' ∉ pattern ∧ 'σ' ∉ pattern ∧ 'ς' ∉ pattern ∧ pattern.getLast? ≠ some 'i'

instance (pattern : List Char) : Decidable (Keyword pattern) :=
  inferInstanceAs (Decidable (_ ∧ _))

theorem Keyword.tail {p : Char} {ps : List Char} (h : Keyword (p :: ps)) : Keyword ps := by
  obtain ⟨hdot, hsigma, hfinal, hlast⟩ := h
  refine ⟨mt (List.mem_cons_of_mem p) hdot, mt (List.mem_cons_of_mem p) hsigma,
    mt (List.mem_cons_of_mem p) hfinal, ?_⟩
  cases ps with
  | nil => exact nofun
  | cons q ps => rwa [List.getLast?_cons_cons] at hlast

theorem prefix_toLowercaseFrom_iff : ∀ {pattern : List Char}, Keyword pattern →
    ∀ ctx cs, pattern <+: t.toLowercaseFrom ctx cs ↔ t.StartsLike pattern cs
  | [], _, _, _ => iff_of_true List.nil_prefix trivial
  | p :: ps, _, _, [] => iff_of_false (by simp [toLowercaseFrom]) id
  | p :: ps, hkey, ctx, c :: cs => by
      have ih := prefix_toLowercaseFrom_iff hkey.tail (ctx ++ [c]) cs
      obtain ⟨hdot, hsigma, hfinal, hlast⟩ := hkey
      rw [toLowercaseFrom, piece, StartsLike]
      by_cases hdotted : c = 'İ'
      · rw [if_pos hdotted]
        refine iff_of_false (fun hpre => ?_) fun h => h.1 hdotted
        rw [List.cons_append, List.cons_prefix_cons] at hpre
        obtain ⟨rfl, hpre⟩ := hpre
        cases ps with
        | nil => exact hlast rfl
        | cons q ps =>
            rw [List.cons_append, List.cons_prefix_cons] at hpre
            rw [hpre.1] at hdot
            exact hdot (List.mem_cons_of_mem _ List.mem_cons_self)
      · rw [if_neg hdotted]
        by_cases hs : c = 'Σ'
        · rw [if_pos hs]
          refine iff_of_false (fun hpre => ?_) fun h => h.2.1 hs
          rw [List.cons_append, List.cons_prefix_cons] at hpre
          obtain ⟨hp, -⟩ := hpre
          split at hp
          · exact hfinal (hp ▸ List.mem_cons_self)
          · exact hsigma (hp ▸ List.mem_cons_self)
        · rw [if_neg hs, List.cons_append, List.nil_append, List.cons_prefix_cons, ih]
          constructor
          · rintro ⟨rfl, h⟩
            exact ⟨hdotted, hs, rfl, h⟩
          · rintro ⟨-, -, rfl, h⟩
            exact ⟨rfl, h⟩

/-- The phrase that reads like a pattern has as many characters, and in lowercase as many bytes. -/
theorem StartsLike.exists_phrase : ∀ {pattern cs : List Char}, t.StartsLike pattern cs →
    ∃ phrase rest, cs = phrase ++ rest ∧ phrase.length = pattern.length ∧ 'İ' ∉ phrase ∧
      t.lowerLen phrase = byteLen pattern
  | [], cs, _ => ⟨[], cs, rfl, rfl, List.not_mem_nil, rfl⟩
  | p :: ps, c :: cs, h => by
      obtain ⟨hdotted, hs, hp, h⟩ := h
      obtain ⟨phrase, rest, rfl, hlength, hmem, hbytes⟩ := h.exists_phrase
      refine ⟨c :: phrase, rest, rfl, congrArg (· + 1) hlength, ?_, ?_⟩
      · rw [List.mem_cons, not_or]
        exact ⟨Ne.symm hdotted, hmem⟩
      · have hsize : t.lowerSize c = p.utf8Size := by
          rw [lowerSize, if_neg hdotted, if_neg hs, hp]
        rw [byteLen_cons, ← hsize, ← hbytes]
        rfl

/-! ## §3  Searching -/

/-- A pattern does not start in the middle of what a character becomes. -/
theorem find_piece {pattern : List Char} (hkey : Keyword pattern) {ctx cs : List Char} {c : Char}
    (h : ¬ t.StartsLike pattern (c :: cs)) :
    find pattern (t.toLowercaseFrom ctx (c :: cs)) =
      (find pattern (t.toLowercaseFrom (ctx ++ [c]) cs)).map (t.lowerSize c + ·) := by
  have hpre : ¬ pattern <+: t.toLowercaseFrom ctx (c :: cs) :=
    mt (prefix_toLowercaseFrom_iff hkey ctx (c :: cs)).mp h
  rw [toLowercaseFrom] at hpre ⊢
  rw [← byteLen_piece ctx c cs]
  by_cases hdotted : c = 'İ'
  · have hpiece : t.piece ctx c cs = ['i', '\u0307'] := if_pos hdotted
    rw [hpiece] at hpre ⊢
    rw [List.cons_append] at hpre ⊢
    rw [find_cons hpre, List.cons_append, List.nil_append, find_cons, Option.map_map]
    · congr 1
      funext n
      simp only [Function.comp_apply, byteLen_cons, byteLen_nil]
      omega
    · intro hdot
      cases pattern with
      | nil => exact h trivial
      | cons p ps =>
          rw [List.cons_prefix_cons] at hdot
          exact hkey.1 (hdot.1 ▸ List.mem_cons_self)
  · obtain ⟨d, hpiece⟩ : ∃ d, t.piece ctx c cs = [d] := by
      rw [← List.length_eq_one_iff, length_piece, if_neg hdotted]
    rw [hpiece] at hpre ⊢
    rw [List.singleton_append] at hpre ⊢
    rw [find_cons hpre]
    rfl

theorem find_of_first {pattern : List Char} (hkey : Keyword pattern) :
    ∀ {before ctx cs rest : List Char}, First (t.StartsLike pattern) cs before rest →
      find pattern (t.toLowercaseFrom ctx cs) = some (t.lowerLen before)
  | [], ctx, cs, rest, h => by
      have hstarts : t.StartsLike pattern cs := h.eq ▸ h.holds
      exact find_of_prefix ((prefix_toLowercaseFrom_iff hkey ctx cs).mpr hstarts)
  | c :: before, ctx, cs, rest, h => by
      obtain rfl := h.eq
      obtain ⟨h', hnone⟩ := (first_append_iff [c]).mp h
      have hc : ¬ t.StartsLike pattern (c :: (before ++ rest)) := hnone 0 Nat.zero_lt_one
      have hrest : find pattern (t.toLowercaseFrom (ctx ++ [c]) (before ++ rest)) =
          some (t.lowerLen before) := find_of_first hkey h'
      rw [List.cons_append, find_piece hkey hc, hrest]
      rfl

theorem find_eq_none {pattern : List Char} (hkey : Keyword pattern) : ∀ {cs ctx : List Char},
    (∀ before rest, cs = before ++ rest → ¬ t.StartsLike pattern rest) →
      find pattern (t.toLowercaseFrom ctx cs) = none
  | [], ctx, h => by
      refine if_neg fun hpre => h [] [] rfl ?_
      rw [List.isPrefixOf_iff_prefix, List.prefix_nil] at hpre
      rw [hpre]
      exact trivial
  | c :: cs, ctx, h => by
      rw [find_piece hkey (h [] (c :: cs) rfl), find_eq_none hkey]
      · rfl
      · exact fun before rest heq => h (c :: before) rest (congrArg (c :: ·) heq)

/-- **Searching a text in lowercase finds where the text first reads like the pattern**, in bytes of
the lowercase. -/
theorem find_eq_some_iff {pattern : List Char} (hkey : Keyword pattern) {cs : List Char} {n : ℕ} :
    find pattern (t.toLowercase cs) = some n ↔
      ∃ before rest, First (t.StartsLike pattern) cs before rest ∧ n = t.lowerLen before := by
  rw [toLowercase]
  constructor
  · intro h
    rcases exists_first_or_forall (t.StartsLike pattern) cs with ⟨before, rest, hfirst⟩ | hnone
    · rw [find_of_first hkey hfirst] at h
      exact ⟨before, rest, hfirst, (Option.some.inj h).symm⟩
    · rw [find_eq_none hkey hnone] at h
      cases h
  · rintro ⟨before, rest, hfirst, rfl⟩
    exact find_of_first hkey hfirst

end CaseTable

end SpecForge.Lib
