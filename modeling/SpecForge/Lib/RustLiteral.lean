import SpecForge.Lib.Quoted

/-!
# String literals of Rust

A literal in double quotes and its value, a list of characters. A carriage return in front of a
line feed is dropped before anything is read, and no other one may stand in a literal.

- §1 the reader; §2 escaped characters; §3 texts with carriage returns.
-/

namespace SpecForge.Lib.RustLiteral

open Quoted

/-! ## §1  The reader -/

inductive Mode where
  | plain
  /-- Behind a carriage return, which a line feed has to follow. -/
  | carriageReturn
  | escape
  /-- An escape that needs some more hexadecimal digits. -/
  | hex (missing value : ℕ)
  | unicode
  /-- The digits of a code point, and how many there have been. -/
  | braced (digits value : ℕ)
  /-- Behind a backslash at the end of a line: blanks are skipped. -/
  | continued
  | continuedReturn

def stepPlain (c : Char) : Option (Step Mode Char) :=
  if c = '"' then some .close
  else if c = '\\' then some (.go [] .escape)
  else if c = '\r' then some (.go [] .carriageReturn)
  else some (.go [c] .plain)

def stepEscape (c : Char) : Option (Step Mode Char) :=
  if c = 'n' then some (.go ['\n'] .plain)
  else if c = 'r' then some (.go ['\r'] .plain)
  else if c = 't' then some (.go ['\t'] .plain)
  else if c = '\\' then some (.go ['\\'] .plain)
  else if c = '0' then some (.go [Char.ofNat 0] .plain)
  else if c = Char.ofNat 39 then some (.go [c] .plain)
  else if c = '"' then some (.go [c] .plain)
  else if c = 'x' then some (.go [] (.hex 2 0))
  else if c = 'u' then some (.go [] .unicode)
  else if c = '\n' then some (.go [] .continued)
  else if c = '\r' then some (.go [] .continuedReturn)
  else none

/-- An escape of two digits is one of ASCII. -/
def stepHex (missing value : ℕ) (c : Char) : Option (Step Mode Char) :=
  (hexDigit c).bind fun d =>
    let value := value * 16 + d
    if 1 < missing then some (.go [] (.hex (missing - 1) value))
    else if value < 128 then some (.go [Char.ofNat value] .plain)
    else none

/-- Up to six digits, with underscores among them, of a code point that is no surrogate. -/
def stepBraced (digits value : ℕ) (c : Char) : Option (Step Mode Char) :=
  if c = '\x7d' then
    if 0 < digits ∧ value.isValidChar then some (.go [Char.ofNat value] .plain) else none
  else if c = '_' ∧ 0 < digits then some (.go [] (.braced digits value))
  else (hexDigit c).bind fun d =>
    if digits < 6 then some (.go [] (.braced (digits + 1) (value * 16 + d))) else none

def step : Mode → Char → Option (Step Mode Char)
  | .plain, c => stepPlain c
  | .carriageReturn, c => if c = '\n' then some (.go ['\n'] .plain) else none
  | .escape, c => stepEscape c
  | .hex missing value, c => stepHex missing value c
  | .unicode, c => if c = '\x7b' then some (.go [] (.braced 0 0)) else none
  | .braced digits value, c => stepBraced digits value c
  | .continued, c =>
      if c = ' ' ∨ c = '\t' ∨ c = '\n' then some (.go [] .continued)
      else if c = '\r' then some (.go [] .continuedReturn)
      else stepPlain c
  | .continuedReturn, c => if c = '\n' then some (.go [] .continued) else none

/-- A literal and what stands behind it. -/
def literal : List Char → Option (List Char × List Char)
  | '"' :: cs => read step .plain cs
  | _ => none

/-! ## §2  Escaped characters -/

theorem read_escapeChar {c : Char} (hc : c ≠ '\r') (cs : List Char) :
    read step .plain (escapeChar c ++ cs) = (read step .plain cs).map (prepend [c]) := by
  unfold escapeChar
  by_cases hescape : c = '\\' ∨ c = '"'
  · have hslash : step .plain '\\' = some (.go [] .escape) := rfl
    have hstep : step .escape c = some (.go [c] .plain) := by
      rcases hescape with rfl | rfl <;> rfl
    rw [if_pos hescape, List.cons_append, read_go hslash, List.singleton_append, read_go hstep,
      prepend_nil, Option.map_id]
    rfl
  · rw [if_neg hescape]
    rw [not_or] at hescape
    apply read_go
    rw [step, stepPlain, if_neg hescape.2, if_neg hescape.1, if_neg hc]

theorem read_flatMap_escapeChar (rest : List Char) : ∀ v : List Char, '\r' ∉ v →
    read step .plain (v.flatMap escapeChar ++ '"' :: rest) = some (v, rest)
  | [], _ => read_close rfl rest
  | c :: v, h => by
      rw [List.mem_cons, not_or] at h
      rw [List.flatMap_cons, List.append_assoc, read_escapeChar (Ne.symm h.1),
        read_flatMap_escapeChar rest v h.2]
      rfl

/-! ## §3  Carriage returns -/

/-- Behind a carriage return an escaped text goes on with a line feed. -/
theorem read_carriageReturn {v rest : List Char} {p : List Char × List Char}
    (h : read step .carriageReturn (v.flatMap escapeChar ++ '"' :: rest) = some p) :
    ∃ w, v = '\n' :: w ∧
      (read step .plain (w.flatMap escapeChar ++ '"' :: rest)).map (prepend ['\n']) = some p := by
  have hother : ∀ {c : Char}, c ≠ '\n' → ∀ cs, read step .carriageReturn (c :: cs) = none :=
    fun hc cs => read_none (if_neg hc) cs
  cases v with
  | nil =>
      rw [List.flatMap_nil, List.nil_append, hother (by decide)] at h
      cases h
  | cons c w =>
      rw [List.flatMap_cons, List.append_assoc] at h
      by_cases hc : c = '\n'
      · subst hc
        exact ⟨w, rfl, h⟩
      · unfold escapeChar at h
        split at h
        · rw [List.cons_append, hother (by decide)] at h
          cases h
        · rw [List.singleton_append, hother hc] at h
          cases h

/-- What an escaped text is read as, the text without its carriage returns. -/
theorem value_of_read (rest : List Char) : ∀ (v : List Char) {value after : List Char},
    read step .plain (v.flatMap escapeChar ++ '"' :: rest) = some (value, after) →
      '\r' ∉ value ∧ value.Sublist v
  | [], value, after, h => by
      rw [List.flatMap_nil, List.nil_append, read_close rfl] at h
      obtain ⟨rfl, -⟩ := Prod.mk.inj (Option.some.inj h)
      exact ⟨List.not_mem_nil, List.Sublist.refl _⟩
  | c :: v, value, after, h => by
      rw [List.flatMap_cons, List.append_assoc] at h
      by_cases hc : c = '\r'
      · subst hc
        have hstep : step .plain '\r' = some (.go [] .carriageReturn) := rfl
        have hself : escapeChar '\r' = ['\r'] := rfl
        rw [hself, List.singleton_append, read_go hstep, prepend_nil, Option.map_id] at h
        obtain ⟨w, rfl, hw⟩ := read_carriageReturn h
        obtain ⟨⟨value', after'⟩, hread, heq⟩ := Option.map_eq_some_iff.mp hw
        obtain ⟨rfl, -⟩ := Prod.mk.inj heq
        obtain ⟨hnone, hsub⟩ := value_of_read rest w hread
        rw [List.singleton_append, List.mem_cons, not_or]
        exact ⟨⟨by decide, hnone⟩, (hsub.cons_cons '\n').cons '\r'⟩
      · rw [read_escapeChar hc] at h
        obtain ⟨⟨value', after'⟩, hread, heq⟩ := Option.map_eq_some_iff.mp h
        obtain ⟨rfl, -⟩ := Prod.mk.inj heq
        obtain ⟨hnone, hsub⟩ := value_of_read rest v hread
        rw [List.singleton_append, List.mem_cons, not_or]
        exact ⟨⟨Ne.symm hc, hnone⟩, hsub.cons_cons c⟩

/-- **A text with quotes and backslashes escaped is read as itself** if and only if it has no
carriage return. -/
theorem literal_escaped_iff (v rest : List Char) :
    literal ('"' :: (v.flatMap escapeChar ++ '"' :: rest)) = some (v, rest) ↔ '\r' ∉ v :=
  ⟨fun h => (value_of_read rest v h).1, read_flatMap_escapeChar rest v⟩

end SpecForge.Lib.RustLiteral
