import SpecForge.Lib.Quoted

/-!
# String literals of ECMAScript

A literal in double or single quotes, read as the grammar of strict mode has it: all escapes, and
lines continued behind a backslash. A line feed or a carriage return ends the line, and with it the
literal; the separators U+2028 and U+2029 have not done so since ES2019.

- §1 the reader; §2 texts that stand for themselves, escaped characters, and line breaks; §3 the
  same in single quotes, and texts that end a literal too early.
-/

namespace SpecForge.Lib.JsLiteral

open Quoted

/-! ## §1  The reader -/

/-- What the characters since the last complete one have said. -/
inductive Mode where
  | plain
  | escape
  /-- A carriage return behind a backslash; a line feed behind it belongs to it. -/
  | carriageReturn
  /-- The escape of U+0000; no digit may follow. -/
  | zero
  /-- An escape that needs some more hexadecimal digits. -/
  | hex (missing value : ℕ)
  | unicode
  | braced (value : Option ℕ)

def stepPlain (c : Char) : Option (Step Mode ℕ) :=
  if c = '"' then some .close
  else if c = '\\' then some (.go [] .escape)
  else if c = '\n' ∨ c = '\r' then none
  else some (.go (charUnits c) .plain)

def stepEscape (c : Char) : Option (Step Mode ℕ) :=
  if c = '\n' ∨ c = '\u2028' ∨ c = '\u2029' then some (.go [] .plain)
  else if c = '\r' then some (.go [] .carriageReturn)
  else if c = 'b' then some (.go [8] .plain)
  else if c = 't' then some (.go [9] .plain)
  else if c = 'n' then some (.go [10] .plain)
  else if c = 'v' then some (.go [11] .plain)
  else if c = 'f' then some (.go [12] .plain)
  else if c = 'r' then some (.go [13] .plain)
  else if c = '0' then some (.go [0] .zero)
  else if c = 'x' then some (.go [] (.hex 2 0))
  else if c = 'u' then some (.go [] .unicode)
  else if c.isDigit then none
  else some (.go (charUnits c) .plain)

def stepHex (missing value : ℕ) (c : Char) : Option (Step Mode ℕ) :=
  (hexDigit c).map fun d =>
    if missing ≤ 1 then .go (codeUnits (value * 16 + d)) .plain
    else .go [] (.hex (missing - 1) (value * 16 + d))

def stepBraced (value : Option ℕ) (c : Char) : Option (Step Mode ℕ) :=
  if c = '\x7d' then value.map fun point => .go (codeUnits point) .plain
  else (hexDigit c).bind fun d =>
    let point := value.getD 0 * 16 + d
    if point ≤ 0x10FFFF then some (.go [] (.braced (some point))) else none

def step : Mode → Char → Option (Step Mode ℕ)
  | .plain, c => stepPlain c
  | .escape, c => stepEscape c
  | .carriageReturn, c => if c = '\n' then some (.go [] .plain) else stepPlain c
  | .zero, c => if c.isDigit then none else stepPlain c
  | .hex missing value, c => stepHex missing value c
  | .unicode, c => if c = '\x7b' then some (.go [] (.braced none)) else stepHex 4 0 c
  | .braced value, c => stepBraced value c

/-- A literal and what stands behind it. -/
def literal : List Char → Option (List ℕ × List Char)
  | '"' :: cs => read step .plain cs
  | _ => none

/-! ## §2  Characters -/

/-- A character that stands for itself. -/
theorem read_plain {c : Char} (hquote : c ≠ '"') (hslash : c ≠ '\\') (hline : c ≠ '\n' ∧ c ≠ '\r')
    (cs : List Char) :
    read step .plain (c :: cs) = (read step .plain cs).map (prepend (charUnits c)) := by
  apply read_go
  rw [step, stepPlain, if_neg hquote, if_neg hslash, if_neg (not_or.mpr hline)]

/-- A quote or a backslash behind a backslash. -/
theorem read_escaped {c : Char} (hc : c = '\\' ∨ c = '"') (cs : List Char) :
    read step .plain ('\\' :: c :: cs) =
      (read step .plain cs).map (prepend (charUnits c)) := by
  have hslash : step .plain '\\' = some (.go [] .escape) := rfl
  have hstep : step .escape c = some (.go (charUnits c) .plain) := by
    rcases hc with rfl | rfl <;> rfl
  rw [read_go hslash, read_go hstep, prepend_nil, Option.map_id]
  rfl

/-- Where a line ends, the literal does not. -/
theorem read_lineBreak {c : Char} (hc : c = '\n' ∨ c = '\r') (cs : List Char) :
    read step .plain (c :: cs) = none := by
  apply read_none
  rcases hc with rfl | rfl <;> rfl

/-! ## §3  Single quotes -/

def stepPlainSingle (c : Char) : Option (Step Mode ℕ) :=
  if c = '\x27' then some .close
  else if c = '"' then some (.go (charUnits c) .plain)
  else stepPlain c

def stepSingle : Mode → Char → Option (Step Mode ℕ)
  | .plain, c => stepPlainSingle c
  | .carriageReturn, c => if c = '\n' then some (.go [] .plain) else stepPlainSingle c
  | .zero, c => if c.isDigit then none else stepPlainSingle c
  | mode, c => step mode c

def singleQuoted : List Char → Option (List ℕ × List Char)
  | '\x27' :: cs => read stepSingle .plain cs
  | _ => none

/-- The text adds these code units to the value, and nothing is left open. -/
def Adds (cs : List Char) (value : List ℕ) : Prop :=
  ∀ rest, read stepSingle .plain (cs ++ rest) =
    (read stepSingle .plain rest).map (prepend value)

/-- The literal does not get behind the text: it ends in it, or is none. -/
def Cuts (cs : List Char) : Prop :=
  ∀ rest value behind, read stepSingle .plain (cs ++ rest) = some (value, behind) →
    rest.length ≤ behind.length

theorem adds_nil : Adds [] [] := fun rest => by
  rw [prepend_nil, Option.map_id]
  rfl

section

variable {cs ds : List Char} {us vs : List ℕ}

theorem Adds.append (hcs : Adds cs us) (hds : Adds ds vs) : Adds (cs ++ ds) (us ++ vs) := by
  intro rest
  rw [List.append_assoc, hcs, hds, Option.map_map]
  congr 1
  funext p
  exact congrArg (·, p.2) (List.append_assoc us vs p.1).symm

theorem Cuts.append (hcs : Cuts cs) (ds : List Char) : Cuts (cs ++ ds) := by
  intro rest value behind h
  rw [List.append_assoc] at h
  have hlen := hcs _ _ _ h
  rw [List.length_append] at hlen
  exact Nat.le_of_add_left_le hlen

theorem Cuts.behind (hds : Cuts ds) (hcs : Adds cs us) : Cuts (cs ++ ds) := by
  intro rest value behind h
  rw [List.append_assoc, hcs] at h
  obtain ⟨⟨v, b⟩, hread, hpair⟩ := Option.map_eq_some_iff.mp h
  obtain ⟨-, rfl⟩ := Prod.mk.inj hpair
  exact hds rest v _ hread

end

/-- A character that stands for itself. -/
theorem adds_plain {c : Char} (h : c ∉ ['\x27', '\\', '\n', '\r']) : Adds [c] (charUnits c) := by
  simp only [List.mem_cons, List.not_mem_nil, or_false, not_or] at h
  obtain ⟨hquote, hslash, hline⟩ := h
  intro rest
  apply read_go
  rw [stepSingle, stepPlainSingle, if_neg hquote]
  by_cases hdouble : c = '"'
  · rw [if_pos hdouble]
  · rw [if_neg hdouble, stepPlain, if_neg hdouble, if_neg hslash, if_neg (not_or.mpr hline)]

/-- A character that no escape begins with. -/
theorem adds_escaped {c : Char} (h : stepEscape c = some (.go (charUnits c) .plain)) :
    Adds ['\\', c] (charUnits c) := by
  intro rest
  have hslash : stepSingle .plain '\\' = some (.go [] .escape) := rfl
  have hstep : stepSingle .escape c = some (.go (charUnits c) .plain) := h
  show read stepSingle .plain ('\\' :: c :: rest) = _
  rw [read_go hslash, read_go hstep, prepend_nil, Option.map_id]
  rfl

/-- A quote ends the literal, and a line break ends the line. -/
theorem cuts_cons {c : Char} (h : c ∈ ['\x27', '\n', '\r']) (cs : List Char) : Cuts (c :: cs) := by
  intro rest value behind hread
  simp only [List.mem_cons, List.not_mem_nil, or_false] at h
  rcases h with rfl | hline
  · have hclose : stepSingle .plain '\x27' = some .close := rfl
    rw [List.cons_append, read_close hclose] at hread
    cases hread
    rw [List.length_append]
    exact Nat.le_add_left _ _
  · have hnone : stepSingle .plain c = none := by
      rcases hline with rfl | rfl <;> rfl
    rw [List.cons_append, read_none hnone] at hread
    cases hread

end SpecForge.Lib.JsLiteral
