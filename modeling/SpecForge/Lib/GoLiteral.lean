import SpecForge.Lib.Quoted
import SpecForge.Lib.Utf8

/-!
# Interpreted string literals of Go

A literal in double quotes and its value, a list of bytes: a character stands for its UTF-8, an
octal or hexadecimal escape for one byte. A line feed may not stand in it; a compiler may refuse
U+0000 and a byte order mark anywhere in a source text.

- §1 the reader; §2 escaped characters.
-/

namespace SpecForge.Lib.GoLiteral

open Quoted

/-! ## §1  The reader -/

/-- The characters that a compiler refuses in a source text. -/
structure Compiler where
  refusesNul : Bool
  refusesMark : Bool

inductive Mode where
  | plain
  | escape
  /-- A byte that needs some more octal digits. -/
  | octal (missing value : ℕ)
  /-- A byte that needs some more hexadecimal digits. -/
  | byte (missing value : ℕ)
  /-- A code point that needs some more hexadecimal digits. -/
  | point (missing value : ℕ)

def charBytes (c : Char) : List UInt8 := Utf8.encode [c]

def octalDigit (c : Char) : Option ℕ :=
  if '0' ≤ c ∧ c ≤ '7' then some (c.toNat - 48) else none

def Compiler.refuses (rules : Compiler) (c : Char) : Bool :=
  rules.refusesNul && c == Char.ofNat 0 || rules.refusesMark && c == Char.ofNat 0xFEFF

def stepPlain (c : Char) : Option (Step Mode UInt8) :=
  if c = '"' then some .close
  else if c = '\\' then some (.go [] .escape)
  else if c = '\n' then none
  else some (.go (charBytes c) .plain)

def stepEscape (c : Char) : Option (Step Mode UInt8) :=
  if c = 'a' then some (.go [7] .plain)
  else if c = 'b' then some (.go [8] .plain)
  else if c = 't' then some (.go [9] .plain)
  else if c = 'n' then some (.go [10] .plain)
  else if c = 'v' then some (.go [11] .plain)
  else if c = 'f' then some (.go [12] .plain)
  else if c = 'r' then some (.go [13] .plain)
  else if c = '"' then some (.go [34] .plain)
  else if c = '\\' then some (.go [92] .plain)
  else if c = 'x' then some (.go [] (.byte 2 0))
  else if c = 'u' then some (.go [] (.point 4 0))
  else if c = 'U' then some (.go [] (.point 8 0))
  else (octalDigit c).map fun d => .go [] (.octal 2 d)

def stepOctal (missing value : ℕ) (c : Char) : Option (Step Mode UInt8) :=
  (octalDigit c).bind fun d =>
    let value := value * 8 + d
    if 255 < value then none
    else if missing ≤ 1 then some (.go [UInt8.ofNat value] .plain)
    else some (.go [] (.octal (missing - 1) value))

def stepByte (missing value : ℕ) (c : Char) : Option (Step Mode UInt8) :=
  (hexDigit c).map fun d =>
    if missing ≤ 1 then .go [UInt8.ofNat (value * 16 + d)] .plain
    else .go [] (.byte (missing - 1) (value * 16 + d))

/-- A surrogate is no code point of a literal. -/
def stepPoint (missing value : ℕ) (c : Char) : Option (Step Mode UInt8) :=
  (hexDigit c).bind fun d =>
    let value := value * 16 + d
    if 1 < missing then some (.go [] (.point (missing - 1) value))
    else if value.isValidChar then some (.go (charBytes (Char.ofNat value)) .plain)
    else none

def step (rules : Compiler) (mode : Mode) (c : Char) : Option (Step Mode UInt8) :=
  if rules.refuses c then none
  else match mode with
    | .plain => stepPlain c
    | .escape => stepEscape c
    | .octal missing value => stepOctal missing value c
    | .byte missing value => stepByte missing value c
    | .point missing value => stepPoint missing value c

/-- A literal and what stands behind it. -/
def literal (rules : Compiler) : List Char → Option (List UInt8 × List Char)
  | '"' :: cs => read (step rules) .plain cs
  | _ => none

/-! ## §2  Escaped characters -/

/-- What a literal can hold as it is. -/
def Holds (rules : Compiler) (c : Char) : Prop := c ≠ '\n' ∧ rules.refuses c = false

instance (rules : Compiler) : DecidablePred (Holds rules) := fun c =>
  inferInstanceAs (Decidable (c ≠ '\n' ∧ rules.refuses c = false))

theorem refuses_ascii (rules : Compiler) {c : Char} (h : c ≠ Char.ofNat 0)
    (h' : c ≠ Char.ofNat 0xFEFF) : rules.refuses c = false := by
  simp [Compiler.refuses, h, h']

theorem read_escapeChar (rules : Compiler) (c : Char) (hc : Holds rules c) (cs : List Char) :
    read (step rules) .plain (escapeChar c ++ cs) =
      (read (step rules) .plain cs).map (prepend (charBytes c)) := by
  unfold escapeChar
  by_cases hescape : c = '\\' ∨ c = '"'
  · have hslash : step rules .plain '\\' = some (.go [] .escape) := by
      rw [step, refuses_ascii rules (by decide) (by decide)]
      rfl
    have hstep : step rules .escape c = some (.go (charBytes c) .plain) := by
      rw [step, hc.2]
      rcases hescape with rfl | rfl <;> rfl
    rw [if_pos hescape, List.cons_append, read_go hslash, List.singleton_append, read_go hstep,
      prepend_nil, Option.map_id]
    rfl
  · rw [if_neg hescape]
    rw [not_or] at hescape
    apply read_go
    rw [step, hc.2, if_neg Bool.false_ne_true, stepPlain, if_neg hescape.2, if_neg hescape.1, if_neg hc.1]

theorem read_escapeChar_refused (rules : Compiler) (c : Char) (hc : ¬Holds rules c)
    (cs : List Char) : read (step rules) .plain (escapeChar c ++ cs) = none := by
  have hself : escapeChar c = [c] := by
    apply if_neg
    rintro (rfl | rfl)
    · exact hc ⟨by decide, refuses_ascii rules (by decide) (by decide)⟩
    · exact hc ⟨by decide, refuses_ascii rules (by decide) (by decide)⟩
  rw [hself, List.singleton_append]
  apply read_none
  cases hrefuses : rules.refuses c with
  | true => rw [step, hrefuses, if_pos rfl]
  | false =>
      rw [Holds, hrefuses, not_and_or, not_not] at hc
      obtain rfl := hc.resolve_right fun hne => hne rfl
      rw [step, hrefuses]
      rfl

/-- **A text with quotes and backslashes escaped is read as its bytes**, unless it has a character
that no literal can hold. -/
theorem literal_escaped (rules : Compiler) (v rest : List Char)
    [Decidable (∀ c ∈ v, Holds rules c)] :
    literal rules ('"' :: (v.flatMap escapeChar ++ '"' :: rest)) =
      if ∀ c ∈ v, Holds rules c then some (Utf8.encode v, rest) else none := by
  have hclose : step rules .plain '"' = some .close := by
    rw [step, refuses_ascii rules (by decide) (by decide)]
    rfl
  have hvalue : v.flatMap charBytes = Utf8.encode v := by
    unfold charBytes Utf8.encode
    simp
  rw [literal, read_flatMap_escapeChar hclose (read_escapeChar rules)
    (read_escapeChar_refused rules), hvalue]

end SpecForge.Lib.GoLiteral
