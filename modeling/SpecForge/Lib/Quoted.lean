import SpecForge.Lib.Text

/-!
# Texts in quotes

What a language reads between quotes, character by character: a machine says of each character
what it adds to the value, or that it ends the text. Where values are strings of UTF-16, they are
lists of code units.

- §1 the machine; §2 code units; §3 texts with quotes and backslashes escaped.
-/

namespace SpecForge.Lib.Quoted

universe u v

/-! ## §1  The machine -/

section Machine

/-- A character ends the text, or adds to its value. -/
inductive Step (μ : Type u) (β : Type v) where
  | close
  | go (value : List β) (mode : μ)

variable {μ : Type u} {β : Type v} {step : μ → Char → Option (Step μ β)}

/-- The value, with something in front of it, and what stands behind the text. -/
def prepend (value : List β) (p : List β × List Char) : List β × List Char := (value ++ p.1, p.2)

/-- The value up to the character that ends the text, and what stands behind it. -/
def read (step : μ → Char → Option (Step μ β)) : μ → List Char → Option (List β × List Char)
  | _, [] => none
  | mode, c :: cs =>
      match step mode c with
      | none => none
      | some .close => some ([], cs)
      | some (.go value mode') => (read step mode' cs).map (prepend value)

theorem read_close {mode : μ} {c : Char} (h : step mode c = some .close) (cs : List Char) :
    read step mode (c :: cs) = some ([], cs) := by
  rw [read, h]

theorem read_go {mode mode' : μ} {c : Char} {value : List β}
    (h : step mode c = some (.go value mode')) (cs : List Char) :
    read step mode (c :: cs) = (read step mode' cs).map (prepend value) := by
  rw [read, h]

theorem read_none {mode : μ} {c : Char} (h : step mode c = none) (cs : List Char) :
    read step mode (c :: cs) = none := by
  rw [read, h]

theorem prepend_nil : prepend ([] : List β) = id := rfl

end Machine

def hexDigit (c : Char) : Option ℕ :=
  if '0' ≤ c ∧ c ≤ '9' then some (c.toNat - 48)
  else if 'a' ≤ c ∧ c ≤ 'f' then some (c.toNat - 87)
  else if 'A' ≤ c ∧ c ≤ 'F' then some (c.toNat - 55)
  else none

/-! ## §2  Code units -/

def codeUnits (point : ℕ) : List ℕ :=
  if point < 0x10000 then [point]
  else [0xD800 + (point - 0x10000) / 0x400, 0xDC00 + (point - 0x10000) % 0x400]

def charUnits (c : Char) : List ℕ := codeUnits c.toNat

/-- The code units of a string. -/
def units (cs : List Char) : List ℕ := cs.flatMap charUnits

theorem units_cons (c : Char) (cs : List Char) : units (c :: cs) = charUnits c ++ units cs := rfl

theorem units_append (cs ds : List Char) : units (cs ++ ds) = units cs ++ units ds :=
  List.flatMap_append

theorem charUnits_ne_nil (c : Char) : charUnits c ≠ [] := by
  unfold charUnits codeUnits
  split <;> exact List.cons_ne_nil _ _

/-- A character of ASCII is its own code unit, and no other character has that one. -/
theorem mem_charUnits_iff {n : ℕ} (hn : n < 128) {c : Char} : n ∈ charUnits c ↔ c.toNat = n := by
  unfold charUnits codeUnits
  split
  · rw [List.mem_singleton, eq_comm]
  · simp only [List.mem_cons, List.not_mem_nil, or_false]
    omega

theorem toNat_valid (c : Char) : c.toNat < 0xD800 ∨ 0xDFFF < c.toNat ∧ c.toNat < 0x110000 := c.valid

/-- The code units of a character say which it is and where they end. -/
theorem charUnits_append_inj {c d : Char} {us vs : List ℕ}
    (h : charUnits c ++ us = charUnits d ++ vs) : c = d ∧ us = vs := by
  have hc := toNat_valid c
  have hd := toNat_valid d
  have hinj : c.toNat = d.toNat → c = d := fun h => Char.toNat_inj.mp h
  unfold charUnits codeUnits at h
  split at h <;> split at h <;> simp only [List.cons_append, List.nil_append, List.cons.injEq] at h
  · exact ⟨hinj h.1, h.2⟩
  · omega
  · omega
  · exact ⟨hinj (by omega), h.2.2⟩

theorem units_injective : Function.Injective units := by
  intro cs
  induction cs with
  | nil =>
      intro ds h
      cases ds with
      | nil => rfl
      | cons d ds => exact absurd (List.append_eq_nil_iff.mp h.symm).1 (charUnits_ne_nil d)
  | cons c cs ih =>
      intro ds h
      cases ds with
      | nil => exact absurd (List.append_eq_nil_iff.mp h).1 (charUnits_ne_nil c)
      | cons d ds =>
          obtain ⟨rfl, hrest⟩ := charUnits_append_inj h
          rw [ih hrest]

/-! ## §3  Escaped texts -/

/-- `replace('\\', "\\\\").replace('"', "\\\"")` -/
def escapeQuotes (s : String) : String :=
  Text.replaceChar '"' "\\\"" (Text.replaceChar '\\' "\\\\" s)

def escapeChar (c : Char) : List Char :=
  if c = '\\' ∨ c = '"' then ['\\', c] else [c]

theorem toList_escapeQuotes (s : String) :
    (escapeQuotes s).toList = s.toList.flatMap escapeChar := by
  simp only [escapeQuotes, Text.replaceChar, String.toList_ofList, List.flatMap_assoc]
  congr 1
  funext c
  by_cases hslash : c = '\\'
  · subst hslash
    rfl
  · by_cases hquote : c = '"'
    · subst hquote
      rfl
    · simp [escapeChar, hslash, hquote]

section Escaped

variable {μ : Type u} {β : Type v} {step : μ → Char → Option (Step μ β)} {plain : μ}
  {Good : Char → Prop} [DecidablePred Good] {value : Char → List β}

/-- A machine that takes good characters, escaped, for what they stand for, and stops at the
others. -/
theorem read_flatMap_escapeChar (hclose : step plain '"' = some .close)
    (hgood : ∀ c, Good c → ∀ cs, read step plain (escapeChar c ++ cs) =
      (read step plain cs).map (prepend (value c)))
    (hbad : ∀ c, ¬Good c → ∀ cs, read step plain (escapeChar c ++ cs) = none)
    (rest : List Char) : ∀ (v : List Char) [Decidable (∀ c ∈ v, Good c)],
    read step plain (v.flatMap escapeChar ++ '"' :: rest) =
      if ∀ c ∈ v, Good c then some (v.flatMap value, rest) else none
  | [], _ => by
      rw [if_pos fun c hc => absurd hc List.not_mem_nil]
      exact read_close hclose rest
  | c :: v, _ => by
      have ih := read_flatMap_escapeChar hclose hgood hbad rest v
      rw [List.flatMap_cons, List.append_assoc]
      by_cases hc : Good c
      · rw [hgood c hc, ih]
        by_cases hv : ∀ d ∈ v, Good d
        · rw [if_pos hv, if_pos (List.forall_mem_cons.mpr ⟨hc, hv⟩)]
          rfl
        · rw [if_neg hv, if_neg fun h => hv (List.forall_mem_cons.mp h).2]
          rfl
      · rw [hbad c hc, if_neg fun h => hc (List.forall_mem_cons.mp h).1]

end Escaped

end SpecForge.Lib.Quoted
