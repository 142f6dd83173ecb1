import SpecForge.Lib.JsLiteral
import SpecForge.Ts.TypeTokens

/-!
# Literals in double quotes (`name.rs`)

Quotes and backslashes are escaped, line breaks are not. So a literal is read as what it is written
for exactly if it stays on its line.
-/

namespace SpecForge.Ts

open Lib

/-- A character that does not end a line. -/
def Stays (c : Char) : Prop := c ≠ '\n' ∧ c ≠ '\r'

instance : DecidablePred Stays := fun c => inferInstanceAs (Decidable (c ≠ '\n' ∧ c ≠ '\r'))

theorem oneLine_iff_stays {v : String} : OneLine v ↔ ∀ c ∈ v.toList, Stays c := by
  constructor
  · intro h c hc
    exact ⟨fun heq => h.1 (heq ▸ hc), fun heq => h.2 (heq ▸ hc)⟩
  · intro h
    exact ⟨fun hc => (h _ hc).1 rfl, fun hc => (h _ hc).2 rfl⟩

theorem read_escapeChar {c : Char} (hline : Stays c) (cs : List Char) :
    Quoted.read JsLiteral.step .plain (Quoted.escapeChar c ++ cs) =
      (Quoted.read JsLiteral.step .plain cs).map (Quoted.prepend (Quoted.charUnits c)) := by
  unfold Quoted.escapeChar
  by_cases hc : c = '\\' ∨ c = '"'
  · rw [if_pos hc]
    exact JsLiteral.read_escaped hc cs
  · rw [if_neg hc]
    rw [not_or] at hc
    exact JsLiteral.read_plain hc.2 hc.1 hline cs

theorem read_escapeChar_lineBreak {c : Char} (hline : ¬Stays c) (cs : List Char) :
    Quoted.read JsLiteral.step .plain (Quoted.escapeChar c ++ cs) = none := by
  have hbreak : c = '\n' ∨ c = '\r' := by
    by_contra hnot
    exact hline (not_or.mp hnot)
  have hself : Quoted.escapeChar c = [c] := by
    rcases hbreak with rfl | rfl <;> rfl
  rw [hself, List.singleton_append]
  exact JsLiteral.read_lineBreak hbreak cs

theorem literal_stringLiteral (v : String) (rest : List Char) :
    JsLiteral.literal ((stringLiteral v).toList ++ rest) =
      if OneLine v then some (Quoted.units v.toList, rest) else none := by
  have hquote : ("\"" : String).toList = ['"'] := rfl
  rw [stringLiteral, String.toList_append, String.toList_append, hquote, toList_escapeQuotes,
    List.append_assoc, List.append_assoc, List.singleton_append, List.singleton_append,
    if_congr oneLine_iff_stays rfl rfl]
  exact Quoted.read_flatMap_escapeChar rfl (fun _ => read_escapeChar)
    (fun _ => read_escapeChar_lineBreak) rest v.toList

/-- The text is a literal with this value, between `before` and `after`. -/
def HasLiteral (text before after v : String) : Prop :=
  ∃ cs, text.toList = before.toList ++ cs ∧
    JsLiteral.literal cs = some (Quoted.units v.toList, after.toList)

/-- The name is not written as an identifier. -/
def Quoted (name : String) : Prop := ¬ (isValidIdentifier name && !isReserved name) = true

/-- Wherever the text is quoted, the literal has the text as its value. -/
structure RoundTrips (s : String) : Prop where
  literal : HasLiteral (stringLiteral s) "" "" s
  key : Quoted s → HasLiteral (propertyKey s) "" "" s
  access : Quoted s → ∀ obj, HasLiteral (memberAccess obj s) (obj ++ "[") "]" s

theorem hasLiteral_of_oneLine {v : String} (h : OneLine v) (before after : String) :
    HasLiteral (before ++ stringLiteral v ++ after) before after v := by
  refine ⟨(stringLiteral v).toList ++ after.toList, ?_, ?_⟩
  · rw [String.toList_append, String.toList_append, List.append_assoc]
  · rw [literal_stringLiteral, if_pos h]

/-- **Quoted texts are read as what they are written for if and only if they have no line feed and
no carriage return.** -/
theorem literals_roundTrip_iff (s : String) : RoundTrips s ↔ OneLine s := by
  constructor
  · intro h
    obtain ⟨cs, htext, hread⟩ := h.literal
    have hcs : cs = (stringLiteral s).toList ++ [] := by
      rw [List.append_nil, htext]
      rfl
    rw [hcs, literal_stringLiteral] at hread
    by_contra hline
    rw [if_neg hline] at hread
    cases hread
  · intro h
    have hliteral : HasLiteral (stringLiteral s) "" "" s := by
      simpa using hasLiteral_of_oneLine h "" ""
    refine ⟨hliteral, fun hquoted => ?_, fun hquoted obj => ?_⟩
    · rw [propertyKey, if_neg hquoted]
      exact hliteral
    · rw [memberAccess, if_neg hquoted]
      exact hasLiteral_of_oneLine h (obj ++ "[") "]"

/-- The literal of a line feed does not end. -/
theorem lineFeed_not_roundTrips : ¬ ∀ s, RoundTrips s := by
  intro h
  obtain ⟨cs, htext, hread⟩ := (h "\n").literal
  have hcs : cs = ['"', '\n', '"'] := htext.symm
  rw [hcs] at hread
  cases hread

end SpecForge.Ts
