import SpecForge.Core.JsonWriter
import SpecForge.Core.Print
import SpecForge.Lib.UniqueNames

/-!
# Printed JSON read back

What the printer writes of a value is a JSON text that says the value, if what it writes of a
double is a number: it is a writer.

- §1 strings and numbers; §2 values.
-/

namespace SpecForge.Json

open Lib Lib.JsonText Quoted

/-! ## §1  Strings and numbers -/

theorem escapeUnit_short : ∀ p ∈ shortEscapes,
    escapeUnit p.2 = some p.1.toNat ∧ charUnits p.1 = [p.1.toNat] := by decide

theorem hexDigit_digitChar : ∀ d < 16, hexDigit (Nat.digitChar d) = some d := by decide

/-- Four hexadecimal digits are read as the code unit they write. -/
theorem read_hexDigits {n : ℕ} (hn : n < 0x20) (cs : List Char) :
    read step (.hex 4 0) ('0' :: '0' :: (hexDigits n ++ cs)) =
      (read step .plain cs).map (prepend [n]) := by
  have hfirst : step (.hex 4 0) '0' = some (.go [] (.hex 3 0)) := rfl
  have hsecond : step (.hex 3 0) '0' = some (.go [] (.hex 2 0)) := rfl
  have hthird : step (.hex 2 0) (Nat.digitChar (n / 16)) = some (.go [] (.hex 1 (n / 16))) := by
    rw [step, stepHex, hexDigit_digitChar _ (by omega), Option.map_some, if_neg (by decide),
      Nat.zero_mul, Nat.zero_add]
  have hfourth : step (.hex 1 (n / 16)) (Nat.digitChar (n % 16)) = some (.go [n] .plain) := by
    rw [step, stepHex, hexDigit_digitChar _ (by omega), Option.map_some, if_pos (Nat.le_refl 1),
      Nat.div_add_mod']
  rw [read_go hfirst, read_go hsecond, hexDigits, List.cons_append, read_go hthird,
    List.cons_append, List.nil_append, read_go hfourth]
  simp only [prepend_nil, Option.map_id, id]

/-- An escape is read as the character it is written for. -/
theorem read_escape_append (c : Char) (cs : List Char) :
    read step .plain (escape c ++ cs) = (read step .plain cs).map (prepend (charUnits c)) := by
  have hslash : step .plain '\\' = some (.go [] .escape) := rfl
  unfold escape
  cases hc : shortEscapes.lookup c with
  | some e =>
      obtain ⟨hunit, hchar⟩ := escapeUnit_short _ (mem_of_lookup_eq_some hc)
      have hstep : step .escape e = some (.go [c.toNat] .plain) := by
        rw [step, stepEscape, hunit]
      show read step .plain ('\\' :: e :: cs) = _
      rw [read_go hslash, read_go hstep, prepend_nil, Option.map_id, hchar]
      rfl
  | none =>
      by_cases hcontrol : c.toNat < 0x20
      · have hu : step .escape 'u' = some (.go [] (.hex 4 0)) := rfl
        have hchar : charUnits c = [c.toNat] := by
          rw [charUnits, codeUnits, if_pos (by omega)]
        dsimp only
        rw [if_pos hcontrol]
        show read step .plain ('\\' :: 'u' :: '0' :: '0' :: (hexDigits c.toNat ++ cs)) = _
        rw [read_go hslash, read_go hu, read_hexDigits hcontrol, hchar]
        simp only [prepend_nil, Option.map_id, id]
      · have hplain : Plain c := by
          refine ⟨?_, ?_, Nat.not_lt.mp hcontrol⟩
          · rintro rfl
            cases hc
          · rintro rfl
            cases hc
        dsimp only
        rw [if_neg hcontrol]
        exact read_go (step_plain hplain) cs

theorem string_escape (s : String) (rest : List Char) :
    string (s.toList.flatMap escape ++ '"' :: rest) = some (units s.toList, rest) :=
  string_flatMap read_escape_append rest s.toList

theorem digitChar_ne_zero : ∀ n < 10, 0 < n → n.digitChar ≠ '0' := by decide

/-- No zero stands in front of the digits of a positive number. -/
theorem toDigits_eq_cons (n : ℕ) : 0 < n →
    ∃ c cs, Nat.toDigits 10 n = c :: cs ∧ c ≠ '0' := by
  induction n using Nat.strong_induction_on with
  | _ n ih =>
      intro hn
      by_cases hlt : n < 10
      · exact ⟨n.digitChar, [], Nat.toDigits_of_lt_base hlt, digitChar_ne_zero n hlt hn⟩
      · obtain ⟨c, cs, hdigits, hc⟩ := ih (n / 10) (by omega) (by omega)
        refine ⟨c, cs ++ [(n % 10).digitChar], ?_, hc⟩
        rw [Nat.toDigits_of_base_le (by decide) (Nat.not_lt.mp hlt), hdigits, List.cons_append]

/-- Digits with no zero in front are a number, with or without a sign. -/
theorem number_positive {part : Part} (hpart : part = .start ∨ part = .minus) {n : ℕ} (hn : 0 < n) :
    number part (toString n).toList = some ((toString n).toList, []) := by
  obtain ⟨c, cs, hdigits, hc⟩ := toDigits_eq_cons n hn
  have htext : (toString n).toList = c :: cs := by simpa using hdigits
  have hall : ∀ d ∈ c :: cs, d.isDigit = true := by
    intro d hd
    apply UniqueNames.isDigit_of_mem_toString (n := n)
    rw [htext]
    exact hd
  obtain ⟨hdigit, hrest⟩ := List.forall_mem_cons.mp hall
  have hminus : c ≠ '-' := by
    rintro rfl
    cases hdigit
  have hnext : part.next c = some .whole := by
    rcases hpart with rfl | rfl
    · rw [Part.next, if_neg hminus, if_neg hc, if_pos hdigit]
    · rw [Part.next, if_neg hc, if_pos hdigit]
  rw [htext, number, hnext]
  simp only [number_digits hrest, Option.map_some]

theorem number_nat (n : ℕ) :
    number .start (toString n).toList = some ((toString n).toList, []) := by
  cases n with
  | zero => rfl
  | succ n => exact number_positive (Or.inl rfl) (Nat.succ_pos n)

theorem number_int : ∀ i : ℤ,
    number .start (toString i).toList = some ((toString i).toList, [])
  | .ofNat n => number_nat n
  | .negSucc n => by
      have htext : (toString (Int.negSucc n)).toList = '-' :: (toString (n + 1)).toList := by
        show ("-" ++ toString (n + 1)).toList = _
        rw [String.toList_append]
        rfl
      have hread := number_positive (Or.inr rfl : Part.minus = .start ∨ _) (Nat.succ_pos n)
      rw [htext, number, show Part.next .start '-' = some .minus from rfl]
      simp only [hread, Option.map_some]

/-! ## §2  Values -/

/-- A colon, and perhaps blanks behind it. -/
def Layout.Colon (L : Layout) : Prop := ∃ ws, L.colon = ':' :: ws ∧ Blanks ws

theorem Layout.colon_compact : Layout.compact.Colon := ⟨[], rfl, nofun⟩

theorem Layout.colon_pretty : Layout.pretty.Colon := ⟨[' '], rfl, by simp [Blanks, isBlank]⟩

theorem Layout.blanks_line (L : Layout) (depth : ℕ) : Blanks (L.line depth) := by
  intro c hc
  rcases L.blank depth c hc with rfl | rfl <;> rfl

theorem brackets_cons (L : Layout) (depth : ℕ) (opening closing : Char) (t : List Char)
    (ts : List (List Char)) : brackets L depth opening closing (t :: ts) =
      opening :: spaced (L.line (depth + 1)) (L.line depth) closing t ts := rfl

section Printed

variable {double : FiniteF64 → List Char} (hdouble : ∀ f, number .start (double f) = some (double f, []))
  {L : Layout}

include hdouble

theorem number_numberText (n : Number) :
    number .start (numberText double n) = some (numberText double n, []) := by
  cases n with
  | posInt n => exact number_nat n.toNat
  | negInt i neg => exact number_int i.toInt
  | float f => exact hdouble f

/-- No value starts with a blank or a bracket that closes. -/
theorem print_head (depth : ℕ) (v : Value) : ∃ c cs, print double L depth v = c :: cs ∧
    isBlank c = false ∧ c ≠ ']' := by
  cases v with
  | null => exact ⟨'n', _, rfl, rfl, by decide⟩
  | bool b =>
      cases b with
      | true => exact ⟨'t', _, rfl, rfl, by decide⟩
      | false => exact ⟨'f', _, rfl, rfl, by decide⟩
  | number n =>
      obtain ⟨c, cs, htext, hc⟩ := number_head (number_numberText hdouble n)
      refine ⟨c, cs, htext, isBlank_of_number hc, ?_⟩
      rintro rfl
      rcases hc with hc | hc
      · exact absurd hc (by decide)
      · cases hc
  | string s => exact ⟨'"', _, rfl, rfl, by decide⟩
  | array items =>
      obtain ⟨r, hr⟩ := brackets_eq_cons (L := L) depth '[' ']' (printItems double L (depth + 1) items)
      exact ⟨'[', r, hr, rfl, by decide⟩
  | object entries =>
      obtain ⟨r, hr⟩ := brackets_eq_cons (L := L) depth '\x7b' '\x7d'
        (printEntries double L (depth + 1) entries)
      exact ⟨'\x7b', r, hr, rfl, by decide⟩

/-- **A printed value is read as what it says**, whatever stands behind it. -/
theorem reads_print (hcolon : L.Colon) (v : Value) : ∀ depth,
    Lib.JsonText.Reads (print double L depth v) (tree (numberText double) v) := by
  obtain ⟨ws, hws, hblanks⟩ := hcolon
  induction v using Value.induction with
  | null => exact fun _ => reads_of_eq fun _ _ _ => rfl
  | bool b =>
      intro _
      cases b with
      | true => exact reads_of_eq fun _ _ _ => rfl
      | false => exact reads_of_eq fun _ _ _ => rfl
  | number n => exact fun _ => reads_number (number_numberText hdouble n)
  | string s => exact fun _ => reads_string (string_escape s)
  | array items ih =>
      intro depth
      rw [print, printItems_eq_map, tree, treeItems_eq_map]
      cases items with
      | nil => exact reads_of_eq fun _ _ _ => rfl
      | cons v vs =>
          rw [List.map_cons, brackets_cons]
          apply reads_array (L.blanks_line _) (L.blanks_line _) (print_head hdouble _ v)
          exact fun w hw => ih w hw (depth + 1)
  | object entries ih =>
      intro depth
      -- a name, the colon and the value, as the reader takes them apart
      have hentry : ∀ e : String × Value, quote e.1 ++ (L.colon ++ print double L (depth + 1) e.2) =
          '"' :: (e.1.toList.flatMap escape ++
            '"' :: (':' :: ws ++ print double L (depth + 1) e.2)) := by
        intro e
        simp [quote, hws]
      rw [print, printEntries_eq_map, tree, treeEntries_eq_map, funext hentry]
      cases entries with
      | nil => exact reads_of_eq fun _ _ _ => rfl
      | cons e es =>
          rw [List.map_cons, brackets_cons]
          apply reads_object (fun e : String × Value => print double L (depth + 1) e.2)
            (fun e => tree (numberText double) e.2) (fun e => units e.1.toList)
            (fun e => e.1.toList.flatMap escape) (L.blanks_line _) (L.blanks_line _) hblanks
          · exact fun e rest => string_escape e.1 rest
          · exact fun e he => ih e he (depth + 1)

end Printed

/-- The printer, with a text for doubles. -/
def printer (double : FiniteF64 → List Char)
    (hdouble : ∀ f, number .start (double f) = some (double f, [])) : Writer where
  number := numberText double
  toText := toText double
  toTextPretty := toTextPretty double
  toText_reads v := reads_print hdouble Layout.colon_compact v 0
  toTextPretty_reads v := reads_print hdouble Layout.colon_pretty v 0

end SpecForge.Json
