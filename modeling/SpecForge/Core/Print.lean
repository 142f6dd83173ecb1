import SpecForge.Core.Json

/-!
# JSON as text

A printer of JSON, on one line or on several. How it writes a double is a parameter.

- §1 strings; §2 values.
-/

namespace SpecForge.Json

open Lib

/-! ## §1  Strings -/

/-- The characters with an escape of one letter. -/
def shortEscapes : List (Char × Char) :=
  [('"', '"'), ('\\', '\\'), ('\x08', 'b'), ('\t', 't'), ('\n', 'n'), ('\x0c', 'f'), ('\r', 'r')]

def hexDigits (n : ℕ) : List Char := [Nat.digitChar (n / 16), Nat.digitChar (n % 16)]

def escape (c : Char) : List Char :=
  match shortEscapes.lookup c with
  | some e => ['\\', e]
  | none => if c.toNat < 0x20 then '\\' :: 'u' :: '0' :: '0' :: hexDigits c.toNat else [c]

def quote (s : String) : List Char := '"' :: (s.toList.flatMap escape ++ ['"'])

example : quote "a\"\n\x01" = "\"a\\\"\\n\\u0001\"".toList := by decide

/-! ## §2  Values -/

/-- Where lines are broken, and what stands between a name and its value. -/
structure Layout where
  line : ℕ → List Char
  colon : List Char
  blank : ∀ depth, ∀ c ∈ line depth, c = '\n' ∨ c = ' '

/-- `CompactFormatter` -/
def Layout.compact : Layout where
  line _ := []
  colon := [':']
  blank := by
    intro depth c hc
    cases hc

/-- `PrettyFormatter` with its two blanks for each level -/
def Layout.pretty : Layout where
  line depth := '\n' :: List.replicate (2 * depth) ' '
  colon := [':', ' ']
  blank := by
    intro depth c hc
    rcases List.mem_cons.mp hc with rfl | hc
    · exact Or.inl rfl
    · exact Or.inr (List.eq_of_mem_replicate hc)

/-- Texts with commas between them; nothing at all stands between the brackets where there are
none. -/
def brackets (L : Layout) (depth : ℕ) (opening closing : Char) : List (List Char) → List Char
  | [] => [opening, closing]
  | t :: ts =>
      opening :: (L.line (depth + 1) ++ (t ++
        (ts.flatMap (fun u => ',' :: (L.line (depth + 1) ++ u)) ++ (L.line depth ++ [closing]))))

def numberText (double : FiniteF64 → List Char) : Number → List Char
  | .posInt n => (toString n.toNat).toList
  | .negInt i _ => (toString i.toInt).toList
  | .float f => double f

section Printing

variable (double : FiniteF64 → List Char) (L : Layout)

mutual

def print (depth : ℕ) : Value → List Char
  | .null => "null".toList
  | .bool true => "true".toList
  | .bool false => "false".toList
  | .number n => numberText double n
  | .string s => quote s
  | .array items => brackets L depth '[' ']' (printItems (depth + 1) items)
  | .object entries => brackets L depth '\x7b' '\x7d' (printEntries (depth + 1) entries)

def printItems (depth : ℕ) : List Value → List (List Char)
  | [] => []
  | v :: vs => print depth v :: printItems depth vs

def printEntries (depth : ℕ) : List (String × Value) → List (List Char)
  | [] => []
  | (k, v) :: es => (quote k ++ (L.colon ++ print depth v)) :: printEntries depth es

end

/-- `to_string` -/
def toText (v : Value) : List Char := print double .compact 0 v

/-- `to_string_pretty` -/
def toTextPretty (v : Value) : List Char := print double .pretty 0 v

theorem printItems_eq_map (depth : ℕ) : ∀ items : List Value,
    printItems double L depth items = items.map (print double L depth)
  | [] => rfl
  | v :: vs => by rw [printItems, printItems_eq_map depth vs, List.map_cons]

theorem printEntries_eq_map (depth : ℕ) : ∀ entries : List (String × Value),
    printEntries double L depth entries =
      entries.map fun e => quote e.1 ++ (L.colon ++ print double L depth e.2)
  | [] => rfl
  | (k, v) :: es => by rw [printEntries, printEntries_eq_map depth es, List.map_cons]

end Printing

example : toText (fun _ => []) (.object [("a", .array [.null, .bool true]), ("b", .object [])]) =
    "\x7b\"a\":[null,true],\"b\":\x7b\x7d\x7d".toList := by decide

example : toTextPretty (fun _ => []) (.object [("a", .array [.null, .bool true])]) =
    "\x7b\n  \"a\": [\n    null,\n    true\n  ]\n\x7d".toList := by decide

theorem brackets_eq_cons (depth : ℕ) (opening closing : Char) (ts : List (List Char)) :
    ∃ r, brackets L depth opening closing ts = opening :: r := by
  cases ts with
  | nil => exact ⟨_, rfl⟩
  | cons t ts => exact ⟨_, rfl⟩

end SpecForge.Json
