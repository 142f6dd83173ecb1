import Mathlib.Data.List.Forall2
import SpecForge.Lib.Quoted
import SpecForge.Lib.Text

/-!
# JSON texts

Texts read as the grammar of JSON has them, into trees that keep what stands there: the entries of
an object in their order, a name as often as it comes, numbers as texts, and strings as code units.

- §1 the reader; §2 strings.
- §3 what can be read whatever follows; §4 arrays and objects.
-/

namespace SpecForge.Lib.JsonText

open Quoted

/-! ## §1  The reader -/

inductive Tree where
  | null
  | bool (b : Bool)
  | number (digits : List Char)
  | string (value : List ℕ)
  | array (items : List Tree)
  | object (entries : List (List ℕ × Tree))

/-- The names in an object. -/
def Tree.keys : Tree → List (List ℕ)
  | .object entries => entries.map (·.1)
  | _ => []

inductive Mode where
  | plain
  | escape
  /-- An escape that needs some more hexadecimal digits. -/
  | hex (missing value : ℕ)

def stepPlain (c : Char) : Option (Step Mode ℕ) :=
  if c = '"' then some .close
  else if c = '\\' then some (.go [] .escape)
  else if c.toNat < 0x20 then none
  else some (.go (charUnits c) .plain)

/-- The code unit of an escape by one character. -/
def escapeUnit (c : Char) : Option ℕ :=
  if c = '"' ∨ c = '\\' ∨ c = '/' then some c.toNat
  else if c = 'b' then some 8
  else if c = 'f' then some 12
  else if c = 'n' then some 10
  else if c = 'r' then some 13
  else if c = 't' then some 9
  else none

def stepEscape (c : Char) : Option (Step Mode ℕ) :=
  match escapeUnit c with
  | some u => some (.go [u] .plain)
  | none => if c = 'u' then some (.go [] (.hex 4 0)) else none

def stepHex (missing value : ℕ) (c : Char) : Option (Step Mode ℕ) :=
  (hexDigit c).map fun d =>
    if missing ≤ 1 then .go [value * 16 + d] .plain
    else .go [] (.hex (missing - 1) (value * 16 + d))

def step : Mode → Char → Option (Step Mode ℕ)
  | .plain, c => stepPlain c
  | .escape, c => stepEscape c
  | .hex missing value, c => stepHex missing value c

/-- A string behind its first quote. -/
def string (cs : List Char) : Option (List ℕ × List Char) := read step .plain cs

def isBlank (c : Char) : Bool := c == ' ' || c == '\t' || c == '\n' || c == '\r'

def skip (cs : List Char) : List Char := cs.dropWhile isBlank

/-- Where a number stands: in front of its digits, in them, or behind one of its signs. -/
inductive Part where
  | start
  | minus
  | zero
  | whole
  | dot
  | fraction
  | exponent
  | sign
  | power
deriving DecidableEq

def Part.next : Part → Char → Option Part
  | .start, c => if c = '-' then some .minus else if c = '0' then some .zero
      else if c.isDigit then some .whole else none
  | .minus, c => if c = '0' then some .zero else if c.isDigit then some .whole else none
  | .zero, c => if c = '.' then some .dot else if c = 'e' ∨ c = 'E' then some .exponent else none
  | .whole, c => if c.isDigit then some .whole else if c = '.' then some .dot
      else if c = 'e' ∨ c = 'E' then some .exponent else none
  | .dot, c => if c.isDigit then some .fraction else none
  | .fraction, c => if c.isDigit then some .fraction
      else if c = 'e' ∨ c = 'E' then some .exponent else none
  | .exponent, c => if c = '+' ∨ c = '-' then some .sign
      else if c.isDigit then some .power else none
  | .sign, c => if c.isDigit then some .power else none
  | .power, c => if c.isDigit then some .power else none

def Part.final (p : Part) : Bool := p ∈ [.zero, .whole, .fraction, .power]

/-- The longest piece of a number, if it is one. -/
def number : Part → List Char → Option (List Char × List Char)
  | part, [] => if part.final then some ([], []) else none
  | part, c :: cs =>
      match part.next c with
      | some part' => (number part' cs).map fun p => (c :: p.1, p.2)
      | none => if part.final then some ([], c :: cs) else none

/-- A name for a value. -/
def word (name : List Char) (tree : Tree) (cs : List Char) : Option (Tree × List Char) :=
  if name.isPrefixOf cs then some (tree, cs.drop name.length) else none

section Sequence

variable {β : Type} (one : List Char → Option (β × List Char)) (close : Char)

/-- Things with commas between them, up to a bracket. -/
def sequence : ℕ → List Char → Option (List β × List Char)
  | 0, _ => none
  | n + 1, cs =>
      match one cs with
      | none => none
      | some (b, after) =>
          match skip after with
          | [] => none
          | c :: rest =>
              if c = ',' then (sequence n rest).map fun p => (b :: p.1, p.2)
              else if c = close then some ([b], rest)
              else none

/-- The same, or nothing at all. -/
def bracketed (n : ℕ) (cs : List Char) : Option (List β × List Char) :=
  match skip cs with
  | [] => none
  | c :: rest => if c = close then some ([], rest) else sequence one close n (c :: rest)

end Sequence

section Entry

variable (value : List Char → Option (Tree × List Char))

/-- A value behind a colon. -/
def behindColon (cs : List Char) : Option (Tree × List Char) :=
  match skip cs with
  | [] => none
  | c :: rest => if c = ':' then value rest else none

/-- A name and a value. -/
def entry (cs : List Char) : Option ((List ℕ × Tree) × List Char) :=
  match skip cs with
  | [] => none
  | c :: rest =>
      if c = '"' then (string rest).bind fun key =>
        (behindColon value key.2).map fun p => ((key.1, p.1), p.2)
      else none

end Entry

/-- A value at the head of a text and what stands behind it; the number bounds the depth. -/
def value : ℕ → List Char → Option (Tree × List Char)
  | 0, _ => none
  | n + 1, cs =>
      match skip cs with
      | [] => none
      | c :: rest =>
          if c = '"' then (string rest).map fun p => (.string p.1, p.2)
          else if c = '[' then (bracketed (value n) ']' n rest).map fun p => (.array p.1, p.2)
          else if c = '\x7b' then
            (bracketed (entry (value n)) '\x7d' n rest).map fun p => (.object p.1, p.2)
          else if c = 'n' then word "null".toList .null (c :: rest)
          else if c = 't' then word "true".toList (.bool true) (c :: rest)
          else if c = 'f' then word "false".toList (.bool false) (c :: rest)
          else (number .start (c :: rest)).map fun p => (.number p.1, p.2)

/-- The text is a JSON text, and this is what it says. -/
def Parses (cs : List Char) (tree : Tree) : Prop :=
  ∃ n rest, value n cs = some (tree, rest) ∧ skip rest = []

example : value 5 "\x7b\"a\": [1, 2.5e3], \"\\u0061\": null\x7d".toList = some (.object
    [([97], .array [.number ['1'], .number "2.5e3".toList]), ([97], .null)], []) := by
  rfl

/-! ## §2  Strings -/

/-- A character that stands for itself in a string. -/
def Plain (c : Char) : Prop := c ≠ '"' ∧ c ≠ '\\' ∧ 0x20 ≤ c.toNat

instance (c : Char) : Decidable (Plain c) := inferInstanceAs (Decidable (_ ∧ _))

theorem plain_of_all {cs : List Char} (h : (cs.all fun c => decide (Plain c)) = true) :
    ∀ c ∈ cs, Plain c :=
  fun c hc => of_decide_eq_true (List.all_eq_true.mp h c hc)

theorem step_plain {c : Char} (h : Plain c) : step .plain c = some (.go (charUnits c) .plain) := by
  rw [step, stepPlain, if_neg h.1, if_neg h.2.1, if_neg (Nat.not_lt.mpr h.2.2)]

/-- A text of such characters stands for itself. -/
theorem string_append (rest : List Char) : ∀ {cs : List Char}, (∀ c ∈ cs, Plain c) →
    string (cs ++ '"' :: rest) = some (units cs, rest)
  | [], _ => read_close rfl rest
  | c :: cs, h => by
      rw [List.forall_mem_cons] at h
      have ih := string_append rest h.2
      unfold string at ih ⊢
      rw [List.cons_append, read_go (step_plain h.1), ih]
      rfl

theorem ne_quote_of_hexDigit {c : Char} {d : ℕ} (h : hexDigit c = some d) : '"' ≠ c := by
  rintro rfl
  cases h

theorem read_of_plain {c : Char} (hc : Plain c) {cs after : List Char} {v : List ℕ}
    (h : read step .plain (c :: cs) = some (v, after)) :
    ∃ v', v = charUnits c ++ v' ∧ read step .plain cs = some (v', after) := by
  rw [read_go (step_plain hc)] at h
  obtain ⟨⟨v', after'⟩, hread, heq⟩ := Option.map_eq_some_iff.mp h
  obtain ⟨rfl, rfl⟩ := Prod.mk.inj heq
  exact ⟨v', rfl, hread⟩

/-- Any other character ends the string, starts an escape, or is no part of one. -/
theorem read_of_not_plain {c : Char} (hc : ¬ Plain c) {cs after : List Char} {v : List ℕ}
    (h : read step .plain (c :: cs) = some (v, after)) :
    v = [] ∨ c = '\\' ∧ read step .escape cs = some (v, after) := by
  by_cases hquote : c = '"'
  · subst hquote
    rw [read_close rfl] at h
    exact Or.inl (Prod.mk.inj (Option.some.inj h)).1.symm
  · by_cases hslash : c = '\\'
    · subst hslash
      have hstep : step .plain '\\' = some (.go [] .escape) := rfl
      rw [read_go hstep, prepend_nil, Option.map_id] at h
      exact Or.inr ⟨rfl, h⟩
    · have hcontrol : c.toNat < 0x20 := by
        by_contra hge
        exact hc ⟨hquote, hslash, Nat.not_lt.mp hge⟩
      have hstep : step .plain c = none := by
        rw [step, stepPlain, if_neg hquote, if_neg hslash, if_pos hcontrol]
      rw [read_none hstep] at h
      cases h

/-- An escape by digits adds one code unit, and takes no quote. -/
theorem read_hex {after : List Char} : ∀ {cs : List Char} {missing n : ℕ} {v : List ℕ},
    read step (.hex missing n) cs = some (v, after) → ∃ e cs' u v', cs = e ++ cs' ∧ '"' ∉ e ∧
      v = u :: v' ∧ read step .plain cs' = some (v', after)
  | [], _, _, _, h => by cases h
  | c :: cs, missing, n, v, h => by
      rcases hdigit : hexDigit c with _ | d
      · have hstep : step (.hex missing n) c = none := by rw [step, stepHex, hdigit]; rfl
        rw [read_none hstep] at h
        cases h
      · have hne := ne_quote_of_hexDigit hdigit
        by_cases hlast : missing ≤ 1
        · have hstep : step (.hex missing n) c = some (.go [n * 16 + d] .plain) := by
            rw [step, stepHex, hdigit, Option.map_some, if_pos hlast]
          rw [read_go hstep] at h
          obtain ⟨⟨v', after'⟩, hread, heq⟩ := Option.map_eq_some_iff.mp h
          obtain ⟨rfl, rfl⟩ := Prod.mk.inj heq
          exact ⟨[c], cs, _, v', rfl, by simp [hne], rfl, hread⟩
        · have hstep : step (.hex missing n) c =
              some (.go [] (.hex (missing - 1) (n * 16 + d))) := by
            rw [step, stepHex, hdigit, Option.map_some, if_neg hlast]
          rw [read_go hstep, prepend_nil, Option.map_id] at h
          obtain ⟨e, cs', u, v', rfl, he, rfl, hread⟩ := read_hex h
          exact ⟨c :: e, cs', u, v', rfl, by simp [hne, he], rfl, hread⟩

/-- An escape adds one code unit. If it takes a quote, then that one only. -/
theorem read_escape {cs after : List Char} {v : List ℕ}
    (h : read step .escape cs = some (v, after)) : ∃ e cs' u v', cs = e ++ cs' ∧ e ≠ [] ∧
      ('"' ∈ e → e = ['"'] ∧ u = 34) ∧ v = u :: v' ∧ read step .plain cs' = some (v', after) := by
  cases cs with
  | nil => cases h
  | cons c cs =>
      rcases hunit : escapeUnit c with _ | u
      · by_cases hu : c = 'u'
        · have hstep : step .escape c = some (.go [] (.hex 4 0)) := by
            rw [step, stepEscape, hunit]
            exact if_pos hu
          rw [read_go hstep, prepend_nil, Option.map_id] at h
          obtain ⟨e, cs', u, v', rfl, he, rfl, hread⟩ := read_hex h
          refine ⟨c :: e, cs', u, v', rfl, List.cons_ne_nil _ _, fun hmem => ?_, rfl, hread⟩
          rcases List.mem_cons.mp hmem with hc | hmem
          · exact absurd (hc.trans hu) (by decide)
          · exact absurd hmem he
        · have hstep : step .escape c = none := by
            rw [step, stepEscape, hunit]
            exact if_neg hu
          rw [read_none hstep] at h
          cases h
      · have hstep : step .escape c = some (.go [u] .plain) := by
          rw [step, stepEscape, hunit]
        rw [read_go hstep] at h
        obtain ⟨⟨v', after'⟩, hread, heq⟩ := Option.map_eq_some_iff.mp h
        obtain ⟨rfl, rfl⟩ := Prod.mk.inj heq
        refine ⟨[c], cs, u, v', rfl, List.cons_ne_nil _ _, fun hmem => ?_, rfl, hread⟩
        obtain rfl := List.mem_singleton.mp hmem
        exact ⟨rfl, (Option.some.inj hunit).symm⟩

/-- An escape inside a text takes a piece of it, or it is a quote that ends the text. -/
theorem read_escape_append {cs rest after : List Char} {v : List ℕ}
    (h : read step .escape (cs ++ '"' :: rest) = some (v, after)) : ∃ u v', v = u :: v' ∧
      (u = 34 ∨ ∃ e cs', cs = e ++ cs' ∧ e ≠ [] ∧ '"' ∉ e ∧
        read step .plain (cs' ++ '"' :: rest) = some (v', after)) := by
  obtain ⟨e, cs', u, v', heq, hne, hquote, rfl, hread⟩ := read_escape h
  refine ⟨u, v', rfl, ?_⟩
  by_cases hmem : '"' ∈ e
  · exact Or.inl (hquote hmem).2
  · right
    rcases List.append_eq_append_iff.mp heq with ⟨mid, rfl, hmid⟩ | ⟨mid, rfl, hmid⟩
    · cases mid with
      | nil =>
          refine ⟨cs ++ [], [], by simp, hne, hmem, ?_⟩
          rw [List.nil_append] at hmid
          rw [← hmid] at hread
          exact hread
      | cons x mid =>
          obtain ⟨rfl, -⟩ := List.cons.inj hmid
          exact absurd (List.mem_append_right _ List.mem_cons_self) hmem
    · rw [hmid] at hread
      exact ⟨e, mid, rfl, hne, hmem, hread⟩

theorem quote_mem_units {cs : List Char} : 34 ∈ units cs ↔ '"' ∈ cs := by
  rw [units, List.mem_flatMap]
  constructor
  · rintro ⟨c, hc, hunit⟩
    have hnat : c.toNat = '"'.toNat := (mem_charUnits_iff (by decide)).mp hunit
    rwa [Char.toNat_inj.mp hnat] at hc
  · exact fun h => ⟨'"', h, List.mem_singleton_self _⟩

/-- Where code units are owed before the text, the text cannot give them and itself: what it gives
for them it takes from itself. -/
theorem read_owed {rest after : List Char} {cs : List Char} {owed : List ℕ} (hne : owed ≠ [])
    (hquote : 34 ∉ owed) :
    read step .plain (cs ++ '"' :: rest) ≠ some (owed ++ units cs, after) := by
  intro h
  induction hn : cs.length using Nat.strong_induction_on generalizing cs owed with
  | _ n ih =>
      obtain ⟨o, owed, rfl⟩ := List.exists_cons_of_ne_nil hne
      cases cs with
      | nil =>
          rw [List.nil_append, read_close rfl] at h
          cases h
      | cons c cs =>
          by_cases hc : Plain c
          · obtain ⟨v, hv, hread⟩ := read_of_plain hc h
            rw [units_cons, ← List.append_assoc] at hv
            -- the character pays with its code units, and comes to be owed itself
            have hlength := congrArg List.length hv
            rcases List.append_eq_append_iff.mp hv with ⟨mid, hmid, -⟩ | ⟨mid, hmid, rfl⟩
            · have hmid' := congrArg List.length hmid
              simp only [List.length_append, List.length_cons] at hmid'
              omega
            · have hmid' := congrArg List.length hmid
              simp only [List.length_append, List.length_cons] at hmid'
              refine ih cs.length ?_ ?_ ?_ hread rfl
              · rw [← hn]
                exact Nat.lt_succ_self _
              · intro hnil
                rw [hnil, List.length_nil] at hmid'
                omega
              · intro hmem
                have hmem' : 34 ∈ o :: owed ++ charUnits c := by
                  rw [hmid]
                  exact List.mem_append_right _ hmem
                rcases List.mem_append.mp hmem' with howed | hself
                · exact hquote howed
                · exact hc.1 (Char.toNat_inj.mp ((mem_charUnits_iff (by decide)).mp hself))
          · rcases read_of_not_plain hc h with hnil | ⟨rfl, hescape⟩
            · cases hnil
            · obtain ⟨u, v, hv, hu | ⟨e, cs', rfl, he, hmem, hread⟩⟩ :=
                read_escape_append hescape
              · obtain ⟨rfl, -⟩ := List.cons.inj hv
                exact hquote (hu ▸ List.mem_cons_self)
              · obtain ⟨rfl, rfl⟩ := List.cons.inj hv
                have hv' : owed.append (units ('\\' :: (e ++ cs'))) =
                    owed ++ units ('\\' :: e) ++ units cs' := by
                  rw [List.append_assoc, ← units_append]
                  rfl
                rw [hv'] at hread
                refine ih cs'.length ?_ ?_ ?_ hread rfl
                · rw [← hn, List.length_cons, List.length_append]
                  omega
                · simp [units_cons, charUnits_ne_nil]
                · rw [List.mem_append, quote_mem_units, List.mem_cons]
                  rintro (howed | hslash | hquote')
                  · exact hquote (List.mem_cons_of_mem _ howed)
                  · exact absurd hslash (by decide)
                  · exact hmem hquote'

/-- **A text that is read as itself stands for itself throughout.** -/
theorem string_self {rest after : List Char} : ∀ {cs : List Char},
    string (cs ++ '"' :: rest) = some (units cs, after) →
      (∀ c ∈ cs, Plain c) ∧ after = rest
  | [], h => by
      rw [string, List.nil_append, read_close rfl] at h
      obtain ⟨-, rfl⟩ := Prod.mk.inj (Option.some.inj h)
      exact ⟨List.forall_mem_nil _, rfl⟩
  | c :: cs, h => by
      by_cases hc : Plain c
      · obtain ⟨v, hv, hread⟩ := read_of_plain hc h
        rw [← List.append_cancel_left hv] at hread
        obtain ⟨hcs, hafter⟩ := string_self hread
        exact ⟨List.forall_mem_cons.mpr ⟨hc, hcs⟩, hafter⟩
      · rcases read_of_not_plain hc h with hnil | ⟨rfl, hescape⟩
        · exact absurd (List.append_eq_nil_iff.mp hnil).1 (charUnits_ne_nil c)
        · obtain ⟨u, v, hv, hu | ⟨e, cs', rfl, he, hmem, hread⟩⟩ := read_escape_append hescape
          · obtain ⟨rfl, -⟩ := List.cons.inj hv
            exact absurd hu (by decide)
          · obtain ⟨-, rfl⟩ := List.cons.inj hv
            have howed : units e ≠ [] := by
              obtain ⟨d, e, rfl⟩ := List.exists_cons_of_ne_nil he
              simp [units_cons, charUnits_ne_nil]
            change read step .plain (cs' ++ '"' :: rest) = some (units (e ++ cs'), after) at hread
            rw [units_append] at hread
            exact absurd hread (read_owed howed (mt quote_mem_units.mp hmem))

/-! ## §3  Values -/

/-- What may stand behind a value: the end, a comma or a bracket. -/
def Delimited (rest : List Char) : Prop := ∀ c, rest.head? = some c → c = ',' ∨ c = ']' ∨ c = '\x7d'

/-- The text is read as this value, once the depth allows it, whatever stands behind. -/
def ReadAs (cs : List Char) (tree : Tree) : Prop :=
  ∃ m, ∀ n ≥ m, ∀ rest, Delimited rest → value n (cs ++ rest) = some (tree, rest)

/-- If the text is read as a value with `P`, then the value has `Q`, and all of the text is read. -/
def Insists (cs : List Char) (P Q : Tree → Prop) : Prop :=
  ∀ n rest tree after, Delimited rest → value n (cs ++ rest) = some (tree, after) → P tree →
    Q tree ∧ after = rest

theorem delimited_nil : Delimited [] := nofun

theorem delimited_cons {c : Char} (h : c = ',' ∨ c = ']' ∨ c = '\x7d') (rest : List Char) :
    Delimited (c :: rest) := by
  intro d hd
  rw [← Option.some.inj hd]
  exact h

theorem skip_cons {c : Char} (h : isBlank c = false) (cs : List Char) : skip (c :: cs) = c :: cs :=
  List.dropWhile_cons_of_neg (by rw [h]; exact Bool.false_ne_true)

/-- A text that is read in one way only. -/
theorem insists_of_eq {cs : List Char} {tree : Tree} {P Q : Tree → Prop}
    (h : ∀ n rest, Delimited rest → value (n + 1) (cs ++ rest) = some (tree, rest))
    (hQ : P tree → Q tree) : Insists cs P Q := by
  intro n rest tree' after hrest hvalue hP
  cases n with
  | zero => cases hvalue
  | succ n =>
      rw [h n rest hrest] at hvalue
      obtain ⟨rfl, rfl⟩ := Prod.mk.inj (Option.some.inj hvalue)
      exact ⟨hQ hP, rfl⟩

theorem readAs_of_eq {cs : List Char} {tree : Tree}
    (h : ∀ n rest, Delimited rest → value (n + 1) (cs ++ rest) = some (tree, rest)) :
    ReadAs cs tree := by
  refine ⟨1, fun n hn rest hrest => ?_⟩
  obtain ⟨k, rfl⟩ := Nat.exists_eq_add_of_le' hn
  exact h k rest hrest

theorem ReadAs.parses {cs : List Char} {tree : Tree} (h : ReadAs cs tree) : Parses cs tree := by
  obtain ⟨m, hm⟩ := h
  have hvalue := hm m (Nat.le_refl m) [] delimited_nil
  rw [List.append_nil] at hvalue
  exact ⟨m, [], hvalue, rfl⟩

theorem Insists.of_parses {cs : List Char} {tree : Tree} {P Q : Tree → Prop} (h : Insists cs P Q)
    (hparses : Parses cs tree) (hP : P tree) : Q tree := by
  obtain ⟨n, rest, hvalue, -⟩ := hparses
  refine (h n [] tree rest delimited_nil ?_ hP).1
  rw [List.append_nil]
  exact hvalue

/-- Where a number may end, a delimiter ends it. -/
theorem number_end {part : Part} (hfinal : part.final = true) {rest : List Char}
    (h : Delimited rest) : number part rest = some ([], rest) := by
  cases rest with
  | nil => rw [number, if_pos hfinal]
  | cons c rest =>
      have hnext : part.next c = none := by
        rcases h c rfl with rfl | rfl | rfl <;> cases part <;> rfl
      rw [number, hnext]
      exact if_pos hfinal

theorem Insists.imp {cs : List Char} {P Q P' Q' : Tree → Prop} (h : Insists cs P Q)
    (hP : ∀ v, P' v → P v) (hQ : ∀ v, P' v → Q v → Q' v) : Insists cs P' Q' := by
  intro n rest tree after hrest hvalue hP'
  obtain ⟨hq, hafter⟩ := h n rest tree after hrest hvalue (hP tree hP')
  exact ⟨hQ tree hP' hq, hafter⟩

/-- What a text is read as is what it insists on. -/
theorem Insists.of_readAs {cs : List Char} {tree : Tree} {P Q : Tree → Prop}
    (h : Insists cs P Q) (hread : ReadAs cs tree) (hP : P tree) : Q tree :=
  h.of_parses hread.parses hP

theorem value_one (n : ℕ) {rest : List Char} (h : Delimited rest) :
    value (n + 1) ("1".toList ++ rest) = some (.number ['1'], rest) := by
  have hnumber : number .start ('1' :: rest) = some (['1'], rest) := by
    rw [number, show Part.next .start '1' = some .whole from rfl]
    dsimp only
    rw [number_end rfl h]
    rfl
  change (number .start ('1' :: rest)).map _ = _
  rw [hnumber]
  rfl

theorem value_onePointZero (n : ℕ) {rest : List Char} (h : Delimited rest) :
    value (n + 1) ("1.0".toList ++ rest) = some (.number ['1', '.', '0'], rest) := by
  have hnumber : number .start ('1' :: '.' :: '0' :: rest) = some (['1', '.', '0'], rest) := by
    change ((((number .fraction rest).map _).map _).map _) = _
    rw [number_end rfl h]
    rfl
  change (number .start ('1' :: '.' :: '0' :: rest)).map _ = _
  rw [hnumber]
  rfl

theorem value_true (n : ℕ) (rest : List Char) :
    value (n + 1) ("true".toList ++ rest) = some (.bool true, rest) := rfl

theorem value_null (n : ℕ) (rest : List Char) :
    value (n + 1) ("null".toList ++ rest) = some (.null, rest) := rfl

theorem value_quoted (n : ℕ) (cs : List Char) :
    value (n + 1) ('"' :: cs) = (string cs).map fun p => (.string p.1, p.2) := rfl

theorem value_blank (n : ℕ) (cs : List Char) : value n (' ' :: cs) = value n cs := by
  cases n <;> rfl

/-- A text that is no value. -/
theorem insists_of_none {cs : List Char} {P Q : Tree → Prop}
    (h : ∀ n rest, value (n + 1) (cs ++ rest) = none) : Insists cs P Q := by
  intro n rest tree after _ hvalue _
  cases n with
  | zero => cases hvalue
  | succ n =>
      rw [h] at hvalue
      cases hvalue

theorem insists_blank {cs : List Char} {P Q : Tree → Prop} (h : Insists cs P Q) :
    Insists (' ' :: cs) P Q := by
  intro n rest tree after hrest hvalue
  rw [List.cons_append, value_blank] at hvalue
  exact h n rest tree after hrest hvalue

theorem readAs_blank {cs : List Char} {tree : Tree} (h : ReadAs cs tree) :
    ReadAs (' ' :: cs) tree := by
  obtain ⟨m, hm⟩ := h
  refine ⟨m, fun n hn rest hrest => ?_⟩
  rw [List.cons_append, value_blank]
  exact hm n hn rest hrest

/-- A quoted text of characters that stand for themselves. -/
theorem readAs_quoted {cs : List Char} (h : ∀ c ∈ cs, Plain c) :
    ReadAs ('"' :: (cs ++ ['"'])) (.string (units cs)) := by
  apply readAs_of_eq
  intro n rest _
  rw [List.cons_append, List.append_assoc, List.singleton_append, value_quoted,
    string_append rest h]
  rfl

/-- A quoted text that is to be read as itself. -/
theorem insists_quoted {cs : List Char} {P Q : Tree → Prop}
    (hP : ∀ tree, P tree → tree = .string (units cs))
    (hQ : (∀ c ∈ cs, Plain c) → Q (.string (units cs))) :
    Insists ('"' :: (cs ++ ['"'])) P Q := by
  intro n rest tree after _ hvalue hp
  obtain rfl := hP tree hp
  cases n with
  | zero => cases hvalue
  | succ n =>
      rw [List.cons_append, List.append_assoc, List.singleton_append, value_quoted] at hvalue
      obtain ⟨⟨v, after'⟩, hstring, heq⟩ := Option.map_eq_some_iff.mp hvalue
      obtain ⟨htree, rfl⟩ := Prod.mk.inj heq
      obtain rfl := Tree.string.inj htree
      obtain ⟨hplain, rfl⟩ := string_self hstring
      exact ⟨hQ hplain, rfl⟩

/-! ## §4  Arrays and objects -/

/-- Texts with commas between them. -/
def joined (xs : List (List Char)) : List Char := [','].intercalate xs

theorem joined_singleton (x : List Char) : joined [x] = x := List.intercalate_singleton

theorem joined_cons (x y : List Char) (xs : List (List Char)) :
    joined (x :: y :: xs) = x ++ ',' :: joined (y :: xs) := by
  rw [joined, List.intercalate_cons_cons, List.append_assoc]
  rfl

/-- A text that starts neither with a blank nor with a closing bracket. -/
def Opens (cs : List Char) : Prop :=
  ∃ c rest, cs = c :: rest ∧ isBlank c = false ∧ c ≠ ']' ∧ c ≠ '\x7d'

section Sequence

variable {β : Type} {one : List Char → Option (β × List Char)} {close : Char}

theorem sequence_step (hclose : close = ']' ∨ close = '\x7d') {n : ℕ} {cs rest : List Char} {b : β}
    (h : one cs = some (b, close :: rest)) : sequence one close (n + 1) cs = some ([b], rest) := by
  rw [sequence, h]
  rcases hclose with rfl | rfl <;> rfl

theorem sequence_comma {n : ℕ} {cs rest : List Char} {b : β} (h : one cs = some (b, ',' :: rest)) :
    sequence one close (n + 1) cs =
      (sequence one close n rest).map fun p => (b :: p.1, p.2) := by
  rw [sequence, h]
  rfl

theorem exists_of_sequence {n : ℕ} {cs after : List Char} {bs : List β}
    (h : sequence one close n cs = some (bs, after)) :
    ∃ m b bs' rest, n = m + 1 ∧ one cs = some (b, rest) ∧ bs = b :: bs' := by
  cases n with
  | zero => cases h
  | succ m =>
      rw [sequence] at h
      rcases hone : one cs with _ | ⟨b, mid⟩
      · rw [hone] at h
        cases h
      · rw [hone] at h
        rcases hskip : skip mid with _ | ⟨c, rest⟩
        · simp only [hskip, reduceCtorEq] at h
        · simp only [hskip] at h
          split at h
          · obtain ⟨⟨bs', after'⟩, -, heq⟩ := Option.map_eq_some_iff.mp h
            exact ⟨m, b, bs', mid, rfl, rfl, (Prod.mk.inj heq).1.symm⟩
          · split at h
            · exact ⟨m, b, [], mid, rfl, rfl, (Prod.mk.inj (Option.some.inj h)).1.symm⟩
            · cases h

theorem joined_append {α : Type} (text : α → List Char) (x y : α) (xs : List α)
    (rest : List Char) : joined ((x :: y :: xs).map text) ++ rest =
      text x ++ ',' :: (joined ((y :: xs).map text) ++ rest) := by
  rw [List.map_cons, List.map_cons, joined_cons, List.append_assoc]
  rfl

/-- Texts that are read one by one whatever follows are read in a row. -/
theorem sequence_joined {α : Type} (text : α → List Char) (tree : α → β)
    (hclose : close = ']' ∨ close = '\x7d') (rest : List Char) :
    ∀ {xs : List α} {n : ℕ}, xs ≠ [] → xs.length ≤ n →
      (∀ x ∈ xs, ∀ rest, Delimited rest → one (text x ++ rest) = some (tree x, rest)) →
      sequence one close n (joined (xs.map text) ++ close :: rest) = some (xs.map tree, rest)
  | [], _, hne, _, _ => absurd rfl hne
  | _ :: _, 0, _, hlen, _ => absurd hlen (Nat.not_succ_le_zero _)
  | [x], n + 1, _, _, h => by
      apply sequence_step hclose
      rw [List.map_singleton, joined_singleton]
      apply h x List.mem_cons_self
      apply delimited_cons
      exact Or.inr hclose
  | x :: y :: xs, n + 1, _, hlen, h => by
      have hfirst := h x List.mem_cons_self (',' :: (joined ((y :: xs).map text) ++ close :: rest))
        (delimited_cons (Or.inl rfl) _)
      have hrest := sequence_joined text tree hclose rest (List.cons_ne_nil y xs)
        (Nat.le_of_succ_le_succ hlen) (fun z hz => h z (List.mem_cons_of_mem x hz))
      rw [joined_append, sequence_comma hfirst, hrest]
      rfl

/-- Texts that insist on being read to their end are read in a row. -/
theorem sequence_insists {α : Type} (text : α → List Char) {P Q : α → β → Prop}
    (hclose : close = ']' ∨ close = '\x7d') {rest after : List Char} :
    ∀ (xs : List α) {n : ℕ} {bs : List β}, xs ≠ [] →
      (∀ x ∈ xs, ∀ rest b after, Delimited rest → one (text x ++ rest) = some (b, after) →
        P x b → Q x b ∧ after = rest) →
      sequence one close n (joined (xs.map text) ++ close :: rest) = some (bs, after) →
      (∀ p ∈ xs.zip bs, P p.1 p.2) → List.Forall₂ Q xs bs ∧ after = rest
  | [], _, _, hne, _, _, _ => absurd rfl hne
  | [x], n, bs, _, h, hseq, hP => by
      rw [List.map_singleton, joined_singleton] at hseq
      obtain ⟨m, b, bs', mid, rfl, hone, rfl⟩ := exists_of_sequence hseq
      obtain ⟨hQ, rfl⟩ := h x List.mem_cons_self (close :: rest) b mid
        (delimited_cons (Or.inr hclose) rest) hone (hP (x, b) List.mem_cons_self)
      rw [sequence_step hclose hone] at hseq
      obtain ⟨hbs, rfl⟩ := Prod.mk.inj (Option.some.inj hseq)
      rw [← hbs]
      exact ⟨List.Forall₂.cons hQ List.Forall₂.nil, rfl⟩
  | x :: y :: xs, n, bs, _, h, hseq, hP => by
      obtain ⟨m, b, bs', mid, rfl, hone, rfl⟩ := exists_of_sequence hseq
      rw [joined_append] at hone hseq
      obtain ⟨hQ, rfl⟩ := h x List.mem_cons_self _ b mid
        (delimited_cons (Or.inl rfl) _) hone (hP (x, b) List.mem_cons_self)
      rw [sequence_comma hone] at hseq
      obtain ⟨⟨bs'', after'⟩, hrest, heq⟩ := Option.map_eq_some_iff.mp hseq
      obtain ⟨hbs, rfl⟩ := Prod.mk.inj heq
      obtain ⟨-, rfl⟩ := List.cons.inj hbs
      obtain ⟨hQs, hafter⟩ := sequence_insists text hclose (y :: xs) (List.cons_ne_nil y xs)
        (fun z hz => h z (List.mem_cons_of_mem x hz)) hrest
        (fun p hp => hP p (List.mem_cons_of_mem _ hp))
      exact ⟨List.Forall₂.cons hQ hQs, hafter⟩

theorem bracketed_opens (hclose : close = ']' ∨ close = '\x7d') {n : ℕ} {cs rest : List Char}
    (h : Opens cs) : bracketed one close n (cs ++ rest) = sequence one close n (cs ++ rest) := by
  obtain ⟨c, cs, rfl, hblank, hbracket, hbrace⟩ := h
  have hne : c ≠ close := by rcases hclose with rfl | rfl <;> assumption
  rw [bracketed, List.cons_append, skip_cons hblank]
  exact if_neg hne

end Sequence

theorem value_array (n : ℕ) (cs : List Char) : value (n + 1) ('[' :: cs) =
    (bracketed (value n) ']' n cs).map fun p => (.array p.1, p.2) := rfl

theorem value_object (n : ℕ) (cs : List Char) : value (n + 1) ('\x7b' :: cs) =
    (bracketed (entry (value n)) '\x7d' n cs).map fun p => (.object p.1, p.2) := rfl

theorem value_emptyObject (n : ℕ) (rest : List Char) :
    value (n + 1) ('\x7b' :: '\x7d' :: rest) = some (.object [], rest) := rfl

/-- The text of an array of one value. -/
def arrayText (x : List Char) : List Char := '[' :: (x ++ [']'])

theorem arrayText_append (x rest : List Char) :
    arrayText x ++ rest = '[' :: (x ++ ']' :: rest) := by
  simp [arrayText]

theorem readAs_array {x : List Char} {tree : Tree} (hopens : Opens x) (h : ReadAs x tree) :
    ReadAs (arrayText x) (.array [tree]) := by
  obtain ⟨m, hm⟩ := h
  refine ⟨m + 2, fun n hn rest _ => ?_⟩
  obtain ⟨n, rfl⟩ : ∃ k, n = k + 1 := ⟨n - 1, by omega⟩
  have hseq : sequence (value n) ']' n (x ++ ']' :: rest) = some ([tree], rest) := by
    obtain ⟨k, rfl⟩ : ∃ k, n = k + 1 := ⟨n - 1, by omega⟩
    apply sequence_step (Or.inl rfl)
    apply hm (k + 1) (by omega)
    exact delimited_cons (Or.inr (Or.inl rfl)) rest
  rw [arrayText_append, value_array, bracketed_opens (Or.inl rfl) hopens, hseq]
  rfl

theorem insists_array {x : List Char} {P Q : Tree → Prop} (hopens : Opens x)
    (h : Insists x P Q) : Insists (arrayText x)
      (fun v => ∀ items, v = .array items → ∀ j ∈ items, P j)
      (fun v => ∃ j, v = .array [j] ∧ Q j) := by
  intro n rest tree after _ hvalue hP
  cases n with
  | zero => cases hvalue
  | succ n =>
      rw [arrayText_append, value_array, bracketed_opens (Or.inl rfl) hopens] at hvalue
      obtain ⟨⟨items, after'⟩, hseq, heq⟩ := Option.map_eq_some_iff.mp hvalue
      obtain ⟨rfl, rfl⟩ := Prod.mk.inj heq
      obtain ⟨m, j, js, mid, rfl, hone, rfl⟩ := exists_of_sequence hseq
      have hdelimited : Delimited (']' :: rest) := delimited_cons (Or.inr (Or.inl rfl)) rest
      obtain ⟨hQ, rfl⟩ := h _ _ _ _ hdelimited hone (hP _ rfl j List.mem_cons_self)
      rw [sequence_step (Or.inl rfl) hone] at hseq
      obtain ⟨hitems, rfl⟩ := Prod.mk.inj (Option.some.inj hseq)
      rw [← hitems]
      exact ⟨⟨j, rfl, hQ⟩, rfl⟩

/-- The text of an entry. -/
def entryText (key x : List Char) : List Char := '"' :: (key ++ '"' :: ':' :: x)

theorem entryText_append (key x rest : List Char) :
    entryText key x ++ rest = '"' :: (key ++ '"' :: ':' :: (x ++ rest)) := by
  simp [entryText]

section Entry

variable {value : List Char → Option (Tree × List Char)} {key after : List Char}

theorem entry_eq (cs : List Char) : entry value ('"' :: cs) = (string cs).bind fun key =>
    (behindColon value key.2).map fun p => ((key.1, p.1), p.2) := rfl

theorem entry_plain (h : ∀ c ∈ key, Plain c) (x : List Char) :
    entry value ('"' :: (key ++ '"' :: ':' :: x)) =
      (value x).map fun p => ((units key, p.1), p.2) := by
  rw [entry_eq, string_append _ h]
  rfl

/-- An entry that is to be read with its own name. -/
theorem entry_self {x : List Char} {e : List ℕ × Tree}
    (h : entry value ('"' :: (key ++ '"' :: ':' :: x)) = some (e, after))
    (hkey : (∀ c ∈ key, Plain c) ∨ e.1 = units key) :
    (∀ c ∈ key, Plain c) ∧ e.1 = units key ∧ value x = some (e.2, after) := by
  have hplain : ∀ c ∈ key, Plain c := by
    rcases hkey with hplain | hkey
    · exact hplain
    · rw [entry_eq] at h
      obtain ⟨⟨k, mid⟩, hstring, hrest⟩ := Option.bind_eq_some_iff.mp h
      obtain ⟨p, -, heq⟩ := Option.map_eq_some_iff.mp hrest
      obtain ⟨rfl, -⟩ := Prod.mk.inj heq
      dsimp only at hkey
      rw [hkey] at hstring
      exact (string_self hstring).1
  rw [entry_plain hplain] at h
  obtain ⟨⟨v, after'⟩, hvalue, heq⟩ := Option.map_eq_some_iff.mp h
  obtain ⟨rfl, rfl⟩ := Prod.mk.inj heq
  exact ⟨hplain, rfl, hvalue⟩

end Entry

section Object

variable {α : Type} {key text : α → List Char} {xs : List α}

/-- The text of an object. -/
def objectText (key text : α → List Char) (xs : List α) : List Char :=
  '\x7b' :: (joined (xs.map fun x => entryText (key x) (text x)) ++ ['\x7d'])

theorem objectText_append (rest : List Char) : objectText key text xs ++ rest =
    '\x7b' :: (joined (xs.map fun x => entryText (key x) (text x)) ++ '\x7d' :: rest) := by
  simp [objectText]

theorem opens_joined (hne : xs ≠ []) :
    Opens (joined (xs.map fun x => entryText (key x) (text x))) := by
  obtain ⟨x, xs, rfl⟩ := List.exists_cons_of_ne_nil hne
  cases xs with
  | nil => exact ⟨'"', _, joined_singleton _, rfl, by decide, by decide⟩
  | cons y xs => exact ⟨'"', _, joined_cons _ _ _, rfl, by decide, by decide⟩

/-- What holds from a depth of each on holds from one depth on. -/
theorem exists_depth {R : ℕ → α → Prop} : ∀ {xs : List α},
    (∀ x ∈ xs, ∃ m, ∀ n ≥ m, R n x) → ∃ m, ∀ n ≥ m, ∀ x ∈ xs, R n x
  | [], _ => ⟨0, fun _ _ => List.forall_mem_nil _⟩
  | x :: xs, h => by
      obtain ⟨hx, hxs⟩ := List.forall_mem_cons.mp h
      obtain ⟨m, hm⟩ := hx
      obtain ⟨k, hk⟩ := exists_depth hxs
      refine ⟨max m k, fun n hn => ?_⟩
      obtain ⟨hmn, hkn⟩ := Nat.max_le.mp hn
      exact List.forall_mem_cons.mpr ⟨hm n hmn, hk n hkn⟩

theorem readAs_object (tree : α → Tree)
    (h : ∀ x ∈ xs, (∀ c ∈ key x, Plain c) ∧ ReadAs (text x) (tree x)) :
    ReadAs (objectText key text xs) (.object (xs.map fun x => (units (key x), tree x))) := by
  by_cases hne : xs = []
  · subst hne
    exact readAs_of_eq fun n rest _ => rfl
  have hread : ∀ x ∈ xs, ∃ m, ∀ n ≥ m, ∀ rest, Delimited rest →
      entry (value n) (entryText (key x) (text x) ++ rest) =
        some ((units (key x), tree x), rest) := by
    intro x hx
    obtain ⟨hplain, m, hm⟩ := h x hx
    refine ⟨m, fun n hn rest hrest => ?_⟩
    rw [entryText_append, entry_plain hplain, hm n hn rest hrest]
    rfl
  obtain ⟨m, hm⟩ := exists_depth hread
  refine ⟨max m xs.length + 1, fun n hn rest _ => ?_⟩
  obtain ⟨k, rfl⟩ : ∃ k, n = k + 1 := ⟨n - 1, by omega⟩
  obtain ⟨hmk, hlen⟩ := Nat.max_le.mp (Nat.le_of_succ_le_succ hn)
  have hseq := sequence_joined (fun x => entryText (key x) (text x))
    (fun x => (units (key x), tree x)) (Or.inr rfl) rest hne hlen (hm k hmk)
  rw [objectText_append, value_object, bracketed_opens (Or.inr rfl) (opens_joined hne), hseq]
  rfl

/-- Entries that are to be read with their own names are read one by one. -/
theorem insists_object (key text : α → List Char) (xs : List α) {P Q : α → Tree → Prop}
    (h : ∀ x ∈ xs, Insists (text x) (P x) (Q x)) :
    Insists (objectText key text xs)
      (fun v => ∀ es, v = .object es → ∀ p ∈ xs.zip es,
        ((∀ c ∈ key p.1, Plain c) ∨ p.2.1 = units (key p.1)) ∧ P p.1 p.2.2)
      (fun v => ∃ es, v = .object es ∧ List.Forall₂ (fun x e => (∀ c ∈ key x, Plain c) ∧
        e.1 = units (key x) ∧ Q x e.2) xs es) := by
  by_cases hne : xs = []
  · subst hne
    exact insists_of_eq (fun n rest _ => rfl) fun _ => ⟨[], rfl, .nil⟩
  intro n rest tree after _ hvalue hP
  cases n with
  | zero => cases hvalue
  | succ n =>
      rw [objectText_append, value_object, bracketed_opens (Or.inr rfl) (opens_joined hne)] at hvalue
      obtain ⟨⟨es, after'⟩, hseq, heq⟩ := Option.map_eq_some_iff.mp hvalue
      obtain ⟨rfl, rfl⟩ := Prod.mk.inj heq
      have hone : ∀ x ∈ xs, ∀ rest e after, Delimited rest →
          entry (value n) (entryText (key x) (text x) ++ rest) = some (e, after) →
          ((∀ c ∈ key x, Plain c) ∨ e.1 = units (key x)) ∧ P x e.2 →
          ((∀ c ∈ key x, Plain c) ∧ e.1 = units (key x) ∧ Q x e.2) ∧ after = rest := by
        intro x hx rest e after hrest hentry hPx
        rw [entryText_append] at hentry
        obtain ⟨hplain, hkey, hread⟩ := entry_self hentry hPx.1
        obtain ⟨hQ, hafter⟩ := h x hx n rest e.2 after hrest hread hPx.2
        exact ⟨⟨hplain, hkey, hQ⟩, hafter⟩
      obtain ⟨hes, rfl⟩ := sequence_insists (fun x => entryText (key x) (text x)) (Or.inr rfl) xs
        hne hone hseq (hP es rfl)
      exact ⟨⟨es, rfl, hes⟩, rfl⟩

end Object

end SpecForge.Lib.JsonText
