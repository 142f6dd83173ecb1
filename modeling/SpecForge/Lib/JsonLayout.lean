import SpecForge.Lib.JsonText

/-!
# JSON texts with blanks in them

A printer of JSON may put blanks in front of the values in an array or an object, behind the
colons and in front of the closing brackets. What such a text is read as does not depend on them,
and no text is read in two ways.

- §1 what may stand behind a value; §2 numbers and strings.
- §3 arrays and objects; §4 one reading only.
-/

namespace SpecForge.Lib.JsonText

open Quoted

/-! ## §1  Behind a value -/

/-- What may stand behind a value where there may be blanks. -/
def Ends (rest : List Char) : Prop :=
  ∀ c, rest.head? = some c → c = ',' ∨ c = ']' ∨ c = '\x7d' ∨ isBlank c = true

/-- The text is read as this value, once the depth allows it, whatever stands behind. -/
def Reads (cs : List Char) (tree : Tree) : Prop :=
  ∃ m, ∀ n ≥ m, ∀ rest, Ends rest → value n (cs ++ rest) = some (tree, rest)

def Blanks (ws : List Char) : Prop := ∀ c ∈ ws, isBlank c = true

theorem ends_nil : Ends [] := nofun

theorem ends_cons {c : Char} (h : c = ',' ∨ c = ']' ∨ c = '\x7d' ∨ isBlank c = true)
    (rest : List Char) : Ends (c :: rest) := by
  intro d hd
  rw [← Option.some.inj hd]
  exact h

/-- Blanks, and then what ends a value. -/
theorem ends_blanks {ws rest : List Char} (hws : Blanks ws) (h : Ends rest) : Ends (ws ++ rest) := by
  cases ws with
  | nil => exact h
  | cons w ws =>
      apply ends_cons
      exact Or.inr (Or.inr (Or.inr (hws w List.mem_cons_self)))

theorem skip_blanks {ws : List Char} (hws : Blanks ws) (cs : List Char) :
    skip (ws ++ cs) = skip cs :=
  List.dropWhile_append_of_pos hws

theorem value_blanks {ws : List Char} (hws : Blanks ws) (n : ℕ) (cs : List Char) :
    value n (ws ++ cs) = value n cs := by
  cases n with
  | zero => rfl
  | succ n => rw [value, value, skip_blanks hws]

theorem entry_blanks {one : List Char → Option (Tree × List Char)} {ws : List Char}
    (hws : Blanks ws) (cs : List Char) : entry one (ws ++ cs) = entry one cs := by
  rw [entry, entry, skip_blanks hws]

theorem reads_of_eq {cs : List Char} {tree : Tree}
    (h : ∀ n rest, Ends rest → value (n + 1) (cs ++ rest) = some (tree, rest)) :
    Reads cs tree := by
  refine ⟨1, fun n hn rest hrest => ?_⟩
  obtain ⟨k, rfl⟩ := Nat.exists_eq_add_of_le' hn
  exact h k rest hrest

theorem Reads.parses {cs : List Char} {tree : Tree} (h : Reads cs tree) : Parses cs tree := by
  obtain ⟨m, hm⟩ := h
  have hvalue := hm m (Nat.le_refl m) [] ends_nil
  rw [List.append_nil] at hvalue
  exact ⟨m, [], hvalue, rfl⟩

/-! ## §2  Numbers and strings -/

/-- Nothing that may stand behind a number is a part of one. -/
theorem next_of_ends {c : Char} {rest : List Char} (h : Ends (c :: rest)) (part : Part) :
    part.next c = none := by
  have hblank : isBlank c = true → c = ' ' ∨ c = '\t' ∨ c = '\n' ∨ c = '\r' := by
    simp [isBlank, or_assoc]
  rcases h c rfl with rfl | rfl | rfl | hc
  · cases part <;> rfl
  · cases part <;> rfl
  · cases part <;> rfl
  · rcases hblank hc with rfl | rfl | rfl | rfl <;> cases part <;> rfl

/-- A number that is read to its end is read to the same end in front of anything else. -/
theorem number_append {rest : List Char} (h : Ends rest) : ∀ {cs : List Char} {part : Part},
    number part cs = some (cs, []) → number part (cs ++ rest) = some (cs, rest)
  | [], part, hnumber => by
      rw [number] at hnumber
      split at hnumber
      · next hfinal =>
          cases rest with
          | nil => rw [List.nil_append, number, if_pos hfinal]
          | cons c rest =>
              rw [List.nil_append, number, next_of_ends h]
              exact if_pos hfinal
      · cases hnumber
  | c :: cs, part, hnumber => by
      rw [number] at hnumber
      rw [List.cons_append, number]
      cases hnext : part.next c with
      | none =>
          rw [hnext] at hnumber
          dsimp only at hnumber
          split at hnumber <;> cases hnumber
      | some part' =>
          rw [hnext] at hnumber
          obtain ⟨⟨ds, after⟩, hread, heq⟩ := Option.map_eq_some_iff.mp hnumber
          obtain ⟨hds, rfl⟩ := Prod.mk.inj heq
          obtain rfl : cs = ds := (List.cons.inj hds).2.symm
          simp only [number_append h hread, Option.map_some]

/-- A sign or a digit starts a number. -/
theorem number_head {cs : List Char} (h : number .start cs = some (cs, [])) :
    ∃ c cs', cs = c :: cs' ∧ (c = '-' ∨ c.isDigit = true) := by
  cases cs with
  | nil => cases h
  | cons c cs =>
      refine ⟨c, cs, rfl, ?_⟩
      by_contra hc
      obtain ⟨hminus, hdigit⟩ := not_or.mp hc
      have hzero : c ≠ '0' := by
        rintro rfl
        exact hdigit rfl
      have hnext : Part.start.next c = none := by
        rw [Part.next, if_neg hminus, if_neg hzero, if_neg hdigit]
      rw [number, hnext] at h
      cases h

theorem ne_of_number {c d : Char} (hc : c = '-' ∨ c.isDigit = true) (hminus : d ≠ '-')
    (hdigit : d.isDigit = false) : c ≠ d := by
  rintro rfl
  rcases hc with hc | hc
  · exact hminus hc
  · rw [hdigit] at hc
    cases hc

theorem isBlank_of_number {c : Char} (hc : c = '-' ∨ c.isDigit = true) : isBlank c = false := by
  simp only [isBlank, Bool.or_eq_false_iff, beq_eq_false_iff_ne]
  exact ⟨⟨⟨ne_of_number hc (by decide) rfl, ne_of_number hc (by decide) rfl⟩,
    ne_of_number hc (by decide) rfl⟩, ne_of_number hc (by decide) rfl⟩

/-- What starts a number starts no other value. -/
theorem reads_number {cs : List Char} (h : number .start cs = some (cs, [])) :
    Reads cs (.number cs) := by
  apply reads_of_eq
  intro n rest hrest
  have hread := number_append hrest h
  obtain ⟨c, cs, rfl, hc⟩ := number_head h
  rw [List.cons_append] at hread ⊢
  rw [value, skip_cons (isBlank_of_number hc)]
  dsimp only
  rw [if_neg (ne_of_number hc (by decide) rfl), if_neg (ne_of_number hc (by decide) rfl),
    if_neg (ne_of_number hc (by decide) rfl), if_neg (ne_of_number hc (by decide) rfl),
    if_neg (ne_of_number hc (by decide) rfl), if_neg (ne_of_number hc (by decide) rfl), hread]
  rfl

/-- Digits are a number where the first of them may be. -/
theorem number_digits : ∀ {cs : List Char}, (∀ c ∈ cs, c.isDigit = true) →
    number .whole cs = some (cs, [])
  | [], _ => rfl
  | c :: cs, h => by
      obtain ⟨hc, hcs⟩ := List.forall_mem_cons.mp h
      rw [number, Part.next, if_pos hc]
      simp only [number_digits hcs, Option.map_some]

/-- What a code of characters writes is read as the characters. -/
theorem string_flatMap {code : Char → List Char} (hcode : ∀ c cs,
      read step .plain (code c ++ cs) = (read step .plain cs).map (prepend (charUnits c)))
    (rest : List Char) : ∀ cs : List Char,
    string (cs.flatMap code ++ '"' :: rest) = some (units cs, rest)
  | [] => read_close rfl rest
  | c :: cs => by
      have ih := string_flatMap hcode rest cs
      unfold string at ih ⊢
      rw [List.flatMap_cons, List.append_assoc, hcode, ih]
      rfl

theorem reads_string {body : List Char} {v : List ℕ}
    (h : ∀ rest, string (body ++ '"' :: rest) = some (v, rest)) :
    Reads ('"' :: (body ++ ['"'])) (.string v) := by
  apply reads_of_eq
  intro n rest _
  rw [List.cons_append, List.append_assoc, List.singleton_append, value_quoted, h]
  rfl

/-! ## §3  Arrays and objects -/

/-- Texts with commas between them, blanks in front of each, and a closing bracket. -/
def spaced (inner outer : List Char) (close : Char) (t : List Char) (ts : List (List Char)) :
    List Char :=
  inner ++ (t ++ (ts.flatMap (fun u => ',' :: (inner ++ u)) ++ (outer ++ [close])))

section Sequence

variable {β : Type} {one : List Char → Option (β × List Char)} {close : Char}
  {inner outer : List Char}

theorem sequence_end (hclose : close = ']' ∨ close = '\x7d') (houter : Blanks outer) {n : ℕ}
    {cs rest : List Char} {b : β} (h : one cs = some (b, outer ++ close :: rest)) :
    sequence one close (n + 1) cs = some ([b], rest) := by
  rw [sequence, h]
  dsimp only
  rw [skip_blanks houter]
  rcases hclose with rfl | rfl <;> rfl

theorem ends_close (hclose : close = ']' ∨ close = '\x7d') (houter : Blanks outer)
    (rest : List Char) : Ends (outer ++ close :: rest) := by
  apply ends_blanks houter
  apply ends_cons
  rcases hclose with rfl | rfl
  · exact Or.inr (Or.inl rfl)
  · exact Or.inr (Or.inr (Or.inl rfl))

/-- Texts that are read one by one are read in a row, whatever blanks are between them. -/
theorem sequence_spaced {α : Type} (text : α → List Char) (tree : α → β)
    (hclose : close = ']' ∨ close = '\x7d') (hinner : Blanks inner) (houter : Blanks outer)
    (hskip : ∀ cs, one (inner ++ cs) = one cs) (rest : List Char) :
    ∀ {x : α} {xs : List α} {n : ℕ}, xs.length < n →
      (∀ y ∈ x :: xs, ∀ rest, Ends rest → one (text y ++ rest) = some (tree y, rest)) →
      sequence one close n (spaced inner outer close (text x) (xs.map text) ++ rest) =
        some (tree x :: xs.map tree, rest)
  | _, _, 0, hlen, _ => absurd hlen (Nat.not_lt_zero _)
  | x, [], n + 1, _, h => by
      apply sequence_end hclose houter
      simp only [spaced, List.map_nil, List.flatMap_nil, List.nil_append, List.append_assoc]
      rw [hskip]
      exact h x List.mem_cons_self _ (ends_close hclose houter rest)
  | x, y :: xs, n + 1, hlen, h => by
      obtain ⟨hx, hxs⟩ := List.forall_mem_cons.mp h
      have hrest := sequence_spaced text tree hclose hinner houter hskip rest
        (Nat.lt_of_succ_lt_succ hlen) hxs
      have hfirst : one (spaced inner outer close (text x) ((y :: xs).map text) ++ rest) =
          some (tree x, ',' :: (spaced inner outer close (text y) (xs.map text) ++ rest)) := by
        simp only [spaced, List.map_cons, List.flatMap_cons, List.append_assoc, List.cons_append]
        rw [hskip]
        exact hx _ (ends_cons (Or.inl rfl) _)
      rw [sequence_comma hfirst, hrest]
      rfl

/-- The first of the texts is there, so the bracket is not closed at once. -/
theorem bracketed_spaced (hinner : Blanks inner) {t : List Char} {ts : List (List Char)} {c : Char}
    {cs : List Char} (ht : t = c :: cs) (hblank : isBlank c = false) (hc : c ≠ close)
    (hskip : ∀ cs, one (inner ++ cs) = one cs) (n : ℕ) (rest : List Char) :
    bracketed one close n (spaced inner outer close t ts ++ rest) =
      sequence one close n (spaced inner outer close t ts ++ rest) := by
  have hsequence : ∀ cs, sequence one close n (inner ++ cs) = sequence one close n cs := by
    intro cs
    cases n with
    | zero => rfl
    | succ n => rw [sequence, sequence, hskip]
  rw [bracketed, spaced, List.append_assoc, skip_blanks hinner, hsequence, ht, List.append_assoc,
    List.cons_append, skip_cons hblank]
  exact if_neg hc

end Sequence

section Nested

variable {α : Type} {text : α → List Char} {tree : α → Tree} {inner outer : List Char} {x : α}
  {xs : List α}

theorem reads_array (hinner : Blanks inner) (houter : Blanks outer)
    (hx : ∃ c cs, text x = c :: cs ∧ isBlank c = false ∧ c ≠ ']')
    (h : ∀ y ∈ x :: xs, Reads (text y) (tree y)) :
    Reads ('[' :: spaced inner outer ']' (text x) (xs.map text))
      (.array (tree x :: xs.map tree)) := by
  obtain ⟨c, cs, htext, hblank, hc⟩ := hx
  obtain ⟨m, hm⟩ := exists_depth h
  refine ⟨max m (xs.length + 1) + 1, fun n hn rest _ => ?_⟩
  obtain ⟨k, rfl⟩ : ∃ k, n = k + 1 := ⟨n - 1, by omega⟩
  obtain ⟨hmk, hlen⟩ := Nat.max_le.mp (Nat.le_of_succ_le_succ hn)
  have hskip := value_blanks hinner k
  rw [List.cons_append, value_array, bracketed_spaced hinner htext hblank hc hskip,
    sequence_spaced text tree (Or.inl rfl) hinner houter hskip rest hlen (hm k hmk)]
  rfl

/-- A name in its quotes, and a value behind the colon. -/
theorem reads_entry {key colon cs rest : List Char} {k : List ℕ} {t : Tree} {n : ℕ}
    (hkey : ∀ rest, string (key ++ '"' :: rest) = some (k, rest)) (hcolon : Blanks colon)
    (h : value n (cs ++ rest) = some (t, rest)) :
    entry (value n) ('"' :: (key ++ '"' :: (':' :: colon ++ cs))  ++ rest) =
      some ((k, t), rest) := by
  have hbehind : behindColon (value n) (':' :: colon ++ (cs ++ rest)) = some (t, rest) := by
    show value n (colon ++ (cs ++ rest)) = some (t, rest)
    rw [value_blanks hcolon, h]
  have heq : '"' :: (key ++ '"' :: (':' :: colon ++ cs)) ++ rest =
      '"' :: (key ++ '"' :: (':' :: colon ++ (cs ++ rest))) := by
    simp
  rw [heq, entry_eq, hkey, Option.bind_some, hbehind]
  rfl

variable (text tree) in
theorem reads_object (name : α → List ℕ) (body : α → List Char) {colon : List Char}
    (hinner : Blanks inner) (houter : Blanks outer) (hcolon : Blanks colon)
    (hname : ∀ y rest, string (body y ++ '"' :: rest) = some (name y, rest))
    (h : ∀ y ∈ x :: xs, Reads (text y) (tree y)) :
    Reads ('\x7b' :: spaced inner outer '\x7d'
        ('"' :: (body x ++ '"' :: (':' :: colon ++ text x)))
        (xs.map fun y => '"' :: (body y ++ '"' :: (':' :: colon ++ text y))))
      (.object ((name x, tree x) :: xs.map fun y => (name y, tree y))) := by
  obtain ⟨m, hm⟩ := exists_depth h
  refine ⟨max m (xs.length + 1) + 1, fun n hn rest _ => ?_⟩
  obtain ⟨k, rfl⟩ : ∃ k, n = k + 1 := ⟨n - 1, by omega⟩
  obtain ⟨hmk, hlen⟩ := Nat.max_le.mp (Nat.le_of_succ_le_succ hn)
  have hskip : ∀ cs, entry (value k) (inner ++ cs) = entry (value k) cs :=
    entry_blanks hinner
  have hone : ∀ y ∈ x :: xs, ∀ rest, Ends rest →
      entry (value k) ('"' :: (body y ++ '"' :: (':' :: colon ++ text y)) ++ rest) =
        some ((name y, tree y), rest) :=
    fun y hy rest hrest => reads_entry (hname y) hcolon (hm k hmk y hy rest hrest)
  rw [List.cons_append, value_object, bracketed_spaced hinner rfl rfl (by decide) hskip,
    sequence_spaced (fun y => '"' :: (body y ++ '"' :: (':' :: colon ++ text y)))
      (fun y => (name y, tree y)) (Or.inr rfl) hinner houter hskip rest hlen hone]
  rfl

end Nested

/-! ## §4  One reading only -/

section Refines

variable {β : Type} {close : Char}

/-- What the one reads, the other reads in the same way. -/
def Refines (one one' : List Char → Option (β × List Char)) : Prop :=
  ∀ cs p, one cs = some p → one' cs = some p

variable {one one' : List Char → Option (β × List Char)}

theorem sequence_refines (h : Refines one one') : ∀ {n m : ℕ}, n ≤ m →
    Refines (sequence one close n) (sequence one' close m)
  | 0, _, _ => nofun
  | n + 1, m, hle => by
      obtain ⟨m, rfl⟩ : ∃ k, m = k + 1 := ⟨m - 1, by omega⟩
      have ih : Refines (sequence one close n) (sequence one' close m) :=
        sequence_refines h (Nat.le_of_succ_le_succ hle)
      intro cs p hp
      rw [sequence] at hp ⊢
      cases hone : one cs with
      | none =>
          rw [hone] at hp
          cases hp
      | some q =>
          rw [hone] at hp
          rw [h cs q hone]
          dsimp only at hp ⊢
          -- the same blanks, and the same comma or bracket behind them
          split at hp
          · cases hp
          · split at hp
            · obtain ⟨r, hr, heq⟩ := Option.map_eq_some_iff.mp hp
              next c rest hskip hcomma =>
                simp only [if_pos hcomma, ih _ _ hr, Option.map_some, heq]
            · next c rest hskip hcomma =>
                simp only [if_neg hcomma]
                exact hp

theorem bracketed_refines (h : Refines one one') {n m : ℕ} (hle : n ≤ m) :
    Refines (bracketed one close n) (bracketed one' close m) := by
  intro cs p hp
  rw [bracketed] at hp ⊢
  split at hp
  · cases hp
  · next c rest hskip =>
      split at hp
      · next hc =>
          simp only [if_pos hc]
          exact hp
      · next hc =>
          simp only [if_neg hc]
          exact sequence_refines h hle _ _ hp

end Refines

theorem entry_refines {one one' : List Char → Option (Tree × List Char)} (h : Refines one one') :
    Refines (entry one) (entry one') := by
  have hbehind : Refines (behindColon one) (behindColon one') := by
    intro cs p hp
    rw [behindColon] at hp ⊢
    split at hp
    · cases hp
    · next c rest hskip =>
        split at hp
        · next hc =>
            simp only [if_pos hc]
            exact h _ _ hp
        · cases hp
  intro cs p hp
  rw [entry] at hp ⊢
  split at hp
  · cases hp
  · next c rest hskip =>
      split at hp
      · next hc =>
          obtain ⟨key, hkey, hrest⟩ := Option.bind_eq_some_iff.mp hp
          obtain ⟨q, hq, heq⟩ := Option.map_eq_some_iff.mp hrest
          simp only [if_pos hc, hkey, Option.bind_some, hbehind _ _ hq, Option.map_some, heq]
      · cases hp

/-- More depth reads the same, and perhaps more. -/
theorem value_refines : ∀ {n m : ℕ}, n ≤ m → Refines (value n) (value m)
  | 0, _, _ => nofun
  | n + 1, m, hle => by
      obtain ⟨m, rfl⟩ : ∃ k, m = k + 1 := ⟨m - 1, by omega⟩
      have hle := Nat.le_of_succ_le_succ hle
      have ih := value_refines hle
      intro cs p hp
      rw [value] at hp ⊢
      split at hp
      · cases hp
      · next c rest hskip =>
          by_cases hquote : c = '"'
          · rw [if_pos hquote] at hp ⊢
            exact hp
          rw [if_neg hquote] at hp ⊢
          by_cases hbracket : c = '['
          · rw [if_pos hbracket] at hp ⊢
            obtain ⟨q, hq, heq⟩ := Option.map_eq_some_iff.mp hp
            rw [bracketed_refines ih hle _ _ hq, Option.map_some, heq]
          rw [if_neg hbracket] at hp ⊢
          by_cases hbrace : c = '\x7b'
          · rw [if_pos hbrace] at hp ⊢
            obtain ⟨q, hq, heq⟩ := Option.map_eq_some_iff.mp hp
            rw [bracketed_refines (entry_refines ih) hle _ _ hq, Option.map_some, heq]
          rw [if_neg hbrace] at hp ⊢
          exact hp

/-- No text says two things. -/
theorem Parses.unique {cs : List Char} {t t' : Tree} (h : Parses cs t) (h' : Parses cs t') :
    t = t' := by
  obtain ⟨n, rest, hvalue, -⟩ := h
  obtain ⟨n', rest', hvalue', -⟩ := h'
  have hboth := value_refines (Nat.le_max_left n n') _ _ hvalue
  rw [value_refines (Nat.le_max_right n n') _ _ hvalue'] at hboth
  exact (Prod.mk.inj (Option.some.inj hboth)).1.symm

end SpecForge.Lib.JsonText
