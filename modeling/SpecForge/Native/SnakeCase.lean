import SpecForge.Native.Structs

/-!
# snake_case

Both emitters have a `snake`. On a PascalCase form the two are one function, `snakeWords`, which
loses nothing; the Rust one then moves away from reserved names.

- §1 the two functions. §2 on letters and digits. §3 on PascalCase forms.
-/

namespace SpecForge

open Lib Native

/-! ## §1  `snake` -/

/-- `char::is_uppercase` and `char::to_lowercase`, of which only the ASCII part matters here. -/
structure CharCase where
  isUppercase : Char → Bool
  toLowercase : Char → List Char
  isUppercase_ascii : ∀ c : Char, c.val < 128 → isUppercase c = c.isUpper
  toLowercase_ascii : ∀ c : Char, c.val < 128 → toLowercase c = [c.toLower]

/-- What the two functions do as far as ASCII goes. -/
def CharCase.ascii : CharCase where
  isUppercase := Char.isUpper
  toLowercase c := [c.toLower]
  isUppercase_ascii _ _ := rfl
  toLowercase_ascii _ _ := rfl

namespace Go

/-- The loop of `snake`; the flag is `i == 0`. -/
def snakeLoop (u : CharCase) : Bool → List Char → List Char
  | _, [] => []
  | first, ch :: rest =>
      (if u.isUppercase ch then (if first then [] else ['_']) ++ u.toLowercase ch
        else if ch.isAlphanum then [ch]
        else ['_']) ++ snakeLoop u false rest

def snake (u : CharCase) (input : String) : String :=
  String.ofList (snakeLoop u true input.toList)

end Go

namespace Rust

/-- Punctuation is spelled out first. -/
def expandChar (ch : Char) : List Char :=
  if ch = '+' then "plus_".toList
  else if ch = '-' ∨ ch = '−' then "minus_".toList
  else if ch = '.' then "_dot_".toList
  else if ch = '/' then "_slash_".toList
  else if ch = '@' then "_at_".toList
  else if ch = '#' then "_hash_".toList
  else if ch = '$' then "_dollar_".toList
  else if ch = '%' then "_pct_".toList
  else if ch = '&' then "_and_".toList
  else if ch = '*' then "_star_".toList
  else [ch]

/-- The loop over the expanded text, with the output so far; the flag is `i == 0`. -/
def snakeLoop (u : CharCase) (out : List Char) : Bool → List Char → List Char
  | _, [] => out
  | first, ch :: rest =>
      snakeLoop u (out ++
        if u.isUppercase ch then (if first then [] else ['_']) ++ u.toLowercase ch
        else if ch.isAlphanum then [ch.toLower]
        else if ch == '_' && out.getLast? != some '_' then ['_']
        else []) false rest

def rustReserved : List String :=
  ["as", "break", "const", "continue", "crate", "else", "enum", "extern", "false", "fn", "for",
   "if", "impl", "in", "let", "loop", "match", "mod", "move", "mut", "pub", "ref", "return",
   "self", "Self", "static", "struct", "super", "trait", "true", "type", "unsafe", "use", "where",
   "while", "async", "await", "dyn", "abstract", "become", "box", "do", "final", "macro",
   "override", "priv", "typeof", "unsized", "virtual", "yield", "try", "gen", "client", "path",
   "query", "body", "result", "ok", "err", "some", "none", "vec", "string", "option"]

def isRustReserved (s : String) : Bool := rustReserved.contains s

/-- An identifier is not empty and does not start with a digit. -/
def startIdent (out : String) : String :=
  match out.toList with
  | [] => "x"
  | c :: _ => if c.isDigit then "n_" ++ out else out

def escapeReserved (out : String) : String := if isRustReserved out then out ++ "_" else out

def snake (u : CharCase) (input : String) : String :=
  escapeReserved (startIdent (Text.trimMatches '_'
    (String.ofList (snakeLoop u [] true (input.toList.flatMap expandChar)))))

end Rust

/-! ## §2  Letters and digits -/

/-- A capital letter starts a word. -/
def snakeWords : Bool → List Char → List Char
  | _, [] => []
  | first, c :: cs =>
      (if c.isUpper then (if first then [] else ['_']) ++ [c.toLower] else [c])
        ++ snakeWords false cs

section Alphanum

variable {u : CharCase}

theorem val_lt_of_alphanum {c : Char} (h : c.isAlphanum = true) : c.val < 128 := by
  have h' : (c.isUpper || c.isLower || c.isDigit) = true := h
  rw [Bool.or_eq_true, Bool.or_eq_true] at h'
  rcases h' with (h' | h') | h'
  · exact UInt32.lt_of_le_of_lt (Ascii.isUpper_iff.mp h').2 (by decide)
  · exact UInt32.lt_of_le_of_lt (Ascii.isLower_iff.mp h').2 (by decide)
  · have hdigit : '0'.val ≤ c.val ∧ c.val ≤ '9'.val := by simpa [Char.isDigit] using h'
    exact UInt32.lt_of_le_of_lt hdigit.2 (by decide)

theorem ne_underscore_of_alphanum {c : Char} (h : c.isAlphanum = true) : c ≠ '_' := by
  rintro rfl
  cases h

theorem Go.snakeLoop_eq_snakeWords : ∀ {first : Bool} {w : List Char},
    (∀ c ∈ w, c.isAlphanum = true) → Go.snakeLoop u first w = snakeWords first w
  | _, [], _ => rfl
  | first, c :: cs, hw => by
      obtain ⟨hc, hcs⟩ := List.forall_mem_cons.mp hw
      have hval := val_lt_of_alphanum hc
      rw [Go.snakeLoop, snakeWords, Go.snakeLoop_eq_snakeWords hcs, u.isUppercase_ascii c hval,
        u.toLowercase_ascii c hval, if_pos hc]

theorem Rust.snakeLoop_eq_snakeWords : ∀ {first : Bool} {w : List Char} (out : List Char),
    (∀ c ∈ w, c.isAlphanum = true) → Rust.snakeLoop u out first w = out ++ snakeWords first w
  | _, [], out, _ => (List.append_nil out).symm
  | first, c :: cs, out, hw => by
      obtain ⟨hc, hcs⟩ := List.forall_mem_cons.mp hw
      have hval := val_lt_of_alphanum hc
      rw [Rust.snakeLoop, snakeWords, Rust.snakeLoop_eq_snakeWords _ hcs,
        u.isUppercase_ascii c hval, u.toLowercase_ascii c hval, if_pos hc, List.append_assoc]
      by_cases hupper : c.isUpper = true
      · rw [if_pos hupper, if_pos hupper]
      · rw [if_neg hupper, if_neg hupper, Ascii.toLower_eq_self (Bool.eq_false_of_not_eq_true hupper)]

theorem Rust.expandChar_of_alphanum {c : Char} (h : c.isAlphanum = true) :
    Rust.expandChar c = [c] := by
  have hne : ∀ d : Char, d.isAlphanum = false → c ≠ d := by
    rintro d hd rfl
    rw [h] at hd
    cases hd
  unfold Rust.expandChar
  rw [if_neg (hne '+' rfl), if_neg (not_or.mpr ⟨hne '-' rfl, hne '−' (by decide)⟩),
    if_neg (hne '.' rfl), if_neg (hne '/' rfl), if_neg (hne '@' rfl), if_neg (hne '#' rfl),
    if_neg (hne '$' rfl), if_neg (hne '%' rfl), if_neg (hne '&' rfl), if_neg (hne '*' rfl)]

theorem Rust.flatMap_expandChar {w : List Char} (hw : ∀ c ∈ w, c.isAlphanum = true) :
    w.flatMap Rust.expandChar = w := by
  induction w with
  | nil => rfl
  | cons c cs ih =>
      obtain ⟨hc, hcs⟩ := List.forall_mem_cons.mp hw
      rw [List.flatMap_cons, Rust.expandChar_of_alphanum hc, ih hcs]
      rfl

/-- A word can be read back: only a capital letter leaves an underscore. -/
theorem snakeWords_inj : ∀ {v w : List Char}, (∀ c ∈ v, c.isAlphanum = true) →
    (∀ c ∈ w, c.isAlphanum = true) → snakeWords false v = snakeWords false w → v = w
  | [], [], _, _, _ => rfl
  | [], d :: ds, _, _, h => by
      rw [snakeWords, snakeWords] at h
      split at h <;> simp at h
  | c :: cs, [], _, _, h => by
      rw [snakeWords, snakeWords] at h
      split at h <;> simp at h
  | c :: cs, d :: ds, hv, hw, h => by
      obtain ⟨hc, hcs⟩ := List.forall_mem_cons.mp hv
      obtain ⟨hd, hds⟩ := List.forall_mem_cons.mp hw
      rw [snakeWords, snakeWords] at h
      by_cases hcu : c.isUpper = true <;> by_cases hdu : d.isUpper = true
      · simp only [hcu, hdu, if_true, Bool.false_eq_true, if_false, List.cons_append,
          List.nil_append, List.cons.injEq, true_and] at h
        rw [Ascii.toLower_inj hcu hdu h.1, snakeWords_inj hcs hds h.2]
      · simp only [hcu, hdu, if_true, Bool.false_eq_true, if_false, List.cons_append,
          List.nil_append, List.cons.injEq] at h
        exact absurd h.1.symm (ne_underscore_of_alphanum hd)
      · simp only [hcu, hdu, if_true, Bool.false_eq_true, if_false, List.cons_append,
          List.nil_append, List.cons.injEq] at h
        exact absurd h.1 (ne_underscore_of_alphanum hc)
      · simp only [hcu, hdu, Bool.false_eq_true, if_false, List.cons_append, List.nil_append,
          List.cons.injEq] at h
        rw [h.1, snakeWords_inj hcs hds h.2]

/-- The last word, in lower case, with what is in front of `w` of it. -/
def lastWordLoop (front : List Char) : List Char → List Char
  | [] => front
  | c :: cs =>
      if c.isUpper then lastWordLoop [c.toLower] cs else lastWordLoop (front ++ [c]) cs

/-- The last word stands behind the last underscore. -/
theorem snakeWords_lastWord : ∀ {w : List Char} (front : List Char),
    ∃ r, '_' :: (front ++ snakeWords false w) = r ++ '_' :: lastWordLoop front w
  | [], front => ⟨[], by simp [snakeWords, lastWordLoop]⟩
  | c :: cs, front => by
      rw [snakeWords, lastWordLoop]
      by_cases hupper : c.isUpper = true
      · obtain ⟨r, hr⟩ := snakeWords_lastWord (w := cs) [c.toLower]
        refine ⟨'_' :: (front ++ r), ?_⟩
        rw [if_pos hupper, if_pos hupper, List.cons_append, List.append_assoc front r, ← hr]
        simp
      · obtain ⟨r, hr⟩ := snakeWords_lastWord (w := cs) (front ++ [c])
        refine ⟨r, ?_⟩
        rw [if_neg hupper, if_neg hupper, ← hr]
        simp

theorem underscore_notMem_lastWordLoop : ∀ {w front : List Char},
    (∀ c ∈ w, c.isAlphanum = true) → '_' ∉ front → '_' ∉ lastWordLoop front w
  | [], _, _, hfront => hfront
  | c :: cs, front, hw, hfront => by
      obtain ⟨hc, hcs⟩ := List.forall_mem_cons.mp hw
      rw [lastWordLoop]
      split
      · apply underscore_notMem_lastWordLoop hcs
        rw [List.mem_singleton]
        exact (ne_underscore_of_alphanum (Ascii.alphanum_toLower hc)).symm
      · apply underscore_notMem_lastWordLoop hcs
        rw [List.mem_append, List.mem_singleton, not_or]
        exact ⟨hfront, (ne_underscore_of_alphanum hc).symm⟩

/-- No word ends in an underscore. -/
theorem snakeWords_concat : ∀ {b : Bool} {w : List Char}, w ≠ [] →
    (∀ c ∈ w, c.isAlphanum = true) → ∃ l d, snakeWords b w = l ++ [d] ∧ d.isAlphanum = true
  | _, [], hne, _ => absurd rfl hne
  | b, [c], _, hw => by
      have hc := List.forall_mem_singleton.mp hw
      rw [snakeWords, snakeWords, List.append_nil]
      split
      · exact ⟨_, c.toLower, rfl, Ascii.alphanum_toLower hc⟩
      · exact ⟨[], c, rfl, hc⟩
  | b, c :: c' :: cs, _, hw => by
      obtain ⟨-, hcs⟩ := List.forall_mem_cons.mp hw
      obtain ⟨l, d, hl, hd⟩ := snakeWords_concat (b := false) (List.cons_ne_nil c' cs) hcs
      rw [snakeWords, hl, ← List.append_assoc]
      exact ⟨_, d, rfl, hd⟩

end Alphanum

/-! ## §3  PascalCase forms -/

section Pascal

variable {u : CharCase}

/-- The last word of a PascalCase form, in lower case. -/
def lastWord (w : String) : String := String.ofList (lastWordLoop [] w.toList)

theorem Go.toList_snake_pascal (s : String) :
    (Go.snake u (pascal s)).toList = snakeWords true (pascal s).toList := by
  rw [Go.snake, String.toList_ofList, Go.snakeLoop_eq_snakeWords]
  rw [pascal, String.toList_ofList]
  exact alphanum_pascalChars s.toList

/-- The shape of a PascalCase form and of its words. -/
theorem Go.snake_pascal_shape (s : String) : ∃ c cs, (pascal s).toList = c :: cs ∧
    c.isUpper = true ∧ (∀ d ∈ cs, d.isAlphanum = true) ∧
    (Go.snake u (pascal s)).toList = c.toLower :: snakeWords false cs := by
  obtain ⟨c, cs, hcs, hc⟩ := head_pascalChars s.toList
  have hlist : (pascal s).toList = c :: cs := String.toList_ofList.trans hcs
  have hall := alphanum_pascalChars s.toList
  rw [hcs, List.forall_mem_cons] at hall
  refine ⟨c, cs, hlist, hc, hall.2, ?_⟩
  rw [Go.toList_snake_pascal, hlist, snakeWords, if_pos hc]
  rfl

theorem Go.snake_pascal_inj {s t : String} :
    Go.snake u (pascal s) = Go.snake u (pascal t) ↔ pascal s = pascal t := by
  refine ⟨fun h => ?_, congrArg _⟩
  obtain ⟨c, cs, hs, hc, hcs, hsnake⟩ := Go.snake_pascal_shape (u := u) s
  obtain ⟨d, ds, ht, hd, hds, hsnake'⟩ := Go.snake_pascal_shape (u := u) t
  have h' := congrArg String.toList h
  rw [hsnake, hsnake'] at h'
  obtain ⟨hhead, htail⟩ := List.cons.inj h'
  apply String.toList_inj.mp
  rw [hs, ht, Ascii.toLower_inj hc hd hhead, snakeWords_inj hcs hds htail]

/-- The first and the last character of the words of a PascalCase form. -/
theorem Go.snake_pascal_ends (s : String) :
    (∃ c cs, (Go.snake u (pascal s)).toList = c :: cs ∧ c.isLower = true) ∧
      ∃ l d, (Go.snake u (pascal s)).toList = l ++ [d] ∧ d.isAlphanum = true := by
  obtain ⟨c, cs, hs, hc, hcs, hsnake⟩ := Go.snake_pascal_shape (u := u) s
  refine ⟨⟨_, _, hsnake, Ascii.isLower_toLower hc⟩, ?_⟩
  rw [Go.toList_snake_pascal, pascal, String.toList_ofList]
  refine snakeWords_concat ?_ (alphanum_pascalChars s.toList)
  rw [pascal, String.toList_ofList] at hs
  rw [hs]
  exact List.cons_ne_nil c cs

/-- **On PascalCase forms the two `snake` are one, but for reserved names.** -/
theorem Rust.snake_pascal (s : String) :
    Rust.snake u (pascal s) = Rust.escapeReserved (Go.snake u (pascal s)) := by
  have hall := alphanum_pascalChars s.toList
  have hlist : (pascal s).toList = pascalChars s.toList := String.toList_ofList
  have hloop : String.ofList (Rust.snakeLoop u [] true ((pascal s).toList.flatMap Rust.expandChar))
      = Go.snake u (pascal s) := by
    apply String.toList_inj.mp
    rw [Go.toList_snake_pascal, String.toList_ofList, hlist, Rust.flatMap_expandChar hall,
      Rust.snakeLoop_eq_snakeWords [] hall, List.nil_append]
  obtain ⟨⟨c, cs, hhead, hc⟩, l, d, hlast, hd⟩ := Go.snake_pascal_ends (u := u) s
  have htrim : Text.trimMatches '_' (Go.snake u (pascal s)) = Go.snake u (pascal s) := by
    apply Text.trimMatches_eq_self
    · rw [hhead]
      rintro ⟨⟩
      cases hc
    · rw [hlast, List.getLast?_concat]
      rintro ⟨⟩
      cases hd
  have hstart : Rust.startIdent (Go.snake u (pascal s)) = Go.snake u (pascal s) := by
    unfold Rust.startIdent
    rw [hhead]
    dsimp only
    rw [if_neg]
    intro hdigit
    rw [Ascii.isLower_eq_false_of_isDigit hdigit] at hc
    cases hc
  rw [Rust.snake, hloop, htrim, hstart]

theorem Rust.escapeReserved_cases (out : String) :
    Rust.escapeReserved out = out ∨ Rust.escapeReserved out = out ++ "_" := by
  unfold Rust.escapeReserved
  by_cases h : Rust.isRustReserved out = true
  · exact Or.inr (if_pos h)
  · exact Or.inl (if_neg h)

/-- Where a name is escaped it ends in an underscore, as no other does. -/
theorem Rust.snake_pascal_inj {s t : String} :
    Rust.snake u (pascal s) = Rust.snake u (pascal t) ↔ pascal s = pascal t := by
  refine ⟨fun h => ?_, congrArg _⟩
  have hends : ∀ r q : String, Go.snake u (pascal r) ≠ q ++ "_" := by
    intro r q heq
    obtain ⟨-, l, d, hlast, hd⟩ := Go.snake_pascal_ends (u := u) r
    have hunderscore : "_".toList = ['_'] := rfl
    have hd' := congrArg List.getLast? hlast
    rw [heq, String.toList_append, hunderscore, List.getLast?_concat, List.getLast?_concat] at hd'
    rw [← Option.some.inj hd'] at hd
    cases hd
  rw [Rust.snake_pascal, Rust.snake_pascal] at h
  rcases Rust.escapeReserved_cases (Go.snake u (pascal s)) with hs | hs <;>
    rcases Rust.escapeReserved_cases (Go.snake u (pascal t)) with ht | ht <;>
    rw [hs, ht] at h
  · exact Go.snake_pascal_inj.mp h
  · exact absurd h (hends s (Go.snake u (pascal t)))
  · exact absurd h.symm (hends t (Go.snake u (pascal s)))
  · exact Go.snake_pascal_inj.mp (Text.append_inj_right h)

/-- The words of a PascalCase form behind an underscore end in one more and the last word. -/
theorem Go.underscore_snake_pascal (s : String) :
    ∃ r, "_" ++ Go.snake u (pascal s) = r ++ "_" ++ lastWord (pascal s) := by
  obtain ⟨c, cs, hs, hc, hcs, hsnake⟩ := Go.snake_pascal_shape (u := u) s
  obtain ⟨r, hr⟩ := snakeWords_lastWord (w := cs) [c.toLower]
  refine ⟨String.ofList r, String.toList_inj.mp ?_⟩
  have hlast : lastWordLoop [] (c :: cs) = lastWordLoop [c.toLower] cs := by
    rw [lastWordLoop, if_pos hc]
  simp only [String.toList_append, hsnake, lastWord, hs, String.toList_ofList, hlast]
  simpa using hr

theorem underscore_notMem_lastWord (s : String) : '_' ∉ (lastWord (pascal s)).toList := by
  rw [lastWord, String.toList_ofList, pascal, String.toList_ofList]
  exact underscore_notMem_lastWordLoop (alphanum_pascalChars s.toList) (by simp)

end Pascal

end SpecForge
