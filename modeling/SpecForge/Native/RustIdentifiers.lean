import SpecForge.Lib.UniqueNames
import SpecForge.Native.Calls

/-!
# Identifiers in Rust declarations

- §1 which texts are identifiers; §2 what `snake` loses; §3 when it gives an identifier; §4 the
  fields of a struct; §5 the arguments of a function.

`snake` keeps the small form of every capital letter, be it a letter of identifiers or not: the
small form of a circled letter is none.
-/

namespace SpecForge.Rust

open Native Lib

/-! ## §1  Identifiers -/

/-- The characters of identifiers. -/
structure Letters extends CharCase where
  xidStart : Char → Bool
  xidContinue : Char → Bool
  xidStart_ascii : ∀ c : Char, c.val < 128 → xidStart c = c.isAlpha
  xidContinue_ascii : ∀ c : Char, c.val < 128 → xidContinue c = (c.isAlphanum || c == '_')
  xidContinue_of_start : ∀ c : Char, xidStart c = true → xidContinue c = true
  /-- A small form starts with a letter, or with a symbol. -/
  xidStart_toLowercase : ∀ c : Char, isUppercase c = true → ∃ x xs, toLowercase c = x :: xs ∧
    x ≠ '_' ∧ (xidContinue x = true → xidStart x = true)

/-- As far as ASCII goes. -/
def Letters.ascii : Letters where
  toCharCase := CharCase.ascii
  xidStart := Char.isAlpha
  xidContinue c := c.isAlphanum || c == '_'
  xidStart_ascii _ _ := rfl
  xidContinue_ascii _ _ := rfl
  xidContinue_of_start c h := by
    rw [Char.isAlphanum, h, Bool.true_or, Bool.true_or]
  xidStart_toLowercase c h := by
    refine ⟨c.toLower, [], rfl, Ascii.toLower_ne_underscore h, fun _ => ?_⟩
    show (c.toLower.isUpper || c.toLower.isLower) = true
    rw [Ascii.isLower_toLower h, Bool.or_true]

def keywords : List String :=
  ["as", "break", "const", "continue", "crate", "else", "enum", "extern", "false", "fn", "for",
   "if", "impl", "in", "let", "loop", "match", "mod", "move", "mut", "pub", "ref", "return",
   "self", "Self", "static", "struct", "super", "trait", "true", "type", "unsafe", "use", "where",
   "while", "async", "await", "dyn", "abstract", "become", "box", "do", "final", "macro",
   "override", "priv", "typeof", "unsized", "virtual", "yield", "try"]

/-- An underscore alone is no identifier. -/
def isIdentifier (l : Letters) (s : String) : Bool :=
  match s.toList with
  | [] => false
  | c :: cs =>
      (l.xidStart c || c == '_' && !cs.isEmpty) && cs.all l.xidContinue && !keywords.contains s

/-- All keywords are reserved names. -/
theorem keywords_subset : keywords ⊆ rustReserved := by decide

section Identifiers

variable {l : Letters} {s : String} {c : Char} {cs : List Char}

theorem isIdentifier_iff (hs : s.toList = c :: cs) (hc : c ≠ '_') : isIdentifier l s = true ↔
    l.xidStart c = true ∧ (∀ x ∈ cs, l.xidContinue x = true) ∧ s ∉ keywords := by
  have hunderscore : (c == '_') = false := beq_false_of_ne hc
  rw [isIdentifier, hs]
  simp only [hunderscore, Bool.false_and, Bool.or_false, Bool.and_eq_true, List.all_eq_true,
    Bool.not_eq_true', List.contains_eq_mem, decide_eq_false_iff_not, and_assoc]

theorem Letters.xidContinue_underscore (l : Letters) : l.xidContinue '_' = true :=
  l.xidContinue_ascii '_' (by decide)

theorem Letters.xidContinue_of_alphanum (l : Letters) (h : c.isAlphanum = true) :
    l.xidContinue c = true := by
  rw [l.xidContinue_ascii c (val_lt_of_alphanum h), h, Bool.true_or]

/-- Small letters are an identifier, unless they are a keyword. -/
theorem isIdentifier_word (l : Letters) (hne : s ≠ "")
    (hs : ∀ x ∈ s.toList, x.isLower = true) (hkey : s ∉ keywords) : isIdentifier l s = true := by
  have hletter : ∀ x : Char, x.isLower = true → x.isAlpha = true := by
    intro x hx
    show (x.isUpper || x.isLower) = true
    rw [hx, Bool.or_true]
  have halnum : ∀ x : Char, x.isLower = true → x.isAlphanum = true := by
    intro x hx
    rw [Char.isAlphanum, hletter x hx, Bool.true_or]
  cases htext : s.toList with
  | nil => exact absurd (String.toList_eq_nil_iff.mp htext) hne
  | cons c cs =>
      rw [htext, List.forall_mem_cons] at hs
      rw [isIdentifier_iff htext (ne_underscore_of_alphanum (halnum c hs.1))]
      refine ⟨?_, fun x hx => l.xidContinue_of_alphanum (halnum x (hs.2 x hx)), hkey⟩
      rw [l.xidStart_ascii c (val_lt_of_alphanum (halnum c hs.1))]
      exact hletter c hs.1

end Identifiers

/-! ## §2  What `snake` loses -/

/-- The words of a name, before reserved names and digits in front are seen to. -/
def snakeForm (u : CharCase) (name : String) : String :=
  Text.trimMatches '_' (String.ofList (snakeLoop u [] true (name.toList.flatMap expandChar)))

/-- Two texts that end up as one: one is empty, or starts with a digit, and is given the other. -/
def Replaces (s t : String) : Prop :=
  s = "" ∧ t = "x" ∨ s.toList.head?.any Char.isDigit = true ∧ t = "n_" ++ s

/-- Two names that give one identifier. -/
def Clash (u : CharCase) (a b : String) : Prop :=
  snakeForm u a = snakeForm u b ∨ Replaces (snakeForm u a) (snakeForm u b) ∨
    Replaces (snakeForm u b) (snakeForm u a)

theorem startIdent_cases (s : String) :
    s = "" ∧ startIdent s = "x" ∨
    s.toList.head?.any Char.isDigit = true ∧ startIdent s = "n_" ++ s ∨
    s ≠ "" ∧ s.toList.head?.any Char.isDigit = false ∧ startIdent s = s := by
  unfold startIdent
  split
  · next h => exact Or.inl ⟨String.toList_eq_nil_iff.mp h, rfl⟩
  · next c cs h =>
      have hne : s ≠ "" := by
        rintro rfl
        cases h
      rw [h, List.head?_cons, Option.any_some]
      cases hc : c.isDigit with
      | true => exact Or.inr (Or.inl ⟨rfl, rfl⟩)
      | false => exact Or.inr (Or.inr ⟨hne, rfl, rfl⟩)

theorem head_n_append (s : String) : ("n_" ++ s).toList.head?.any Char.isDigit = false := by
  rw [String.toList_append]
  rfl

theorem n_append_ne (s : String) : "n_" ++ s ≠ "" ∧ "n_" ++ s ≠ "x" := by
  constructor <;> intro h <;> have hlist := congrArg String.toList h <;>
    rw [String.toList_append] at hlist <;> cases hlist

theorem startIdent_of_replaces {s t : String} (h : Replaces s t) :
    startIdent s = startIdent t := by
  rcases h with ⟨rfl, rfl⟩ | ⟨hdigit, rfl⟩
  · rfl
  · rcases startIdent_cases s with ⟨rfl, -⟩ | ⟨-, heq⟩ | ⟨-, hnot, -⟩
    · cases hdigit
    · rcases startIdent_cases ("n_" ++ s) with ⟨h, -⟩ | ⟨h, -⟩ | ⟨-, -, heq'⟩
      · exact absurd h (n_append_ne s).1
      · rw [head_n_append] at h
        cases h
      · rw [heq, heq']
    · rw [hnot] at hdigit
      cases hdigit

theorem startIdent_eq_iff (s t : String) :
    startIdent s = startIdent t ↔ s = t ∨ Replaces s t ∨ Replaces t s := by
  constructor
  · intro h
    rcases startIdent_cases s with ⟨hs, heq⟩ | ⟨hs, heq⟩ | ⟨-, -, heq⟩ <;>
      rcases startIdent_cases t with ⟨ht, heq'⟩ | ⟨ht, heq'⟩ | ⟨-, -, heq'⟩ <;>
      rw [heq, heq'] at h
    · exact Or.inl (hs.trans ht.symm)
    · exact absurd h.symm (n_append_ne t).2
    · exact Or.inr (Or.inl (Or.inl ⟨hs, h.symm⟩))
    · exact absurd h (n_append_ne s).2
    · exact Or.inl (String.append_right_inj "n_" |>.mp h)
    · exact Or.inr (Or.inl (Or.inr ⟨hs, h.symm⟩))
    · exact Or.inr (Or.inr (Or.inl ⟨ht, h⟩))
    · exact Or.inr (Or.inr (Or.inr ⟨ht, h⟩))
    · exact Or.inl h
  · rintro (rfl | h | h)
    · rfl
    · exact startIdent_of_replaces h
    · exact (startIdent_of_replaces h).symm

/-- No reserved name ends in an underscore. -/
theorem escapeReserved_notMem (s : String) : escapeReserved s ∉ rustReserved := by
  unfold escapeReserved
  split
  · next h =>
      have hall : (rustReserved.all fun r => !rustReserved.contains (r ++ "_")) = true := by decide
      simpa using List.all_eq_true.mp hall s (List.contains_iff_mem.mp h)
  · next h => exact fun hmem => h (List.contains_iff_mem.mpr hmem)

theorem getLast?_append_underscore (s : String) : (s ++ "_").toList.getLast? = some '_' := by
  rw [String.toList_append]
  exact List.getLast?_concat

theorem escapeReserved_inj {s t : String} (hs : s.toList.getLast? ≠ some '_')
    (ht : t.toList.getLast? ≠ some '_') (h : escapeReserved s = escapeReserved t) : s = t := by
  unfold escapeReserved at h
  split at h <;> split at h
  · exact String.append_left_inj "_" |>.mp h
  · rw [← h] at ht
    exact absurd (getLast?_append_underscore s) ht
  · rw [h] at hs
    exact absurd (getLast?_append_underscore t) hs
  · exact h

theorem getLast?_snakeForm (u : CharCase) (name : String) :
    (startIdent (snakeForm u name)).toList.getLast? ≠ some '_' := by
  obtain ⟨-, -, hlast⟩ := Text.exists_trimMatches '_'
    (String.ofList (snakeLoop u [] true (name.toList.flatMap expandChar)))
  rcases startIdent_cases (snakeForm u name) with ⟨-, heq⟩ | ⟨hdigit, heq⟩ | ⟨-, -, heq⟩
  · rw [heq]
    decide
  · have hne : (snakeForm u name).toList ≠ [] := by
      intro hnil
      rw [hnil] at hdigit
      cases hdigit
    rw [heq, String.toList_append, List.getLast?_append_of_ne_nil _ hne]
    exact hlast
  · rw [heq]
    exact hlast

theorem snake_eq_iff (u : CharCase) (a b : String) : snake u a = snake u b ↔ Clash u a b := by
  rw [Clash, ← startIdent_eq_iff]
  constructor
  · exact escapeReserved_inj (getLast?_snakeForm u a) (getLast?_snakeForm u b)
  · intro h
    show escapeReserved (startIdent (snakeForm u a)) = escapeReserved (startIdent (snakeForm u b))
    rw [h]

/-! ## §3  When `snake` gives an identifier -/

/-- What a character adds to the output. -/
def snakeBlock (u : CharCase) (out : List Char) (first : Bool) (ch : Char) : List Char :=
  if u.isUppercase ch then (if first then [] else ['_']) ++ u.toLowercase ch
  else if ch.isAlphanum then [ch.toLower]
  else if ch == '_' && out.getLast? != some '_' then ['_']
  else []

theorem snakeLoop_cons (u : CharCase) (out : List Char) (first : Bool) (ch : Char)
    (rest : List Char) : snakeLoop u out first (ch :: rest) =
      snakeLoop u (out ++ snakeBlock u out first ch) false rest := rfl

/-- The small forms of the capital letters of the name belong to identifiers. -/
def Spelled (l : Letters) (name : String) : Prop :=
  ∀ c ∈ name.toList.flatMap expandChar, l.isUppercase c = true →
    ∀ x ∈ l.toLowercase c, l.xidContinue x = true

/-- A character that a word can start with. -/
def StartsWord (u : CharCase) (x : Char) : Prop :=
  x.isAlphanum = true ∨ ∃ c, u.isUppercase c = true ∧ (u.toLowercase c).head? = some x

section Loop

variable {l : Letters}

/-- The output keeps what it has and the small forms of what is still to come. -/
theorem mem_snakeLoop_of {u : CharCase} {x : Char} : ∀ {cs out : List Char} {first : Bool},
    (x ∈ out ∨ ∃ c ∈ cs, u.isUppercase c = true ∧ x ∈ u.toLowercase c) →
      x ∈ snakeLoop u out first cs
  | [], out, first, h => by
      rcases h with h | ⟨c, hc, -⟩
      · exact h
      · cases hc
  | ch :: cs, out, first, h => by
      rw [snakeLoop_cons]
      apply mem_snakeLoop_of
      rw [List.mem_append]
      rcases h with h | ⟨c, hc, hupper, hx⟩
      · exact Or.inl (Or.inl h)
      · rcases List.mem_cons.mp hc with rfl | hc
        · refine Or.inl (Or.inr ?_)
          rw [snakeBlock, if_pos hupper]
          exact List.mem_append_right _ hx
        · exact Or.inr ⟨c, hc, hupper, hx⟩

/-- Everything else in the output belongs to identifiers anyway. -/
theorem xidContinue_snakeLoop : ∀ {cs out : List Char} {first : Bool},
    (∀ c ∈ cs, l.isUppercase c = true → ∀ x ∈ l.toLowercase c, l.xidContinue x = true) →
    (∀ x ∈ out, l.xidContinue x = true) →
      ∀ x ∈ snakeLoop l.toCharCase out first cs, l.xidContinue x = true
  | [], _, _, _, hout => hout
  | ch :: cs, out, first, hcs, hout => by
      obtain ⟨hch, hcs⟩ := List.forall_mem_cons.mp hcs
      rw [snakeLoop_cons]
      apply xidContinue_snakeLoop hcs
      intro x hx
      rcases List.mem_append.mp hx with hx | hx
      · exact hout x hx
      · unfold snakeBlock at hx
        split at hx
        · next hupper =>
            rcases List.mem_append.mp hx with hx | hx
            · split at hx
              · cases hx
              · rw [List.mem_singleton.mp hx]
                exact l.xidContinue_underscore
            · exact hch hupper x hx
        · split at hx
          · next halnum =>
              rw [List.mem_singleton.mp hx]
              exact l.xidContinue_of_alphanum (Ascii.alphanum_toLower halnum)
          · split at hx
            · rw [List.mem_singleton.mp hx]
              exact l.xidContinue_underscore
            · cases hx

/-- Behind its underscores, a block starts with a letter, a digit or a small form. -/
theorem startsWord_snakeBlock (out : List Char) (first : Bool) (ch : Char) {x : Char}
    (h : ((snakeBlock l.toCharCase out first ch).dropWhile (· == '_')).head? = some x) :
    StartsWord l.toCharCase x := by
  unfold snakeBlock at h
  split at h
  · next hupper =>
      obtain ⟨y, ys, hlower, hy, -⟩ := l.xidStart_toLowercase ch hupper
      have hkept : ((y :: ys).dropWhile (· == '_')) = y :: ys :=
        List.dropWhile_cons_of_neg (by simpa using hy)
      have hskip : (('_' :: y :: ys).dropWhile (· == '_')) = y :: ys := hkept
      refine Or.inr ⟨ch, hupper, ?_⟩
      rw [hlower] at h ⊢
      split at h
      · rw [List.nil_append, hkept] at h
        exact h
      · rw [List.singleton_append, hskip] at h
        exact h
  · split at h
    · next halnum =>
        have hne := ne_underscore_of_alphanum (Ascii.alphanum_toLower halnum)
        rw [List.dropWhile_cons_of_neg (by simpa using hne), List.head?_cons] at h
        cases h
        exact Or.inl (Ascii.alphanum_toLower halnum)
    · split at h
      · cases h
      · cases h

theorem startsWord_snakeLoop : ∀ {cs out : List Char} {first : Bool},
    (∀ x, (out.dropWhile (· == '_')).head? = some x → StartsWord l.toCharCase x) →
      ∀ x, ((snakeLoop l.toCharCase out first cs).dropWhile (· == '_')).head? = some x →
        StartsWord l.toCharCase x
  | [], _, _, hout => hout
  | ch :: cs, out, first, hout => by
      rw [snakeLoop_cons]
      apply startsWord_snakeLoop
      intro x hx
      rw [List.dropWhile_append] at hx
      split at hx
      · exact startsWord_snakeBlock out first ch hx
      · next hne =>
          rw [List.isEmpty_iff] at hne
          rw [List.head?_append_of_ne_nil _ hne] at hx
          exact hout x hx

end Loop

section SnakeForm

variable (l : Letters) (name : String)

theorem xidContinue_snakeForm_iff :
    (∀ x ∈ (snakeForm l.toCharCase name).toList, l.xidContinue x = true) ↔ Spelled l name := by
  constructor
  · intro h c hc hupper x hx
    by_cases hunderscore : x = '_'
    · rw [hunderscore]
      exact l.xidContinue_underscore
    · apply h x
      rw [snakeForm, Text.mem_trimMatches hunderscore, String.toList_ofList]
      exact mem_snakeLoop_of (Or.inr ⟨c, hc, hupper, hx⟩)
  · intro h x hx
    by_cases hunderscore : x = '_'
    · rw [hunderscore]
      exact l.xidContinue_underscore
    · rw [snakeForm, Text.mem_trimMatches hunderscore, String.toList_ofList] at hx
      exact xidContinue_snakeLoop h (by simp) x hx

theorem startsWord_snakeForm {x : Char}
    (hx : (snakeForm l.toCharCase name).toList.head? = some x) : StartsWord l.toCharCase x := by
  obtain ⟨n, heq, -⟩ := Text.exists_trimMatches '_'
    (String.ofList (snakeLoop l.toCharCase [] true (name.toList.flatMap expandChar)))
  have hne : (snakeForm l.toCharCase name).toList ≠ [] := by
    intro hnil
    rw [hnil] at hx
    cases hx
  rw [String.toList_ofList] at heq
  refine @startsWord_snakeLoop l (name.toList.flatMap expandChar) [] true (by simp) x ?_
  rw [heq]
  exact (List.head?_append_of_ne_nil _ hne).trans hx

/-- The identifier starts with a letter, or with a symbol. -/
theorem head_startIdent : ∃ c cs, (startIdent (snakeForm l.toCharCase name)).toList = c :: cs ∧
    c ≠ '_' ∧ (l.xidContinue c = true → l.xidStart c = true) := by
  rcases startIdent_cases (snakeForm l.toCharCase name) with ⟨-, h⟩ | ⟨-, h⟩ | ⟨hne, hdigit, h⟩
  · rw [h]
    exact ⟨'x', [], rfl, by decide, fun _ => l.xidStart_ascii 'x' (by decide)⟩
  · rw [h]
    refine ⟨'n', '_' :: (snakeForm l.toCharCase name).toList, ?_, by decide,
      fun _ => l.xidStart_ascii 'n' (by decide)⟩
    rw [String.toList_append]
    rfl
  · rw [h]
    cases hs : (snakeForm l.toCharCase name).toList with
    | nil => exact absurd (String.toList_eq_nil_iff.mp hs) hne
    | cons c cs =>
        rw [hs, List.head?_cons, Option.any_some] at hdigit
        refine ⟨c, cs, rfl, ?_⟩
        rcases startsWord_snakeForm l name (hs ▸ rfl : _ = some c) with halnum | ⟨ch, hupper, hc⟩
        · refine ⟨ne_underscore_of_alphanum halnum, fun _ => ?_⟩
          rw [l.xidStart_ascii c (val_lt_of_alphanum halnum)]
          rwa [Char.isAlphanum, hdigit, Bool.or_false] at halnum
        · obtain ⟨x, xs, hlower, hx, hstart⟩ := l.xidStart_toLowercase ch hupper
          rw [hlower, List.head?_cons] at hc
          cases hc
          exact ⟨hx, hstart⟩

theorem xidContinue_startIdent_iff :
    (∀ x ∈ (startIdent (snakeForm l.toCharCase name)).toList, l.xidContinue x = true) ↔
      Spelled l name := by
  rw [← xidContinue_snakeForm_iff]
  rcases startIdent_cases (snakeForm l.toCharCase name) with ⟨h, h'⟩ | ⟨-, h⟩ | ⟨-, -, h⟩
  · rw [h', h]
    refine ⟨fun _ x hx => (List.not_mem_nil hx).elim, fun _ x hx => ?_⟩
    rw [List.mem_singleton.mp hx]
    exact l.xidContinue_of_alphanum (by decide)
  · rw [h, String.toList_append]
    refine ⟨fun hall x hx => hall x (List.mem_append_right _ hx), fun hall x hx => ?_⟩
    rcases List.mem_append.mp hx with hx | hx
    · rcases List.mem_pair.mp hx with rfl | rfl
      · exact l.xidContinue_of_alphanum (by decide)
      · exact l.xidContinue_underscore
    · exact hall x hx
  · rw [h]

variable {name}

/-- What is put behind an identifier leaves it one, unless that makes it a keyword. -/
theorem isIdentifier_append_iff {t : String} (ht : ∀ x ∈ t.toList, l.xidContinue x = true)
    (hkey : startIdent (snakeForm l.toCharCase name) ++ t ∉ keywords) :
    isIdentifier l (startIdent (snakeForm l.toCharCase name) ++ t) = true ↔ Spelled l name := by
  obtain ⟨c, cs, hs, hc, hstart⟩ := head_startIdent l name
  have happend : (startIdent (snakeForm l.toCharCase name) ++ t).toList =
      c :: (cs ++ t.toList) := by
    rw [String.toList_append, hs, List.cons_append]
  rw [isIdentifier_iff happend hc, ← xidContinue_startIdent_iff, hs, List.forall_mem_cons]
  constructor
  · rintro ⟨hfirst, hrest, -⟩
    exact ⟨l.xidContinue_of_start c hfirst, fun x hx => hrest x (List.mem_append_left _ hx)⟩
  · rintro ⟨hfirst, hrest⟩
    refine ⟨hstart hfirst, fun x hx => ?_, hkey⟩
    exact (List.mem_append.mp hx).elim (hrest x) (ht x)

/-- A reserved name gets an underscore. -/
theorem exists_snake : ∃ t : String, snake l.toCharCase name =
    startIdent (snakeForm l.toCharCase name) ++ t ∧ ∀ x ∈ t.toList, l.xidContinue x = true := by
  show ∃ t : String, escapeReserved (startIdent (snakeForm l.toCharCase name)) = _ ∧ _
  unfold escapeReserved
  split
  · refine ⟨"_", rfl, fun x hx => ?_⟩
    rw [List.mem_singleton.mp hx]
    exact l.xidContinue_underscore
  · exact ⟨"", String.append_empty.symm, fun x hx => (List.not_mem_nil hx).elim⟩

theorem isIdentifier_snake_iff :
    isIdentifier l (snake l.toCharCase name) = true ↔ Spelled l name := by
  have hkey : snake l.toCharCase name ∉ keywords := fun h =>
    escapeReserved_notMem _ (keywords_subset h)
  obtain ⟨t, heq, ht⟩ := @exists_snake l name
  rw [heq] at hkey ⊢
  exact isIdentifier_append_iff l ht hkey

/-- A name with a number is an identifier as well. -/
theorem isIdentifier_numbered_iff (n : ℕ) :
    isIdentifier l (snake l.toCharCase name ++ "_" ++ toString n) = true ↔ Spelled l name := by
  have hkey : snake l.toCharCase name ++ "_" ++ toString n ∉ keywords := by
    intro h
    have hlast : (keywords.all fun w => !(w.toList.getLast?.any Char.isDigit)) = true := by decide
    obtain ⟨c, hc, hdigit⟩ :=
      UniqueNames.exists_getLast?_append_toString (snake l.toCharCase name ++ "_") n
    have hw := List.all_eq_true.mp hlast _ h
    rw [hc, Option.any_some, hdigit] at hw
    cases hw
  obtain ⟨t, heq, ht⟩ := @exists_snake l name
  rw [heq, String.append_assoc, String.append_assoc] at hkey ⊢
  refine isIdentifier_append_iff l (fun x hx => ?_) hkey
  rw [String.toList_append, String.toList_append, List.mem_append, List.mem_append] at hx
  rcases hx with hx | hx | hx
  · exact ht x hx
  · rw [List.mem_singleton.mp hx]
    exact l.xidContinue_underscore
  · exact l.xidContinue_of_alphanum
      (Ascii.isAlphanum_of_isDigit (UniqueNames.isDigit_of_mem_toString hx))

end SnakeForm

/-! ## §4  The fields of a struct -/

def numberedField (base : String) (n : ℕ) : String := base ++ "_" ++ toString n

def uniqueFieldName (base : String) (used : List String) : String :=
  UniqueNames.unique numberedField base used

/-- The fields of properties, each told apart from those before it. -/
def propertyIdents (u : CharCase) (used : List String) : List Property → List String
  | [] => []
  | p :: properties =>
      let field := uniqueFieldName (snake u p.name) used
      field :: propertyIdents u (used ++ [field]) properties

/-- The flattened base is a field of its own. -/
def structIdents (u : CharCase) (schemas : SchemaRegistry) (o : ObjectModel) : List String :=
  if o.properties.isEmpty then []
  else ((baseName o).map (snake u)).toList ++ propertyIdents u [] (ownProperties schemas o)

theorem propertyIdents_eq (u : CharCase) (used : List String) (properties : List Property) :
    propertyIdents u used properties =
      UniqueNames.uniques numberedField used (properties.map fun p => snake u p.name) := by
  induction properties generalizing used with
  | nil => rfl
  | cons p properties ih =>
      rw [propertyIdents, ih, List.map_cons, UniqueNames.uniques, uniqueFieldName]

theorem nodup_propertyIdents (u : CharCase) (properties : List Property) :
    (propertyIdents u [] properties).Nodup := by
  rw [propertyIdents_eq]
  apply UniqueNames.nodup_uniques fun base => ?_
  exact UniqueNames.append_toString_injective (base ++ "_")

theorem isIdentifier_propertyIdents_iff (l : Letters) (properties : List Property) :
    (∀ ident ∈ propertyIdents l.toCharCase [] properties, isIdentifier l ident = true) ↔
      ∀ p ∈ properties, Spelled l p.name := by
  rw [propertyIdents_eq]
  constructor
  · intro h p hp
    rw [← isIdentifier_snake_iff]
    have hmem : snake l.toCharCase p.name ∈ properties.map fun p => snake l.toCharCase p.name :=
      List.mem_map_of_mem hp
    exact h _ (UniqueNames.mem_uniques hmem List.not_mem_nil)
  · intro h ident hident
    obtain ⟨base, hbase, hcases⟩ := UniqueNames.exists_of_mem_uniques hident
    obtain ⟨p, hp, rfl⟩ := List.mem_map.mp hbase
    rcases hcases with heq | ⟨n, -, heq⟩
    · rw [heq]
      exact (isIdentifier_snake_iff l).mpr (h p hp)
    · rw [heq]
      exact (isIdentifier_numbered_iff l n).mpr (h p hp)

theorem nodup_structIdents_iff (u : CharCase) (schemas : SchemaRegistry) (o : ObjectModel) :
    (structIdents u schemas o).Nodup ↔ ∀ base, baseName o = some base →
      snake u base ∉ propertyIdents u [] (ownProperties schemas o) := by
  unfold structIdents
  split
  · next hempty =>
      have hown : ownProperties schemas o = [] := by
        rw [ownProperties, List.isEmpty_iff.mp hempty, List.filter_nil]
      rw [hown]
      exact ⟨fun _ _ _ => List.not_mem_nil, fun _ => List.nodup_nil⟩
  · have hnodup := nodup_propertyIdents u (ownProperties schemas o)
    cases hbase : baseName o with
    | none =>
        refine ⟨fun _ _ h => ?_, fun _ => hnodup⟩
        cases h
    | some base =>
        rw [Option.map_some, Option.toList_some, List.singleton_append, List.nodup_cons]
        refine ⟨fun h _ heq => ?_, fun h => ⟨h base rfl, hnodup⟩⟩
        cases heq
        exact h.1

theorem isIdentifier_structIdents_iff (l : Letters) (schemas : SchemaRegistry)
    (o : ObjectModel) :
    (∀ ident ∈ structIdents l.toCharCase schemas o, isIdentifier l ident = true) ↔
      (o.properties ≠ [] → ∀ base, baseName o = some base → Spelled l base) ∧
        ∀ p ∈ ownProperties schemas o, Spelled l p.name := by
  unfold structIdents
  split
  · next hempty =>
      have hprops := List.isEmpty_iff.mp hempty
      have hown : ownProperties schemas o = [] := by
        rw [ownProperties, hprops, List.filter_nil]
      rw [hown]
      exact ⟨fun _ => ⟨fun h => absurd hprops h, fun _ h => (List.not_mem_nil h).elim⟩,
        fun _ _ h => (List.not_mem_nil h).elim⟩
  · next hempty =>
      rw [List.isEmpty_iff] at hempty
      rw [List.forall_mem_append, isIdentifier_propertyIdents_iff]
      apply and_congr_left'
      constructor
      · intro h _ base hbase
        rw [← isIdentifier_snake_iff]
        apply h
        rw [hbase]
        exact List.mem_singleton.mpr rfl
      · intro h ident hident
        rw [Option.mem_toList, Option.map_eq_some_iff] at hident
        obtain ⟨base, hbase, rfl⟩ := hident
        exact (isIdentifier_snake_iff l).mpr (h hempty base hbase)

/-! ## §5  The arguments of a function -/

def argumentNames (u : CharCase) (op : Operation) : List String :=
  "client" :: ((argParams op).map fun p => snake u p.name) ++
    if op.requestBody.isSome then ["body"] else []

theorem snake_notMem_reserved (u : CharCase) (name : String) : snake u name ∉ rustReserved :=
  escapeReserved_notMem _

end SpecForge.Rust
