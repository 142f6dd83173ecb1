import Mathlib.Data.List.Basic
import Mathlib.Data.List.Infix
import Mathlib.Data.List.TakeWhile

/-!
# Text operations on strings

The string methods of the host language, on the characters of a Lean string:
prefixes (§1), splitting and trimming (§2), case and escapes (§3), numbers (§4). The
laws are about concatenations, since that is how texts are produced: `Apart p q` says that
no text starts both with `p` and with `q`.
-/

namespace SpecForge.Lib.Text

/-! ## §1  Prefixes -/

/-- `str::strip_prefix`. -/
def stripPrefix (pre s : String) : Option String :=
  if pre.toList <+: s.toList then
    some (String.ofList (s.toList.drop pre.toList.length))
  else none

/-- `str::starts_with`. -/
def startsWith (pre s : String) : Bool := decide (pre.toList <+: s.toList)

/-- `str::ends_with`. -/
def endsWith (suf s : String) : Bool := decide (suf.toList <:+ s.toList)

theorem append_inj_left {p s t : String} (h : p ++ s = p ++ t) : s = t := by
  have h' := congrArg String.toList h
  rw [String.toList_append, String.toList_append] at h'
  exact String.toList_inj.mp (List.append_cancel_left h')

theorem append_inj_right {s t q : String} (h : s ++ q = t ++ q) : s = t := by
  have h' := congrArg String.toList h
  rw [String.toList_append, String.toList_append] at h'
  exact String.toList_inj.mp (List.append_cancel_right h')

theorem append_inj_of_length {p q s t : String} (h : p ++ s = q ++ t)
    (hlen : s.toList.length = t.toList.length) : p = q := by
  have h' := congrArg String.toList h
  rw [String.toList_append, String.toList_append] at h'
  exact String.toList_inj.mp (List.append_inj_left' h' hlen)

/-- A text put together around a literal, regrouped inside the literal. -/
theorem append_split {a b c : String} (h : c = a ++ b) (p s : String) :
    p ++ c ++ s = p ++ a ++ (b ++ s) := by
  rw [h, String.append_assoc, String.append_assoc, String.append_assoc]

theorem prefix_iff {p s : String} : p.toList <+: s.toList ↔ ∃ r, s = p ++ r := by
  constructor
  · rintro ⟨r, hr⟩
    refine ⟨String.ofList r, String.toList_inj.mp ?_⟩
    rw [String.toList_append, String.toList_ofList, hr]
  · rintro ⟨r, rfl⟩
    exact ⟨r.toList, String.toList_append.symm⟩

theorem startsWith_iff {p s : String} : startsWith p s = true ↔ ∃ r, s = p ++ r := by
  rw [startsWith, decide_eq_true_iff, prefix_iff]

@[simp] theorem startsWith_append (p s : String) : startsWith p (p ++ s) = true :=
  startsWith_iff.mpr ⟨s, rfl⟩

@[simp] theorem startsWith_append_append (p s t : String) :
    startsWith (p ++ s) (p ++ t) = startsWith s t := by
  rw [Bool.eq_iff_iff, startsWith_iff, startsWith_iff]
  constructor
  · rintro ⟨r, hr⟩
    exact ⟨r, append_inj_left (by rw [hr, String.append_assoc])⟩
  · rintro ⟨r, rfl⟩
    exact ⟨r, by rw [String.append_assoc]⟩

@[simp] theorem stripPrefix_append (p s : String) : stripPrefix p (p ++ s) = some s := by
  have hp : p.toList <+: (p ++ s).toList := prefix_iff.mpr ⟨s, rfl⟩
  rw [stripPrefix, if_pos hp, String.toList_append, List.drop_left,
    String.ofList_toList]

theorem eq_append_of_stripPrefix {p s r : String} (h : stripPrefix p s = some r) :
    s = p ++ r := by
  rw [stripPrefix] at h
  split at h
  · next hp =>
      obtain ⟨t, ht⟩ := prefix_iff.mp hp
      have hstrip : stripPrefix p s = some t := by rw [ht, stripPrefix_append]
      rw [stripPrefix, if_pos hp, h] at hstrip
      rw [ht, Option.some.inj hstrip]
  · cases h

theorem stripPrefix_eq_none {p s : String} (h : startsWith p s = false) :
    stripPrefix p s = none := by
  rw [startsWith, decide_eq_false_iff_not] at h
  rw [stripPrefix, if_neg h]

/-- No text starts both with `p` and with `q`. -/
def Apart (p q : String) : Prop :=
  ¬ p.toList <+: q.toList ∧ ¬ q.toList <+: p.toList

instance (p q : String) : Decidable (Apart p q) :=
  inferInstanceAs (Decidable (_ ∧ _))

theorem Apart.startsWith_eq_false {p q : String} (h : Apart p q) (s : String) :
    startsWith p (q ++ s) = false := by
  rw [startsWith, decide_eq_false_iff_not, String.toList_append]
  intro hp
  rcases List.prefix_or_prefix_of_prefix hp (List.prefix_append q.toList s.toList)
    with h' | h'
  · exact h.1 h'
  · exact h.2 h'

theorem Apart.stripPrefix_eq_none {p q : String} (h : Apart p q) (s : String) :
    stripPrefix p (q ++ s) = none :=
  Text.stripPrefix_eq_none (h.startsWith_eq_false s)

theorem Apart.append_ne {p q : String} (h : Apart p q) (s t : String) :
    p ++ s ≠ q ++ t := by
  intro heq
  have h1 := h.startsWith_eq_false t
  rw [← heq, startsWith_append] at h1
  exact Bool.noConfusion h1

/-! ## §2  Splitting and trimming -/

/-- `str::split` at a character: the parts, empty ones included. -/
def split (c : Char) (s : String) : List String :=
  (s.toList.splitOn c).map String.ofList

/-- `str::rsplit` at a character: the same parts, last one first. -/
def rsplit (c : Char) (s : String) : List String := (split c s).reverse

/-- `str::trim_start_matches` with a character. -/
def trimStartMatches (c : Char) (s : String) : String :=
  String.ofList (s.toList.dropWhile (· == c))

/-- `str::trim_end_matches` with a character. -/
def trimEndMatches (c : Char) (s : String) : String :=
  String.ofList ((s.toList.reverse.dropWhile (· == c)).reverse)

/-- `str::trim_matches` with a character. -/
def trimMatches (c : Char) (s : String) : String :=
  trimEndMatches c (trimStartMatches c s)

theorem trimMatches_eq_self {c : Char} {s : String} (hhead : s.toList.head? ≠ some c)
    (hlast : s.toList.getLast? ≠ some c) : trimMatches c s = s := by
  have hstart : trimStartMatches c s = s := by
    rw [← String.toList_inj, trimStartMatches, String.toList_ofList]
    cases hs : s.toList with
    | nil => rfl
    | cons d l =>
        rw [hs, List.head?_cons] at hhead
        rw [List.dropWhile_cons_of_neg]
        simpa using fun h : d = c => hhead (congrArg some h)
  rw [trimMatches, hstart, ← String.toList_inj, trimEndMatches, String.toList_ofList]
  rw [← List.head?_reverse] at hlast
  cases hs : s.toList.reverse with
  | nil => rw [← List.reverse_reverse s.toList, hs]; rfl
  | cons d l =>
      rw [hs, List.head?_cons] at hlast
      rw [List.dropWhile_cons_of_neg, ← hs, List.reverse_reverse]
      simpa using fun h : d = c => hlast (congrArg some h)

/-- Only the trimmed character is missing at the end, and the end is another one. -/
theorem exists_trimMatches (c : Char) (s : String) :
    ∃ n, s.toList.dropWhile (· == c) = (trimMatches c s).toList ++ List.replicate n c ∧
      (trimMatches c s).toList.getLast? ≠ some c := by
  rw [trimMatches, trimEndMatches, trimStartMatches, String.toList_ofList, String.toList_ofList]
  generalize hr : (s.toList.dropWhile (· == c)).reverse = r
  rw [← List.reverse_reverse (s.toList.dropWhile (· == c)), hr, List.getLast?_reverse]
  clear hr
  induction r with
  | nil => exact ⟨0, rfl, nofun⟩
  | cons d r ih =>
      by_cases hd : (d == c) = true
      · obtain ⟨n, heq, hne⟩ := ih
        rw [List.dropWhile_cons_of_pos (p := (· == c)) hd]
        refine ⟨n + 1, ?_, hne⟩
        rw [List.reverse_cons, heq, eq_of_beq hd, List.append_assoc, List.replicate_succ']
      · rw [List.dropWhile_cons_of_neg (p := (· == c)) hd]
        refine ⟨0, (List.append_nil _).symm, ?_⟩
        simpa using hd

/-- What is trimmed away is the character. -/
theorem mem_trimMatches {c x : Char} {s : String} (hx : x ≠ c) :
    x ∈ (trimMatches c s).toList ↔ x ∈ s.toList := by
  obtain ⟨n, heq, -⟩ := exists_trimMatches c s
  have hend : x ∈ s.toList.dropWhile (· == c) ↔ x ∈ (trimMatches c s).toList := by
    rw [heq, List.mem_append, List.mem_replicate]
    exact or_iff_left fun h => hx h.2
  rw [← hend]
  refine ⟨fun h => (List.dropWhile_suffix _).subset h, fun h => ?_⟩
  rw [← List.takeWhile_append_dropWhile (p := (· == c)) (l := s.toList), List.mem_append] at h
  refine h.resolve_left fun hfront => hx ?_
  exact eq_of_beq (List.mem_takeWhile_imp (p := (· == c)) hfront)

/-- `slice::join`. -/
def join (sep : String) (parts : List String) : String :=
  String.intercalate sep parts

/-- A line without the carriage return at its end. -/
def stripCr (s : String) : String :=
  match s.toList.reverse with
  | '\r' :: rest => String.ofList rest.reverse
  | _ => s

/-- `str::lines`: what is behind the last line feed is a line unless it is empty. -/
def lines (s : String) : List String :=
  match (split '\n' s).reverse with
  | [] => []
  | last :: rest => rest.reverse.map stripCr ++ if last.isEmpty then [] else [last]

/-- The part before the first `c`, or all of `s`. -/
def beforeChar (c : Char) (s : String) : String :=
  String.ofList (s.toList.takeWhile (· != c))

theorem split_ne_nil (c : Char) (s : String) : split c s ≠ [] := by
  rw [split, ne_eq, List.map_eq_nil_iff]
  exact List.splitOn_ne_nil c s.toList

/-- The last part is what stands behind the last separator. -/
theorem head?_rsplit_append {c : Char} {s : String} (h : c ∉ s.toList) (t : String) :
    (rsplit c (t ++ String.ofList [c] ++ s)).head? = some s := by
  rw [rsplit, List.head?_reverse, split, String.append_assoc, String.toList_append,
    String.toList_append, String.toList_ofList, List.singleton_append,
    List.splitOn_append_cons_self, List.splitOn_eq_singleton h, List.map_append,
    List.map_singleton, String.ofList_toList, List.getLast?_concat]

theorem splitOn_intercalate_flatMap {α : Type*} [BEq α] [LawfulBEq α] (c : α) :
    ∀ {ls : List (List α)}, ls ≠ [] →
      ([c].intercalate ls).splitOn c = ls.flatMap (List.splitOn c)
  | [l], _ => by simp
  | l :: l' :: ls, _ => by
      have ih := splitOn_intercalate_flatMap c (List.cons_ne_nil l' ls)
      rw [List.intercalate_cons_cons, List.append_assoc, List.singleton_append,
        List.splitOn_append_cons_self, ih]
      exact List.flatMap_cons.symm

/-- Splitting what was joined splits the parts one by one. -/
theorem split_join {c : Char} {sep : String} (hsep : sep.toList = [c]) {parts : List String}
    (h : parts ≠ []) : split c (join sep parts) = parts.flatMap (split c) := by
  have hne : parts.map String.toList ≠ [] := by simpa using h
  rw [split, join, String.toList_intercalate, hsep, splitOn_intercalate_flatMap c hne,
    List.flatMap_map, List.map_flatMap]
  rfl

/-- Joining the parts gives the text back. -/
theorem join_split {c : Char} {sep : String} (hsep : sep.toList = [c]) (s : String) :
    join sep (split c s) = s := by
  rw [← String.toList_inj, join, String.toList_intercalate, hsep, split, List.map_map]
  have hid : String.toList ∘ String.ofList = id := funext fun l => String.toList_ofList
  rw [hid, List.map_id, List.intercalate_splitOn]

theorem head?_splitOn (c : Char) : ∀ l : List Char,
    (l.splitOn c).head? = some (l.takeWhile (· != c))
  | [] => rfl
  | a :: l => by
      have ih := head?_splitOn c l
      rw [List.splitOn, List.splitOnP_cons_eq_if_modifyHead]
      by_cases h : a = c
      · simp [h]
      · have hne : (a == c) = false := beq_eq_false_iff_ne.mpr h
        rw [List.splitOn] at ih
        simp [hne, ih, h]

theorem head?_split (c : Char) (s : String) :
    (split c s).head? = some (beforeChar c s) := by
  rw [split, List.head?_map, head?_splitOn]
  rfl

theorem toList_beforeChar (c : Char) (s : String) :
    (beforeChar c s).toList = s.toList.takeWhile (· != c) :=
  String.toList_ofList

theorem takeWhile_bne_append_cons (c : Char) (rest : List Char) : ∀ l : List Char,
    (l ++ c :: rest).takeWhile (· != c) = l.takeWhile (· != c)
  | [] => by simp
  | a :: l => by
      have ih := takeWhile_bne_append_cons c rest l
      by_cases h : a = c
      · simp [h]
      · simp [h, ih]

/-- The first part ends at the first separator, whatever follows it. -/
theorem beforeChar_append (c : Char) (s t : String) :
    beforeChar c (s ++ String.ofList [c] ++ t) = beforeChar c s := by
  rw [← String.toList_inj, toList_beforeChar, toList_beforeChar, String.append_assoc,
    String.toList_append, String.toList_append, String.toList_ofList,
    List.singleton_append, takeWhile_bne_append_cons]

theorem beforeChar_eq_self {c : Char} {s : String} (h : c ∉ s.toList) :
    beforeChar c s = s := by
  rw [← String.toList_inj, toList_beforeChar, List.takeWhile_eq_self_iff]
  intro x hx
  exact bne_iff_ne.mpr fun heq => h (heq ▸ hx)

theorem not_mem_beforeChar (c : Char) (s : String) : c ∉ (beforeChar c s).toList := by
  rw [toList_beforeChar]
  intro h
  simpa using List.mem_takeWhile_imp h

/-! ## §3  Case and escapes -/

/-- `str::eq_ignore_ascii_case`. -/
def eqIgnoreAsciiCase (s t : String) : Bool :=
  s.toList.map Char.toLower == t.toList.map Char.toLower

theorem eqIgnoreAsciiCase_refl (s : String) : eqIgnoreAsciiCase s s = true :=
  beq_self_eq_true _

/-- One character of a `{:?}` text; the escapes are those of ASCII, any other
character stands for itself. -/
def debugChar (c : Char) : String :=
  if c = '"' then "\\\""
  else if c = '\\' then "\\\\"
  else if c = '\n' then "\\n"
  else if c = '\r' then "\\r"
  else if c = '\t' then "\\t"
  else if c = '\x00' then "\\0"
  else if c.toNat < 32 ∨ c.toNat = 127 then
    "\\u\x7b" ++ String.ofList (Nat.toDigits 16 c.toNat) ++ "\x7d"
  else String.ofList [c]

def debugStr (s : String) : String :=
  "\"" ++ join "" (s.toList.map debugChar) ++ "\""

/-- `{:?}` of a vector of strings. -/
def debugStrings (ss : List String) : String :=
  "[" ++ join ", " (ss.map debugStr) ++ "]"

/-- `str::replace` of a character by a text. -/
def replaceChar (c : Char) (r s : String) : String :=
  String.ofList (s.toList.flatMap fun x => if x = c then r.toList else [x])

/-- `str::replace` of two characters by one, on the characters. -/
def replacePair (a b c : Char) : List Char → List Char
  | x :: y :: rest =>
      if x = a ∧ y = b then c :: replacePair a b c rest
      else x :: replacePair a b c (y :: rest)
  | l => l

/-! ## §4  Numbers -/

/-- `str::parse::<u16>`: digits after an optional plus sign. -/
def parseU16 (s : String) : Option UInt16 :=
  let digits := match s.toList with
    | '+' :: rest => rest
    | cs => cs
  if digits.isEmpty || !digits.all Char.isDigit then none
  else
    let n := digits.foldl (fun n c => 10 * n + (c.toNat - '0'.toNat)) 0
    if n < UInt16.size then some (UInt16.ofNat n) else none

end SpecForge.Lib.Text
