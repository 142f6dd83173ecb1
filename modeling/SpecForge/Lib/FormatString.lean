import Mathlib.Data.List.Basic
import Mathlib.Data.List.Infix

/-!
# Format strings

A format string is written out as it is, but for its braces: two of a kind are written as one, and
what stands between an opening and a closing one is replaced by the text of an argument.

- §1 writing; §2 the braces of a text that is written as it is.
-/

namespace SpecForge.Lib.FormatString

/-! ## §1  Writing -/

def isBrace (c : Char) : Bool := c == '\x7b' || c == '\x7d'

def braces (cs : List Char) : ℕ := cs.countP isBrace

/-- What stands for the arguments of a format string: the text that is written for one, if there is
such an argument, and what stands behind it. The texts of the arguments have no braces, which a
brace as the fill character of a width would put there. -/
structure Arguments where
  read : List Char → Option (List Char × List Char)
  braceless : ∀ {cs text rest}, read cs = some (text, rest) → braces text = 0
  suffix : ∀ {cs text rest}, read cs = some (text, rest) → rest <:+ cs

/-- The text, where the format string has no errors; there is something to be read at most so many
times. -/
def writeFrom (args : Arguments) : ℕ → List Char → Option (List Char)
  | _, [] => some []
  | 0, _ :: _ => none
  | n + 1, c :: cs =>
      if c = '\x7b' then
        if cs.head? = some c then (writeFrom args n cs.tail).map (c :: ·)
        else (args.read cs).bind fun (text, rest) => (writeFrom args n rest).map (text ++ ·)
      else if c = '\x7d' then
        if cs.head? = some c then (writeFrom args n cs.tail).map (c :: ·) else none
      else (writeFrom args n cs).map (c :: ·)

def write (args : Arguments) (cs : List Char) : Option (List Char) := writeFrom args cs.length cs

/-! ## §2  Texts that are written as they are -/

section Write

variable {args : Arguments} {c : Char} {cs out : List Char}

theorem braces_cons (c : Char) (cs : List Char) :
    braces (c :: cs) = braces cs + if isBrace c = true then 1 else 0 :=
  List.countP_cons ..

theorem braces_append (cs ds : List Char) : braces (cs ++ ds) = braces cs + braces ds :=
  List.countP_append

theorem braces_eq_zero_iff : braces cs = 0 ↔ '\x7b' ∉ cs ∧ '\x7d' ∉ cs := by
  rw [braces, List.countP_eq_zero]
  constructor
  · intro h
    exact ⟨fun hc => h _ hc rfl, fun hc => h _ hc rfl⟩
  · rintro ⟨hopen, hclose⟩ c hc hbrace
    rcases Bool.or_eq_true_iff.mp hbrace with heq | heq
    · exact hopen (eq_of_beq heq ▸ hc)
    · exact hclose (eq_of_beq heq ▸ hc)

theorem isBrace_eq_false (h : c ≠ '\x7b') (h' : c ≠ '\x7d') : isBrace c = false := by
  simp [isBrace, h, h']

theorem writeFrom_plain {n : ℕ} (h : isBrace c = false) :
    writeFrom args (n + 1) (c :: cs) = (writeFrom args n cs).map (c :: ·) := by
  have hopen : c ≠ '\x7b' := by
    rintro rfl
    cases h
  have hclose : c ≠ '\x7d' := by
    rintro rfl
    cases h
  rw [writeFrom, if_neg hopen, if_neg hclose]

theorem writeFrom_of_braceless : ∀ {n : ℕ} {cs : List Char}, cs.length ≤ n → braces cs = 0 →
    writeFrom args n cs = some cs
  | _, [], _, _ => by rw [writeFrom]
  | n + 1, c :: cs, hlen, h => by
      rw [braces_cons, Nat.add_eq_zero_iff] at h
      have hc : isBrace c = false := by simpa using h.2
      rw [writeFrom_plain hc, writeFrom_of_braceless (Nat.le_of_succ_le_succ hlen) h.1]
      rfl

theorem braces_suffix {ds : List Char} (h : ds <:+ cs) : braces ds ≤ braces cs :=
  h.sublist.countP_le

/-- There are fewer braces in what is written, if there are any. -/
theorem braces_lt_of_writeFrom : ∀ {n : ℕ} {cs out : List Char}, writeFrom args n cs = some out →
    braces out < braces cs ∨ braces out = 0 ∧ braces cs = 0
  | _, [], out, h => by
      rw [writeFrom] at h
      obtain rfl := Option.some.inj h
      exact Or.inr ⟨rfl, rfl⟩
  | 0, c :: cs, out, h => by cases h
  | n + 1, c :: cs, out, h => by
      -- two braces of a kind are written as one
      have hdouble : isBrace c = true → cs.head? = some c →
          (writeFrom args n cs.tail).map (c :: ·) = some out →
            braces out < braces (c :: cs) ∨ braces out = 0 ∧ braces (c :: cs) = 0 := by
        intro hc hhead hrest
        obtain ⟨tail, rfl⟩ := List.head?_eq_some_iff.mp hhead
        obtain ⟨out', hout', rfl⟩ := Option.map_eq_some_iff.mp hrest
        have ih := braces_lt_of_writeFrom hout'
        rw [List.tail_cons] at ih
        rw [braces_cons, braces_cons, braces_cons, if_pos hc]
        omega
      cases hc : isBrace c with
      | false =>
          rw [writeFrom_plain hc] at h
          obtain ⟨out', hout', rfl⟩ := Option.map_eq_some_iff.mp h
          have ih := braces_lt_of_writeFrom hout'
          rw [braces_cons, braces_cons, if_neg (by simp [hc])]
          exact ih
      | true =>
          rw [writeFrom] at h
          split at h
          · split at h
            · next hhead => exact hdouble hc hhead h
            · obtain ⟨⟨text, rest⟩, hread, hrest⟩ := Option.bind_eq_some_iff.mp h
              obtain ⟨out', hout', rfl⟩ := Option.map_eq_some_iff.mp hrest
              have ih := braces_lt_of_writeFrom hout'
              have hle := braces_suffix (args.suffix hread)
              rw [braces_append, args.braceless hread, braces_cons, if_pos hc]
              omega
          · split at h
            · split at h
              · next hhead => exact hdouble hc hhead h
              · cases h
            · next hopen hclose =>
                rw [isBrace_eq_false hopen hclose] at hc
                cases hc

/-- **A format string is written as it is** if and only if it has no braces. -/
theorem write_eq_self_iff : write args cs = some cs ↔ '\x7b' ∉ cs ∧ '\x7d' ∉ cs := by
  rw [← braces_eq_zero_iff]
  constructor
  · intro h
    rcases braces_lt_of_writeFrom h with hlt | hzero
    · exact absurd hlt (lt_irrefl _)
    · exact hzero.2
  · exact writeFrom_of_braceless (Nat.le_refl _)

end Write

end SpecForge.Lib.FormatString
