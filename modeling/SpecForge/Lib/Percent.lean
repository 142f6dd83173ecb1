import Mathlib.Algebra.Order.BigOperators.Group.List
import Mathlib.Algebra.Order.Group.Nat
import Mathlib.Algebra.Ring.Nat
import Mathlib.Data.List.Basic
import SpecForge.Lib.Infix
import SpecForge.Lib.Text

/-!
# Percent-encoding

A byte is written as itself or as a percent sign and two hexadecimal digits. The decoder takes
every percent sign that two hexadecimal digits follow, so a byte that was written as itself can
be misread.

- §1 writing and decoding; §2 what is decoded; §3 separators.
- §4 pairs of names and values, as in a query string.
-/

namespace SpecForge.Lib.Percent

/-! ## §1  Writing and decoding -/

/-- A byte and how it is written. -/
inductive Token where
  | raw (b : UInt8)
  | escaped (b : UInt8)
deriving DecidableEq

def hexDigit (n : ℕ) : UInt8 := if n < 10 then UInt8.ofNat (48 + n) else UInt8.ofNat (55 + n)

def hexValue (b : UInt8) : Option ℕ :=
  let n := b.toNat
  if 48 ≤ n ∧ n ≤ 57 then some (n - 48)
  else if 65 ≤ n ∧ n ≤ 70 then some (n - 55)
  else if 97 ≤ n ∧ n ≤ 102 then some (n - 87)
  else none

def isHex (b : UInt8) : Bool := (hexValue b).isSome

namespace Token

def value : Token → UInt8
  | raw b => b
  | escaped b => b

def write : Token → List UInt8
  | raw b => [b]
  | escaped b => [37, hexDigit (b.toNat / 16), hexDigit (b.toNat % 16)]

end Token

def values (ts : List Token) : List UInt8 := ts.map Token.value

def write (ts : List Token) : List UInt8 := ts.flatMap Token.write

def percentDecode : List UInt8 → List UInt8
  | 37 :: a :: b :: rest =>
      match hexValue a, hexValue b with
      | some x, some y => UInt8.ofNat (16 * x + y) :: percentDecode rest
      | _, _ => 37 :: percentDecode (a :: b :: rest)
  | a :: rest => a :: percentDecode rest
  | [] => []

/-! ## §2  What is decoded -/

/-- Two digits stand in front. -/
def StartsHex (ts : List Token) : Prop :=
  ∃ a b post, ts = .raw a :: .raw b :: post ∧ isHex a = true ∧ isHex b = true

/-- A percent sign written as itself has two digits behind it. -/
def Misread (ts : List Token) : Prop :=
  ∃ pre post, ts = pre ++ .raw 37 :: post ∧ StartsHex post

theorem isHex_hexDigit {n : ℕ} (h : n < 16) : hexValue (hexDigit n) = some n := by
  have : ∀ n < 16, hexValue (hexDigit n) = some n := by decide
  exact this n h

theorem write_cons (t : Token) (ts : List Token) : write (t :: ts) = t.write ++ write ts :=
  List.flatMap_cons

@[simp] theorem length_values (ts : List Token) : (values ts).length = ts.length :=
  List.length_map ..

theorem write_map_raw (s : List UInt8) : write (s.map Token.raw) = s := by
  induction s with
  | nil => rfl
  | cons b s ih =>
      rw [List.map_cons, write_cons, ih]
      rfl

theorem values_map_raw (s : List UInt8) : values (s.map Token.raw) = s := by
  rw [values, List.map_map]
  exact List.map_id s

theorem percentDecode_escaped (b : UInt8) (rest : List UInt8) :
    percentDecode ((Token.escaped b).write ++ rest) = b :: percentDecode rest := by
  have hb : b.toNat < 256 := UInt8.toNat_lt b
  rw [Token.write]
  simp only [List.cons_append, List.nil_append]
  rw [percentDecode, isHex_hexDigit (by omega), isHex_hexDigit (by omega)]
  dsimp only
  rw [Nat.div_add_mod, UInt8.ofNat_toNat]

theorem percentDecode_cons_of_ne {a : UInt8} (h : a ≠ 37) (rest : List UInt8) :
    percentDecode (a :: rest) = a :: percentDecode rest := by
  rw [percentDecode]
  rintro x b c rfl
  exact absurd rfl h

theorem percentDecode_percent {rest : List UInt8}
    (h : ¬∃ a b post, rest = a :: b :: post ∧ isHex a = true ∧ isHex b = true) :
    percentDecode (37 :: rest) = 37 :: percentDecode rest := by
  rcases rest with _ | ⟨a, _ | ⟨b, post⟩⟩
  · rfl
  · rfl
  · rw [percentDecode]
    cases ha : hexValue a with
    | none => rfl
    | some x =>
        cases hb : hexValue b with
        | none => rfl
        | some y =>
            refine absurd ⟨a, b, post, rfl, ?_, ?_⟩ h
            · rw [isHex, ha]
              rfl
            · rw [isHex, hb]
              rfl

theorem percentDecode_percent_hex {a b : UInt8} (ha : isHex a = true) (hb : isHex b = true)
    (post : List UInt8) :
    ∃ x, percentDecode (37 :: a :: b :: post) = x :: percentDecode post := by
  obtain ⟨x, hx⟩ := Option.isSome_iff_exists.mp ha
  obtain ⟨y, hy⟩ := Option.isSome_iff_exists.mp hb
  rw [percentDecode, hx, hy]
  exact ⟨_, rfl⟩

/-- An escaped byte starts with no digit. -/
theorem startsHex_iff {ts : List Token} :
    StartsHex ts ↔ ∃ a b post, write ts = a :: b :: post ∧ isHex a = true ∧ isHex b = true := by
  have hpercent : isHex 37 = false := rfl
  constructor
  · rintro ⟨a, b, post, rfl, ha, hb⟩
    exact ⟨a, b, write post, rfl, ha, hb⟩
  · rintro ⟨a, b, post, hw, ha, hb⟩
    rcases ts with _ | ⟨t, ts⟩
    · cases hw
    · rw [write_cons] at hw
      cases t with
      | escaped c =>
          rw [← (List.cons.inj hw).1, hpercent] at ha
          cases ha
      | raw c =>
          have hw' : c :: write ts = a :: b :: post := hw
          obtain ⟨rfl, htail⟩ := List.cons.inj hw'
          rcases ts with _ | ⟨u, ts⟩
          · cases htail
          · rw [write_cons] at htail
            cases u with
            | escaped d =>
                rw [← (List.cons.inj htail).1, hpercent] at hb
                cases hb
            | raw d =>
                have htail' : d :: write ts = b :: post := htail
                obtain ⟨rfl, -⟩ := List.cons.inj htail'
                exact ⟨c, d, ts, rfl, ha, hb⟩

theorem misread_cons_iff {t : Token} {ts : List Token} :
    Misread (t :: ts) ↔ t = .raw 37 ∧ StartsHex ts ∨ Misread ts := by
  constructor
  · rintro ⟨pre, post, heq, hstarts⟩
    rcases pre with _ | ⟨t', pre⟩
    · obtain ⟨rfl, rfl⟩ := List.cons.inj heq
      exact Or.inl ⟨rfl, hstarts⟩
    · obtain ⟨rfl, rfl⟩ := List.cons.inj heq
      exact Or.inr ⟨pre, post, rfl, hstarts⟩
  · rintro (⟨rfl, hstarts⟩ | ⟨pre, post, rfl, hstarts⟩)
    · exact ⟨[], ts, rfl, hstarts⟩
    · exact ⟨t :: pre, post, rfl, hstarts⟩

/-- **Decoding gives the bytes back unless one is misread; then it gives fewer.** -/
theorem percentDecode_write (ts : List Token) :
    (¬Misread ts → percentDecode (write ts) = values ts) ∧
      (percentDecode (write ts)).length ≤ ts.length ∧
      (Misread ts → (percentDecode (write ts)).length < ts.length) := by
  have hnil : ¬Misread [] := by
    rintro ⟨pre, post, heq, -⟩
    simp at heq
  -- two digits may be taken at once, so the induction is on the length
  induction hn : ts.length using Nat.strong_induction_on generalizing ts with
  | h n ih =>
      subst hn
      rcases ts with _ | ⟨t, ts⟩
      · exact ⟨fun _ => rfl, Nat.le_refl 0, fun h => absurd h hnil⟩
      · obtain ⟨hread, hle, hlt⟩ := ih ts.length (Nat.lt_succ_self _) ts rfl
        rw [misread_cons_iff, write_cons]
        have hplain : percentDecode (t.write ++ write ts) = t.value :: percentDecode (write ts) →
            ¬(t = .raw 37 ∧ StartsHex ts) →
            (¬(t = .raw 37 ∧ StartsHex ts ∨ Misread ts) →
              percentDecode (t.write ++ write ts) = values (t :: ts)) ∧
            (percentDecode (t.write ++ write ts)).length ≤ (t :: ts).length ∧
            (t = .raw 37 ∧ StartsHex ts ∨ Misread ts →
              (percentDecode (t.write ++ write ts)).length < (t :: ts).length) := by
          intro hstep hno
          rw [hstep]
          refine ⟨fun h => ?_, Nat.succ_le_succ hle, fun h => ?_⟩
          · rw [hread fun hm => h (Or.inr hm)]
            rfl
          · exact Nat.succ_lt_succ (hlt (h.resolve_left hno))
        cases t with
        | escaped b => exact hplain (percentDecode_escaped b _) fun h => by cases h.1
        | raw b =>
            by_cases hb : b = 37
            · subst hb
              by_cases hstarts : StartsHex ts
              · obtain ⟨a, b, post, rfl, ha, hb⟩ := hstarts
                obtain ⟨x, hx⟩ := percentDecode_percent_hex ha hb (write post)
                have hx' : percentDecode ((Token.raw 37).write ++
                    write (.raw a :: .raw b :: post)) = x :: percentDecode (write post) := hx
                obtain ⟨-, hpost, -⟩ := ih post.length (by simp only [List.length_cons]; omega) post rfl
                rw [hx']
                refine ⟨fun h => absurd (Or.inl ⟨rfl, a, b, post, rfl, ha, hb⟩) h, ?_, fun _ => ?_⟩
                · simp only [List.length_cons]
                  omega
                · simp only [List.length_cons]
                  omega
              · refine hplain ?_ fun h => hstarts h.2
                exact percentDecode_percent fun h => hstarts (startsHex_iff.mpr h)
            · refine hplain (percentDecode_cons_of_ne hb _) fun h => hb ?_
              exact Token.raw.inj h.1

theorem length_percentDecode_le (s : List UInt8) : (percentDecode s).length ≤ s.length := by
  have h := (percentDecode_write (s.map Token.raw)).2.1
  rwa [write_map_raw, List.length_map] at h

/-- Nothing is misread if no percent sign is written as itself. -/
theorem not_misread {ts : List Token} (h : Token.raw 37 ∉ ts) : ¬Misread ts := by
  rintro ⟨pre, post, rfl, -⟩
  exact h (List.mem_append_right _ (List.mem_cons_self ..))

/-! ## §3  Separators -/

section Separators

variable {sep : UInt8}

/-- A byte that no escape is written with. -/
def Separates (sep : UInt8) : Prop := sep ≠ 37 ∧ ∀ n < 16, sep ≠ hexDigit n

instance (sep : UInt8) : Decidable (Separates sep) := inferInstanceAs (Decidable (_ ∧ _))

theorem Separates.notMem_escaped (hsep : Separates sep) (b : UInt8) :
    sep ∉ (Token.escaped b).write := by
  have hb : b.toNat < 256 := UInt8.toNat_lt b
  simp only [Token.write, List.mem_cons, List.not_mem_nil, or_false, not_or]
  exact ⟨hsep.1, hsep.2 _ (by omega), hsep.2 _ (by omega)⟩

theorem mem_write_iff (hsep : Separates sep) {ts : List Token} :
    sep ∈ write ts ↔ .raw sep ∈ ts := by
  rw [write, List.mem_flatMap]
  constructor
  · rintro ⟨t, ht, hmem⟩
    cases t with
    | raw b =>
        rw [List.mem_singleton.mp hmem]
        exact ht
    | escaped b => exact absurd hmem (hsep.notMem_escaped b)
  · intro ht
    exact ⟨_, ht, List.mem_singleton.mpr rfl⟩

theorem map_modifyHead {α : Type*} {β : Type*} {f : α → α} {g : α → β} {h : β → β}
    (hfg : ∀ a, g (f a) = h (g a)) (l : List α) :
    (l.modifyHead f).map g = (l.map g).modifyHead h := by
  cases l with
  | nil => rfl
  | cons a l => simp only [List.modifyHead_cons, List.map_cons, hfg]

/-- A text without separator goes to the first piece. -/
theorem splitOn_append_of_notMem {s : List UInt8} (hs : sep ∉ s) (t : List UInt8) :
    (s ++ t).splitOn sep = (t.splitOn sep).modifyHead (s ++ ·) := by
  induction s with
  | nil =>
      rw [List.nil_append]
      cases t.splitOn sep <;> rfl
  | cons b s ih =>
      obtain ⟨hb, hs'⟩ := not_or.mp (mt List.mem_cons.mpr hs)
      have hne : (b == sep) = false := beq_eq_false_iff_ne.mpr (Ne.symm hb)
      rw [List.cons_append, List.splitOn_cons_eq_if_modifyHead, hne, if_neg (by simp), ih hs']
      cases t.splitOn sep <;> rfl

/-- The pieces of what was written are the pieces, written. -/
theorem splitOn_write (hsep : Separates sep) (ts : List Token) :
    (write ts).splitOn sep = (ts.splitOn (.raw sep)).map write := by
  induction ts with
  | nil => rfl
  | cons t ts ih =>
      rw [write_cons, List.splitOn_cons_eq_if_modifyHead]
      by_cases ht : t = .raw sep
      · subst ht
        have hraw : (Token.raw sep).write ++ write ts = [] ++ sep :: write ts := rfl
        rw [hraw, List.splitOn_append_cons_self, beq_self_eq_true, if_pos rfl, ih]
        rfl
      · have hnot : sep ∉ t.write := by
          cases t with
          | raw b => exact fun h => ht (congrArg Token.raw (List.mem_singleton.mp h).symm)
          | escaped b => exact hsep.notMem_escaped b
        rw [splitOn_append_of_notMem hnot, ih, beq_eq_false_iff_ne.mpr ht, if_neg (by simp)]
        exact (map_modifyHead (write_cons t) _).symm

/-- Whether a byte separates is all that matters for the pieces. -/
theorem map_values_splitOn {ts us : List Token} (h : List.Forall₂
      (fun t u => t.value = u.value ∧ (t = .raw sep ↔ u = .raw sep)) ts us) :
    (ts.splitOn (.raw sep)).map values = (us.splitOn (.raw sep)).map values := by
  induction h with
  | nil => rfl
  | @cons t u ts us htu _ ih =>
      obtain ⟨hvalue, hsep⟩ := htu
      rw [List.splitOn_cons_eq_if_modifyHead, List.splitOn_cons_eq_if_modifyHead]
      have hcons : ∀ (x : Token) (xs : List Token), values (x :: xs) = x.value :: values xs :=
        fun _ _ => rfl
      by_cases ht : t = .raw sep
      · rw [beq_iff_eq.mpr ht, beq_iff_eq.mpr (hsep.mp ht), if_pos rfl, if_pos rfl, List.map_cons,
          List.map_cons, ih]
      · rw [beq_eq_false_iff_ne.mpr ht, beq_eq_false_iff_ne.mpr (mt hsep.mpr ht), if_neg (by simp),
          if_neg (by simp), map_modifyHead (hcons t), map_modifyHead (hcons u), ih, hvalue]

theorem length_splitOn {α : Type*} [BEq α] [LawfulBEq α] (a : α) (l : List α) :
    (l.splitOn a).length = l.count a + 1 := by
  induction l with
  | nil => rfl
  | cons b l ih =>
      rw [List.splitOn_cons_eq_if_modifyHead, List.count_cons]
      cases b == a <;> simp [ih]

theorem sum_length_splitOn {α : Type*} [BEq α] [LawfulBEq α] (a : α) (l : List α) :
    ((l.splitOn a).map List.length).sum + (l.splitOn a).length = l.length + 1 := by
  induction l with
  | nil => rfl
  | cons b l ih =>
      obtain ⟨p, ps, hp⟩ := List.exists_cons_of_ne_nil (List.splitOn_ne_nil a l)
      rw [hp] at ih
      rw [List.splitOn_cons_eq_if_modifyHead, hp]
      simp only [List.map_cons, List.sum_cons, List.length_cons] at ih ⊢
      split
      · simp only [List.map_cons, List.sum_cons, List.length_cons, List.length_nil]
        omega
      · simp only [List.modifyHead_cons, List.map_cons, List.sum_cons, List.length_cons]
        omega

/-- Pieces are never decoded to more than was written. -/
theorem length_le_of_decode_splitOn (hsep : Separates sep) {ts us : List Token}
    (h : ((write ts).splitOn sep).map percentDecode = (us.splitOn (.raw sep)).map values) :
    us.length ≤ ts.length := by
  rw [splitOn_write hsep, List.map_map] at h
  have hts := sum_length_splitOn (Token.raw sep) ts
  have hus := sum_length_splitOn (Token.raw sep) us
  have hpieces := congrArg List.length h
  have hlengths := congrArg (fun l => (l.map List.length).sum) h
  simp only [List.length_map, List.map_map] at hpieces hlengths
  have hvalues : (us.splitOn (.raw sep)).map (List.length ∘ values) =
      (us.splitOn (.raw sep)).map List.length :=
    List.map_congr_left fun p _ => length_values p
  have hdecoded : ((ts.splitOn (.raw sep)).map
      (List.length ∘ percentDecode ∘ write)).sum ≤
      ((ts.splitOn (.raw sep)).map List.length).sum :=
    List.sum_le_sum fun p _ => (percentDecode_write p).2.1
  rw [hvalues] at hlengths
  omega

theorem mem_intercalate_iff {α : Type*} {a b : α} (hne : b ≠ a) (l : List (List α)) :
    b ∈ [a].intercalate l ↔ ∃ p ∈ l, b ∈ p := by
  induction l with
  | nil => simp
  | cons p l ih =>
      rcases l with _ | ⟨q, l⟩
      · simp
      · rw [List.intercalate_cons_cons, List.mem_append, List.mem_append, ih, List.mem_singleton,
          or_iff_left hne]
        exact (List.exists_mem_cons_iff (b ∈ ·) p (q :: l)).symm

/-- What stands in front is the same in a text and in its first piece. -/
theorem exists_splitOn_cons {t : Token} (ht : t ≠ .raw sep) (ts : List Token) :
    ∃ u us, ts.splitOn (.raw sep) = u :: us ∧ (t :: ts).splitOn (.raw sep) = (t :: u) :: us := by
  obtain ⟨u, us, hu⟩ := List.exists_cons_of_ne_nil (List.splitOn_ne_nil (Token.raw sep) ts)
  refine ⟨u, us, hu, ?_⟩
  rw [List.splitOn_cons_eq_if_modifyHead, beq_eq_false_iff_ne.mpr ht, if_neg (by simp), hu]
  rfl

theorem startsHex_splitOn (hhex : isHex sep = false) {ts u : List Token} {us : List (List Token)}
    (hu : ts.splitOn (.raw sep) = u :: us) : StartsHex ts ↔ StartsHex u := by
  have hne : ∀ a, isHex a = true → Token.raw a ≠ .raw sep := by
    rintro a ha heq
    rw [Token.raw.inj heq, hhex] at ha
    cases ha
  constructor
  · rintro ⟨a, b, post, rfl, ha, hb⟩
    obtain ⟨v, vs, hv, hsplit⟩ := exists_splitOn_cons (hne a ha) (.raw b :: post)
    obtain ⟨w, ws, -, hsplit'⟩ := exists_splitOn_cons (hne b hb) post
    rw [hsplit] at hu
    rw [hsplit'] at hv
    obtain ⟨rfl, -⟩ := List.cons.inj hu
    obtain ⟨rfl, -⟩ := List.cons.inj hv
    exact ⟨a, b, w, rfl, ha, hb⟩
  · rintro ⟨a, b, post, rfl, ha, hb⟩
    have hfront : ts = [Token.raw sep].intercalate ((.raw a :: .raw b :: post) :: us) := by
      rw [← hu, List.intercalate_splitOn]
    cases us with
    | nil =>
        rw [List.intercalate_singleton] at hfront
        exact ⟨a, b, _, hfront, ha, hb⟩
    | cons v vs =>
        rw [List.intercalate_cons_cons] at hfront
        exact ⟨a, b, _, hfront, ha, hb⟩

/-- Nothing is misread across a separator. -/
theorem misread_iff_splitOn (hsep : Separates sep) (hhex : isHex sep = false) {ts : List Token} :
    Misread ts ↔ ∃ us ∈ ts.splitOn (.raw sep), Misread us := by
  have hnil : ¬Misread [] := by
    rintro ⟨pre, post, heq, -⟩
    simp at heq
  induction ts with
  | nil =>
      refine iff_of_false hnil ?_
      rintro ⟨us, hus, hm⟩
      rw [List.mem_singleton.mp hus] at hm
      exact hnil hm
  | cons t ts ih =>
      refine misread_cons_iff.trans ((or_congr_right ih).trans ?_)
      by_cases ht : t = .raw sep
      · have hsplit : (t :: ts).splitOn (.raw sep) = [] :: ts.splitOn (.raw sep) := by
          rw [List.splitOn_cons_eq_if_modifyHead, beq_iff_eq.mpr ht, if_pos rfl]
        have hpercent : ¬(t = .raw 37 ∧ StartsHex ts) := by
          rintro ⟨h, -⟩
          rw [ht] at h
          exact hsep.1 (Token.raw.inj h)
        rw [hsplit, or_iff_right hpercent, List.exists_mem_cons_iff, or_iff_right hnil]
      · obtain ⟨u, us, hu, hsplit⟩ := exists_splitOn_cons ht ts
        rw [hsplit, hu, List.exists_mem_cons_iff, List.exists_mem_cons_iff, misread_cons_iff,
          startsHex_splitOn hhex hu, or_assoc]

/-- **The pieces are decoded to the bytes unless one of these is misread.** -/
theorem decode_splitOn_iff (hsep : Separates sep) (hhex : isHex sep = false) {ts : List Token} :
    ((write ts).splitOn sep).map percentDecode = (ts.splitOn (.raw sep)).map values ↔
      ¬Misread ts := by
  rw [splitOn_write hsep, List.map_map, misread_iff_splitOn hsep hhex, List.map_inj_left]
  push Not
  refine forall₂_congr fun us _ => ⟨fun h hm => ?_, (percentDecode_write us).1⟩
  have hlt := (percentDecode_write us).2.2 hm
  rw [show percentDecode (write us) = values us from h, length_values] at hlt
  exact Nat.lt_irrefl _ hlt

end Separators

/-! ## §4  Pairs -/

/-- The characters that need no escape anywhere. -/
def unreserved (b : UInt8) : Bool :=
  let n := b.toNat
  (48 ≤ n && n ≤ 57) || (65 ≤ n && n ≤ 90) || (97 ≤ n && n ≤ 122) ||
    b == 45 || b == 46 || b == 95 || b == 126

/-- Some bytes are kept, the others escaped. -/
def escapeBytes (keep : UInt8 → Bool) (s : List UInt8) : List Token :=
  s.map fun b => if keep b then .raw b else .escaped b

/-- The serializer of `application/x-www-form-urlencoded` writes a space as a plus sign. -/
def escapeForm (s : List UInt8) : List Token :=
  s.map fun b => if b = 32 then .raw 43 else if unreserved b then .raw b else .escaped b

def plusToSpace (s : List UInt8) : List UInt8 := s.map fun b => if b = 43 then 32 else b

def decodeForm (s : List UInt8) : List UInt8 := percentDecode (plusToSpace s)

/-- A name ends at the first equals sign. -/
def parsePair (piece : List UInt8) : List UInt8 × List UInt8 :=
  (decodeForm (piece.takeWhile (· != 61)), decodeForm ((piece.dropWhile (· != 61)).drop 1))

/-- The parser of `application/x-www-form-urlencoded`: pairs stand between ampersands. -/
def parseForm (s : List UInt8) : List (List UInt8 × List UInt8) :=
  ((s.splitOn 38).filter fun piece => !piece.isEmpty).map parsePair

/-- A name that can stand in a pair as it is. -/
structure Clean (name : List UInt8) : Prop where
  ampersand : 38 ∉ name
  equals : 61 ∉ name
  plus : 43 ∉ name
  percent : ¬Misread (name.map Token.raw)

section Pairs

variable {name value written : List UInt8}

theorem values_escapeBytes (keep : UInt8 → Bool) (s : List UInt8) :
    values (escapeBytes keep s) = s := by
  rw [values, escapeBytes, List.map_map]
  refine (List.map_congr_left fun b _ => ?_).trans (List.map_id s)
  dsimp only [Function.comp]
  split <;> rfl

theorem raw_mem_escapeBytes {keep : UInt8 → Bool} {s : List UInt8} {b : UInt8} :
    Token.raw b ∈ escapeBytes keep s ↔ b ∈ s ∧ keep b = true := by
  rw [escapeBytes, List.mem_map]
  constructor
  · rintro ⟨a, ha, heq⟩
    split at heq
    · next hkeep =>
        cases heq
        exact ⟨ha, hkeep⟩
    · cases heq
  · rintro ⟨hb, hkeep⟩
    exact ⟨b, hb, if_pos hkeep⟩

theorem decode_escapeBytes {keep : UInt8 → Bool} (h : keep 37 = false) (s : List UInt8) :
    percentDecode (write (escapeBytes keep s)) = s := by
  refine ((percentDecode_write _).1 (not_misread fun hmem => ?_)).trans (values_escapeBytes keep s)
  rw [raw_mem_escapeBytes, h] at hmem
  cases hmem.2

theorem plusToSpace_eq_self {s : List UInt8} (h : 43 ∉ s) : plusToSpace s = s := by
  refine (List.map_congr_left fun b hb => if_neg ?_).trans (List.map_id s)
  rintro rfl
  exact h hb

theorem decodeForm_plus (rest : List UInt8) : decodeForm (43 :: rest) = 32 :: decodeForm rest :=
  percentDecode_cons_of_ne (by decide) _

theorem decodeForm_cons {b : UInt8} (hplus : b ≠ 43) (hpercent : b ≠ 37) (rest : List UInt8) :
    decodeForm (b :: rest) = b :: decodeForm rest := by
  rw [decodeForm, plusToSpace, List.map_cons, if_neg hplus, percentDecode_cons_of_ne hpercent]
  rfl

theorem decodeForm_escaped (b : UInt8) (rest : List UInt8) :
    decodeForm ((Token.escaped b).write ++ rest) = b :: decodeForm rest := by
  have hsep : Separates 43 := by decide
  have hplus := hsep.notMem_escaped b
  rw [decodeForm, plusToSpace, List.map_append]
  change percentDecode (plusToSpace (Token.escaped b).write ++ plusToSpace rest) = _
  rw [plusToSpace_eq_self hplus, percentDecode_escaped]
  rfl

/-- **What a form writes is read back.** -/
theorem decodeForm_escapeForm (s : List UInt8) : decodeForm (write (escapeForm s)) = s := by
  induction s with
  | nil => rfl
  | cons b s ih =>
      rw [escapeForm, List.map_cons, write_cons]
      change decodeForm (_ ++ write (escapeForm s)) = _
      split
      · next hspace =>
          rw [hspace]
          exact (decodeForm_plus _).trans (congrArg _ ih)
      · split
        · next hkept =>
            refine (decodeForm_cons ?_ ?_ _).trans (congrArg _ ih)
            · rintro rfl
              exact absurd hkept (by decide)
            · rintro rfl
              exact absurd hkept (by decide)
        · exact (decodeForm_escaped b _).trans (congrArg _ ih)

/-- No byte that separates pairs, or a name from its value, is left. -/
theorem notMem_escapeForm {sep : UInt8} (hsep : Separates sep) (hplus : sep ≠ 43)
    (hescaped : unreserved sep = false) (s : List UInt8) : sep ∉ write (escapeForm s) := by
  rw [mem_write_iff hsep, escapeForm, List.mem_map]
  rintro ⟨b, -, heq⟩
  split at heq
  · exact hplus (Token.raw.inj heq).symm
  · split at heq
    · next hkept =>
        rw [Token.raw.inj heq, hescaped] at hkept
        cases hkept
    · cases heq

theorem length_decodeForm_le (s : List UInt8) : (decodeForm s).length ≤ s.length :=
  (length_percentDecode_le _).trans_eq (List.length_map ..)

/-- **A text is its own decoding exactly if it has no plus sign and no escape.** -/
theorem decodeForm_eq_self_iff {s : List UInt8} :
    decodeForm s = s ↔ 43 ∉ s ∧ ¬Misread (s.map Token.raw) := by
  have hread := percentDecode_write ((plusToSpace s).map Token.raw)
  rw [write_map_raw, values_map_raw, List.length_map] at hread
  constructor
  · intro h
    have hlen : (plusToSpace s).length = s.length := List.length_map ..
    have hm : ¬Misread ((plusToSpace s).map Token.raw) := by
      intro hm
      have hlt := hread.2.2 hm
      rw [show percentDecode (plusToSpace s) = s from h, hlen] at hlt
      exact Nat.lt_irrefl _ hlt
    have hplus : plusToSpace s = s := (hread.1 hm).symm.trans h
    refine ⟨fun hmem => ?_, hplus ▸ hm⟩
    -- the plus sign would have become a space
    have hspace : ∀ b ∈ plusToSpace s, b ≠ 43 := by
      intro b hb
      obtain ⟨a, -, rfl⟩ := List.mem_map.mp hb
      split
      · decide
      · next hne => exact hne
    rw [hplus] at hspace
    exact hspace 43 hmem rfl
  · rintro ⟨hplus, hm⟩
    rw [plusToSpace_eq_self hplus] at hread
    rw [decodeForm, plusToSpace_eq_self hplus, hread.1 hm]

theorem takeWhile_append_cons (hname : 61 ∉ name) (rest : List UInt8) :
    (name ++ 61 :: rest).takeWhile (· != 61) = name ∧
      ((name ++ 61 :: rest).dropWhile (· != 61)).drop 1 = rest := by
  have hall : ∀ b ∈ name, (b != 61) = true := by
    intro b hb
    rw [bne_iff_ne]
    rintro rfl
    exact hname hb
  rw [List.takeWhile_append_of_pos hall, List.dropWhile_append_of_pos hall]
  simp

/-- A pair without separators in it is read as it was written. -/
theorem parseForm_pair (hname : 38 ∉ name) (hequals : 61 ∉ name) (hwritten : 38 ∉ written) :
    parseForm (name ++ 61 :: written) = [(decodeForm name, decodeForm written)] := by
  have hnone : 38 ∉ name ++ 61 :: written := by
    rw [List.mem_append, List.mem_cons, not_or, not_or]
    exact ⟨hname, by decide, hwritten⟩
  obtain ⟨htake, hdrop⟩ := takeWhile_append_cons hequals written
  rw [parseForm, List.splitOn_eq_singleton hnone, List.filter_cons_of_pos (by simp),
    List.filter_nil, List.map_singleton, parsePair, htake, hdrop]

/-- The last piece of a name and a value starts behind the last ampersand of the name. -/
theorem parseForm_append_ampersand (front back : List UInt8) :
    parseForm (front ++ 38 :: back) = parseForm front ++ parseForm back := by
  rw [parseForm, List.splitOn_append_cons_self, List.filter_append, List.map_append]
  rfl

theorem exists_last_ampersand (h : 38 ∈ name) :
    ∃ front back, name = front ++ 38 :: back ∧ (38 : UInt8) ∉ back := by
  induction name using List.reverseRecOn with
  | nil => cases h
  | append_singleton l b ih =>
      by_cases hb : b = 38
      · exact ⟨l, [], by rw [hb], List.not_mem_nil⟩
      · have hl : 38 ∈ l := by
          rw [List.mem_append, List.mem_singleton] at h
          exact h.resolve_right fun h' => hb h'.symm
        obtain ⟨front, back, rfl, hback⟩ := ih hl
        refine ⟨front, back ++ [b], by rw [List.append_assoc, List.cons_append], ?_⟩
        rw [List.mem_append, List.mem_singleton, not_or]
        exact ⟨hback, fun h' => hb h'.symm⟩

theorem takeWhile_append_equals (name rest : List UInt8) :
    (name ++ 61 :: rest).takeWhile (· != 61) = name.takeWhile (· != 61) := by
  induction name with
  | nil => rfl
  | cons b name ih =>
      rw [List.cons_append, List.takeWhile_cons, List.takeWhile_cons, ih]

/-- Without an ampersand there is one pair, and its name ends at the first equals sign. -/
theorem parseForm_single (hname : 38 ∉ name) (hwritten : 38 ∉ written) :
    ∃ p, parseForm (name ++ 61 :: written) = [p] ∧
      p.1 = decodeForm (name.takeWhile (· != 61)) := by
  have hnone : 38 ∉ name ++ 61 :: written := by
    rw [List.mem_append, List.mem_cons, not_or, not_or]
    exact ⟨hname, by decide, hwritten⟩
  refine ⟨parsePair (name ++ 61 :: written), ?_, ?_⟩
  · rw [parseForm, List.splitOn_eq_singleton hnone, List.filter_cons_of_pos (by simp),
      List.filter_nil, List.map_singleton]
  · rw [parsePair, takeWhile_append_equals]

/-- There is a pair, whatever the name is. -/
theorem exists_parseForm_concat (name : List UInt8) (hwritten : 38 ∉ written) :
    ∃ ps p, parseForm (name ++ 61 :: written) = ps ++ [p] ∧
      p.1.length ≤ name.length ∧ (38 ∈ name → p.1.length < name.length) := by
  have hle : ∀ back : List UInt8, (decodeForm (back.takeWhile (· != 61))).length ≤ back.length :=
    fun back => (length_decodeForm_le _).trans (List.takeWhile_prefix _).length_le
  by_cases hname : 38 ∈ name
  · obtain ⟨front, back, rfl, hback⟩ := exists_last_ampersand hname
    obtain ⟨p, hp, hfst⟩ := parseForm_single hback hwritten
    have hshort : p.1.length < (front ++ 38 :: back).length := by
      rw [hfst, List.length_append, List.length_cons]
      have := hle back
      omega
    refine ⟨parseForm front, p, ?_, hshort.le, fun _ => hshort⟩
    rw [List.append_assoc, List.cons_append, parseForm_append_ampersand, hp]
  · obtain ⟨p, hp, hfst⟩ := parseForm_single hname hwritten
    exact ⟨[], p, hp, hfst ▸ hle name, fun h => absurd h hname⟩

/-- **A pair is read as it was meant exactly if its name is clean and its value is written so.** -/
theorem parseForm_pair_iff (hwritten : 38 ∉ written) :
    parseForm (name ++ 61 :: written) = [(name, value)] ↔
      Clean name ∧ decodeForm written = value := by
  have hclean : parseForm (name ++ 61 :: written) = [(name, value)] → Clean name := by
    intro h
    have hname : 38 ∉ name := by
      intro hmem
      obtain ⟨ps, p, hps, -, hlt⟩ := exists_parseForm_concat name hwritten
      rw [hps] at h
      have hp : p = (name, value) := by
        have hlast := congrArg List.getLast? h
        rw [List.getLast?_concat] at hlast
        exact Option.some.inj hlast
      have hself := hlt hmem
      rw [hp] at hself
      exact Nat.lt_irrefl _ hself
    obtain ⟨p, hp, hfst⟩ := parseForm_single hname hwritten
    rw [hp] at h
    rw [List.singleton_inj.mp h] at hfst
    have hself : name = decodeForm (name.takeWhile (· != 61)) := hfst
    have hlen : name.length ≤ (name.takeWhile (· != 61)).length :=
      (congrArg List.length hself).trans_le (length_decodeForm_le _)
    have htake : name.takeWhile (· != 61) = name :=
      (List.takeWhile_prefix _).eq_of_length_le hlen
    have hequals : 61 ∉ name := by
      intro hmem
      rw [← htake] at hmem
      exact absurd (List.mem_takeWhile_imp hmem) (by decide)
    rw [htake] at hself
    obtain ⟨hplus, hpercent⟩ := decodeForm_eq_self_iff.mp hself.symm
    exact ⟨hname, hequals, hplus, hpercent⟩
  have hread : Clean name → parseForm (name ++ 61 :: written) = [(name, decodeForm written)] := by
    intro h
    rw [parseForm_pair h.ampersand h.equals hwritten,
      decodeForm_eq_self_iff.mpr ⟨h.plus, h.percent⟩]
  constructor
  · intro h
    have hpair := hread (hclean h)
    rw [h, List.singleton_inj, Prod.mk.injEq] at hpair
    exact ⟨hclean h, hpair.2.symm⟩
  · rintro ⟨hname, hvalue⟩
    rw [hread hname, hvalue]

theorem parseForm_intercalate {pieces : List (List UInt8)} (h : pieces ≠ []) :
    parseForm ([38].intercalate pieces) = pieces.flatMap parseForm := by
  rw [parseForm, Text.splitOn_intercalate_flatMap 38 h, List.filter_flatMap, List.map_flatMap]
  rfl

/-- **All pairs are read as they were meant exactly if all names are clean and all values are
sent.** -/
theorem parseForm_pairs_iff {ι : Type} {w : List UInt8 → List UInt8}
    (hw : ∀ v, decodeForm (w v) = v) (hamp : ∀ v, 38 ∉ w v) {names sent meant : ι → List UInt8}
    {xs : List ι} :
    parseForm ([38].intercalate (xs.map fun x => names x ++ 61 :: w (sent x))) =
        xs.map (fun x => (names x, meant x)) ↔
      ∀ x ∈ xs, Clean (names x) ∧ sent x = meant x := by
  have hpair : ∀ x, parseForm (names x ++ 61 :: w (sent x)) = [(names x, meant x)] ↔
      Clean (names x) ∧ sent x = meant x := by
    intro x
    rw [parseForm_pair_iff (hamp (sent x)), hw]
  rcases hxs : xs with _ | ⟨x, rest⟩
  · exact iff_of_true rfl fun x hx => absurd hx List.not_mem_nil
  · rw [← hxs]
    have hne : (xs.map fun x => names x ++ 61 :: w (sent x)) ≠ [] := by
      rw [hxs]
      exact List.cons_ne_nil _ _
    rw [parseForm_intercalate hne, List.flatMap_map, ← List.flatMap_pure_eq_map]
    constructor
    · intro h x hx
      have hle : ∀ x ∈ xs, [(names x, meant x)].length ≤
          (parseForm (names x ++ 61 :: w (sent x))).length := by
        intro x _
        obtain ⟨qs, q, hq, -⟩ := exists_parseForm_concat (names x) (hamp (sent x))
        rw [hq, List.length_append]
        exact Nat.le_add_left 1 _
      exact (hpair x).mp (Infix.eq_parts_of_flatMap_eq hle h x hx)
    · intro h
      exact List.flatMap_congr fun x hx => (hpair x).mpr (h x hx)

/-- Names that are escaped as well are always read as they were. -/
theorem parseForm_escaped {w : List UInt8 → List UInt8} (hw : ∀ v, decodeForm (w v) = v)
    (hamp : ∀ v, 38 ∉ w v) (heq : ∀ v, 61 ∉ w v) (pairs : List (List UInt8 × List UInt8)) :
    parseForm ([38].intercalate (pairs.map fun p => w p.1 ++ 61 :: w p.2)) = pairs := by
  rcases hpairs : pairs with _ | ⟨p, ps⟩
  · rfl
  · rw [← hpairs]
    have hne : (pairs.map fun p => w p.1 ++ 61 :: w p.2) ≠ [] := by
      rw [hpairs]
      exact List.cons_ne_nil _ _
    rw [parseForm_intercalate hne, List.flatMap_map]
    refine (List.flatMap_congr fun p _ => ?_).trans (List.flatMap_singleton' pairs)
    rw [parseForm_pair (hamp p.1) (heq p.1) (hamp p.2), hw, hw]

end Pairs

end SpecForge.Lib.Percent
