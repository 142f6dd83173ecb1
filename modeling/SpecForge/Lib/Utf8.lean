import Mathlib.Algebra.Ring.Nat
import Mathlib.Data.List.Basic

/-!
# Decoding UTF-8 byte by byte

A decoder that never fails: bytes that are no character become U+FFFD, one for each
longest piece that could have started a character. It is a machine on bytes, so that a
text may arrive in chunks, and a chunk may end inside a character.

- §1 the machine; §2 whole texts pass unchanged; §3 beginnings and ends of a string, seen on its
  bytes.
-/

namespace SpecForge.Lib.Utf8

/-! ## §1  The machine -/

def encode (t : List Char) : List UInt8 := t.flatMap String.utf8EncodeChar

/-- The character read so far: the bytes it still needs, the bits it has, and what the
next byte may be. -/
structure Decoder where
  needed : ℕ := 0
  point : ℕ := 0
  lower : ℕ := 0x80
  upper : ℕ := 0xBF
deriving DecidableEq

/-- A byte at the start of a character. -/
def start (b : UInt8) : List Char × Decoder :=
  let n := b.toNat
  if n ≤ 0x7F then ([Char.ofNat n], {})
  else if 0xC2 ≤ n ∧ n ≤ 0xDF then ([], { needed := 1, point := n - 0xC0 })
  else if 0xE0 ≤ n ∧ n ≤ 0xEF then
    -- no overlong form behind E0, no surrogate behind ED
    ([], { needed := 2, point := n - 0xE0,
           lower := if n = 0xE0 then 0xA0 else 0x80,
           upper := if n = 0xED then 0x9F else 0xBF })
  else if 0xF0 ≤ n ∧ n ≤ 0xF4 then
    ([], { needed := 3, point := n - 0xF0,
           lower := if n = 0xF0 then 0x90 else 0x80,
           upper := if n = 0xF4 then 0x8F else 0xBF })
  else ([Char.ofNat 0xFFFD], {})

def step (d : Decoder) (b : UInt8) : List Char × Decoder :=
  if d.needed = 0 then start b
  else if d.lower ≤ b.toNat ∧ b.toNat ≤ d.upper then
    let point := d.point * 64 + (b.toNat - 0x80)
    if d.needed = 1 then ([Char.ofNat point], {})
    else ([], { needed := d.needed - 1, point := point })
  else
    -- the character is given up, and the byte is read anew
    let (cs, d') := start b
    (Char.ofNat 0xFFFD :: cs, d')

def run (d : Decoder) : List UInt8 → List Char × Decoder
  | [] => ([], d)
  | b :: bs =>
      let (cs, d') := step d b
      let (rest, d'') := run d' bs
      (cs ++ rest, d'')

/-- What stands for a character that the end of the input cuts off. -/
def finish (d : Decoder) : List Char := if d.needed = 0 then [] else [Char.ofNat 0xFFFD]

/-- All of the input at once. -/
def decodeLossy (bytes : List UInt8) : List Char :=
  let (cs, d) := run {} bytes
  cs ++ finish d

@[simp] theorem run_nil (d : Decoder) : run d [] = ([], d) := rfl

@[simp] theorem run_cons (d : Decoder) (b : UInt8) (bs : List UInt8) :
    run d (b :: bs) =
      ((step d b).1 ++ (run (step d b).2 bs).1, (run (step d b).2 bs).2) := rfl

@[simp] theorem finish_start : finish {} = [] := rfl

theorem run_append (d : Decoder) (bs cs : List UInt8) :
    run d (bs ++ cs) =
      ((run d bs).1 ++ (run (run d bs).2 cs).1, (run (run d bs).2 cs).2) := by
  induction bs generalizing d with
  | nil => simp
  | cons b bs ih => simp [ih, List.append_assoc]

/-! ## §2  Whole texts -/

/-- A code point below the surrogates or above them. -/
theorem toNat_char (c : Char) : c.toNat < 0xD800 ∨ 0xDFFF < c.toNat ∧ c.toNat < 0x110000 :=
  c.valid

theorem step_last {p l u : ℕ} {b : UInt8} (h : l ≤ b.toNat ∧ b.toNat ≤ u) :
    step { needed := 1, point := p, lower := l, upper := u } b =
      ([Char.ofNat (p * 64 + (b.toNat - 0x80))], {}) := by
  simp [step, h]

theorem step_more {n p l u : ℕ} {b : UInt8} (h : l ≤ b.toNat ∧ b.toNat ≤ u) :
    step { needed := n + 2, point := p, lower := l, upper := u } b =
      ([], { needed := n + 1, point := p * 64 + (b.toNat - 0x80) }) := by
  simp [step, h]

theorem toNat_byte {n : ℕ} (h : n < 256) : (UInt8.ofNat n).toNat = n :=
  UInt8.toNat_ofNat_of_lt' h

theorem toNat_continuation (m : ℕ) :
    (UInt8.ofNat (m % 0x40 + 0x80)).toNat = m % 64 + 0x80 :=
  toNat_byte (by omega)

/-- The bytes of one character are that character, and nothing is pending after them. -/
theorem run_encodeChar (c : Char) : run {} (String.utf8EncodeChar c) = ([c], {}) := by
  have hc := toNat_char c
  have hself : Char.ofNat c.toNat = c := Char.ofNat_toNat c
  have hval : c.val.toNat = c.toNat := rfl
  rw [String.utf8EncodeChar, hval]
  generalize c.toNat = n at hc hself
  split
  · next h1 =>
      have hb : (UInt8.ofNat n).toNat = n := toNat_byte (by omega)
      simp [step, start, hb, h1, hself]
  split
  · next h1 h2 =>
      have hb : (UInt8.ofNat (n / 64 % 0x20 + 0xC0)).toNat = n / 64 + 0xC0 := by
        rw [toNat_byte (by omega)]
        omega
      have hstart : step {} (UInt8.ofNat (n / 64 % 0x20 + 0xC0)) =
          ([], { needed := 1, point := n / 64 }) := by
        show start _ = _
        simp only [start, hb]
        rw [if_neg (by omega), if_pos (by omega), Nat.add_sub_cancel]
      have hpoint : n / 64 * 64 + (n % 64 + 0x80 - 0x80) = n := by omega
      have hcont := toNat_continuation n
      rw [run_cons, hstart, run_cons, step_last (by omega), hcont, hpoint, hself]
      rfl
  split
  · next h1 h2 h3 =>
      have hb : (UInt8.ofNat (n / 4096 % 0x10 + 0xE0)).toNat = n / 4096 + 0xE0 := by
        rw [toNat_byte (by omega)]
        omega
      have hstart : step {} (UInt8.ofNat (n / 4096 % 0x10 + 0xE0)) =
          ([], { needed := 2, point := n / 4096,
                 lower := if n / 4096 + 0xE0 = 0xE0 then 0xA0 else 0x80,
                 upper := if n / 4096 + 0xE0 = 0xED then 0x9F else 0xBF }) := by
        show start _ = _
        simp only [start, hb]
        rw [if_neg (by omega), if_neg (by omega), if_pos (by omega), Nat.add_sub_cancel]
      have hcont := toNat_continuation (n / 64)
      have hcont' := toNat_continuation n
      have hpoint : (n / 4096 * 64 + (n / 64 % 64 + 0x80 - 0x80)) * 64 +
          (n % 64 + 0x80 - 0x80) = n := by omega
      rw [run_cons, hstart, run_cons, step_more (by split_ifs <;> omega), run_cons,
        step_last (by omega), hcont, hcont', hpoint, hself]
      rfl
  · next h1 h2 h3 =>
      have hb : (UInt8.ofNat (n / 262144 % 0x08 + 0xF0)).toNat = n / 262144 + 0xF0 := by
        rw [toNat_byte (by omega)]
        omega
      have hstart : step {} (UInt8.ofNat (n / 262144 % 0x08 + 0xF0)) =
          ([], { needed := 3, point := n / 262144,
                 lower := if n / 262144 + 0xF0 = 0xF0 then 0x90 else 0x80,
                 upper := if n / 262144 + 0xF0 = 0xF4 then 0x8F else 0xBF }) := by
        show start _ = _
        simp only [start, hb]
        rw [if_neg (by omega), if_neg (by omega), if_neg (by omega), if_pos (by omega),
          Nat.add_sub_cancel]
      have hcont := toNat_continuation (n / 4096)
      have hcont' := toNat_continuation (n / 64)
      have hcont'' := toNat_continuation n
      have hpoint : ((n / 262144 * 64 + (n / 4096 % 64 + 0x80 - 0x80)) * 64 +
          (n / 64 % 64 + 0x80 - 0x80)) * 64 + (n % 64 + 0x80 - 0x80) = n := by omega
      rw [run_cons, hstart, run_cons, step_more (by split_ifs <;> omega), run_cons,
        step_more (by omega), run_cons, step_last (by omega), hcont, hcont', hcont'',
        hpoint, hself]
      rfl

/-- **The bytes of a text are decoded to the text.** -/
theorem run_encode (t : List Char) : run {} (encode t) = (t, {}) := by
  induction t with
  | nil => rfl
  | cons c t ih =>
      show run {} (String.utf8EncodeChar c ++ encode t) = _
      rw [run_append, run_encodeChar, ih]
      rfl

@[simp] theorem decodeLossy_encode (t : List Char) : decodeLossy (encode t) = t := by
  rw [decodeLossy, run_encode]
  simp

/-- A cut inside a character loses it. -/
example : decodeLossy [0xC3] ++ decodeLossy [0xA9] =
    [Char.ofNat 0xFFFD, Char.ofNat 0xFFFD] := by decide

/-! ## §3  The bytes of a string -/

theorem toList_toUTF8 (s : String) : s.toUTF8.data.toList = encode s.toList := by
  have h : s.toUTF8 = s.toList.utf8Encode := by
    rw [← String.toByteArray_ofList, String.ofList_toList]
    rfl
  rw [h, List.utf8Encode, encode, List.toList_data_toByteArray]

theorem encode_append (t u : List Char) : encode (t ++ u) = encode t ++ encode u :=
  List.flatMap_append

/-- The bytes of a string. Those of a literal are cheaper to look at than its characters. -/
def bytes (s : String) : List UInt8 := s.toUTF8.data.toList

theorem bytes_prefix {p s : String} (h : p.toList <+: s.toList) : bytes p <+: bytes s := by
  obtain ⟨t, ht⟩ := h
  refine ⟨encode t, ?_⟩
  rw [bytes, bytes, toList_toUTF8, toList_toUTF8, ← ht, encode_append]

theorem bytes_suffix {q s : String} (h : q.toList <:+ s.toList) : bytes q <:+ bytes s := by
  obtain ⟨t, ht⟩ := h
  refine ⟨encode t, ?_⟩
  rw [bytes, bytes, toList_toUTF8, toList_toUTF8, ← ht, encode_append]

theorem mem_bytes {c : Char} {s : String} (h : c ∈ s.toList) {b : UInt8}
    (hb : b ∈ String.utf8EncodeChar c) : b ∈ bytes s := by
  rw [bytes, toList_toUTF8]
  exact List.mem_flatMap.mpr ⟨c, h, hb⟩

end SpecForge.Lib.Utf8
