import Mathlib.Data.Fin.VecNotation
import Mathlib.Data.Fintype.Basic
import Mathlib.Data.List.ReduceOption
import Mathlib.Tactic.FinCases
import SpecForge.Core.Print
import SpecForge.Lib.UniqueNames
import SpecForge.Lib.XorLinear

/-!
# Idempotency keys

The three SDKs write sixteen bytes as a key in the same way (§1), and what they write is exactly
the UUIDs of version 4 (`isV4_iff`, §2); six bits of the bytes are not in it. The Rust SDK has no
source of randomness: it draws the bytes from a seed by shifts and exclusive ors (§3), and two of
its keys are the same exactly if their seeds are (`newIdempotencyKey_eq_iff`). The Go SDK counts
where its source of randomness fails, and over calls made one after the other a number does not
come back (§4).
-/

namespace SpecForge

open Lib

/-! ## §1  Sixteen bytes as a key -/

abbrev KeyBytes := Fin 16 → UInt8

/-- The version and the variant, set in two of the bytes. -/
def stamp (b : KeyBytes) : KeyBytes :=
  let b := Function.update b 6 ((b 6 &&& 0x0f) ||| 0x40)
  Function.update b 8 ((b 8 &&& 0x3f) ||| 0x80)

/-- `{:02x}`. -/
def hex (b : UInt8) : List Char := Json.hexDigits b.toNat

/-- The digits of some bytes in their order. -/
def hexRange (digits : UInt8 → List Char) (b : KeyBytes) (start stop : ℕ) : List Char :=
  (((List.ofFn b).take stop).drop start).flatMap digits

theorem hexRange_groups (digits : UInt8 → List Char) (b : KeyBytes) :
    hexRange digits b 0 4 = digits (b 0) ++ digits (b 1) ++ digits (b 2) ++ digits (b 3) ∧
    hexRange digits b 4 6 = digits (b 4) ++ digits (b 5) ∧
    hexRange digits b 6 8 = digits (b 6) ++ digits (b 7) ∧
    hexRange digits b 8 10 = digits (b 8) ++ digits (b 9) ∧
    hexRange digits b 10 16 = digits (b 10) ++ digits (b 11) ++ digits (b 12) ++ digits (b 13) ++
      digits (b 14) ++ digits (b 15) := by
  have hbytes : List.ofFn b = [b 0, b 1, b 2, b 3, b 4, b 5, b 6, b 7, b 8, b 9, b 10, b 11,
    b 12, b 13, b 14, b 15] := rfl
  unfold hexRange
  rw [hbytes]
  simp only [List.take_succ_cons, List.take_zero, List.drop_succ_cons, List.drop_zero,
    List.flatMap_cons, List.flatMap_nil, List.append_assoc, List.append_nil, and_self]

namespace Rust

def formatKey (b : KeyBytes) : String := String.ofList (
  hex (b 0) ++ hex (b 1) ++ hex (b 2) ++ hex (b 3) ++ ['-'] ++
  hex (b 4) ++ hex (b 5) ++ ['-'] ++
  hex (b 6) ++ hex (b 7) ++ ['-'] ++
  hex (b 8) ++ hex (b 9) ++ ['-'] ++
  hex (b 10) ++ hex (b 11) ++ hex (b 12) ++ hex (b 13) ++ hex (b 14) ++ hex (b 15))

end Rust

namespace Go

/-- `%x-%x-%x-%x-%x` of the slices. -/
def formatKey (b : KeyBytes) : String := String.ofList (
  hexRange hex b 0 4 ++ ['-'] ++ hexRange hex b 4 6 ++ ['-'] ++ hexRange hex b 6 8 ++ ['-'] ++
  hexRange hex b 8 10 ++ ['-'] ++ hexRange hex b 10 16)

end Go

namespace Ts

/-- `b.toString(16).padStart(2, "0")`. -/
def hexPadded (b : UInt8) : List Char := (Nat.toDigits 16 b.toNat).leftpad 2 '0'

def formatKey (b : KeyBytes) : String := String.ofList (
  hexRange hexPadded b 0 4 ++ ['-'] ++ hexRange hexPadded b 4 6 ++ ['-'] ++
  hexRange hexPadded b 6 8 ++ ['-'] ++ hexRange hexPadded b 8 10 ++ ['-'] ++
  hexRange hexPadded b 10 16)

theorem hexPadded_eq (b : UInt8) : hexPadded b = hex b := by
  have h : ∀ n < 256, (Nat.toDigits 16 n).leftpad 2 '0' = Json.hexDigits n := by decide +kernel
  exact h b.toNat b.toNat_lt

end Ts

theorem formatKey_agree (b : KeyBytes) :
    Go.formatKey b = Rust.formatKey b ∧ Ts.formatKey b = Rust.formatKey b := by
  have hpadded : Ts.hexPadded = hex := funext Ts.hexPadded_eq
  have hgo : Go.formatKey b = Rust.formatKey b := by
    obtain ⟨h₁, h₂, h₃, h₄, h₅⟩ := hexRange_groups hex b
    refine congrArg String.ofList ?_
    simp only [h₁, h₂, h₃, h₄, h₅, List.append_assoc]
  refine ⟨hgo, ?_⟩
  rw [← hgo, Ts.formatKey, hpadded]
  rfl

/-! ## §2  Exactly the UUIDs of version 4 -/

def hexAlphabet : List Char := "0123456789abcdef".toList

/-- The characters that may stand at each place of a UUID of version 4. -/
def v4Shape : List (List Char) :=
  List.replicate 8 hexAlphabet ++ ['-'] :: List.replicate 4 hexAlphabet ++
    ['-'] :: ['4'] :: List.replicate 3 hexAlphabet ++
    ['-'] :: ['8', '9', 'a', 'b'] :: List.replicate 3 hexAlphabet ++
    ['-'] :: List.replicate 12 hexAlphabet

def FitsShape : List Char → List (List Char) → Prop := List.Forall₂ fun c allowed => c ∈ allowed

def IsV4 (key : String) : Prop := FitsShape key.toList v4Shape

instance (key : String) : Decidable (IsV4 key) :=
  inferInstanceAs (Decidable (List.Forall₂ (fun c allowed => c ∈ allowed) _ _))

example : IsV4 (Rust.formatKey (stamp fun _ => 0xff)) := by decide

def unhex (c d : Char) : UInt8 :=
  UInt8.ofNat (16 * hexAlphabet.idxOf c + hexAlphabet.idxOf d)

theorem hexAlphabet_eq : hexAlphabet = (List.range 16).map Nat.digitChar := rfl

/-- A digit stands at its own place. -/
theorem idxOf_digitChar : ∀ i < 16, hexAlphabet.idxOf (Nat.digitChar i) = i := by
  rw [hexAlphabet_eq]
  decide

theorem unhex_digitChar {i j : ℕ} (hi : i < 16) (hj : j < 16) :
    (unhex (Nat.digitChar i) (Nat.digitChar j)).toNat = 16 * i + j := by
  rw [unhex, idxOf_digitChar i hi, idxOf_digitChar j hj]
  have hlt : 16 * i + j < 256 := by omega
  exact UInt8.toNat_ofNat_of_lt' hlt

theorem unhex_hex (b : UInt8) : ∃ c d, hex b = [c, d] ∧ unhex c d = b := by
  refine ⟨_, _, rfl, ?_⟩
  have hb := b.toNat_lt
  rw [← UInt8.toNat_inj, unhex_digitChar (by omega) (by omega)]
  omega

theorem hex_inj {b b' : UInt8} : hex b = hex b' ↔ b = b' := by
  refine ⟨fun h => ?_, congrArg hex⟩
  obtain ⟨c, d, hb, rfl⟩ := unhex_hex b
  obtain ⟨c', d', hb', rfl⟩ := unhex_hex b'
  rw [hb, hb'] at h
  cases h
  rfl

theorem mem_hexAlphabet {c : Char} : c ∈ hexAlphabet ↔ ∃ i < 16, c = Nat.digitChar i := by
  rw [hexAlphabet_eq, List.mem_map]
  constructor
  · rintro ⟨i, hi, rfl⟩
    exact ⟨i, List.mem_range.mp hi, rfl⟩
  · rintro ⟨i, hi, rfl⟩
    exact ⟨i, List.mem_range.mpr hi, rfl⟩

/-- The digits that stand for a number of two digits. -/
theorem hex_of_toNat {b : UInt8} {i j : ℕ} (hb : b.toNat = 16 * i + j) (hj : j < 16) :
    hex b = [Nat.digitChar i, Nat.digitChar j] := by
  have hhigh : (16 * i + j) / 16 = i := by omega
  have hlow : (16 * i + j) % 16 = j := by omega
  rw [hex, Json.hexDigits, hb, hhigh, hlow]

theorem hex_unhex {c d : Char} (hc : c ∈ hexAlphabet) (hd : d ∈ hexAlphabet) :
    hex (unhex c d) = [c, d] := by
  obtain ⟨i, hi, rfl⟩ := mem_hexAlphabet.mp hc
  obtain ⟨j, hj, rfl⟩ := mem_hexAlphabet.mp hd
  exact hex_of_toNat (unhex_digitChar hi hj) hj

theorem toNat_and_version (b : UInt8) : (b &&& 0x0f).toNat = b.toNat % 16 := by
  rw [UInt8.toNat_and]
  exact Nat.and_two_pow_sub_one_eq_mod b.toNat 4

theorem toNat_and_variant (b : UInt8) : (b &&& 0x3f).toNat = b.toNat % 64 := by
  rw [UInt8.toNat_and]
  exact Nat.and_two_pow_sub_one_eq_mod b.toNat 6

theorem toNat_version (b : UInt8) : ((b &&& 0x0f) ||| 0x40).toNat = 64 + b.toNat % 16 := by
  have hlow : b.toNat % 16 < 2 ^ 6 := by omega
  rw [UInt8.toNat_or, toNat_and_version, Nat.lor_comm]
  exact (Nat.two_pow_add_eq_or_of_lt hlow 1).symm

theorem toNat_variant (b : UInt8) : ((b &&& 0x3f) ||| 0x80).toNat = 128 + b.toNat % 64 := by
  have hlow : b.toNat % 64 < 2 ^ 7 := by omega
  rw [UInt8.toNat_or, toNat_and_variant, Nat.lor_comm]
  exact (Nat.two_pow_add_eq_or_of_lt hlow 1).symm

theorem digitChar_four : Nat.digitChar 4 = '4' := rfl

theorem hex_unhex_version {d : Char} (hd : d ∈ hexAlphabet) :
    hex ((unhex '4' d &&& 0x0f) ||| 0x40) = ['4', d] := by
  obtain ⟨j, hj, rfl⟩ := mem_hexAlphabet.mp hd
  rw [← digitChar_four]
  have hunhex := unhex_digitChar (i := 4) (by omega) hj
  exact hex_of_toNat (by rw [toNat_version, hunhex]; omega) hj

theorem mem_variants {c : Char} : c ∈ ['8', '9', 'a', 'b'] ↔ ∃ i < 4, c = Nat.digitChar (8 + i) := by
  have hvariants : ['8', '9', 'a', 'b'] = (List.range 4).map fun i => Nat.digitChar (8 + i) := rfl
  rw [hvariants, List.mem_map]
  constructor
  · rintro ⟨i, hi, rfl⟩
    exact ⟨i, List.mem_range.mp hi, rfl⟩
  · rintro ⟨i, hi, rfl⟩
    exact ⟨i, List.mem_range.mpr hi, rfl⟩

theorem hex_unhex_variant {c d : Char} (hc : c ∈ ['8', '9', 'a', 'b'])
    (hd : d ∈ hexAlphabet) : hex ((unhex c d &&& 0x3f) ||| 0x80) = [c, d] := by
  obtain ⟨i, hi, rfl⟩ := mem_variants.mp hc
  obtain ⟨j, hj, rfl⟩ := mem_hexAlphabet.mp hd
  have hunhex := unhex_digitChar (i := 8 + i) (by omega) hj
  exact hex_of_toNat (by rw [toNat_variant, hunhex]; omega) hj

theorem hex_digits (b : UInt8) : ∃ c ∈ hexAlphabet, ∃ d ∈ hexAlphabet, hex b = [c, d] := by
  have hb := b.toNat_lt
  exact ⟨_, mem_hexAlphabet.mpr ⟨b.toNat / 16, by omega, rfl⟩,
    _, mem_hexAlphabet.mpr ⟨b.toNat % 16, by omega, rfl⟩, rfl⟩

theorem hex_version (b : UInt8) :
    ∃ d ∈ hexAlphabet, hex ((b &&& 0x0f) ||| 0x40) = ['4', d] := by
  refine ⟨_, mem_hexAlphabet.mpr ⟨b.toNat % 16, by omega, rfl⟩, ?_⟩
  rw [← digitChar_four]
  exact hex_of_toNat (toNat_version b) (by omega)

theorem hex_variant (b : UInt8) : ∃ c ∈ ['8', '9', 'a', 'b'], ∃ d ∈ hexAlphabet,
    hex ((b &&& 0x3f) ||| 0x80) = [c, d] := by
  refine ⟨_, mem_variants.mpr ⟨b.toNat % 64 / 16, by omega, rfl⟩,
    _, mem_hexAlphabet.mpr ⟨b.toNat % 16, by omega, rfl⟩, ?_⟩
  exact hex_of_toNat (by rw [toNat_variant]; omega) (by omega)

section

variable {cs : List Char} {shape : List (List Char)}

theorem fits_hex (x : UInt8) :
    FitsShape (hex x ++ cs) (hexAlphabet :: hexAlphabet :: shape) ↔ FitsShape cs shape := by
  obtain ⟨c, hc, d, hd, hx⟩ := hex_digits x
  rw [hx]
  simp [FitsShape, hc, hd]

theorem fits_version (x : UInt8) :
    FitsShape (hex ((x &&& 0x0f) ||| 0x40) ++ cs) (['4'] :: hexAlphabet :: shape) ↔
      FitsShape cs shape := by
  obtain ⟨d, hd, hx⟩ := hex_version x
  rw [hx]
  simp [FitsShape, hd]

theorem fits_variant (x : UInt8) :
    FitsShape (hex ((x &&& 0x3f) ||| 0x80) ++ cs) (['8', '9', 'a', 'b'] :: hexAlphabet :: shape) ↔
      FitsShape cs shape := by
  obtain ⟨c, hc, d, hd, hx⟩ := hex_variant x
  rw [hx]
  simp only [FitsShape, List.cons_append, List.nil_append, List.forall₂_cons, hc, hd, true_and]

theorem fits_dash : FitsShape ('-' :: cs) (['-'] :: shape) ↔ FitsShape cs shape := by
  simp [FitsShape]

theorem exists_hex (h : FitsShape cs (hexAlphabet :: hexAlphabet :: shape)) :
    ∃ x rest, cs = hex x ++ rest ∧ FitsShape rest shape := by
  obtain ⟨c, cs', hc, h', rfl⟩ := List.forall₂_cons_right_iff.mp h
  obtain ⟨d, rest, hd, hrest, rfl⟩ := List.forall₂_cons_right_iff.mp h'
  exact ⟨unhex c d, rest, by rw [hex_unhex hc hd]; rfl, hrest⟩

theorem exists_version (h : FitsShape cs (['4'] :: hexAlphabet :: shape)) :
    ∃ x rest, cs = hex ((x &&& 0x0f) ||| 0x40) ++ rest ∧ FitsShape rest shape := by
  obtain ⟨c, cs', hc, h', rfl⟩ := List.forall₂_cons_right_iff.mp h
  obtain ⟨d, rest, hd, hrest, rfl⟩ := List.forall₂_cons_right_iff.mp h'
  refine ⟨unhex '4' d, rest, ?_, hrest⟩
  rw [hex_unhex_version hd, List.mem_singleton.mp hc]
  rfl

theorem exists_variant (h : FitsShape cs (['8', '9', 'a', 'b'] :: hexAlphabet :: shape)) :
    ∃ x rest, cs = hex ((x &&& 0x3f) ||| 0x80) ++ rest ∧ FitsShape rest shape := by
  obtain ⟨c, cs', hc, h', rfl⟩ := List.forall₂_cons_right_iff.mp h
  obtain ⟨d, rest, hd, hrest, rfl⟩ := List.forall₂_cons_right_iff.mp h'
  refine ⟨unhex c d, rest, ?_, hrest⟩
  rw [hex_unhex_variant hc hd]
  rfl

theorem exists_dash (h : FitsShape cs (['-'] :: shape)) :
    ∃ rest, cs = '-' :: rest ∧ FitsShape rest shape := by
  obtain ⟨c, rest, hc, hrest, rfl⟩ := List.forall₂_cons_right_iff.mp h
  exact ⟨rest, by rw [List.mem_singleton.mp hc], hrest⟩

end

theorem stamp_of_ne (b : KeyBytes) {i : Fin 16} (h₆ : i ≠ 6) (h₈ : i ≠ 8) : stamp b i = b i := by
  rw [stamp, Function.update_of_ne h₈, Function.update_of_ne h₆]

theorem stamp_version (b : KeyBytes) : stamp b 6 = (b 6 &&& 0x0f) ||| 0x40 := rfl

theorem stamp_variant (b : KeyBytes) : stamp b 8 = (b 8 &&& 0x3f) ||| 0x80 := rfl

/-- The bytes agree but for the bits that the stamp sets. -/
structure AgreeUnstamped (b b' : KeyBytes) : Prop where
  version : b 6 &&& 0x0f = b' 6 &&& 0x0f
  variant : b 8 &&& 0x3f = b' 8 &&& 0x3f
  others : ∀ i, i ≠ 6 → i ≠ 8 → b i = b' i

theorem stamp_eq_iff {b b' : KeyBytes} : stamp b = stamp b' ↔ AgreeUnstamped b b' := by
  have hversion : ∀ x : UInt8, ((x &&& 0x0f) ||| 0x40) &&& 0x0f = x &&& 0x0f := by
    intro x
    rw [← UInt8.toNat_inj, toNat_and_version, toNat_version, toNat_and_version]
    omega
  have hvariant : ∀ x : UInt8, ((x &&& 0x3f) ||| 0x80) &&& 0x3f = x &&& 0x3f := by
    intro x
    rw [← UInt8.toNat_inj, toNat_and_variant, toNat_variant, toNat_and_variant]
    omega
  constructor
  · intro h
    constructor
    · have h₆ := congrArg (· &&& 0x0f) (congrFun h 6)
      exact (hversion (b 6)).symm.trans (h₆.trans (hversion (b' 6)))
    · have h₈ := congrArg (· &&& 0x3f) (congrFun h 8)
      exact (hvariant (b 8)).symm.trans (h₈.trans (hvariant (b' 8)))
    · intro i h₆ h₈
      rw [← stamp_of_ne b h₆ h₈, ← stamp_of_ne b' h₆ h₈, h]
  · intro h
    ext i
    by_cases h₈ : i = 8
    · rw [h₈, stamp_variant, stamp_variant, h.variant]
    · by_cases h₆ : i = 6
      · rw [h₆, stamp_version, stamp_version, h.version]
      · rw [stamp_of_ne b h₆ h₈, stamp_of_ne b' h₆ h₈, h.others i h₆ h₈]

/-- Different bytes are written differently. -/
theorem formatKey_inj {b b' : KeyBytes} : Rust.formatKey b = Rust.formatKey b' ↔ b = b' := by
  refine ⟨fun h => ?_, congrArg _⟩
  have hchars := String.ofList_injective h
  have hbytes : ∀ i, hex (b i) = hex (b' i) := by
    simp only [hex, Json.hexDigits, List.cons_append, List.nil_append, List.cons.injEq, and_true,
      true_and] at hchars
    intro i
    fin_cases i <;> simp [hex, Json.hexDigits, hchars]
  exact funext fun i => hex_inj.mp (hbytes i)

theorem toList_formatKey (b : KeyBytes) : (Rust.formatKey b).toList =
    hex (b 0) ++ (hex (b 1) ++ (hex (b 2) ++ (hex (b 3) ++ '-' :: (hex (b 4) ++ (hex (b 5) ++
      '-' :: (hex (b 6) ++ (hex (b 7) ++ '-' :: (hex (b 8) ++ (hex (b 9) ++ '-' ::
      (hex (b 10) ++ (hex (b 11) ++ (hex (b 12) ++ (hex (b 13) ++ (hex (b 14) ++
      (hex (b 15) ++ []))))))))))))))) := by
  unfold Rust.formatKey
  simp only [String.toList_ofList, List.append_assoc, List.cons_append, List.nil_append,
    List.append_nil]

theorem isV4_formatKey (b : KeyBytes) : IsV4 (Rust.formatKey (stamp b)) := by
  unfold IsV4 v4Shape
  simp only [toList_formatKey, List.replicate, List.cons_append, List.nil_append, stamp_version,
    stamp_variant, fits_hex, fits_version, fits_variant, fits_dash]
  exact .nil

theorem exists_of_isV4 {key : String} (h : IsV4 key) : ∃ b, Rust.formatKey (stamp b) = key := by
  simp only [IsV4, v4Shape, List.replicate, List.cons_append, List.nil_append] at h
  obtain ⟨x₀, _, e0, h⟩ := exists_hex h
  obtain ⟨x₁, _, e1, h⟩ := exists_hex h
  obtain ⟨x₂, _, e2, h⟩ := exists_hex h
  obtain ⟨x₃, _, e3, h⟩ := exists_hex h
  obtain ⟨_, e4, h⟩ := exists_dash h
  obtain ⟨x₄, _, e5, h⟩ := exists_hex h
  obtain ⟨x₅, _, e6, h⟩ := exists_hex h
  obtain ⟨_, e7, h⟩ := exists_dash h
  obtain ⟨x₆, _, e8, h⟩ := exists_version h
  obtain ⟨x₇, _, e9, h⟩ := exists_hex h
  obtain ⟨_, e10, h⟩ := exists_dash h
  obtain ⟨x₈, _, e11, h⟩ := exists_variant h
  obtain ⟨x₉, _, e12, h⟩ := exists_hex h
  obtain ⟨_, e13, h⟩ := exists_dash h
  obtain ⟨x₁₀, _, e14, h⟩ := exists_hex h
  obtain ⟨x₁₁, _, e15, h⟩ := exists_hex h
  obtain ⟨x₁₂, _, e16, h⟩ := exists_hex h
  obtain ⟨x₁₃, _, e17, h⟩ := exists_hex h
  obtain ⟨x₁₄, _, e18, h⟩ := exists_hex h
  obtain ⟨x₁₅, _, e19, h⟩ := exists_hex h
  have hnil := List.forall₂_nil_right_iff.mp h
  refine ⟨![x₀, x₁, x₂, x₃, x₄, x₅, x₆, x₇, x₈, x₉, x₁₀, x₁₁, x₁₂, x₁₃, x₁₄, x₁₅], ?_⟩
  apply String.toList_injective
  rw [toList_formatKey, e0, e1, e2, e3, e4, e5, e6, e7, e8, e9, e10, e11, e12, e13, e14,
    e15, e16, e17, e18, e19, hnil]
  rfl

/-- What bytes are written as the same key. -/
theorem formatKey_stamp_eq_iff {b b' : KeyBytes} :
    Rust.formatKey (stamp b) = Rust.formatKey (stamp b') ↔ AgreeUnstamped b b' :=
  formatKey_inj.trans stamp_eq_iff

/-! ## §3  Keys from a seed -/

namespace Rust

/-- What a key is mixed from: the clock, the process and where the bytes lie. -/
structure Moment where
  now : Option (BitVec 128)
  processId : UInt32
  address : UInt64

def Moment.seed (m : Moment) : UInt64 :=
  let t := m.now.getD 0
  UInt64.ofBitVec (t.setWidth 64) ^^^ UInt64.ofBitVec ((t >>> 64).setWidth 64) ^^^
    m.processId.toUInt64 ^^^ m.address

def xorshift (state : UInt64) : UInt64 :=
  let state := state ^^^ (state <<< 13)
  let state := state ^^^ (state >>> 7)
  state ^^^ (state <<< 17)

/-- The bytes that the loop writes, from the state before it. -/
def drawn (state : UInt64) : KeyBytes := fun i => (xorshift^[i.val + 1] state >>> 8).toUInt8

def newIdempotencyKey (m : Moment) : String := formatKey (stamp (drawn m.seed))

example : newIdempotencyKey ⟨none, 0, 0⟩ = "00000000-0000-4000-8000-000000000000" := by
  decide +kernel

/-- `xorshift` on the numbers that the states are. -/
def shifted (x : ℕ) : ℕ :=
  let x := x ^^^ ((x <<< 13) % 2 ^ 64)
  let x := x ^^^ (x >>> 7)
  x ^^^ ((x <<< 17) % 2 ^ 64)

theorem toNat_xorshift (state : UInt64) : (xorshift state).toNat = shifted state.toNat := by
  simp only [xorshift, shifted, UInt64.toNat_xor, UInt64.toNat_shiftLeft, UInt64.toNat_shiftRight]
  rfl

theorem toNat_iterate (state : UInt64) (n : ℕ) :
    (xorshift^[n] state).toNat = shifted^[n] state.toNat := by
  induction n generalizing state with
  | zero => rfl
  | succ n ih => rw [Function.iterate_succ_apply, Function.iterate_succ_apply, ih, toNat_xorshift]

theorem xorLinear_shifted : XorLinear shifted := by
  have hfirst : XorLinear fun x => x ^^^ ((x <<< 13) % 2 ^ 64) :=
    XorLinear.id.xor ((XorLinear.id.shiftLeft 13).mod_two_pow 64)
  have hsecond : XorLinear fun x => x ^^^ (x >>> 7) := XorLinear.id.xor (XorLinear.id.shiftRight 7)
  have hthird : XorLinear fun x => x ^^^ ((x <<< 17) % 2 ^ 64) :=
    XorLinear.id.xor ((XorLinear.id.shiftLeft 17).mod_two_pow 64)
  exact hthird.comp (hsecond.comp hfirst)

/-- How many bits of a byte are not stamped. -/
def kept (i : ℕ) : ℕ := if i = 6 then 4 else if i = 8 then 6 else 8

/-- What a key says of the state before it, byte by byte. -/
def packed : ℕ → ℕ → ℕ
  | 0, _ => 0
  | n + 1, x => packed n x <<< 8 ^^^ (shifted^[n + 1] x >>> 8) % 2 ^ kept n

theorem xorLinear_packed (n : ℕ) : XorLinear (packed n) := by
  induction n with
  | zero => exact fun _ _ => (Nat.xor_self 0).symm
  | succ n ih =>
      exact (ih.shiftLeft 8).xor (((xorLinear_shifted.iterate _).shiftRight 8).mod_two_pow _)

/-- **A key says all of its state.** -/
theorem injOn_packed : Set.InjOn (packed 16) {x | x < 2 ^ 64} :=
  (injOn_iff_independent (xorLinear_packed 16) 64).mpr (by decide +kernel)

theorem toNat_drawn (state : UInt64) (i : Fin 16) :
    (drawn state i).toNat = (shifted^[i.val + 1] state.toNat >>> 8) % 2 ^ 8 := by
  rw [drawn, UInt64.toNat_toUInt8, UInt64.toNat_shiftRight, toNat_iterate]
  rfl

theorem packed_congr {state state' : UInt64} (h : AgreeUnstamped (drawn state) (drawn state')) :
    ∀ n ≤ 16, packed n state.toNat = packed n state'.toNat := by
  have hkept : ∀ i : Fin 16, (drawn state i).toNat % 2 ^ kept i.val =
      (drawn state' i).toNat % 2 ^ kept i.val := by
    intro i
    by_cases h₆ : i = 6
    · have hbits := congrArg UInt8.toNat h.version
      rw [UInt8.toNat_and, UInt8.toNat_and] at hbits
      rw [h₆]
      exact (Nat.and_two_pow_sub_one_eq_mod _ 4).symm.trans
        (hbits.trans (Nat.and_two_pow_sub_one_eq_mod _ 4))
    · by_cases h₈ : i = 8
      · have hbits := congrArg UInt8.toNat h.variant
        rw [UInt8.toNat_and, UInt8.toNat_and] at hbits
        rw [h₈]
        exact (Nat.and_two_pow_sub_one_eq_mod _ 6).symm.trans
          (hbits.trans (Nat.and_two_pow_sub_one_eq_mod _ 6))
      · rw [h.others i h₆ h₈]
  intro n hn
  induction n with
  | zero => rfl
  | succ n ih =>
      have hdvd : 2 ^ kept n ∣ 2 ^ 8 := by
        apply Nat.pow_dvd_pow
        unfold kept
        split_ifs <;> omega
      have hdigit := hkept ⟨n, by omega⟩
      rw [toNat_drawn, toNat_drawn, Nat.mod_mod_of_dvd _ hdvd, Nat.mod_mod_of_dvd _ hdvd] at hdigit
      rw [packed, packed, ih (by omega), hdigit]

/-- **Two keys are the same exactly if the clock, the process and the address mix to the same
seed.** -/
theorem newIdempotencyKey_eq_iff (m m' : Moment) :
    newIdempotencyKey m = newIdempotencyKey m' ↔ m.seed = m'.seed := by
  refine ⟨fun h => ?_, fun h => by rw [newIdempotencyKey, newIdempotencyKey, h]⟩
  have hagree : AgreeUnstamped (drawn m.seed) (drawn m'.seed) := formatKey_stamp_eq_iff.mp h
  apply UInt64.toNat_inj.mp
  exact injOn_packed m.seed.toNat_lt m'.seed.toNat_lt (packed_congr hagree 16 le_rfl)

-- two processes whose clocks are apart as their numbers are
example : (⟨some 5, 6, 0⟩ : Moment).seed = (⟨some 6, 5, 0⟩ : Moment).seed := by decide

end Rust

/-! ## §4  Keys from a counter -/

namespace Go

/-- The key of a client whose source of randomness has failed. -/
def counted (nonceCounter : UInt64) : String := "key-" ++ toString nonceCounter.toNat

/-- `NewIdempotencyKey`, for what `rand.Read` leaves in the bytes if it does not fail. -/
def newIdempotencyKey (random : Option KeyBytes) (nonceCounter : UInt64) : String × UInt64 :=
  match random with
  | none => (counted (nonceCounter + 1), nonceCounter + 1)
  | some b => (formatKey (stamp b), nonceCounter)

/-- The keys of calls made one after the other. `nonceFallback` counts without a lock: two calls
at once, both without random bytes, may come by one number. -/
def keys : List (Option KeyBytes) → UInt64 → List String
  | [], _ => []
  | random :: draws, nonceCounter =>
      let (key, nonceCounter) := newIdempotencyKey random nonceCounter
      key :: keys draws nonceCounter

section

variable {draws : List (Option KeyBytes)} {n : UInt64} {key : String}

theorem counted_ne (n : UInt64) (b : KeyBytes) : counted n ≠ formatKey (stamp b) := by
  intro h
  have hv4 : IsV4 (counted n) := by
    rw [h, (formatKey_agree _).1]
    exact isV4_formatKey b
  have hchars : (counted n).toList = 'k' :: ("ey-".toList ++ (toString n.toNat).toList) := by
    rw [counted, String.toList_append]
    rfl
  rw [IsV4, hchars] at hv4
  cases hv4 with
  | cons hfirst _ => exact absurd hfirst (by decide)

theorem counted_inj {n n' : UInt64} : counted n = counted n' ↔ n = n' := by
  refine ⟨fun h => ?_, congrArg counted⟩
  exact UInt64.toNat_inj.mp (UniqueNames.append_toString_injective "key-" h)

theorem formatKey_stamp_eq_iff {b b' : KeyBytes} :
    formatKey (stamp b) = formatKey (stamp b') ↔ AgreeUnstamped b b' := by
  rw [(formatKey_agree _).1, (formatKey_agree _).1]
  exact SpecForge.formatKey_stamp_eq_iff

theorem mem_keys : key ∈ keys draws n ↔
    (∃ b, some b ∈ draws ∧ key = formatKey (stamp b)) ∨
      ∃ j < draws.count none, key = counted (n + 1 + UInt64.ofNat j) := by
  induction draws generalizing n with
  | nil => simp [keys]
  | cons random draws ih =>
      cases random with
      | some b =>
          show key ∈ formatKey (stamp b) :: keys draws n ↔ _
          simp only [List.mem_cons, ih, Option.some.injEq, List.count_cons, reduceCtorEq,
            beq_iff_eq, if_false, Nat.add_zero, or_and_right, exists_or, exists_eq_left, or_assoc]
      | none =>
          have hshift : ∀ j, n + 1 + UInt64.ofNat (j + 1) = n + 1 + 1 + UInt64.ofNat j := by
            intro j
            rw [UInt64.ofNat_add]
            ac_rfl
          have hzero : n + 1 + UInt64.ofNat 0 = n + 1 := UInt64.add_zero _
          show key ∈ counted (n + 1) :: keys draws (n + 1) ↔ _
          rw [List.mem_cons, ih, List.count_cons_self, Nat.exists_lt_succ_left, hzero, or_left_comm]
          simp only [hshift, List.mem_cons, reduceCtorEq, false_or]

/-- **The keys of calls one after the other are different as long as their bytes are.** -/
theorem nodup_keys_iff (draws : List (Option KeyBytes)) (hlength : draws.length ≤ 2 ^ 64)
    (nonceCounter : UInt64) : (keys draws nonceCounter).Nodup ↔
      draws.reduceOption.Pairwise fun b b' => ¬ AgreeUnstamped b b' := by
  induction draws generalizing nonceCounter with
  | nil => exact iff_of_true .nil .nil
  | cons random draws ih =>
      rw [List.length_cons] at hlength
      cases random with
      | none =>
          show (counted (nonceCounter + 1) :: keys draws (nonceCounter + 1)).Nodup ↔ _
          rw [List.nodup_cons, ih (by omega), List.reduceOption_cons_of_none]
          refine and_iff_right ?_
          -- the counter has not come around
          rw [mem_keys]
          rintro (⟨b, -, hb⟩ | ⟨j, hj, hcounted⟩)
          · exact counted_ne _ b hb
          · have hwrap := counted_inj.mp hcounted
            have hcount : j < draws.length := hj.trans_le List.count_le_length
            rw [UInt64.add_assoc, UInt64.left_eq_add] at hwrap
            have hnat := congrArg UInt64.toNat hwrap
            rw [UInt64.toNat_add, UInt64.toNat_ofNat', UInt64.toNat_one, UInt64.toNat_zero] at hnat
            omega
      | some b =>
          show (formatKey (stamp b) :: keys draws nonceCounter).Nodup ↔ _
          rw [List.nodup_cons, ih (by omega), List.reduceOption_cons_of_some, List.pairwise_cons]
          refine and_congr_left fun _ => ?_
          rw [mem_keys]
          constructor
          · intro hfresh b' hb' hagree
            refine hfresh (.inl ⟨b', List.reduceOption_mem_iff.mp hb', ?_⟩)
            exact formatKey_stamp_eq_iff.mpr hagree
          · rintro hfresh (⟨b', hb', hsame⟩ | ⟨j, -, hcounted⟩)
            · exact hfresh b' (List.reduceOption_mem_iff.mpr hb') (formatKey_stamp_eq_iff.mp hsame)
            · exact counted_ne _ b hcounted.symm

end

theorem keys_failing_twice : (keys [none, some fun _ => 0, none] 0).Nodup := by
  have hlength : [none, some fun _ => 0, (none : Option KeyBytes)].length ≤ 2 ^ 64 := by decide
  exact (nodup_keys_iff _ hlength 0).mpr (List.pairwise_singleton _ _)

end Go

end SpecForge
