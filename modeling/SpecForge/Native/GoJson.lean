import SpecForge.Cli.NumericBounds
import SpecForge.Core.Mock
import SpecForge.Native.GoStructs

/-!
# JSON in and out of the Go models

A model is decoded into its zero value and encoded again by `encoding/json`. What is not in the
object is left at its zero value, what is `null` too unless the type has a `nil`, and an optional
field with an empty value is left out.

- §1 values; §2 encoding; §3 decoding; §4 equal values; §5 what survives; §6 fields and
  budgets; §7 what survives comes back, and nothing else does.
-/

namespace SpecForge.Go

open Native Lib

/-! ## §1  Values -/

/-- A value of a type. `nil` is that of pointers, slices, maps and interfaces; what an `any` holds
is given as JSON. -/
inductive GoVal where
  | text (s : String)
  | int (i : Int64)
  | float (f : FiniteF64)
  | bool (b : Bool)
  | any (v : Value)
  | nil
  | pointer (g : GoVal)
  | slice (items : List GoVal)
  | map (entries : List (String × GoVal))
  | struct (fields : List (JsonField × GoVal))

/-- What `encoding/json` does with the tables and the numbers of the Go library. -/
structure JsonPackage where
  /-- `unicode.IsLetter` or `unicode.IsDigit`, beyond ASCII. -/
  letter : Char → Bool
  /-- `strconv.ParseFloat`. -/
  parseFloat : Number → FiniteF64
  /-- What keys do that are the name of no field: one that differs in case only fills it. -/
  foldMatch : List (String × Value) → List GoVal → Option (List GoVal)

/-- The number is a double. -/
def IsDouble (n : Number) : Prop := ∃ f : FiniteF64, f.toRat = n.toRat

/-- `ParseFloat` returns the nearest double, so a double is read as itself. -/
def JsonPackage.Nearest (pkg : JsonPackage) : Prop :=
  ∀ n, IsDouble n → (pkg.parseFloat n).toRat = n.toRat

/-- `strconv.ParseInt`, of 64 bits. -/
def parseInt : Number → Option Int64
  | .posInt n => if n.toNat ≤ 9223372036854775807 then some (Int64.ofNat n.toNat) else none
  | .negInt i _ => some i
  | .float _ => none

/-! ## §2  Encoding -/

def intNumber (i : Int64) : Number :=
  if h : i < 0 then .negInt i h else .posInt (UInt64.ofNat i.toInt.toNat)

/-- The values that `omitempty` leaves out. -/
def GoVal.isEmpty : GoVal → Bool
  | .text s => s.isEmpty
  | .int i => i == 0
  | .float f => decide (f.toRat = 0)
  | .bool b => !b
  | .any v => v.isNull
  | .nil => true
  | .pointer _ => false
  | .slice items => items.isEmpty
  | .map entries => entries.isEmpty
  | .struct _ => false

mutual

/-- `json.Marshal`. -/
def encode : GoVal → Value
  | .text s => .string s
  | .int i => .number (intNumber i)
  | .float f => .number (.float f)
  | .bool b => .bool b
  | .any v => v
  | .nil => .null
  | .pointer g => encode g
  | .slice items => .array (encodeItems items)
  | .map entries => .object (encodeEntries entries)
  | .struct fields => .object (encodeFields fields)

def encodeItems : List GoVal → List Value
  | [] => []
  | g :: gs => encode g :: encodeItems gs

def encodeEntries : List (String × GoVal) → List (String × Value)
  | [] => []
  | (k, g) :: es => (k, encode g) :: encodeEntries es

def encodeFields : List (JsonField × GoVal) → List (String × Value)
  | [] => []
  | (f, g) :: fs =>
      if f.omitempty && g.isEmpty then encodeFields fs
      else (f.name, encode g) :: encodeFields fs

end

/-! ## §3  Decoding -/

mutual

/-- A value for an `any`: every number is a `float64`. -/
def floats (parseFloat : Number → FiniteF64) : Value → Value
  | .number n => .number (.float (parseFloat n))
  | .array items => .array (floatItems parseFloat items)
  | .object entries => .object (floatEntries parseFloat entries)
  | .null => .null
  | .bool b => .bool b
  | .string s => .string s

def floatItems (parseFloat : Number → FiniteF64) : List Value → List Value
  | [] => []
  | v :: vs => floats parseFloat v :: floatItems parseFloat vs

def floatEntries (parseFloat : Number → FiniteF64) : List (String × Value) → List (String × Value)
  | [] => []
  | (k, v) :: es => (k, floats parseFloat v) :: floatEntries parseFloat es

end

/-- The zero value of a kind. -/
def zeroKind (zero : GoType → Option GoVal) : Kind → Option GoVal
  | .text => some (.text "")
  | .int => some (.int 0)
  | .float => some (.float FiniteF64.zero)
  | .bool => some (.bool false)
  | .any => some (.any .null)
  | .union => some .nil
  | .pointer _ => some .nil
  | .slice _ => some .nil
  | .map _ => some .nil
  | .struct levels =>
      ((visible levels).mapM fun f => (zero f.type).map fun g => (f, g)).map .struct

/-- A field of a struct, from the entry of its name. -/
def decodeField (decode : GoType → Value → Option GoVal) (zero : GoType → Option GoVal)
    (entries : List (String × Value)) (f : JsonField) : Option GoVal :=
  match entries.lookup f.name with
  | some w => decode f.type w
  | none => zero f.type

/-- `json.Unmarshal` of a value into the zero value of a kind. -/
def decodeKind (pkg : JsonPackage) (decode : GoType → Value → Option GoVal)
    (zero : GoType → Option GoVal) : Kind → Value → Option GoVal
  | .any, v => some (.any (floats pkg.parseFloat v))
  | .text, .string s => some (.text s)
  | .int, .number n => (parseInt n).map .int
  | .float, .number n => some (.float (pkg.parseFloat n))
  | .bool, .bool b => some (.bool b)
  | .slice item, .array vs => (vs.mapM (decode item)).map .slice
  | .map value, .object entries =>
      (entries.mapM fun e => (decode value e.2).map fun g => (e.1, g)).map .map
  | .struct levels, .object entries =>
      let fields := visible levels
      let stray := entries.filter fun e => !fields.any (·.name == e.1)
      ((fields.mapM (decodeField decode zero entries)).bind fun gs =>
        if stray.isEmpty then some gs else pkg.foldMatch stray gs).map fun gs =>
          .struct (fields.zip gs)
  | k, .null => zeroKind zero k
  | .pointer t, v => (decode t v).map .pointer
  | _, _ => none

variable (pkg : JsonPackage) (decls : List GoDecl)

def zeroOf : ℕ → GoType → Option GoVal
  | 0, _ => none
  | n + 1, t => (kindOf pkg.letter decls n t).bind (zeroKind (zeroOf n))

def decode : ℕ → GoType → Value → Option GoVal
  | 0, _, _ => none
  | n + 1, t, v =>
      (kindOf pkg.letter decls n t).bind fun k =>
        decodeKind pkg (decode n) (zeroOf pkg decls n) k v

/-! ## §4  Equal values -/

/-- The same JSON value, whatever the order of the properties and the notation of a number. -/
inductive Same : Value → Value → Prop where
  | null : Same .null .null
  | bool (b : Bool) : Same (.bool b) (.bool b)
  | string (s : String) : Same (.string s) (.string s)
  | number {m n : Number} (h : m.toRat = n.toRat) : Same (.number m) (.number n)
  | array {vs ws : List Value} (hlen : vs.length = ws.length)
      (h : ∀ (i : ℕ) (v w : Value), vs[i]? = some v → ws[i]? = some w → Same v w) :
      Same (.array vs) (.array ws)
  | object {es fs : List (String × Value)}
      (hkeys : ∀ k, (es.lookup k).isSome = (fs.lookup k).isSome)
      (h : ∀ k v w, es.lookup k = some v → fs.lookup k = some w → Same v w) :
      Same (.object es) (.object fs)

theorem same_array_iff {vs ws : List Value} :
    Same (.array vs) (.array ws) ↔ List.Forall₂ Same vs ws := by
  rw [List.forall₂_iff_get]
  constructor
  · intro h
    cases h with
    | array hlen h => exact ⟨hlen, fun i hv hw => h i _ _ (by simp) (by simp)⟩
  · rintro ⟨hlen, h⟩
    refine Same.array hlen fun i v w hv hw => ?_
    obtain ⟨hi, rfl⟩ := List.getElem?_eq_some_iff.mp hv
    obtain ⟨hi', rfl⟩ := List.getElem?_eq_some_iff.mp hw
    exact h i hi hi'

/-! ## §5  What survives -/

/-- Every number in the value is one of these. -/
inductive Numbers (P : Number → Prop) : Value → Prop where
  | null : Numbers P .null
  | bool (b : Bool) : Numbers P (.bool b)
  | string (s : String) : Numbers P (.string s)
  | number {n : Number} (h : P n) : Numbers P (.number n)
  | array {vs : List Value} (h : ∀ v ∈ vs, Numbers P v) : Numbers P (.array vs)
  | object {es : List (String × Value)} (h : ∀ e ∈ es, Numbers P e.2) : Numbers P (.object es)

/-- The kinds that have a `nil`; an `any` has one as well. -/
def Kind.hasNil : Kind → Bool
  | .union | .pointer _ | .slice _ | .map _ => true
  | _ => false

/-- The JSON values that `omitempty` leaves out of a field of the kind. -/
def Kind.empties : Kind → Value → Bool
  | .struct _, _ => false
  | _, .null => true
  | .text, .string s => s.isEmpty
  | .int, .number n => decide (n.toRat = 0)
  | .float, .number n => decide (n.toRat = 0)
  | .bool, .bool b => !b
  | .slice _, .array vs => vs.isEmpty
  | .map _, .object es => es.isEmpty
  | _, _ => false

section Survives

variable (letter : Char → Bool) (decls : List GoDecl)

/-- The values that a type gives back as they were. -/
inductive Survives : GoType → Value → Prop where
  | text {t : GoType} {s : String} (hk : HasKind letter decls t .text) : Survives t (.string s)
  | int {t : GoType} {n : Number} (hk : HasKind letter decls t .int) (hn : n.isI64 = true) :
      Survives t (.number n)
  | float {t : GoType} {n : Number} (hk : HasKind letter decls t .float) (hn : IsDouble n) :
      Survives t (.number n)
  | bool {t : GoType} {b : Bool} (hk : HasKind letter decls t .bool) : Survives t (.bool b)
  | any {t : GoType} {v : Value} (hk : HasKind letter decls t .any) (hv : Numbers IsDouble v) :
      Survives t v
  | null {t : GoType} {k : Kind} (hk : HasKind letter decls t k) (hnil : k.hasNil = true) :
      Survives t .null
  | pointer {t u : GoType} {v : Value} (hk : HasKind letter decls t (.pointer u))
      (hv : Survives u v) (hnull : v ≠ .null) : Survives t v
  | slice {t item : GoType} {vs : List Value} (hk : HasKind letter decls t (.slice item))
      (hvs : ∀ v ∈ vs, Survives item v) : Survives t (.array vs)
  | map {t value : GoType} {es : List (String × Value)} (hk : HasKind letter decls t (.map value))
      (hes : ∀ e ∈ es, Survives value e.2) : Survives t (.object es)
  | struct {t : GoType} {levels : List (List JsonField)} {es : List (String × Value)}
      (hk : HasKind letter decls t (.struct levels))
      -- every property is a field
      (known : ∀ e ∈ es, ∃ f ∈ visible levels, f.name = e.1)
      -- a field without a property is left out
      (absent : ∀ f ∈ visible levels, es.lookup f.name = none → f.omitempty = true ∧
        ∃ k, HasKind letter decls f.type k ∧ k.isStruct = false)
      -- a field with a property is not
      (present : ∀ f ∈ visible levels, ∀ w, es.lookup f.name = some w → Survives f.type w)
      (kept : ∀ f ∈ visible levels, ∀ w, es.lookup f.name = some w → f.omitempty = true →
        ∀ k, HasKind letter decls f.type k → k.empties w = false) : Survives t (.object es)

end Survives

/-! ## §6  Fields and budgets -/

theorem parseInt_isSome (n : Number) : (parseInt n).isSome = n.isI64 := by
  cases n with
  | posInt n =>
      rw [parseInt, Number.isI64]
      split <;> simp_all
  | negInt i h => rfl
  | float f => rfl

theorem intNumber_of_parseInt {n : Number} {i : Int64} (h : parseInt n = some i) :
    intNumber i = n := by
  cases n with
  | posInt n =>
      rw [parseInt] at h
      split at h
      · next hle =>
          obtain rfl := Option.some.inj h
          have hint : (Int64.ofNat n.toNat).toInt = n.toNat := Int64.toInt_ofNat_of_lt (by omega)
          have hneg : ¬Int64.ofNat n.toNat < 0 := by
            rw [Int64.lt_iff_toInt_lt, hint]
            simp
          rw [intNumber, dif_neg hneg, hint, Int.toNat_natCast, UInt64.ofNat_toNat]
      · cases h
  | negInt i hneg =>
      obtain rfl := Option.some.inj h
      exact dif_pos hneg
  | float f => cases h

theorem encodeItems_eq (gs : List GoVal) : encodeItems gs = gs.map encode := by
  induction gs with
  | nil => rfl
  | cons g gs ih => rw [encodeItems, ih, List.map_cons]

theorem encodeEntries_eq (es : List (String × GoVal)) :
    encodeEntries es = es.map fun e => (e.1, encode e.2) := by
  induction es with
  | nil => rfl
  | cons e es ih => rw [encodeEntries, ih, List.map_cons]

theorem floatItems_eq (parse : Number → FiniteF64) (vs : List Value) :
    floatItems parse vs = vs.map (floats parse) := by
  induction vs with
  | nil => rfl
  | cons v vs ih => rw [floatItems, ih, List.map_cons]

theorem floatEntries_eq (parse : Number → FiniteF64) (es : List (String × Value)) :
    floatEntries parse es = es.map fun e => (e.1, floats parse e.2) := by
  induction es with
  | nil => rfl
  | cons e es ih => rw [floatEntries, ih, List.map_cons]

theorem lookup_map_snd {α β : Type} (f : α → β) (k : String) (es : List (String × α)) :
    (es.map fun e => (e.1, f e.2)).lookup k = (es.lookup k).map f :=
  BTreeMap.lookup_mapEntries (f := fun _ => f) k es

/-- Entry by entry. -/
theorem same_object_map_iff {es : List (String × Value)} {f : Value → Value}
    (hes : (es.map Prod.fst).Nodup) :
    Same (.object (es.map fun e => (e.1, f e.2))) (.object es) ↔ ∀ e ∈ es, Same (f e.2) e.2 := by
  constructor
  · intro h e he
    have hlookup := lookup_eq_some_of_mem hes he
    cases h with
    | object hkeys h =>
        refine h e.1 _ _ ?_ hlookup
        rw [lookup_map_snd, hlookup]
        rfl
  · intro h
    refine Same.object (fun k => ?_) fun k v w hv hw => ?_
    · rw [lookup_map_snd, Option.isSome_map]
    · rw [lookup_map_snd, hw] at hv
      obtain rfl := Option.some.inj hv
      exact h _ (mem_of_lookup_eq_some hw)

theorem nodup_of_isOrdered {es : List (String × Value)} (h : (Value.object es).isOrdered = true) :
    (es.map Prod.fst).Nodup :=
  (Value.isOrdered_object.mp h).1.nodup

/-- An `any` keeps a value exactly if its numbers are doubles. -/
theorem same_floats_iff {pkg : JsonPackage} (hpkg : pkg.Nearest) {v : Value}
    (hv : v.isOrdered = true) : Same (floats pkg.parseFloat v) v ↔ Numbers IsDouble v := by
  induction v using Value.induction with
  | null => exact ⟨fun _ => .null, fun _ => .null⟩
  | bool b => exact ⟨fun _ => .bool b, fun _ => .bool b⟩
  | string s => exact ⟨fun _ => .string s, fun _ => .string s⟩
  | number n =>
      constructor
      · intro h
        cases h with
        | number h => exact .number ⟨pkg.parseFloat n, h⟩
      · intro h
        cases h with
        | number h => exact .number (hpkg n h)
  | array vs ih =>
      rw [Value.isOrdered_array] at hv
      rw [floats, floatItems_eq, same_array_iff, List.forall₂_map_left_iff, List.forall₂_same]
      constructor
      · intro h
        exact .array fun w hw => (ih w hw (hv w hw)).mp (h w hw)
      · intro h w hw
        cases h with
        | array h => exact (ih w hw (hv w hw)).mpr (h w hw)
  | object es ih =>
      have hes := nodup_of_isOrdered hv
      have hrest := (Value.isOrdered_object.mp hv).2
      rw [floats, floatEntries_eq, same_object_map_iff hes]
      constructor
      · intro h
        exact .object fun e he => (ih e he (hrest e he)).mp (h e he)
      · intro h e he
        cases h with
        | object h => exact (ih e he (hrest e he)).mpr (h e he)

/-- What a value of a kind is decoded to, the values in it by `d`, zero values by `z`. -/
inductive Decoded (pkg : JsonPackage) (d : GoType → Value → Option GoVal)
    (z : GoType → Option GoVal) : Kind → Value → GoVal → Prop where
  | any (v : Value) : Decoded pkg d z .any v (.any (floats pkg.parseFloat v))
  | text (s : String) : Decoded pkg d z .text (.string s) (.text s)
  | int {n : Number} {i : Int64} (h : parseInt n = some i) : Decoded pkg d z .int (.number n) (.int i)
  | float (n : Number) : Decoded pkg d z .float (.number n) (.float (pkg.parseFloat n))
  | bool (b : Bool) : Decoded pkg d z .bool (.bool b) (.bool b)
  | slice {item : GoType} {vs : List Value} {gs : List GoVal} (h : vs.mapM (d item) = some gs) :
      Decoded pkg d z (.slice item) (.array vs) (.slice gs)
  | map {value : GoType} {es : List (String × Value)} {gs : List (String × GoVal)}
      (h : (es.mapM fun e => (d value e.2).map fun g => (e.1, g)) = some gs) :
      Decoded pkg d z (.map value) (.object es) (.map gs)
  | struct {levels : List (List JsonField)} {es : List (String × Value)} {gs gs' : List GoVal}
      (h : (visible levels).mapM (decodeField d z es) = some gs)
      (hstray : (if (es.filter fun e => !(visible levels).any (·.name == e.1)).isEmpty then some gs
        else pkg.foldMatch (es.filter fun e => !(visible levels).any (·.name == e.1)) gs) =
          some gs') :
      Decoded pkg d z (.struct levels) (.object es) (.struct ((visible levels).zip gs'))
  | null {k : Kind} {g : GoVal} (hany : k ≠ .any) (h : zeroKind z k = some g) :
      Decoded pkg d z k .null g
  | pointer {t : GoType} {v : Value} {g : GoVal} (hnull : v ≠ .null) (h : d t v = some g) :
      Decoded pkg d z (.pointer t) v (.pointer g)

theorem decodeKind_iff {pkg : JsonPackage} {d : GoType → Value → Option GoVal}
    {z : GoType → Option GoVal} {k : Kind} {v : Value} {g : GoVal} :
    decodeKind pkg d z k v = some g ↔ Decoded pkg d z k v g := by
  constructor
  · intro h
    by_cases hnull : k ≠ .any ∧ v = .null
    · obtain ⟨hany, rfl⟩ := hnull
      refine .null hany ?_
      cases k <;> exact h
    cases k with
    | any =>
        have hg : some (.any (floats pkg.parseFloat v)) = some g := by
          cases v <;> exact h
        exact Option.some.inj hg ▸ .any v
    | pointer t =>
        have hv : v ≠ .null := fun hv => hnull ⟨Kind.noConfusion, hv⟩
        have hdecode : (d t v).map .pointer = some g := by
          cases v <;> first | exact h | exact absurd rfl hv
        obtain ⟨g', hg', rfl⟩ := Option.map_eq_some_iff.mp hdecode
        exact .pointer hv hg'
    | text =>
        cases v with
        | string s => exact Option.some.inj h ▸ .text s
        | null => exact absurd ⟨Kind.noConfusion, rfl⟩ hnull
        | _ => cases h
    | int =>
        cases v with
        | number n =>
            obtain ⟨i, hi, rfl⟩ := Option.map_eq_some_iff.mp h
            exact .int hi
        | null => exact absurd ⟨Kind.noConfusion, rfl⟩ hnull
        | _ => cases h
    | float =>
        cases v with
        | number n => exact Option.some.inj h ▸ .float n
        | null => exact absurd ⟨Kind.noConfusion, rfl⟩ hnull
        | _ => cases h
    | bool =>
        cases v with
        | bool b => exact Option.some.inj h ▸ .bool b
        | null => exact absurd ⟨Kind.noConfusion, rfl⟩ hnull
        | _ => cases h
    | union =>
        cases v with
        | null => exact absurd ⟨Kind.noConfusion, rfl⟩ hnull
        | _ => cases h
    | slice item =>
        cases v with
        | array vs =>
            obtain ⟨gs, hgs, rfl⟩ := Option.map_eq_some_iff.mp h
            exact .slice hgs
        | null => exact absurd ⟨Kind.noConfusion, rfl⟩ hnull
        | _ => cases h
    | map value =>
        cases v with
        | object es =>
            obtain ⟨gs, hgs, rfl⟩ := Option.map_eq_some_iff.mp h
            exact .map hgs
        | null => exact absurd ⟨Kind.noConfusion, rfl⟩ hnull
        | _ => cases h
    | struct levels =>
        cases v with
        | object es =>
            obtain ⟨gs', hgs', rfl⟩ := Option.map_eq_some_iff.mp h
            obtain ⟨gs, hgs, hstray⟩ := Option.bind_eq_some_iff.mp hgs'
            exact .struct hgs hstray
        | null => exact absurd ⟨Kind.noConfusion, rfl⟩ hnull
        | _ => cases h
  · intro h
    cases h with
    | any => cases v <;> rfl
    | text => rfl
    | int h => exact Option.map_eq_some_iff.mpr ⟨_, h, rfl⟩
    | float => rfl
    | bool => rfl
    | slice h => exact Option.map_eq_some_iff.mpr ⟨_, h, rfl⟩
    | map h => exact Option.map_eq_some_iff.mpr ⟨_, h, rfl⟩
    | struct h hstray =>
        exact Option.map_eq_some_iff.mpr ⟨_, Option.bind_eq_some_iff.mpr ⟨_, h, hstray⟩, rfl⟩
    | null _ h => cases k <;> exact h
    | @pointer t v g hnull h =>
        have hpointer : (d t v).map GoVal.pointer = some (GoVal.pointer g) :=
          Option.map_eq_some_iff.mpr ⟨g, h, rfl⟩
        cases v <;> first | exact hpointer | exact absurd rfl hnull

section Stable

variable (pkg : JsonPackage) (decls : List GoDecl)

theorem zeroKind_mono {z z' : GoType → Option GoVal} (h : ∀ t g, z t = some g → z' t = some g)
    {k : Kind} {g : GoVal} (hg : zeroKind z k = some g) : zeroKind z' k = some g := by
  cases k with
  | struct levels =>
      refine mapM_map_stable ?_ hg
      intro f _ b hb
      obtain ⟨g', hg', rfl⟩ := Option.map_eq_some_iff.mp hb
      exact Option.map_eq_some_iff.mpr ⟨g', h _ _ hg', rfl⟩
  | _ => exact hg

theorem zeroOf_stable (t : GoType) : Stable fun n => zeroOf pkg decls n t := by
  intro n
  induction n generalizing t with
  | zero => exact fun g hg => by cases hg
  | succ n ih =>
      intro g hg
      obtain ⟨k, hk, hzero⟩ := Option.bind_eq_some_iff.mp hg
      exact Option.bind_eq_some_iff.mpr
        ⟨k, kindOf_stable pkg.letter decls t n k hk, zeroKind_mono (fun t g => ih t g) hzero⟩

theorem decodeKind_mono {d d' : GoType → Value → Option GoVal} {z z' : GoType → Option GoVal}
    (hd : ∀ t v g, d t v = some g → d' t v = some g) (hz : ∀ t g, z t = some g → z' t = some g)
    {k : Kind} {v : Value} {g : GoVal} (hg : decodeKind pkg d z k v = some g) :
    decodeKind pkg d' z' k v = some g := by
  rw [decodeKind_iff] at hg ⊢
  cases hg with
  | any => exact .any _
  | text => exact .text _
  | int h => exact .int h
  | float => exact .float _
  | bool => exact .bool _
  | slice h => exact .slice (mapM_stable (fun v _ => hd _ v) h)
  | map h =>
      refine .map (mapM_stable (fun e _ x hx => ?_) h)
      obtain ⟨g, hg, rfl⟩ := Option.map_eq_some_iff.mp hx
      exact Option.map_eq_some_iff.mpr ⟨g, hd _ _ _ hg, rfl⟩
  | struct h hstray =>
      refine .struct (mapM_stable (fun f _ g hg => ?_) h) hstray
      rw [decodeField] at hg ⊢
      split at hg
      · exact hd _ _ _ hg
      · exact hz _ _ hg
  | null hany h => exact .null hany (zeroKind_mono hz h)
  | pointer hnull h => exact .pointer hnull (hd _ _ _ h)

theorem decode_stable (t : GoType) (v : Value) : Stable fun n => decode pkg decls n t v := by
  intro n
  induction n generalizing t v with
  | zero => exact fun g hg => by cases hg
  | succ n ih =>
      intro g hg
      obtain ⟨k, hk, hdecode⟩ := Option.bind_eq_some_iff.mp hg
      exact Option.bind_eq_some_iff.mpr
        ⟨k, kindOf_stable pkg.letter decls t n k hk,
          decodeKind_mono pkg (fun t v g => ih t v g) (fun t g => zeroOf_stable pkg decls t n g)
            hdecode⟩

end Stable

theorem toRat_intNumber (i : Int64) : (intNumber i).toRat = i.toInt := by
  rw [intNumber]
  split
  · rfl
  · next h =>
      have hnonneg : 0 ≤ i.toInt := by
        rw [Int64.lt_iff_toInt_lt] at h
        exact Int.not_lt.mp h
      have hbound : i.toInt < 2 ^ 63 := i.toInt_lt
      have hnat : (UInt64.ofNat i.toInt.toNat).toNat = i.toInt.toNat :=
        UInt64.toNat_ofNat_of_lt' (show _ < 18446744073709551616 by omega)
      show (((UInt64.ofNat i.toInt.toNat).toNat : ℕ) : ℚ) = _
      rw [hnat]
      exact_mod_cast Int.toNat_of_nonneg hnonneg

theorem int_isEmpty (i : Int64) : (i == 0) = decide ((intNumber i).toRat = 0) := by
  rw [toRat_intNumber, Bool.eq_iff_iff, beq_iff_eq, decide_eq_true_iff, Int.cast_eq_zero]
  exact ⟨fun h => h ▸ rfl, fun h => Int64.toInt_inj.mp h⟩

section Encoded

variable {fs : List (JsonField × GoVal)}

theorem encodeFields_cons (f : JsonField) (g : GoVal) (fs : List (JsonField × GoVal)) :
    encodeFields ((f, g) :: fs) =
      if f.omitempty && g.isEmpty then encodeFields fs
      else (f.name, encode g) :: encodeFields fs := by
  rw [encodeFields]

theorem mem_encodeFields {x : String × Value} : x ∈ encodeFields fs ↔
    ∃ f g, (f, g) ∈ fs ∧ (f.omitempty && g.isEmpty) = false ∧ x = (f.name, encode g) := by
  induction fs with
  | nil => simp [encodeFields]
  | cons e fs ih =>
      obtain ⟨f, g⟩ := e
      rw [encodeFields_cons]
      constructor
      · intro hx
        split at hx
        · obtain ⟨f', g', hmem, h⟩ := ih.mp hx
          exact ⟨f', g', List.mem_cons_of_mem _ hmem, h⟩
        · next hkept =>
            rcases List.mem_cons.mp hx with rfl | hx
            · exact ⟨f, g, List.mem_cons_self, Bool.not_eq_true _ ▸ hkept, rfl⟩
            · obtain ⟨f', g', hmem, h⟩ := ih.mp hx
              exact ⟨f', g', List.mem_cons_of_mem _ hmem, h⟩
      · rintro ⟨f', g', hmem, hkept, rfl⟩
        rcases List.mem_cons.mp hmem with heq | hmem
        · obtain ⟨rfl, rfl⟩ := Prod.mk.inj heq
          rw [hkept]
          exact List.mem_cons_self
        · have hrest := ih.mpr ⟨f', g', hmem, hkept, rfl⟩
          split
          · exact hrest
          · exact List.mem_cons_of_mem _ hrest

theorem lookup_encodeFields (hnd : (fs.map (·.1.name)).Nodup) {f : JsonField} {g : GoVal}
    (h : (f, g) ∈ fs) : (encodeFields fs).lookup f.name =
      if f.omitempty && g.isEmpty then none else some (encode g) := by
  have hunique : ∀ f' g', (f', g') ∈ fs → f'.name = f.name → f' = f ∧ g' = g := by
    intro f' g' h' hname
    have heq : (f', g') = (f, g) := List.inj_on_of_nodup_map hnd h' h hname
    exact Prod.mk.inj heq
  split
  · next homit =>
      refine lookup_eq_none_iff.mpr fun hmem => ?_
      obtain ⟨x, hx, hname⟩ := List.mem_map.mp hmem
      obtain ⟨f', g', h', hkept, rfl⟩ := mem_encodeFields.mp hx
      obtain ⟨rfl, rfl⟩ := hunique f' g' h' hname
      rw [homit] at hkept
      cases hkept
  · next hkept =>
      refine (lookup_eq_some_iff_of_unique ?_).mpr
        (mem_encodeFields.mpr ⟨f, g, h, Bool.not_eq_true _ ▸ hkept, rfl⟩)
      intro x y hx hy
      obtain ⟨f₁, g₁, h₁, -, heq₁⟩ := mem_encodeFields.mp hx
      obtain ⟨f₂, g₂, h₂, -, heq₂⟩ := mem_encodeFields.mp hy
      obtain ⟨hname₁, rfl⟩ := Prod.mk.inj heq₁
      obtain ⟨hname₂, rfl⟩ := Prod.mk.inj heq₂
      obtain ⟨-, rfl⟩ := hunique f₁ g₁ h₁ hname₁.symm
      obtain ⟨-, rfl⟩ := hunique f₂ g₂ h₂ hname₂.symm
      rfl

end Encoded

/-- A zero value is empty unless it is a struct. -/
theorem isEmpty_zeroKind {z : GoType → Option GoVal} {k : Kind} {g : GoVal}
    (h : zeroKind z k = some g) : g.isEmpty = !k.isStruct := by
  cases k with
  | struct levels =>
      obtain ⟨fs, -, rfl⟩ := Option.map_eq_some_iff.mp h
      rfl
  | float =>
      obtain rfl := Option.some.inj h
      show decide (FiniteF64.zero.toRat = 0) = true
      simp [FiniteF64.toRat, FiniteF64.zero]
  | _ =>
      obtain rfl := Option.some.inj h
      rfl

section Decoding

variable {pkg : JsonPackage} {decls : List GoDecl} {d : GoType → Value → Option GoVal}
  {z : GoType → Option GoVal}

theorem Kind.empties_null (k : Kind) : k.empties .null = !k.isStruct := by
  cases k <;> rfl

theorem isEmpty_of_mapM {α β : Type} {f : α → Option β} {as : List α} {bs : List β}
    (h : as.mapM f = some bs) : bs.isEmpty = as.isEmpty := by
  have hlen := (mapM_eq_some.mp h).length_eq
  rw [Bool.eq_iff_iff, List.isEmpty_iff_length_eq_zero, List.isEmpty_iff_length_eq_zero, hlen]

/-- What is decoded is empty where the JSON value is. -/
theorem isEmpty_decodeKind {k : Kind} {v : Value} {g : GoVal} (h : decodeKind pkg d z k v = some g)
    (hsame : Same (encode g) v) : g.isEmpty = k.empties v := by
  cases decodeKind_iff.mp h with
  | any => cases v <;> rfl
  | text => rfl
  | int hi => rw [GoVal.isEmpty, Kind.empties, int_isEmpty, intNumber_of_parseInt hi]
  | float n =>
      cases hsame with
      | number hsame =>
          show decide ((pkg.parseFloat n).toRat = 0) = decide (n.toRat = 0)
          rw [← hsame]
          rfl
  | bool => rfl
  | slice hgs => exact isEmpty_of_mapM hgs
  | map hgs => exact isEmpty_of_mapM hgs
  | struct => rfl
  | null _ hzero => rw [isEmpty_zeroKind hzero, Kind.empties_null]
  | pointer hnull _ => cases v <;> first | rfl | exact absurd rfl hnull

theorem isEmpty_zeroOf {n : ℕ} {t : GoType} {g : GoVal} (h : zeroOf pkg decls n t = some g) :
    ∃ k, HasKind pkg.letter decls t k ∧ g.isEmpty = !k.isStruct := by
  cases n with
  | zero => cases h
  | succ n =>
      obtain ⟨k, hk, hzero⟩ := Option.bind_eq_some_iff.mp h
      exact ⟨k, ⟨n, hk⟩, isEmpty_zeroKind hzero⟩

theorem isEmpty_decode {n : ℕ} {t : GoType} {v : Value} {g : GoVal}
    (h : decode pkg decls n t v = some g) (hsame : Same (encode g) v) {k : Kind}
    (hk : HasKind pkg.letter decls t k) : g.isEmpty = k.empties v := by
  cases n with
  | zero => cases h
  | succ n =>
      obtain ⟨k', hkind, hdecode⟩ := Option.bind_eq_some_iff.mp h
      obtain rfl := hk.unique pkg.letter decls ⟨n, hkind⟩
      exact isEmpty_decodeKind hdecode hsame

theorem exists_kind_of_decode {n : ℕ} {t : GoType} {v : Value} {g : GoVal}
    (h : decode pkg decls n t v = some g) : ∃ k, HasKind pkg.letter decls t k := by
  cases n with
  | zero => cases h
  | succ n =>
      obtain ⟨k, hk, -⟩ := Option.bind_eq_some_iff.mp h
      exact ⟨k, n, hk⟩

theorem stray_eq_nil {fields : List JsonField} {es : List (String × Value)}
    (h : ∀ e ∈ es, ∃ f ∈ fields, f.name = e.1) :
    (es.filter fun e => !fields.any (·.name == e.1)) = [] := by
  refine List.filter_eq_nil_iff.mpr fun e he => ?_
  obtain ⟨f, hf, hname⟩ := h e he
  have hany : fields.any (·.name == e.1) = true :=
    List.any_eq_true.mpr ⟨f, hf, beq_iff_eq.mpr hname⟩
  rw [hany]
  exact Bool.false_ne_true

/-- A property without a field does not come back. -/
theorem known_of_same {fields : List JsonField} {gs : List GoVal} {es : List (String × Value)}
    (h : Same (encode (.struct (fields.zip gs))) (.object es)) {k : String}
    (hk : (es.lookup k).isSome) : ∃ f ∈ fields, f.name = k := by
  rw [encode] at h
  cases h with
  | object hkeys _ =>
      rw [← hkeys k] at hk
      obtain ⟨v, hv⟩ := Option.isSome_iff_exists.mp hk
      obtain ⟨f, g, hfg, -, heq⟩ := mem_encodeFields.mp (mem_of_lookup_eq_some hv)
      exact ⟨f, (List.of_mem_zip hfg).1, (congrArg Prod.fst heq).symm⟩

/-- The object that a struct of these values is encoded to. -/
theorem same_struct_iff {fields : List JsonField} {gs : List GoVal} {es : List (String × Value)}
    (hnd : (fields.map (·.name)).Nodup) (hlen : gs.length = fields.length) :
    Same (encode (.struct (fields.zip gs))) (.object es) ↔
      (∀ k, (es.lookup k).isSome → ∃ f ∈ fields, f.name = k) ∧
        ∀ f g, (f, g) ∈ fields.zip gs →
          match es.lookup f.name with
          | some w => (f.omitempty && g.isEmpty) = false ∧ Same (encode g) w
          | none => (f.omitempty && g.isEmpty) = true := by
  have hnd' : ((fields.zip gs).map (·.1.name)).Nodup := by
    have hfst : (fields.zip gs).map Prod.fst = fields := List.map_fst_zip (by omega)
    rw [← hfst, List.map_map] at hnd
    exact hnd
  constructor
  · intro h
    refine ⟨fun k => known_of_same h, fun f g hfg => ?_⟩
    rw [encode] at h
    have hlookup := lookup_encodeFields hnd' hfg
    cases h with
    | object hkeys h =>
        have hkey := hkeys f.name
        split
        · next w hw =>
            rw [hw, hlookup] at hkey
            cases homit : f.omitempty && g.isEmpty with
            | true =>
                rw [homit] at hkey
                cases hkey
            | false =>
                rw [homit] at hlookup
                exact ⟨rfl, h _ _ _ hlookup hw⟩
        · next hnone =>
            rw [hnone, hlookup] at hkey
            cases homit : f.omitempty && g.isEmpty with
            | true => rfl
            | false =>
                rw [homit] at hkey
                cases hkey
  · rintro ⟨hknown, hfields⟩
    rw [encode]
    have hfield : ∀ k w, es.lookup k = some w →
        ∃ g, (encodeFields (fields.zip gs)).lookup k = some (encode g) ∧ Same (encode g) w := by
      intro k w hw
      obtain ⟨f, hf, rfl⟩ := hknown k (by rw [hw]; rfl)
      obtain ⟨g, hfg⟩ := exists_mem_zip hlen hf
      have hspec := hfields f g hfg
      rw [hw] at hspec
      refine ⟨g, ?_, hspec.2⟩
      rw [lookup_encodeFields hnd' hfg, hspec.1]
      rfl
    refine Same.object (fun k => ?_) fun k v w hv hw => ?_
    · cases hw : es.lookup k with
      | some w =>
          obtain ⟨g, hg, -⟩ := hfield k w hw
          rw [hg]
          rfl
      | none =>
          rw [Option.isSome_none, Option.isSome_eq_false_iff, Option.isNone_iff_eq_none,
            lookup_eq_none_iff]
          intro hmem
          obtain ⟨x, hx, rfl⟩ := List.mem_map.mp hmem
          obtain ⟨f, g, hfg, hkept, rfl⟩ := mem_encodeFields.mp hx
          have hspec := hfields f g hfg
          rw [hw] at hspec
          rw [hspec] at hkept
          cases hkept
    · obtain ⟨g, hg, hsame⟩ := hfield k w hw
      rw [hg] at hv
      obtain rfl := Option.some.inj hv
      exact hsame

theorem isOrdered_of_lookup {es : List (String × Value)} (h : (Value.object es).isOrdered = true)
    {k : String} {w : Value} (hw : es.lookup k = some w) : w.isOrdered = true :=
  (Value.isOrdered_object.mp h).2 _ (mem_of_lookup_eq_some hw)

/-- The entries of a map keep their keys. -/
theorem decodeEntries_spec {d : Value → Option GoVal} {es : List (String × Value)}
    {gs : List (String × GoVal)}
    (h : (es.mapM fun e => (d e.2).map fun g => (e.1, g)) = some gs) :
    gs.map Prod.fst = es.map Prod.fst ∧
      ∀ e ∈ es, ∃ g, (e.1, g) ∈ gs ∧ d e.2 = some g := by
  have hforall := mapM_eq_some.mp h
  clear h
  induction hforall with
  | nil => exact ⟨rfl, fun e he => absurd he List.not_mem_nil⟩
  | @cons e x es gs hex _ ih =>
      obtain ⟨g, hg, rfl⟩ := Option.map_eq_some_iff.mp hex
      refine ⟨by rw [List.map_cons, List.map_cons, ih.1], ?_⟩
      rw [List.forall_mem_cons]
      refine ⟨⟨g, List.mem_cons_self, hg⟩, fun e' he' => ?_⟩
      obtain ⟨g', hmem, hg'⟩ := ih.2 e' he'
      exact ⟨g', List.mem_cons_of_mem _ hmem, hg'⟩

/-! ## §7  Round trips -/

/-- Of the zero values only `nil` is encoded as `null`. -/
theorem hasNil_of_zeroKind {k : Kind} {g : GoVal} (hany : k ≠ .any) (h : zeroKind z k = some g)
    (hsame : Same (encode g) .null) : k.hasNil = true := by
  cases k with
  | any => exact absurd rfl hany
  | struct levels =>
      obtain ⟨fs, -, rfl⟩ := Option.map_eq_some_iff.mp h
      cases hsame
  | text => obtain rfl := Option.some.inj h; cases hsame
  | int => obtain rfl := Option.some.inj h; cases hsame
  | float => obtain rfl := Option.some.inj h; cases hsame
  | bool => obtain rfl := Option.some.inj h; cases hsame
  | _ => rfl

/-- **Only what survives comes back.** -/
theorem survives_of_same (hpkg : pkg.Nearest) : ∀ (n : ℕ) {t : GoType} {v : Value} {g : GoVal},
    v.isOrdered = true → decode pkg decls n t v = some g → Same (encode g) v →
    Survives pkg.letter decls t v
  | n + 1, t, v, g, hv, h, hsame => by
      obtain ⟨k, hkind, h⟩ := Option.bind_eq_some_iff.mp h
      have hk : HasKind pkg.letter decls t k := ⟨n, hkind⟩
      cases decodeKind_iff.mp h with
      | any => exact .any hk ((same_floats_iff hpkg hv).mp hsame)
      | text => exact .text hk
      | int hi => exact .int hk (by rw [← parseInt_isSome, hi]; rfl)
      | float =>
          cases hsame with
          | number hsame => exact .float hk ⟨_, hsame⟩
      | bool => exact .bool hk
      | null hany hzero => exact .null hk (hasNil_of_zeroKind hany hzero hsame)
      | pointer hnull hg => exact .pointer hk (survives_of_same hpkg n hv hg hsame) hnull
      | @slice item vs gs hgs =>
          have hdecode := mapM_eq_some.mp hgs
          rw [encode, encodeItems_eq, same_array_iff, List.forall₂_map_left_iff] at hsame
          refine .slice hk fun w hw => ?_
          obtain ⟨g, hwg⟩ := exists_mem_zip hdecode.length_eq.symm hw
          exact survives_of_same hpkg n (Value.isOrdered_array.mp hv w hw)
            (List.forall₂_zip hdecode hwg) (List.forall₂_zip hsame.flip hwg)
      | @map value es gs hgs =>
          obtain ⟨hkeys, hentries⟩ := decodeEntries_spec hgs
          have hes := nodup_of_isOrdered hv
          rw [encode, encodeEntries_eq] at hsame
          refine .map hk fun e he => ?_
          obtain ⟨g, hmem, hg⟩ := hentries e he
          refine survives_of_same hpkg n ((Value.isOrdered_object.mp hv).2 e he) hg ?_
          cases hsame with
          | object _ hsame =>
              refine hsame e.1 _ _ ?_ (lookup_eq_some_of_mem hes he)
              rw [lookup_map_snd, lookup_eq_some_of_mem (hkeys ▸ hes) hmem]
              rfl
      | @struct levels es gs gs' hfields hstray =>
          have hknown : ∀ e ∈ es, ∃ f ∈ visible levels, f.name = e.1 := fun e he =>
            known_of_same hsame (by rw [lookup_eq_some_of_mem (nodup_of_isOrdered hv) he]; rfl)
          rw [stray_eq_nil hknown, List.isEmpty_nil, if_pos rfl] at hstray
          obtain rfl := Option.some.inj hstray
          have hdecode := mapM_eq_some.mp hfields
          have hlen := hdecode.length_eq.symm
          obtain ⟨-, hsame⟩ := (same_struct_iff (nodup_visible levels) hlen).mp hsame
          have hfield : ∀ f ∈ visible levels, ∃ g,
              decodeField (decode pkg decls n) (zeroOf pkg decls n) es f = some g ∧
              match es.lookup f.name with
              | some w => (f.omitempty && g.isEmpty) = false ∧ Same (encode g) w
              | none => (f.omitempty && g.isEmpty) = true := fun f hf => by
            obtain ⟨g, hfg⟩ := exists_mem_zip hlen hf
            exact ⟨g, List.forall₂_zip hdecode hfg, hsame f g hfg⟩
          refine .struct hk hknown (fun f hf hnone => ?_) (fun f hf w hw => ?_)
            fun f hf w hw homit k hkind => ?_
          · obtain ⟨g, hg, hspec⟩ := hfield f hf
            rw [hnone, Bool.and_eq_true] at hspec
            rw [decodeField, hnone] at hg
            obtain ⟨k, hkind, hempty⟩ := isEmpty_zeroOf hg
            refine ⟨hspec.1, k, hkind, ?_⟩
            rwa [hspec.2, eq_comm, Bool.not_eq_true'] at hempty
          · obtain ⟨g, hg, hspec⟩ := hfield f hf
            rw [hw] at hspec
            rw [decodeField, hw] at hg
            exact survives_of_same hpkg n (isOrdered_of_lookup hv hw) hg hspec.2
          · obtain ⟨g, hg, hspec⟩ := hfield f hf
            rw [hw, homit, Bool.true_and] at hspec
            rw [decodeField, hw] at hg
            rw [← isEmpty_decode hg hspec.2 hkind]
            exact hspec.1

/-- What a value of a kind is decoded to, with any budget. -/
theorem decode_of_kind {t : GoType} {k : Kind} {v : Value} {g : GoVal} {n : ℕ}
    (hk : HasKind pkg.letter decls t k)
    (h : Decoded pkg (decode pkg decls n) (zeroOf pkg decls n) k v g) :
    ∃ m, decode pkg decls m t v = some g := by
  rw [← decodeKind_iff] at h
  obtain ⟨m, hm⟩ := hk
  refine ⟨max m n + 1, Option.bind_eq_some_iff.mpr ⟨k, ?_, ?_⟩⟩
  · exact (kindOf_stable pkg.letter decls t).le (Nat.le_max_left m n) hm
  · refine decodeKind_mono pkg (fun t v g hg => ?_) (fun t g hg => ?_) h
    · exact (decode_stable pkg decls t v).le (Nat.le_max_right m n) hg
    · exact (zeroOf_stable pkg decls t).le (Nat.le_max_right m n) hg

theorem exists_zeroOf {t : GoType} {k : Kind} (hk : HasKind pkg.letter decls t k)
    (hstruct : k.isStruct = false) : ∃ n g, zeroOf pkg decls n t = some g ∧ g.isEmpty = true := by
  obtain ⟨n, hn⟩ := hk
  have hzero : ∃ g, zeroKind (zeroOf pkg decls n) k = some g := by
    cases k with
    | struct levels => cases hstruct
    | _ => exact ⟨_, rfl⟩
  obtain ⟨g, hg⟩ := hzero
  refine ⟨n + 1, g, Option.bind_eq_some_iff.mpr ⟨k, hn, hg⟩, ?_⟩
  rw [isEmpty_zeroKind hg, hstruct]
  rfl

theorem decodeField_stable (es : List (String × Value)) (f : JsonField) :
    Stable fun n => decodeField (decode pkg decls n) (zeroOf pkg decls n) es f := by
  intro n g hg
  dsimp only at hg ⊢
  rw [decodeField] at hg ⊢
  split at hg
  · exact decode_stable pkg decls _ _ n g hg
  · exact zeroOf_stable pkg decls _ n g hg

theorem same_object_of_forall₂ {xs es : List (String × Value)}
    (h : List.Forall₂ (fun x e => x.1 = e.1 ∧ Same x.2 e.2) xs es) :
    Same (.object xs) (.object es) := by
  refine .object (fun k => ?_) fun k v w hv hw => ?_
  · obtain ⟨hleft, hright⟩ := BTreeMap.lookup_of_forall₂ (k := k) h
    rw [Bool.eq_iff_iff, Option.isSome_iff_exists, Option.isSome_iff_exists]
    constructor
    · rintro ⟨v, hv⟩
      obtain ⟨w, hw, -⟩ := hleft v hv
      exact ⟨w, hw⟩
    · rintro ⟨w, hw⟩
      obtain ⟨v, hv, -⟩ := hright w hw
      exact ⟨v, hv⟩
  · obtain ⟨w', hw', hsame⟩ := (BTreeMap.lookup_of_forall₂ (k := k) h).1 v hv
    rw [hw] at hw'
    exact Option.some.inj hw' ▸ hsame

/-- **What survives comes back.** -/
theorem same_of_survives (hpkg : pkg.Nearest) {t : GoType} {v : Value}
    (h : Survives pkg.letter decls t v) (hv : v.isOrdered = true) :
    ∃ n g, decode pkg decls n t v = some g ∧ Same (encode g) v := by
  induction h with
  | @text t s hk =>
      obtain ⟨n, hn⟩ := decode_of_kind (n := 0) hk (.text s)
      exact ⟨n, _, hn, .string s⟩
  | @int t m hk hm =>
      rw [← parseInt_isSome] at hm
      obtain ⟨i, hi⟩ := Option.isSome_iff_exists.mp hm
      obtain ⟨n, hn⟩ := decode_of_kind (n := 0) hk (.int hi)
      refine ⟨n, _, hn, ?_⟩
      rw [encode, intNumber_of_parseInt hi]
      exact .number rfl
  | @float t m hk hm =>
      obtain ⟨n, hn⟩ := decode_of_kind (n := 0) hk (.float m)
      exact ⟨n, _, hn, .number (hpkg m hm)⟩
  | @bool t b hk =>
      obtain ⟨n, hn⟩ := decode_of_kind (n := 0) hk (.bool b)
      exact ⟨n, _, hn, .bool b⟩
  | @any t v hk hdoubles =>
      obtain ⟨n, hn⟩ := decode_of_kind (n := 0) hk (.any v)
      exact ⟨n, _, hn, (same_floats_iff hpkg hv).mpr hdoubles⟩
  | @null t k hk hnil =>
      have hzero : zeroKind (zeroOf pkg decls 0) k = some .nil := by
        cases k <;> first | rfl | cases hnil
      obtain ⟨n, hn⟩ := decode_of_kind hk (.null (fun hany => by rw [hany] at hnil; cases hnil) hzero)
      exact ⟨n, _, hn, .null⟩
  | @pointer t u v hk _ hnull ih =>
      obtain ⟨n, g, hg, hsame⟩ := ih hv
      obtain ⟨m, hm⟩ := decode_of_kind hk (.pointer hnull hg)
      exact ⟨m, _, hm, hsame⟩
  | @slice t item vs hk _ ih =>
      rw [Value.isOrdered_array] at hv
      obtain ⟨n, gs, hgs⟩ := exists_common_fuel (f := fun n v => decode pkg decls n item v)
        (P := fun v g => Same (encode g) v) (fun v _ => decode_stable pkg decls item v)
        fun v hmem => by
          obtain ⟨n, g, hg, hsame⟩ := ih v hmem (hv v hmem)
          exact ⟨g, ⟨n, hg⟩, hsame⟩
      obtain ⟨m, hm⟩ := decode_of_kind hk (.slice (mapM_eq_some.mpr (hgs.imp fun _ _ h => h.1)))
      refine ⟨m, _, hm, ?_⟩
      rw [encode, encodeItems_eq, same_array_iff, List.forall₂_map_left_iff]
      exact (hgs.imp fun _ _ h => h.2).flip
  | @map t value es hk _ ih =>
      have hrest := (Value.isOrdered_object.mp hv).2
      obtain ⟨n, gs, hgs⟩ := exists_common_fuel
        (f := fun n (e : String × Value) => (decode pkg decls n value e.2).map fun g => (e.1, g))
        (P := fun e x => x.1 = e.1 ∧ Same (encode x.2) e.2)
        (fun e _ n x hx => by
          obtain ⟨g, hg, rfl⟩ := Option.map_eq_some_iff.mp hx
          exact Option.map_eq_some_iff.mpr ⟨g, decode_stable pkg decls value e.2 n g hg, rfl⟩)
        fun e he => by
          obtain ⟨n, g, hg, hsame⟩ := ih e he (hrest e he)
          exact ⟨(e.1, g), ⟨n, Option.map_eq_some_iff.mpr ⟨g, hg, rfl⟩⟩, rfl, hsame⟩
      obtain ⟨m, hm⟩ := decode_of_kind hk (.map (mapM_eq_some.mpr (hgs.imp fun _ _ h => h.1)))
      refine ⟨m, _, hm, ?_⟩
      rw [encode, encodeEntries_eq]
      refine same_object_of_forall₂ ?_
      rw [List.forall₂_map_left_iff]
      exact (hgs.imp fun _ _ h => h.2).flip
  | @struct t levels es hk known absent _ kept ih =>
      have hfield : ∀ f ∈ visible levels, ∃ g,
          Returns (fun n => decodeField (decode pkg decls n) (zeroOf pkg decls n) es f) g ∧
          match es.lookup f.name with
          | some w => (f.omitempty && g.isEmpty) = false ∧ Same (encode g) w
          | none => (f.omitempty && g.isEmpty) = true := by
        intro f hf
        cases hw : es.lookup f.name with
        | none =>
            obtain ⟨homit, k, hkind, hstruct⟩ := absent f hf hw
            obtain ⟨n, g, hg, hempty⟩ := exists_zeroOf hkind hstruct
            refine ⟨g, ⟨n, ?_⟩, by rw [homit, hempty]; rfl⟩
            dsimp only
            rw [decodeField, hw]
            exact hg
        | some w =>
            obtain ⟨n, g, hg, hsame⟩ := ih f hf w hw (isOrdered_of_lookup hv hw)
            refine ⟨g, ⟨n, ?_⟩, ?_, hsame⟩
            · dsimp only
              rw [decodeField, hw]
              exact hg
            · cases homit : f.omitempty with
              | false => rfl
              | true =>
                  obtain ⟨k, hkind⟩ := exists_kind_of_decode hg
                  rw [isEmpty_decode hg hsame hkind, kept f hf w hw homit k hkind]
                  rfl
      obtain ⟨n, gs, hgs⟩ := exists_common_fuel (fun f _ => decodeField_stable es f) hfield
      have hdecode := hgs.imp fun _ _ h => h.1
      have hstray : (es.filter fun e => !(visible levels).any (·.name == e.1)).isEmpty = true := by
        rw [stray_eq_nil known]
        rfl
      obtain ⟨m, hm⟩ := decode_of_kind hk (.struct (mapM_eq_some.mpr hdecode) (if_pos hstray))
      refine ⟨m, _, hm, (same_struct_iff (nodup_visible levels) hdecode.length_eq.symm).mpr
        ⟨fun k hsome => ?_, fun f g hfg => (List.forall₂_zip hgs hfg).2⟩⟩
      obtain ⟨w, hw⟩ := Option.isSome_iff_exists.mp hsome
      exact known _ (mem_of_lookup_eq_some hw)

end Decoding

end SpecForge.Go
