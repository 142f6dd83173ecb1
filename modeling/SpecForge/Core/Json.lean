import SpecForge.Lib.BTreeMap

/-!
# JSON values

The JSON values the program works on (`serde_json::Value`), with the
classifications it asks of them. A number is stored in one of three forms and
the form decides the classification: `7` is an integer, `7.0` is not.
-/

namespace SpecForge

open Lib

/-- A finite double by its bit pattern: the exponent field is not all ones. -/
structure FiniteF64 where
  bits : UInt64
  finite : (bits >>> 52) &&& 0x7ff ≠ 0x7ff
deriving DecidableEq

/-- `serde_json::Number`: non-negative integers, negative integers and
everything written with a fraction or an exponent. -/
inductive Number where
  | posInt (n : UInt64)
  | negInt (i : Int64) (neg : i < 0)
  | float (f : FiniteF64)
deriving DecidableEq

namespace Number

def isI64 : Number → Bool
  | posInt n => decide (n.toNat ≤ 9223372036854775807)
  | negInt _ _ => true
  | float _ => false

def isU64 : Number → Bool
  | posInt _ => true
  | _ => false

def isF64 : Number → Bool
  | float _ => true
  | _ => false

end Number

/-- `serde_json::Value`. The program's maps are `BTreeMap`s: an object lists
its entries by increasing key, each key once. -/
inductive Value where
  | null
  | bool (b : Bool)
  | number (n : Number)
  | string (s : String)
  | array (items : List Value)
  | object (entries : List (String × Value))

namespace Value

def isNull : Value → Bool
  | null => true
  | _ => false

def isBoolean : Value → Bool
  | bool _ => true
  | _ => false

def isNumber : Value → Bool
  | number _ => true
  | _ => false

def isString : Value → Bool
  | string _ => true
  | _ => false

def isObject : Value → Bool
  | object _ => true
  | _ => false

def isI64 : Value → Bool
  | number n => n.isI64
  | _ => false

def isU64 : Value → Bool
  | number n => n.isU64
  | _ => false

def isF64 : Value → Bool
  | number n => n.isF64
  | _ => false

def asBool : Value → Option Bool
  | bool b => some b
  | _ => none

def asStr : Value → Option String
  | string s => some s
  | _ => none

def asArray : Value → Option (List Value)
  | array items => some items
  | _ => none

def asObject : Value → Option (List (String × Value))
  | object entries => some entries
  | _ => none

/-- `Value::get` with a key. -/
def get (v : Value) (key : String) : Option Value := v.asObject.bind (·.lookup key)

def reference (v : Value) : Option String := (v.get "$ref").bind asStr

/-- `insert` into an object; another value stays as it is. -/
def insert (v : Value) (key : String) (w : Value) : Value :=
  match v with
  | object entries => object (BTreeMap.insertKey key w entries)
  | v => v

/-- What is done to a member through `get_mut`; nothing where there is no such member. -/
def modify (v : Value) (key : String) (f : Value → Value) : Value :=
  match v.get key with
  | some w => v.insert key (f w)
  | none => v

theorem isNull_iff {v : Value} : v.isNull = true ↔ v = null := by
  cases v <;> simp [isNull]

section

variable {v w : Value} {k key : String} {f : Value → Value}

@[simp] theorem get_object (entries : List (String × Value)) (k : String) :
    (object entries).get k = entries.lookup k := rfl

theorem isObject_iff : v.isObject = true ↔ ∃ entries, v = object entries := by
  cases v <;> simp [isObject]

theorem isObject_of_get (h : v.get k = some w) : v.isObject = true := by
  cases v with
  | object entries => rfl
  | _ => cases h

@[simp] theorem isObject_insert : (v.insert key w).isObject = v.isObject := by
  cases v <;> rfl

@[simp] theorem isObject_modify : (v.modify key f).isObject = v.isObject := by
  unfold modify
  split
  · exact isObject_insert
  · rfl

theorem insert_of_not_object (h : v.isObject = false) : v.insert key w = v := by
  cases v with
  | object entries => cases h
  | _ => rfl

theorem get_of_not_object (h : v.isObject = false) : v.get key = none := by
  cases v with
  | object entries => cases h
  | _ => rfl

theorem modify_of_not_object (h : v.isObject = false) : v.modify key f = v := by
  rw [modify, get_of_not_object h]

theorem get_insert_self (h : v.isObject = true) : (v.insert key w).get key = some w := by
  obtain ⟨entries, rfl⟩ := isObject_iff.mp h
  exact BTreeMap.lookup_insertKey_self key w entries

@[simp] theorem get_insert_ne (h : k ≠ key) : (v.insert key w).get k = v.get k := by
  cases v with
  | object entries => exact BTreeMap.lookup_insertKey_ne h w entries
  | _ => rfl

@[simp] theorem get_modify_self : (v.modify key f).get key = (v.get key).map f := by
  unfold modify
  split
  · next w hw => rw [get_insert_self (isObject_of_get hw), hw, Option.map_some]
  · next hnone => rw [hnone, Option.map_none]

@[simp] theorem get_modify_ne (h : k ≠ key) : (v.modify key f).get k = v.get k := by
  unfold modify
  split
  · exact get_insert_ne h
  · rfl

end

/-- Structural induction with the parts of a value at hand. -/
@[elab_as_elim]
theorem induction {P : Value → Prop} (null : P .null) (bool : ∀ b, P (.bool b))
    (number : ∀ n, P (.number n)) (string : ∀ s, P (.string s))
    (array : ∀ items, (∀ v ∈ items, P v) → P (.array items))
    (object : ∀ entries, (∀ e ∈ entries, P e.2) → P (.object entries)) : ∀ v, P v
  | .null => null
  | .bool b => bool b
  | .number n => number n
  | .string s => string s
  | .array items => array items fun v _ => induction null bool number string array object v
  | .object entries => object entries fun e he =>
      have : sizeOf e.2 < sizeOf e := by
        obtain ⟨k, v⟩ := e
        simp only [Prod.mk.sizeOf_spec]
        omega
      have := List.sizeOf_lt_of_mem he
      induction null bool number string array object e.2

/-- `w` stands directly inside `v`. -/
inductive Part : Value → Value → Prop where
  | item {xs x} : x ∈ xs → Part (.array xs) x
  | member {obj e} : e ∈ obj → Part (.object obj) e.2

@[elab_as_elim]
theorem part_induction {P : Value → Prop} (hstep : ∀ v, (∀ w, Part v w → P w) → P v) (v : Value) :
    P v := by
  induction v using Value.induction with
  | array items ih =>
      refine hstep _ fun w hw => ?_
      cases hw with
      | item hx => exact ih w hx
  | object entries ih =>
      refine hstep _ fun w hw => ?_
      cases hw with
      | member he => exact ih _ he
  | _ =>
      refine hstep _ fun w hw => ?_
      cases hw

mutual

/-- Every object lists its entries by increasing key. -/
def isOrdered : Value → Bool
  | .array items => itemsOrdered items
  | .object entries => decide (BTreeMap.Sorted entries) && entriesOrdered entries
  | _ => true

def itemsOrdered : List Value → Bool
  | [] => true
  | v :: vs => isOrdered v && itemsOrdered vs

def entriesOrdered : List (String × Value) → Bool
  | [] => true
  | (_, v) :: es => isOrdered v && entriesOrdered es

end

theorem isOrdered_array {items : List Value} :
    (array items).isOrdered = true ↔ ∀ v ∈ items, v.isOrdered = true := by
  rw [isOrdered]
  induction items with
  | nil => simp [itemsOrdered]
  | cons v vs ih => rw [itemsOrdered, Bool.and_eq_true, ih, List.forall_mem_cons]

theorem isOrdered_object {entries : List (String × Value)} :
    (object entries).isOrdered = true ↔
      BTreeMap.Sorted entries ∧ ∀ e ∈ entries, e.2.isOrdered = true := by
  rw [isOrdered, Bool.and_eq_true, decide_eq_true_eq]
  apply and_congr_right'
  induction entries with
  | nil => simp [entriesOrdered]
  | cons e es ih => rw [entriesOrdered, Bool.and_eq_true, ih, List.forall_mem_cons]

end Value

end SpecForge
