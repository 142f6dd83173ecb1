import SpecForge.Core.Json
import SpecForge.Core.References
import SpecForge.Lib.Fuel
import SpecForge.Lib.Text

/-!
# Validating JSON against the IR (`validate.rs`)

`validateInner` walks a value along a type and collects one error per
violation. References are followed by name, so on a cyclic registry the walk
need not end: its first number caps the call depth, and `none` says that the
cap was hit.

- §1–§3 the validator: errors, scalars, the recursive walk.
- §4 a larger cap never changes a result (`validateInner_stable`).
- §5 `accepts`, the same walk with the texts forgotten, and `Validates`: the
  validator returns no error.
- §6 what `Validates` asks, constructor by constructor.
- §7 on an acyclic registry the validator always returns.
-/

namespace SpecForge

open Lib
open Lib.Text (debugStrings)

/-! ## §1  Errors -/

structure ValidationError where
  path : String
  message : String
deriving DecidableEq

def valueTypeName : Value → String
  | .null => "null"
  | .bool _ => "boolean"
  | .number _ => "number"
  | .string _ => "string"
  | .array _ => "array"
  | .object _ => "object"

/-! ## §2  Scalars -/

def expected (what : String) (value : Value) (path : String) : List ValidationError :=
  [⟨path, "expected " ++ what ++ ", got " ++ valueTypeName value⟩]

def validateScalar (value : Value) (scalar : Scalar) (path : String) :
    List ValidationError :=
  match scalar with
  | .string | .dateTime | .uuid | .base64 | .binary =>
      if !value.isString then expected "string" value path else []
  | .integer | .integer64 =>
      if !value.isI64 && !value.isU64 then expected "integer" value path else []
  | .float => if !value.isNumber then expected "number" value path else []
  | .boolean => if !value.isBoolean then expected "boolean" value path else []

/-! ## §3  The walk -/

/-- `validate_object`, with the recursive call as a parameter. -/
def validateObject (recurse : Value → IrType → String → Option (List ValidationError))
    (value : Value) (properties : List Property) (path : String) :
    Option (List ValidationError) :=
  match value.asObject with
  | none => some (expected "object" value path)
  | some obj =>
      (properties.mapM fun (prop : Property) =>
        let propPath := path ++ "." ++ prop.name
        match obj.lookup prop.name with
        | some val => recurse val prop.ty propPath
        | none =>
            if prop.required then some [⟨propPath, "missing required property"⟩]
            else some []).map List.flatten

def validateInner (registry : SchemaRegistry) :
    ℕ → Value → IrType → String → Option (List ValidationError)
  | 0, _, _, _ => none
  | fuel + 1, value, ty, path =>
    let recurse := validateInner registry fuel
    match ty with
    | .scalar s => some (validateScalar value s path)
    | .stringEnum variants nullable =>
        if nullable && value.isNull then some []
        else match value.asStr with
        | some s =>
            if !variants.any (· == s) then
              some [⟨path, "expected one of " ++ debugStrings variants ++ ", got \"" ++ s
                ++ "\""⟩]
            else some []
        | none => some (expected "string" value path)
    | .array item nullable =>
        if nullable && value.isNull then some []
        else match value.asArray with
        | some arr =>
            (arr.zipIdx.mapM fun (x : Value × ℕ) =>
              recurse x.1 item (path ++ "[" ++ toString x.2 ++ "]")).map List.flatten
        | none => some (expected "array" value path)
    | .map valTy =>
        match value.asObject with
        | some obj =>
            (obj.mapM fun (x : String × Value) =>
              recurse x.2 valTy (path ++ "." ++ x.1)).map List.flatten
        -- a map lets anything else through
        | none => some []
    | .reference name nullable _ =>
        if nullable && value.isNull then some []
        else match registry.get name with
        | some (.object o) =>
            match o.shapeType with
            -- the properties are not looked at
            | some shape => recurse value shape path
            | none => validateObject recurse value o.properties path
        | some (.enum e) =>
            match value.asStr with
            | some s =>
                if !e.variants.any (fun v => v.value == s) then
                  some [⟨path, "invalid enum variant \"" ++ s ++ "\""⟩]
                else some []
            | none => some (expected ("string for enum \"" ++ name ++ "\"") value path)
        | none => some []
    | .composition .allOf members _ =>
        (members.mapM fun (member : IrType) => recurse value member path).map List.flatten
    | .composition _ members _ =>
        -- every member is run, also after one has matched
        (members.mapM fun (member : IrType) => recurse value member path).map fun subErrors =>
          if !subErrors.any List.isEmpty && !members.isEmpty then
            [⟨path, "value does not match any oneOf/anyOf variant"⟩]
          else []
    | .any | .unknown => some []

def validate (fuel : ℕ) (value : Value) (ty : IrType) (registry : SchemaRegistry) :
    Option (List ValidationError) :=
  validateInner registry fuel value ty ""

/-! ## §4  The cap -/

theorem validateObject_mono
    {rec₁ rec₂ : Value → IrType → String → Option (List ValidationError)}
    (h : ∀ v t p es, rec₁ v t p = some es → rec₂ v t p = some es) {v : Value}
    {props : List Property} {path : String} {es : List ValidationError}
    (hes : validateObject rec₁ v props path = some es) :
    validateObject rec₂ v props path = some es := by
  unfold validateObject at hes ⊢
  cases hobj : v.asObject with
  | none =>
      rw [hobj] at hes
      exact hes
  | some obj =>
      rw [hobj] at hes
      refine mapM_map_stable ?_ hes
      intro prop _ es' hprop
      dsimp only at hprop ⊢
      split at hprop
      · exact h _ _ _ _ hprop
      · exact hprop

/-- **A larger cap never changes what the validator returns.** -/
theorem validateInner_stable (reg : SchemaRegistry) (v : Value) (t : IrType) (path : String) :
    Stable fun n => validateInner reg n v t path := by
  intro n
  induction n generalizing v t path with
  | zero =>
      intro es h
      exact absurd h (by simp [validateInner])
  | succ n ih =>
      intro es h
      have hloop : ∀ {α : Type} {l : List α} {val : α → Value} {ty : α → IrType}
          {p : α → String} {k : List (List ValidationError) → List ValidationError} {es},
          (l.mapM fun a => validateInner reg n (val a) (ty a) (p a)).map k = some es →
          (l.mapM fun a => validateInner reg (n + 1) (val a) (ty a) (p a)).map k = some es :=
        fun hl => mapM_map_stable (fun a _ b hb => ih _ _ _ b hb) hl
      unfold validateInner at h ⊢
      cases t with
      | scalar s => exact h
      | stringEnum variants nullable => exact h
      | array item nullable =>
          dsimp only at h ⊢
          split
          · next hnull =>
              rw [if_pos hnull] at h
              exact h
          · next hnull =>
              rw [if_neg hnull] at h
              cases harr : v.asArray with
              | none =>
                  rw [harr] at h
                  exact h
              | some arr =>
                  rw [harr] at h
                  exact hloop h
      | map valTy =>
          dsimp only at h ⊢
          cases hobj : v.asObject with
          | none =>
              rw [hobj] at h
              exact h
          | some obj =>
              rw [hobj] at h
              exact hloop h
      | reference name nullable description =>
          dsimp only at h ⊢
          split
          · next hnull =>
              rw [if_pos hnull] at h
              exact h
          · next hnull =>
              rw [if_neg hnull] at h
              cases hmodel : reg.get name with
              | none =>
                  rw [hmodel] at h
                  exact h
              | some model =>
                  rw [hmodel] at h
                  cases model with
                  | enum e => exact h
                  | object o =>
                      dsimp only at h ⊢
                      cases hshape : o.shapeType with
                      | none =>
                          rw [hshape] at h
                          exact validateObject_mono ih h
                      | some shape =>
                          rw [hshape] at h
                          exact ih _ _ _ _ h
      | composition kind members discriminator =>
          cases kind with
          | allOf => exact hloop h
          | oneOf => exact hloop h
          | anyOf => exact hloop h
      | any => exact h
      | unknown => exact h

/-! ## §5  The walk without its texts -/

def acceptsScalar (value : Value) : Scalar → Bool
  | .string | .dateTime | .uuid | .base64 | .binary => value.isString
  | .integer | .integer64 => value.isI64 || value.isU64
  | .float => value.isNumber
  | .boolean => value.isBoolean

def acceptsObject (recurse : Value → IrType → Option Bool) (value : Value)
    (properties : List Property) : Option Bool :=
  match value.asObject with
  | none => some false
  | some obj =>
      (properties.mapM fun (prop : Property) =>
        match obj.lookup prop.name with
        | some val => recurse val prop.ty
        | none => some !prop.required).map fun (bs : List Bool) => bs.all id

/-- Whether the walk finds no error. -/
def accepts (registry : SchemaRegistry) : ℕ → Value → IrType → Option Bool
  | 0, _, _ => none
  | fuel + 1, value, ty =>
    let recurse := accepts registry fuel
    match ty with
    | .scalar s => some (acceptsScalar value s)
    | .stringEnum variants nullable =>
        some (nullable && value.isNull || value.asStr.any fun s => variants.any (· == s))
    | .array item nullable =>
        if nullable && value.isNull then some true
        else match value.asArray with
        | some arr => (arr.mapM fun (v : Value) => recurse v item).map (·.all id)
        | none => some false
    | .map valTy =>
        match value.asObject with
        | some obj => (obj.mapM fun (x : String × Value) => recurse x.2 valTy).map (·.all id)
        | none => some true
    | .reference name nullable _ =>
        if nullable && value.isNull then some true
        else match registry.get name with
        | some (.object o) =>
            match o.shapeType with
            | some shape => recurse value shape
            | none => acceptsObject recurse value o.properties
        | some (.enum e) =>
            some (value.asStr.any fun s => e.variants.any fun v => v.value == s)
        | none => some true
    | .composition .allOf members _ =>
        (members.mapM fun (member : IrType) => recurse value member).map (·.all id)
    | .composition _ members _ =>
        (members.mapM fun (member : IrType) => recurse value member).map fun bs =>
          bs.any id || members.isEmpty
    | .any | .unknown => some true

theorem validateScalar_isEmpty (v : Value) (s : Scalar) (path : String) :
    (validateScalar v s path).isEmpty = acceptsScalar v s := by
  unfold validateScalar acceptsScalar
  cases s with
  | integer => cases v.isI64 <;> cases v.isU64 <;> rfl
  | integer64 => cases v.isI64 <;> cases v.isU64 <;> rfl
  | float => cases v.isNumber <;> rfl
  | boolean => cases v.isBoolean <;> rfl
  | _ => cases v.isString <;> rfl

theorem flatten_isEmpty (ess : List (List ValidationError)) :
    ess.flatten.isEmpty = (ess.map List.isEmpty).all id := by
  induction ess with
  | nil => rfl
  | cons es ess ih =>
      rw [List.flatten_cons, List.map_cons, List.all_cons, ← ih]
      cases es <;> rfl

/-- The errors of a loop are none if every step has none. -/
theorem collect_isEmpty {α : Type} {l : List α} {f : α → Option (List ValidationError)}
    {g : α → Option Bool} (h : ∀ a ∈ l, (f a).map List.isEmpty = g a) :
    ((l.mapM f).map List.flatten).map List.isEmpty = (l.mapM g).map (·.all id) := by
  rw [← mapM_forget List.isEmpty h, Option.map_map, Option.map_map]
  exact congrArg (fun k => Option.map k (l.mapM f)) (funext flatten_isEmpty)

/-- Alternatives have an error if there are any and each of them has one. -/
theorem alternatives_isEmpty {members : List IrType} (path : String)
    {f : IrType → Option (List ValidationError)} {g : IrType → Option Bool}
    (h : ∀ m ∈ members, (f m).map List.isEmpty = g m) :
    ((members.mapM f).map fun subErrors =>
      if !subErrors.any List.isEmpty && !members.isEmpty then
        [(⟨path, "value does not match any oneOf/anyOf variant"⟩ : ValidationError)]
      else []).map List.isEmpty = (members.mapM g).map fun bs => bs.any id || members.isEmpty := by
  have hany : ∀ ess : List (List ValidationError),
      (if !ess.any List.isEmpty && !members.isEmpty then
          [(⟨path, "value does not match any oneOf/anyOf variant"⟩ : ValidationError)]
        else []).isEmpty = ((ess.map List.isEmpty).any id || members.isEmpty) := by
    intro ess
    rw [List.any_map]
    change _ = (ess.any List.isEmpty || _)
    cases ess.any List.isEmpty <;> cases members.isEmpty <;> rfl
  rw [← mapM_forget List.isEmpty h, Option.map_map, Option.map_map]
  exact congrArg (fun k => Option.map k _) (funext hany)

theorem validateObject_isEmpty
    {rec₁ : Value → IrType → String → Option (List ValidationError)}
    {rec₂ : Value → IrType → Option Bool}
    (h : ∀ v t p, (rec₁ v t p).map List.isEmpty = rec₂ v t) (v : Value)
    (props : List Property) (path : String) :
    (validateObject rec₁ v props path).map List.isEmpty = acceptsObject rec₂ v props := by
  unfold validateObject acceptsObject
  cases v.asObject with
  | none => rfl
  | some obj =>
      refine collect_isEmpty fun prop _ => ?_
      dsimp only
      cases obj.lookup prop.name with
      | some val => exact h val prop.ty _
      | none => cases prop.required <;> rfl

/-- **`accepts` is the validator with the errors forgotten**, at any path. -/
theorem validateInner_isEmpty (reg : SchemaRegistry) (n : ℕ) (v : Value) (t : IrType)
    (path : String) :
    (validateInner reg n v t path).map List.isEmpty = accepts reg n v t := by
  induction n generalizing v t path with
  | zero => rfl
  | succ n ih =>
      unfold validateInner accepts
      cases t with
      | scalar s => exact congrArg some (validateScalar_isEmpty v s path)
      | stringEnum variants nullable =>
          dsimp only
          cases nullable && v.isNull with
          | true => rfl
          | false =>
              cases v.asStr with
              | none => rfl
              | some s =>
                  simp only [Option.any_some, Bool.false_or]
                  cases variants.any (· == s) <;> rfl
      | array item nullable =>
          dsimp only
          cases nullable && v.isNull with
          | true => rfl
          | false =>
              cases v.asArray with
              | none => rfl
              | some arr =>
                  have hitems : ∀ x ∈ arr.zipIdx,
                      (validateInner reg n x.1 item
                        (path ++ "[" ++ toString x.2 ++ "]")).map List.isEmpty
                      = accepts reg n x.1 item := fun x _ => ih _ _ _
                  -- the index is only written into the path
                  have harr : arr.zipIdx.mapM (fun x => accepts reg n x.1 item)
                      = arr.mapM fun v => accepts reg n v item := by
                    have hmap := List.mapM_map (f := Prod.fst)
                      (g := fun v => accepts reg n v item) (l := arr.zipIdx)
                    rw [List.zipIdx_map_fst] at hmap
                    exact hmap.symm
                  exact (collect_isEmpty hitems).trans
                    (congrArg (Option.map fun bs : List Bool => bs.all id) harr)
      | map valTy =>
          dsimp only
          cases v.asObject with
          | none => rfl
          | some obj => exact collect_isEmpty fun x _ => ih _ _ _
      | reference name nullable description =>
          dsimp only
          cases nullable && v.isNull with
          | true => rfl
          | false =>
              cases reg.get name with
              | none => rfl
              | some model =>
                  cases model with
                  | object o =>
                      dsimp only
                      cases o.shapeType with
                      | none => exact validateObject_isEmpty ih v o.properties path
                      | some shape => exact ih _ _ _
                  | enum e =>
                      dsimp only
                      cases v.asStr with
                      | none => rfl
                      | some s =>
                          simp only [Option.any_some]
                          cases e.variants.any (fun v => v.value == s) <;> rfl
      | composition kind members discriminator =>
          have hmembers : ∀ m ∈ members,
              (validateInner reg n v m path).map List.isEmpty = accepts reg n v m :=
            fun m _ => ih _ _ _
          cases kind with
          | allOf => exact collect_isEmpty hmembers
          | oneOf => exact alternatives_isEmpty path hmembers
          | anyOf => exact alternatives_isEmpty path hmembers
      | any => rfl
      | unknown => rfl

/-! ## §6  Valid values -/

theorem accepts_stable (reg : SchemaRegistry) (v : Value) (t : IrType) :
    Stable fun n => accepts reg n v t := by
  intro n b hb
  dsimp only at hb ⊢
  rw [← validateInner_isEmpty reg n v t ""] at hb
  obtain ⟨es, hes, hb⟩ := Option.map_eq_some_iff.mp hb
  have hes' : validateInner reg (n + 1) v t "" = some es :=
    validateInner_stable reg v t "" n es hes
  rw [← validateInner_isEmpty reg (n + 1) v t "", hes']
  exact congrArg some hb

/-- The validator returns no error. -/
def Validates (reg : SchemaRegistry) (v : Value) (t : IrType) : Prop :=
  Returns (fun n => validate n v t reg) []

/-- The validator returns. -/
def Settles (reg : SchemaRegistry) (v : Value) (t : IrType) : Prop :=
  ∃ es, Returns (fun n => validate n v t reg) es

theorem returns_accepts {reg : SchemaRegistry} {v : Value} {t : IrType}
    {es : List ValidationError} (h : Returns (fun n => validate n v t reg) es) :
    Returns (fun n => accepts reg n v t) es.isEmpty := by
  have hmap := h.map List.isEmpty
  simp only [validate, validateInner_isEmpty] at hmap
  exact hmap

theorem validates_iff {reg : SchemaRegistry} {v : Value} {t : IrType} :
    Validates reg v t ↔ Returns (fun n => accepts reg n v t) true := by
  constructor
  · intro h
    exact returns_accepts h
  · rintro ⟨n, hn⟩
    dsimp only at hn
    rw [← validateInner_isEmpty reg n v t ""] at hn
    obtain ⟨es, hes, hempty⟩ := Option.map_eq_some_iff.mp hn
    exact ⟨n, hes.trans (congrArg some (List.isEmpty_iff.mp hempty))⟩

theorem settles_iff {reg : SchemaRegistry} {v : Value} {t : IrType} :
    Settles reg v t ↔ ∃ b, Returns (fun n => accepts reg n v t) b := by
  constructor
  · rintro ⟨es, hes⟩
    exact ⟨_, returns_accepts hes⟩
  · rintro ⟨b, n, hn⟩
    dsimp only at hn
    rw [← validateInner_isEmpty reg n v t ""] at hn
    obtain ⟨es, hes, -⟩ := Option.map_eq_some_iff.mp hn
    exact ⟨es, n, hes⟩

/-- What `validate_object` asks of a value. -/
def ValidatesObject (reg : SchemaRegistry) (v : Value) (properties : List Property) : Prop :=
  ∃ obj, v = .object obj ∧ ∀ p ∈ properties,
    (obj.lookup p.name = none → p.required = false) ∧
    ∀ x, obj.lookup p.name = some x → Validates reg x p.ty

section Unfold

attribute [local simp] accepts

variable {reg : SchemaRegistry} {v : Value}

theorem returns_accepts_succ {t : IrType} {b : Bool} :
    Returns (fun n => accepts reg n v t) b ↔ Returns (fun n => accepts reg (n + 1) v t) b :=
  returns_succ_iff rfl fun _ => rfl

theorem validates_scalar {s : Scalar} :
    Validates reg v (.scalar s) ↔ acceptsScalar v s = true := by
  rw [validates_iff, returns_accepts_succ]
  simp only [accepts]
  exact returns_const

theorem validates_stringEnum {variants : List String} {nullable : Bool} :
    Validates reg v (.stringEnum variants nullable) ↔
      (nullable = true ∧ v = .null) ∨ ∃ s ∈ variants, v = .string s := by
  rw [validates_iff, returns_accepts_succ]
  simp only [accepts]
  refine returns_const.trans ?_
  rw [Bool.or_eq_true, Bool.and_eq_true, Value.isNull_iff]
  refine or_congr Iff.rfl ?_
  cases v with
  | string s => simp [Value.asStr]
  | _ => simp [Value.asStr]

theorem validates_array {item : IrType} {nullable : Bool} :
    Validates reg v (.array item nullable) ↔
      (nullable = true ∧ v = .null) ∨
        ∃ items, v = .array items ∧ ∀ x ∈ items, Validates reg x item := by
  rw [validates_iff, returns_accepts_succ]
  simp only [accepts]
  simp only [← Value.isNull_iff, ← Bool.and_eq_true]
  cases hnull : nullable && v.isNull with
  | true => simpa using returns_const.mpr rfl
  | false =>
      simp only [Bool.false_eq_true, if_false, false_or]
      cases v with
      | array items =>
          simp only [Value.asArray, Value.array.injEq, exists_eq_left', validates_iff]
          exact returns_all_true fun x _ => accepts_stable reg x item
      | _ => simp [Value.asArray, returns_const]

theorem validates_map {valTy : IrType} :
    Validates reg v (.map valTy) ↔
      ∀ obj, v = .object obj → ∀ x ∈ obj, Validates reg x.2 valTy := by
  rw [validates_iff, returns_accepts_succ]
  simp only [accepts]
  cases v with
  | object obj =>
      simp only [Value.asObject, Value.object.injEq, forall_eq', validates_iff]
      exact returns_all_true fun x _ => accepts_stable reg x.2 valTy
  | _ => simp [Value.asObject, returns_const]

theorem validates_reference_shape {name : String} {nullable : Bool}
    {description : Option String} {o : ObjectModel} {shape : IrType}
    (hget : reg.get name = some (.object o)) (hshape : o.shapeType = some shape) :
    Validates reg v (.reference name nullable description) ↔
      (nullable = true ∧ v = .null) ∨ Validates reg v shape := by
  rw [validates_iff, returns_accepts_succ, validates_iff]
  simp only [accepts]
  simp only [← Value.isNull_iff, ← Bool.and_eq_true, hget, hshape]
  cases hnull : nullable && v.isNull with
  | true => simpa using returns_const.mpr rfl
  | false => simp

theorem acceptsProperties_stable (reg : SchemaRegistry) (obj : List (String × Value))
    (p : Property) :
    Stable fun n => match obj.lookup p.name with
      | some val => accepts reg n val p.ty
      | none => some !p.required := by
  intro n b hb
  dsimp only at hb ⊢
  split at hb
  · exact accepts_stable reg _ _ n b hb
  · exact hb

theorem validates_reference_object {name : String} {nullable : Bool}
    {description : Option String} {o : ObjectModel}
    (hget : reg.get name = some (.object o)) (hshape : o.shapeType = none) :
    Validates reg v (.reference name nullable description) ↔
      (nullable = true ∧ v = .null) ∨ ValidatesObject reg v o.properties := by
  rw [validates_iff, returns_accepts_succ]
  simp only [accepts]
  simp only [← Value.isNull_iff, ← Bool.and_eq_true, hget, hshape]
  cases hnull : nullable && v.isNull with
  | true => simpa using returns_const.mpr rfl
  | false =>
      simp only [Bool.false_eq_true, if_false, false_or, ValidatesObject, acceptsObject]
      cases v with
      | object obj =>
          simp only [Value.asObject, Value.object.injEq, exists_eq_left']
          refine (returns_all_true fun p _ => acceptsProperties_stable reg obj p).trans ?_
          refine forall₂_congr fun p _ => ?_
          cases hlookup : obj.lookup p.name with
          | some x => simp [validates_iff]
          | none => simp [returns_const]
      | _ => simp [Value.asObject, returns_const]

theorem validates_reference_enum {name : String} {nullable : Bool}
    {description : Option String} {e : EnumModel} (hget : reg.get name = some (.enum e)) :
    Validates reg v (.reference name nullable description) ↔
      (nullable = true ∧ v = .null) ∨ ∃ x ∈ e.variants, v = .string x.value := by
  rw [validates_iff, returns_accepts_succ]
  simp only [accepts]
  simp only [← Value.isNull_iff, ← Bool.and_eq_true, hget]
  cases hnull : nullable && v.isNull with
  | true => simpa using returns_const.mpr rfl
  | false =>
      simp only [Bool.false_eq_true, if_false, false_or]
      refine returns_const.trans ?_
      cases v with
      | string s =>
          simp only [Value.asStr, Option.any_some, List.any_eq_true, beq_iff_eq,
            Value.string.injEq]
          exact exists_congr fun x => and_congr_right fun _ => eq_comm
      | _ => simp [Value.asStr]

theorem validates_reference_unknown {name : String} {nullable : Bool}
    {description : Option String} (hget : reg.get name = none) :
    Validates reg v (.reference name nullable description) := by
  rw [validates_iff, returns_accepts_succ]
  simp only [accepts]
  simp only [hget, ite_self]
  exact returns_const.mpr rfl

theorem validates_allOf {members : List IrType} {discriminator : Option Discriminator} :
    Validates reg v (.composition .allOf members discriminator) ↔
      ∀ m ∈ members, Validates reg v m := by
  rw [validates_iff, returns_accepts_succ]
  simp only [accepts]
  simp only [validates_iff]
  exact returns_all_true fun m _ => accepts_stable reg v m

/-- `oneOf` and `anyOf` alike: some member has no error, or there is none. -/
theorem validates_anyOf {kind : CompositionKind} {members : List IrType}
    {discriminator : Option Discriminator} (hkind : kind ≠ .allOf)
    (hret : ∀ m ∈ members, Settles reg v m) :
    Validates reg v (.composition kind members discriminator) ↔
      members = [] ∨ ∃ m ∈ members, Validates reg v m := by
  have hbody : Returns (fun n => accepts reg n v (.composition kind members discriminator))
      true ↔ Returns (fun n => (members.mapM fun m => accepts reg n v m).map fun bs =>
        bs.any id || members.isEmpty) true := by
    cases kind with
    | allOf => exact absurd rfl hkind
    | oneOf => exact returns_accepts_succ
    | anyOf => exact returns_accepts_succ
  rw [validates_iff, hbody]
  cases members with
  | nil => simpa using returns_const.mpr rfl
  | cons m ms =>
      simp only [List.isEmpty_cons, Bool.or_false, reduceCtorEq, false_or, validates_iff]
      exact returns_any_true (fun m _ => accepts_stable reg v m)
        fun m hm => settles_iff.mp (hret m hm)

theorem validates_any : Validates reg v .any := by
  rw [validates_iff, returns_accepts_succ]
  simp only [accepts]
  exact returns_const.mpr rfl

theorem validates_unknown : Validates reg v .unknown := by
  rw [validates_iff, returns_accepts_succ]
  simp only [accepts]
  exact returns_const.mpr rfl

end Unfold

/-! ## §7  Termination -/

/-- The calls of the walk, on a value and a type. -/
inductive Calls (reg : SchemaRegistry) : Value × IrType → Value × IrType → Prop where
  | item {xs : List Value} {x item nullable} : x ∈ xs →
      Calls reg (.array xs, .array item nullable) (x, item)
  | entry {obj : List (String × Value)} {e value} : e ∈ obj →
      Calls reg (.object obj, .map value) (e.2, value)
  | member {v kind members discriminator m} : m ∈ members →
      Calls reg (v, .composition kind members discriminator) (v, m)
  | shape {v name nullable description o s} : ¬(nullable = true ∧ v = .null) →
      reg.get name = some (.object o) → o.shapeType = some s →
      Calls reg (v, .reference name nullable description) (v, s)
  | property {obj : List (String × Value)} {x name nullable description o p} :
      reg.get name = some (.object o) → o.shapeType = none → p ∈ o.properties →
      obj.lookup p.name = some x →
      Calls reg (.object obj, .reference name nullable description) (x, p.ty)

theorem Calls.consults {reg : SchemaRegistry} {v w : Value} {t s : IrType}
    (h : Calls reg (v, t) (w, s)) : Consults reg t s := by
  cases h with
  | item _ => exact .item
  | entry _ => exact .entry
  | member hm => exact .member hm
  | shape _ hget hshape => exact .shape hget hshape
  | property hget _ hp _ => exact .property hget hp

section Calls

variable {reg : SchemaRegistry}

theorem acceptsObject_returns {properties : List Property} (v : Value)
    (h : ∀ p ∈ properties, ∀ obj x, v = .object obj → obj.lookup p.name = some x →
      ∃ b, Returns (fun n => accepts reg n x p.ty) b) :
    ∃ b, Returns (fun n => acceptsObject (accepts reg n) v properties) b := by
  unfold acceptsObject
  cases v with
  | object obj =>
      refine exists_returns_mapM (fun p _ => acceptsProperties_stable reg obj p) ?_ _
      intro p hp
      cases hlookup : obj.lookup p.name with
      | some x => exact h p hp obj x rfl hlookup
      | none => exact ⟨_, returns_const.mpr rfl⟩
  | _ => exact ⟨_, returns_const.mpr rfl⟩

/-- The validator returns if every call it makes does. -/
theorem settles_of_calls {t : IrType} {v : Value}
    (ih : ∀ w s, Calls reg (v, t) (w, s) → Settles reg w s) : Settles reg v t := by
  simp only [settles_iff] at ih ⊢
  simp only [returns_accepts_succ]
  have hloop : ∀ {α : Type} (l : List α) (val : α → Value) (ty : α → IrType)
      (k : List Bool → Bool), (∀ a ∈ l, Calls reg (v, t) (val a, ty a)) →
      ∃ b, Returns (fun n => (l.mapM fun a => accepts reg n (val a) (ty a)).map k) b := by
    intro α l val ty k hl
    refine exists_returns_mapM (f := fun n a => accepts reg n (val a) (ty a)) ?_ ?_ k
    · exact fun a _ => accepts_stable reg (val a) (ty a)
    · exact fun a ha => ih (val a) (ty a) (hl a ha)
  cases t with
  | scalar s => exact ⟨_, returns_const.mpr rfl⟩
  | stringEnum variants nullable => exact ⟨_, returns_const.mpr rfl⟩
  | array item nullable =>
      simp only [accepts]
      cases nullable && v.isNull with
      | true => exact ⟨_, returns_const.mpr rfl⟩
      | false =>
          cases v with
          | array arr => exact hloop arr id (fun _ => item) _ fun _ hx => .item hx
          | _ => exact ⟨_, returns_const.mpr rfl⟩
  | map valTy =>
      simp only [accepts]
      cases v with
      | object obj => exact hloop obj Prod.snd (fun _ => valTy) _ fun _ he => .entry he
      | _ => exact ⟨_, returns_const.mpr rfl⟩
  | reference name nullable description =>
      simp only [accepts]
      cases hnull : nullable && v.isNull with
      | true => exact ⟨_, returns_const.mpr rfl⟩
      | false =>
          have hguard : ¬(nullable = true ∧ v = .null) := by
            rw [← Value.isNull_iff, ← Bool.and_eq_true, hnull]
            exact Bool.false_ne_true
          cases hget : reg.get name with
          | none => exact ⟨_, returns_const.mpr rfl⟩
          | some model =>
              cases model with
              | enum e => exact ⟨_, returns_const.mpr rfl⟩
              | object o =>
                  cases hshape : o.shapeType with
                  | some shape =>
                      simp only [hshape, Bool.false_eq_true, if_false]
                      exact ih v shape (.shape hguard hget hshape)
                  | none =>
                      simp only [hshape, Bool.false_eq_true, if_false]
                      refine acceptsObject_returns v fun p hp obj x hv hx => ?_
                      subst hv
                      exact ih x p.ty (.property hget hshape hp hx)
  | composition kind members discriminator =>
      cases kind with
      | allOf => exact hloop members (fun _ => v) id _ fun _ hm => .member hm
      | oneOf => exact hloop members (fun _ => v) id _ fun _ hm => .member hm
      | anyOf => exact hloop members (fun _ => v) id _ fun _ hm => .member hm
  | any => exact ⟨_, returns_const.mpr rfl⟩
  | unknown => exact ⟨_, returns_const.mpr rfl⟩

theorem accepts_callee {n : ℕ} {v w : Value} {t s : IrType} (hcall : Calls reg (v, t) (w, s))
    (h : (accepts reg (n + 1) v t).isSome) : (accepts reg n w s).isSome := by
  unfold accepts at h
  cases hcall with
  | item hx =>
      simp only [Value.isNull, Bool.and_false, Bool.false_eq_true, if_false,
        Value.asArray] at h
      exact isSome_of_mapM h hx
  | entry he => exact isSome_of_mapM h he
  | @member _ kind members discriminator m hm =>
      cases kind with
      | allOf => exact isSome_of_mapM h hm
      | oneOf => exact isSome_of_mapM h hm
      | anyOf => exact isSome_of_mapM h hm
  | shape hguard hget hshape =>
      rw [← Value.isNull_iff, ← Bool.and_eq_true] at hguard
      simp only [hguard, Bool.false_eq_true, if_false, hget, hshape] at h
      exact h
  | property hget hshape hp hx =>
      simp only [Value.isNull, Bool.and_false, Bool.false_eq_true, if_false, hget, hshape,
        acceptsObject, Value.asObject] at h
      have hprop := isSome_of_mapM h hp
      simp only [hx] at hprop
      exact hprop

theorem accepts_recurses (reg : SchemaRegistry) :
    Recurses (fun n (x : Value × IrType) => accepts reg n x.1 x.2) (Calls reg) where
  zero := fun _ => rfl
  returns := by
    rintro ⟨v, t⟩ ih
    exact settles_iff.mp (settles_of_calls fun w s hcall => settles_iff.mpr (ih (w, s) hcall))
  callee := fun _ _ _ hcall h => accepts_callee hcall h

/-- **The validator returns exactly where every chain of its calls ends.** -/
theorem settles_iff_acc {v : Value} {t : IrType} :
    Settles reg v t ↔ Acc (fun y x => Calls reg x y) (v, t) :=
  settles_iff.trans ((accepts_recurses reg).returns_iff_acc (v, t))

end Calls

/-- **On an acyclic registry the validator returns on every value.** -/
theorem settles_of_acyclic {reg : SchemaRegistry} (hac : reg.AcyclicRefs) (t : IrType) :
    ∀ v, Settles reg v t := by
  induction t using Consults.induction hac with
  | hstep t ih =>
      intro v
      exact settles_of_calls fun w s hcall => ih s hcall.consults w

end SpecForge
