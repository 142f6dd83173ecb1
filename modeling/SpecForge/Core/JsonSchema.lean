import SpecForge.Core.Json

/-!
# JSON Schema

The forms of schema that a description of tagged JSON is made of, and what it means that a
value is valid (§1). A reference may lead back to where it stands, so a verdict is reached
under a bound on the depth; `Verdict` is the one that every large enough bound gives. §2 has a
rule for each form, §3 the rule for a union of references of which one only admits the value.
-/

namespace SpecForge

/-! ## §1  Schemas -/

inductive JsonType where
  | null
  | boolean
  | object
  | array
  | number
  | string
deriving DecidableEq

def JsonType.of : Value → JsonType
  | .null => .null
  | .bool _ => .boolean
  | .object _ => .object
  | .array _ => .array
  | .number _ => .number
  | .string _ => .string

inductive JsonSchema where
  /-- `true` and `false`. -/
  | bool (b : Bool)
  /-- `$ref` to an entry of `$defs`. -/
  | ref (name : String)
  | oneOf (schemas : List JsonSchema)
  | type (types : List JsonType)
  /-- A string that is one of these; one of them only is a `const`. -/
  | enum (values : List String)
  | array (items : JsonSchema)
  | object (required : List String) (properties : List (String × JsonSchema))
      (additionalProperties : JsonSchema)

namespace JsonSchema

section

variable (defs : List (String × JsonSchema))

/-- Is the value valid? No, if the depth does not do. -/
def validate : ℕ → JsonSchema → Value → Bool
  | 0, _, _ => false
  | n + 1, schema, v =>
      match schema with
      | .bool b => b
      | .ref name =>
          match defs.lookup name with
          | some s => validate n s v
          | none => false
      | .oneOf schemas => (schemas.map fun s => validate n s v).count true == 1
      | .type types => types.contains (JsonType.of v)
      | .enum values =>
          match v with
          | .string s => values.contains s
          | _ => false
      | .array items =>
          match v with
          | .array vs => vs.all (validate n items)
          | _ => false
      | .object required properties additionalProperties =>
          match v with
          | .object entries =>
              (required.all fun k => (entries.lookup k).isSome) && entries.all fun e =>
                validate n ((properties.lookup e.1).getD additionalProperties) e.2
          | _ => false

section Steps

variable {n : ℕ} {v : Value}

theorem validate_ref {name : String} {s : JsonSchema} (hdef : defs.lookup name = some s) :
    validate defs (n + 1) (.ref name) v = validate defs n s v := by
  change (match defs.lookup name with
    | some s => validate defs n s v
    | none => false) = validate defs n s v
  rw [hdef]

theorem validate_oneOf (schemas : List JsonSchema) : validate defs (n + 1) (.oneOf schemas) v =
    ((schemas.map fun s => validate defs n s v).count true == 1) := rfl

theorem validate_array (items : JsonSchema) (vs : List Value) :
    validate defs (n + 1) (.array items) (.array vs) = vs.all (validate defs n items) := rfl

theorem validate_object (required : List String) (properties : List (String × JsonSchema))
    (additionalProperties : JsonSchema) (entries : List (String × Value)) :
    validate defs (n + 1) (.object required properties additionalProperties) (.object entries) =
      ((required.all fun k => (entries.lookup k).isSome) && entries.all fun e =>
        validate defs n ((properties.lookup e.1).getD additionalProperties) e.2) := rfl

end Steps

/-- The verdict on a value, whatever the depth, if it is large enough. -/
def Verdict (schema : JsonSchema) (v : Value) (b : Bool) : Prop :=
  ∃ N, ∀ n, N ≤ n → validate defs n schema v = b

def Valid (schema : JsonSchema) (v : Value) : Prop := Verdict defs schema v true

end

/-! ## §2  Verdicts -/

section Rules

variable {defs : List (String × JsonSchema)} {s : JsonSchema} {v : Value} {b : Bool}

theorem Verdict.unique {b' : Bool} (h : Verdict defs s v b) (h' : Verdict defs s v b') :
    b = b' := by
  obtain ⟨N, hN⟩ := h
  obtain ⟨N', hN'⟩ := h'
  rw [← hN (max N N') (Nat.le_max_left N N'), hN' (max N N') (Nat.le_max_right N N')]

theorem not_valid_of_verdict (h : Verdict defs s v false) : ¬Valid defs s v :=
  fun hvalid => Bool.noConfusion (h.unique hvalid)

/-- One more step than what the verdicts it rests on need. -/
theorem verdict_of_succ {N : ℕ} (h : ∀ n, N ≤ n → validate defs (n + 1) s v = b) :
    Verdict defs s v b := by
  refine ⟨N + 1, fun n hn => ?_⟩
  cases n with
  | zero => omega
  | succ n => exact h n (Nat.le_of_succ_le_succ hn)

/-- One depth for several values at once. -/
theorem exists_common_depth {α : Type} {schema : α → JsonSchema} {value : α → Value}
    {l : List α} {verdicts : List Bool}
    (h : List.Forall₂ (fun a b => Verdict defs (schema a) (value a) b) l verdicts) :
    ∃ N, ∀ n, N ≤ n → (l.map fun a => validate defs n (schema a) (value a)) = verdicts := by
  induction h with
  | nil => exact ⟨0, fun _ _ => rfl⟩
  | cons ha _ ih =>
      obtain ⟨N, hN⟩ := ha
      obtain ⟨M, hM⟩ := ih
      refine ⟨max N M, fun n hn => ?_⟩
      rw [List.map_cons, hN n (Nat.le_trans (Nat.le_max_left N M) hn),
        hM n (Nat.le_trans (Nat.le_max_right N M) hn)]

theorem forall₂_verdicts {α : Type} {schema : α → JsonSchema} {value : α → Value}
    {verdict : α → Bool} {l : List α}
    (h : ∀ a ∈ l, Verdict defs (schema a) (value a) (verdict a)) :
    List.Forall₂ (fun a b => Verdict defs (schema a) (value a) b) l (l.map verdict) := by
  rw [List.forall₂_map_right_iff, List.forall₂_same]
  exact h

theorem verdict_bool : Verdict defs (.bool b) v b :=
  verdict_of_succ (N := 0) fun _ _ => rfl

theorem verdict_ref {name : String} (hdef : defs.lookup name = some s)
    (h : Verdict defs s v b) : Verdict defs (.ref name) v b := by
  obtain ⟨N, hN⟩ := h
  refine verdict_of_succ (N := N) fun n hn => ?_
  rw [validate_ref defs hdef]
  exact hN n hn

theorem verdict_type {types : List JsonType} :
    Verdict defs (.type types) v (types.contains (JsonType.of v)) :=
  verdict_of_succ (N := 0) fun _ _ => rfl

theorem verdict_enum {values : List String} {x : String} :
    Verdict defs (.enum values) (.string x) (values.contains x) :=
  verdict_of_succ (N := 0) fun _ _ => rfl

theorem verdict_array {α : Type} {items : JsonSchema} {l : List α} {value : α → Value}
    {verdict : α → Bool} (h : ∀ a ∈ l, Verdict defs items (value a) (verdict a)) :
    Verdict defs (.array items) (.array (l.map value)) (l.all verdict) := by
  obtain ⟨N, hN⟩ := exists_common_depth (forall₂_verdicts h)
  refine verdict_of_succ (N := N) fun n hn => ?_
  have hall := congrArg (List.all · id) (hN n hn)
  simpa [validate_array, Function.comp_def] using hall

theorem verdict_oneOf {schemas : List JsonSchema} {verdicts : List Bool}
    (h : List.Forall₂ (fun s b => Verdict defs s v b) schemas verdicts) :
    Verdict defs (.oneOf schemas) v (verdicts.count true == 1) := by
  obtain ⟨N, hN⟩ := exists_common_depth h
  refine verdict_of_succ (N := N) fun n hn => ?_
  rw [validate_oneOf, hN n hn]

/-- A value or `null`. -/
theorem verdict_oneOf_null (hv : JsonType.of v ≠ .null) (h : Verdict defs s v b) :
    Verdict defs (.oneOf [s, .type [.null]]) v b := by
  have hnull : [JsonType.null].contains (JsonType.of v) = false := by simpa using hv
  have hone := verdict_oneOf (.cons h (.cons (hnull ▸ verdict_type) .nil))
  cases b with
  | true => exact hone
  | false => exact hone

section Object

variable {required : List String} {properties : List (String × JsonSchema)}
  {additionalProperties : JsonSchema} {entries : List (String × Value)}

/-- An object without a missing entry is valid if all its entries are. -/
theorem verdict_object {verdicts : List Bool}
    (hrequired : (required.all fun k => (entries.lookup k).isSome) = true)
    (h : List.Forall₂ (fun e b => Verdict defs
      ((properties.lookup e.1).getD additionalProperties) e.2 b) entries verdicts)
    (hverdicts : verdicts.all id = b) :
    Verdict defs (.object required properties additionalProperties) (.object entries) b := by
  obtain ⟨N, hN⟩ := exists_common_depth h
  refine verdict_of_succ (N := N) fun n hn => ?_
  rw [validate_object, hrequired, Bool.true_and, ← hverdicts, ← hN n hn, List.all_map]
  rfl

/-- An object without names of its own, as the image of a map. -/
theorem verdict_object_map {V : Type} {value : V → Value} {verdict : String × V → Bool}
    {l : List (String × V)} (h : ∀ e ∈ l, Verdict defs s (value e.2) (verdict e)) :
    Verdict defs (.object [] [] s) (.object (l.map fun e => (e.1, value e.2)))
      (l.all verdict) := by
  apply verdict_object rfl
  · rw [List.forall₂_map_left_iff]
    exact forall₂_verdicts h
  · rw [List.all_map]
    rfl

/-- A closed object admits no entry that it does not name. -/
theorem verdict_object_extra {e : String × Value} (he : e ∈ entries)
    (hkey : properties.lookup e.1 = none) :
    Verdict defs (.object required properties (.bool false)) (.object entries) false := by
  refine verdict_of_succ (N := 1) fun n hn => ?_
  obtain ⟨n, rfl⟩ := Nat.exists_eq_add_of_le' hn
  rw [validate_object, Bool.and_eq_false_iff]
  refine Or.inr (List.all_eq_false.mpr ⟨e, he, ?_⟩)
  rw [hkey]
  exact Bool.false_ne_true

theorem verdict_object_missing {k : String} (hk : k ∈ required)
    (hkey : entries.lookup k = none) :
    Verdict defs (.object required properties additionalProperties) (.object entries) false := by
  refine verdict_of_succ (N := 0) fun n _ => ?_
  rw [validate_object, Bool.and_eq_false_iff]
  refine Or.inl (List.all_eq_false.mpr ⟨k, hk, ?_⟩)
  rw [hkey]
  exact Bool.false_ne_true

end Object

end Rules

/-! ## §3  Variants -/

/-- Does the schema leave room for an object with this key? -/
def admits (k : String) : JsonSchema → Bool
  | .object _ properties (.bool false) => (properties.lookup k).isSome
  | .enum _ => false
  | _ => true

section Variants

variable {defs : List (String × JsonSchema)} {s : JsonSchema} {v : Value} {b : Bool}

theorem verdict_of_not_admits {entries : List (String × Value)} {e : String × Value}
    (he : e ∈ entries) (h : s.admits e.1 = false) :
    Verdict defs s (.object entries) false := by
  unfold admits at h
  split at h
  · exact verdict_object_extra he (Option.not_isSome_iff_eq_none.mp (by simp [h]))
  · exact verdict_of_succ (N := 0) fun _ _ => rfl
  · exact absurd h (by decide)

/-- A union of references, the others of which do not admit the value. -/
theorem verdict_oneOf_ref {names : List String} {name : String} (hone : names.count name = 1)
    (h : Verdict defs (.ref name) v b)
    (hothers : ∀ n ∈ names, n ≠ name → Verdict defs (.ref n) v false) :
    Verdict defs (.oneOf (names.map .ref)) v b := by
  have hverdicts : ∀ n ∈ names, Verdict defs (.ref n) v (n == name && b) := by
    intro n hn
    by_cases hname : n = name
    · subst hname
      rw [beq_self_eq_true, Bool.true_and]
      exact h
    · rw [beq_eq_false_iff_ne.mpr hname, Bool.false_and]
      exact hothers n hn hname
  have hunion : Verdict defs (.oneOf (names.map .ref)) v
      ((names.map fun n => n == name && b).count true == 1) := by
    apply verdict_oneOf
    rw [List.forall₂_map_left_iff]
    exact forall₂_verdicts hverdicts
  have hcount : ((names.map fun n => n == name && b).count true == 1) = b := by
    cases b with
    | true => simpa [List.count, List.countP_map, Function.comp_def] using hone
    | false => simp [List.count_replicate]
  rw [hcount] at hunion
  exact hunion

/-- The variant of an enumeration that the key of the object stands for. -/
theorem verdict_oneOf_ref_object {names : List String} {name : String}
    {entries : List (String × Value)} {e : String × Value} (he : e ∈ entries)
    (hone : names.count name = 1) (h : Verdict defs (.ref name) (.object entries) b)
    (hothers : ∀ n ∈ names, n ≠ name → (defs.lookup n).map (admits e.1) = some false) :
    Verdict defs (.oneOf (names.map .ref)) (.object entries) b := by
  apply verdict_oneOf_ref hone h
  intro n hn hname
  obtain ⟨s, hdef, hadmits⟩ := Option.map_eq_some_iff.mp (hothers n hn hname)
  exact verdict_ref hdef (verdict_of_not_admits he hadmits)

end Variants

end JsonSchema

end SpecForge
