import SpecForge.Core.Ir
import SpecForge.Lib.Acyclic
import SpecForge.Ts.Name

/-!
# What the Go and the Rust emitter share

Both declare one type for each model: a union, a struct that holds its base and then its own
properties, or another name of a type. §1 is their `pascal`, §2 how they take a model apart.
§3 is the size of a declared type, for declarations of any language.
-/

namespace SpecForge.Native

open Lib

/-! ## §1  PascalCase -/

/-- As in the TypeScript emitter, with an `X` for what is missing in front. -/
def pascalChars (input : List Char) : List Char :=
  match Ts.pascalLoop true input with
  | [] => ['X']
  | c :: cs => if c.isDigit then 'X' :: c :: cs else c :: cs

def pascal (input : String) : String := String.ofList (pascalChars input.toList)

theorem head_pascalChars (input : List Char) :
    ∃ c cs, pascalChars input = c :: cs ∧ c.isUpper = true := by
  unfold pascalChars
  rcases h : Ts.pascalLoop true input with _ | ⟨c, cs⟩
  · exact ⟨'X', [], rfl, rfl⟩
  · dsimp only
    split
    · exact ⟨'X', c :: cs, rfl, rfl⟩
    · next hdigit => exact ⟨c, cs, rfl, (Ts.head_pascalLoop h).resolve_right hdigit⟩

theorem alphanum_pascalChars (input : List Char) :
    ∀ c ∈ pascalChars input, c.isAlphanum = true := by
  have hloop := Ts.pascalLoop_alphanum true input
  unfold pascalChars
  rcases h : Ts.pascalLoop true input with _ | ⟨c, cs⟩
  · exact List.forall_mem_singleton.mpr rfl
  · rw [h] at hloop
    dsimp only
    split
    · exact List.forall_mem_cons.mpr ⟨rfl, hloop⟩
    · exact hloop

/-- A text that starts with a capital letter. -/
def Capitalised (s : String) : Prop := ∃ c cs, s.toList = c :: cs ∧ c.isUpper = true

theorem capitalised_pascal (input : String) : Capitalised (pascal input) := by
  obtain ⟨c, cs, h, hc⟩ := head_pascalChars input.toList
  exact ⟨c, cs, String.toList_ofList.trans h, hc⟩

theorem Capitalised.append {s : String} (h : Capitalised s) (t : String) :
    Capitalised (s ++ t) := by
  obtain ⟨c, cs, hs, hc⟩ := h
  exact ⟨c, cs ++ t.toList, by rw [String.toList_append, hs, List.cons_append], hc⟩

/-- A capital letter with letters and digits behind it is its own PascalCase form. -/
theorem pascal_eq_self {w : String} (hw : Capitalised w)
    (hall : ∀ c ∈ w.toList, c.isAlphanum = true) : pascal w = w := by
  obtain ⟨c, cs, hcs, hc⟩ := hw
  rw [hcs, List.forall_mem_cons] at hall
  have hloop : Ts.pascalLoop true (c :: cs) = c :: cs := by
    rw [Ts.pascalLoop, if_pos hall.1, if_pos rfl,
      Ascii.toUpper_eq_self (Ascii.isLower_eq_false_of_isUpper hc),
      Ts.pascalLoop_false_eq_self hall.2]
  rw [← String.toList_inj, pascal, String.toList_ofList, hcs, pascalChars, hloop]
  dsimp only
  rw [Ascii.isDigit_eq_false_of_isUpper hc]
  rfl

/-- A text of letters and digits behind a PascalCase form leaves it one. -/
theorem pascal_pascal_append (input : String) {t : String}
    (ht : ∀ c ∈ t.toList, c.isAlphanum = true) : pascal (pascal input ++ t) = pascal input ++ t := by
  refine pascal_eq_self ((capitalised_pascal input).append t) fun c hc => ?_
  rw [String.toList_append, List.mem_append] at hc
  rcases hc with hc | hc
  · rw [pascal, String.toList_ofList] at hc
    exact alphanum_pascalChars _ c hc
  · exact ht c hc

/-! ## §2  Models -/

/-- The base that is embedded or flattened. -/
def baseName (o : ObjectModel) : Option String :=
  match o.baseType with
  | some (.reference base _ _) => some base
  | _ => none

/-- The base declares a property of that name. -/
def fromBase (schemas : SchemaRegistry) (o : ObjectModel) (p : Property) : Bool :=
  match baseName o with
  | some base =>
      match schemas.get base with
      | some (.object b) => b.properties.any fun bp => bp.name == p.name
      | _ => false
  | none => false

def ownProperties (schemas : SchemaRegistry) (o : ObjectModel) : List Property :=
  o.properties.filter fun p => !fromBase schemas o p

/-- The members of a `oneOf` or `anyOf` without properties of its own. -/
def unionMembers (o : ObjectModel) : Option (List IrType) :=
  match o.shapeType with
  | some (.composition kind members _) =>
      if (kind == .oneOf || kind == .anyOf) && o.properties.isEmpty then some members else none
  | _ => none

/-- The reference arms of a union. -/
def referenceArms (members : List IrType) : List String :=
  members.filterMap fun
    | .reference name _ _ => some name
    | _ => none

theorem unionMembers_eq_some_iff {o : ObjectModel} {members : List IrType} :
    unionMembers o = some members ↔ o.properties = [] ∧
      ∃ kind discriminator, o.shapeType = some (.composition kind members discriminator) ∧
        kind ≠ .allOf := by
  unfold unionMembers
  constructor
  · intro h
    split at h
    · next kind members' discriminator hshape =>
        split at h
        · next htest =>
            cases h
            rw [Bool.and_eq_true, List.isEmpty_iff] at htest
            refine ⟨htest.2, kind, discriminator, hshape, ?_⟩
            rintro rfl
            cases htest.1
        · cases h
    · cases h
  · rintro ⟨hprops, kind, discriminator, hshape, hkind⟩
    rw [hshape, hprops]
    cases kind with
    | allOf => exact absurd rfl hkind
    | oneOf => rfl
    | anyOf => rfl

theorem unionMembers_of_properties {o : ObjectModel} (h : o.properties ≠ []) :
    unionMembers o = none := by
  cases hm : unionMembers o with
  | none => rfl
  | some members => exact absurd (unionMembers_eq_some_iff.mp hm).1 h

theorem baseName_eq_some_iff {o : ObjectModel} {base : String} : baseName o = some base ↔
    ∃ nullable description, o.baseType = some (.reference base nullable description) := by
  unfold baseName
  constructor
  · intro h
    split at h
    · next base' nullable description hbase =>
        cases h
        exact ⟨nullable, description, hbase⟩
    · cases h
  · rintro ⟨nullable, description, hbase⟩
    rw [hbase]

theorem mem_referenceArms {members : List IrType} {name : String} :
    name ∈ referenceArms members ↔
      ∃ nullable description, .reference name nullable description ∈ members := by
  rw [referenceArms, List.mem_filterMap]
  constructor
  · rintro ⟨t, ht, heq⟩
    split at heq
    · next name' nullable description =>
        cases heq
        exact ⟨nullable, description, ht⟩
    · cases heq
  · rintro ⟨nullable, description, ht⟩
    exact ⟨_, ht, rfl⟩

theorem mem_ownProperties {schemas : SchemaRegistry} {o : ObjectModel} {p : Property} :
    p ∈ ownProperties schemas o ↔ p ∈ o.properties ∧ fromBase schemas o p = false := by
  rw [ownProperties, List.mem_filter, Bool.not_eq_true']

/-! ## §3  Sizes -/

section Sizes

variable {D : Type} (declOf : String → Option D) (name : D → String) (byValue : D → List String)

/-- The declaration for `M` holds the type of `N` by value. -/
def HoldsByValue (M N : String) : Prop :=
  ∃ decl decl', declOf M = some decl ∧ declOf N = some decl' ∧ name decl' ∈ byValue decl

/-- The schemas whose types the declaration for `M` holds. -/
def heldSchemas (schemas : List String) (M : String) : List String :=
  match declOf M with
  | some decl => schemas.filter fun N => (declOf N).any fun decl' =>
      (byValue decl).contains (name decl')
  | none => []

variable {declOf name byValue}

theorem mem_heldSchemas {schemas : List String} (hdecl : ∀ N decl, declOf N = some decl →
    N ∈ schemas) {M N : String} : N ∈ heldSchemas declOf name byValue schemas M ↔
      HoldsByValue declOf name byValue M N := by
  unfold heldSchemas HoldsByValue
  cases hM : declOf M with
  | none => simp
  | some decl =>
      simp only [List.mem_filter, Option.any_eq_true, List.contains_iff_mem, Option.some.injEq]
      constructor
      · rintro ⟨-, decl', hN, hmem⟩
        exact ⟨decl, decl', rfl, hN, hmem⟩
      · rintro ⟨_, decl', rfl, hN, hmem⟩
        exact ⟨hdecl N decl' hN, decl', hN, hmem⟩

/-- Every declared type has a finite size exactly if none of them comes to hold itself. -/
theorem acyclic_holdsByValue_iff {schemas : List String} (hdecl : ∀ N decl, declOf N = some decl →
    N ∈ schemas) : Acyclic (HoldsByValue declOf name byValue) ↔ ∃ size : String → ℕ,
      ∀ M, size M = 1 + ((heldSchemas declOf name byValue schemas M).map size).sum := by
  have hrel : HoldsByValue declOf name byValue =
      fun M N => N ∈ heldSchemas declOf name byValue schemas M := by
    ext M N
    exact (mem_heldSchemas hdecl).symm
  rw [hrel]
  refine acyclic_iff_exists_size schemas fun M N hmem => ?_
  obtain ⟨decl, -, hM, -⟩ := (mem_heldSchemas hdecl).mp hmem
  exact hdecl M decl hM

end Sizes

end SpecForge.Native
