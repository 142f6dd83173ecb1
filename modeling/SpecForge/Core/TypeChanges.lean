import SpecForge.Core.DiffAlgebra

/-!
# What counts as a changed type

Two types are `TypesAlike` when a document may replace one by the other without anyone
who reads a value noticing: they differ in descriptions, in discriminators and in
the order of enum variants only. `type_changed` looks at less and at more than that.
It compares the outlines of two types (§2), which stop at a map and at a
composition and have no `nullable` flags, but keep the variants of an enum in their
order. §3 names the pairs it therefore gets wrong and shows that there are no others.
-/

namespace SpecForge

/-! ## §1  Types that are alike -/

/-- The same constructors all the way down, with the same scalars, names, flags and
kinds. -/
inductive TypesAlike : IrType → IrType → Prop
  | scalar (s : Scalar) : TypesAlike (.scalar s) (.scalar s)
  | stringEnum {variants variants' : List String} (nullable : Bool)
      (hperm : variants.Perm variants') :
      TypesAlike (.stringEnum variants nullable) (.stringEnum variants' nullable)
  | array {item item' : IrType} (nullable : Bool) (hitem : TypesAlike item item') :
      TypesAlike (.array item nullable) (.array item' nullable)
  | map {value value' : IrType} (hvalue : TypesAlike value value') :
      TypesAlike (.map value) (.map value')
  | reference (name : String) (nullable : Bool) (description description' : Option String) :
      TypesAlike (.reference name nullable description) (.reference name nullable description')
  | composition {members members' : List IrType} (kind : CompositionKind)
      (discriminator discriminator' : Option Discriminator)
      (hlen : members.length = members'.length)
      (hmembers : ∀ (i : ℕ) (m m' : IrType), members[i]? = some m → members'[i]? = some m' →
        TypesAlike m m') :
      TypesAlike (.composition kind members discriminator)
        (.composition kind members' discriminator')
  | any : TypesAlike .any .any
  | unknown : TypesAlike .unknown .unknown

theorem TypesAlike.refl (t : IrType) : TypesAlike t t := by
  induction t using IrType.induction with
  | scalar s => exact .scalar s
  | stringEnum variants nullable => exact .stringEnum nullable (List.Perm.refl variants)
  | array item nullable ih => exact .array nullable ih
  | map value ih => exact .map ih
  | reference name nullable description => exact .reference name nullable description description
  | composition kind members discriminator ih =>
      apply TypesAlike.composition kind discriminator discriminator rfl
      intro i m m' hm hm'
      have heq : m = m' := Option.some.inj (hm.symm.trans hm')
      rw [← heq]
      exact ih m (List.mem_of_getElem? hm)
  | any => exact .any
  | unknown => exact .unknown

theorem TypesAlike.symm {s t : IrType} (h : TypesAlike s t) : TypesAlike t s := by
  induction h with
  | scalar s => exact .scalar s
  | stringEnum nullable hperm => exact .stringEnum nullable hperm.symm
  | array nullable _ ih => exact .array nullable ih
  | map _ ih => exact .map ih
  | reference name nullable description description' =>
      exact .reference name nullable description' description
  | composition kind discriminator discriminator' hlen _ ih =>
      apply TypesAlike.composition kind discriminator' discriminator hlen.symm
      intro i m m' hm hm'
      exact ih i m' m hm' hm
  | any => exact .any
  | unknown => exact .unknown

/-! ## §2  Outlines -/

/-- What `type_changed` sees of a type. -/
def IrType.outline : IrType → IrType
  | .scalar s => .scalar s
  | .stringEnum variants _ => .stringEnum variants false
  | .array item _ => .array item.outline false
  -- the match of the source has no arm for the next two, so only their constructor counts
  | .map _ => .map .any
  | .composition _ _ _ => .composition .allOf [] none
  | .reference name _ _ => .reference name false none
  | .any => .any
  | .unknown => .unknown

theorem typeChanged_eq_false_iff (s t : IrType) :
    typeChanged s t = false ↔ s.outline = t.outline := by
  induction s using IrType.induction generalizing t with
  | array item nullable ih =>
      cases t with
      | array item' nullable' => simp [typeChanged, IrType.outline, ih]
      | _ => simp [typeChanged, IrType.outline, discriminant]
  | scalar s => cases t <;> simp [typeChanged, IrType.outline, discriminant]
  | stringEnum variants nullable => cases t <;> simp [typeChanged, IrType.outline, discriminant]
  | reference name nullable description =>
      cases t <;> simp [typeChanged, IrType.outline, discriminant]
  | map value ih => cases t <;> simp [typeChanged, IrType.outline, discriminant]
  | composition kind members discriminator ih =>
      cases t <;> simp [typeChanged, IrType.outline, discriminant]
  | any => cases t <;> simp [typeChanged, IrType.outline, discriminant]
  | unknown => cases t <;> simp [typeChanged, IrType.outline, discriminant]

/-! ## §3  The pairs it gets wrong -/

/-- Enums, below arrays with the same flags, whose variants stand in another order. -/
inductive EnumsReordered : IrType → IrType → Prop
  | stringEnum {variants variants' : List String} (nullable : Bool)
      (hperm : variants.Perm variants') (hne : variants ≠ variants') :
      EnumsReordered (.stringEnum variants nullable) (.stringEnum variants' nullable)
  | array {item item' : IrType} (nullable : Bool) (hitem : EnumsReordered item item') :
      EnumsReordered (.array item nullable) (.array item' nullable)

/-- Types of one outline that differ where the outline has nothing: in a `nullable` flag, in the
values of a map, in a composition. -/
inductive Overlooked : IrType → IrType → Prop
  | stringEnum (variants : List String) {nullable nullable' : Bool} (hne : nullable ≠ nullable') :
      Overlooked (.stringEnum variants nullable) (.stringEnum variants nullable')
  | reference (name : String) {nullable nullable' : Bool}
      (description description' : Option String) (hne : nullable ≠ nullable') :
      Overlooked (.reference name nullable description) (.reference name nullable' description')
  | arrays {item item' : IrType} {nullable nullable' : Bool}
      (houtline : item.outline = item'.outline) (hne : nullable ≠ nullable') :
      Overlooked (.array item nullable) (.array item' nullable')
  | array {item item' : IrType} (nullable nullable' : Bool) (hitem : Overlooked item item') :
      Overlooked (.array item nullable) (.array item' nullable')
  | map {value value' : IrType} (hvalue : ¬ TypesAlike value value') :
      Overlooked (.map value) (.map value')
  | composition {kind kind' : CompositionKind} {members members' : List IrType}
      {discriminator discriminator' : Option Discriminator}
      (hne : ¬ TypesAlike (.composition kind members discriminator)
        (.composition kind' members' discriminator')) :
      Overlooked (.composition kind members discriminator)
        (.composition kind' members' discriminator')

theorem EnumsReordered.alike {s t : IrType} (h : EnumsReordered s t) : TypesAlike s t := by
  induction h with
  | stringEnum nullable hperm _ => exact .stringEnum nullable hperm
  | array nullable _ ih => exact .array nullable ih

theorem EnumsReordered.outline_ne {s t : IrType} (h : EnumsReordered s t) :
    s.outline ≠ t.outline := by
  induction h with
  | stringEnum nullable _ hne => simpa [IrType.outline] using hne
  | array nullable _ ih => simpa [IrType.outline] using ih

theorem Overlooked.not_typesAlike {s t : IrType} (h : Overlooked s t) : ¬ TypesAlike s t := by
  induction h with
  | stringEnum variants hne =>
      rintro ⟨⟩
      exact hne rfl
  | reference name description description' hne =>
      rintro ⟨⟩
      exact hne rfl
  | arrays _ hne =>
      rintro ⟨⟩
      exact hne rfl
  | array nullable nullable' _ ih =>
      intro halike
      cases halike with
      | array _ hitem => exact ih hitem
  | map hvalue =>
      intro halike
      cases halike with
      | map h => exact hvalue h
  | composition hne => exact hne

theorem Overlooked.outline_eq {s t : IrType} (h : Overlooked s t) : s.outline = t.outline := by
  induction h with
  | stringEnum variants hne => rfl
  | reference name description description' hne => rfl
  | arrays houtline _ => exact congrArg (IrType.array · false) houtline
  | array nullable nullable' _ ih => exact congrArg (IrType.array · false) ih
  | map hvalue => rfl
  | composition hne => rfl

theorem TypesAlike.outline_eq_or {s t : IrType} (h : TypesAlike s t) :
    s.outline = t.outline ∨ EnumsReordered s t := by
  induction h with
  | @stringEnum variants variants' nullable hperm =>
      by_cases heq : variants = variants'
      · exact Or.inl (by rw [heq])
      · exact Or.inr (.stringEnum nullable hperm heq)
  | array nullable _ ih =>
      rcases ih with heq | hre
      · exact Or.inl (congrArg (IrType.array · false) heq)
      · exact Or.inr (.array nullable hre)
  -- elsewhere the outline has only what the two types share
  | _ => exact Or.inl rfl

theorem typesAlike_or_overlooked {s t : IrType} (h : s.outline = t.outline) :
    TypesAlike s t ∨ Overlooked s t := by
  induction s using IrType.induction generalizing t with
  | scalar s =>
      cases t with
      | scalar s' =>
          obtain rfl : s = s' := by simpa [IrType.outline] using h
          exact Or.inl (.scalar s)
      | _ => simp [IrType.outline] at h
  | stringEnum variants nullable =>
      cases t with
      | stringEnum variants' nullable' =>
          obtain rfl : variants = variants' := by simpa [IrType.outline] using h
          by_cases hflag : nullable = nullable'
          · exact Or.inl (hflag ▸ .stringEnum nullable (List.Perm.refl variants))
          · exact Or.inr (.stringEnum variants hflag)
      | _ => simp [IrType.outline] at h
  | array item nullable ih =>
      cases t with
      | array item' nullable' =>
          have hitem : item.outline = item'.outline := by simpa [IrType.outline] using h
          by_cases hflag : nullable = nullable'
          · rcases ih hitem with halike | hover
            · exact Or.inl (hflag ▸ .array nullable halike)
            · exact Or.inr (.array nullable nullable' hover)
          · exact Or.inr (.arrays hitem hflag)
      | _ => simp [IrType.outline] at h
  | map value ih =>
      cases t with
      | map value' =>
          by_cases hvalue : TypesAlike value value'
          · exact Or.inl (.map hvalue)
          · exact Or.inr (.map hvalue)
      | _ => simp [IrType.outline] at h
  | reference name nullable description =>
      cases t with
      | reference name' nullable' description' =>
          obtain rfl : name = name' := by simpa [IrType.outline] using h
          by_cases hflag : nullable = nullable'
          · exact Or.inl (hflag ▸ .reference name nullable description description')
          · exact Or.inr (.reference name description description' hflag)
      | _ => simp [IrType.outline] at h
  | composition kind members discriminator ih =>
      cases t with
      | composition kind' members' discriminator' =>
          by_cases halike : TypesAlike (.composition kind members discriminator)
            (.composition kind' members' discriminator')
          · exact Or.inl halike
          · exact Or.inr (.composition halike)
      | _ => simp [IrType.outline] at h
  | any =>
      cases t with
      | any => exact Or.inl .any
      | _ => simp [IrType.outline] at h
  | unknown =>
      cases t with
      | unknown => exact Or.inl .unknown
      | _ => simp [IrType.outline] at h

/-- `type_changed` tells the types that are alike from the others on a pair exactly when the pair
is no reordered enum and has no difference that it overlooks. -/
theorem typeChanged_exact_iff (a b : IrType) :
    (typeChanged a b = false ↔ TypesAlike a b) ↔ ¬ EnumsReordered a b ∧ ¬ Overlooked a b := by
  rw [typeChanged_eq_false_iff]
  constructor
  · intro hexact
    constructor
    · intro hre
      exact hre.outline_ne (hexact.mpr hre.alike)
    · intro hover
      exact hover.not_typesAlike (hexact.mp hover.outline_eq)
  · rintro ⟨hre, hover⟩
    constructor
    · intro houtline
      exact (typesAlike_or_overlooked houtline).resolve_right hover
    · intro halike
      exact halike.outline_eq_or.resolve_right hre

/-- A map of strings that becomes a map of integers has not changed. -/
theorem typeChanged_not_exact :
    ¬ ∀ a b : IrType, typeChanged a b = false ↔ TypesAlike a b := by
  intro hall
  have hmap : TypesAlike (.map (.scalar .string)) (.map (.scalar .integer)) := (hall _ _).mp rfl
  cases hmap with
  | map hvalue => cases hvalue

end SpecForge
