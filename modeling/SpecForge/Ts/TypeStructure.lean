import SpecForge.Ts.TypePrecedence

/-!
# When rendered types keep their structure

The operands of what a rendered type is read as are neither unions nor intersections, so
its arms can be counted (§1, §2). A type that keeps its structure loses no name on the way
(§3), which rules out nullable arrays; without these the counts of §4 tell the members of
a composition apart. §5 the exact condition.
-/

namespace SpecForge.Ts

open Lib
open Lib.Infix
open TypeExpr (unionOf interOf ofArms mkUnion mkInter)

namespace TypeExpr

/-! ## §1  Unions and intersections of at least two -/

/-- Neither a union nor an intersection. -/
def Atom : TypeExpr → Prop
  | union _ => False
  | inter _ => False
  | _ => True

theorem Atom.arms {e : TypeExpr} (h : e.Atom) : e.arms = [e] := by
  rcases e with _ | _ | _ | _ | _ | _
  all_goals first | rfl | exact h.elim

theorem Atom.operands {e : TypeExpr} (h : e.Atom) : e.operands = [e] := by
  rcases e with _ | _ | _ | _ | _ | _
  all_goals first | rfl | exact h.elim

/-- A union or an intersection of one is that one. -/
structure Normal (e : TypeExpr) : Prop where
  union : mkUnion e.arms = e
  inter : mkInter e.operands = e

theorem Atom.normal {e : TypeExpr} (h : e.Atom) : e.Normal where
  union := by rw [h.arms]; rfl
  inter := by rw [h.operands]; rfl

theorem unionOf_singleton {e : TypeExpr} (h : e.Normal) : unionOf [e] = e := by
  rw [unionOf, List.flatMap_singleton, h.union]

theorem interOf_singleton {e : TypeExpr} (h : e.Normal) : interOf [e] = e := by
  rw [interOf, List.flatMap_singleton, h.inter]

/-- A union of one is that one, and no other union is changed. -/
theorem unionOf_cases {es : List TypeExpr} (h : ∀ e ∈ es, e.Normal) :
    (∃ e, es = [e] ∧ unionOf es = e) ∨
      unionOf es = union (es.flatMap arms) ∧ (es.flatMap arms).length ≠ 1 := by
  rcases hflat : es.flatMap arms with _ | ⟨a, _ | ⟨b, as⟩⟩
  · exact Or.inr ⟨by rw [unionOf, hflat]; rfl, by decide⟩
  · obtain ⟨e, rfl, -⟩ := of_flatMap_eq_singleton (fun e _ => arms_ne_nil e) hflat
    exact Or.inl ⟨e, rfl, unionOf_singleton (h e List.mem_cons_self)⟩
  · exact Or.inr ⟨by rw [unionOf, hflat]; rfl, by simp⟩

theorem interOf_cases {es : List TypeExpr} (h : ∀ e ∈ es, e.Normal) :
    (∃ e, es = [e] ∧ interOf es = e) ∨
      interOf es = inter (es.flatMap operands) ∧ (es.flatMap operands).length ≠ 1 := by
  rcases hflat : es.flatMap operands with _ | ⟨a, _ | ⟨b, as⟩⟩
  · exact Or.inr ⟨by rw [interOf, hflat]; rfl, by decide⟩
  · obtain ⟨e, rfl, -⟩ := of_flatMap_eq_singleton (fun e _ => operands_ne_nil e) hflat
    exact Or.inl ⟨e, rfl, interOf_singleton (h e List.mem_cons_self)⟩
  · exact Or.inr ⟨by rw [interOf, hflat]; rfl, by simp⟩

theorem arms_unionOf {es : List TypeExpr} (hne : es ≠ []) (h : ∀ e ∈ es, e.Normal) :
    (unionOf es).arms = es.flatMap arms := by
  rcases unionOf_cases h with ⟨e, rfl, he⟩ | ⟨he, -⟩
  · rw [he, List.flatMap_singleton]
  · rw [he]
    rcases hflat : es.flatMap arms with _ | ⟨a, as⟩
    · exact absurd hflat ((flatMap_ne_nil arms_ne_nil).mpr hne)
    · rfl

theorem operands_interOf {es : List TypeExpr} (hne : es ≠ []) (h : ∀ e ∈ es, e.Normal) :
    (interOf es).operands = es.flatMap operands := by
  rcases interOf_cases h with ⟨e, rfl, he⟩ | ⟨he, -⟩
  · rw [he, List.flatMap_singleton]
  · rw [he]
    rcases hflat : es.flatMap operands with _ | ⟨a, as⟩
    · exact absurd hflat ((flatMap_ne_nil operands_ne_nil).mpr hne)
    · rfl

theorem normal_unionOf {es : List TypeExpr} (h : ∀ e ∈ es, e.Normal) : (unionOf es).Normal := by
  rcases unionOf_cases h with ⟨e, rfl, he⟩ | ⟨he, hlen⟩
  · rw [he]
    exact h e List.mem_cons_self
  · rw [he]
    refine ⟨?_, rfl⟩
    rcases hflat : es.flatMap arms with _ | ⟨a, _ | ⟨b, as⟩⟩
    · rfl
    · rw [hflat] at hlen
      exact absurd rfl hlen
    · rfl

theorem normal_interOf {es : List TypeExpr} (h : ∀ e ∈ es, e.Normal) : (interOf es).Normal := by
  rcases interOf_cases h with ⟨e, rfl, he⟩ | ⟨he, hlen⟩
  · rw [he]
    exact h e List.mem_cons_self
  · rw [he]
    refine ⟨rfl, ?_⟩
    rcases hflat : es.flatMap operands with _ | ⟨a, _ | ⟨b, as⟩⟩
    · rfl
    · rw [hflat] at hlen
      exact absurd rfl hlen
    · rfl

theorem eq_of_arms_eq {e e' : TypeExpr} (he : e.Normal) (he' : e'.Normal) (h : e.arms = e'.arms) :
    e = e' := by
  rw [← he.union, h, he'.union]

theorem eq_of_operands_eq {e e' : TypeExpr} (he : e.Normal) (he' : e'.Normal)
    (h : e.operands = e'.operands) : e = e' := by
  rw [← he.inter, h, he'.inter]

/-! ## §2  Arms of atoms -/

/-- Arms that all have operands, each an atom. -/
structure Atoms (F : List (List TypeExpr)) : Prop where
  full : Full F
  atom : ∀ a ∈ F, ∀ e ∈ a, Atom e

theorem flatMap_operands_atoms {a : List TypeExpr} (h : ∀ e ∈ a, Atom e) :
    a.flatMap operands = a := by
  induction a with
  | nil => rfl
  | cons e a ih =>
      rw [List.forall_mem_cons] at h
      rw [List.flatMap_cons, h.1.operands, ih h.2]
      rfl

theorem interOf_atoms {a : List TypeExpr} (h : ∀ e ∈ a, Atom e) : interOf a = mkInter a := by
  rw [interOf, flatMap_operands_atoms h]

theorem arms_mkInter {a : List TypeExpr} (h : ∀ e ∈ a, Atom e) : (mkInter a).arms = [mkInter a] := by
  rcases a with _ | ⟨e, _ | ⟨e', a⟩⟩
  · rfl
  · exact (h e List.mem_cons_self).arms
  · rfl

theorem operands_mkInter {a : List TypeExpr} (hne : a ≠ []) (h : ∀ e ∈ a, Atom e) :
    (mkInter a).operands = a := by
  rcases a with _ | ⟨e, _ | ⟨e', a⟩⟩
  · exact absurd rfl hne
  · exact (h e List.mem_cons_self).operands
  · rfl

theorem normal_ofArms {F : List (List TypeExpr)} (h : Atoms F) : (ofArms F).Normal := by
  refine normal_unionOf ?_
  rw [List.forall_mem_map]
  exact fun a ha => normal_interOf fun e he => (h.atom a ha e he).normal

theorem arms_ofArms {F : List (List TypeExpr)} (h : Atoms F) :
    (ofArms F).arms = F.map mkInter := by
  have hinter : ∀ a ∈ F, (interOf a).arms = [mkInter a] := by
    intro a ha
    rw [interOf_atoms (h.atom a ha), arms_mkInter (h.atom a ha)]
  have hne : F.map interOf ≠ [] := by
    rw [ne_eq, List.map_eq_nil_iff]
    exact h.full.ne_nil
  rw [ofArms, arms_unionOf hne, List.flatMap_map, List.map_eq_flatMap]
  · exact List.flatMap_congr hinter
  · rw [List.forall_mem_map]
    exact fun a ha => normal_interOf fun e he => (h.atom a ha e he).normal

theorem ofArms_singleton {a : List TypeExpr} (h : ∀ e ∈ a, Atom e) : ofArms [a] = mkInter a := by
  rw [ofArms, List.map_singleton, interOf_atoms h, unionOf, List.flatMap_singleton,
    arms_mkInter h]
  rfl

/-! ## §3  Names that are read -/

mutual

/-- How many names and literals the expression has. -/
def leaves : TypeExpr → Nat
  | name _ => 1
  | literal _ => 1
  | generic _ args => leavesOf args
  | array item => item.leaves
  | union as => leavesOf as
  | inter as => leavesOf as

def leavesOf : List TypeExpr → Nat
  | [] => 0
  | e :: es => e.leaves + leavesOf es

end

theorem leavesOf_eq : ∀ es : List TypeExpr, leavesOf es = (es.map leaves).sum
  | [] => rfl
  | e :: es => by rw [leavesOf, leavesOf_eq es, List.map_cons, List.sum_cons]

theorem leavesOf_append (es es' : List TypeExpr) :
    leavesOf (es ++ es') = leavesOf es + leavesOf es' := by
  rw [leavesOf_eq, leavesOf_eq, leavesOf_eq, List.map_append, List.sum_append]

theorem leavesOf_singleton (e : TypeExpr) : leavesOf [e] = e.leaves := by
  rw [leavesOf, leavesOf, Nat.add_zero]

theorem leavesOf_arms (e : TypeExpr) : leavesOf e.arms = e.leaves := by
  unfold arms
  split
  · rw [leaves]
  · exact leavesOf_singleton _

theorem leavesOf_operands (e : TypeExpr) : leavesOf e.operands = e.leaves := by
  unfold operands
  split
  · rw [leaves]
  · exact leavesOf_singleton _

theorem leavesOf_flatMap {γ : Type} {f g : γ → List TypeExpr} : ∀ {l : List γ},
    (∀ x ∈ l, leavesOf (f x) = leavesOf (g x)) → leavesOf (l.flatMap f) = leavesOf (l.flatMap g)
  | [], _ => rfl
  | x :: l, h => by
      rw [List.forall_mem_cons] at h
      rw [List.flatMap_cons, List.flatMap_cons, leavesOf_append, leavesOf_append, h.1,
        leavesOf_flatMap h.2]

theorem leaves_mkUnion (es : List TypeExpr) : (mkUnion es).leaves = leavesOf es := by
  unfold mkUnion
  split
  · exact (leavesOf_singleton _).symm
  · rw [leaves]

theorem leaves_mkInter (es : List TypeExpr) : (mkInter es).leaves = leavesOf es := by
  unfold mkInter
  split
  · exact (leavesOf_singleton _).symm
  · rw [leaves]

theorem leaves_unionOf (es : List TypeExpr) : (unionOf es).leaves = leavesOf es := by
  have hparts : ∀ e ∈ es, leavesOf e.arms = leavesOf [e] := by
    intro e _
    rw [leavesOf_arms, leavesOf_singleton]
  rw [unionOf, leaves_mkUnion, leavesOf_flatMap hparts, List.flatMap_singleton']

theorem leaves_interOf (es : List TypeExpr) : (interOf es).leaves = leavesOf es := by
  have hparts : ∀ e ∈ es, leavesOf e.operands = leavesOf [e] := by
    intro e _
    rw [leavesOf_operands, leavesOf_singleton]
  rw [interOf, leaves_mkInter, leavesOf_flatMap hparts, List.flatMap_singleton']

theorem leaves_ofArms (F : List (List TypeExpr)) : (ofArms F).leaves = leavesOf F.flatten := by
  rw [ofArms, leaves_unionOf]
  induction F with
  | nil => rfl
  | cons a F ih =>
      rw [List.map_cons, leavesOf, ih, leaves_interOf, List.flatten_cons, leavesOf_append]

theorem leavesOf_onLast (F : List (List TypeExpr)) :
    leavesOf (onLast array F).flatten = leavesOf F.flatten := by
  have harray : ∀ e : TypeExpr, (array e).leaves = e.leaves := fun e => by rw [leaves]
  rw [leavesOf_eq, leavesOf_eq, map_flatten_onLast harray]

end TypeExpr

open TypeExpr (Atom Atoms Normal leaves leavesOf)

mutual

/-- How many arrays with a `nullable` flag the type has. -/
def nullableArrays : IrType → Nat
  | .array item nullable => nullableArrays item + nullable.toNat
  | .map value => nullableArrays value
  | .composition _ members _ => nullableArraysOfMembers members
  | _ => 0

def nullableArraysOfMembers : List IrType → Nat
  | [] => 0
  | m :: ms => nullableArrays m + nullableArraysOfMembers ms

end

theorem nullableArraysOfMembers_eq_zero : ∀ {ms : List IrType},
    nullableArraysOfMembers ms = 0 ↔ ∀ m ∈ ms, nullableArrays m = 0
  | [] => by simp [nullableArraysOfMembers]
  | m :: ms => by
      rw [nullableArraysOfMembers, Nat.add_eq_zero_iff, nullableArraysOfMembers_eq_zero,
        List.forall_mem_cons]

theorem leaves_orNull (nullable : Bool) (e : TypeExpr) :
    (orNull nullable e).leaves = e.leaves + nullable.toNat := by
  rcases nullable with _ | _
  · rfl
  · show (unionOf [e, null]).leaves = e.leaves + 1
    rw [TypeExpr.leaves_unionOf]
    simp [leavesOf, null, leaves]

theorem flatten_enumArms (variants : List String) (nullable : Bool) :
    ((enumArms variants).map (fun e => [e]) ++ nullArms nullable).flatten =
      enumArms variants ++ (nullArms nullable).flatten := by
  rw [List.flatten_append, ← List.flatMap_def, List.flatMap_singleton']

theorem leavesOf_nullArms (nullable : Bool) :
    leavesOf (nullArms nullable).flatten = nullable.toNat := by
  rcases nullable with _ | _
  · rfl
  · rfl

/-- A composition is read as all the operands of its members. -/
theorem flatten_readArms_composition (kind : CompositionKind) (ms : List IrType)
    (disc : Option Discriminator) :
    (readArms (.composition kind ms disc)).flatten = ms.flatMap fun m => (readArms m).flatten := by
  rcases eq_or_ne kind .allOf with rfl | hkind
  · rw [readArms_inter, flatten_glueAll, List.flatMap_map]
  · rw [readArms_union hkind, List.flatMap_def, List.flatten_flatten, List.map_map,
      List.flatMap_def]
    rfl

/-- **Only the `null` of an array is lost.** -/
theorem leaves_denote (t : IrType) :
    (denote t).leaves = leavesOf (readArms t).flatten + nullableArrays t := by
  have hmembers : ∀ ms : List IrType,
      (∀ m ∈ ms, (denote m).leaves = leavesOf (readArms m).flatten + nullableArrays m) →
      leavesOf (ms.map denote) =
        leavesOf (ms.flatMap fun m => (readArms m).flatten) + nullableArraysOfMembers ms := by
    intro ms
    induction ms with
    | nil => exact fun _ => rfl
    | cons m ms ih =>
        intro h
        rw [List.forall_mem_cons] at h
        have hrest := ih h.2
        rw [List.map_cons, leavesOf, h.1, hrest, List.flatMap_cons, TypeExpr.leavesOf_append,
          nullableArraysOfMembers]
        omega
  induction t using IrType.induction with
  | stringEnum variants nullable =>
      rw [denote, leaves_orNull, TypeExpr.leaves_unionOf, readArms, flatten_enumArms,
        TypeExpr.leavesOf_append, leavesOf_nullArms]
      rfl
  | array item nullable ih =>
      have harray : (denote (.array item nullable)).leaves =
          (denote item).leaves + nullable.toNat := by
        rw [denote, leaves_orNull, leaves]
      rw [harray, ih, readArms, nullableArrays]
      split
      · rw [List.flatten_singleton, TypeExpr.leavesOf_singleton, leaves, TypeExpr.leaves_ofArms]
        omega
      · rw [TypeExpr.leavesOf_onLast]
        omega
  | map value ih =>
      rw [denote, readArms, nullableArrays, List.flatten_singleton, TypeExpr.leavesOf_singleton]
      simp only [leaves, leavesOf, TypeExpr.leaves_ofArms, ih]
      omega
  | reference name nullable description =>
      rw [denote, leaves_orNull, readArms, List.flatten_append, TypeExpr.leavesOf_append,
        leavesOf_nullArms]
      rfl
  | composition kind members discriminator ih =>
      have hlist := hmembers members ih
      rw [flatten_readArms_composition, nullableArrays, ← hlist]
      rcases eq_or_ne kind .allOf with rfl | hkind
      · rw [denote_inter, TypeExpr.leaves_interOf]
      · rw [denote_union hkind, TypeExpr.leaves_unionOf]
  | _ => rfl

/-! ## §4  Counting arms and operands -/

theorem atom_null : Atom null := trivial

theorem atom_scalarExpr (s : Scalar) : Atom (scalarExpr s) := trivial

theorem atom_enumArms (variants : List String) : ∀ e ∈ enumArms variants, Atom e := by
  intro e he
  unfold enumArms at he
  split at he
  · obtain rfl := List.mem_singleton.mp he
    trivial
  · obtain ⟨v, -, rfl⟩ := List.mem_map.mp he
    trivial

theorem enumArms_ne_nil (variants : List String) : enumArms variants ≠ [] := by
  rcases variants with _ | ⟨v, vs⟩
  · exact List.cons_ne_nil _ _
  · exact List.cons_ne_nil _ _

theorem normal_orNull {e : TypeExpr} (h : e.Normal) (nullable : Bool) :
    (orNull nullable e).Normal := by
  rcases nullable with _ | _
  · exact h
  · refine TypeExpr.normal_unionOf ?_
    rw [List.forall_mem_cons, List.forall_mem_singleton]
    exact ⟨h, atom_null.normal⟩

theorem normal_denote (t : IrType) : (denote t).Normal := by
  induction t using IrType.induction with
  | scalar s => exact (atom_scalarExpr s).normal
  | stringEnum variants nullable =>
      exact normal_orNull (TypeExpr.normal_unionOf fun e he => (atom_enumArms _ e he).normal) _
  | array item nullable ih => exact normal_orNull (Atom.normal (e := .array _) trivial) _
  | map value ih => exact Atom.normal (e := .generic _ _) trivial
  | reference name nullable description =>
      exact normal_orNull (Atom.normal (e := .name _) trivial) _
  | composition kind members discriminator ih =>
      have hmembers : ∀ e ∈ members.map denote, e.Normal := List.forall_mem_map.mpr ih
      rcases eq_or_ne kind .allOf with rfl | hkind
      · rw [denote_inter]
        exact TypeExpr.normal_interOf hmembers
      · rw [denote_union hkind]
        exact TypeExpr.normal_unionOf hmembers
  | any => exact Atom.normal (e := .name _) trivial
  | unknown => exact Atom.normal (e := .name _) trivial

theorem normal_members (ms : List IrType) : ∀ e ∈ ms.map denote, e.Normal :=
  List.forall_mem_map.mpr fun m _ => normal_denote m

theorem mem_nullArms {nullable : Bool} {a : List TypeExpr} (h : a ∈ nullArms nullable) :
    a = [null] := by
  rcases nullable with _ | _
  · exact absurd h List.not_mem_nil
  · exact List.mem_singleton.mp h

theorem atom_readArms (t : IrType) : ∀ e ∈ (readArms t).flatten, Atom e := by
  induction t using IrType.induction with
  | scalar s => exact List.forall_mem_singleton.mpr (atom_scalarExpr s)
  | stringEnum variants nullable =>
      intro e he
      rw [readArms, flatten_enumArms, List.mem_append] at he
      rcases he with he | he
      · exact atom_enumArms _ e he
      · obtain ⟨a, ha, hea⟩ := List.mem_flatten.mp he
        rw [mem_nullArms ha] at hea
        rw [List.mem_singleton.mp hea]
        exact atom_null
  | array item nullable ih =>
      intro e he
      rw [readArms] at he
      split at he
      · obtain rfl := List.mem_singleton.mp he
        trivial
      · rcases mem_flatten_onLast he with he | ⟨x, -, rfl⟩
        · exact ih e he
        · trivial
  | map value ih => exact List.forall_mem_singleton.mpr trivial
  | reference name nullable description =>
      intro e he
      rw [readArms, List.flatten_append, List.mem_append] at he
      rcases he with he | he
      · obtain rfl := List.mem_singleton.mp he
        trivial
      · obtain ⟨a, ha, hea⟩ := List.mem_flatten.mp he
        rw [mem_nullArms ha] at hea
        rw [List.mem_singleton.mp hea]
        exact atom_null
  | composition kind members discriminator ih =>
      intro e he
      rw [flatten_readArms_composition] at he
      obtain ⟨m, hm, hem⟩ := List.mem_flatMap.mp he
      exact ih m hm e hem
  | any => exact List.forall_mem_singleton.mpr trivial
  | unknown => exact List.forall_mem_singleton.mpr trivial

theorem atoms_readArms {t : IrType} (h : Everywhere MembersOk t) : Atoms (readArms t) where
  full := (runs_tokens t h).full
  atom := fun a ha e he => atom_readArms t e (List.mem_flatten.mpr ⟨a, ha, he⟩)

theorem arms_orNull {e : TypeExpr} (h : e.Normal) (nullable : Bool) :
    (orNull nullable e).arms = e.arms ++ (nullArms nullable).flatten := by
  rcases nullable with _ | _
  · exact (List.append_nil _).symm
  · show (unionOf [e, null]).arms = e.arms ++ [null]
    have hnormal : ∀ x ∈ [e, null], x.Normal := by
      rw [List.forall_mem_cons, List.forall_mem_singleton]
      exact ⟨h, atom_null.normal⟩
    rw [TypeExpr.arms_unionOf (List.cons_ne_nil _ _) hnormal]
    rfl

theorem length_nullArms (nullable : Bool) :
    (nullArms nullable).length = (nullArms nullable).flatten.length := by
  rcases nullable with _ | _
  · rfl
  · rfl

theorem readArms_pos {t : IrType} (h : Everywhere MembersOk t) : 1 ≤ (readArms t).length :=
  List.length_pos_iff.mpr (atoms_readArms h).full.ne_nil

theorem flatten_pos {F : List (List TypeExpr)} (h : Atoms F) : 1 ≤ F.flatten.length := by
  rcases F with _ | ⟨a, F⟩
  · exact absurd rfl h.full.ne_nil
  · have ha := List.length_pos_iff.mpr (h.full.2 a List.mem_cons_self)
    rw [List.flatten_cons, List.length_append]
    omega

/-- A composition of one member stands for what the member stands for. -/
theorem denote_singleton (kind : CompositionKind) (m : IrType) (disc : Option Discriminator) :
    denote (.composition kind [m] disc) = denote m := by
  rcases eq_or_ne kind .allOf with rfl | hkind
  · exact TypeExpr.interOf_singleton (normal_denote m)
  · rw [denote_union hkind]
    exact TypeExpr.unionOf_singleton (normal_denote m)

theorem readArms_singleton (kind : CompositionKind) (m : IrType) (disc : Option Discriminator)
    (hok : Everywhere MembersOk m) : readArms (.composition kind [m] disc) = readArms m := by
  rcases eq_or_ne kind .allOf with rfl | hkind
  · exact glue_end (readArms m) (atoms_readArms hok).full.ne_nil
  · rw [readArms_union hkind, List.flatMap_singleton]

theorem length_arms_interOf {ms : List IrType} (h : 2 ≤ ms.length) :
    (interOf (ms.map denote)).arms.length = 1 := by
  rcases TypeExpr.interOf_cases (normal_members ms) with ⟨e, he, -⟩ | ⟨he, -⟩
  · have hlen := congrArg List.length he
    rw [List.length_map, List.length_singleton] at hlen
    omega
  · rw [he]
    rfl

theorem arms_denote_stringEnum (variants : List String) (nullable : Bool) :
    (denote (.stringEnum variants nullable)).arms =
      enumArms variants ++ (nullArms nullable).flatten := by
  have hatoms := atom_enumArms variants
  have hnormal : ∀ e ∈ enumArms variants, e.Normal := fun e he => (hatoms e he).normal
  rw [denote, arms_orNull (TypeExpr.normal_unionOf hnormal),
    TypeExpr.arms_unionOf (enumArms_ne_nil variants) hnormal,
    List.flatMap_congr fun e he => (hatoms e he).arms, List.flatMap_singleton']

/-- A type is never read as fewer arms than it stands for. -/
theorem arms_denote_le {t : IrType} (h : Everywhere MembersOk t) (hnull : nullableArrays t = 0) :
    (denote t).arms.length ≤ (readArms t).length := by
  induction t using IrType.induction with
  | stringEnum variants nullable =>
      rw [arms_denote_stringEnum, readArms, List.length_append, List.length_append,
        List.length_map, length_nullArms]
  | array item nullable ih =>
      rw [nullableArrays, Nat.add_eq_zero_iff] at hnull
      obtain rfl : nullable = false := by simpa using hnull.2
      exact readArms_pos h
  | reference name nullable description =>
      rw [denote, arms_orNull (Atom.normal (e := .name _) trivial), readArms, List.length_append,
        List.length_append, length_nullArms]
      exact Nat.le_refl _
  | composition kind members discriminator ih =>
      have hpos := readArms_pos h
      rw [nullableArrays, nullableArraysOfMembers_eq_zero] at hnull
      rw [Everywhere, everyMember_iff] at h
      have hle : ∀ m ∈ members, (denote m).arms.length ≤ (readArms m).length :=
        fun m hm => ih m hm (h.2 m hm) (hnull m hm)
      rcases eq_or_ne kind .allOf with rfl | hkind
      · rcases members with _ | ⟨m, _ | ⟨m', ms⟩⟩
        · exact absurd rfl h.1
        · have hm := hle m List.mem_cons_self
          rw [denote_singleton, readArms_singleton _ m discriminator (h.2 m List.mem_cons_self)]
          exact hm
        · rw [denote_inter, length_arms_interOf (by simp)]
          exact hpos
      · have hne : members.map denote ≠ [] := by
          rw [ne_eq, List.map_eq_nil_iff]
          exact h.1
        rw [denote_union hkind, readArms_union hkind,
          TypeExpr.arms_unionOf hne (normal_members _), List.flatMap_map]
        exact length_flatMap_le hle
  | _ => exact Nat.le_refl _

/-- Nor as an arm with fewer operands. -/
theorem operands_denote_le {t : IrType} (h : Everywhere MembersOk t)
    (hnull : nullableArrays t = 0) (hone : (readArms t).length = 1) :
    (denote t).operands.length ≤ (readArms t).flatten.length := by
  have hpos : 1 ≤ (readArms t).flatten.length := flatten_pos (atoms_readArms h)
  induction t using IrType.induction with
  | stringEnum variants nullable =>
      rw [readArms, List.length_append, List.length_map] at hone
      have hvariants := List.length_pos_iff.mpr (enumArms_ne_nil variants)
      obtain ⟨e, he⟩ := List.length_eq_one_iff.mp (show (enumArms variants).length = 1 by omega)
      have hatom : Atom e := atom_enumArms _ e (by rw [he]; exact List.mem_cons_self)
      rcases nullable with _ | _
      · have hdenote : denote (.stringEnum variants false) = e := by
          show unionOf (enumArms variants) = e
          rw [he, TypeExpr.unionOf_singleton hatom.normal]
        rw [hdenote, hatom.operands]
        exact hpos
      · have hnull : (nullArms true).length = 1 := rfl
        omega
  | array item nullable ih =>
      rw [nullableArrays, Nat.add_eq_zero_iff] at hnull
      obtain rfl : nullable = false := by simpa using hnull.2
      exact hpos
  | reference name nullable description =>
      rcases nullable with _ | _
      · exact hpos
      · cases hone
  | composition kind members discriminator ih =>
      rw [nullableArrays, nullableArraysOfMembers_eq_zero] at hnull
      rw [Everywhere, everyMember_iff] at h
      have hne : ∀ m ∈ members, readArms m ≠ [] :=
        fun m hm => (atoms_readArms (h.2 m hm)).full.ne_nil
      have hle : ∀ m ∈ members, (readArms m).length = 1 →
          (denote m).operands.length ≤ (readArms m).flatten.length :=
        fun m hm hlen => ih m hm (h.2 m hm) (hnull m hm) hlen
          (flatten_pos (atoms_readArms (h.2 m hm)))
      rw [flatten_readArms_composition]
      rcases eq_or_ne kind .allOf with rfl | hkind
      · rw [readArms_inter] at hone
        have hones := length_eq_one_of_glueAll (List.forall_mem_map.mpr hne) hone
        rw [List.forall_mem_map] at hones
        have hdenote : members.map denote ≠ [] := by
          rw [ne_eq, List.map_eq_nil_iff]
          exact h.1
        rw [denote_inter, TypeExpr.operands_interOf hdenote (normal_members _), List.flatMap_map]
        exact length_flatMap_le fun m hm => hle m hm (hones m hm)
      · -- one arm in all: there is one member, and it has one arm
        rw [readArms_union hkind] at hone
        obtain ⟨a, ha⟩ := List.length_eq_one_iff.mp hone
        obtain ⟨m, rfl, hm⟩ := of_flatMap_eq_singleton hne ha
        rw [denote_singleton, List.flatMap_singleton]
        exact hle m List.mem_cons_self (by rw [hm]; rfl)
  | _ => exact Nat.le_refl _

/-! ## §5  The condition -/

/-- The expression the type stands for is a union. -/
def IsUnion (t : IrType) : Prop := 2 ≤ (denote t).arms.length

instance (t : IrType) : Decidable (IsUnion t) := inferInstanceAs (Decidable (2 ≤ _))

/-- What a part must be like so that its text is read as it is meant. -/
def KeepsShape : IrType → Prop
  | .stringEnum variants _ => ∀ v ∈ variants, OneLine v
  | .array item nullable => nullable = false ∧ (needsParens item = true ∨ ¬ IsUnion item)
  | .composition kind members _ =>
      members ≠ [] ∧ (kind = .allOf → 2 ≤ members.length → ∀ m ∈ members, ¬ IsUnion m)
  | _ => True

/-- The type is read as what it stands for. -/
def ReadAsMeant (t : IrType) : Prop := denote t = ofArms (readArms t)

theorem arms_length_eq_one {t : IrType} : (denote t).arms.length = 1 ↔ ¬ IsUnion t := by
  have hpos := List.length_pos_iff.mpr (TypeExpr.arms_ne_nil (denote t))
  unfold IsUnion
  omega

theorem readAsMeant_iff_arms {t : IrType} (hok : Everywhere MembersOk t) :
    ReadAsMeant t ↔ (denote t).arms = (readArms t).map mkInter := by
  have hatoms := atoms_readArms hok
  rw [← TypeExpr.arms_ofArms hatoms]
  constructor
  · exact congrArg TypeExpr.arms
  · exact TypeExpr.eq_of_arms_eq (normal_denote t) (TypeExpr.normal_ofArms hatoms)

theorem ReadAsMeant.length_readArms {t : IrType} (h : ReadAsMeant t)
    (hok : Everywhere MembersOk t) : (readArms t).length = (denote t).arms.length := by
  rw [(readAsMeant_iff_arms hok).mp h, List.length_map]

/-- A single arm that is read as it is meant. -/
theorem readAsMeant_iff_operands {t : IrType} (hok : Everywhere MembersOk t)
    (hone : (readArms t).length = 1) :
    ReadAsMeant t ↔ (denote t).operands = (readArms t).flatten := by
  have hatoms := atoms_readArms hok
  have hne : (readArms t).flatten ≠ [] := List.length_pos_iff.mp (flatten_pos hatoms)
  have hmkInter : ofArms (readArms t) = mkInter (readArms t).flatten := by
    conv_lhs => rw [eq_singleton_flatten hone]
    exact TypeExpr.ofArms_singleton (atom_readArms t)
  have hoperands : (ofArms (readArms t)).operands = (readArms t).flatten := by
    rw [hmkInter, TypeExpr.operands_mkInter hne (atom_readArms t)]
  rw [← hoperands]
  constructor
  · exact congrArg TypeExpr.operands
  · exact TypeExpr.eq_of_operands_eq (normal_denote t) (TypeExpr.normal_ofArms hatoms)

theorem readAsMeant_singleton (kind : CompositionKind) (m : IrType)
    (disc : Option Discriminator) (hok : Everywhere MembersOk m) :
    ReadAsMeant (.composition kind [m] disc) ↔ ReadAsMeant m := by
  rw [ReadAsMeant, ReadAsMeant, readArms_singleton kind m disc hok, denote_singleton]

/-- The members of a union are told apart by the number of their arms. -/
theorem readAsMeant_union_iff {kind : CompositionKind} (hkind : kind ≠ .allOf)
    {ms : List IrType} {disc : Option Discriminator}
    (hok : Everywhere MembersOk (.composition kind ms disc))
    (hnull : ∀ m ∈ ms, nullableArrays m = 0) :
    ReadAsMeant (.composition kind ms disc) ↔ ∀ m ∈ ms, ReadAsMeant m := by
  have harms := readAsMeant_iff_arms hok
  rw [Everywhere, everyMember_iff] at hok
  have hne : ms.map denote ≠ [] := by
    rw [ne_eq, List.map_eq_nil_iff]
    exact hok.1
  rw [denote_union hkind, readArms_union hkind, TypeExpr.arms_unionOf hne (normal_members _),
    List.flatMap_map, List.map_flatMap] at harms
  rw [harms]
  constructor
  · intro h m hm
    have hle : ∀ m ∈ ms, (denote m).arms.length ≤ ((readArms m).map mkInter).length := by
      intro m hm
      rw [List.length_map]
      exact arms_denote_le (hok.2 m hm) (hnull m hm)
    exact (readAsMeant_iff_arms (hok.2 m hm)).mpr (eq_parts_of_flatMap_eq hle h.symm m hm).symm
  · intro h
    exact List.flatMap_congr fun m hm => (readAsMeant_iff_arms (hok.2 m hm)).mp (h m hm)

/-- No member of an intersection of several may be a union. -/
theorem readAsMeant_inter_iff {ms : List IrType} {disc : Option Discriminator}
    (hok : Everywhere MembersOk (.composition .allOf ms disc))
    (hnull : ∀ m ∈ ms, nullableArrays m = 0) (htwo : 2 ≤ ms.length) :
    ReadAsMeant (.composition .allOf ms disc) ↔ ∀ m ∈ ms, ReadAsMeant m ∧ ¬ IsUnion m := by
  have hwhole := hok
  rw [Everywhere, everyMember_iff] at hok
  have hne : ms.map denote ≠ [] := by
    rw [ne_eq, List.map_eq_nil_iff]
    exact hok.1
  have hread := readArms_inter ms disc
  have hoperands : (denote (.composition .allOf ms disc)).operands =
      ms.flatMap fun m => (denote m).operands := by
    rw [denote_inter, TypeExpr.operands_interOf hne (normal_members _), List.flatMap_map]
  have hflatten := flatten_readArms_composition .allOf ms disc
  constructor
  · intro h
    have hone := h.length_readArms hwhole
    rw [denote_inter, length_arms_interOf htwo] at hone
    have hones : ∀ m ∈ ms, (readArms m).length = 1 := by
      rw [hread] at hone
      have hall := length_eq_one_of_glueAll (List.forall_mem_map.mpr fun m hm =>
        (atoms_readArms (hok.2 m hm)).full.ne_nil) hone
      exact List.forall_mem_map.mp hall
    have hflat := (readAsMeant_iff_operands hwhole hone).mp h
    rw [hoperands, hflatten] at hflat
    have hparts := eq_parts_of_flatMap_eq
      (fun m hm => operands_denote_le (hok.2 m hm) (hnull m hm) (hones m hm)) hflat.symm
    intro m hm
    have hmeant : ReadAsMeant m :=
      (readAsMeant_iff_operands (hok.2 m hm) (hones m hm)).mpr (hparts m hm).symm
    refine ⟨hmeant, arms_length_eq_one.mp ?_⟩
    rw [← hmeant.length_readArms (hok.2 m hm), hones m hm]
  · intro h
    have hones : ∀ m ∈ ms, (readArms m).length = 1 := by
      intro m hm
      rw [(h m hm).1.length_readArms (hok.2 m hm), arms_length_eq_one.mpr (h m hm).2]
    have hone : (readArms (.composition .allOf ms disc)).length = 1 := by
      rw [hread, glueAll_of_length_eq_one (List.forall_mem_map.mpr hones)]
      rfl
    rw [readAsMeant_iff_operands hwhole hone, hoperands, hflatten]
    exact List.flatMap_congr fun m hm =>
      (readAsMeant_iff_operands (hok.2 m hm) (hones m hm)).mp (h m hm).1

/-- The arms of an item that is not put in parentheses have one operand each. -/
theorem length_arm_of_not_needsParens {t : IrType} (h : needsParens t = false) :
    ∀ a ∈ readArms t, a.length = 1 := by
  induction t using IrType.induction with
  | stringEnum variants nullable =>
      intro a ha
      rw [readArms, List.mem_append, List.mem_map] at ha
      rcases ha with ⟨e, -, rfl⟩ | ha
      · rfl
      · rw [mem_nullArms ha]
        rfl
  | array item nullable ih =>
      intro a ha
      rw [readArms] at ha
      split at ha
      · rw [List.mem_singleton.mp ha]
        rfl
      · next hitem => exact length_arm_onLast .array (ih (by simpa using hitem)) a ha
  | reference name nullable description =>
      intro a ha
      rw [readArms, List.mem_append] at ha
      rcases ha with ha | ha
      · rw [List.mem_singleton.mp ha]
        rfl
      · rw [mem_nullArms ha]
        rfl
  | composition kind members discriminator ih => cases h
  | _ => exact List.forall_mem_singleton.mpr rfl

theorem readAsMeant_array_iff {item : IrType} (hok : Everywhere MembersOk item) :
    ReadAsMeant (.array item false) ↔
      ReadAsMeant item ∧ (needsParens item = true ∨ ¬ IsUnion item) := by
  have hdenote : denote (.array item false) = .array (denote item) := rfl
  rcases hparens : needsParens item with _ | _
  · have hread : readArms (.array item false) = onLast .array (readArms item) := by
      rw [readArms, hparens]
      rfl
    -- with one arm, the brackets are behind all of the item
    have hsingle : (readArms item).length = 1 →
        (ReadAsMeant (.array item false) ↔ ReadAsMeant item) ∧ (ReadAsMeant item → ¬ IsUnion item) := by
      intro hone
      obtain ⟨a, ha⟩ := List.length_eq_one_iff.mp hone
      have hlen := length_arm_of_not_needsParens hparens a (by rw [ha]; exact List.mem_cons_self)
      obtain ⟨x, rfl⟩ := List.length_eq_one_iff.mp hlen
      have hatom : Atom x := atom_readArms item x (by rw [ha]; exact List.mem_cons_self)
      have hitem : ofArms [[x]] = x := TypeExpr.ofArms_singleton fun e he => by
        rw [List.mem_singleton.mp he]
        exact hatom
      constructor
      · rw [ReadAsMeant, ReadAsMeant, hread, ha, hdenote, hitem]
        show TypeExpr.array (denote item) = .array x ↔ _
        rw [TypeExpr.array.injEq]
      · intro h
        rw [← arms_length_eq_one, ← h.length_readArms hok, hone]
    constructor
    · intro h
      have hone := h.length_readArms (t := .array item false) (by rw [Everywhere]; exact ⟨trivial, hok⟩)
      rw [hread, length_onLast] at hone
      obtain ⟨hiff, hunion⟩ := hsingle hone
      exact ⟨hiff.mp h, Or.inr (hunion (hiff.mp h))⟩
    · rintro ⟨h, hunion⟩
      have hone := h.length_readArms hok
      rw [arms_length_eq_one.mpr (hunion.resolve_left Bool.false_ne_true)] at hone
      exact (hsingle hone).1.mpr h
  · have hread : readArms (.array item false) = [[.array (ofArms (readArms item))]] := by
      rw [readArms, hparens]
      rfl
    rw [ReadAsMeant, ReadAsMeant, hread, hdenote]
    show TypeExpr.array (denote item) = .array (ofArms (readArms item)) ↔ _
    rw [TypeExpr.array.injEq]
    exact (and_iff_left (Or.inl rfl)).symm

theorem readAsMeant_map_iff {value : IrType} :
    ReadAsMeant (.map value) ↔ ReadAsMeant value := by
  show TypeExpr.generic "Record" [.name "string", denote value] =
    .generic "Record" [.name "string", ofArms (readArms value)] ↔ _
  rw [TypeExpr.generic.injEq, ReadAsMeant]
  simp

theorem readAsMeant_stringEnum (variants : List String) (nullable : Bool) :
    ReadAsMeant (.stringEnum variants nullable) := by
  have hok : Everywhere MembersOk (.stringEnum variants nullable) := trivial
  have hatoms := atom_enumArms variants
  rw [readAsMeant_iff_arms hok, arms_denote_stringEnum, readArms, List.map_append,
    List.map_map]
  congr 1
  · exact (List.map_id _).symm
  · rcases nullable with _ | _
    · rfl
    · rfl

theorem readAsMeant_reference (name : String) (nullable : Bool) (description : Option String) :
    ReadAsMeant (.reference name nullable description) := by
  rcases nullable with _ | _
  · rfl
  · rfl

theorem readAsMeant_composition_iff {kind : CompositionKind} {ms : List IrType}
    {disc : Option Discriminator} (hok : Everywhere MembersOk (.composition kind ms disc))
    (hnull : ∀ m ∈ ms, nullableArrays m = 0) :
    ReadAsMeant (.composition kind ms disc) ↔
      KeepsShape (.composition kind ms disc) ∧ ∀ m ∈ ms, ReadAsMeant m := by
  have hparts := hok
  rw [Everywhere, everyMember_iff] at hparts
  have hne : ms ≠ [] := hparts.1
  rw [KeepsShape]
  rcases eq_or_ne kind .allOf with rfl | hkind
  · rcases ms with _ | ⟨m, _ | ⟨m', ms⟩⟩
    · exact absurd rfl hne
    · have hone : (∀ x ∈ [m], ReadAsMeant x) ↔ ReadAsMeant m := List.forall_mem_singleton
      rw [readAsMeant_singleton _ m disc (hparts.2 m List.mem_cons_self), hone]
      refine (and_iff_right ?_).symm
      exact ⟨hne, fun _ htwo => absurd htwo (by simp)⟩
    · have htwo : 2 ≤ (m :: m' :: ms).length := by simp
      rw [readAsMeant_inter_iff hok hnull htwo]
      constructor
      · intro h
        exact ⟨⟨hne, fun _ _ x hx => (h x hx).2⟩, fun x hx => (h x hx).1⟩
      · rintro ⟨⟨-, hunion⟩, h⟩ x hx
        exact ⟨h x hx, hunion rfl htwo x hx⟩
  · rw [readAsMeant_union_iff hkind hok hnull]
    refine (and_iff_right ?_).symm
    exact ⟨hne, fun h => absurd h hkind⟩

/-- The condition on the parts says that the text is read, as what it stands for. -/
theorem everywhere_keepsShape_iff {t : IrType} (hok : Everywhere MembersOk t) :
    Everywhere KeepsShape t ↔
      Everywhere LiteralsOk t ∧ nullableArrays t = 0 ∧ ReadAsMeant t := by
  induction t using IrType.induction with
  | scalar s => exact ⟨fun _ => ⟨trivial, rfl, rfl⟩, fun _ => trivial⟩
  | stringEnum variants nullable =>
      exact ⟨fun h => ⟨h, rfl, readAsMeant_stringEnum variants nullable⟩, fun h => h.1⟩
  | array item nullable ih =>
      rw [Everywhere] at hok
      rw [Everywhere, Everywhere, ih hok.2, nullableArrays, Nat.add_eq_zero_iff]
      have harray := readAsMeant_array_iff hok.2
      rcases nullable with _ | _
      · rw [harray]
        show (false = false ∧ _) ∧ _ ↔ (True ∧ _) ∧ (_ ∧ (0 = 0)) ∧ _
        tauto
      · constructor
        · exact fun h => absurd h.1.1 (by decide)
        · exact fun h => absurd h.2.1.2 (by decide)
  | map value ih =>
      rw [Everywhere] at hok
      rw [Everywhere, Everywhere, ih hok.2, nullableArrays, readAsMeant_map_iff]
      show True ∧ _ ↔ (True ∧ _) ∧ _
      tauto
  | reference name nullable description =>
      exact ⟨fun _ => ⟨trivial, rfl, readAsMeant_reference name nullable description⟩,
        fun _ => trivial⟩
  | composition kind members discriminator ih =>
      have hwhole := readAsMeant_composition_iff hok
      rw [Everywhere, everyMember_iff] at hok
      have hmembers : (∀ m ∈ members, Everywhere KeepsShape m) ↔
          (∀ m ∈ members, Everywhere LiteralsOk m) ∧ (∀ m ∈ members, nullableArrays m = 0) ∧
            ∀ m ∈ members, ReadAsMeant m := by
        rw [← forall₂_and, ← forall₂_and]
        exact forall₂_congr fun m hm => ih m hm (hok.2 m hm)
      rw [Everywhere, Everywhere, everyMember_iff, everyMember_iff, hmembers, nullableArrays,
        nullableArraysOfMembers_eq_zero]
      show _ ↔ (True ∧ _) ∧ _
      tauto
  | any => exact ⟨fun _ => ⟨trivial, rfl, rfl⟩, fun _ => trivial⟩
  | unknown => exact ⟨fun _ => ⟨trivial, rfl, rfl⟩, fun _ => trivial⟩

/-- What is read has no empty union or intersection in it. -/
theorem membersOk_of_proper {t : IrType} (h : (denote t).Proper) : Everywhere MembersOk t := by
  have horNull : ∀ {nullable : Bool} {e : TypeExpr}, (orNull nullable e).Proper → e.Proper := by
    intro nullable e he
    rcases nullable with _ | _
    · exact he
    · exact (TypeExpr.proper_unionOf_iff.mp he).2 e List.mem_cons_self
  induction t using IrType.induction with
  | array item nullable ih =>
      have hitem := horNull h
      rw [TypeExpr.Proper] at hitem
      rw [Everywhere]
      exact ⟨trivial, ih hitem⟩
  | map value ih =>
      rw [denote, TypeExpr.Proper, TypeExpr.properAll_iff] at h
      rw [Everywhere]
      exact ⟨trivial, ih (h (denote value) (by simp))⟩
  | composition kind members discriminator ih =>
      have hmembers : members.map denote ≠ [] ∧ ∀ e ∈ members.map denote, e.Proper := by
        rcases eq_or_ne kind .allOf with rfl | hkind
        · rw [denote_inter] at h
          exact TypeExpr.proper_interOf_iff.mp h
        · rw [denote_union hkind] at h
          exact TypeExpr.proper_unionOf_iff.mp h
      rw [ne_eq, List.map_eq_nil_iff, List.forall_mem_map] at hmembers
      rw [Everywhere, everyMember_iff]
      exact ⟨hmembers.1, fun m hm => ih m hm (hmembers.2 m hm)⟩
  | _ => trivial

theorem membersOk_of_keepsShape {t : IrType} (h : Everywhere KeepsShape t) :
    Everywhere MembersOk t := by
  induction t using IrType.induction with
  | array item nullable ih =>
      rw [Everywhere] at h ⊢
      exact ⟨trivial, ih h.2⟩
  | map value ih =>
      rw [Everywhere] at h ⊢
      exact ⟨trivial, ih h.2⟩
  | composition kind members discriminator ih =>
      rw [Everywhere, everyMember_iff] at h ⊢
      exact ⟨h.1.1, fun m hm => ih m hm (h.2 m hm)⟩
  | _ => trivial

/-- **A rendered type keeps its structure exactly when every part of it does.** -/
theorem keepsStructure_iff (t : IrType) : KeepsStructure t ↔ Everywhere KeepsShape t := by
  constructor
  · intro h
    unfold KeepsStructure at h
    have hlit : Everywhere LiteralsOk t := by
      by_contra hlit
      rw [parseType, lex_render_of_not_ok hlit] at h
      cases h
    have hok : Everywhere MembersOk t := membersOk_of_proper (proper_of_parseType h)
    have hmeant : ReadAsMeant t := by
      rw [parseType_render hlit hok] at h
      exact (Option.some.inj h).symm
    have hleaves := congrArg leaves hmeant
    rw [leaves_denote, TypeExpr.leaves_ofArms] at hleaves
    exact (everywhere_keepsShape_iff hok).mpr ⟨hlit, by omega, hmeant⟩
  · intro h
    have hok := membersOk_of_keepsShape h
    obtain ⟨hlit, -, hmeant⟩ := (everywhere_keepsShape_iff hok).mp h
    rw [KeepsStructure, parseType_render hlit hok, hmeant]

/-- In `Pet | null[]` the brackets are behind `null`. -/
theorem nullableItem_not_kept :
    ¬ ∀ t : IrType, KeepsStructure t := by
  intro h
  have hpet := h (.array (.reference "pet" true none) false)
  rw [KeepsStructure, parseType_render (by simp [Everywhere, LiteralsOk])
    (by simp [Everywhere, MembersOk])] at hpet
  exact TypeExpr.noConfusion (Option.some.inj hpet)

end SpecForge.Ts
