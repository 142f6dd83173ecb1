import SpecForge.Native.Calls
import SpecForge.Native.GoModels
import SpecForge.Native.GoUnions

/-!
# Unions without a discriminator

`New{Union}FromJSON` and the untagged enum take the first arm that reads a value. `encoding/json`
reads an object into a struct unless one of its entries is of the wrong type, whatever is missing;
serde asks for the required fields as well.

- §1 the union and the values of one arm; §2 Go; §3 which objects a Go struct reads; §4 Rust;
  §5 when both find the arm.
-/

namespace SpecForge

open Lib Native

/-! ## §1  The union -/

namespace Native

/-- A model that is a `oneOf` of references to object models, without a discriminator. -/
structure UndiscriminatedUnion (o : ObjectModel) (schemas : SchemaRegistry) where
  members : List IrType
  shape : o.shapeType = some (.composition .oneOf members none)
  bare : o.properties = []
  references : ∀ m ∈ members, ∃ name nullable description arm,
    m = .reference name nullable description ∧ schemas.get name = some (.object arm)

def UndiscriminatedUnion.arms {o : ObjectModel} {schemas : SchemaRegistry}
    (u : UndiscriminatedUnion o schemas) : List String :=
  referenceArms u.members

/-- The object has every required property of the arm, with a value of the right type. -/
def HasRequired (schemas : SchemaRegistry) (arm : String) (es : List (String × Value)) : Prop :=
  ∃ o, schemas.get arm = some (.object o) ∧ ∀ p ∈ o.properties, p.required = true →
    ∃ w, es.lookup p.name = some w ∧ Validates schemas w p.ty

/-- The object is one of this arm and of no other. -/
def MatchesOnly (schemas : SchemaRegistry) (arms : List String) (A : String)
    (es : List (String × Value)) : Prop :=
  HasRequired schemas A es ∧ ∀ X ∈ arms, X ≠ A → ¬HasRequired schemas X es

end Native

/-! ## §2  Go -/

namespace Go

section Reads

variable (pkg : JsonPackage) (decls : List GoDecl)

/-- `json.Unmarshal` into a variable of the type succeeds. -/
def Reads (t : GoType) (v : Value) : Prop := ∃ g, Returns (fun n => decode pkg decls n t v) g

def ReadsArm (v : Value) (arm : String) : Prop := Reads pkg decls (.ident (exportIdent arm)) v

end Reads

/-- What a compiler asks of `New{Union}FromJSON`: that its variables are identifiers, declared
once, next to the parameter `raw`, and that each arm has a type that may stand behind the marker
method. -/
structure FromJsonCompiles (doc : Document) (arms : List String) : Prop where
  idents : ∀ arm ∈ arms, isIdent (goParamIdent arm) = true
  once : ("raw" :: arms.map goParamIdent).Nodup
  types : ∀ arm ∈ arms, ∃ decl, declared (emitModels doc) (exportIdent arm) = some decl ∧
    decl.isConcrete = true
  markers : (arms.map exportIdent).Nodup

/-- `New{Union}FromJSON` returns a value of the arm. -/
def FromJsonYields (pkg : JsonPackage) (doc : Document) (arms : List String) (v : Value)
    (arm : String) : Prop :=
  FromJsonCompiles doc arms ∧ ∃ before after, arms = before ++ arm :: after ∧
    ReadsArm pkg (emitModels doc) v arm ∧ ∀ X ∈ before, ¬ReadsArm pkg (emitModels doc) v X

/-! ## §3  What a struct reads -/

/-- The entries that are the name of no field. -/
def stray (fields : List JsonField) (es : List (String × Value)) : List (String × Value) :=
  es.filter fun e => !fields.any (·.name == e.1)

section Fields

variable (pkg : JsonPackage) (decls : List GoDecl) (fields : List JsonField)
  (es : List (String × Value))

/-- What the fields are before the stray entries are read. -/
def Filled (gs : List GoVal) : Prop :=
  List.Forall₂ (fun f g =>
    Returns (fun n => decodeField (decode pkg decls n) (zeroOf pkg decls n) es f) g) fields gs

/-- Nothing in the object is in the way of the fields; that they are in the object is not asked. -/
structure Takes : Prop where
  entries : ∀ f ∈ fields, ∀ w, es.lookup f.name = some w → Reads pkg decls f.type w
  zeros : ∀ f ∈ fields, es.lookup f.name = none →
    ∃ g, Returns (fun n => zeroOf pkg decls n f.type) g
  /-- A key that differs in case only fills a field too. -/
  folds : ∀ gs, Filled pkg decls fields es gs → stray fields es ≠ [] →
    (pkg.foldMatch (stray fields es) gs).isSome

variable {pkg decls fields es}

theorem Filled.unique {gs gs' : List GoVal} (h : Filled pkg decls fields es gs)
    (h' : Filled pkg decls fields es gs') : gs = gs' := by
  induction h generalizing gs' with
  | nil =>
      cases h'
      rfl
  | cons hg _ ih =>
      cases h' with
      | cons hg' hrest =>
          rw [Returns.unique (decodeField_stable es _) hg hg', ih hrest]

theorem Filled.mapM {n : ℕ} {gs gs' : List GoVal} (h : Filled pkg decls fields es gs)
    (hn : fields.mapM (decodeField (decode pkg decls n) (zeroOf pkg decls n) es) = some gs') :
    gs' = gs := by
  rw [mapM_eq_some] at hn
  exact Filled.unique (hn.imp fun _ _ hg => ⟨n, hg⟩) h

/-- **A struct reads an object that nothing in keeps from being read.** -/
theorem reads_object_iff {t : GoType} {levels : List (List JsonField)}
    (hk : HasKind pkg.letter decls t (.struct levels)) :
    Reads pkg decls t (.object es) ↔ Takes pkg decls (visible levels) es := by
  constructor
  · rintro ⟨g, n, hn⟩
    cases n with
    | zero => cases hn
    | succ n =>
        obtain ⟨k, hkn, hdecode⟩ := Option.bind_eq_some_iff.mp hn
        obtain rfl := HasKind.unique _ _ ⟨n, hkn⟩ hk
        rw [decodeKind_iff] at hdecode
        cases hdecode with
        | @struct _ _ gs gs' hgs hstray =>
            have hfield := fun f (hf : f ∈ visible levels) =>
              forall₂_mem_left (mapM_eq_some.mp hgs) hf
            refine ⟨fun f hf w hw => ?_, fun f hf hnone => ?_, fun gs₀ hfilled hne => ?_⟩
            · obtain ⟨g, -, hg⟩ := hfield f hf
              rw [decodeField, hw] at hg
              exact ⟨g, n, hg⟩
            · obtain ⟨g, -, hg⟩ := hfield f hf
              rw [decodeField, hnone] at hg
              exact ⟨g, n, hg⟩
            · rw [if_neg, hfilled.mapM hgs] at hstray
              · exact Option.isSome_iff_exists.mpr ⟨gs', hstray⟩
              · rw [List.isEmpty_iff]
                exact hne
  · rintro ⟨hentries, hzeros, hfolds⟩
    have hfield : ∀ f ∈ visible levels, ∃ g,
        Returns (fun n => decodeField (decode pkg decls n) (zeroOf pkg decls n) es f) g := by
      intro f hf
      unfold decodeField
      cases hw : es.lookup f.name with
      | some w => exact hentries f hf w hw
      | none => exact hzeros f hf hw
    obtain ⟨n, gs, hgs⟩ := exists_returns_loop (fun f _ => decodeField_stable es f) hfield
    have hmapM := mapM_eq_some.mpr hgs
    have hfilled : Filled pkg decls (visible levels) es gs := hgs.imp fun _ _ hg => ⟨n, hg⟩
    by_cases hstray : stray (visible levels) es = []
    · obtain ⟨m, hm⟩ := decode_of_kind hk (.struct hmapM (if_pos (List.isEmpty_iff.mpr hstray)))
      exact ⟨_, m, hm⟩
    · obtain ⟨gs', hgs'⟩ := Option.isSome_iff_exists.mp (hfolds gs hfilled hstray)
      obtain ⟨m, hm⟩ := decode_of_kind hk (.struct hmapM
        ((if_neg fun hempty => hstray (List.isEmpty_iff.mp hempty)).trans hgs'))
      exact ⟨_, m, hm⟩

end Fields

/-- The type of the arm is a struct, and nothing in the object is in its way. -/
def FitsArm (pkg : JsonPackage) (decls : List GoDecl) (es : List (String × Value)) (arm : String) :
    Prop :=
  ∃ levels, HasKind pkg.letter decls (.ident (exportIdent arm)) (.struct levels) ∧
    Takes pkg decls (visible levels) es

/-- A type of its own is a struct if it reads an object. -/
theorem exists_struct_of_reads {pkg : JsonPackage} {decls : List GoDecl} {arm : String}
    {decl : GoDecl} (hdecl : declared decls (exportIdent arm) = some decl)
    (hconcrete : decl.isConcrete = true) {es : List (String × Value)}
    (h : ReadsArm pkg decls (.object es) arm) :
    ∃ levels, HasKind pkg.letter decls (.ident (exportIdent arm)) (.struct levels) := by
  have hpre := predeclared_of_capitalised (capitalised_exportIdent arm)
  obtain ⟨g, n, hn⟩ := h
  cases n with
  | zero => cases hn
  | succ n =>
      obtain ⟨k, hk, hdecode⟩ := Option.bind_eq_some_iff.mp hn
      cases n with
      | zero => cases hk
      | succ n =>
          have hkind := hk
          rw [kindOf, hpre] at hkind
          dsimp only at hkind
          rw [hdecl, Option.bind_some] at hkind
          cases decl with
          | enum name values =>
              obtain rfl := Option.some.inj hkind
              cases hdecode
          | struct name embedded fields =>
              obtain ⟨own, -, hembed⟩ := Option.bind_eq_some_iff.mp hkind
              cases embedded with
              | none =>
                  obtain rfl := Option.some.inj hembed
                  exact ⟨_, n + 1, hk⟩
              | some base =>
                  obtain ⟨k', -, hk'⟩ := Option.bind_eq_some_iff.mp hembed
                  cases k' with
                  | pointer t => cases hk'
                  | _ =>
                      obtain rfl := Option.some.inj hk'
                      exact ⟨_, n + 1, hk⟩
          | union name arms => cases hconcrete
          | typeAlias name t => cases hconcrete

theorem readsArm_iff {pkg : JsonPackage} {doc : Document} {arms : List String}
    (hcompiles : FromJsonCompiles doc arms) {arm : String} (harm : arm ∈ arms)
    {es : List (String × Value)} :
    ReadsArm pkg (emitModels doc) (.object es) arm ↔ FitsArm pkg (emitModels doc) es arm := by
  constructor
  · intro h
    obtain ⟨decl, hdecl, hconcrete⟩ := hcompiles.types arm harm
    obtain ⟨levels, hk⟩ := exists_struct_of_reads hdecl hconcrete h
    exact ⟨levels, hk, (reads_object_iff hk).mp h⟩
  · rintro ⟨levels, hk, htakes⟩
    exact (reads_object_iff hk).mpr htakes

end Go

/-! ## §4  Rust -/

namespace Rust

/-- What a compiler asks of the enum: variants of different names, each around the one type that
is declared for the arm. -/
structure EnumCompiles (doc : Document) (arms : List String) : Prop where
  variants : (arms.map pascal).Nodup
  types : ∀ arm ∈ arms, ∃ o, doc.schemas.get arm = some (.object o) ∧
    (emitModels doc).filter (·.name == pascal arm) = [emitObject o doc.schemas]

/-- The enum is read as a value of the arm. -/
def EnumYields (accepts : RustType → Value → Prop) (doc : Document) (arms : List String) (v : Value)
    (arm : String) : Prop :=
  EnumCompiles doc arms ∧ Untagged accepts doc.schemas arms v arm

end Rust

/-! ## §5  Both -/

namespace Native

open Go (JsonPackage FromJsonCompiles FromJsonYields FitsArm)
open Rust (EnumCompiles EnumYields Misses armAccepts_iff)

/-- **When both decoders find an arm**: exactly if the names of the arms give code that compiles,
no entry keeps the type of the arm from reading the object, nothing that serde asks for is missing
from it, and something keeps each arm before it in the same way. -/
theorem undiscriminated_yields_iff (pkg : JsonPackage) (accepts : Rust.RustType → Value → Prop)
    (doc : Document) {o : ObjectModel} (u : UndiscriminatedUnion o doc.schemas) (A : String)
    (es : List (String × Value)) :
    FromJsonYields pkg doc u.arms (.object es) A ∧ EnumYields accepts doc u.arms (.object es) A ↔
      FromJsonCompiles doc u.arms ∧ EnumCompiles doc u.arms ∧
      FitsArm pkg (Go.emitModels doc) es A ∧ ¬Misses accepts doc.schemas A (.object es) ∧
      ∃ before after, u.arms = before ++ A :: after ∧ ∀ X ∈ before,
        ¬FitsArm pkg (Go.emitModels doc) es X ∧ Misses accepts doc.schemas X (.object es) := by
  constructor
  · rintro ⟨⟨hgo, before, after, hsplit, hreads, hbefore⟩, hrust, before', after', hsplit', haccepts,
      hbefore'⟩
    have hmem : ∀ X ∈ before ++ [A], X ∈ u.arms := by
      intro X hX
      rw [hsplit, ← List.singleton_append, ← List.append_assoc]
      exact List.mem_append_left _ hX
    have hA : A ∉ before := fun hA => hbefore A hA hreads
    have hafter : A ∉ after := by
      have hnodup := List.Nodup.of_map _ hgo.markers
      rw [hsplit] at hnodup
      exact (List.nodup_cons.mp (List.nodup_append.mp hnodup).2.1).1
    have hsame : before = before' :=
      ((List.append_cons_inj_of_notMem hA hafter).mp (hsplit.symm.trans hsplit')).1
    refine ⟨hgo, hrust, (Go.readsArm_iff hgo (hmem A (by simp))).mp hreads,
      armAccepts_iff.mp haccepts, before, after, hsplit, fun X hX => ⟨?_, ?_⟩⟩
    · rw [← Go.readsArm_iff hgo (hmem X (List.mem_append_left _ hX))]
      exact hbefore X hX
    · by_contra hnot
      exact hbefore' X (hsame ▸ hX) (armAccepts_iff.mpr hnot)
  · rintro ⟨hgo, hrust, hfits, hnot, before, after, hsplit, hbefore⟩
    have hmem : ∀ X ∈ before ++ [A], X ∈ u.arms := by
      intro X hX
      rw [hsplit, ← List.singleton_append, ← List.append_assoc]
      exact List.mem_append_left _ hX
    constructor
    · refine ⟨hgo, before, after, hsplit, (Go.readsArm_iff hgo (hmem A (by simp))).mpr hfits, ?_⟩
      intro X hX
      rw [Go.readsArm_iff hgo (hmem X (List.mem_append_left _ hX))]
      exact (hbefore X hX).1
    · refine ⟨hrust, before, after, hsplit, armAccepts_iff.mpr hnot, ?_⟩
      intro X hX
      rw [armAccepts_iff, not_not]
      exact (hbefore X hX).2

/-- A model with one required text. -/
def textModel (name property : String) : Model :=
  .object ⟨name, none, [⟨property, .scalar .string, true, none⟩], none, none, none⟩

/-- A cat has a name, and a dog a bark. -/
def barkModel : ObjectModel where
  name := "Pet"
  description := none
  properties := []
  additionalProperties := none
  shapeType := some (.composition .oneOf
    [.reference "Cat" false none, .reference "Dog" false none] none)
  baseType := none

def barkDocument : Document :=
  Document.minimal ⟨IndexMap.ofList [("Cat", textModel "Cat" "name"),
    ("Dog", textModel "Dog" "bark"), ("Pet", .object barkModel)]⟩ []

def barkUnion : UndiscriminatedUnion barkModel barkDocument.schemas where
  members := [.reference "Cat" false none, .reference "Dog" false none]
  shape := rfl
  bare := rfl
  references := by
    rw [List.forall_mem_cons, List.forall_mem_singleton]
    exact ⟨⟨_, _, _, _, rfl, rfl⟩, ⟨_, _, _, _, rfl, rfl⟩⟩

theorem fromJsonCompiles_bark : FromJsonCompiles barkDocument barkUnion.arms where
  idents := by decide
  once := by decide
  types := by
    have harms : barkUnion.arms = ["Cat", "Dog"] := rfl
    rw [harms, List.forall_mem_cons, List.forall_mem_singleton]
    exact ⟨⟨_, rfl, rfl⟩, ⟨_, rfl, rfl⟩⟩
  markers := by decide

theorem enumCompiles_bark : EnumCompiles barkDocument barkUnion.arms where
  variants := by decide
  types := by
    have harms : barkUnion.arms = ["Cat", "Dog"] := rfl
    rw [harms, List.forall_mem_cons, List.forall_mem_singleton]
    exact ⟨⟨_, rfl, rfl⟩, ⟨_, rfl, rfl⟩⟩

theorem matchesOnly_bark :
    MatchesOnly barkDocument.schemas barkUnion.arms "Dog" [("bark", .string "Woof")] := by
  have harms : barkUnion.arms = ["Cat", "Dog"] := rfl
  constructor
  · refine ⟨_, rfl, ?_⟩
    rw [List.forall_mem_singleton]
    exact fun _ => ⟨_, rfl, 1, rfl⟩
  · rw [harms, List.forall_mem_cons, List.forall_mem_singleton]
    refine ⟨fun _ => ?_, fun hne => absurd rfl hne⟩
    rintro ⟨o, hget, hrequired⟩
    obtain rfl := Model.object.inj (Option.some.inj hget)
    obtain ⟨w, hw, -⟩ := hrequired _ List.mem_cons_self rfl
    cases hw

/-- In Go the dog is a cat without a name. -/
theorem dog_is_nameless_cat : ¬∀ (pkg : JsonPackage) (accepts : Rust.RustType → Value → Prop)
    (doc : Document) (o : ObjectModel) (u : UndiscriminatedUnion o doc.schemas) (A : String)
    (es : List (String × Value)),
    pkg.Nearest → (∀ stray gs, pkg.foldMatch stray gs = some gs) →
    FromJsonCompiles doc u.arms → EnumCompiles doc u.arms → A ∈ u.arms →
    MatchesOnly doc.schemas u.arms A es →
    FromJsonYields pkg doc u.arms (.object es) A ∧
      EnumYields accepts doc u.arms (.object es) A := by
  intro h
  obtain ⟨pkg, hpkg, hletter, hfold⟩ := Go.exists_nearest fun _ => false
  obtain ⟨⟨-, before, after, hsplit, -, hbefore⟩, -⟩ := h pkg Rust.readsText barkDocument barkModel
    barkUnion "Dog" [("bark", .string "Woof")] hpkg hfold fromJsonCompiles_bark enumCompiles_bark
    (by decide) matchesOnly_bark
  have hcat : Go.ReadsArm pkg (Go.emitModels barkDocument) (.object [("bark", .string "Woof")])
      "Cat" := by
    have hk : Go.HasKind pkg.letter (Go.emitModels barkDocument) (.ident (Go.exportIdent "Cat"))
        (.struct [[⟨"name", true, false, .ident "string"⟩]]) := ⟨2, rfl⟩
    refine (Go.reads_object_iff hk).mpr ⟨?_, ?_, fun gs _ _ => ?_⟩
    · intro f hf w hw
      obtain rfl := List.mem_singleton.mp (show f ∈ [_] from hf)
      cases hw
    · intro f hf _
      obtain rfl := List.mem_singleton.mp (show f ∈ [_] from hf)
      exact ⟨.text "", 2, rfl⟩
    · rw [hfold]
      rfl
  have harms : barkUnion.arms = ["Cat", "Dog"] := rfl
  rw [harms] at hsplit
  cases before with
  | nil =>
      obtain ⟨hname, -⟩ := List.cons.inj hsplit
      exact absurd hname (by decide)
  | cons X before =>
      obtain ⟨rfl, -⟩ := List.cons.inj hsplit
      exact hbefore "Cat" List.mem_cons_self hcat

end Native

end SpecForge
