import SpecForge.Core.Merge
import SpecForge.Lib.Fuel

/-!
# The Swagger Editor export

The model of `swagger_export.rs` (§1). The walk replaces an object by what its reference
is looked up to and goes on in the result, so it need not end (§2). What it returns is
described from the value it starts from: the members (§3) and the references that are
left (§4).
-/

namespace SpecForge

open Lib
open Value (Refers)

/-! ## §1  The model -/

/-- A reference is a path from the components, less its first segment. -/
def resolveRef (reference : String) (components : Value) : Option Value :=
  (Text.stripPrefix "#/" reference).bind fun refPath =>
    let segments := Text.split '/' refPath
    if segments.length < 2 then none
    else (segments.drop 1).foldlM (fun current segment => current.get (unescape segment)) components

/-- What the reference of an object is looked up to. -/
def lookedUp (components v : Value) : Option Value :=
  ((v.get "$ref").bind Value.asStr).bind (resolveRef · components)

def resolveRefsInValue (components : Value) : ℕ → Value → Option Value
  | 0, _ => none
  | n + 1, .object obj =>
      match lookedUp components (.object obj) with
      | some resolved => resolveRefsInValue components n resolved
      | none => (obj.mapM fun e => (resolveRefsInValue components n e.2).map (e.1, ·)).map .object
  | n + 1, .array arr => (arr.mapM (resolveRefsInValue components n)).map .array
  | _ + 1, v => some v

/-- The table that references are looked up in. -/
def exportComponents (bundle : Value) : Value :=
  ((bundle.get "components").bind (·.get "schemas")).getD (.object [])

/-- The document before the walk. -/
def exportBundle (spec : Value) : Value :=
  ensureMember "paths" (spec.insert "openapi" (.string "3.0.3"))

/-- The document that is then written out as YAML. -/
def exportSwaggerEditor (n : ℕ) (spec : Value) : Option Value :=
  resolveRefsInValue (exportComponents (spec.insert "openapi" (.string "3.0.3"))) n
    (exportBundle spec)

/-! ## §2  Where the walk ends -/

/-- The values the walk goes on to. -/
inductive WalkCalls (components : Value) : Value → Value → Prop where
  | resolved {v u} : lookedUp components v = some u → WalkCalls components v u
  | part {v w} : lookedUp components v = none → Value.Part v w → WalkCalls components v w

section

variable {components v w u : Value} {es fs : List (String × Value)} {xs : List Value}

/-- The walk returns the value. -/
def WalksTo (components v w : Value) : Prop :=
  Returns (fun n => resolveRefsInValue components n v) w

theorem isObject_of_lookedUp (h : lookedUp components v = some u) : ∃ es, v = .object es := by
  cases v with
  | object es => exact ⟨es, rfl⟩
  | _ => cases h

theorem resolveRefsInValue_stable : ∀ v, Stable fun n => resolveRefsInValue components n v := by
  intro v n
  induction n generalizing v with
  | zero =>
      intro b h
      cases h
  | succ n ih =>
      intro b h
      cases v with
      | object es =>
          dsimp only at h ⊢
          rw [resolveRefsInValue] at h ⊢
          split at h
          · exact ih _ b h
          · refine mapM_map_stable (fun e _ x hx => ?_) h
            obtain ⟨y, hy, rfl⟩ := Option.map_eq_some_iff.mp hx
            have hy' : resolveRefsInValue components (n + 1) e.2 = some y := ih e.2 y hy
            rw [hy', Option.map_some]
      | array xs => exact mapM_map_stable (fun x _ y hy => ih x y hy) h
      | _ => exact h

theorem entry_stable (e : String × Value) :
    Stable fun n => (resolveRefsInValue components n e.2).map (e.1, ·) := by
  intro n b h
  obtain ⟨y, hy, rfl⟩ := Option.map_eq_some_iff.mp h
  have hy' : resolveRefsInValue components (n + 1) e.2 = some y :=
    resolveRefsInValue_stable e.2 n y hy
  exact congrArg (Option.map (e.1, ·)) hy'

theorem walksTo_resolved (h : lookedUp components v = some u) :
    WalksTo components v w ↔ WalksTo components u w := by
  obtain ⟨es, rfl⟩ := isObject_of_lookedUp h
  refine returns_succ_iff rfl fun n => ?_
  rw [resolveRefsInValue, h]

theorem walksTo_object (h : lookedUp components (.object es) = none) :
    WalksTo components (.object es) w ↔ ∃ fs, w = .object fs ∧
      List.Forall₂ (fun e f => e.1 = f.1 ∧ WalksTo components e.2 f.2) es fs := by
  have hstep : ∀ n, resolveRefsInValue components (n + 1) (.object es) =
      (es.mapM fun e => (resolveRefsInValue components n e.2).map (e.1, ·)).map .object := by
    intro n
    rw [resolveRefsInValue, h]
  have hentry : ∀ {e f : String × Value},
      Returns (fun n => (resolveRefsInValue components n e.2).map (e.1, ·)) f ↔
        e.1 = f.1 ∧ WalksTo components e.2 f.2 := by
    intro e f
    constructor
    · rintro ⟨n, hn⟩
      obtain ⟨y, hy, rfl⟩ := Option.map_eq_some_iff.mp hn
      exact ⟨rfl, n, hy⟩
    · rintro ⟨hkey, hret⟩
      obtain ⟨k, x⟩ := f
      obtain rfl : e.1 = k := hkey
      exact hret.map (e.1, ·)
  rw [WalksTo, returns_succ_iff rfl hstep]
  constructor
  · rintro ⟨n, hn⟩
    obtain ⟨fs, hfs, rfl⟩ := Option.map_eq_some_iff.mp hn
    have hret := (returns_mapM_iff fun e _ => entry_stable e).mp ⟨n, hfs⟩
    exact ⟨fs, rfl, hret.imp fun _ _ => hentry.mp⟩
  · rintro ⟨fs, rfl, hfs⟩
    exact ((returns_mapM_iff fun e _ => entry_stable e).mpr
      (hfs.imp fun _ _ => hentry.mpr)).map Value.object

theorem walksTo_array : WalksTo components (.array xs) w ↔ ∃ ys, w = .array ys ∧
    List.Forall₂ (WalksTo components) xs ys := by
  rw [WalksTo, returns_succ_iff rfl fun n => rfl]
  constructor
  · rintro ⟨n, hn⟩
    obtain ⟨ys, hys, rfl⟩ := Option.map_eq_some_iff.mp hn
    exact ⟨ys, rfl, (returns_mapM_iff fun x _ => resolveRefsInValue_stable x).mp ⟨n, hys⟩⟩
  · rintro ⟨ys, rfl, hys⟩
    exact ((returns_mapM_iff fun x _ => resolveRefsInValue_stable x).mpr hys).map Value.array

/-- Neither an object nor an array. -/
def Value.Leaf (v : Value) : Prop := v.asObject = none ∧ v.asArray = none

theorem walksTo_leaf (h : v.Leaf) : WalksTo components v w ↔ v = w := by
  obtain ⟨hobject, harray⟩ := h
  rw [WalksTo]
  cases v with
  | object es => cases hobject
  | array xs => cases harray
  | _ => exact (returns_succ_iff rfl fun n => rfl).trans returns_const

theorem resolveRefsInValue_recurses (components : Value) :
    Recurses (resolveRefsInValue components) (WalkCalls components) where
  zero := fun _ => rfl
  returns := by
    intro v ih
    cases v with
    | object es =>
        cases h : lookedUp components (.object es) with
        | some u =>
            obtain ⟨w, hw⟩ := ih u (.resolved h)
            exact ⟨w, (walksTo_resolved h).mpr hw⟩
        | none =>
            have hret : ∀ e ∈ es, ∃ f,
                Returns (fun n => (resolveRefsInValue components n e.2).map (e.1, ·)) f := by
              intro e he
              obtain ⟨w, hw⟩ := ih e.2 (.part h (.member he))
              exact ⟨_, hw.map (e.1, ·)⟩
            obtain ⟨w, hw⟩ := exists_returns_mapM (fun e _ => entry_stable e) hret Value.object
            refine ⟨w, (returns_succ_iff rfl fun n => ?_).mpr hw⟩
            rw [resolveRefsInValue, h]
    | array xs =>
        obtain ⟨w, hw⟩ := exists_returns_mapM (fun x _ => resolveRefsInValue_stable x)
          (fun x hx => ih x (.part rfl (.item hx))) Value.array
        exact ⟨w, (returns_succ_iff rfl fun n => rfl).mpr hw⟩
    | _ => exact ⟨_, (walksTo_leaf ⟨rfl, rfl⟩).mpr rfl⟩
  callee := by
    intro n v w hcall hsome
    cases hcall with
    | resolved h =>
        obtain ⟨es, rfl⟩ := isObject_of_lookedUp h
        rw [resolveRefsInValue, h] at hsome
        exact hsome
    | part h hpart =>
        cases hpart with
        | item hx => exact isSome_of_mapM hsome hx
        | member he =>
            rw [resolveRefsInValue, h] at hsome
            have hentry := isSome_of_mapM hsome he
            rwa [Option.isSome_map] at hentry

/-- The walk ends where every chain of lookups and parts does. -/
theorem walks_iff_acc :
    (∃ w, WalksTo components v w) ↔ Acc (fun w v => WalkCalls components v w) v :=
  (resolveRefsInValue_recurses components).returns_iff_acc v

end

/-! ## §3  Members -/

/-- One lookup after the other leads from a value to another one. -/
def LooksUp (components : Value) : Value → Value → Prop :=
  Relation.ReflTransGen fun v u => lookedUp components v = some u

/-- After its lookups the value is an object with this member. -/
def Leads (components v : Value) (k : String) (x : Value) : Prop :=
  ∃ es, LooksUp components v (.object es) ∧ lookedUp components (.object es) = none ∧
    es.lookup k = some x

section

variable {components v w u x : Value} {k r : String}

/-- Lookups do not change where the walk arrives. -/
theorem walksTo_of_looksUp (h : LooksUp components v u) :
    WalksTo components v w ↔ WalksTo components u w := by
  induction h with
  | refl => exact Iff.rfl
  | tail _ hu ih => exact ih.trans (walksTo_resolved hu)

/-- The lookups on the way to a result end at a value without one. -/
theorem exists_looksUp (h : WalksTo components v w) :
    ∃ u, LooksUp components v u ∧ lookedUp components u = none := by
  have hacc := walks_iff_acc.mp ⟨w, h⟩
  clear h
  induction hacc with
  | intro v _ ih =>
      cases hu : lookedUp components v with
      | none => exact ⟨v, .refl, hu⟩
      | some u =>
          obtain ⟨u', hu', hnone⟩ := ih u (.resolved hu)
          exact ⟨u', .head hu hu', hnone⟩

/-- A result that is an object was an object, after some lookups. -/
theorem looksUp_object {gs : List (String × Value)} (h : WalksTo components v (.object gs)) :
    ∃ es, LooksUp components v (.object es) ∧ lookedUp components (.object es) = none ∧
      List.Forall₂ (fun e f => e.1 = f.1 ∧ WalksTo components e.2 f.2) es gs := by
  obtain ⟨u, hu, hnone⟩ := exists_looksUp h
  rw [walksTo_of_looksUp hu] at h
  cases u with
  | object es =>
      obtain ⟨fs, hfs, hall⟩ := (walksTo_object hnone).mp h
      cases hfs
      exact ⟨es, hu, hnone, hall⟩
  | array xs =>
      obtain ⟨ys, hys, -⟩ := walksTo_array.mp h
      cases hys
  | _ => cases (walksTo_leaf ⟨rfl, rfl⟩).mp h

theorem looksUp_array {ys : List Value} (h : WalksTo components v (.array ys)) :
    ∃ xs, LooksUp components v (.array xs) ∧ List.Forall₂ (WalksTo components) xs ys := by
  obtain ⟨u, hu, hnone⟩ := exists_looksUp h
  rw [walksTo_of_looksUp hu] at h
  cases u with
  | object es =>
      obtain ⟨fs, hfs, -⟩ := (walksTo_object hnone).mp h
      cases hfs
  | array xs =>
      obtain ⟨ys, hys, hall⟩ := walksTo_array.mp h
      cases hys
      exact ⟨xs, hu, hall⟩
  | _ => cases (walksTo_leaf ⟨rfl, rfl⟩).mp h

theorem walksTo_leaf_iff (hw : w.Leaf) : WalksTo components v w ↔ LooksUp components v w := by
  constructor
  · intro h
    obtain ⟨u, hu, hnone⟩ := exists_looksUp h
    rw [walksTo_of_looksUp hu] at h
    cases u with
    | object es =>
        obtain ⟨fs, rfl, -⟩ := (walksTo_object hnone).mp h
        cases hw.1
    | array xs =>
        obtain ⟨ys, rfl, -⟩ := walksTo_array.mp h
        cases hw.2
    | _ => exact (walksTo_leaf ⟨rfl, rfl⟩).mp h ▸ hu
  · intro h
    exact (walksTo_of_looksUp h).mpr ((walksTo_leaf hw).mpr rfl)

/-- A member of the result comes from a member that the lookups lead to. -/
theorem leads_of_get {y : Value} (h : WalksTo components v w) (hget : w.get k = some y) :
    ∃ x, Leads components v k x ∧ WalksTo components x y := by
  obtain ⟨gs, rfl⟩ := Value.isObject_iff.mp (Value.isObject_of_get hget)
  obtain ⟨es, hu, hnone, hall⟩ := looksUp_object h
  obtain ⟨x, hx, hxy⟩ := (BTreeMap.lookup_of_forall₂ hall).2 y hget
  exact ⟨x, ⟨es, hu, hnone, hx⟩, hxy⟩

theorem get_of_leads (h : WalksTo components v w) (hleads : Leads components v k x) :
    ∃ y, w.get k = some y ∧ WalksTo components x y := by
  obtain ⟨es, hu, hnone, hx⟩ := hleads
  rw [walksTo_of_looksUp hu] at h
  obtain ⟨fs, rfl, hfs⟩ := (walksTo_object hnone).mp h
  exact (BTreeMap.lookup_of_forall₂ hfs).1 x hx

theorem walksTo_unique {w' : Value} (h : WalksTo components v w) (h' : WalksTo components v w') :
    w = w' :=
  Returns.unique (resolveRefsInValue_stable v) h h'

end

/-! ## §4  References that are left -/

/-- Walking the value leaves the reference `r` in the result. -/
inductive Leaves (components : Value) (r : String) : Value → Prop where
  | here {v e} : Leads components v "$ref" e → LooksUp components e (.string r) →
      Leaves components r v
  | item {v xs x} : LooksUp components v (.array xs) → x ∈ xs → Leaves components r x →
      Leaves components r v
  | member {v k x} : Leads components v k x → Leaves components r x → Leaves components r v

/-- **The references of the result are those that the walk leaves.** -/
theorem refers_walk {components v w : Value} {r : String} (h : WalksTo components v w) :
    w.Refers r ↔ Leaves components r v := by
  constructor
  · intro hrefers
    induction hrefers generalizing v with
    | here hget =>
        obtain ⟨e, he, hwalk⟩ := leads_of_get h hget
        exact .here he ((walksTo_leaf_iff ⟨rfl, rfl⟩).mp hwalk)
    | item hx _ ih =>
        obtain ⟨xs, hu, hall⟩ := looksUp_array h
        obtain ⟨y, hy, hyx⟩ := forall₂_mem_right hall hx
        exact .item hu hy (ih hyx)
    | member hget _ ih =>
        obtain ⟨x, hx, hwalk⟩ := leads_of_get h hget
        exact .member hx (ih hwalk)
  · intro hleaves
    induction hleaves generalizing w with
    | here he hstring =>
        obtain ⟨y, hy, hwalk⟩ := get_of_leads h he
        exact .here (walksTo_unique hwalk ((walksTo_leaf_iff ⟨rfl, rfl⟩).mpr hstring) ▸ hy)
    | item hu hx _ ih =>
        obtain ⟨ys, rfl, hall⟩ := walksTo_array.mp ((walksTo_of_looksUp hu).mp h)
        obtain ⟨y, hy, hxy⟩ := forall₂_mem_left hall hx
        exact .item hy (ih hxy)
    | member hx _ ih =>
        obtain ⟨y, hy, hwalk⟩ := get_of_leads h hx
        exact .member hy (ih hwalk)

end SpecForge
