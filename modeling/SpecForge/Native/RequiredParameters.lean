import SpecForge.Native.Calls

/-!
# Required parameters reach the request

A required parameter is of use if the method takes an argument for it and the call carries the
argument's text where the parameter is declared, under its name. Neither SDK takes headers, a path
parameter is carried only by a placeholder of its name, and Rust sends JSON for the values of some
types that have a text of their own.
-/

namespace SpecForge

open Lib Native

/-! ## §1  What a call carries -/

/-- The text stands in the call where its parameter belongs: in the path that is left when every
placeholder is filled in somehow and this one with the text, escaped; or under its name. -/
def Carries (escape : Octets → Octets) (op : Operation) (c : ClientCall) (p : Parameter)
    (form : Octets) : Prop :=
  match p.location with
  | .path => .placeholder (octets p.name) ∈ templateParts (octets op.path) ∧
      ∃ fill : TemplatePart → Octets, (∀ text, fill (.lit text) = text) ∧
        fill (.placeholder (octets p.name)) = escape form ∧
        c.path = (templateParts (octets op.path)).flatMap fill
  | .query => (octets p.name, form) ∈ c.query
  | .header => (octets p.name, form) ∈ c.headers

/-- Whatever its arguments are, the method makes a call that carries the required ones. -/
structure Go.CarriesRequired (doc : Document) (op : Operation) : Prop where
  taken : ∀ p ∈ op.parameters, p.required = true → p ∈ argParams op
  carried : ∀ args : List Go.Arg, args.length = (argParams op).length →
    ∃ c, Go.call doc op args = some c ∧ ∀ x ∈ (argParams op).zip args, x.1.required = true →
      Carries Go.pathEscape op c x.1 x.2.form

structure Rust.CarriesRequired (u : Rust.Unicode) (doc : Document) (op : Operation) : Prop where
  taken : ∀ p ∈ op.parameters, p.required = true → p ∈ argParams op
  carried : ∀ args : List (Option Rust.Arg), Rust.Typed doc op args →
    ∃ c, Rust.call u doc op args = some c ∧ ∀ x ∈ (argParams op).zip args,
      x.1.required = true → ∀ a, x.2 = some a →
        Carries Rust.pathSeg op c x.1 (Rust.form doc x.1 a)

/-- What has a text of its own is not turned into JSON, unless that is the same. -/
def Rust.SendsForm (doc : Document) (p : Parameter) : Prop :=
  Rust.rustCoerceString p.ty = .json → Rust.displays doc p.ty = true →
    Rust.displaysJson doc p.ty = true

/-- No required header, and a placeholder for every required path parameter. -/
structure Placed (op : Operation) : Prop where
  headers : ∀ p ∈ op.parameters, p.required = true → p.location ≠ .header
  paths : ∀ p ∈ op.parameters, p.required = true → p.location = .path →
    .placeholder (octets p.name) ∈ templateParts (octets op.path)

/-! ## §2  What they carry -/

section Carried

variable {doc : Document} {op : Operation}

theorem Placed.mem_argParams (h : Placed op) {p : Parameter} (hp : p ∈ op.parameters)
    (hreq : p.required = true) : p ∈ argParams op :=
  SpecForge.mem_argParams.mpr ⟨hp, h.headers p hp hreq⟩

/-- A path expression that has placeholders in it is its parts. -/
theorem Go.flatMap_pathExpr {env : String → Option Go.Arg} {name : Octets}
    (hname : .placeholder name ∈ templateParts (octets op.path)) (hparams : pathParams op ≠ []) :
    (Go.pathExpr op).flatMap (Go.PathExpr.text env) = (templateParts (octets op.path)).flatMap
      fun part => (Go.partExpr (pathParams op) part).flatMap (Go.PathExpr.text env) := by
  have hne : ((templateParts (octets op.path)).flatMap
      (Go.partExpr (pathParams op))).isEmpty = false := by
    rw [List.isEmpty_eq_false_iff]
    intro hnil
    have hpart := List.flatMap_eq_nil_iff.mp hnil _ hname
    rw [Go.partExpr] at hpart
    split at hpart <;> cases hpart
  have hparams' : (pathParams op).isEmpty = false := List.isEmpty_eq_false_iff.mpr hparams
  unfold Go.pathExpr Go.buildPathConcat
  dsimp only
  rw [hparams', if_neg (by simp), hne, if_neg (by simp), List.flatMap_assoc]

theorem Go.carries_of_compiles (h : Go.Compiles doc op) (hplaced : SpecForge.Placed op)
    {args : List Go.Arg} (hlen : args.length = (argParams op).length) {x : Parameter × Go.Arg}
    (hx : x ∈ (argParams op).zip args) (hreq : x.1.required = true) :
    Carries Go.pathEscape op
      ⟨(Go.pathExpr op).flatMap (Go.PathExpr.text (bindArgs (Go.argIdents op) args)),
        Go.sentPairs (bindArgs (Go.argIdents op) args) (queryParams op), []⟩ x.1 x.2.form := by
  obtain ⟨p, a⟩ := x
  have hp : p ∈ argParams op := (List.of_mem_zip hx).1
  obtain ⟨hmem, hheader⟩ := SpecForge.mem_argParams.mp hp
  have ha : bindArgs (Go.argIdents op) args (Go.goParamIdent p.name) = some a :=
    h.bindArgs_eq hlen hx
  unfold Carries
  cases hloc : p.location with
  | header => exact absurd hloc hheader
  | query =>
      refine List.mem_filterMap.mpr ⟨p, mem_queryParams.mpr ⟨hmem, hloc⟩, ?_⟩
      have hsends : Go.sends p a = true := by
        rw [Go.sends, hreq]
        rfl
      rw [ha, Option.bind_some, if_pos hsends]
  | path =>
      have hpath := mem_pathParams.mpr ⟨hmem, hloc⟩
      have hplace := hplaced.paths p hmem hreq hloc
      refine ⟨hplace, _, fun text => ?_, ?_,
        Go.flatMap_pathExpr hplace (List.ne_nil_of_mem hpath)⟩
      · rw [Go.partExpr]
        split
        · next hempty => rw [List.isEmpty_iff.mp hempty]; rfl
        · exact List.flatMap_singleton ..
      · rw [Go.partExpr, h.findParam_eq hpath]
        dsimp only
        rw [List.flatMap_singleton, Go.PathExpr.text, ha]
        rfl

section Forms

variable {u : Rust.Unicode} {p : Parameter} {a : Rust.Arg}

theorem Rust.form_of_displays (h : Rust.displays doc p.ty = true) :
    Rust.form doc p a = a.display := if_pos h

/-- The text that is sent is that of the argument. -/
theorem Rust.text_eq_form (hcoerces : Rust.coerces doc p.ty = true) (hsends : Rust.SendsForm doc p)
    (hjson : Rust.displaysJson doc p.ty = true → a.json = a.display) :
    (Rust.rustCoerceString p.ty).text a = Rust.form doc p a := by
  unfold Rust.coerces at hcoerces
  cases hcoercion : Rust.rustCoerceString p.ty with
  | clone =>
      rw [hcoercion] at hcoerces
      have hdisplays : Rust.displays doc p.ty = true := by
        rw [Rust.displays, beq_iff_eq.mp hcoerces]
      exact (Rust.form_of_displays hdisplays).symm
  | toString =>
      rw [hcoercion] at hcoerces
      exact (Rust.form_of_displays hcoerces).symm
  | json =>
      change a.json = Rust.form doc p a
      unfold Rust.form
      split
      · next hdisplays => exact hjson (hsends hcoercion hdisplays)
      · rfl

theorem Rust.Compiles.coerces (h : Rust.Compiles u doc op) (hp : p ∈ queryParams op) :
    Rust.coerces doc p.ty = true := by
  have htypes := h.types
  rw [Rust.typesCompile, Bool.and_eq_true, List.all_eq_true] at htypes
  exact htypes.2 p hp

/-- The placeholder of a parameter compiles only if its type has `Display`. -/
theorem Rust.Compiles.displays (h : Rust.Compiles u doc op) (hp : p ∈ pathParams op)
    (hplace : .placeholder (octets p.name) ∈ templateParts (octets op.path)) :
    Rust.displays doc p.ty = true := by
  have hany : (templateParts (octets op.path)).any Rust.isPlaceholder = true :=
    List.any_eq_true.mpr ⟨_, hplace, rfl⟩
  have hparts := h.path
  rw [if_pos hany, List.all_eq_true] at hparts
  have hpart := hparts _ hplace
  rw [Rust.partCompiles, h.findParam_eq hp] at hpart
  exact Rust.displays_of_formats hpart

theorem Rust.carries_of_compiles (h : Rust.Compiles u doc op) (hplaced : Placed op)
    (hsends : ∀ p ∈ queryParams op, p.required = true → Rust.SendsForm doc p)
    {args : List (Option Rust.Arg)} (hargs : Rust.Typed doc op args)
    {x : Parameter × Option Rust.Arg} (hx : x ∈ (argParams op).zip args)
    (hreq : x.1.required = true) (ha : x.2 = some a) : Carries Rust.pathSeg op
      ⟨(templateParts (octets op.path)).flatMap
          (Rust.partText u (pathParams op) (bindArgs (Rust.argIdents u op) args)),
        Rust.sentPairs u (bindArgs (Rust.argIdents u op) args) (queryParams op), []⟩ x.1
      (Rust.form doc x.1 a) := by
  obtain ⟨p, arg⟩ := x
  obtain rfl : arg = some a := ha
  have hp : p ∈ argParams op := (List.of_mem_zip hx).1
  obtain ⟨hmem, hheader⟩ := SpecForge.mem_argParams.mp hp
  have hbound : bindArgs (Rust.argIdents u op) args (Rust.snake u.toCharCase p.name) =
      some (some a) := h.bindArgs_eq hargs hx
  unfold Carries
  cases hloc : p.location with
  | header => exact absurd hloc hheader
  | query =>
      have hquery := mem_queryParams.mpr ⟨hmem, hloc⟩
      have htext := Rust.text_eq_form (h.coerces hquery) (hsends p hquery hreq)
        fun hjson => hargs.json _ hx hjson a rfl
      refine List.mem_filterMap.mpr ⟨p, hquery, ?_⟩
      rw [hbound, ← htext]
      rfl
  | path =>
      have hpath := mem_pathParams.mpr ⟨hmem, hloc⟩
      have hplace := hplaced.paths p hmem hreq hloc
      refine ⟨hplace, _, fun _ => rfl, ?_, rfl⟩
      rw [Rust.partText, h.findParam_eq hpath, Rust.form_of_displays (h.displays hpath hplace)]
      dsimp only
      rw [hbound]
      rfl

end Forms

/-! ## §3  When all required parameters are carried -/

theorem placed_of_taken (htaken : ∀ p ∈ op.parameters, p.required = true → p ∈ argParams op)
    (hpaths : ∀ p ∈ argParams op, p.required = true → p.location = .path →
      .placeholder (octets p.name) ∈ templateParts (octets op.path)) : Placed op where
  headers p hp hreq := (SpecForge.mem_argParams.mp (htaken p hp hreq)).2
  paths p hp hreq := hpaths p (htaken p hp hreq) hreq

theorem Go.carriesRequired_iff :
    Go.CarriesRequired doc op ↔ SpecForge.Placed op ∧ Go.Compiles doc op := by
  constructor
  · intro h
    -- any arguments do
    let args : List Go.Arg := (argParams op).map fun _ => ⟨[], false⟩
    have hlen : args.length = (argParams op).length := List.length_map ..
    obtain ⟨c, hc, hcarries⟩ := h.carried args hlen
    refine ⟨placed_of_taken h.taken fun p hp hreq hloc => ?_, Go.compiles_of_call hc⟩
    obtain ⟨a, ha⟩ := exists_mem_zip hlen hp
    have hcarry := hcarries (p, a) ha hreq
    unfold Carries at hcarry
    rw [hloc] at hcarry
    exact hcarry.1
  · rintro ⟨hplaced, hcompiles⟩
    refine ⟨fun p hp hreq => hplaced.mem_argParams hp hreq, fun args hlen => ?_⟩
    exact ⟨_, Go.call_eq hcompiles hlen, fun x hx hreq =>
      Go.carries_of_compiles hcompiles hplaced hlen hx hreq⟩

section Telling

variable {u : Rust.Unicode}

/-- An argument that tells its text from its JSON wherever they may differ. -/
def Rust.tellingArg (doc : Document) (p : Parameter) : Rust.Arg :=
  ⟨[], if Rust.displaysJson doc p.ty then [] else [34, 34]⟩

theorem Rust.mem_zip_tellingArg {x : Parameter × Option Rust.Arg} :
    x ∈ (argParams op).zip ((argParams op).map fun p => some (Rust.tellingArg doc p)) ↔
      x.1 ∈ argParams op ∧ x.2 = some (Rust.tellingArg doc x.1) := by
  rw [← List.map_prod_left_eq_zip, List.mem_map]
  constructor
  · rintro ⟨p, hp, rfl⟩
    exact ⟨hp, rfl⟩
  · rintro ⟨hp, ha⟩
    exact ⟨x.1, hp, Prod.ext rfl ha.symm⟩

theorem Rust.typed_tellingArg (doc : Document) (op : Operation) :
    Rust.Typed doc op ((argParams op).map fun p => some (Rust.tellingArg doc p)) := by
  refine ⟨List.length_map .., fun x hx _ => ?_, fun x hx hjson a ha => ?_⟩
  · rw [(Rust.mem_zip_tellingArg.mp hx).2]
    exact Option.some_ne_none _
  · rw [(Rust.mem_zip_tellingArg.mp hx).2] at ha
    rw [← Option.some.inj ha, Rust.tellingArg, if_pos hjson]

/-- If the telling arguments are carried, no text is turned into JSON. -/
theorem Rust.sendsForm_of_carried (h : Rust.Compiles u doc op) {p : Parameter}
    (hp : p ∈ queryParams op)
    (hcarried : (octets p.name, Rust.form doc p (Rust.tellingArg doc p)) ∈
      Rust.sentPairs u (bindArgs (Rust.argIdents u op)
        ((argParams op).map fun p => some (Rust.tellingArg doc p))) (queryParams op)) :
    Rust.SendsForm doc p := by
  intro hcoercion hdisplays
  obtain ⟨q, hq, hsent⟩ := List.mem_filterMap.mp hcarried
  obtain ⟨arg, hbound, hzip, -⟩ :=
    h.bound (Rust.typed_tellingArg doc op) (List.mem_append_right _ hq)
  obtain rfl : arg = some (Rust.tellingArg doc q) := (Rust.mem_zip_tellingArg.mp hzip).2
  rw [hbound] at hsent
  obtain ⟨hname, htext⟩ := Prod.mk.inj (Option.some.inj hsent)
  -- the pair is that of the parameter itself
  have hident : Rust.snake u.toCharCase q.name = Rust.snake u.toCharCase p.name := by
    rw [octets_inj.mp hname]
  obtain rfl : q = p := List.inj_on_of_nodup_map h.distinct (List.mem_append_right _ hq)
    (List.mem_append_right _ hp) hident
  rw [hcoercion, Rust.form_of_displays hdisplays] at htext
  by_contra hjson
  have hjsonText : (Rust.tellingArg doc q).json = [34, 34] := if_neg hjson
  have hempty : (Rust.tellingArg doc q).json = [] := htext
  rw [hjsonText] at hempty
  cases hempty

end Telling

theorem Rust.carriesRequired_iff {u : Rust.Unicode} : Rust.CarriesRequired u doc op ↔
    Placed op ∧ Rust.Compiles u doc op ∧
      ∀ p ∈ queryParams op, p.required = true → Rust.SendsForm doc p := by
  constructor
  · intro h
    have hargs := Rust.typed_tellingArg doc op
    obtain ⟨c, hc, hcarries⟩ := h.carried _ hargs
    have hcompiles := Rust.compiles_of_call hc
    have hcarry : ∀ p ∈ argParams op, p.required = true →
        Carries Rust.pathSeg op c p (Rust.form doc p (Rust.tellingArg doc p)) := by
      intro p hp hreq
      exact hcarries (p, _) (Rust.mem_zip_tellingArg.mpr ⟨hp, rfl⟩) hreq _ rfl
    refine ⟨placed_of_taken h.taken fun p hp hreq hloc => ?_, hcompiles, fun p hp hreq => ?_⟩
    · have hpath := hcarry p hp hreq
      unfold Carries at hpath
      rw [hloc] at hpath
      exact hpath.1
    · have hquery := hcarry p (List.mem_append_right _ hp) hreq
      rw [Rust.call_eq hcompiles hargs] at hc
      unfold Carries at hquery
      rw [(mem_queryParams.mp hp).2, ← Option.some.inj hc] at hquery
      exact Rust.sendsForm_of_carried hcompiles hp hquery
  · rintro ⟨hplaced, hcompiles, hsends⟩
    refine ⟨fun p hp hreq => hplaced.mem_argParams hp hreq, fun args hargs => ?_⟩
    exact ⟨_, Rust.call_eq hcompiles hargs, fun x hx hreq a ha =>
      Rust.carries_of_compiles hcompiles hplaced hsends hargs hx hreq ha⟩

end Carried

end SpecForge
