import SpecForge.Native.Calls
import SpecForge.Rust.Retry

/-!
# Where the calls go

The clients put the path behind the base URL and the query behind the path. What they send there
is read again: the path ends at the first question mark and its segments are decoded one by one,
and the query is read as a form.

- §1 what is sent; §2 what should be read; §3 the template, filled in; §4 Go; §5 Rust.
-/

namespace SpecForge

open Lib Lib.Percent Native

/-! ## §1  The clients -/

def withQuery (encode : List (Octets × Octets) → Octets) (c : ClientCall) : Octets :=
  if c.query.isEmpty then c.path else c.path ++ 63 :: encode c.query

namespace Go

/-- `url.QueryEscape`. -/
def queryEscape (s : Octets) : Octets := write (escapeForm s)

/-- A `url.Values` has no order of its own. -/
def byKey (query : List (Octets × Octets)) : List (Octets × Octets) :=
  query.mergeSort fun e f => decide (e.1 ≤ f.1)

/-- `url.Values.Encode`. -/
def encodeQuery (query : List (Octets × Octets)) : Octets :=
  [38].intercalate ((byKey query).map fun e => queryEscape e.1 ++ 61 :: queryEscape e.2)

/-- The URL of `DoJSON` and of `DoStream`, behind the base. -/
def target (c : ClientCall) : Octets := withQuery encodeQuery c

end Go

namespace Rust

/-- `urlencoding_lite`, on bytes. -/
def urlencodingBytes (s : Octets) : Octets := write (escapeBytes unreserved s)

/-- Only the values are escaped. -/
def encodeQuery (query : List (Octets × Octets)) : Octets :=
  [38].intercalate (query.map fun e => e.1 ++ 61 :: urlencodingBytes e.2)

/-- `full_url`, behind the base. -/
def target (c : ClientCall) : Octets := withQuery encodeQuery c

end Rust

/-! ## §2  What is read -/

def pathOf (target : Octets) : Octets := target.takeWhile (· != 63)

def queryOf (target : Octets) : Octets := (target.dropWhile (· != 63)).drop 1

section Passed

variable {α : Type}

/-- The argument for the path parameter of a name. -/
def pathArg (op : Operation) (args : List α) (name : Octets) : Option α :=
  (((argParams op).zip args).find? fun x => isAt .path x.1 && octets x.1.name == name).map (·.2)

/-- The query parameters with the texts that are passed for them. -/
def passedPairs (op : Operation) (text : Parameter → α → Option Octets) (args : List α) :
    List (Octets × Octets) :=
  ((argParams op).zip args).filterMap fun x =>
    if isAt .query x.1 then (text x.1 x.2).map fun v => (octets x.1.name, v) else none

end Passed

/-- A part of the template with what stands for it: texts as they are, arguments with some bytes
kept and the others escaped. -/
def writtenPart (keep : UInt8 → Bool) (unknown : Octets → Octets) (arg : Octets → Option Octets) :
    TemplatePart → List Token
  | .lit text => text.map .raw
  | .placeholder name =>
      match arg name with
      | some form => escapeBytes keep form
      | none => (unknown name).map .raw

def written (keep : UInt8 → Bool) (unknown : Octets → Octets) (arg : Octets → Option Octets)
    (path : Octets) : List Token :=
  (templateParts path).flatMap (writtenPart keep unknown arg)

/-- The template with its placeholders replaced. Only slashes of the template separate. -/
def filled (arg : Octets → Option Octets) (path : Octets) : List Token :=
  written (fun _ => false) braced arg path

/-- What is read is the template with the arguments, and the pairs. -/
structure Delivers (op : Operation) (arg : Octets → Option Octets)
    (pairs : List (Octets × Octets)) (target : Octets) : Prop where
  fragment : 35 ∉ target
  count : ((pathOf target).splitOn 47).length = ((octets op.path).splitOn 47).length
  segments : ((pathOf target).splitOn 47).map percentDecode =
    ((filled arg (octets op.path)).splitOn (.raw 47)).map values
  query : parseForm (queryOf target) = pairs

/-! ## §3  The template, filled in -/

section Template

variable {keep : UInt8 → Bool} {unknown : Octets → Octets} {arg : Octets → Option Octets}
  {path : Octets}

theorem raw_mem_map {b : UInt8} {s : Octets} : Token.raw b ∈ s.map Token.raw ↔ b ∈ s := by
  rw [List.mem_map]
  constructor
  · rintro ⟨a, ha, heq⟩
    exact Token.raw.inj heq ▸ ha
  · exact fun hb => ⟨b, hb, rfl⟩

theorem mem_of_mem_source {part : TemplatePart} (hpart : part ∈ templateParts path) {b : UInt8}
    (hb : b ∈ part.source) : b ∈ path := by
  rw [← templateParts_source path]
  exact List.mem_flatMap.mpr ⟨part, hpart, hb⟩

/-- A byte that the template does not have comes from an argument. -/
theorem raw_mem_written (hunknown : ∀ name, unknown name ⊆ braced name) {b : UInt8}
    (hb : b ∉ path) : .raw b ∈ written keep unknown arg path ↔
      ∃ name, .placeholder name ∈ templateParts path ∧
        ∃ form, arg name = some form ∧ b ∈ form ∧ keep b = true := by
  rw [written, List.mem_flatMap]
  constructor
  · rintro ⟨part, hpart, hmem⟩
    cases part with
    | lit text =>
        have hsource : b ∈ (TemplatePart.lit text).source := raw_mem_map.mp hmem
        exact absurd (mem_of_mem_source hpart hsource) hb
    | placeholder name =>
        rw [writtenPart] at hmem
        cases harg : arg name with
        | none =>
            rw [harg] at hmem
            have hsource : b ∈ (TemplatePart.placeholder name).source :=
              hunknown name (raw_mem_map.mp hmem)
            exact absurd (mem_of_mem_source hpart hsource) hb
        | some form =>
            rw [harg] at hmem
            exact ⟨name, hpart, form, harg, raw_mem_escapeBytes.mp hmem⟩
  · rintro ⟨name, hpart, form, harg, hmem⟩
    refine ⟨_, hpart, ?_⟩
    rw [writtenPart, harg]
    exact raw_mem_escapeBytes.mpr hmem

/-- Where slashes are escaped, the segments are those of the template. -/
theorem map_values_written (hkeep : keep 47 = false) :
    ((written keep braced arg path).splitOn (.raw 47)).map values =
      ((filled arg path).splitOn (.raw 47)).map values := by
  apply map_values_splitOn
  refine List.rel_flatMap (R := Eq) (List.forall₂_same.mpr fun _ _ => rfl) ?_
  rintro part _ rfl
  cases part with
  | lit text => exact List.forall₂_same.mpr fun _ _ => ⟨rfl, Iff.rfl⟩
  | placeholder name =>
      rw [writtenPart, writtenPart]
      cases arg name with
      | none => exact List.forall₂_same.mpr fun _ _ => ⟨rfl, Iff.rfl⟩
      | some form =>
          dsimp only
          rw [escapeBytes, escapeBytes, List.forall₂_map_left_iff, List.forall₂_map_right_iff,
            List.forall₂_same]
          intro b _
          by_cases hb : keep b = true
          · refine ⟨by rw [if_pos hb]; rfl, ?_⟩
            rw [if_pos hb, if_neg (by simp), Token.raw.injEq]
            refine iff_of_false ?_ (by simp)
            rintro rfl
            rw [hkeep] at hb
            cases hb
          · rw [if_neg hb, if_neg (by simp)]
            exact ⟨rfl, Iff.rfl⟩

/-- There are as many slashes as in the template unless a name that is replaced has one. -/
theorem count_parts (hkeep : keep 47 = false)
    (hunknown : ∀ name, (unknown name).count 47 = name.count 47) (parts : List TemplatePart) :
    (parts.flatMap (writtenPart keep unknown arg)).count (.raw 47) ≤
        (parts.flatMap TemplatePart.source).count 47 ∧
      ((parts.flatMap (writtenPart keep unknown arg)).count (.raw 47) =
          (parts.flatMap TemplatePart.source).count 47 ↔
        ∀ name, .placeholder name ∈ parts → arg name ≠ none → 47 ∉ name) := by
  have hraw : ∀ s : Octets, (s.map Token.raw).count (.raw 47) = s.count 47 := fun s =>
    List.count_map_of_injective s _ (fun _ _ => Token.raw.inj) 47
  have hbraced : ∀ name : Octets, (braced name).count 47 = name.count 47 := by
    intro name
    simp [braced]
  induction parts with
  | nil => simp
  | cons part parts ih =>
      obtain ⟨hle, heq⟩ := ih
      rw [List.flatMap_cons, List.flatMap_cons, List.count_append, List.count_append]
      cases part with
      | lit text =>
          rw [writtenPart, TemplatePart.source, hraw, Nat.add_left_cancel_iff, heq]
          refine ⟨Nat.add_le_add_left hle _, ?_⟩
          simp
      | placeholder name =>
          rw [writtenPart, TemplatePart.source, hbraced]
          cases harg : arg name with
          | none =>
              dsimp only
              rw [hraw, hunknown, Nat.add_left_cancel_iff, heq]
              refine ⟨Nat.add_le_add_left hle _, forall_congr' fun name' => ?_⟩
              rw [List.mem_cons, TemplatePart.placeholder.injEq]
              refine ⟨fun h hmem hsome => h (hmem.resolve_left fun heq' => hsome (heq' ▸ harg)) hsome,
                fun h hmem => h (Or.inr hmem)⟩
          | some form =>
              have hnone : (escapeBytes keep form).count (.raw 47) = 0 := by
                rw [List.count_eq_zero, raw_mem_escapeBytes, hkeep]
                simp
              dsimp only
              rw [hnone, Nat.zero_add]
              refine ⟨hle.trans (Nat.le_add_left ..), ?_⟩
              constructor
              · intro h name' hmem hsome
                rcases List.mem_cons.mp hmem with hmem | hmem
                · rw [TemplatePart.placeholder.inj hmem, ← List.count_eq_zero]
                  omega
                · exact heq.mp (by omega) name' hmem hsome
              · intro h
                have hname := List.count_eq_zero.mpr
                  (h name (List.mem_cons_self ..) (by rw [harg]; exact Option.some_ne_none _))
                have hrest := heq.mpr fun name' hmem => h name' (List.mem_cons_of_mem _ hmem)
                omega

theorem count_written_iff (hkeep : keep 47 = false)
    (hunknown : ∀ name, (unknown name).count 47 = name.count 47) :
    (written keep unknown arg path).count (.raw 47) = path.count 47 ↔
      ∀ name, .placeholder name ∈ templateParts path → arg name ≠ none → 47 ∉ name := by
  have hparts := templateParts_source path
  rw [← congrArg (List.count 47) hparts]
  exact (count_parts hkeep hunknown (templateParts path)).2

/-- A placeholder that loses its braces leaves fewer bytes. -/
theorem length_parts {keep' : UInt8 → Bool} (parts : List TemplatePart) :
    (parts.flatMap (writtenPart keep id arg)).length ≤
        (parts.flatMap (writtenPart keep' braced arg)).length ∧
      ((parts.flatMap (writtenPart keep' braced arg)).length ≤
          (parts.flatMap (writtenPart keep id arg)).length →
        ∀ name, .placeholder name ∈ parts → arg name ≠ none) := by
  have hform : ∀ (kept : UInt8 → Bool) (s : Octets), (escapeBytes kept s).length = s.length :=
    fun kept s => List.length_map ..
  induction parts with
  | nil => simp
  | cons part parts ih =>
      obtain ⟨hle, hknown⟩ := ih
      rw [List.flatMap_cons, List.flatMap_cons, List.length_append, List.length_append]
      cases part with
      | lit text =>
          rw [writtenPart, writtenPart]
          refine ⟨Nat.add_le_add_left hle _, fun h => ?_⟩
          simpa using hknown (by omega)
      | placeholder name =>
          rw [writtenPart, writtenPart]
          cases harg : arg name with
          | none =>
              have hlong : ((braced name).map Token.raw).length =
                  ((id name).map Token.raw).length + 2 := by
                simp [braced]
              dsimp only
              rw [hlong]
              exact ⟨by omega, fun h => by omega⟩
          | some form =>
              dsimp only
              rw [hform, hform]
              refine ⟨Nat.add_le_add_left hle _, fun h name' hmem => ?_⟩
              rcases List.mem_cons.mp hmem with hmem | hmem
              · rw [TemplatePart.placeholder.inj hmem, harg]
                exact Option.some_ne_none _
              · exact hknown (by omega) name' hmem

theorem length_written_le :
    (written keep id arg path).length ≤ (filled arg path).length :=
  (length_parts _).1

theorem known_of_length_le (h : (filled arg path).length ≤ (written keep id arg path).length) :
    ∀ name, .placeholder name ∈ templateParts path → arg name ≠ none :=
  (length_parts _).2 h

/-- Where all placeholders are known, it does not matter what becomes of others. -/
theorem written_of_known
    (h : ∀ name, .placeholder name ∈ templateParts path → arg name ≠ none) :
    written keep unknown arg path = written keep braced arg path := by
  refine List.flatMap_congr fun part hpart => ?_
  cases part with
  | lit text => rfl
  | placeholder name =>
      obtain ⟨form, hform⟩ := Option.ne_none_iff_exists'.mp (h name hpart)
      rw [writtenPart, writtenPart, hform]

/-- **The segments are decoded to those of the template unless an argument or a text is taken for
an escape.** -/
theorem decode_written_iff (hkeep : keep 47 = false)
    (hsame : written keep unknown arg path = written keep braced arg path) :
    ((write (written keep unknown arg path)).splitOn 47).map percentDecode =
        ((filled arg path).splitOn (.raw 47)).map values ↔
      ¬Misread (written keep unknown arg path) := by
  rw [← map_values_written hkeep, ← hsame]
  exact decode_splitOn_iff (by decide) rfl

/-- Without arguments the template is left. -/
theorem written_of_unknown (h : ∀ name, arg name = none) :
    write (written keep braced arg path) = path := by
  have hpart : ∀ part ∈ templateParts path,
      writtenPart keep braced arg part = part.source.map Token.raw := by
    intro part _
    cases part with
    | lit text => rfl
    | placeholder name =>
        rw [writtenPart, h]
        rfl
  rw [written, List.flatMap_congr hpart, ← List.map_flatMap, templateParts_source, write_map_raw]

end Template

section Target

variable {encode : List (Octets × Octets) → Octets} {c : ClientCall}

theorem pathOf_eq_self {s : Octets} (h : 63 ∉ s) : pathOf s = s := by
  refine List.takeWhile_eq_self_iff.mpr fun b hb => bne_iff_ne.mpr ?_
  rintro rfl
  exact h hb

theorem pathOf_append (s q : Octets) : pathOf (s ++ 63 :: q) = pathOf s := by
  induction s with
  | nil => rfl
  | cons b s ih =>
      rw [pathOf, List.cons_append, List.takeWhile_cons, pathOf, List.takeWhile_cons]
      exact congrArg (fun t => if (b != 63) = true then b :: t else []) ih

theorem pathOf_withQuery : pathOf (withQuery encode c) = pathOf c.path := by
  unfold withQuery
  split
  · rfl
  · exact pathOf_append ..

theorem queryOf_withQuery (hpath : 63 ∉ c.path) (hnil : encode [] = []) :
    queryOf (withQuery encode c) = encode c.query := by
  have hdrop : ∀ q : Octets, (c.path ++ q).dropWhile (· != 63) = q.dropWhile (· != 63) := by
    intro q
    refine List.dropWhile_append_of_pos fun b hb => bne_iff_ne.mpr ?_
    rintro rfl
    exact hpath hb
  unfold withQuery queryOf
  split
  · next hempty =>
      rw [← List.append_nil c.path, hdrop, List.isEmpty_iff.mp hempty, hnil]
      rfl
  · rw [hdrop]
    rfl

theorem mem_withQuery {b : UInt8} (hb : b ≠ 63) (hnil : encode [] = []) :
    b ∈ withQuery encode c ↔ b ∈ c.path ∨ b ∈ encode c.query := by
  unfold withQuery
  split
  · next hempty =>
      rw [List.isEmpty_iff.mp hempty, hnil]
      simp
  · rw [List.mem_append, List.mem_cons, or_iff_right hb]

/-- The segments of what is written are counted by its slashes. -/
theorem length_segments (ts : List Token) :
    ((write ts).splitOn 47).length = ts.count (.raw 47) + 1 := by
  rw [splitOn_write (by decide), List.length_map, length_splitOn]

end Target

section Passed

variable {α : Type} {f : String → String} {idents : List String} {op : Operation} {args : List α}

/-- The argument for a path parameter is the one that its identifier stands for. -/
theorem pathArg_of_mem (hbind : ∀ p a, (p, a) ∈ (argParams op).zip args →
      bindArgs idents args (f p.name) = some a) {p : Parameter} {a : α}
    (ha : (p, a) ∈ (argParams op).zip args) (hloc : p.location = .path) :
    pathArg op args (octets p.name) = some a := by
  have hsome : (((argParams op).zip args).find? fun x =>
      isAt .path x.1 && octets x.1.name == octets p.name).isSome = true := by
    refine List.find?_isSome.mpr ⟨(p, a), ha, ?_⟩
    rw [isAt, hloc, beq_self_eq_true, beq_self_eq_true]
    rfl
  obtain ⟨⟨q, b⟩, hq⟩ := Option.isSome_iff_exists.mp hsome
  have hmem := List.mem_of_find?_eq_some hq
  have hname := List.find?_some hq
  rw [Bool.and_eq_true, beq_iff_eq] at hname
  have heq : q.name = p.name := octets_inj.mp hname.2
  have hab := (hbind q b hmem).symm.trans (heq ▸ hbind p a ha)
  rw [pathArg, hq, ← Option.some.inj hab]
  rfl

theorem pathArg_eq_none {name : Octets} (h : findParam (pathParams op) name = none) :
    pathArg op args name = none := by
  rw [pathArg, Option.map_eq_none_iff, List.find?_eq_none]
  intro x hx hat
  rw [Bool.and_eq_true] at hat
  have hargs := (List.of_mem_zip hx).1
  have hmem : x.1 ∈ pathParams op :=
    List.mem_filter.mpr ⟨(mem_argParams.mp hargs).1, hat.1⟩
  exact List.find?_eq_none.mp h x.1 hmem hat.2

theorem passedPairs_eq (hbind : ∀ p a, (p, a) ∈ (argParams op).zip args →
      bindArgs idents args (f p.name) = some a) (hlen : args.length = (argParams op).length)
    (text : Parameter → α → Option Octets) :
    (queryParams op).filterMap (fun p => (bindArgs idents args (f p.name)).bind fun a =>
        (text p a).map fun v => (octets p.name, v)) =
      passedPairs op text args := by
  have hquery : ∀ g : Parameter → Option (Octets × Octets),
      (queryParams op).filterMap g =
        (argParams op).filterMap fun p => if isAt .query p then g p else none := by
    intro g
    have hpath : (pathParams op).filterMap (fun p => if isAt .query p then g p else none) = [] := by
      refine List.filterMap_eq_nil_iff.mpr fun p hp => if_neg ?_
      rw [isAt, (mem_pathParams.mp hp).2]
      decide
    rw [argParams, List.filterMap_append, hpath, List.nil_append]
    refine List.filterMap_congr fun p hp => (if_pos ?_).symm
    exact (List.mem_filter.mp hp).2
  have hfst : (argParams op) = ((argParams op).zip args).map (·.1) :=
    (List.map_fst_zip hlen.ge).symm
  rw [hquery, passedPairs]
  conv_lhs => rw [hfst, List.filterMap_map]
  refine List.filterMap_congr fun x hx => ?_
  dsimp only [Function.comp]
  rw [hbind x.1 x.2 hx]
  rfl

end Passed

/-! ## §4  Go -/

namespace Go

section Keeps

variable {doc : Document} {op : Operation} {args : List Arg}

/-- The text for a path parameter. -/
def argForm (op : Operation) (args : List Arg) (name : Octets) : Option Octets :=
  (pathArg op args name).map Arg.form

/-- The text for a query parameter, if there is one. -/
def passed (p : Parameter) (a : Arg) : Option Octets := if sends p a then some a.form else none

/-- No name has a slash in it, and no percent sign of the template starts an escape. -/
structure Keeps (doc : Document) (op : Operation) (args : List Arg) : Prop where
  compiles : Compiles doc op
  rooted : octets op.path = [] → pathParams op = []
  names : ∀ name, .placeholder name ∈ templateParts (octets op.path) →
    argForm op args name ≠ none → 47 ∉ name
  percents : ¬Misread (written keptInPath braced (argForm op args) (octets op.path))

theorem encodeQuery_nil : encodeQuery [] = [] := by
  rw [encodeQuery, byKey, List.mergeSort_nil]
  rfl

/-- **Keys and values are read back, in the order of the keys.** -/
theorem parseForm_encodeQuery (query : List (Octets × Octets)) :
    parseForm (encodeQuery query) = byKey query :=
  have hamp : ∀ v, 38 ∉ queryEscape v := notMem_escapeForm (by decide) (by decide) rfl
  have hequals : ∀ v, 61 ∉ queryEscape v := notMem_escapeForm (by decide) (by decide) rfl
  parseForm_escaped decodeForm_escapeForm hamp hequals (byKey query)

theorem notMem_encodeQuery (query : List (Octets × Octets)) : 35 ∉ encodeQuery query := by
  have hescaped : ∀ v, 35 ∉ queryEscape v := notMem_escapeForm (by decide) (by decide) rfl
  rw [encodeQuery, mem_intercalate_iff (by decide)]
  rintro ⟨piece, hpiece, hmem⟩
  obtain ⟨e, -, rfl⟩ := List.mem_map.mp hpiece
  rcases List.mem_append.mp hmem with hmem | hmem
  · exact hescaped e.1 hmem
  · rcases List.mem_cons.mp hmem with hmem | hmem
    · exact absurd hmem (by decide)
    · exact hescaped e.2 hmem

theorem Compiles.argForm_eq (h : Compiles doc op) (hlen : args.length = (argParams op).length)
    {p : Parameter} (hp : p ∈ pathParams op) :
    ∃ a, bindArgs (argIdents op) args (goParamIdent p.name) = some a ∧
      argForm op args (octets p.name) = some a.form := by
  obtain ⟨a, ha, hmem⟩ := h.bound hlen (List.mem_append_left _ hp)
  refine ⟨a, ha, ?_⟩
  rw [argForm, pathArg_of_mem (fun _ _ => h.bindArgs_eq hlen) hmem (mem_pathParams.mp hp).2]
  rfl

theorem Compiles.text_partExpr (h : Compiles doc op) (hlen : args.length = (argParams op).length)
    (part : TemplatePart) :
    (partExpr (pathParams op) part).flatMap (PathExpr.text (bindArgs (argIdents op) args)) =
      write (writtenPart keptInPath braced (argForm op args) part) := by
  cases part with
  | lit text =>
      rw [partExpr, writtenPart, write_map_raw]
      split
      · next hempty => exact (List.isEmpty_iff.mp hempty).symm
      · exact List.flatMap_singleton ..
  | placeholder name =>
      rw [partExpr, writtenPart]
      cases hfind : findParam (pathParams op) name with
      | none =>
          have hnone : argForm op args name = none := by
            rw [argForm, pathArg_eq_none hfind]
            rfl
          rw [hnone]
          dsimp only
          rw [write_map_raw]
          exact List.flatMap_singleton ..
      | some p =>
          obtain ⟨hp, rfl⟩ := findParam_mem hfind
          obtain ⟨a, ha, hform⟩ := h.argForm_eq hlen hp
          rw [hform]
          dsimp only
          rw [List.flatMap_singleton, PathExpr.text, ha]
          rfl

/-- The path that the method puts together is the template, filled in. -/
theorem path_eq (h : Compiles doc op) (hlen : args.length = (argParams op).length)
    (hroot : octets op.path = [] → pathParams op = []) :
    (pathExpr op).flatMap (PathExpr.text (bindArgs (argIdents op) args)) =
      write (written keptInPath braced (argForm op args) (octets op.path)) := by
  have hparts : ((templateParts (octets op.path)).flatMap (partExpr (pathParams op))).flatMap
      (PathExpr.text (bindArgs (argIdents op) args)) =
      write (written keptInPath braced (argForm op args) (octets op.path)) := by
    rw [List.flatMap_assoc, written, write, List.flatMap_assoc]
    exact List.flatMap_congr fun part _ => h.text_partExpr hlen part
  unfold pathExpr
  split
  · next hnil =>
      have hnone : ∀ name, argForm op args name = none := by
        intro name
        rw [argForm, pathArg_eq_none (by rw [List.isEmpty_iff.mp hnil]; rfl)]
        rfl
      rw [written_of_unknown hnone]
      exact List.flatMap_singleton ..
  · next hparams =>
      have hne : ((templateParts (octets op.path)).flatMap
          (partExpr (pathParams op))).isEmpty = false := by
        rw [List.isEmpty_eq_false_iff]
        intro hnil
        have hsource : ∀ part ∈ templateParts (octets op.path), part.source = [] := by
          intro part hpart
          have hexpr := List.flatMap_eq_nil_iff.mp hnil part hpart
          cases part with
          | lit text =>
              rw [partExpr] at hexpr
              split at hexpr
              · next hempty => exact List.isEmpty_iff.mp hempty
              · cases hexpr
          | placeholder name =>
              rw [partExpr] at hexpr
              split at hexpr <;> cases hexpr
        have hpath := List.flatMap_eq_nil_iff.mpr hsource
        rw [templateParts_source] at hpath
        exact hparams (List.isEmpty_iff.mpr (hroot hpath))
      unfold buildPathConcat
      dsimp only
      rw [hne, if_neg (by simp), hparts]

theorem sentPairs_eq (h : Compiles doc op) (hlen : args.length = (argParams op).length) :
    sentPairs (bindArgs (argIdents op) args) (queryParams op) = passedPairs op passed args := by
  rw [← passedPairs_eq (fun _ _ => h.bindArgs_eq hlen) hlen, sentPairs]
  refine List.filterMap_congr fun p _ => congrArg _ (funext fun a => ?_)
  rw [passed]
  split <;> rfl

/-- An empty template is sent as a slash. -/
theorem path_of_nil {c : ClientCall} (h : call doc op args = some c)
    (hlen : args.length = (argParams op).length) (hpath : octets op.path = [])
    (hparams : pathParams op ≠ []) : c.path = [47] := by
  rw [call_eq (compiles_of_call h) hlen] at h
  rw [← Option.some.inj h]
  have hexpr : pathExpr op = [.lit (octets "/")] := by
    unfold pathExpr buildPathConcat
    rw [List.isEmpty_eq_false_iff.mpr hparams, hpath]
    rfl
  rw [hexpr]
  rfl

theorem queryOf_target {path : Octets} {query headers : List (Octets × Octets)}
    (hpath : 63 ∉ path) : queryOf (target ⟨path, query, headers⟩) = encodeQuery query :=
  queryOf_withQuery hpath encodeQuery_nil

/-- **The Go method keeps the route and the query exactly where `Keeps` says so.** -/
theorem keeps_iff (hquestion : 63 ∉ octets op.path) (hhash : 35 ∉ octets op.path)
    (hlen : args.length = (argParams op).length) :
    (∃ c, call doc op args = some c ∧ SpecForge.Delivers op (argForm op args)
      (byKey (passedPairs op passed args)) (target c)) ↔ Keeps doc op args := by
  have hbraced : ∀ name, braced name ⊆ braced name := fun name => List.Subset.refl _
  have hcount : (written keptInPath braced (argForm op args) (octets op.path)).count (.raw 47) =
      (octets op.path).count 47 ↔ ∀ name, .placeholder name ∈ templateParts (octets op.path) →
        argForm op args name ≠ none → 47 ∉ name :=
    count_written_iff rfl fun name => by simp [braced]
  have hdecode : ((write (written keptInPath braced (argForm op args) (octets op.path))).splitOn
      47).map percentDecode = ((filled (argForm op args) (octets op.path)).splitOn
        (.raw 47)).map values ↔ _ := decode_written_iff rfl rfl
  have hraw : ∀ b, b ∉ octets op.path → keptInPath b = false →
      .raw b ∉ written keptInPath braced (argForm op args) (octets op.path) := by
    intro b hb hkept hmem
    obtain ⟨-, -, -, -, -, hkept'⟩ := (raw_mem_written hbraced hb).mp hmem
    rw [hkept] at hkept'
    cases hkept'
  constructor
  · rintro ⟨c, hc, hdelivers⟩
    have hcompiles := compiles_of_call hc
    have hroot : octets op.path = [] → pathParams op = [] := by
      intro hnil
      by_contra hparams
      have hslash := hdelivers.count
      rw [target, pathOf_withQuery, path_of_nil hc hlen hnil hparams, hnil] at hslash
      exact absurd hslash (by decide)
    rw [call_eq hcompiles hlen, path_eq hcompiles hlen hroot] at hc
    have hpath := congrArg ClientCall.path (Option.some.inj hc)
    have hq : 63 ∉ c.path := by
      rw [← hpath, mem_write_iff (by decide)]
      exact hraw 63 hquestion rfl
    have hread : pathOf (target c) =
        write (written keptInPath braced (argForm op args) (octets op.path)) := by
      rw [target, pathOf_withQuery, pathOf_eq_self hq, ← hpath]
    obtain ⟨-, hsegments, hdecoded, -⟩ := hdelivers
    rw [hread, length_segments, length_splitOn, Nat.add_right_cancel_iff] at hsegments
    rw [hread] at hdecoded
    exact ⟨hcompiles, hroot, hcount.mp hsegments, hdecode.mp hdecoded⟩
  · rintro ⟨hcompiles, hroot, hnames, hpercents⟩
    refine ⟨_, call_eq hcompiles hlen, ?_⟩
    rw [path_eq hcompiles hlen hroot, sentPairs_eq hcompiles hlen]
    have hq : 63 ∉ write (written keptInPath braced (argForm op args) (octets op.path)) := by
      rw [mem_write_iff (by decide)]
      exact hraw 63 hquestion rfl
    refine ⟨?_, ?_, ?_, ?_⟩
    · rw [target, mem_withQuery (by decide) encodeQuery_nil, not_or,
        mem_write_iff (by decide)]
      exact ⟨hraw 35 hhash rfl, notMem_encodeQuery _⟩
    · rw [target, pathOf_withQuery, pathOf_eq_self hq, length_segments, length_splitOn,
        Nat.add_right_cancel_iff]
      exact hcount.mpr hnames
    · rw [target, pathOf_withQuery, pathOf_eq_self hq]
      exact hdecode.mpr hpercents
    · rw [queryOf_target hq]
      exact parseForm_encodeQuery _

end Keeps

end Go

/-! ## §5  Rust -/

namespace Rust

section Keeps

variable {u : Unicode} {doc : Document} {op : Operation} {args : List (Option Arg)}

/-- The text for a path parameter. -/
def argForm (op : Operation) (args : List (Option Arg)) (name : Octets) : Option Octets :=
  ((pathArg op args name).bind id).map Arg.display

/-- The text for a query parameter, if there is one. -/
def passed (doc : Document) (p : Parameter) (a : Option Arg) : Option Octets := a.map (form doc p)

/-- The query parameters with the arguments that are passed for them. -/
def queryArgs (op : Operation) (args : List (Option Arg)) : List (Parameter × Arg) :=
  ((argParams op).zip args).filterMap fun x =>
    if isAt .query x.1 then x.2.map fun a => (x.1, a) else none

/-- What is kept as it is must not mean anything: question marks, hashes and percent signs of the
arguments, and separators in the names of the query. Query values must be sent as their texts. -/
structure Keeps (u : Unicode) (doc : Document) (op : Operation) (args : List (Option Arg)) :
    Prop where
  compiles : Compiles u doc op
  known : ∀ name, .placeholder name ∈ templateParts (octets op.path) → argForm op args name ≠ none
  names : ∀ name, .placeholder name ∈ templateParts (octets op.path) → 47 ∉ name
  forms : ∀ name, .placeholder name ∈ templateParts (octets op.path) →
    ∀ form, argForm op args name = some form → 63 ∉ form ∧ 35 ∉ form
  percents : ¬Misread (written keptInSegment id (argForm op args) (octets op.path))
  queryNames : ∀ e ∈ queryArgs op args, Clean (octets e.1.name) ∧ 35 ∉ octets e.1.name
  queryTexts : ∀ e ∈ queryArgs op args, (rustCoerceString e.1.ty).text e.2 = form doc e.1 e.2

theorem passedPairs_map (g : Parameter → Arg → Octets) :
    passedPairs op (fun p a => a.map (g p)) args =
      (queryArgs op args).map fun e => (octets e.1.name, g e.1 e.2) := by
  rw [passedPairs, queryArgs, List.map_filterMap]
  refine List.filterMap_congr fun x _ => ?_
  by_cases hat : isAt .query x.1 = true
  · rw [if_pos hat, if_pos hat, Option.map_map, Option.map_map]
    rfl
  · rw [if_neg hat, if_neg hat]
    rfl

theorem decodeForm_urlencodingBytes (v : Octets) : decodeForm (urlencodingBytes v) = v := by
  have hplus : 43 ∉ urlencodingBytes v := by
    rw [urlencodingBytes, mem_write_iff (by decide), raw_mem_escapeBytes, not_and]
    exact fun _ => by decide
  rw [decodeForm, plusToSpace_eq_self hplus]
  exact decode_escapeBytes rfl v

theorem notMem_urlencodingBytes {b : UInt8} (hsep : Separates b) (hkept : unreserved b = false)
    (v : Octets) : b ∉ urlencodingBytes v := by
  rw [urlencodingBytes, mem_write_iff hsep, raw_mem_escapeBytes, hkept]
  exact fun h => by cases h.2

theorem mem_encodeQuery {query : List (Octets × Octets)} :
    35 ∈ encodeQuery query ↔ ∃ e ∈ query, 35 ∈ e.1 := by
  rw [encodeQuery, mem_intercalate_iff (by decide)]
  constructor
  · rintro ⟨piece, hpiece, hmem⟩
    obtain ⟨e, he, rfl⟩ := List.mem_map.mp hpiece
    rcases List.mem_append.mp hmem with hmem | hmem
    · exact ⟨e, he, hmem⟩
    · rcases List.mem_cons.mp hmem with hmem | hmem
      · exact absurd hmem (by decide)
      · exact absurd hmem (notMem_urlencodingBytes (by decide) rfl e.2)
  · rintro ⟨e, he, hmem⟩
    exact ⟨_, List.mem_map.mpr ⟨e, he, rfl⟩, List.mem_append_left _ hmem⟩

theorem Compiles.text_part (h : Compiles u doc op) (hargs : Typed doc op args) {part : TemplatePart}
    (hpart : part ∈ templateParts (octets op.path)) :
    partText u (pathParams op) (bindArgs (argIdents u op) args) part =
      write (writtenPart keptInSegment id (argForm op args) part) := by
  cases part with
  | lit text => exact (write_map_raw text).symm
  | placeholder name =>
      have hany : (templateParts (octets op.path)).any isPlaceholder = true :=
        List.any_eq_true.mpr ⟨_, hpart, rfl⟩
      have hall := h.path
      rw [if_pos hany, List.all_eq_true] at hall
      have hcompiles := hall _ hpart
      rw [partCompiles] at hcompiles
      rw [partText, writtenPart]
      cases hfind : findParam (pathParams op) name with
      | none =>
          have hnone : argForm op args name = none := by
            rw [argForm, pathArg_eq_none hfind]
            rfl
          rw [hnone]
          exact (write_map_raw name).symm
      | some p =>
          rw [hfind] at hcompiles
          obtain ⟨hp, rfl⟩ := findParam_mem hfind
          have hreq := required_of_formats hcompiles
          obtain ⟨a, ha, hmem, hsome⟩ := h.bound hargs (List.mem_append_left _ hp)
          obtain ⟨v, rfl⟩ := Option.ne_none_iff_exists'.mp (hsome hreq)
          have hform : argForm op args (octets p.name) = some v.display := by
            rw [argForm, pathArg_of_mem (fun _ _ => h.bindArgs_eq hargs) hmem
              (mem_pathParams.mp hp).2]
            rfl
          rw [hform]
          dsimp only
          rw [ha]
          rfl

theorem path_eq (h : Compiles u doc op) (hargs : Typed doc op args) :
    (templateParts (octets op.path)).flatMap
        (partText u (pathParams op) (bindArgs (argIdents u op) args)) =
      write (written keptInSegment id (argForm op args) (octets op.path)) := by
  rw [written, write, List.flatMap_assoc]
  exact List.flatMap_congr fun part hpart => h.text_part hargs hpart

theorem sentPairs_eq (h : Compiles u doc op) (hargs : Typed doc op args) :
    sentPairs u (bindArgs (argIdents u op) args) (queryParams op) =
      (queryArgs op args).map fun e => (octets e.1.name, (rustCoerceString e.1.ty).text e.2) := by
  rw [← passedPairs_map fun p => (rustCoerceString p.ty).text,
    ← passedPairs_eq (fun _ _ => h.bindArgs_eq hargs) hargs.length, sentPairs]
  refine List.filterMap_congr fun p _ => ?_
  rcases bindArgs (argIdents u op) args (snake u.toCharCase p.name) with _ | _ | _
  · rfl
  · rfl
  · rfl

/-- The first question mark that is written as itself ends the path. -/
theorem pathOf_write (ts : List Token) :
    pathOf (write ts) = write (ts.takeWhile (· != .raw 63)) := by
  induction ts with
  | nil => rfl
  | cons t ts ih =>
      rw [write_cons, List.takeWhile_cons]
      by_cases ht : t = .raw 63
      · rw [ht]
        rfl
      · have hnot : ∀ b ∈ t.write, (b != 63) = true := by
          intro b hb
          rw [bne_iff_ne]
          rintro rfl
          cases t with
          | raw c => exact ht (congrArg Token.raw (List.mem_singleton.mp hb).symm)
          | escaped c =>
              have hsep : Separates 63 := by decide
              exact hsep.notMem_escaped c hb
        rw [pathOf, List.takeWhile_append_of_pos hnot, bne_iff_ne.mpr ht, if_pos rfl, write_cons]
        exact congrArg _ ih

theorem queryOf_target {path : Octets} {query headers : List (Octets × Octets)}
    (hpath : 63 ∉ path) : queryOf (target ⟨path, query, headers⟩) = encodeQuery query :=
  queryOf_withQuery hpath rfl

/-- **The Rust function keeps the route and the query exactly where `Keeps` says so.** -/
theorem keeps_iff (hquestion : 63 ∉ octets op.path) (hhash : 35 ∉ octets op.path)
    (hargs : Typed doc op args) :
    (∃ c, call u doc op args = some c ∧ SpecForge.Delivers op (argForm op args)
      (passedPairs op (passed doc) args) (target c)) ↔ Keeps u doc op args := by
  have hid : ∀ name, id name ⊆ braced name := by
    intro name b hb
    exact List.mem_cons_of_mem _ (List.mem_append_left _ hb)
  have hcount : (written keptInSegment id (argForm op args) (octets op.path)).count (.raw 47) =
      (octets op.path).count 47 ↔ ∀ name, .placeholder name ∈ templateParts (octets op.path) →
        argForm op args name ≠ none → 47 ∉ name := count_written_iff rfl fun _ => rfl
  have hkeep : keptInSegment 47 = false := rfl
  have hamp : ∀ v, 38 ∉ urlencodingBytes v := notMem_urlencodingBytes (by decide) rfl
  have hpassed : passedPairs op (passed doc) args =
      (queryArgs op args).map fun e => (octets e.1.name, form doc e.1 e.2) :=
    passedPairs_map (form doc)
  have hpairs : parseForm (encodeQuery ((queryArgs op args).map fun e =>
      (octets e.1.name, (rustCoerceString e.1.ty).text e.2))) =
      passedPairs op (passed doc) args ↔ ∀ e ∈ queryArgs op args,
        Clean (octets e.1.name) ∧ (rustCoerceString e.1.ty).text e.2 = form doc e.1 e.2 := by
    rw [encodeQuery, List.map_map, hpassed]
    exact parseForm_pairs_iff decodeForm_urlencodingBytes hamp
  constructor
  · rintro ⟨c, hc, hdelivers⟩
    have hcompiles := compiles_of_call hc
    rw [call_eq hcompiles hargs, path_eq hcompiles hargs, sentPairs_eq hcompiles hargs] at hc
    obtain rfl := Option.some.inj hc
    obtain ⟨hfragment, hsegments, hdecoded, hquery⟩ := hdelivers
    rw [target, pathOf_withQuery, pathOf_write] at hsegments hdecoded
    -- nothing of the path may be cut off, and no braces may be gone
    have hwhole := length_le_of_decode_splitOn (by decide) hdecoded
    have hshort := (List.takeWhile_prefix (· != Token.raw 63)
      (l := written keptInSegment id (argForm op args) (octets op.path))).length_le
    have hknown := known_of_length_le (hwhole.trans hshort)
    have htake := (List.takeWhile_prefix (· != Token.raw 63)
      (l := written keptInSegment id (argForm op args) (octets op.path))).eq_of_length_le
      (length_written_le.trans hwhole)
    have hq : .raw 63 ∉ written keptInSegment id (argForm op args) (octets op.path) := by
      intro hmem
      rw [← htake] at hmem
      exact absurd (List.mem_takeWhile_imp hmem) (by decide)
    have hq' : 63 ∉ write (written keptInSegment id (argForm op args) (octets op.path)) :=
      mt (mem_write_iff (by decide)).mp hq
    rw [htake] at hsegments hdecoded
    rw [length_segments, length_splitOn, Nat.add_right_cancel_iff] at hsegments
    rw [target, mem_withQuery (by decide) rfl, not_or, mem_write_iff (by decide),
      mem_encodeQuery] at hfragment
    rw [queryOf_target hq'] at hquery
    refine ⟨hcompiles, hknown, fun name hname => hcount.mp hsegments name hname (hknown name hname),
      fun name hname form hform => ⟨fun hmem => ?_, fun hmem => ?_⟩,
      (decode_written_iff hkeep (written_of_known hknown)).mp hdecoded,
      fun e he => ⟨(hpairs.mp hquery e he).1, fun hmem =>
        hfragment.2 ⟨_, List.mem_map.mpr ⟨e, he, rfl⟩, hmem⟩⟩,
      fun e he => (hpairs.mp hquery e he).2⟩
    · exact hq ((raw_mem_written hid hquestion).mpr ⟨name, hname, form, hform, hmem, rfl⟩)
    · exact hfragment.1 ((raw_mem_written hid hhash).mpr ⟨name, hname, form, hform, hmem, rfl⟩)
  · rintro ⟨hcompiles, hknown, hnames, hforms, hpercents, hqueryNames, hqueryTexts⟩
    refine ⟨_, call_eq hcompiles hargs, ?_⟩
    rw [path_eq hcompiles hargs, sentPairs_eq hcompiles hargs]
    have hq : 63 ∉ write (written keptInSegment id (argForm op args) (octets op.path)) := by
      rw [mem_write_iff (by decide), raw_mem_written hid hquestion]
      rintro ⟨name, hname, form, hform, hmem, -⟩
      exact (hforms name hname form hform).1 hmem
    refine ⟨?_, ?_, ?_, ?_⟩
    · rw [target, mem_withQuery (by decide) rfl, not_or, mem_write_iff (by decide),
        raw_mem_written hid hhash, mem_encodeQuery]
      constructor
      · rintro ⟨name, hname, form, hform, hmem, -⟩
        exact (hforms name hname form hform).2 hmem
      · rintro ⟨_, hpair, hmem⟩
        obtain ⟨e, he, rfl⟩ := List.mem_map.mp hpair
        exact (hqueryNames e he).2 hmem
    · rw [target, pathOf_withQuery, pathOf_eq_self hq, length_segments, length_splitOn,
        Nat.add_right_cancel_iff]
      exact hcount.mpr fun name hname _ => hnames name hname
    · rw [target, pathOf_withQuery, pathOf_eq_self hq]
      exact (decode_written_iff hkeep (written_of_known hknown)).mpr hpercents
    · rw [queryOf_target hq]
      exact hpairs.mpr fun e he => ⟨(hqueryNames e he).1, hqueryTexts e he⟩

end Keeps

/-! The URL that `do_with_retry` reports and sends is that target behind the base. -/

theorem octets_toUTF8 (s : String) : s.toUTF8.data.toList = octets s := Utf8.toList_toUTF8 s

theorem octets_append (s t : String) : octets (s ++ t) = octets s ++ octets t := by
  rw [octets, String.toList_append, Utf8.encode_append]
  rfl

/-- Joined texts are joined bytes. -/
theorem octets_join (sep : String) (parts : List String) :
    octets (Text.join sep parts) = (octets sep).intercalate (parts.map octets) := by
  rw [octets, Text.join, String.toList_intercalate]
  induction parts with
  | nil => rfl
  | cons s parts ih =>
      rcases parts with _ | ⟨t, parts⟩
      · simp [octets]
      · rw [List.map_cons, List.map_cons, List.intercalate_cons_cons, Utf8.encode_append,
          Utf8.encode_append, ← List.map_cons, ih]
        exact (List.intercalate_cons_cons ..).symm

theorem octets_urlencodingLite (s : String) :
    octets (urlencodingLite s) = urlencodingBytes (octets s) := by
  have hbyte : ∀ n < 256, octets (
      let c := Char.ofNat n
      if ('A' ≤ c && c ≤ 'Z') || ('a' ≤ c && c ≤ 'z') || ('0' ≤ c && c ≤ '9') ||
          ['-', '_', '.', '~'].contains c then String.ofList [c]
      else "%" ++ hexByte (UInt8.ofNat n)) =
      (if unreserved (UInt8.ofNat n) then Token.raw (UInt8.ofNat n)
        else .escaped (UInt8.ofNat n)).write := by decide +kernel
  have hnil : ∀ ls : List Octets, (octets "").intercalate ls = ls.flatten := by
    intro ls
    induction ls with
    | nil => rfl
    | cons l ls ih =>
        rcases ls with _ | ⟨l', ls⟩
        · simp
        · rw [List.intercalate_cons_cons, ih]
          simp [octets, Utf8.encode]
  rw [urlencodingLite, octets_toUTF8, octets_join, hnil, urlencodingBytes, escapeBytes, write,
    List.map_map, List.flatMap_map, ← List.flatMap_def]
  refine List.flatMap_congr fun b _ => ?_
  have h := hbyte b.toNat (UInt8.toNat_lt b)
  rw [UInt8.ofNat_toNat] at h
  exact h

/-- The URL that the client reports with an error is the one it has called. -/
theorem octets_fullUrl (call : Rust.Call) {base path : String} (hurl : call.url = base ++ path) :
    octets call.fullUrl = octets base ++ target
      ⟨octets path, call.query.map fun e => (octets e.1, octets e.2), []⟩ := by
  unfold Call.fullUrl target withQuery
  dsimp only
  rw [List.isEmpty_map, hurl]
  by_cases hquery : call.query = []
  · rw [if_pos hquery, hquery, octets_append]
    rfl
  · have hempty : call.query.isEmpty = false := List.isEmpty_eq_false_iff.mpr hquery
    have hpair : ∀ e : String × String, octets (e.1 ++ "=" ++ urlencodingLite e.2) =
        octets e.1 ++ 61 :: urlencodingBytes (octets e.2) := by
      intro e
      rw [octets_append, octets_append, octets_urlencodingLite, List.append_assoc]
      rfl
    rw [if_neg hquery, hempty, if_neg (by simp), octets_append, octets_append, octets_append,
      octets_join, List.map_map, encodeQuery, List.map_map, List.append_assoc, List.append_assoc]
    refine congrArg (fun q => octets base ++ (octets path ++ (octets "?" ++ q))) ?_
    exact congrArg (octets "&").intercalate (List.map_congr_left fun e _ => hpair e)

end Rust

/-- `GET /files/{name}`. -/
def getFile : Operation :=
  ⟨"getFile", .get, "/files/{name}", none, none, none,
    [⟨"name", .path, .scalar .string, true, none⟩], none, [], none⟩

def fileStore : Document := Document.minimal SchemaRegistry.default [getFile]

/-- The name `a?b`. -/
def askingName : Rust.Arg := ⟨octets "a?b", octets "\"a?b\""⟩

theorem typed_askingName : Rust.Typed fileStore getFile [some askingName] where
  length := rfl
  present x hx _ := by
    rw [List.mem_singleton.mp hx]
    exact Option.some_ne_none _
  json x hx hjson := by
    rw [List.mem_singleton.mp hx] at hjson
    exact absurd hjson (by decide +kernel)

end SpecForge
