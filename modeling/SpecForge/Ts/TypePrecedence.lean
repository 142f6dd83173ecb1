import SpecForge.Ts.TypeTokens

/-!
# Rendered types keep their structure

`render` puts only compositions under an array in parentheses. What a rendered type is
read as (§3, §4) is compared with what the IR type stands for (§1); §5 is the condition on
the parts of the type under which the two are the same expression.
-/

namespace SpecForge.Ts

open Lib
open Lib.Infix
open TypeExpr (unionOf interOf ofArms mkUnion mkInter)

/-! ## §1  What a type stands for -/

def null : TypeExpr := .name "null"

/-- `nullable` applies to the whole expression. -/
def orNull (nullable : Bool) (e : TypeExpr) : TypeExpr :=
  if nullable then unionOf [e, null] else e

def scalarExpr (s : Scalar) : TypeExpr := .name (renderScalar s)

def enumArms (variants : List String) : List TypeExpr :=
  if variants.isEmpty then [.name "string"] else variants.map .literal

mutual

/-- The expression a type stands for: each item, value and member is an operand of its own. -/
def denote : IrType → TypeExpr
  | .scalar s => scalarExpr s
  | .stringEnum variants nullable => orNull nullable (unionOf (enumArms variants))
  | .array item nullable => orNull nullable (.array (denote item))
  | .map value => .generic "Record" [.name "string", denote value]
  | .reference name nullable _ => orNull nullable (.name (pascal name))
  | .composition .allOf members _ => interOf (denoteMembers members)
  | .composition .oneOf members _ => unionOf (denoteMembers members)
  | .composition .anyOf members _ => unionOf (denoteMembers members)
  | .any => .name "unknown"
  | .unknown => .name "unknown"

def denoteMembers : List IrType → List TypeExpr
  | [] => []
  | m :: ms => denote m :: denoteMembers ms

end

theorem denoteMembers_eq : ∀ ms : List IrType, denoteMembers ms = ms.map denote
  | [] => rfl
  | m :: ms => by rw [denoteMembers, denoteMembers_eq ms, List.map_cons]

/-- Parsing the rendered type gives the expression that the type stands for. -/
def KeepsStructure (t : IrType) : Prop := parseType (render t) = some (denote t)

/-! ## §2  What the rendered type is read as -/

/-- No composition is without members. -/
def MembersOk : IrType → Prop
  | .composition _ members _ => members ≠ []
  | _ => True

def nullArms (nullable : Bool) : List (List TypeExpr) := if nullable then [[null]] else []

mutual

/-- The arms and operands that the text of a type contributes where it stands. -/
def readArms : IrType → List (List TypeExpr)
  | .scalar s => [[scalarExpr s]]
  | .stringEnum variants nullable =>
      (enumArms variants).map (fun e => [e]) ++ nullArms nullable
  | .array item _ =>
      if needsParens item then [[.array (ofArms (readArms item))]]
      else onLast .array (readArms item)
  | .map value => [[.generic "Record" [.name "string", ofArms (readArms value)]]]
  | .reference name nullable _ => [[.name (pascal name)]] ++ nullArms nullable
  | .composition .allOf members _ => glueAll (readArmsOfMembers members)
  | .composition .oneOf members _ => (readArmsOfMembers members).flatten
  | .composition .anyOf members _ => (readArmsOfMembers members).flatten
  | .any => [[.name "unknown"]]
  | .unknown => [[.name "unknown"]]

def readArmsOfMembers : List IrType → List (List (List TypeExpr))
  | [] => []
  | m :: ms => readArms m :: readArmsOfMembers ms

end

theorem readArmsOfMembers_eq : ∀ ms : List IrType, readArmsOfMembers ms = ms.map readArms
  | [] => rfl
  | m :: ms => by rw [readArmsOfMembers, readArmsOfMembers_eq ms, List.map_cons]

theorem denote_inter (ms : List IrType) (disc : Option Discriminator) :
    denote (.composition .allOf ms disc) = interOf (ms.map denote) := by
  rw [denote, denoteMembers_eq]

theorem denote_union {kind : CompositionKind} (hkind : kind ≠ .allOf) (ms : List IrType)
    (disc : Option Discriminator) :
    denote (.composition kind ms disc) = unionOf (ms.map denote) := by
  rcases kind with _ | _ | _
  · exact absurd rfl hkind
  · rw [denote, denoteMembers_eq]
  · rw [denote, denoteMembers_eq]

theorem readArms_inter (ms : List IrType) (disc : Option Discriminator) :
    readArms (.composition .allOf ms disc) = glueAll (ms.map readArms) := by
  rw [readArms, readArmsOfMembers_eq]

theorem readArms_union {kind : CompositionKind} (hkind : kind ≠ .allOf) (ms : List IrType)
    (disc : Option Discriminator) :
    readArms (.composition kind ms disc) = ms.flatMap readArms := by
  rcases kind with _ | _ | _
  · exact absurd rfl hkind
  · rw [readArms, readArmsOfMembers_eq, List.flatMap_def]
  · rw [readArms, readArmsOfMembers_eq, List.flatMap_def]

/-! ## §3  The run of the parser -/

/-- The frame behind a text with these arms. -/
def Frame.put (f : Frame) (F : List (List TypeExpr)) : Frame :=
  { f with content := glue f.content F, phase := .after }

/-- The tokens read as the arms, wherever an operand may stand. -/
structure Runs (ts : List Token) (F : List (List TypeExpr)) : Prop where
  full : Full F
  run : ∀ (f : Frame) (st : List Frame), f.phase ≠ .after → f.content ≠ [] →
    parseRun (f :: st) ts = some (f.put F :: st)

namespace Runs

theorem operand {f : Frame} (hphase : f.phase ≠ .after) (e : TypeExpr) :
    f.operand e = some (f.put [[e]]) := by
  rw [Frame.operand, if_neg hphase]
  rfl

theorem ident (s : String) : Runs [.ident s] [[.name s]] where
  full := full_singleton (List.cons_ne_nil _ _)
  run := by
    intro f st hphase _
    show ((f.operand (.name s)).map (· :: st)).bind (fun st => some st) = _
    rw [operand hphase]
    rfl

theorem literal (s : String) : Runs [.literal s] [[.literal s]] where
  full := full_singleton (List.cons_ne_nil _ _)
  run := by
    intro f st hphase _
    show ((f.operand (.literal s)).map (· :: st)).bind (fun st => some st) = _
    rw [operand hphase]
    rfl

theorem bar {ts ts' : List Token} {F F' : List (List TypeExpr)} (h : Runs ts F)
    (h' : Runs ts' F') : Runs (ts ++ .bar :: ts') (F ++ F') where
  full := h.full.append h'.full
  run := by
    intro f st hphase hne
    have hglue : glue f.content F ≠ [] := glue_ne_nil F hne
    rw [parseRun_append, h.run f st hphase hne, Option.bind_some]
    show parseRun (⟨f.opener, glue f.content F ++ [[]], .arm⟩ :: st) ts' = _
    rw [h'.run _ st (fun h => Phase.noConfusion h) (List.append_ne_nil_of_left_ne_nil hglue _)]
    show some (⟨f.opener, glue (glue f.content F ++ [[]]) F', .after⟩ :: st) = _
    rw [glue_snoc_nil _ h'.full.ne_nil, glue_append F' hne h.full.ne_nil]
    rfl

theorem amp {ts ts' : List Token} {F F' : List (List TypeExpr)} (h : Runs ts F)
    (h' : Runs ts' F') : Runs (ts ++ .amp :: ts') (glue F F') where
  full := h.full.glue h'.full
  run := by
    intro f st hphase hne
    have hglue : glue f.content F ≠ [] := glue_ne_nil F hne
    rw [parseRun_append, h.run f st hphase hne, Option.bind_some]
    show parseRun (⟨f.opener, glue f.content F, .operand⟩ :: st) ts' = _
    rw [h'.run _ st (fun h => Phase.noConfusion h) hglue]
    show some (⟨f.opener, glue (glue f.content F) F', .after⟩ :: st) = _
    rw [glue_assoc F' hne h.full.ne_nil]
    rfl

/-- The brackets take the last operand only. -/
theorem brackets {ts : List Token} {F : List (List TypeExpr)} (h : Runs ts F) :
    Runs (ts ++ [.brackets]) (onLast .array F) where
  full := h.full.onLast _
  run := by
    intro f st hphase hne
    rw [parseRun_append, h.run f st hphase hne, Option.bind_some]
    show some (⟨f.opener, onLast .array (glue f.content F), .after⟩ :: st) = _
    rw [onLast_glue .array hne h.full]
    rfl

/-- What stands in brackets is one expression. -/
theorem inner {ts : List Token} {F : List (List TypeExpr)} (h : Runs ts F) (opener : Opener)
    (st : List Frame) :
    parseRun (Frame.new opener :: st) ts = some (⟨opener, F, .after⟩ :: st) := by
  rw [h.run (Frame.new opener) st (fun h => Phase.noConfusion h) (List.cons_ne_nil _ _)]
  show some (⟨opener, glue [[]] F, .after⟩ :: st) = _
  rw [glue_start h.full.ne_nil]

theorem parens {ts : List Token} {F : List (List TypeExpr)} (h : Runs ts F) :
    Runs (.lparen :: ts ++ [.rparen]) [[ofArms F]] where
  full := full_singleton (List.cons_ne_nil _ _)
  run := by
    intro f st hphase _
    have hopen : parseStep (f :: st) .lparen = some (Frame.new .paren :: f :: st) := by
      rw [parseStep, if_neg hphase]
    have hclose : parseStep (⟨.paren, F, .after⟩ :: f :: st) .rparen =
        some (f.put [[ofArms F]] :: st) := by
      show ((f.operand (ofArms F)).map (· :: st)) = _
      rw [operand hphase]
      rfl
    rw [List.cons_append, parseRun, hopen, Option.bind_some, parseRun_append, h.inner,
      Option.bind_some, parseRun, hclose]
    rfl

theorem record {ts : List Token} {F : List (List TypeExpr)} (h : Runs ts F) (g s : String) :
    Runs (.generic g :: .ident s :: .comma :: ts ++ [.gt])
      [[.generic g [.name s, ofArms F]]] where
  full := full_singleton (List.cons_ne_nil _ _)
  run := by
    intro f st hphase _
    have hopen : parseStep (f :: st) (.generic g) =
        some (Frame.new (.generic g []) :: f :: st) := by
      rw [parseStep, if_neg hphase]
    have hcomma : parseStep (⟨.generic g [], [[.name s]], .after⟩ :: f :: st) .comma =
        some (Frame.new (.generic g [.name s]) :: f :: st) := rfl
    have hclose : parseStep (⟨.generic g [.name s], F, .after⟩ :: f :: st) .gt =
        some (f.put [[.generic g [.name s, ofArms F]]] :: st) := by
      show ((f.operand (.generic g [.name s, ofArms F])).map (· :: st)) = _
      rw [operand hphase]
      rfl
    have hname := (ident s).inner (.generic g []) (f :: st)
    have hsplit : Token.generic g :: .ident s :: .comma :: ts ++ [.gt] =
        .generic g :: ([.ident s] ++ .comma :: (ts ++ [.gt])) := rfl
    rw [hsplit, parseRun, hopen, Option.bind_some, parseRun_append, hname, Option.bind_some,
      parseRun, hcomma, Option.bind_some, parseRun_append, h.inner, Option.bind_some, parseRun,
      hclose]
    rfl

theorem orNull {ts : List Token} {F : List (List TypeExpr)} (h : Runs ts F) (nullable : Bool) :
    Runs (ts ++ nullTokens nullable) (F ++ nullArms nullable) := by
  rcases nullable with _ | _
  · rw [nullTokens, nullArms, if_neg Bool.false_ne_true, if_neg Bool.false_ne_true,
      List.append_nil, List.append_nil]
    exact h
  · exact h.bar (ident "null")

theorem sepBy_bar {γ : Type} {g : γ → List Token} {F : γ → List (List TypeExpr)} :
    ∀ {l : List γ}, l ≠ [] → (∀ x ∈ l, Runs (g x) (F x)) →
      Runs (sepBy .bar (l.map g)) (l.map F).flatten
  | [x], _, h => by
      have hx := h x List.mem_cons_self
      simpa [sepBy] using hx
  | x :: y :: l, _, h => by
      rw [List.forall_mem_cons] at h
      have ih := sepBy_bar (List.cons_ne_nil y l) h.2
      exact h.1.bar ih

theorem sepBy_amp {γ : Type} {g : γ → List Token} {F : γ → List (List TypeExpr)} :
    ∀ {l : List γ}, l ≠ [] → (∀ x ∈ l, Runs (g x) (F x)) →
      Runs (sepBy .amp (l.map g)) (glueAll (l.map F))
  | [x], _, h => by
      have hx := h x List.mem_cons_self
      show Runs (g x) (glue (F x) [[]])
      rw [glue_end _ hx.full.ne_nil]
      exact hx
  | x :: y :: l, _, h => by
      rw [List.forall_mem_cons] at h
      have ih := sepBy_amp (List.cons_ne_nil y l) h.2
      exact h.1.amp ih

end Runs

theorem runs_enumTokens (variants : List String) :
    Runs (enumTokens variants) ((enumArms variants).map fun e => [e]) := by
  rcases variants with _ | ⟨v, vs⟩
  · exact Runs.ident "string"
  · have hruns := Runs.sepBy_bar (List.cons_ne_nil v vs) fun v _ => Runs.literal v
    have hempty : (v :: vs).isEmpty = false := rfl
    rw [enumTokens, enumArms, hempty, if_neg Bool.false_ne_true, if_neg Bool.false_ne_true]
    have harms : (((v :: vs).map fun v => [[TypeExpr.literal v]]).flatten) =
        ((v :: vs).map TypeExpr.literal).map fun e => [e] := by
      rw [List.map_map, ← List.flatMap_def, List.map_eq_flatMap]
      rfl
    rw [← harms]
    exact hruns

/-- **The parser's run on a rendered type.** -/
theorem runs_tokens (t : IrType) (h : Everywhere MembersOk t) : Runs (tokens t) (readArms t) := by
  induction t using IrType.induction with
  | scalar s => exact Runs.ident _
  | stringEnum variants nullable => exact (runs_enumTokens variants).orNull nullable
  | array item nullable ih =>
      rw [Everywhere] at h
      rw [tokens, readArms]
      split
      · have hparens := (ih h.2).parens.brackets
        rw [List.append_assoc] at hparens
        exact hparens
      · exact (ih h.2).brackets
  | map value ih =>
      rw [Everywhere] at h
      exact (ih h.2).record "Record" "string"
  | reference name nullable description => exact (Runs.ident (pascal name)).orNull nullable
  | composition kind members discriminator ih =>
      rw [Everywhere, everyMember_iff] at h
      have hmembers : ∀ m ∈ members, Runs (tokens m) (readArms m) :=
        fun m hm => ih m hm (h.2 m hm)
      rw [tokens, tokensOfMembers_eq]
      rcases eq_or_ne kind .allOf with rfl | hkind
      · rw [readArms_inter]
        exact Runs.sepBy_amp h.1 hmembers
      · have hsep : sepToken kind = .bar := by
          rcases kind with _ | _ | _
          · exact absurd rfl hkind
          · rfl
          · rfl
        rw [readArms_union hkind, hsep, List.flatMap_def]
        exact Runs.sepBy_bar h.1 hmembers
  | any => exact Runs.ident _
  | unknown => exact Runs.ident _

theorem parseType_render {t : IrType} (hlit : Everywhere LiteralsOk t)
    (hmembers : Everywhere MembersOk t) : parseType (render t) = some (ofArms (readArms t)) := by
  have hrun := (runs_tokens t hmembers).inner .top []
  rw [parseType, lex_render_of_ok hlit, Option.bind_some, parseTokens, hrun]
  rfl

end SpecForge.Ts
