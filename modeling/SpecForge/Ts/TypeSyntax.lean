import SpecForge.Lib.Infix

/-!
# TypeScript type expressions

The type syntax of the language the emitter writes, as far as rendered types use it:
names, string literals, generic types, `T[]`, `A & B`, `A | B` and parentheses. A text is
cut into tokens (§2) and the tokens are read by a machine with one frame for each open
bracket (§3). `[]` belongs to the operand just read, `&` binds tighter than `|`, and both
may stand once in front of what they separate. Parentheses leave no trace: a union inside
a union, or an intersection inside an intersection, is spliced into it (§1).

§4 what every expression read is like.
-/

namespace SpecForge.Ts

open Lib.Infix

/-! ## §1  Expressions -/

inductive TypeExpr where
  | name (s : String)
  | literal (s : String)
  | generic (f : String) (args : List TypeExpr)
  | array (item : TypeExpr)
  | union (arms : List TypeExpr)
  | inter (operands : List TypeExpr)

namespace TypeExpr

/-- What an expression contributes to the arms of a union. -/
def arms : TypeExpr → List TypeExpr
  | union (a :: as) => a :: as
  | e => [e]

/-- What an expression contributes to the operands of an intersection. -/
def operands : TypeExpr → List TypeExpr
  | inter (a :: as) => a :: as
  | e => [e]

def mkUnion : List TypeExpr → TypeExpr
  | [e] => e
  | es => union es

def mkInter : List TypeExpr → TypeExpr
  | [e] => e
  | es => inter es

def unionOf (es : List TypeExpr) : TypeExpr := mkUnion (es.flatMap arms)

def interOf (es : List TypeExpr) : TypeExpr := mkInter (es.flatMap operands)

/-- A union of intersections. -/
def ofArms (F : List (List TypeExpr)) : TypeExpr := unionOf (F.map interOf)

end TypeExpr

/-! ## §2  Tokens -/

inductive Token where
  | ident (s : String)
  /-- An identifier with the angle bracket behind it. -/
  | generic (f : String)
  | literal (s : String)
  | bar
  | amp
  | lparen
  | rparen
  | comma
  | gt
  /-- `[]`. -/
  | brackets
deriving DecidableEq

def isIdentifierStart (c : Char) : Bool := c.isAlpha || c == '_' || c == '$'

def isIdentifierPart (c : Char) : Bool := c.isAlphanum || c == '_' || c == '$'

def isSpace (c : Char) : Bool := c == ' ' || c == '\t' || c == '\n' || c == '\r'

inductive LexMode where
  | between
  | ident (w : List Char)
  | literal (w : List Char)
  /-- Behind a backslash in a literal. -/
  | escape (w : List Char)
  | bracket

/-- The mode after a character that starts a token, and the token if it is all of it. -/
def lexStart (c : Char) : Option (LexMode × List Token) :=
  if isSpace c then some (.between, [])
  else if isIdentifierStart c then some (.ident [c], [])
  else match c with
    | '"' => some (.literal [], [])
    | '[' => some (.bracket, [])
    | '|' => some (.between, [.bar])
    | '&' => some (.between, [.amp])
    | '(' => some (.between, [.lparen])
    | ')' => some (.between, [.rparen])
    | ',' => some (.between, [.comma])
    | '>' => some (.between, [.gt])
    | _ => none

def lexChar : LexMode → Char → Option (LexMode × List Token)
  | .between, c => lexStart c
  | .ident w, c =>
      if isIdentifierPart c then some (.ident (w ++ [c]), [])
      else if c = '<' then some (.between, [.generic (String.ofList w)])
      else (lexStart c).map fun x => (x.1, .ident (String.ofList w) :: x.2)
  | .literal w, c =>
      if c = '"' then some (.between, [.literal (String.ofList w)])
      else if c = '\\' then some (.escape w, [])
      -- a literal ends on its line
      else if c = '\n' ∨ c = '\r' then none
      else some (.literal (w ++ [c]), [])
  | .escape w, c =>
      if c = '\\' ∨ c = '"' then some (.literal (w ++ [c]), []) else none
  | .bracket, c => if c = ']' then some (.between, [.brackets]) else none

def lex : LexMode → List Char → Option (List Token)
  | .between, [] => some []
  | .ident w, [] => some [.ident (String.ofList w)]
  | _, [] => none
  | mode, c :: cs =>
      (lexChar mode c).bind fun x => (lex x.1 cs).map fun ts => x.2 ++ ts

/-! ## §3  Parsing -/

inductive Phase where
  /-- At the start of a type. -/
  | start
  /-- At the start of an arm. -/
  | arm
  /-- Behind a `&`. -/
  | operand
  /-- Behind an operand. -/
  | after
deriving DecidableEq

inductive Opener where
  | top
  | paren
  | generic (f : String) (args : List TypeExpr)

/-- What stands behind an open bracket: the arms so far and what may come next. -/
structure Frame where
  opener : Opener
  content : List (List TypeExpr)
  phase : Phase

namespace Frame

def new (opener : Opener) : Frame := ⟨opener, [[]], .start⟩

def operand (f : Frame) (e : TypeExpr) : Option Frame :=
  if f.phase = .after then none else some { f with content := glue f.content [[e]], phase := .after }

def bar (f : Frame) : Option Frame :=
  match f.phase with
  | .after => some { f with content := f.content ++ [[]], phase := .arm }
  | .start => some { f with phase := .arm }
  | _ => none

def amp (f : Frame) : Option Frame :=
  match f.phase with
  | .operand => none
  | _ => some { f with phase := .operand }

def brackets (f : Frame) : Option Frame :=
  if f.phase = .after then some { f with content := onLast .array f.content } else none

/-- The expression of the frame, where it may end. -/
def value (f : Frame) : Option TypeExpr :=
  if f.phase = .after then some (.ofArms f.content) else none

end Frame

/-- One token, on the frames from the innermost outwards. -/
def parseStep : List Frame → Token → Option (List Frame)
  | [], _ => none
  | f :: st, tok =>
      match tok with
      | .ident s => (f.operand (.name s)).map (· :: st)
      | .literal s => (f.operand (.literal s)).map (· :: st)
      | .bar => f.bar.map (· :: st)
      | .amp => f.amp.map (· :: st)
      | .brackets => f.brackets.map (· :: st)
      | .lparen => if f.phase = .after then none else some (Frame.new .paren :: f :: st)
      | .generic g =>
          if f.phase = .after then none else some (Frame.new (.generic g []) :: f :: st)
      | .comma =>
          match f.opener with
          | .generic g args => f.value.map fun e => Frame.new (.generic g (args ++ [e])) :: st
          | _ => none
      | .rparen =>
          match f.opener, st with
          | .paren, below :: st => f.value.bind fun e => (below.operand e).map (· :: st)
          | _, _ => none
      | .gt =>
          match f.opener, st with
          | .generic g args, below :: st =>
              f.value.bind fun e => (below.operand (.generic g (args ++ [e]))).map (· :: st)
          | _, _ => none

def parseRun : List Frame → List Token → Option (List Frame)
  | st, [] => some st
  | st, tok :: ts => (parseStep st tok).bind fun st => parseRun st ts

def parseTokens (ts : List Token) : Option TypeExpr :=
  match parseRun [Frame.new .top] ts with
  | some [f] => f.value
  | _ => none

def parseType (text : String) : Option TypeExpr :=
  (lex .between text.toList).bind parseTokens

theorem parseRun_append (ts ts' : List Token) : ∀ st : List Frame,
    parseRun st (ts ++ ts') = (parseRun st ts).bind fun st => parseRun st ts' := by
  induction ts with
  | nil => exact fun _ => rfl
  | cons tok ts ih =>
      intro st
      rw [List.cons_append, parseRun, parseRun, Option.bind_assoc]
      congr 1
      funext st
      exact ih st

/-! ## §4  Expressions that are read -/

namespace TypeExpr

mutual

/-- No union and no intersection in the expression is empty. -/
def Proper : TypeExpr → Prop
  | name _ => True
  | literal _ => True
  | generic _ args => ProperAll args
  | array item => item.Proper
  | union as => as ≠ [] ∧ ProperAll as
  | inter as => as ≠ [] ∧ ProperAll as

def ProperAll : List TypeExpr → Prop
  | [] => True
  | e :: es => e.Proper ∧ ProperAll es

end

theorem proper_name (s : String) : (name s).Proper := by
  rw [Proper]
  trivial

theorem proper_literal (s : String) : (literal s).Proper := by
  rw [Proper]
  trivial

theorem properAll_iff : ∀ {es : List TypeExpr}, ProperAll es ↔ ∀ e ∈ es, e.Proper
  | [] => by simp [ProperAll]
  | e :: es => by rw [ProperAll, properAll_iff, List.forall_mem_cons]

theorem arms_ne_nil (e : TypeExpr) : e.arms ≠ [] := by
  unfold arms
  split
  · exact List.cons_ne_nil _ _
  · exact List.cons_ne_nil _ _

theorem operands_ne_nil (e : TypeExpr) : e.operands ≠ [] := by
  unfold operands
  split
  · exact List.cons_ne_nil _ _
  · exact List.cons_ne_nil _ _

theorem proper_arms_iff {e : TypeExpr} : (∀ a ∈ e.arms, a.Proper) ↔ e.Proper := by
  unfold arms
  split
  · rw [Proper, properAll_iff]
    exact (and_iff_right (List.cons_ne_nil _ _)).symm
  · exact List.forall_mem_singleton

theorem proper_operands_iff {e : TypeExpr} : (∀ a ∈ e.operands, a.Proper) ↔ e.Proper := by
  unfold operands
  split
  · rw [Proper, properAll_iff]
    exact (and_iff_right (List.cons_ne_nil _ _)).symm
  · exact List.forall_mem_singleton

theorem proper_mkUnion_iff {es : List TypeExpr} :
    (mkUnion es).Proper ↔ es ≠ [] ∧ ∀ e ∈ es, e.Proper := by
  unfold mkUnion
  split
  · simp
  · rw [Proper, properAll_iff]

theorem proper_mkInter_iff {es : List TypeExpr} :
    (mkInter es).Proper ↔ es ≠ [] ∧ ∀ e ∈ es, e.Proper := by
  unfold mkInter
  split
  · simp
  · rw [Proper, properAll_iff]

theorem flatMap_ne_nil {f : TypeExpr → List TypeExpr} (hf : ∀ e, f e ≠ []) {es : List TypeExpr} :
    es.flatMap f ≠ [] ↔ es ≠ [] := by
  rcases es with _ | ⟨e, es⟩
  · simp
  · simp [List.flatMap_cons, hf]

theorem proper_unionOf_iff {es : List TypeExpr} :
    (unionOf es).Proper ↔ es ≠ [] ∧ ∀ e ∈ es, e.Proper := by
  rw [unionOf, proper_mkUnion_iff, flatMap_ne_nil arms_ne_nil, List.forall_mem_flatMap]
  simp only [proper_arms_iff]

theorem proper_interOf_iff {es : List TypeExpr} :
    (interOf es).Proper ↔ es ≠ [] ∧ ∀ e ∈ es, e.Proper := by
  rw [interOf, proper_mkInter_iff, flatMap_ne_nil operands_ne_nil, List.forall_mem_flatMap]
  simp only [proper_operands_iff]

theorem proper_ofArms {F : List (List TypeExpr)} (hF : Full F)
    (hproper : ∀ e ∈ F.flatten, e.Proper) : (ofArms F).Proper := by
  refine proper_unionOf_iff.mpr ⟨?_, ?_⟩
  · rw [ne_eq, List.map_eq_nil_iff]
    exact hF.ne_nil
  · rw [List.forall_mem_map]
    intro a ha
    refine proper_interOf_iff.mpr ⟨hF.2 a ha, fun e he => ?_⟩
    exact hproper e (List.mem_flatten.mpr ⟨a, ha, he⟩)

end TypeExpr

def Opener.args : Opener → List TypeExpr
  | .generic _ args => args
  | _ => []

/-- Nothing empty has been built, and behind an operand every arm has one. -/
structure Frame.Sound (f : Frame) : Prop where
  opened : Open f.content
  full : f.phase = .after → Full f.content
  proper : ∀ e ∈ f.content.flatten, e.Proper
  args : ∀ e ∈ f.opener.args, e.Proper

namespace Frame

theorem sound_new {opener : Opener} (h : ∀ e ∈ opener.args, e.Proper) : (new opener).Sound where
  opened := open_start
  full := fun hphase => by cases hphase
  proper := fun _ he => absurd he List.not_mem_nil
  args := h

theorem Sound.operand {f f' : Frame} (hf : f.Sound) {e : TypeExpr} (he : e.Proper)
    (h : f.operand e = some f') : f'.Sound := by
  unfold Frame.operand at h
  split at h
  · cases h
  · obtain rfl := Option.some.inj h
    have hfull := hf.opened.glue_operand e
    refine ⟨hfull.open, fun _ => hfull, ?_, hf.args⟩
    intro x hx
    rw [flatten_glue, List.mem_append] at hx
    rcases hx with hx | hx
    · exact hf.proper x hx
    · rw [List.mem_singleton.mp hx]
      exact he

theorem Sound.bar {f f' : Frame} (hf : f.Sound) (h : f.bar = some f') : f'.Sound := by
  unfold Frame.bar at h
  split at h
  · next hphase =>
      obtain rfl := Option.some.inj h
      refine ⟨(hf.full hphase).open_snoc, (fun hafter => by cases hafter), ?_, hf.args⟩
      intro x hx
      rw [List.flatten_append, List.mem_append] at hx
      exact hf.proper x (hx.resolve_right List.not_mem_nil)
  · obtain rfl := Option.some.inj h
    exact ⟨hf.opened, (fun hafter => by cases hafter), hf.proper, hf.args⟩
  · cases h

theorem Sound.amp {f f' : Frame} (hf : f.Sound) (h : f.amp = some f') : f'.Sound := by
  unfold Frame.amp at h
  split at h
  · cases h
  · obtain rfl := Option.some.inj h
    exact ⟨hf.opened, (fun hafter => by cases hafter), hf.proper, hf.args⟩

theorem Sound.brackets {f f' : Frame} (hf : f.Sound) (h : f.brackets = some f') : f'.Sound := by
  unfold Frame.brackets at h
  split at h
  · next hphase =>
      obtain rfl := Option.some.inj h
      have hfull := (hf.full hphase).onLast TypeExpr.array
      refine ⟨hfull.open, fun _ => hfull, ?_, hf.args⟩
      intro x hx
      rcases mem_flatten_onLast hx with hx | ⟨y, hy, rfl⟩
      · exact hf.proper x hx
      · exact hf.proper y hy
  · cases h

theorem Sound.value {f : Frame} (hf : f.Sound) {e : TypeExpr} (h : f.value = some e) :
    e.Proper := by
  unfold Frame.value at h
  split at h
  · next hphase =>
      obtain rfl := Option.some.inj h
      exact TypeExpr.proper_ofArms (hf.full hphase) hf.proper
  · cases h

end Frame

theorem sound_parseStep {st st' : List Frame} {tok : Token} (hst : ∀ f ∈ st, f.Sound)
    (h : parseStep st tok = some st') : ∀ f ∈ st', f.Sound := by
  rcases st with _ | ⟨f, st⟩
  · cases h
  · rw [List.forall_mem_cons] at hst
    -- a step on the innermost frame alone
    have hinner : ∀ {o : Option Frame}, (∀ g, o = some g → g.Sound) →
        o.map (· :: st) = some st' → ∀ f ∈ st', f.Sound := by
      intro o ho hmap
      obtain ⟨g, hg, rfl⟩ := Option.map_eq_some_iff.mp hmap
      exact List.forall_mem_cons.mpr ⟨ho g hg, hst.2⟩
    -- the end of an inner frame, whose expression goes to the frame below
    have hclose : ∀ (wrap : TypeExpr → TypeExpr) {below : Frame} {rest : List Frame},
        st = below :: rest → (∀ e, e.Proper → (wrap e).Proper) →
        (f.value.bind fun e => (below.operand (wrap e)).map (· :: rest)) = some st' →
        ∀ f ∈ st', f.Sound := by
      rintro wrap below rest rfl hwrap hbind
      obtain ⟨e, he, hmap⟩ := Option.bind_eq_some_iff.mp hbind
      obtain ⟨g, hg, rfl⟩ := Option.map_eq_some_iff.mp hmap
      obtain ⟨hbelow, hrest⟩ := List.forall_mem_cons.mp hst.2
      exact List.forall_mem_cons.mpr
        ⟨hbelow.operand (hwrap e (hst.1.value he)) hg, hrest⟩
    unfold parseStep at h
    rcases tok with s | g | s | _ | _ | _ | _ | _ | _ | _
    · exact hinner (fun _ => hst.1.operand (TypeExpr.proper_name s)) h
    · dsimp only at h
      split at h
      · cases h
      · obtain rfl := Option.some.inj h
        refine List.forall_mem_cons.mpr ⟨Frame.sound_new ?_, List.forall_mem_cons.mpr hst⟩
        exact fun _ he => absurd he List.not_mem_nil
    · exact hinner (fun _ => hst.1.operand (TypeExpr.proper_literal s)) h
    · exact hinner (fun _ => hst.1.bar) h
    · exact hinner (fun _ => hst.1.amp) h
    · dsimp only at h
      split at h
      · cases h
      · obtain rfl := Option.some.inj h
        refine List.forall_mem_cons.mpr ⟨Frame.sound_new ?_, List.forall_mem_cons.mpr hst⟩
        exact fun _ he => absurd he List.not_mem_nil
    · dsimp only at h
      split at h
      · exact hclose id rfl (fun _ he => he) h
      · cases h
    · dsimp only at h
      split at h
      · next g args hopener =>
          obtain ⟨e, he, rfl⟩ := Option.map_eq_some_iff.mp h
          refine List.forall_mem_cons.mpr ⟨Frame.sound_new ?_, hst.2⟩
          intro x hx
          rcases List.mem_append.mp hx with hx | hx
          · exact hst.1.args x (by rw [hopener]; exact hx)
          · rw [List.mem_singleton.mp hx]
            exact hst.1.value he
      · cases h
    · dsimp only at h
      split at h
      · next g args below rest hopener =>
          refine hclose _ rfl (fun e he => ?_) h
          rw [TypeExpr.Proper, TypeExpr.properAll_iff]
          intro x hx
          rcases List.mem_append.mp hx with hx | hx
          · exact hst.1.args x (by rw [hopener]; exact hx)
          · rw [List.mem_singleton.mp hx]
            exact he
      · cases h
    · exact hinner (fun _ => hst.1.brackets) h

theorem sound_parseRun : ∀ {ts : List Token} {st st' : List Frame}, (∀ f ∈ st, f.Sound) →
    parseRun st ts = some st' → ∀ f ∈ st', f.Sound
  | [], _, _, hst, h => by
      obtain rfl := Option.some.inj h
      exact hst
  | tok :: ts, st, st', hst, h => by
      obtain ⟨st₁, h₁, h₂⟩ := Option.bind_eq_some_iff.mp h
      exact sound_parseRun (sound_parseStep hst h₁) h₂

/-- No text is read as an expression with an empty union or an empty intersection in it. -/
theorem proper_of_parseType {text : String} {e : TypeExpr} (h : parseType text = some e) :
    e.Proper := by
  obtain ⟨ts, -, hparse⟩ := Option.bind_eq_some_iff.mp h
  unfold parseTokens at hparse
  split at hparse
  · next f hrun =>
      have hsound : ∀ f ∈ [Frame.new .top], f.Sound := by
        rw [List.forall_mem_singleton]
        exact Frame.sound_new fun _ he => absurd he List.not_mem_nil
      exact (sound_parseRun hsound hrun f (List.mem_singleton.mpr rfl)).value hparse
  · cases hparse

end SpecForge.Ts
