import SpecForge.Lib.Quoted
import SpecForge.Ts.Types
import SpecForge.Ts.TypeSyntax

/-!
# The tokens of rendered types

Cut into tokens, a rendered type is what `tokens` lists, unless a variant of an enum has a
line break in it: a literal ends on its line, so the text is then not read at all.

- §1 properties of all parts of a type; §2 the tokens.
- §3 texts read whatever follows; §4, §5 the pieces of a rendered type; §6 all of it.
-/

namespace SpecForge.Ts

open Lib

/-! ## §1  Parts of a type -/

mutual

/-- The property holds of the type and of all parts of it. -/
def Everywhere (P : IrType → Prop) : IrType → Prop
  | .array item nullable => P (.array item nullable) ∧ Everywhere P item
  | .map value => P (.map value) ∧ Everywhere P value
  | .composition kind members disc =>
      P (.composition kind members disc) ∧ EveryMember P members
  | t => P t

def EveryMember (P : IrType → Prop) : List IrType → Prop
  | [] => True
  | m :: ms => Everywhere P m ∧ EveryMember P ms

end

theorem everyMember_iff {P : IrType → Prop} : ∀ {ms : List IrType},
    EveryMember P ms ↔ ∀ m ∈ ms, Everywhere P m
  | [] => by simp [EveryMember]
  | m :: ms => by rw [EveryMember, everyMember_iff, List.forall_mem_cons]

/-! ## §2  The tokens of a rendered type -/

def sepToken : CompositionKind → Token
  | .allOf => .amp
  | .oneOf | .anyOf => .bar

/-- Token lists with a separator between them. -/
def sepBy (sep : Token) : List (List Token) → List Token
  | [] => []
  | [ts] => ts
  | ts :: ts' :: rest => ts ++ sep :: sepBy sep (ts' :: rest)

def nullTokens (nullable : Bool) : List Token := if nullable then [.bar, .ident "null"] else []

def enumTokens (variants : List String) : List Token :=
  if variants.isEmpty then [.ident "string"]
  else sepBy .bar (variants.map fun v => [.literal v])

mutual

def tokens : IrType → List Token
  | .scalar s => [.ident (renderScalar s)]
  | .stringEnum variants nullable => enumTokens variants ++ nullTokens nullable
  | .array item _ =>
      if needsParens item then .lparen :: tokens item ++ [.rparen, .brackets]
      else tokens item ++ [.brackets]
  | .map value => .generic "Record" :: .ident "string" :: .comma :: tokens value ++ [.gt]
  | .reference name nullable _ => .ident (pascal name) :: nullTokens nullable
  | .composition kind members _ => sepBy (sepToken kind) (tokensOfMembers members)
  | .any => [.ident "unknown"]
  | .unknown => [.ident "unknown"]

def tokensOfMembers : List IrType → List (List Token)
  | [] => []
  | m :: ms => tokens m :: tokensOfMembers ms

end

theorem tokensOfMembers_eq : ∀ ms : List IrType, tokensOfMembers ms = ms.map tokens
  | [] => rfl
  | m :: ms => by rw [tokensOfMembers, tokensOfMembers_eq ms, List.map_cons]

/-- A literal that stays on its line. -/
def OneLine (v : String) : Prop := '\n' ∉ v.toList ∧ '\r' ∉ v.toList

instance (v : String) : Decidable (OneLine v) := inferInstanceAs (Decidable (_ ∧ _))

/-- The variants of an enum stay on their lines. -/
def LiteralsOk : IrType → Prop
  | .stringEnum variants _ => ∀ v ∈ variants, OneLine v
  | _ => True

/-! ## §3  Reading a text -/

/-- What may stand behind a type: nothing that would continue its last identifier. -/
def Delimited (cs : List Char) : Prop :=
  ∀ c, cs.head? = some c → isIdentifierPart c = false ∧ c ≠ '<'

/-- The text is read as the tokens, whatever stands behind it, or not at all. -/
def Reads (cs : List Char) (ts : Option (List Token)) : Prop :=
  ∀ rest, Delimited rest → lex .between (cs ++ rest) =
    ts.bind fun ts => (lex .between rest).map fun ts' => ts ++ ts'

/-- The text is read as the tokens, even where an identifier follows. -/
def ReadsNow (cs : List Char) (ts : List Token) : Prop :=
  ∀ rest, lex .between (cs ++ rest) = (lex .between rest).map fun ts' => ts ++ ts'

theorem Delimited.append {cs rest : List Char} (h : Delimited cs) (hne : cs ≠ []) :
    Delimited (cs ++ rest) := by
  intro c hc
  rw [List.head?_append_of_ne_nil cs hne] at hc
  exact h c hc

theorem reads_nil : Reads [] (some []) := by
  intro rest _
  rw [Option.bind_some]
  exact Option.map_id'.symm

theorem ReadsNow.reads {cs : List Char} {ts : List Token} (h : ReadsNow cs ts) :
    Reads cs (some ts) :=
  fun rest _ => h rest

theorem Reads.append {cs cs' : List Char} {ts ts' : Option (List Token)} (h : Reads cs ts)
    (h' : Reads cs' ts') (hdelim : Delimited cs') (hne : cs' ≠ []) :
    Reads (cs ++ cs') (ts.bind fun a => ts'.map fun b => a ++ b) := by
  intro rest hrest
  rw [List.append_assoc, h _ (hdelim.append hne), h' rest hrest]
  rcases ts with _ | ts
  · rfl
  · rcases ts' with _ | ts'
    · rfl
    · simp [Option.map_map, Function.comp_def, List.append_assoc]

theorem ReadsNow.append_reads {cs cs' : List Char} {ts : List Token}
    {ts' : Option (List Token)} (h : ReadsNow cs ts) (h' : Reads cs' ts') :
    Reads (cs ++ cs') (ts'.map fun b => ts ++ b) := by
  intro rest hrest
  rw [List.append_assoc, h, h' rest hrest]
  rcases ts' with _ | ts'
  · rfl
  · simp [Option.map_map, Function.comp_def, List.append_assoc]

theorem ReadsNow.append {cs cs' : List Char} {ts ts' : List Token} (h : ReadsNow cs ts)
    (h' : ReadsNow cs' ts') : ReadsNow (cs ++ cs') (ts ++ ts') := by
  intro rest
  rw [List.append_assoc, h, h', Option.map_map]
  simp [Function.comp_def, List.append_assoc]

theorem Reads.append_now {cs cs' : List Char} {ts ts' : List Token} (h : Reads cs (some ts))
    (h' : ReadsNow cs' ts') (hdelim : Delimited cs') (hne : cs' ≠ []) :
    ReadsNow (cs ++ cs') (ts ++ ts') := by
  intro rest
  rw [List.append_assoc, h _ (hdelim.append hne), h', Option.bind_some, Option.map_map]
  simp [Function.comp_def, List.append_assoc]

/-! ## §4  Names and literals -/

theorem lex_ident_append : ∀ (cs w rest : List Char), (∀ c ∈ cs, isIdentifierPart c = true) →
    lex (.ident w) (cs ++ rest) = lex (.ident (w ++ cs)) rest
  | [], w, rest, _ => by rw [List.append_nil, List.nil_append]
  | c :: cs, w, rest, h => by
      rw [List.forall_mem_cons] at h
      have hchar : lexChar (.ident w) c = some (.ident (w ++ [c]), []) := by
        rw [lexChar, if_pos h.1]
      have ih := lex_ident_append cs (w ++ [c]) rest h.2
      rw [List.cons_append, lex, hchar, Option.bind_some, ih, List.append_assoc]
      exact Option.map_id'

theorem lex_ident_delimited (w rest : List Char) (h : Delimited rest) :
    lex (.ident w) rest =
      (lex .between rest).map fun ts => .ident (String.ofList w) :: ts := by
  rcases rest with _ | ⟨d, ds⟩
  · rfl
  · obtain ⟨hpart, hlt⟩ := h d rfl
    have hchar : lexChar (.ident w) d =
        (lexStart d).map fun x => (x.1, .ident (String.ofList w) :: x.2) := by
      rw [lexChar, if_neg (by rw [hpart]; exact Bool.false_ne_true), if_neg hlt]
    rw [lex, lex, hchar, lexChar]
    rcases lexStart d with _ | ⟨mode, out⟩
    · rfl
    · simp [Option.map_map, Function.comp_def]

/-- The start of an identifier is no white space. -/
theorem lexStart_identifier {c : Char} (h : isIdentifierStart c = true) :
    lexStart c = some (.ident [c], []) := by
  have hspace : isSpace c = false := by
    rw [← Bool.not_eq_true]
    intro hsp
    simp only [isSpace, Bool.or_eq_true, beq_iff_eq] at hsp
    rcases hsp with ((rfl | rfl) | rfl) | rfl <;> exact absurd h (by decide)
  unfold lexStart
  rw [hspace, if_neg Bool.false_ne_true, if_pos h]

/-- A name is one token. -/
theorem reads_identifier {c : Char} {cs : List Char} (hc : isIdentifierStart c = true)
    (hcs : ∀ d ∈ cs, isIdentifierPart d = true) :
    Reads (c :: cs) (some [.ident (String.ofList (c :: cs))]) := by
  intro rest hrest
  have hstart : lexChar .between c = some (.ident [c], []) := lexStart_identifier hc
  rw [List.cons_append, lex, hstart, Option.bind_some, lex_ident_append cs [c] rest hcs,
    lex_ident_delimited _ rest hrest, Option.map_map]
  rfl

/-- A name that can be looked at letter by letter. -/
theorem reads_word {c : Char} {cs : List Char} (hc : isIdentifierStart c = true)
    (hcs : cs.all isIdentifierPart = true) :
    Reads (c :: cs) (some [.ident (String.ofList (c :: cs))]) :=
  reads_identifier hc (List.all_eq_true.mp hcs)

/-- A character as it stands in a literal. -/
def escapeChar (c : Char) : List Char :=
  if c = '\\' ∨ c = '"' then ['\\', c] else [c]

theorem toList_escapeQuotes (s : String) :
    (escapeQuotes s).toList = s.toList.flatMap escapeChar := Quoted.toList_escapeQuotes s

/-- A literal is read up to its end; a line break in it ends the reading. -/
theorem lex_literal (v : List Char) : ∀ (w rest : List Char),
    lex (.literal w) (v.flatMap escapeChar ++ '"' :: rest) =
      if '\n' ∉ v ∧ '\r' ∉ v then
        (lex .between rest).map fun ts => .literal (String.ofList (w ++ v)) :: ts
      else none := by
  induction v with
  | nil =>
      intro w rest
      rw [if_pos ⟨List.not_mem_nil, List.not_mem_nil⟩, List.append_nil]
      rfl
  | cons c v ih =>
      intro w rest
      rw [List.flatMap_cons, List.append_assoc]
      by_cases hesc : c = '\\' ∨ c = '"'
      · have hline : ¬ '\n' = c ∧ ¬ '\r' = c := by
          rcases hesc with rfl | rfl <;> exact ⟨by decide, by decide⟩
        have hslash : lexChar (.literal w) '\\' = some (.escape w, []) := rfl
        have hchar : lexChar (.escape w) c = some (.literal (w ++ [c]), []) := by
          rw [lexChar, if_pos hesc]
        rw [escapeChar, if_pos hesc, List.cons_append, List.cons_append, List.nil_append, lex,
          hslash, Option.bind_some, lex, hchar, Option.bind_some, ih, List.append_assoc]
        simp [hline]
      · obtain ⟨hslash, hquote⟩ := not_or.mp hesc
        rw [escapeChar, if_neg hesc, List.singleton_append, lex, lexChar, if_neg hquote,
          if_neg hslash]
        by_cases hline : c = '\n' ∨ c = '\r'
        · rw [if_pos hline, Option.bind_none, if_neg]
          rcases hline with rfl | rfl
          · exact fun h => h.1 List.mem_cons_self
          · exact fun h => h.2 List.mem_cons_self
        · obtain ⟨hn, hr⟩ := not_or.mp hline
          rw [if_neg hline, Option.bind_some, ih, List.append_assoc]
          simp [Ne.symm hn, Ne.symm hr]

theorem reads_literal (v : String) :
    Reads ("\"" ++ escapeQuotes v ++ "\"").toList
      (if OneLine v then some [.literal v] else none) := by
  intro rest _
  have hquote : ("\"" : String).toList = ['"'] := rfl
  have hstart : lexChar .between '"' = some (.literal [], []) := rfl
  rw [String.toList_append, String.toList_append, hquote, toList_escapeQuotes, List.append_assoc,
    List.append_assoc, List.singleton_append, List.singleton_append, lex, hstart,
    Option.bind_some, lex_literal, List.nil_append, String.ofList_toList]
  have hline : ('\n' ∉ v.toList ∧ '\r' ∉ v.toList) = OneLine v := rfl
  by_cases h : OneLine v
  · simp [hline, h, Function.comp_def]
  · simp [hline, h]

/-! ## §5  Separators and brackets -/

section Punctuation

attribute [local simp] lex lexChar lexStart isSpace isIdentifierStart isIdentifierPart
  Option.map_map Function.comp_def

theorem readsNow_bar : ReadsNow " | ".toList [.bar] := by
  intro rest
  simp

theorem readsNow_amp : ReadsNow " & ".toList [.amp] := by
  intro rest
  simp

theorem readsNow_lparen : ReadsNow "(".toList [.lparen] := by
  intro rest
  simp

theorem readsNow_rparen_brackets : ReadsNow ")[]".toList [.rparen, .brackets] := by
  intro rest
  simp

theorem readsNow_brackets : ReadsNow "[]".toList [.brackets] := by
  intro rest
  simp

theorem readsNow_gt : ReadsNow ">".toList [.gt] := by
  intro rest
  simp

theorem readsNow_comma : ReadsNow ", ".toList [.comma] := by
  intro rest
  simp

end Punctuation

theorem readsNow_generic : ReadsNow "Record<".toList [.generic "Record"] := by
  intro rest
  have htext : "Record<".toList ++ rest = 'R' :: ("ecord".toList ++ '<' :: rest) := rfl
  have hstart : lexChar .between 'R' = some (.ident ['R'], []) := rfl
  have hend : lexChar (.ident ("Record".toList)) '<' =
      some (.between, [.generic "Record"]) := rfl
  rw [htext, lex, hstart, Option.bind_some, lex_ident_append _ _ _ (List.all_eq_true.mp (by decide))]
  show (lex (.ident "Record".toList) ('<' :: rest)).map (fun ts => [] ++ ts) = _
  rw [lex, hend, Option.bind_some, Option.map_map]
  rfl

theorem readsNow_record :
    ReadsNow "Record<string, ".toList [.generic "Record", .ident "string", .comma] := by
  have hname : Reads "string".toList (some [.ident "string"]) :=
    reads_word (c := 's') (by decide) (by decide)
  have hdelim : Delimited ", ".toList := by
    intro c hc
    obtain rfl := Option.some.inj hc
    decide
  exact readsNow_generic.append (hname.append_now readsNow_comma hdelim (by decide))

/-- A text that starts with white space or a bracket. -/
theorem delimited_of_head {cs : List Char} {c : Char} (hc : cs.head? = some c)
    (h : isIdentifierPart c = false ∧ c ≠ '<') : Delimited cs := by
  intro d hd
  rw [hc] at hd
  rwa [← Option.some.inj hd]

theorem readsNow_memberSep (kind : CompositionKind) :
    ReadsNow (memberSep kind).toList [sepToken kind] := by
  rcases kind with _ | _ | _
  · exact readsNow_amp
  · exact readsNow_bar
  · exact readsNow_bar

theorem delimited_memberSep (kind : CompositionKind) : Delimited (memberSep kind).toList := by
  rcases kind with _ | _ | _ <;> exact delimited_of_head (c := ' ') rfl (by decide)

theorem memberSep_ne_nil (kind : CompositionKind) : (memberSep kind).toList ≠ [] := by
  rcases kind with _ | _ | _ <;> decide

/-- The text is read as the tokens where the condition holds, and not at all elsewhere. -/
def ReadsIf (cs : List Char) (ok : Prop) (ts : List Token) : Prop :=
  (ok → Reads cs (some ts)) ∧ (¬ ok → Reads cs none)

theorem Reads.readsIf {cs : List Char} {ok : Prop} {ts : List Token} (h : Reads cs (some ts))
    (hok : ok) : ReadsIf cs ok ts :=
  ⟨fun _ => h, fun hnot => absurd hok hnot⟩

theorem ReadsIf.append {cs cs' : List Char} {ok ok' : Prop} {ts ts' : List Token}
    (h : ReadsIf cs ok ts) (h' : ReadsIf cs' ok' ts') (hdelim : Delimited cs') (hne : cs' ≠ []) :
    ReadsIf (cs ++ cs') (ok ∧ ok') (ts ++ ts') := by
  constructor
  · rintro ⟨hok, hok'⟩
    exact (h.1 hok).append (h'.1 hok') hdelim hne
  · intro hnot
    by_cases hok : ok
    · exact (h.1 hok).append (h'.2 fun hok' => hnot ⟨hok, hok'⟩) hdelim hne
    · by_cases hok' : ok'
      · exact (h.2 hok).append (h'.1 hok') hdelim hne
      · exact (h.2 hok).append (h'.2 hok') hdelim hne

theorem ReadsIf.append_now {cs cs' : List Char} {ok : Prop} {ts ts' : List Token}
    (h : ReadsIf cs ok ts) (h' : ReadsNow cs' ts') (hdelim : Delimited cs') (hne : cs' ≠ []) :
    ReadsIf (cs ++ cs') ok (ts ++ ts') :=
  ⟨fun hok => (h.1 hok).append h'.reads hdelim hne,
    fun hnot => (h.2 hnot).append h'.reads hdelim hne⟩

theorem ReadsNow.append_if {cs cs' : List Char} {ok : Prop} {ts ts' : List Token}
    (h : ReadsNow cs ts) (h' : ReadsIf cs' ok ts') : ReadsIf (cs ++ cs') ok (ts ++ ts') :=
  ⟨fun hok => h.append_reads (h'.1 hok), fun hnot => h.append_reads (h'.2 hnot)⟩

/-- Texts with separators between them are read one by one. -/
theorem reads_intercalate {γ : Type} {f : γ → List Char} {g : γ → List Token} {ok : γ → Prop}
    {sep : List Char} {tok : Token} (hsep : ReadsNow sep [tok]) (hdelim : Delimited sep)
    (hne : sep ≠ []) : ∀ {l : List γ}, (∀ x ∈ l, ReadsIf (f x) (ok x) (g x)) →
      ReadsIf (sep.intercalate (l.map f)) (∀ x ∈ l, ok x) (sepBy tok (l.map g))
  | [], _ => reads_nil.readsIf fun x hx => absurd hx List.not_mem_nil
  | [x], h => by
      have hx := h x List.mem_cons_self
      simpa [sepBy, List.intercalate] using hx
  | x :: y :: l, h => by
      rw [List.forall_mem_cons] at h
      have ih := reads_intercalate hsep hdelim hne h.2
      have hboth := h.1.append (hsep.append_if ih)
        (hdelim.append hne) (List.append_ne_nil_of_left_ne_nil hne _)
      have htext : sep.intercalate ((x :: y :: l).map f) =
          f x ++ (sep ++ sep.intercalate ((y :: l).map f)) := by
        rw [List.map_cons, List.map_cons, List.intercalate_cons_cons, List.append_assoc]
      rw [htext, List.forall_mem_cons]
      exact hboth

theorem isIdentifierPart_of_alphanum {c : Char} (h : c.isAlphanum = true) :
    isIdentifierPart c = true := by
  rw [isIdentifierPart, h, Bool.true_or, Bool.true_or]

/-- Every PascalCase name is an identifier. -/
theorem reads_pascal (s : String) : Reads (pascal s).toList (some [.ident (pascal s)]) := by
  have hshape := pascalShape_pascal s
  rcases hw : (pascal s).toList with _ | ⟨c, cs⟩
  · rw [hw] at hshape
    exact absurd hshape id
  · rw [hw] at hshape
    obtain ⟨hall, hhead⟩ := hshape
    have hc : isIdentifierStart c = true := by
      rcases hhead with hc | ⟨rfl, -⟩
      · show (c.isUpper || c.isLower || c == '_' || c == '$') = true
        rw [hc, Bool.true_or, Bool.true_or, Bool.true_or]
      · rfl
    have hname : String.ofList (c :: cs) = pascal s := by rw [← hw, String.ofList_toList]
    rw [← hname]
    exact reads_identifier hc fun d hd => isIdentifierPart_of_alphanum (hall d hd)

theorem reads_renderScalar (s : Scalar) :
    Reads (renderScalar s).toList (some [.ident (renderScalar s)]) := by
  rcases s <;> exact reads_word (by decide) (by decide)

theorem reads_nullSuffix : Reads " | null".toList (some [.bar, .ident "null"]) :=
  readsNow_bar.append_reads (reads_word (c := 'n') (by decide) (by decide))

theorem delimited_nullSuffix : Delimited " | null".toList :=
  delimited_of_head (c := ' ') rfl (by decide)

/-- A text with `| null` behind it where it is nullable. -/
theorem ReadsIf.orNull {s : String} {ok : Prop} {ts : List Token} (h : ReadsIf s.toList ok ts)
    (nullable : Bool) : ReadsIf (if nullable then s ++ " | null" else s).toList ok
      (ts ++ nullTokens nullable) := by
  rcases nullable with _ | _
  · rw [if_neg Bool.false_ne_true, nullTokens, if_neg Bool.false_ne_true, List.append_nil]
    exact h
  · rw [if_pos rfl, String.toList_append]
    exact ⟨fun hok => (h.1 hok).append reads_nullSuffix delimited_nullSuffix (by decide),
      fun hnot => (h.2 hnot).append reads_nullSuffix delimited_nullSuffix (by decide)⟩

/-! ## §6  Rendered types -/

theorem readsIf_literal (v : String) :
    ReadsIf ("\"" ++ escapeQuotes v ++ "\"").toList (OneLine v) [.literal v] := by
  have h := reads_literal v
  constructor
  · intro hok
    rwa [if_pos hok] at h
  · intro hnot
    rwa [if_neg hnot] at h

theorem readsIf_renderStringEnum (variants : List String) (nullable : Bool) :
    ReadsIf (renderStringEnum variants nullable).toList (∀ v ∈ variants, OneLine v)
      (enumTokens variants ++ nullTokens nullable) := by
  unfold renderStringEnum
  refine ReadsIf.orNull ?_ nullable
  rcases variants with _ | ⟨v, vs⟩
  · exact (reads_word (c := 's') (by decide) (by decide)).readsIf
      fun v hv => absurd hv List.not_mem_nil
  · have hreads := reads_intercalate readsNow_bar (delimited_memberSep .oneOf)
      (memberSep_ne_nil .oneOf) (l := v :: vs) fun v _ => readsIf_literal v
    have hempty : (v :: vs).isEmpty = false := rfl
    have harms : ((v :: vs).map fun v => "\"" ++ escapeQuotes v ++ "\"").isEmpty = false := rfl
    rw [harms, if_neg Bool.false_ne_true, enumTokens, hempty, if_neg Bool.false_ne_true,
      Text.join, String.toList_intercalate, List.map_map]
    exact hreads

/-- **How a rendered type is read.** -/
theorem readsIf_render (t : IrType) :
    ReadsIf (render t).toList (Everywhere LiteralsOk t) (tokens t) := by
  induction t using IrType.induction with
  | scalar s => exact (reads_renderScalar s).readsIf trivial
  | stringEnum variants nullable => exact readsIf_renderStringEnum variants nullable
  | array item nullable ih =>
      have hok : Everywhere LiteralsOk (.array item nullable) ↔ Everywhere LiteralsOk item := by
        rw [Everywhere]
        exact and_iff_right trivial
      rw [hok, render, tokens]
      split
      · rw [String.toList_append, String.toList_append]
        have hclose := ih.append_now readsNow_rparen_brackets
          (delimited_of_head (c := ')') rfl (by decide)) (by decide)
        have hopen := readsNow_lparen.append_if hclose
        rw [List.append_assoc]
        exact hopen
      · rw [String.toList_append]
        exact ih.append_now readsNow_brackets
          (delimited_of_head (c := '[') rfl (by decide)) (by decide)
  | map value ih =>
      have hok : Everywhere LiteralsOk (.map value) ↔ Everywhere LiteralsOk value := by
        rw [Everywhere]
        exact and_iff_right trivial
      rw [hok, render, tokens, String.toList_append, String.toList_append, List.append_assoc]
      refine readsNow_record.append_if (ih.append_now readsNow_gt ?_ (by decide))
      intro c hc
      obtain rfl := Option.some.inj hc
      decide
  | reference name nullable description =>
      exact ((reads_pascal name).readsIf trivial).orNull nullable
  | composition kind members discriminator ih =>
      have hok : Everywhere LiteralsOk (.composition kind members discriminator) ↔
          ∀ m ∈ members, Everywhere LiteralsOk m := by
        rw [Everywhere, everyMember_iff]
        exact and_iff_right trivial
      rw [hok, render, tokens, renderMembers_eq, tokensOfMembers_eq, Text.join,
        String.toList_intercalate, List.map_map]
      exact reads_intercalate (readsNow_memberSep kind) (delimited_memberSep kind)
        (memberSep_ne_nil kind) ih
  | any => exact (reads_word (c := 'u') (by decide) (by decide)).readsIf trivial
  | unknown => exact (reads_word (c := 'u') (by decide) (by decide)).readsIf trivial

theorem delimited_nil : Delimited [] := by
  intro c hc
  cases hc

theorem lex_render_of_ok {t : IrType} (h : Everywhere LiteralsOk t) :
    lex .between (render t).toList = some (tokens t) := by
  have hread := (readsIf_render t).1 h [] delimited_nil
  rw [List.append_nil] at hread
  rw [hread]
  simp [lex]

theorem lex_render_of_not_ok {t : IrType} (h : ¬ Everywhere LiteralsOk t) :
    lex .between (render t).toList = none := by
  have hread := (readsIf_render t).2 h [] delimited_nil
  rw [List.append_nil] at hread
  exact hread

end SpecForge.Ts
