import SpecForge.Lib.Fuel
import SpecForge.Lib.Text
import SpecForge.Native.Go

/-!
# What `encoding/json` sees of a Go type

A struct field is known to `encoding/json` by the name in its tag, if that is a valid name, and
by its Go identifier otherwise. The fields of an embedded struct count as fields of the outer
one, unless a field further out has their name.

- §1 identifiers and tags; §2 the fields that are seen; §3 what a type is underneath its names.
-/

namespace SpecForge.Go

open Native Lib
open Lib.Text (beforeChar)

/-! ## §1  Fields of a declaration -/

def goReserved : List String :=
  ["break", "default", "func", "interface", "select", "case", "defer", "go", "map", "struct",
   "chan", "else", "goto", "package", "switch", "const", "fallthrough", "if", "range", "type",
   "continue", "for", "import", "return", "var", "error", "string", "bool", "int", "any", "true",
   "false", "nil", "iota", "append", "cap", "close", "complex", "copy", "delete", "imag", "len",
   "make", "new", "panic", "print", "println", "real", "recover", "context", "body", "ctx", "c",
   "q", "query", "out", "err", "url", "http", "json", "fmt", "io", "strings", "strconv", "bytes",
   "time", "pathEscape", "anyString", "fmtInt", "fmtInt64", "fmtBool", "fmtFloat"]

def isGoReserved (s : String) : Bool := goReserved.contains s

/-- The loop of `go_param_ident`, with the index of the next character. -/
def paramChars (i : ℕ) (nextUpper : Bool) : List Char → List Char
  | [] => []
  | ch :: rest =>
      if ch.isAlphanum then
        if i = 0 then ch.toLower :: paramChars (i + 1) nextUpper rest
        else if nextUpper then ch.toUpper :: paramChars (i + 1) false rest
        else ch :: paramChars (i + 1) nextUpper rest
      else paramChars (i + 1) true rest

def goParamIdent (name : String) : String :=
  let s := String.ofList (paramChars 0 false name.toList)
  if s = "" then "p" else if isGoReserved s then s ++ "Val" else s

/-- A character of `field_name`. -/
def fieldChar (ch : Char) : List Char :=
  if ch = '+' then "Plus".toList
  else if ch = '-' ∨ ch = '−' then "Minus".toList
  else if ch = '.' then "Dot".toList
  else if ch = '/' then "Slash".toList
  else if ch = '@' then "At".toList
  else if ch = '#' then "Hash".toList
  else if ch = '$' then "Dollar".toList
  else if ch = '%' then "Pct".toList
  else if ch = '&' then "And".toList
  else if ch = '*' then "Star".toList
  else if ch.isAlphanum ∨ ch = '_' then [ch]
  else ['_']

def fieldName (input : String) : String :=
  let name := pascal (String.ofList (input.toList.flatMap fieldChar))
  if isGoReserved (name.map Char.toLower) then name ++ "Field" else name

/-- The loop of `unique_field_name`: of so many numbers one is free. -/
def uniqueFrom (base : String) (used : List String) : ℕ → ℕ → String
  | 0, n => base ++ toString n
  | attempts + 1, n =>
      let candidate := base ++ toString n
      if candidate ∈ used then uniqueFrom base used attempts (n + 1) else candidate

def uniqueFieldName (base : String) (used : List String) : String :=
  if base ∈ used then uniqueFrom base used used.length 2 else base

/-- The identifiers of the fields of a struct, in their order. -/
def fieldIdents (used : List String) : List GoField → List String
  | [] => []
  | f :: fields =>
      let ident := uniqueFieldName (fieldName f.json) used
      ident :: fieldIdents (used ++ [ident]) fields

/-- The characters no raw string can hold. -/
def breaksRawString (c : Char) : Bool :=
  c == Char.ofNat 0x60 || c == '\x00' || c == Char.ofNat 0xFEFF

/-- The value of the tag, without its quotes: a raw string has no carriage returns, and the
quotes inside it no line feeds. -/
def tagValue (f : GoField) : Option String :=
  let text := (f.json ++ if f.omitempty then ",omitempty" else "").toList.filter (· != '\r')
  if '\n' ∈ text then none else some (String.ofList text)

/-- The options of a tag, behind its first comma. -/
def tagOptions (tag : String) : List String := (Text.split ',' tag).tail

def tagPunctuation : List Char := "!#$%&()*+-./:;<=>?@[]^_{|}~ ".toList

/-- A name in a tag; `letter` knows the letters and digits beyond ASCII. -/
def isValidTag (letter : Char → Bool) (name : String) : Bool :=
  !name.isEmpty && name.toList.all fun c =>
    tagPunctuation.contains c || c.isAlphanum || letter c

/-! ## §2  Fields of a type -/

/-- A field as `encoding/json` sees it; it is `tagged` if the name is that of the tag. -/
structure JsonField where
  name : String
  tagged : Bool
  omitempty : Bool
  type : GoType

/-- The field of this identifier, unless its tag is `-`. -/
def jsonField (letter : Char → Bool) (ident : String) (f : GoField) : Option JsonField :=
  match tagValue f with
  | none => some ⟨ident, false, false, f.type⟩
  | some tag =>
      let name := beforeChar ',' tag
      let tagged := isValidTag letter name
      if tag = "-" then none
      else some ⟨if tagged then name else ident, tagged, (tagOptions tag).contains "omitempty",
        f.type⟩

/-- The fields of a struct of its own, if it compiles. -/
def ownFields (letter : Char → Bool) (fields : List GoField) : Option (List JsonField) :=
  if fields.any fun f => f.json.toList.any breaksRawString then none
  else some (((fieldIdents [] fields).zip fields).filterMap fun (ident, f) =>
    jsonField letter ident f)

/-- No other field of the level has the name, or no other that is tagged. -/
def dominant (level : List JsonField) (f : JsonField) : Bool :=
  let rivals := level.filter (·.name == f.name)
  rivals.length == 1 || f.tagged && (rivals.filter (·.tagged)).length == 1

/-- The fields that are seen, the levels being the struct, its embedded one, and so on. -/
def visible : List (List JsonField) → List JsonField
  | [] => []
  | level :: deeper =>
      level.filter (dominant level) ++
        (visible deeper).filter fun f => !level.any (·.name == f.name)

/-- The fields of a level that share a name with a dominant one: it is alone, or alone in
being tagged. -/
theorem nodup_dominant (level : List JsonField) :
    ((level.filter (dominant level)).map (·.name)).Nodup := by
  rw [List.nodup_iff_count_le_one]
  intro name
  rw [List.count, List.countP_map, List.countP_eq_length_filter, List.filter_filter]
  by_contra hlong
  rw [Nat.not_le] at hlong
  obtain ⟨f, hf⟩ := List.exists_mem_of_length_pos (Nat.zero_lt_of_lt hlong)
  simp only [List.mem_filter, Bool.and_eq_true, Function.comp_apply, beq_iff_eq] at hf
  obtain ⟨hmem, rfl, hdom⟩ := hf
  have hrivals : ∀ q : JsonField → Bool, (∀ g ∈ level, g.name = f.name → dominant level g → q g) →
      (level.filter fun g => ((· == f.name) ∘ (·.name)) g && dominant level g).length ≤
        (level.filter fun g => q g && g.name == f.name).length := by
    intro q hq
    rw [← List.countP_eq_length_filter, ← List.countP_eq_length_filter]
    refine List.countP_mono_left fun g hg hkept => ?_
    simp only [Function.comp_apply, Bool.and_eq_true, beq_iff_eq] at hkept ⊢
    exact ⟨hq g hg hkept.1 hkept.2, hkept.1⟩
  by_cases halone : (level.filter (·.name == f.name)).length = 1
  · have hle := hrivals (fun _ => true) fun _ _ _ _ => rfl
    simp only [Bool.true_and] at hle
    omega
  · have htagged : ∀ g ∈ level, g.name = f.name → dominant level g →
        g.tagged = true ∧ ((level.filter (·.name == f.name)).filter (·.tagged)).length = 1 := by
      intro g _ hname hg
      simp only [dominant, hname, Bool.or_eq_true, Bool.and_eq_true, beq_iff_eq] at hg
      exact hg.resolve_left halone
    have hle := hrivals (·.tagged) fun g hg hname hdom => (htagged g hg hname hdom).1
    have hone := (htagged f hmem rfl hdom).2
    rw [List.filter_filter] at hone
    omega

theorem nodup_visible : ∀ levels : List (List JsonField), ((visible levels).map (·.name)).Nodup
  | [] => List.nodup_nil
  | level :: deeper => by
      rw [visible, List.map_append, List.nodup_append]
      refine ⟨nodup_dominant level, ((nodup_visible deeper).sublist (List.filter_sublist.map _)), ?_⟩
      intro a ha b hb hab
      obtain ⟨f, hf, rfl⟩ := List.mem_map.mp ha
      obtain ⟨g, hg, rfl⟩ := List.mem_map.mp hb
      obtain ⟨-, hnew⟩ := List.mem_filter.mp hg
      rw [Bool.not_eq_true', List.any_eq_false] at hnew
      exact hnew f (List.mem_filter.mp hf).1 (beq_iff_eq.mpr hab)

/-! ## §3  Underlying types -/

/-- What a type is, whatever it is called. -/
inductive Kind where
  | text
  | int
  | float
  | bool
  | any
  | union
  | pointer (t : GoType)
  | slice (item : GoType)
  | map (value : GoType)
  | struct (levels : List (List JsonField))

def Kind.isStruct : Kind → Bool
  | .struct _ => true
  | _ => false

def predeclared (name : String) : Option Kind :=
  if name = "string" then some .text
  else if name = "int" ∨ name = "int64" then some .int
  else if name = "float64" then some .float
  else if name = "bool" then some .bool
  else if name = "any" then some .any
  else none

/-- The declaration of a name in a package, which has no other one of that name. -/
def declared (decls : List GoDecl) (name : String) : Option GoDecl :=
  match decls.filter (·.name == name) with
  | [decl] => some decl
  | _ => none

/-- An embedded type that is no struct is a field of its own name, and no pointer. -/
def embed (own : List JsonField) (base : String) : Kind → Option Kind
  | .struct levels => some (.struct (own :: levels))
  | .pointer _ => none
  | _ => some (.struct [own ++ [⟨base, false, false, .ident base⟩]])

variable (letter : Char → Bool) (decls : List GoDecl)

/-- What is declared, with the kinds of the types in it. -/
def declKind (recurse : GoType → Option Kind) : GoDecl → Option Kind
  | .enum _ _ => some .text
  | .union _ _ => some .union
  | .typeAlias _ t => recurse t
  | .struct _ embedded fields =>
      (ownFields letter fields).bind fun own =>
        match embedded with
        | none => some (.struct [own])
        | some base => (recurse (.ident base)).bind (embed own base)

/-- The underlying type; names may go round in circles, in a package that does not compile. -/
def kindOf : ℕ → GoType → Option Kind
  | 0, _ => none
  | _ + 1, .pointer t => some (.pointer t)
  | _ + 1, .slice item => some (.slice item)
  | _ + 1, .map value => some (.map value)
  | n + 1, .ident name =>
      match predeclared name with
      | some k => some k
      | none => (declared decls name).bind (declKind letter (kindOf n))

theorem declKind_mono {r r' : GoType → Option Kind} (h : ∀ t k, r t = some k → r' t = some k)
    {d : GoDecl} {k : Kind} (hk : declKind letter r d = some k) : declKind letter r' d = some k := by
  cases d with
  | enum name values => exact hk
  | union name arms => exact hk
  | typeAlias name t => exact h t k hk
  | struct name embedded fields =>
      obtain ⟨own, hown, hrest⟩ := Option.bind_eq_some_iff.mp hk
      refine Option.bind_eq_some_iff.mpr ⟨own, hown, ?_⟩
      cases embedded with
      | none => exact hrest
      | some base =>
          obtain ⟨k', hbase, hembed⟩ := Option.bind_eq_some_iff.mp hrest
          exact Option.bind_eq_some_iff.mpr ⟨k', h _ k' hbase, hembed⟩

theorem kindOf_stable (t : GoType) : Stable fun n => kindOf letter decls n t := by
  intro n
  induction n generalizing t with
  | zero => exact fun k hk => by cases hk
  | succ n ih =>
      intro k hk
      cases t with
      | pointer t => exact hk
      | slice t => exact hk
      | map t => exact hk
      | ident name =>
          dsimp only at hk ⊢
          rw [kindOf] at hk ⊢
          split
          · next k' hpre =>
              rw [hpre] at hk
              exact hk
          · next hpre =>
              rw [hpre] at hk
              obtain ⟨d, hd, hkind⟩ := Option.bind_eq_some_iff.mp hk
              exact Option.bind_eq_some_iff.mpr ⟨d, hd, declKind_mono letter ih hkind⟩

/-- The type is of this kind. -/
def HasKind (t : GoType) (k : Kind) : Prop := Returns (fun n => kindOf letter decls n t) k

theorem HasKind.unique {t : GoType} {k k' : Kind} (h : HasKind letter decls t k)
    (h' : HasKind letter decls t k') : k = k' :=
  Returns.unique (kindOf_stable letter decls t) h h'

end SpecForge.Go
