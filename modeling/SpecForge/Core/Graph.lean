import Mathlib.Data.List.Destutter
import Mathlib.Data.Prod.Lex
import Mathlib.Data.String.Basic
import SpecForge.Core.References
import SpecForge.Lib.Text

/-!
# The graph of the schemas (`graph.rs`)

- §1 lists that are sorted and have adjacent duplicates removed.
- §2 the graph; §3 its edges.
- §4 the Mermaid text; §5 when it keeps the schemas apart, which the DOT text always does.
-/

namespace SpecForge.SchemaGraph

open Lib

/-! ## §1  Sorted lists without duplicates -/

section SortDedup

universe u v

variable {α : Type u} {K : Type v} [LinearOrder K] {key : α → K}

theorem pairwise_mergeSort (l : List α) :
    (l.mergeSort fun a b => decide (key a ≤ key b)).Pairwise fun a b => key a ≤ key b := by
  have hsorted : (l.mergeSort fun a b => decide (key a ≤ key b)).Pairwise fun a b =>
      decide (key a ≤ key b) = true :=
    List.pairwise_mergeSort (fun a b c => by simpa using le_trans)
      (fun a b => by simpa using le_total (key a) (key b)) l
  exact hsorted.imp of_decide_eq_true

variable [DecidableEq α]

/-- `sort_by` the key, then `dedup_by` equality, which removes adjacent duplicates. -/
def sortDedup (key : α → K) (l : List α) : List α :=
  (l.mergeSort fun a b => decide (key a ≤ key b)).destutter (· ≠ ·)

/-- Where the key tells elements apart, no duplicate is far from the first. -/
theorem sortDedup_eq_dedup (hkey : Function.Injective key) (l : List α) :
    sortDedup key l = (l.mergeSort fun a b => decide (key a ≤ key b)).dedup := by
  have : Std.Antisymm fun a b : α => key a ≤ key b :=
    ⟨fun a b hab hba => hkey (le_antisymm hab hba)⟩
  exact (pairwise_mergeSort l).destutter_eq_dedup

theorem mem_sortDedup (hkey : Function.Injective key) {l : List α} {a : α} :
    a ∈ sortDedup key l ↔ a ∈ l := by
  rw [sortDedup_eq_dedup hkey, List.mem_dedup, List.mem_mergeSort]

theorem pairwise_sortDedup (hkey : Function.Injective key) (l : List α) :
    (sortDedup key l).Pairwise fun a b => key a < key b := by
  have hle : (sortDedup key l).Pairwise fun a b => key a ≤ key b :=
    (pairwise_mergeSort l).sublist (List.destutter_sublist _ _)
  have hne : (sortDedup key l).Pairwise (· ≠ ·) := by
    rw [sortDedup_eq_dedup hkey]
    exact List.nodup_dedup _
  exact (hle.and hne).imp fun h => lt_of_le_of_ne h.1 (hkey.ne h.2)

end SortDedup

/-! ## §2  The graph -/

inductive NodeShape where
  | default
  | diamond
deriving DecidableEq

structure Node where
  id : String
  label : String
  shape : NodeShape

/-- An edge from one name to another. -/
structure Edge where
  source : String
  target : String
  label : Option String
deriving DecidableEq

structure Graph where
  nodes : List Node
  edges : List Edge

/-- `collect_references`. -/
def collectReferences : IrType → List String := IrType.refs

def objectEdges (name : String) (obj : ObjectModel) : List Edge :=
  let edges label ty := (collectReferences ty).map fun d => Edge.mk name d label
  (obj.shapeType.toList.flatMap (edges none)) ++
  (obj.baseType.toList.flatMap (edges (some "extends"))) ++
  (obj.properties.flatMap fun prop => edges none prop.ty) ++
  (obj.additionalProperties.toList.flatMap (edges (some "values")))

def objectNode (name : String) (obj : ObjectModel) : Node where
  id := name
  label := match obj.description with
    | none => name
    | some d => name ++ "\n" ++ d
  shape := if obj.shapeType.isSome && obj.properties.isEmpty then .diamond else .default

def modelNode : String × Model → Node
  | (name, .object obj) => objectNode name obj
  | (_, .enum e) => ⟨e.name, e.name ++ " (enum)", .default⟩

def modelEdges : String × Model → List Edge
  | (name, .object obj) => objectEdges name obj
  | (_, .enum _) => []

/-- By source, then target, then label; no label comes first. -/
def Edge.key (e : Edge) : String ×ₗ String ×ₗ WithBot String :=
  toLex (e.source, toLex (e.target, match e.label with
    | none => ⊥
    | some label => label))

def buildGraph (doc : Document) : Graph where
  nodes := doc.schemas.models.entries.map modelNode
  edges := sortDedup Edge.key (doc.schemas.models.entries.flatMap modelEdges)

/-! ## §3  Edges -/

theorem Edge.key_injective : Function.Injective Edge.key := by
  rintro ⟨s, t, l⟩ ⟨s', t', l'⟩ h
  obtain ⟨hs, h⟩ := Prod.mk.inj (toLex.injective h)
  obtain ⟨ht, hl⟩ := Prod.mk.inj (toLex.injective h)
  obtain rfl := hs
  obtain rfl := ht
  rcases l with _ | l <;> rcases l' with _ | l'
  · rfl
  · exact absurd hl WithBot.bot_ne_coe
  · exact absurd hl WithBot.coe_ne_bot
  · rw [WithBot.coe_inj.mp hl]

/-- The type is a reference to `name`, or has one at some depth. -/
inductive Mentions (name : String) : IrType → Prop where
  | reference {nullable description} : Mentions name (.reference name nullable description)
  | item {item nullable} : Mentions name item → Mentions name (.array item nullable)
  | value {value} : Mentions name value → Mentions name (.map value)
  | member {kind members discriminator m} : m ∈ members → Mentions name m →
      Mentions name (.composition kind members discriminator)

theorem mem_refsOfMembers_iff {name : String} : ∀ {members : List IrType},
    name ∈ refsOfMembers members ↔ ∃ m ∈ members, name ∈ m.refs
  | [] => by simp [refsOfMembers]
  | m :: members => by
      rw [refsOfMembers, List.mem_append, mem_refsOfMembers_iff]
      simp

theorem mem_collectReferences {name : String} {ty : IrType} :
    name ∈ collectReferences ty ↔ Mentions name ty := by
  unfold collectReferences
  constructor
  · induction ty using IrType.induction with
    | scalar s => exact fun h => by cases h
    | stringEnum variants nullable => exact fun h => by cases h
    | array item nullable ih => exact fun h => .item (ih h)
    | map value ih => exact fun h => .value (ih h)
    | reference other nullable description =>
        intro h
        obtain rfl := List.mem_singleton.mp h
        exact .reference
    | composition kind members discriminator ih =>
        intro h
        obtain ⟨m, hm, hname⟩ := mem_refsOfMembers_iff.mp h
        exact .member hm (ih m hm hname)
    | any => exact fun h => by cases h
    | unknown => exact fun h => by cases h
  · intro h
    induction h with
    | reference => exact List.mem_singleton_self name
    | item _ ih => exact ih
    | value _ ih => exact ih
    | member hm _ ih => exact mem_refsOfMembers_iff.mpr ⟨_, hm, ih⟩

/-- Where an object mentions `name`: an edge without a label stands for the shape and the
properties, and the labels for the base and the other entries. -/
def MentionsAt (obj : ObjectModel) (name : String) : Option String → Prop
  | none => (∃ ty, obj.shapeType = some ty ∧ Mentions name ty) ∨
      ∃ prop ∈ obj.properties, Mentions name prop.ty
  | some label => (label = "extends" ∧ ∃ base, obj.baseType = some base ∧ Mentions name base) ∨
      (label = "values" ∧ ∃ ap, obj.additionalProperties = some ap ∧ Mentions name ap)

theorem mem_objectEdges {obj : ObjectModel} {name : String} {e : Edge} :
    e ∈ objectEdges name obj ↔ e.source = name ∧ MentionsAt obj e.target e.label := by
  obtain ⟨source, target, label⟩ := e
  have hedges : ∀ ty label', ⟨source, target, label⟩ ∈
      (collectReferences ty).map (fun d => Edge.mk name d label') ↔
        source = name ∧ Mentions target ty ∧ label = label' := by
    intro ty label'
    simp only [List.mem_map, mem_collectReferences, Edge.mk.injEq]
    constructor
    · rintro ⟨d, hd, rfl, rfl, rfl⟩
      exact ⟨rfl, hd, rfl⟩
    · rintro ⟨rfl, hd, rfl⟩
      exact ⟨target, hd, rfl, rfl, rfl⟩
  simp only [objectEdges, List.mem_append, List.mem_flatMap, hedges, Option.mem_toList]
  rcases label with _ | label <;> simp only [MentionsAt] <;> grind

theorem mem_edges_buildGraph {doc : Document} {e : Edge} : e ∈ (buildGraph doc).edges ↔
    ∃ obj, doc.schemas.get e.source = some (.object obj) ∧ MentionsAt obj e.target e.label := by
  rw [buildGraph, mem_sortDedup Edge.key_injective, List.mem_flatMap]
  constructor
  · rintro ⟨⟨name, _ | _⟩, hentry, he⟩
    · obtain ⟨rfl, hmention⟩ := mem_objectEdges.mp he
      exact ⟨_, IndexMap.mem_entries_iff.mp hentry, hmention⟩
    · cases he
  · rintro ⟨obj, hget, hmention⟩
    exact ⟨(e.source, .object obj), IndexMap.mem_entries_iff.mpr hget,
      mem_objectEdges.mpr ⟨rfl, hmention⟩⟩

/-- **The edges of the graph are in strict order, and there is one for every mention of a name in
an object**, whichever the depth. -/
theorem buildGraph_edges (doc : Document) :
    ((buildGraph doc).edges.Pairwise fun e e' => e.key < e'.key) ∧
    ∀ n m label, ⟨n, m, label⟩ ∈ (buildGraph doc).edges ↔
      ∃ obj, doc.schemas.get n = some (.object obj) ∧ MentionsAt obj m label :=
  ⟨pairwise_sortDedup Edge.key_injective _, fun _ _ _ => mem_edges_buildGraph⟩

/-! ## §4  Mermaid -/

def midChar (c : Char) : Char := if c.isAlphanum || c == '_' then c else '_'

/-- `mid`: the identifier of a node. -/
def mid (name : String) : String := "N_" ++ String.ofList (name.toList.map midChar)

def mlbl (l : String) : String := Text.replaceChar '"' "#quot;" (Text.replaceChar '\\' "\\\\" l)

def mermaidNode (n : Node) : String :=
  match n.shape with
  | .default => "    " ++ mid n.id ++ "[\"" ++ mlbl n.label ++ "\"]\n"
  | .diamond => "    " ++ mid n.id ++ "\x7b\"" ++ mlbl n.label ++ "\"\x7d\n"

def mermaidEdge (e : Edge) : String :=
  match e.label with
  | some l => "    " ++ mid e.source ++ " -->|" ++ l ++ "| " ++ mid e.target ++ "\n"
  | none => "    " ++ mid e.source ++ " --> " ++ mid e.target ++ "\n"

def renderMermaid (g : Graph) : String :=
  "graph TD\n" ++ Text.join "" (g.nodes.map mermaidNode) ++ Text.join "" (g.edges.map mermaidEdge)

/-- Two characters that are no letters or digits are alike. -/
def AlikeChars (c d : Char) : Prop := c = d ∨ c.isAlphanum = false ∧ d.isAlphanum = false

/-- The names agree but for characters that are no letters or digits. -/
def Alike (a b : String) : Prop := List.Forall₂ AlikeChars a.toList b.toList

theorem midChar_eq_iff {c d : Char} : midChar c = midChar d ↔ AlikeChars c d := by
  have hkeep : ∀ {c : Char}, c.isAlphanum = true → midChar c = c := by
    intro c hc
    rw [midChar, hc, Bool.true_or, if_pos rfl]
  have hdrop : ∀ {c : Char}, c.isAlphanum = false → midChar c = '_' := by
    intro c hc
    rw [midChar, hc, Bool.false_or]
    split
    · next h => exact beq_iff_eq.mp h
    · rfl
  have hother : ∀ {c : Char}, c.isAlphanum = true → c ≠ '_' := by
    rintro c hc rfl
    exact absurd hc (by decide)
  unfold AlikeChars
  cases hc : c.isAlphanum <;> cases hd : d.isAlphanum
  · simp [hdrop hc, hdrop hd]
  · rw [hdrop hc, hkeep hd]
    refine iff_of_false (hother hd).symm ?_
    rintro (rfl | ⟨-, h⟩)
    · exact absurd (hc.symm.trans hd) Bool.false_ne_true
    · exact Bool.noConfusion h
  · rw [hkeep hc, hdrop hd]
    refine iff_of_false (hother hc) ?_
    rintro (rfl | ⟨h, -⟩)
    · exact absurd (hd.symm.trans hc) Bool.false_ne_true
    · exact Bool.noConfusion h
  · simp [hkeep hc, hkeep hd]

theorem mid_eq_iff {a b : String} : mid a = mid b ↔ Alike a b := by
  have hlist : mid a = mid b ↔ a.toList.map midChar = b.toList.map midChar := by
    constructor
    · exact fun h => String.ofList_inj.mp (Text.append_inj_left h)
    · exact fun h => by rw [mid, mid, h]
  rw [hlist, ← List.forall₂_eq_eq_eq, List.forall₂_map_left_iff, List.forall₂_map_right_iff]
  simp only [midChar_eq_iff]
  rfl

theorem isAlphanum_midChar (c : Char) : ((midChar c).isAlphanum || midChar c == '_') = true := by
  unfold midChar
  split
  · next h => exact h
  · decide

theorem notMem_mid {c : Char} (hc : (c.isAlphanum || c == '_') = false) (name : String) :
    c ∉ (mid name).toList := by
  have hall : ∀ d ∈ (mid name).toList, (d.isAlphanum || d == '_') = true := by
    intro d hd
    rw [mid, String.toList_append, List.mem_append] at hd
    rcases hd with hd | hd
    · have hpre : ("N_".toList.all fun d => d.isAlphanum || d == '_') = true := rfl
      exact List.all_eq_true.mp hpre d hd
    · rw [String.toList_ofList] at hd
      obtain ⟨c, -, rfl⟩ := List.mem_map.mp hd
      exact isAlphanum_midChar c
  exact fun h => Bool.noConfusion (hc.symm.trans (hall c h))

/-! ## §5  Schemas in the Mermaid text -/

/-- Schemas have different identifiers, and edges between schemas different lines. -/
structure KeepsApart (doc : Document) : Prop where
  ids : ∀ a ∈ doc.schemas.names, ∀ b ∈ doc.schemas.names, a ≠ b → mid a ≠ mid b
  edges : ∀ e ∈ (buildGraph doc).edges, ∀ e' ∈ (buildGraph doc).edges,
    e.target ∈ doc.schemas.names → e'.target ∈ doc.schemas.names → e ≠ e' →
      mermaidEdge e ≠ mermaidEdge e'

theorem label_of_mentionsAt {obj : ObjectModel} {name label : String}
    (h : MentionsAt obj name (some label)) : label = "extends" ∨ label = "values" := by
  rcases h with ⟨hlabel, -⟩ | ⟨hlabel, -⟩
  · exact Or.inl hlabel
  · exact Or.inr hlabel

/-- The part of a line behind the first node. -/
def arrow (e : Edge) : String :=
  match e.label with
  | some l => "-->|" ++ (l ++ String.ofList ['|'] ++ (" " ++ (mid e.target ++ "\n")))
  | none => "--> " ++ (mid e.target ++ "\n")

theorem mermaidEdge_eq (e : Edge) :
    mermaidEdge e = "    " ++ (mid e.source ++ String.ofList [' '] ++ arrow e) := by
  have hnone : " --> " = String.ofList [' '] ++ "--> " := rfl
  have hsome : " -->|" = String.ofList [' '] ++ "-->|" := rfl
  have hbar : "| " = String.ofList ['|'] ++ " " := rfl
  unfold mermaidEdge arrow
  rcases e.label with _ | l
  · dsimp only
    rw [hnone]
    simp only [String.append_assoc]
  · dsimp only
    rw [hsome, hbar]
    simp only [String.append_assoc]

theorem beforeChar_inj {c : Char} {a a' r r' : String} (ha : c ∉ a.toList) (ha' : c ∉ a'.toList)
    (h : a ++ String.ofList [c] ++ r = a' ++ String.ofList [c] ++ r') : a = a' ∧ r = r' := by
  have hbefore := congrArg (Text.beforeChar c) h
  rw [Text.beforeChar_append, Text.beforeChar_append, Text.beforeChar_eq_self ha,
    Text.beforeChar_eq_self ha'] at hbefore
  obtain rfl := hbefore
  exact ⟨rfl, Text.append_inj_left h⟩

/-- A line tells the nodes and the label. -/
theorem mermaidEdge_inj {e e' : Edge} (hlabel : ∀ l ∈ e.label, '|' ∉ l.toList)
    (hlabel' : ∀ l ∈ e'.label, '|' ∉ l.toList) (h : mermaidEdge e = mermaidEdge e') :
    mid e.source = mid e'.source ∧ mid e.target = mid e'.target ∧ e.label = e'.label := by
  rw [mermaidEdge_eq, mermaidEdge_eq] at h
  obtain ⟨hsource, harrow⟩ := beforeChar_inj (notMem_mid rfl _) (notMem_mid rfl _)
    (Text.append_inj_left h)
  refine ⟨hsource, ?_⟩
  unfold arrow at harrow
  rcases hl : e.label with _ | l <;> rcases hl' : e'.label with _ | l' <;>
    rw [hl, hl'] at harrow
  · exact ⟨Text.append_inj_right (Text.append_inj_left harrow), rfl⟩
  · exact absurd harrow (Text.Apart.append_ne (by decide) _ _)
  · exact absurd harrow (Text.Apart.append_ne (by decide) _ _)
  · obtain ⟨rfl, hrest⟩ := beforeChar_inj (hlabel l hl) (hlabel' l' hl')
      (Text.append_inj_left harrow)
    exact ⟨Text.append_inj_right (Text.append_inj_left hrest), rfl⟩

theorem label_of_mem_edges {doc : Document} {e : Edge} (he : e ∈ (buildGraph doc).edges) :
    ∀ l ∈ e.label, '|' ∉ l.toList := by
  obtain ⟨obj, -, hmention⟩ := mem_edges_buildGraph.mp he
  intro l hl
  rw [hl] at hmention
  rcases label_of_mentionsAt hmention with rfl | rfl <;> decide

theorem source_mem_names {doc : Document} {e : Edge} (he : e ∈ (buildGraph doc).edges) :
    e.source ∈ doc.schemas.names := by
  obtain ⟨obj, hget, -⟩ := mem_edges_buildGraph.mp he
  exact IndexMap.mem_keys_of_get hget

/-- **Mermaid keeps the schemas of a document apart if and only if no two of their names agree but
for characters that are no letters or digits.** -/
theorem keepsApart_iff (doc : Document) : KeepsApart doc ↔
    ∀ a ∈ doc.schemas.names, ∀ b ∈ doc.schemas.names, a ≠ b → ¬ Alike a b := by
  constructor
  · intro h a ha b hb hne halike
    exact h.ids a ha b hb hne (mid_eq_iff.mpr halike)
  · intro h
    have hids : ∀ a ∈ doc.schemas.names, ∀ b ∈ doc.schemas.names, mid a = mid b → a = b := by
      intro a ha b hb hmid
      by_contra hne
      exact h a ha b hb hne (mid_eq_iff.mp hmid)
    refine ⟨fun a ha b hb hne hmid => hne (hids a ha b hb hmid), ?_⟩
    rintro ⟨s, t, l⟩ he ⟨s', t', l'⟩ he' ht ht' hne hline
    obtain ⟨hs, htarget, rfl⟩ :=
      mermaidEdge_inj (label_of_mem_edges he) (label_of_mem_edges he') hline
    obtain rfl := hids _ (source_mem_names he) _ (source_mem_names he') hs
    obtain rfl := hids _ ht _ ht' htarget
    exact hne rfl

/-- Two schemas whose names differ in a character that Mermaid does not take. -/
def dashAndDot : Document :=
  Document.minimal ⟨IndexMap.ofList [
    ("a-b", .enum ⟨"a-b", none, []⟩), ("a.b", .enum ⟨"a.b", none, []⟩)]⟩ []

/-- `a-b` and `a.b` are one node. -/
theorem dashAndDot_merged : ¬ ∀ doc : Document, (∀ name ∈ doc.schemas.names,
    name.toList.all (fun c => c.isAlphanum || c ∈ ['.', '-', '_']) = true) → KeepsApart doc := by
  intro h
  have hnames : dashAndDot.schemas.names = ["a-b", "a.b"] := rfl
  have hapart := h dashAndDot (by rw [hnames]; decide)
  refine hapart.ids "a-b" ?_ "a.b" ?_ (by decide) (by decide) <;> rw [hnames] <;> decide

/-- `did`: the name of a node in the DOT text. -/
def did (name : String) : String := "\"" ++ Text.replaceChar '"' "\\\"" name ++ "\""

def escapeQuote (l : List Char) : List Char :=
  l.flatMap fun x => if x = '"' then "\\\"".toList else [x]

theorem escapeQuote_quote (l : List Char) :
    escapeQuote ('"' :: l) = '\\' :: '"' :: escapeQuote l := rfl

theorem escapeQuote_cons {x : Char} (hx : x ≠ '"') (l : List Char) :
    escapeQuote (x :: l) = x :: escapeQuote l := by
  rw [escapeQuote, List.flatMap_cons, if_neg hx]
  rfl

theorem head?_escapeQuote : ∀ l : List Char, (escapeQuote l).head? ≠ some '"'
  | [] => nofun
  | x :: l => by
      by_cases hx : x = '"'
      · rw [hx, escapeQuote_quote]
        exact fun h => absurd (Option.some.inj h) (by decide)
      · rw [escapeQuote_cons hx]
        exact fun h => hx (Option.some.inj h)

/-- An escaped quote is not a backslash that a quote follows. -/
theorem escapeQuote_quote_ne {x : Char} (hx : x ≠ '"') (l l' : List Char) :
    escapeQuote ('"' :: l) ≠ escapeQuote (x :: l') := by
  rw [escapeQuote_quote, escapeQuote_cons hx]
  intro h
  apply head?_escapeQuote l'
  rw [← (List.cons.inj h).2]
  rfl

theorem escapeQuote_injective : ∀ {l l' : List Char}, escapeQuote l = escapeQuote l' → l = l'
  | [], [], _ => rfl
  | [], y :: l', h => by by_cases hy : y = '"' <;> simp [escapeQuote, hy] at h
  | x :: l, [], h => by by_cases hx : x = '"' <;> simp [escapeQuote, hx] at h
  | x :: l, y :: l', h => by
      by_cases hx : x = '"' <;> by_cases hy : y = '"'
      · subst hx hy
        rw [escapeQuote_quote, escapeQuote_quote] at h
        rw [escapeQuote_injective (List.cons.inj (List.cons.inj h).2).2]
      · subst hx
        exact absurd h (escapeQuote_quote_ne hy l l')
      · subst hy
        exact absurd h.symm (escapeQuote_quote_ne hx l' l)
      · rw [escapeQuote_cons hx, escapeQuote_cons hy] at h
        obtain ⟨rfl, htail⟩ := List.cons.inj h
        rw [escapeQuote_injective htail]

/-- DOT keeps all names apart. -/
theorem did_injective : Function.Injective did := by
  intro a b h
  have hchars := Text.append_inj_left (Text.append_inj_right h)
  exact String.toList_inj.mp (escapeQuote_injective (String.ofList_inj.mp hchars))

end SpecForge.SchemaGraph
