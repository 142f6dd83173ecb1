import SpecForge.Core.KeyOrder
import SpecForge.Core.OperationIds
import SpecForge.Core.PrintedJson

/-!
# The IR printed at once and in lines

`emit` prints a resolved document as JSON, or, with `--stream`, in lines: a header, then the
schemas, then the operations (§1). Nothing printed has a number in it (§2), so that the lines tell
what they were made of. They say nothing of the security schemes, and they are made of sorted
values: two documents with the same lines are printed alike where they agree in these (§3). What
is printed at once says the document and no other (§4).
-/

namespace SpecForge.Cli

open Lib (IndexMap)
open Json
open OpenApi (OpenAPI)

/-! ## §1  What is printed -/

/-- `json!` with an object -/
def jsonObject (entries : List (String × Value)) : Value := toValue (.object entries)

def headerLine (doc : Document) : Value := jsonObject [
  ("_type", .string "header"),
  ("title", .string doc.title),
  ("version", .string doc.version),
  ("base_url", serializeOption .string doc.baseUrl)]

def schemaLine (name : String) (model : Model) : Value := jsonObject [
  ("_type", .string "schema"),
  ("name", .string name),
  ("model", model.serialize)]

def operationLine (op : Operation) : Value := jsonObject [
  ("_type", .string "operation"),
  ("operation_id", .string op.operationId),
  ("method", op.method.serialize),
  ("path", .string op.path),
  ("tag", serializeOption .string op.tag),
  ("summary", serializeOption .string op.summary),
  ("description", serializeOption .string op.description),
  ("parameters", .array (op.parameters.map Parameter.serialize)),
  ("request_body", serializeOption RequestBody.serialize op.requestBody),
  ("responses", .array (op.responses.map Response.serialize))]

def streamLines (doc : Document) : List Value :=
  headerLine doc :: (doc.schemas.models.entries.map (fun e => schemaLine e.1 e.2) ++
    doc.operations.map operationLine)

/-- What `run_emit` prints of the document it has resolved, one `println!` after the other. -/
def runEmit (W : Writer) (stream : Bool) (doc : Document) : List (List Char) :=
  if stream then (streamLines doc).map W.toText
  else [W.toTextPretty doc.serialize]

/-! ## §2  No numbers -/

section Numberless

@[simp] theorem numberless_string (s : String) : Numberless (.string s) := .string s

@[simp] theorem numberless_bool (b : Bool) : Numberless (.bool b) := .bool b

@[simp] theorem numberless_object_iff {entries : List (String × Value)} :
    Numberless (.object entries) ↔ ∀ e ∈ entries, Numberless e.2 := by
  constructor
  · intro h
    cases h with
    | object h => exact h
  · exact .object

@[simp] theorem numberless_array_iff {items : List Value} :
    Numberless (.array items) ↔ ∀ v ∈ items, Numberless v := by
  constructor
  · intro h
    cases h with
    | array h => exact h
  · exact .array

theorem numberless_option {α : Type} {f : α → Value} {o : Option α}
    (h : ∀ a, o = some a → Numberless (f a)) : Numberless (serializeOption f o) := by
  cases o with
  | none => exact .null
  | some a => exact h a rfl

@[simp] theorem numberless_text (o : Option String) : Numberless (serializeOption .string o) :=
  numberless_option fun s _ => .string s

@[simp] theorem numberless_scalar (s : Scalar) : Numberless s.serialize := by
  cases s <;> exact .string _

@[simp] theorem numberless_kind (k : CompositionKind) : Numberless k.serialize := by
  cases k <;> exact .string _

@[simp] theorem numberless_discriminator (d : Discriminator) : Numberless d.serialize := by
  have hmapping : Numberless (serializeOption (fun m : IndexMap String String =>
      .object (m.entries.map fun e => (e.1, .string e.2))) d.mapping) := by
    apply numberless_option
    intro m _
    rw [numberless_object_iff, List.forall_mem_map]
    exact fun e _ => .string e.2
  simpa [Discriminator.serialize] using hmapping

mutual

@[simp] theorem numberless_irType : ∀ t : IrType, Numberless t.serialize
  | .scalar s => by simp [IrType.serialize, serializeVariant]
  | .stringEnum vs b => by simp [IrType.serialize, serializeVariant]
  | .array item b => by
      have hitem := numberless_irType item
      simp [IrType.serialize, serializeVariant, hitem]
  | .map value => by
      have hvalue := numberless_irType value
      simp [IrType.serialize, serializeVariant, hvalue]
  | .reference n b d => by simp [IrType.serialize, serializeVariant]
  | .composition k ms d => by
      have hms := numberless_members ms
      have hd := numberless_option (o := d) fun d _ => numberless_discriminator d
      simpa [IrType.serialize, serializeVariant, hd] using hms
  | .any => by simp [IrType.serialize]
  | .unknown => by simp [IrType.serialize]

theorem numberless_members : ∀ ms : List IrType, ∀ v ∈ serializeMembers ms, Numberless v
  | [], v, hv => by cases hv
  | m :: ms, v, hv => by
      rcases List.mem_cons.mp hv with rfl | hv
      · exact numberless_irType m
      · exact numberless_members ms v hv

end

@[simp] theorem numberless_type (t : Option IrType) :
    Numberless (serializeOption IrType.serialize t) :=
  numberless_option fun t _ => numberless_irType t

@[simp] theorem numberless_model (m : Model) : Numberless m.serialize := by
  cases m with
  | object o =>
      simp [Model.serialize, serializeVariant, ObjectModel.serialize, Property.serialize]
  | enum e => simp [Model.serialize, serializeVariant, EnumModel.serialize, EnumVariant.serialize]

@[simp] theorem numberless_response (r : Response) : Numberless r.serialize := by
  simp [Response.serialize]

@[simp] theorem numberless_parameter (p : Parameter) : Numberless p.serialize := by
  have hlocation : Numberless p.location.serialize := by cases p.location <;> exact .string _
  simp [Parameter.serialize, hlocation]

@[simp] theorem numberless_requestBody (b : Option RequestBody) :
    Numberless (serializeOption RequestBody.serialize b) :=
  numberless_option fun b _ => by simp [RequestBody.serialize]

@[simp] theorem numberless_method (m : HttpMethod) : Numberless m.serialize := by
  cases m <;> exact .string _

theorem numberless_streamLines (doc : Document) : ∀ v ∈ streamLines doc, Numberless v := by
  have hobject : ∀ entries, Numberless (.object entries) → Numberless (jsonObject entries) :=
    fun _ h => h.toValue
  intro v hv
  rcases List.mem_cons.mp hv with rfl | hv
  · exact hobject _ (by simp)
  · rcases List.mem_append.mp hv with hv | hv
    · obtain ⟨e, -, rfl⟩ := List.mem_map.mp hv
      exact hobject _ (by simp)
    · obtain ⟨op, -, rfl⟩ := List.mem_map.mp hv
      exact hobject _ (by simp)

/-- Only retry policies have numbers. -/
theorem numberless_document {doc : Document} (hwebhooks : doc.webhooks = [])
    (hretry : ∀ op ∈ doc.operations, op.retryPolicy = none) : Numberless doc.serialize := by
  have hsecurity : ∀ s : SecurityScheme, Numberless s.serialize := by
    intro s
    cases s <;> simp [SecurityScheme.serialize, serializeVariant]
  have hschemas : Numberless doc.schemas.serialize := by
    have hmodels : Numberless
        (.object (doc.schemas.models.entries.map fun e => (e.1, e.2.serialize))) := by
      rw [numberless_object_iff, List.forall_mem_map]
      exact fun e _ => numberless_model e.2
    simpa [SchemaRegistry.serialize] using hmodels
  have hoperations : ∀ op ∈ doc.operations, Numberless op.serialize := by
    intro op hop
    have hnull : Numberless (serializeOption RetryPolicy.serialize none) := .null
    simp [Operation.serialize, hretry op hop, hnull]
  simpa [Document.serialize, hwebhooks, hsecurity, hschemas] using hoperations

end Numberless

/-! ## §3  What the lines tell -/

/-- What is printed of a resolved document beside what can change. -/
theorem resolve_written {spec : OpenAPI} {d : Document} (h : resolve spec = .ok d) :
    d.irVersion = IR_VERSION ∧ d.webhooks = [] ∧ ∀ op ∈ d.operations, op.retryPolicy = none := by
  have hversion := (resolve_ok h).2
  have hoperations := resolve_operations h
  refine ⟨hversion, ?_, fun op hop => ?_⟩
  · unfold resolve resolveWithWebhooks at h
    cases hs : resolveSchemas spec.components with
    | error e =>
        rw [hs] at h
        cases h
    | ok reg =>
        rw [hs] at h
        cases h
        rfl
  · rw [hoperations] at hop
    obtain ⟨⟨path, itemOr⟩, -, hop⟩ := List.mem_flatMap.mp hop
    cases itemOr with
    | reference r => cases hop
    | item item =>
        obtain ⟨⟨method, o⟩, -, rfl⟩ := List.mem_map.mp hop
        rfl

theorem zip_of_map_eq {α β : Type} {f : α → β} : ∀ {l l' : List α}, l.map f = l'.map f →
    ∀ p ∈ l.zip l', f p.1 = f p.2
  | [], l', _, p, hp => by cases hp
  | a :: l, [], heq, p, hp => by cases hp
  | a :: l, b :: l', heq, p, hp => by
      rw [List.map_cons, List.map_cons, List.cons.injEq] at heq
      rcases List.mem_cons.mp hp with rfl | hp
      · exact heq.1
      · exact zip_of_map_eq heq.2 p hp

/-- The kind of a line. -/
def lineType (v : Value) : Option String := (v.get "_type").bind Value.asStr

theorem lineType_jsonObject {entries : List (String × Value)} {s : String}
    (hnd : (entries.map Prod.fst).Nodup) (h : entries.lookup "_type" = some (.string s)) :
    lineType (jsonObject entries) = some s := by
  rw [lineType, jsonObject, get_toValue hnd, h]
  rfl

theorem lineType_schemaLine (name : String) (model : Model) :
    lineType (schemaLine name model) = some "schema" :=
  lineType_jsonObject (by simp) rfl

theorem lineType_operationLine (op : Operation) :
    lineType (operationLine op) = some "operation" :=
  lineType_jsonObject (by simp) rfl

/-- The lines of the schemas can be told from those of the operations. -/
theorem lines_of_streamLines {d d' : Document} (h : streamLines d = streamLines d') :
    headerLine d = headerLine d' ∧
      d.schemas.models.entries.map (fun e => schemaLine e.1 e.2) =
        d'.schemas.models.entries.map (fun e => schemaLine e.1 e.2) ∧
      d.operations.map operationLine = d'.operations.map operationLine := by
  rw [streamLines, streamLines, List.cons.injEq] at h
  have hschemas : ∀ d : Document, (d.schemas.models.entries.map (fun e => schemaLine e.1 e.2) ++
      d.operations.map operationLine).filter (fun v => lineType v == some "schema") =
        d.schemas.models.entries.map fun e => schemaLine e.1 e.2 := by
    intro d
    simp [List.filter_append, List.filter_map, Function.comp_def, lineType_schemaLine,
      lineType_operationLine]
  have hentries := congrArg (List.filter fun v => lineType v == some "schema") h.2
  rw [hschemas, hschemas] at hentries
  refine ⟨h.1, hentries, ?_⟩
  have hrest := h.2
  rw [hentries] at hrest
  exact List.append_cancel_left hrest

theorem registry_mappings (r : SchemaRegistry) :
    r.mappings = r.models.entries.flatMap fun e => e.2.mappings := by
  rw [SchemaRegistry.mappings, IndexMap.values, List.flatMap_map]

theorem registry_ext {r r' : SchemaRegistry} (h : r.models.entries = r'.models.entries) :
    r = r' := by
  obtain ⟨m⟩ := r
  obtain ⟨m'⟩ := r'
  have hm : m = m' := IndexMap.ext h
  rw [hm]

theorem schemaLine_upTo {e e' : String × Model} (h : schemaLine e.1 e.2 = schemaLine e'.1 e'.2) :
    UpTo View.sorted.Same e.2.mappings e'.2.mappings (e = e') := by
  have hname := View.field (V := .sorted) h (by simp) (by simp) "name" rfl rfl
  have hmodel := View.field (V := .sorted) h (by simp) (by simp) "model" rfl rfl
  refine (Model.upTo hmodel).imp fun hm => ?_
  rw [View.string, View.string, Value.string.injEq] at hname
  exact Prod.ext hname hm

theorem operationLine_upTo {op op' : Operation} (hretry : op.retryPolicy = op'.retryPolicy)
    (h : operationLine op = operationLine op') :
    UpTo View.sorted.Same op.mappings op'.mappings (op = op') := by
  have hbehind : ∀ (op : Operation) (k : String) (v : Value), op.fields.lookup k = some v →
      (("_type", Value.string "operation") :: op.fields).lookup k = some v := by
    intro op k v hv
    by_cases hk : k = "_type"
    · subst hk
      cases hv
    · rw [Lib.lookup_cons_ne hk, hv]
  apply Operation.upTo hretry
  intro k v v' hv hv'
  exact View.field (V := .sorted) h (by simp) (by simp) k (hbehind op k v hv) (hbehind op' k v' hv')

/-- The lines of two resolved documents make their schemas and operations the same, up to the
order of the keys in mappings. -/
theorem upTo_of_streamLines {spec spec' : OpenAPI} {d d' : Document} (h : resolve spec = .ok d)
    (h' : resolve spec' = .ok d') (hlines : streamLines d = streamLines d') :
    UpTo View.sorted.Same d.mappings d'.mappings
      (d.schemas = d'.schemas ∧ d.operations = d'.operations) := by
  obtain ⟨-, hwebhooks, hretry⟩ := resolve_written h
  obtain ⟨-, hwebhooks', hretry'⟩ := resolve_written h'
  obtain ⟨-, hschemas, hoperations⟩ := lines_of_streamLines hlines
  have hentries := UpTo.map (fun e _ e' _ => schemaLine_upTo) hschemas
  have hops := UpTo.map (fun op hop op' hop' =>
    operationLine_upTo ((hretry op hop).trans (hretry' op' hop').symm)) hoperations
  rw [Document.mappings, Document.mappings, registry_mappings, registry_mappings, hwebhooks,
    hwebhooks', List.flatMap_nil, List.append_nil, List.append_nil]
  exact (hentries.append hops).imp fun hall => ⟨registry_ext hall.1, hall.2⟩

theorem serialized_upTo {op op' : Operation} (hretry : op.retryPolicy = op'.retryPolicy)
    (heq : op.serialize = op'.serialize) :
    UpTo View.written.Same op.mappings op'.mappings (op = op') := by
  have hfront : ∀ (op : Operation) (k : String) (v : Value), op.fields.lookup k = some v →
      (op.fields ++ [("retry_policy", serializeOption RetryPolicy.serialize op.retryPolicy)]).lookup
        k = some v := by
    intro op k v hv
    rw [List.lookup_append, hv, Option.some_or]
  apply Operation.upTo hretry
  intro k v v' hv hv'
  exact View.field (V := .written) heq (by simp) (by simp) k (hfront op k v hv) (hfront op' k v' hv')

/-- So does what is printed at once, and nothing is left open. -/
theorem eq_of_serialize {spec spec' : OpenAPI} {d d' : Document} (h : resolve spec = .ok d)
    (h' : resolve spec' = .ok d') (heq : d.serialize = d'.serialize) :
    d.schemas = d'.schemas ∧ d.operations = d'.operations := by
  obtain ⟨-, -, hretry⟩ := resolve_written h
  obtain ⟨-, -, hretry'⟩ := resolve_written h'
  have hschemas := View.field (V := .written) heq (by simp) (by simp) "schemas" rfl rfl
  have hmodels := View.field (V := .written) hschemas (by simp) (by simp) "models" rfl rfl
  have hoperations := View.field (V := .written) heq (by simp) (by simp) "operations" rfl rfl
  have hentries : UpTo View.written.Same (d.schemas.models.entries.flatMap fun e => e.2.mappings)
      (d'.schemas.models.entries.flatMap fun e => e.2.mappings)
      (d.schemas.models.entries = d'.schemas.models.entries) := by
    refine UpTo.map (fun e _ e' _ h => ?_) (Value.object.inj hmodels)
    obtain ⟨hname, hmodel⟩ := Prod.mk.inj h
    exact (Model.upTo (V := .written) hmodel).imp fun hm => Prod.ext hname hm
  have hops : UpTo View.written.Same _ _ _ := UpTo.map (fun op hop op' hop' =>
    serialized_upTo ((hretry op hop).trans (hretry' op' hop').symm)) (Value.array.inj hoperations)
  exact ⟨registry_ext (hentries.2 fun _ _ => trivial), hops.2 fun _ _ => trivial⟩

/-- The texts of the lines tell the lines. -/
theorem streamLines_of_texts {W : Writer} {d d' : Document}
    (h : runEmit W true d = runEmit W true d') : streamLines d = streamLines d' :=
  eq_of_map_eq h fun v hv w hw => Writer.toText_inj (numberless_streamLines d v hv)
    (numberless_streamLines d' w hw)

/-- **Streaming.** Documents with the same lines are printed alike at once exactly if they ask for
the same security schemes and list the keys of their mappings in the same orders. -/
theorem emit_eq_iff {W : Writer} {spec spec' : OpenAPI} {d d' : Document}
    (h : resolve spec = .ok d) (h' : resolve spec' = .ok d')
    (hlines : runEmit W true d = runEmit W true d') :
    runEmit W false d = runEmit W false d' ↔
      d.security = d'.security ∧ d.mappings.map IndexMap.keys = d'.mappings.map IndexMap.keys := by
  obtain ⟨hversion, hwebhooks, hretry⟩ := resolve_written h
  obtain ⟨hversion', hwebhooks', hretry'⟩ := resolve_written h'
  constructor
  · intro hprinted
    have hserialize : d.serialize = d'.serialize :=
      Writer.toTextPretty_inj (numberless_document hwebhooks hretry)
        (numberless_document hwebhooks' hretry') (List.head_eq_of_cons_eq hprinted)
    obtain ⟨hschemas, hoperations⟩ := eq_of_serialize h h' hserialize
    have hsecurity := View.field (V := .written) hserialize (by simp) (by simp) "security" rfl rfl
    refine ⟨View.array_inj (fun _ _ => SecurityScheme.serialize_inj) hsecurity, ?_⟩
    rw [Document.mappings, Document.mappings, hschemas, hoperations, hwebhooks, hwebhooks']
  · rintro ⟨hsecurity, hkeys⟩
    have hvalues := streamLines_of_texts hlines
    have hheader := (lines_of_streamLines hvalues).1
    have htitle := View.field (V := .sorted) hheader (by simp) (by simp) "title" rfl rfl
    have hversions := View.field (V := .sorted) hheader (by simp) (by simp) "version" rfl rfl
    have hbase := View.field (V := .sorted) hheader (by simp) (by simp) "base_url" rfl rfl
    obtain ⟨hschemas, hoperations⟩ := (upTo_of_streamLines h h' hvalues).2 (zip_of_map_eq hkeys)
    rw [View.string, View.string, Value.string.injEq] at htitle hversions
    have hdocument : d = d' := by
      obtain ⟨⟩ := d
      obtain ⟨⟩ := d'
      simp_all
    rw [hdocument]

/-- A specification with a scheme, perhaps asked for. -/
def guardedSpec (security : Option (List (List String))) : OpenAPI where
  info := ⟨"Pets", "1.0.0"⟩
  servers := []
  paths := IndexMap.empty
  components := some ⟨IndexMap.ofList [("auth", .item (.http "bearer"))], IndexMap.empty,
    IndexMap.empty, IndexMap.empty⟩
  security := security

/-- What it resolves to. -/
def guardedDocument (security : List SecurityScheme) : Document where
  irVersion := IR_VERSION
  title := "Pets"
  version := "1.0.0"
  baseUrl := none
  security := security
  schemas := SchemaRegistry.default
  operations := []
  webhooks := []

theorem resolve_open : resolve (guardedSpec none) = .ok (guardedDocument []) := rfl

theorem resolve_guarded :
    resolve (guardedSpec (some [["auth"]])) = .ok (guardedDocument [.httpBearer]) := rfl

/-- A writer for documents without doubles. -/
def plainWriter : Writer := printer (fun _ => ['0']) fun _ => rfl

theorem emit_eq_iff_guarded :
    runEmit plainWriter false (guardedDocument []) =
        runEmit plainWriter false (guardedDocument [.httpBearer]) ↔
      (guardedDocument []).security = (guardedDocument [.httpBearer]).security ∧
        (guardedDocument []).mappings.map IndexMap.keys =
          (guardedDocument [.httpBearer]).mappings.map IndexMap.keys :=
  emit_eq_iff resolve_open resolve_guarded rfl

/-- The lines do not say whether the scheme is asked for. -/
theorem lines_without_security : ¬∀ (W : Writer) (spec spec' : OpenAPI) (d d' : Document),
    resolve spec = .ok d → resolve spec' = .ok d' → runEmit W true d = runEmit W true d' →
      runEmit W false d = runEmit W false d' := by
  intro hclaim
  have hprinted := hclaim plainWriter _ _ _ _ resolve_open resolve_guarded rfl
  have htext := List.head_eq_of_cons_eq hprinted
  have hserialize : (guardedDocument []).serialize = (guardedDocument [.httpBearer]).serialize :=
    Writer.toTextPretty_inj (numberless_document rfl fun _ h => by cases h)
      (numberless_document rfl fun _ h => by cases h) htext
  have hsecurity := View.field (V := .written) hserialize (by simp) (by simp) "security" rfl rfl
  cases View.array_inj (fun _ _ => SecurityScheme.serialize_inj) hsecurity

/-! ## §4  What a reader gets -/

section

open Lib.JsonText

/-- The standard output: `println!` puts a line feed behind each text. -/
def stdout (W : Writer) (stream : Bool) (doc : Document) : List Char :=
  (runEmit W stream doc).flatMap (· ++ ['\n'])

/-- A line feed behind a text is no part of what it says. -/
theorem parses_lineFeed_iff {cs : List Char} {t t' : Tree} (h : Lib.JsonText.Reads cs t) :
    Parses (cs ++ ['\n']) t' ↔ t' = t := by
  have hparses : Parses (cs ++ ['\n']) t := by
    obtain ⟨m, hm⟩ := h
    refine ⟨m, ['\n'], hm m (Nat.le_refl m) _ ?_, rfl⟩
    exact ends_cons (Or.inr (Or.inr (Or.inr rfl))) []
  constructor
  · exact fun h' => h'.unique hparses
  · rintro rfl
    exact hparses

/-- **The dump is lossless.** What `emit` prints of a document is a JSON text that says the
document's serialisation and nothing else, and no two documents are printed alike. -/
theorem emit_lossless {W : Writer} {spec spec' : OpenAPI} {d d' : Document}
    (h : resolve spec = .ok d) (h' : resolve spec' = .ok d') :
    (∀ t, Parses (stdout W false d) t ↔ t = tree W.number d.serialize) ∧
      (stdout W false d = stdout W false d' ↔ d = d') := by
  obtain ⟨hversion, hwebhooks, hretry⟩ := resolve_written h
  obtain ⟨hversion', hwebhooks', hretry'⟩ := resolve_written h'
  have hnumberless := numberless_document hwebhooks hretry
  have hnumberless' := numberless_document hwebhooks' hretry'
  have hprinted : ∀ d, stdout W false d = W.toTextPretty d.serialize ++ ['\n'] := by
    intro d
    simp [stdout, runEmit]
  constructor
  · intro t
    rw [hprinted]
    exact parses_lineFeed_iff (W.toTextPretty_reads d.serialize)
  constructor
  · intro heq
    rw [hprinted, hprinted] at heq
    have hserialize : d.serialize = d'.serialize :=
      Writer.toTextPretty_inj hnumberless hnumberless' (List.append_cancel_right heq)
    obtain ⟨hschemas, hoperations⟩ := eq_of_serialize h h' hserialize
    have htitle := View.field (V := .written) hserialize (by simp) (by simp) "title" rfl rfl
    have hnumber := View.field (V := .written) hserialize (by simp) (by simp) "version" rfl rfl
    have hbase := View.field (V := .written) hserialize (by simp) (by simp) "base_url" rfl rfl
    have hsecurity := View.field (V := .written) hserialize (by simp) (by simp) "security" rfl rfl
    have hsecurities : d.security = d'.security :=
      View.array_inj (fun _ _ => SecurityScheme.serialize_inj) hsecurity
    rw [View.string, View.string, Value.string.injEq] at htitle hnumber
    obtain ⟨⟩ := d
    obtain ⟨⟩ := d'
    simp_all
  · rintro rfl
    rfl

/-- A document with a security scheme is told from one without. -/
theorem emit_lossless_guarded : stdout plainWriter false (guardedDocument []) ≠
    stdout plainWriter false (guardedDocument [.httpBearer]) := by
  intro heq
  have hdocument := (emit_lossless resolve_open resolve_guarded).2.mp heq
  have hsecurity : ([] : List SecurityScheme) = [.httpBearer] := congrArg Document.security hdocument
  cases hsecurity

end

end SpecForge.Cli
