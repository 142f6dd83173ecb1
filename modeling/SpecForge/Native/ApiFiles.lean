import SpecForge.Lib.Affixes
import SpecForge.Lib.BTreeMap
import SpecForge.Native.SnakeCase

/-!
# The API files of the Go and the Rust SDK

Both emitters write one file for each tag, named after the snake_case of its PascalCase form.
All files are written in parallel, so of two that share a path either may stay.

- §1 the files of both SDKs. §2 what `go build` leaves out. §3 when the files keep apart.

Of a file only the path and the operations that it has functions for are kept.
-/

namespace SpecForge

open Lib Native

/-! ## §1  The files -/

/-- The path below the output directory, and the operations inside. -/
abbrev SdkFile := String × List Operation

def tagOf (op : Operation) : String := op.tag.getD "Default"

def byTag (doc : Document) : List (String × List Operation) :=
  BTreeMap.groupBy tagOf doc.operations

namespace Go

def apiPath (u : CharCase) (tag : String) : String := "api_" ++ snake u (pascal tag) ++ ".go"

def apiFiles (u : CharCase) (doc : Document) : List SdkFile :=
  (byTag doc).map fun g => (apiPath u g.1, g.2)

/-- The files whose paths do not depend on the operations. -/
def fixedPaths (doc : Document) : List String :=
  ["go.mod", "client.go", "retry.go", "paginate.go", "concurrency.go", "dedup.go", "middleware.go",
   "interceptors.go", "idempotency.go", "streaming.go", "cache.go", "ratelimit.go", "telemetry.go",
   "logging.go", "validate.go", "validation_middleware.go", "models.go"]
  ++ (if doc.webhooks.isEmpty then [] else ["webhooks.go"])
  ++ ["README.md", "specforge-version.json"]

def sdkFiles (u : CharCase) (doc : Document) : List SdkFile :=
  (fixedPaths doc).map (·, []) ++ apiFiles u doc

end Go

namespace Rust

def apiPath (m : String) : String := "src/api/" ++ m ++ ".rs"

/-- The modules that `src/api/mod.rs` declares. -/
def apiModules (u : CharCase) (doc : Document) : List String :=
  (byTag doc).map fun g => snake u (pascal g.1)

def apiFiles (u : CharCase) (doc : Document) : List SdkFile :=
  (byTag doc).map fun g => (apiPath (snake u (pascal g.1)), g.2)

def fixedPaths (doc : Document) : List String :=
  ["Cargo.toml", "src/error.rs", "src/client.rs", "src/retry.rs", "src/paginate.rs",
   "src/concurrency.rs", "src/dedup.rs", "src/middleware.rs", "src/interceptors.rs",
   "src/idempotency.rs", "src/streaming.rs", "src/cache.rs", "src/ratelimit.rs",
   "src/telemetry.rs", "src/logging.rs", "src/validate.rs", "src/validation_middleware.rs",
   "src/models.rs"]
  ++ (if doc.webhooks.isEmpty then [] else ["src/webhooks.rs"])
  ++ ["src/api/mod.rs", "src/lib.rs", "README.md", "specforge-version.json"]

def sdkFiles (u : CharCase) (doc : Document) : List SdkFile :=
  (fixedPaths doc).map (·, []) ++ apiFiles u doc

end Rust

/-- What is at a path once all files have been written, in this order. -/
def onDisk (writes : List SdkFile) (path : String) : Option (List Operation) :=
  writes.reverse.lookup path

/-! ## §2  What `go build` leaves out -/

namespace Go

def knownOS : List String :=
  ["aix", "android", "darwin", "dragonfly", "freebsd", "hurd", "illumos", "ios", "js", "linux",
   "nacl", "netbsd", "openbsd", "plan9", "solaris", "wasip1", "windows", "zos"]

def knownArch : List String :=
  ["386", "amd64", "amd64p32", "arm", "armbe", "arm64", "arm64be", "loong64", "mips", "mipsle",
   "mips64", "mips64le", "mips64p32", "mips64p32le", "ppc", "ppc64", "ppc64le", "riscv",
   "riscv64", "s390", "s390x", "sparc", "sparc64", "wasm"]

/-- A file so called is a test, or is built for one system only. -/
def buildSuffixes : List String := "test" :: (knownOS ++ knownArch)

def hasBuildSuffix (path : String) : Bool :=
  buildSuffixes.any fun s => Text.endsWith ("_" ++ s ++ ".go") path

end Go

/-! ## §3  Files that keep apart -/

/-- The paths and modules of the tags are distinct and no other file's, no Go file is left out,
and in whatever order the files are written every operation is in a file that is built. -/
structure FilesApart (u : CharCase) (doc : Document) : Prop where
  goPaths : ((Go.apiFiles u doc).map Prod.fst).Nodup
  rustPaths : ((Rust.apiFiles u doc).map Prod.fst).Nodup
  rustModules : (Rust.apiModules u doc).Nodup
  goOthers : ∀ f ∈ Go.apiFiles u doc, f.1 ∉ Go.fixedPaths doc
  rustOthers : ∀ f ∈ Rust.apiFiles u doc, f.1 ∉ Rust.fixedPaths doc
  goSuffixes : ∀ f ∈ Go.sdkFiles u doc, Go.hasBuildSuffix f.1 = false
  goBuilt : ∀ writes, writes.Perm (Go.sdkFiles u doc) → ∀ op ∈ doc.operations,
    ∃ path ops, onDisk writes path = some ops ∧ op ∈ ops ∧ Go.hasBuildSuffix path = false
  rustBuilt : ∀ writes, writes.Perm (Rust.sdkFiles u doc) → ∀ op ∈ doc.operations,
    ∃ m ∈ Rust.apiModules u doc, ∃ ops, onDisk writes (Rust.apiPath m) = some ops ∧ op ∈ ops

/-- Different tags have different PascalCase forms. -/
def TagsApart (doc : Document) : Prop :=
  ∀ op ∈ doc.operations, ∀ op' ∈ doc.operations,
    pascal (tagOf op) = pascal (tagOf op') → tagOf op = tagOf op'

/-- No tag ends in a word that `go build` knows. -/
def TagsBuilt (doc : Document) : Prop :=
  ∀ op ∈ doc.operations, lastWord (pascal (tagOf op)) ∉ Go.buildSuffixes

section Apart

variable {u : CharCase} {doc : Document}

theorem mem_byTag {g : String × List Operation} : g ∈ byTag doc ↔
    (∃ op ∈ doc.operations, tagOf op = g.1) ∧
      g.2 = doc.operations.filter fun op => tagOf op = g.1 :=
  BTreeMap.mem_groupBy

theorem group_mem_byTag {op : Operation} (hop : op ∈ doc.operations) :
    (tagOf op, doc.operations.filter fun op' => tagOf op' = tagOf op) ∈ byTag doc :=
  mem_byTag.mpr ⟨⟨op, hop, rfl⟩, rfl⟩

/-- Names that tell PascalCase forms apart are distinct exactly if these are. -/
theorem nodup_tagNames_iff {f : String → String}
    (hf : ∀ s t, f s = f t ↔ pascal s = pascal t) :
    ((byTag doc).map fun g => f g.1).Nodup ↔ TagsApart doc := by
  have hkeys : ((byTag doc).map Prod.fst).Nodup :=
    (BTreeMap.sorted_groupBy tagOf doc.operations).nodup
  have hmem : ∀ tag, tag ∈ (byTag doc).map Prod.fst ↔ ∃ op ∈ doc.operations, tagOf op = tag := by
    intro tag
    rw [List.mem_map]
    constructor
    · rintro ⟨g, hg, rfl⟩
      exact (mem_byTag.mp hg).1
    · rintro ⟨op, hop, rfl⟩
      exact ⟨_, group_mem_byTag hop, rfl⟩
  have hcomp : (byTag doc).map (fun g => f g.1) = ((byTag doc).map Prod.fst).map f := by
    rw [List.map_map]
    rfl
  rw [hcomp, List.nodup_map_iff_inj_on hkeys]
  constructor
  · intro hinj op hop op' hop' hpascal
    exact hinj _ ((hmem _).mpr ⟨op, hop, rfl⟩) _ ((hmem _).mpr ⟨op', hop', rfl⟩)
      ((hf _ _).mpr hpascal)
  · intro hapart t ht t' ht' heq
    obtain ⟨op, hop, rfl⟩ := (hmem t).mp ht
    obtain ⟨op', hop', rfl⟩ := (hmem t').mp ht'
    exact hapart op hop op' hop' ((hf _ _).mp heq)

theorem Go.apiFile_mem {op : Operation} (hop : op ∈ doc.operations) :
    (Go.apiPath u (tagOf op), doc.operations.filter fun op' => tagOf op' = tagOf op) ∈
      Go.apiFiles u doc :=
  List.mem_map.mpr ⟨_, group_mem_byTag hop, rfl⟩

theorem Rust.apiFile_mem {op : Operation} (hop : op ∈ doc.operations) :
    (Rust.apiPath (Rust.snake u (pascal (tagOf op))),
      doc.operations.filter fun op' => tagOf op' = tagOf op) ∈ Rust.apiFiles u doc :=
  List.mem_map.mpr ⟨_, group_mem_byTag hop, rfl⟩

theorem Go.apiPath_inj (s t : String) : Go.apiPath u s = Go.apiPath u t ↔ pascal s = pascal t := by
  refine Iff.trans ⟨fun h => ?_, fun h => ?_⟩ (Go.snake_pascal_inj (u := u))
  · exact Text.append_inj_left (Text.append_inj_right h)
  · rw [Go.apiPath, Go.apiPath, h]

theorem Rust.apiPath_inj {m m' : String} : Rust.apiPath m = Rust.apiPath m' ↔ m = m' :=
  ⟨fun h => Text.append_inj_left (Text.append_inj_right h), congrArg _⟩

theorem Go.nodup_apiPaths_iff : ((Go.apiFiles u doc).map Prod.fst).Nodup ↔ TagsApart doc := by
  rw [Go.apiFiles, List.map_map]
  exact nodup_tagNames_iff Go.apiPath_inj

theorem Rust.nodup_apiModules_iff : (Rust.apiModules u doc).Nodup ↔ TagsApart doc :=
  nodup_tagNames_iff (f := fun s => Rust.snake u (pascal s)) fun _ _ => Rust.snake_pascal_inj

theorem Rust.nodup_apiPaths_iff : ((Rust.apiFiles u doc).map Prod.fst).Nodup ↔ TagsApart doc := by
  rw [Rust.apiFiles, List.map_map]
  refine nodup_tagNames_iff (f := fun s => Rust.apiPath (Rust.snake u (pascal s))) ?_
  exact fun _ _ => Rust.apiPath_inj.trans Rust.snake_pascal_inj

theorem Go.fixedPaths_spec : (Go.fixedPaths doc).Nodup ∧ ∀ path ∈ Go.fixedPaths doc,
    ¬ Utf8.bytes "api_" <+: Utf8.bytes path ∧
      (95 ∈ Utf8.bytes path → path = "validation" ++ "_" ++ "middleware" ++ ".go") := by
  unfold Go.fixedPaths
  generalize doc.webhooks.isEmpty = noWebhooks
  revert noWebhooks
  decide +kernel

theorem Rust.fixedPaths_spec : (Rust.fixedPaths doc).Nodup ∧ ∀ path ∈ Rust.fixedPaths doc,
    Utf8.bytes "src/api/" <+: Utf8.bytes path → path = "src/api/mod.rs" := by
  unfold Rust.fixedPaths
  generalize doc.webhooks.isEmpty = noWebhooks
  revert noWebhooks
  decide +kernel

theorem Go.apiPath_notMem_fixedPaths (tag : String) : Go.apiPath u tag ∉ Go.fixedPaths doc := by
  have hnone : Text.NoneStarts "api_" (Go.fixedPaths doc) :=
    Text.noneStarts_of_bytes fun path h => (Go.fixedPaths_spec.2 path h).1
  rw [Go.apiPath, String.append_assoc]
  exact hnone.append_not_mem _

/-- No module has a reserved name. -/
theorem Rust.not_reserved_snake (tag : String) :
    Rust.snake u (pascal tag) ∉ Rust.rustReserved := by
  rw [Rust.snake_pascal]
  unfold Rust.escapeReserved
  split
  · have hnone : Text.NoneEnds "_" Rust.rustReserved :=
      Text.noneEnds_of_bytes (by decide +kernel)
    exact hnone.append_not_mem _
  · next hfree =>
      intro hmem
      exact hfree (List.contains_iff_mem.mpr hmem)

theorem Rust.apiPath_notMem_fixedPaths (tag : String) :
    Rust.apiPath (Rust.snake u (pascal tag)) ∉ Rust.fixedPaths doc := by
  intro hmem
  have hprefix : Utf8.bytes "src/api/" <+: Utf8.bytes (Rust.apiPath (Rust.snake u (pascal tag))) :=
    Utf8.bytes_prefix (Text.prefix_iff.mpr ⟨_, String.append_assoc⟩)
  -- the one fixed file of that directory belongs to a reserved name
  have hm : Rust.snake u (pascal tag) = "mod" :=
    Rust.apiPath_inj.mp (Rust.fixedPaths_spec.2 _ hmem hprefix)
  refine Rust.not_reserved_snake (u := u) tag ?_
  rw [hm]
  decide

theorem append_underscore_inj {r r' s s' : String} (hs : '_' ∉ s.toList) (hs' : '_' ∉ s'.toList)
    (h : r ++ "_" ++ s = r' ++ "_" ++ s') : s = s' := by
  have hsome := Text.head?_rsplit_append hs r
  have hsome' := Text.head?_rsplit_append hs' r'
  rw [show String.ofList ['_'] = "_" from rfl] at hsome hsome'
  rw [h, hsome'] at hsome
  exact (Option.some.inj hsome).symm

theorem Go.underscore_notMem_buildSuffixes : ∀ s ∈ Go.buildSuffixes, '_' ∉ s.toList := by
  have hbytes : ∀ s ∈ Go.buildSuffixes, 95 ∉ Utf8.bytes s := by decide +kernel
  exact fun s hs hmem => hbytes s hs (Utf8.mem_bytes hmem (by decide))

/-- What counts is the word after the last underscore. -/
theorem Go.hasBuildSuffix_iff (r : String) {s : String} (hs : '_' ∉ s.toList) :
    Go.hasBuildSuffix (r ++ "_" ++ s ++ ".go") = true ↔ s ∈ Go.buildSuffixes := by
  rw [Go.hasBuildSuffix, List.any_eq_true]
  constructor
  · rintro ⟨s', hs', hend⟩
    obtain ⟨r', hr'⟩ := Text.endsWith_iff.mp hend
    rw [← String.append_assoc, ← String.append_assoc] at hr'
    have heq := append_underscore_inj hs (Go.underscore_notMem_buildSuffixes s' hs')
      (Text.append_inj_right hr')
    rwa [heq]
  · intro hmem
    refine ⟨_, hmem, Text.endsWith_iff.mpr ⟨r, ?_⟩⟩
    simp only [String.append_assoc]

theorem Go.hasBuildSuffix_apiPath (tag : String) :
    Go.hasBuildSuffix (Go.apiPath u tag) = true ↔ lastWord (pascal tag) ∈ Go.buildSuffixes := by
  obtain ⟨r, hr⟩ := Go.underscore_snake_pascal (u := u) tag
  have hpath : Go.apiPath u tag = "api" ++ r ++ "_" ++ lastWord (pascal tag) ++ ".go" := by
    have hfront : Go.apiPath u tag = "api" ++ ("_" ++ Go.snake u (pascal tag)) ++ ".go" := by
      rw [← String.append_assoc]
      rfl
    rw [hfront, hr]
    simp only [String.append_assoc]
  rw [hpath]
  exact Go.hasBuildSuffix_iff _ (underscore_notMem_lastWord tag)

theorem Go.underscore_mem_of_hasBuildSuffix {path : String} (h : Go.hasBuildSuffix path = true) :
    '_' ∈ path.toList := by
  obtain ⟨s, -, hend⟩ := List.any_eq_true.mp h
  obtain ⟨r, rfl⟩ := Text.endsWith_iff.mp hend
  simp

theorem Go.hasBuildSuffix_fixedPaths {path : String} (hpath : path ∈ Go.fixedPaths doc) :
    Go.hasBuildSuffix path = false := by
  rw [← Bool.not_eq_true]
  intro h
  have hunderscore : 95 ∈ Utf8.bytes path :=
    Utf8.mem_bytes (Go.underscore_mem_of_hasBuildSuffix h) (by decide)
  rw [(Go.fixedPaths_spec.2 path hpath).2 hunderscore, Go.hasBuildSuffix_iff _ (by decide)] at h
  exact absurd h (by decide)

/-- With distinct paths the order of the writes does not matter. -/
theorem onDisk_of_perm {writes files : List SdkFile} (hperm : writes.Perm files)
    (hnd : (files.map Prod.fst).Nodup) {f : SdkFile} (hf : f ∈ files) :
    onDisk writes f.1 = some f.2 := by
  have hrev : writes.reverse.Perm files := writes.reverse_perm.trans hperm
  apply lookup_eq_some_of_mem
  · exact ((hrev.map Prod.fst).nodup_iff).mpr hnd
  · exact hrev.mem_iff.mpr hf

/-- The paths of all files are distinct if those of the API files are and no other has one. -/
theorem nodup_sdkPaths {fixed : List String} {api : List SdkFile} (hfixed : fixed.Nodup)
    (hapi : (api.map Prod.fst).Nodup) (hothers : ∀ f ∈ api, f.1 ∉ fixed) :
    ((fixed.map ((·, []) : String → SdkFile) ++ api).map Prod.fst).Nodup := by
  have hmap : (fixed.map ((·, []) : String → SdkFile)).map Prod.fst = fixed := by
    rw [List.map_map]
    exact List.map_id fixed
  rw [List.map_append, hmap, List.nodup_append']
  refine ⟨hfixed, hapi, fun path hpath hmem => ?_⟩
  obtain ⟨f, hf, rfl⟩ := List.mem_map.mp hmem
  exact hothers f hf hpath

end Apart

/-- **The files keep apart and are all built exactly if different tags have different PascalCase
forms and none of these ends in a word that `go build` knows.** -/
theorem filesApart_iff (u : CharCase) (doc : Document) :
    FilesApart u doc ↔ TagsApart doc ∧ TagsBuilt doc := by
  constructor
  · intro h
    refine ⟨Go.nodup_apiPaths_iff.mp h.goPaths, fun op hop hsuffix => ?_⟩
    have hnone := h.goSuffixes _ (List.mem_append_right _ (Go.apiFile_mem hop))
    rw [(Go.hasBuildSuffix_apiPath _).mpr hsuffix] at hnone
    cases hnone
  · rintro ⟨hapart, hbuilt⟩
    have hgo := Go.nodup_apiPaths_iff (u := u).mpr hapart
    have hrust := Rust.nodup_apiPaths_iff (u := u).mpr hapart
    have hgoOthers : ∀ f ∈ Go.apiFiles u doc, f.1 ∉ Go.fixedPaths doc := by
      intro f hf
      obtain ⟨g, -, rfl⟩ := List.mem_map.mp hf
      exact Go.apiPath_notMem_fixedPaths g.1
    have hrustOthers : ∀ f ∈ Rust.apiFiles u doc, f.1 ∉ Rust.fixedPaths doc := by
      intro f hf
      obtain ⟨g, -, rfl⟩ := List.mem_map.mp hf
      exact Rust.apiPath_notMem_fixedPaths g.1
    have hapi : ∀ op ∈ doc.operations, Go.hasBuildSuffix (Go.apiPath u (tagOf op)) = false := by
      intro op hop
      rw [← Bool.not_eq_true, Go.hasBuildSuffix_apiPath]
      exact hbuilt op hop
    refine ⟨hgo, hrust, Rust.nodup_apiModules_iff.mpr hapart, hgoOthers, hrustOthers, ?_, ?_, ?_⟩
    · intro f hf
      rcases List.mem_append.mp hf with hf | hf
      · obtain ⟨path, hpath, rfl⟩ := List.mem_map.mp hf
        exact Go.hasBuildSuffix_fixedPaths hpath
      · obtain ⟨g, hg, rfl⟩ := List.mem_map.mp hf
        obtain ⟨⟨op, hop, htag⟩, -⟩ := mem_byTag.mp hg
        rw [← htag]
        exact hapi op hop
    · intro writes hperm op hop
      have hdisk := onDisk_of_perm hperm (nodup_sdkPaths Go.fixedPaths_spec.1 hgo hgoOthers)
        (List.mem_append_right _ (Go.apiFile_mem hop))
      exact ⟨_, _, hdisk, List.mem_filter.mpr ⟨hop, decide_eq_true rfl⟩, hapi op hop⟩
    · intro writes hperm op hop
      have hdisk := onDisk_of_perm hperm (nodup_sdkPaths Rust.fixedPaths_spec.1 hrust hrustOthers)
        (List.mem_append_right _ (Rust.apiFile_mem hop))
      have hmodule : Rust.snake u (pascal (tagOf op)) ∈ Rust.apiModules u doc :=
        List.mem_map.mpr ⟨_, group_mem_byTag hop, rfl⟩
      exact ⟨_, hmodule, _, hdisk, List.mem_filter.mpr ⟨hop, decide_eq_true rfl⟩⟩

/-- The operations tagged `test` are in `api_test.go`. -/
theorem test_tag_left_out : ¬∀ (u : CharCase) (doc : Document), FilesApart u doc := by
  intro h
  let op : Operation := ⟨"run", .post, "/tests", some "test", none, none, [], none, [], none⟩
  have hop : op ∈ (Document.minimal .default [op]).operations := List.mem_singleton.mpr rfl
  have hnone := (h CharCase.ascii (Document.minimal .default [op])).goSuffixes _
    (List.mem_append_right _ (Go.apiFile_mem hop))
  have hword : lastWord (pascal (tagOf op)) ∈ Go.buildSuffixes := by decide
  rw [(Go.hasBuildSuffix_apiPath _).mpr hword] at hnone
  cases hnone

end SpecForge
