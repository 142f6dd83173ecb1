import SpecForge.Lib.IndexMap
import SpecForge.Lib.Fuel
import SpecForge.Lib.Text
import SpecForge.Lib.Acyclic
import SpecForge.Core.Json
import SpecForge.Core.Ir
import SpecForge.Core.Diff
import SpecForge.Core.DiffChanges
import SpecForge.Core.Validate
import SpecForge.Core.Verify
import SpecForge.Core.Agreement
import SpecForge.Core.OpenApi
import SpecForge.Core.Resolve
import SpecForge.Core.Registry
import SpecForge.Core.ResolvedObjects
import SpecForge.Core.MergeOverlay
import SpecForge.Core.ResolveOrder
import SpecForge.Core.DiffGate
import SpecForge.Core.DiffAlgebra
import SpecForge.Core.Changelog
import SpecForge.Core.ChangelogSchemas
import SpecForge.Core.ChangelogOperations
import SpecForge.Core.Infer
import SpecForge.Lib.BTreeMap
import SpecForge.Core.OperationIds
import SpecForge.Core.Termination
import SpecForge.Core.Nullability
import SpecForge.Core.Examples
import SpecForge.Core.Mock
import SpecForge.Core.TestGen
import SpecForge.Core.MockConformance
import SpecForge.Core.LocalRefs
import SpecForge.Core.Merge
import SpecForge.Core.MergeReferences
import SpecForge.Core.SwaggerExport
import SpecForge.Core.ExportInlining
import SpecForge.Core.Spec
import SpecForge.Core.Positions
import SpecForge.Core.DowngradeScope
import SpecForge.Core.Decoding
import SpecForge.Core.WebhookTypes
import SpecForge.Core.Security
import SpecForge.Lib.Ascii
import SpecForge.Ts.Name
import SpecForge.Lib.Marked
import SpecForge.Ts.Types
import SpecForge.Ts.Models
import SpecForge.Ts.Operations
import SpecForge.Ts.References
import SpecForge.Lib.Infix
import SpecForge.Ts.TypeSyntax
import SpecForge.Ts.TypePrecedence
import SpecForge.Ts.TypeStructure
import SpecForge.Lib.Js
import SpecForge.Ts.Validate
import SpecForge.Ts.FalseAlarms
import SpecForge.Ts.BodyValidation
import SpecForge.Ts.Generate
import SpecForge.Ts.Callable
import SpecForge.Lib.Attempts
import SpecForge.Ts.Client
import SpecForge.Ts.RouteLookup
import SpecForge.Ts.Idempotency
import SpecForge.Ts.ConditionalGet
import SpecForge.Lib.Machine
import SpecForge.Ts.Semaphore
import SpecForge.Lib.Quota
import SpecForge.Ts.TokenBucket
import SpecForge.Ts.SlidingWindow
import SpecForge.Lib.SingleFlight
import SpecForge.Ts.Dedupe
import SpecForge.Cli.Convert
import SpecForge.Cli.RoundTrip
import SpecForge.Cli.ConvertAgreement
import SpecForge.Lib.Bounds
import SpecForge.Cli.NumericBounds
import SpecForge.Core.ComponentRefs
import SpecForge.Native.Go
import SpecForge.Native.Rust
import SpecForge.Native.FiniteTypes
import SpecForge.Core.PlainRefs
import SpecForge.Core.JsonSchema
import SpecForge.Core.Serialize
import SpecForge.Cli.IrSchema
import SpecForge.Lib.Threads
import SpecForge.Go.Retry
import SpecForge.Go.Client
import SpecForge.Go.RateLimit
import SpecForge.Sdk.Windows
import SpecForge.Rust.Retry
import SpecForge.Sdk.Retries
import SpecForge.Rust.Telemetry
import SpecForge.Rust.Dedupe
import SpecForge.Rust.Cache
import SpecForge.Go.Calls
import SpecForge.Go.Cancellation
import SpecForge.Go.ConditionalHeaders
import SpecForge.Rust.Integers
import SpecForge.Rust.References
import SpecForge.Lib.Paging
import SpecForge.Sdk.Paginate
import SpecForge.Native.Inheritance
import SpecForge.Native.Unions
import SpecForge.Lib.EventStream
import SpecForge.Lib.Utf8
import SpecForge.Rust.Sse
import SpecForge.Sdk.EventStreams
import SpecForge.Native.GoJson
import SpecForge.Native.GoModels
import SpecForge.Lib.Affixes
import SpecForge.Native.GoNames
import SpecForge.Core.TypeChanges
import SpecForge.Core.ParameterLevels
import SpecForge.Core.Features31
import SpecForge.Native.GoUnions
import SpecForge.Native.Validators
import SpecForge.Native.SnakeCase
import SpecForge.Native.ApiFiles
import SpecForge.Lib.Percent
import SpecForge.Native.Calls
import SpecForge.Native.RequiredParameters
import SpecForge.Native.Targets
import SpecForge.Core.DowngradeTwice
import SpecForge.Core.MockRoutes
import SpecForge.Core.UnusedSchemas
import SpecForge.Core.Analyzer
import SpecForge.Lib.Depth
import SpecForge.Core.RefDepth
import SpecForge.Core.RemovableSchemas
import SpecForge.Core.MergeUnion
import SpecForge.Core.ExportTermination
import SpecForge.Core.Versioning
import SpecForge.Core.SecurityRequirements
import SpecForge.Core.PathParams
import SpecForge.Core.Graph
import SpecForge.Core.Dates
import SpecForge.Core.Marketplace
import SpecForge.Lib.JsLiteral
import SpecForge.Ts.Literals
import SpecForge.Core.ExampleBodies
import SpecForge.Lib.ByteSlices
import SpecForge.Lib.Lowercase
import SpecForge.Core.Deprecation
import SpecForge.Core.LongestChains
import SpecForge.Lib.Semver
import SpecForge.Rust.Semver
import SpecForge.Ts.StreamLines
import SpecForge.Native.UndiscriminatedUnions
import SpecForge.Go.StatusRetries
import SpecForge.Lib.GoLiteral
import SpecForge.Lib.FormatString
import SpecForge.Lib.RustLiteral
import SpecForge.Lib.UniqueNames
import SpecForge.Native.Literals
import SpecForge.Native.GoIdentifiers
import SpecForge.Native.RustIdentifiers
import SpecForge.Native.Identifiers
import SpecForge.Ts.Narrowing
import SpecForge.Cli.UpgradedSchemas
import SpecForge.Core.JsonWriter
import SpecForge.Core.Print
import SpecForge.Core.KeyOrder
import SpecForge.Cli.Emit
import SpecForge.Lib.JsonLayout
import SpecForge.Core.PrintedJson
import SpecForge.Go.Semaphore
import SpecForge.Core.Evolution
import SpecForge.Core.LintConfig
import SpecForge.Core.Lint
import SpecForge.Cli.Conversions
import SpecForge.Lib.XorLinear
import SpecForge.Sdk.IdempotencyKeys
import SpecForge.Lib.Expiring
import SpecForge.Sdk.Caches
import SpecForge.Go.CacheAccess
import SpecForge.Lib.RegExp
import SpecForge.Core.TestServer
